import Kleene.Ascending
import Kleene.Automaton.Edge
import Kleene.Automaton.PartsError
import Kleene.Misuse
import Kleene.Text.Quoted

/-!
# Deterministic automata

Automata with at most one transition per state and letter.  The states are `0, 1, …`
without gaps, and each has a mark.  A missing transition rejects, so an automaton need not
be complete.
-/

namespace Kleene

inductive Mark where
  /-- Neither accepting nor known to be a trap. -/
  | plain
  | accepting
  /-- No accepting state can be reached from it. -/
  | trap
  deriving DecidableEq, Repr

/-- The mark of a state that may be accepting or a trap, but not both. -/
def Mark.ofFlags : (accepting trap : Bool) → Except Misuse Mark
  | false, false => .ok .plain
  | true, false => .ok .accepting
  | false, true => .ok .trap
  | true, true => .error .acceptingTrap

def Mark.ofAccepting (accepting : Bool) : Mark := if accepting then .accepting else .plain

/-- How far an automaton may grow: without any limit, or as far as there are numbers for its states
and places for its transitions. -/
inductive Room where
  | unlimited
  | limited (edges : Nat)
  deriving DecidableEq, Repr

/-- The number of the next state of an automaton that has `count` states. -/
def Room.number? : Room → (count : Nat) → Except Misuse State
  | .unlimited, count => .ok count
  | .limited _, count => State.ofIndex count

structure Dfa (σ : Type) where
  /-- The marks of the states, in order. -/
  marks : List Mark
  /-- The letters, ascending. -/
  alphabet : List σ
  /-- The transitions, ascending. -/
  edges : List (Edge σ)
  start : State
  deriving DecidableEq, Repr

namespace Dfa

variable {σ : Type}

/-- One state that is not accepting, without transitions. -/
def single [Ord σ] (alphabet : List σ) : Dfa σ := ⟨[.plain], Ascending.ofList alphabet, [], 0⟩

/-! ## Reading the structure -/

def stateCount (d : Dfa σ) : Nat := d.marks.length

def states (d : Dfa σ) : List State := List.range d.stateCount

def isFinal (d : Dfa σ) (q : State) : Bool := d.marks[q]? = some .accepting

def isTrap (d : Dfa σ) (q : State) : Bool := d.marks[q]? = some .trap

def finals (d : Dfa σ) : List State := d.states.filter d.isFinal

def traps (d : Dfa σ) : List State := d.states.filter d.isTrap

def edge? [DecidableEq σ] (d : Dfa σ) (q : State) (a : σ) : Option (Edge σ) :=
  d.edges.find? fun e => e.source = q && e.label = a

def successor [DecidableEq σ] (d : Dfa σ) (q : State) (a : σ) : Option State :=
  (d.edge? q a).map Edge.target

/-- The transitions by source, letter and target. -/
def transitions [Ord σ] (d : Dfa σ) : List (Edge σ) :=
  d.edges.mergeSort fun e f =>
    (((compare e.source f.source).then (compare e.label f.label)).then
      (compare e.target f.target)).isLE

/-- Whether every state has as many transitions as there are letters. -/
def isComplete (d : Dfa σ) : Bool :=
  d.states.all fun q => d.edges.countP (·.source = q) = d.alphabet.length

def run [DecidableEq σ] (d : Dfa σ) (q : State) (w : List σ) : Option State :=
  w.foldlM d.successor q

def accepts [DecidableEq σ] (d : Dfa σ) (w : List σ) : Bool :=
  ((d.run d.start w).map d.isFinal).getD false

/-! ## Changing the structure -/

def addState (d : Dfa σ) (mark : Mark) : Dfa σ := { d with marks := d.marks ++ [mark] }

/-- The automaton with transitions added, and their letters in the alphabet. -/
def addEdges [Ord σ] (d : Dfa σ) (edges : List (Edge σ)) : Dfa σ :=
  { d with
    alphabet := Ascending.insertAll (edges.map Edge.label) d.alphabet
    edges := Ascending.insertAll edges d.edges }

/-- The pairs of a state and a letter without a transition. -/
def missing [DecidableEq σ] (d : Dfa σ) : List (State × σ) :=
  d.states.flatMap fun q =>
    (d.alphabet.filter fun a => (d.successor q a).isNone).map fun a => (q, a)

/-- The automaton with all transitions: if any is missing, a trap is added to which the
missing ones lead. -/
def complete [Ord σ] [DecidableEq σ] (d : Dfa σ) : Dfa σ :=
  if d.missing.isEmpty then d
  else
    let trap := d.stateCount
    (d.addState .trap).addEdges
      ((d.missing.map fun qa => ⟨qa.1, qa.2, trap⟩) ++ d.alphabet.map fun a => ⟨trap, a, trap⟩)

/-! ## Checked access -/

def requireState (d : Dfa σ) (q : State) : Except Misuse Unit :=
  if q < d.stateCount then .ok () else .error .outOfBounds

def isFinal? (d : Dfa σ) (q : State) : Except Misuse Bool := do
  d.requireState q
  return d.isFinal q

def isTrap? (d : Dfa σ) (q : State) : Except Misuse Bool := do
  d.requireState q
  return d.isTrap q

/-- The automaton with `q`, which must be a state, accepting or not.  An accepting state is no
trap; a state that stops accepting keeps its mark otherwise. -/
def setAccepting? (d : Dfa σ) (q : State) (accepting : Bool) : Except Misuse (Dfa σ) := do
  d.requireState q
  if accepting then return { d with marks := d.marks.set q .accepting }
  else if d.isFinal q then return { d with marks := d.marks.set q .plain }
  else return d

/-- The automaton with one more transition.  A second transition on one letter must not lead
elsewhere; the ends of a new transition must be states. -/
def addEdge? [Ord σ] [DecidableEq σ] [Quotable σ] (d : Dfa σ) (e : Edge σ) :
    Except Misuse (Dfa σ) := do
  match d.successor e.source e.label with
  | some q => if q = e.target then return d else throw (.conflict e.source (quoted e.label) q e.target)
  | none =>
    d.requireState e.source
    d.requireState e.target
    return d.addEdges [e]

/-! ## Limits

What is done step by step is done within limits, or without any. -/

/-- Whether there is room for all states and transitions. -/
def Fits : Room → Dfa σ → Prop
  | .unlimited, _ => True
  | .limited edges, d => d.stateCount ≤ stateLimit ∧ d.edges.length ≤ edges

/-- The number of a new state, and the automaton with it. -/
def addState? (room : Room) (d : Dfa σ) (mark : Mark) : Except Misuse (State × Dfa σ) := do
  let q ← room.number? d.stateCount
  return (q, d.addState mark)

section Changes

variable [Ord σ] [DecidableEq σ] [Quotable σ]

/-- The automaton with one more transition, if there is a place for it. -/
def addEdgeWithin? : Room → Dfa σ → Edge σ → Except Misuse (Dfa σ)
  | .unlimited, d, e => d.addEdge? e
  | .limited edges, d, e => do
    let new ← d.addEdge? e
    if new.edges.length ≤ edges then return new else throw .outOfBounds

/-- Completion step by step: the trap is added first, then one missing transition after the
other. -/
def completeWithin? (room : Room) (d : Dfa σ) : Except Misuse (Dfa σ) :=
  if d.missing.isEmpty then .ok d
  else do
    let (trap, grown) ← d.addState? room .trap
    let new : List (Edge σ) :=
      (d.missing.map fun qa => ⟨qa.1, qa.2, trap⟩) ++ d.alphabet.map fun a => ⟨trap, a, trap⟩
    new.foldlM (addEdgeWithin? room) grown

def complete? (d : Dfa σ) : Except Misuse (Dfa σ) := d.completeWithin? .unlimited

end Changes

/-! ## Descriptions -/

/-- A description of an automaton: lists in any order, with any repetitions. -/
structure Parts (σ : Type) where
  states : List State
  alphabet : List σ
  transitions : List (Edge σ)
  start : State
  finals : List State

/-- The number of a described state: its place among all described states. -/
def Parts.number? (p : Parts σ) (q : State) : Option State :=
  (Ascending.ofList p.states).idxOf? q

def addDescribed [Ord σ] [DecidableEq σ] [Quotable σ] (p : Parts σ) (d : Dfa σ) (e : Edge σ) :
    Except PartsError (Dfa σ) :=
  match p.number? e.source, p.number? e.target with
  | none, _ => .error (.unknownTransitionState e.source)
  | _, none => .error (.unknownTransitionState e.target)
  | some source, some target =>
    match d.successor source e.label with
    | none => .ok (d.addEdges [⟨source, e.label, target⟩])
    | some q => if q = target then .ok d else .error (.nonDeterministic e.source (quoted e.label))

/-- The automaton that a description stands for, with the states numbered in ascending
order.  Letters on transitions join the alphabet. -/
def ofParts [Ord σ] [DecidableEq σ] [Quotable σ] (p : Parts σ) : Except PartsError (Dfa σ) :=
  match p.number? p.start with
  | none => .error (.startNotInStates p.start)
  | some start =>
    match p.finals.find? (· ∉ p.states) with
    | some q => .error (.finalNotInStates q)
    | none =>
      let marks := (Ascending.ofList p.states).map fun q => Mark.ofAccepting (q ∈ p.finals)
      p.transitions.foldlM (addDescribed p) ⟨marks, Ascending.ofList p.alphabet, [], start⟩

end Dfa

end Kleene
