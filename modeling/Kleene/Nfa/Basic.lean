import Kleene.Ascending
import Kleene.Misuse
import Kleene.Automaton.Edge
import Kleene.Automaton.PartsError

/-!
# Nondeterministic automata

Automata with ε-transitions, one start state and one final state.  States, letters and
edges are ascending lists, so automata with the same content are equal.  States have
arbitrary identifiers and a removed state's identifier is not used again: `fresh` is the
identifier that the next new state gets.  The alphabet only grows; it keeps letters that no
edge carries any more.
-/

namespace Kleene

structure Nfa (σ : Type) where
  states : List State
  alphabet : List σ
  edges : List (Edge (Label σ))
  start : State
  final : State
  fresh : State
  deriving DecidableEq, Repr

namespace Nfa

variable {σ τ : Type}

/-- The states `0, …, count - 1` without transitions. -/
def ofCount [Ord σ] (alphabet : List σ) (count : Nat) (start final : State) : Nfa σ where
  states := List.range count
  alphabet := Ascending.ofList alphabet
  edges := []
  start := start
  final := final
  fresh := count

/-- Two states and no transition: no word is accepted. -/
def nothing [Ord σ] (alphabet : List σ) : Nfa σ := ofCount alphabet 2 0 1

/-- One state, both start and final: only the empty word is accepted. -/
def emptyWord [Ord σ] (alphabet : List σ) : Nfa σ := ofCount alphabet 1 0 0

/-- Two states and one transition: only the word of one letter `a` is accepted. -/
def literal (a : σ) : Nfa σ where
  states := [0, 1]
  alphabet := [a]
  edges := [⟨0, .symbol a, 1⟩]
  start := 0
  final := 1
  fresh := 2

/-! ## Reading the structure -/

def hasState (n : Nfa σ) (q : State) : Bool := q ∈ n.states

def stateCount (n : Nfa σ) : Nat := n.states.length

/-- The number of transitions; parallel ones count one by one. -/
def transitionCount (n : Nfa σ) : Nat := n.edges.length

def hasEdge [DecidableEq σ] (n : Nfa σ) (e : Edge (Label σ)) : Bool := e ∈ n.edges

def labelsBetween (n : Nfa σ) (p q : State) : List (Label σ) :=
  (n.edges.filter fun e => e.source = p && e.target = q).map Edge.label

/-- The transitions into `q`, its loops included. -/
def incoming (n : Nfa σ) (q : State) : List (Edge (Label σ)) :=
  n.edges.filter fun e => e.target = q

def outgoing (n : Nfa σ) (q : State) : List (Edge (Label σ)) :=
  n.edges.filter fun e => e.source = q

/-! ## Changing the structure -/

def letters (edges : List (Edge (Label σ))) : List σ := edges.filterMap (·.label.symbol?)

/-- The automaton with transitions added, and their letters in the alphabet. -/
def addEdges [Ord σ] (n : Nfa σ) (edges : List (Edge (Label σ))) : Nfa σ :=
  { n with
    alphabet := Ascending.insertAll (letters edges) n.alphabet
    edges := Ascending.insertAll edges n.edges }

def removeEdge [DecidableEq σ] (n : Nfa σ) (e : Edge (Label σ)) : Nfa σ :=
  { n with edges := n.edges.filter (· ≠ e) }

def addState (n : Nfa σ) : Nfa σ :=
  { n with
    states := Ascending.insert n.fresh n.states
    fresh := n.fresh + 1 }

def mapLetters [Ord τ] (f : σ → τ) (n : Nfa σ) : Nfa τ where
  states := n.states
  alphabet := Ascending.ofList (n.alphabet.map f)
  edges := Ascending.ofList (n.edges.map (Edge.mapLabel (Label.map f)))
  start := n.start
  final := n.final
  fresh := n.fresh

/-- The states in the order in which `renumber` counts them: the start state, then the
others ascending. -/
def countingOrder (n : Nfa σ) : List State := n.start :: n.states.filter (· ≠ n.start)

/-- The automaton on the states `0, …, stateCount - 1`, with the start state 0 and the others
in their former order. -/
def renumber [Ord σ] (n : Nfa σ) : Nfa σ :=
  let number := fun q => n.countingOrder.idxOf q
  { n with
    states := List.range n.countingOrder.length
    edges := Ascending.ofList (n.edges.map (Edge.mapStates number))
    start := number n.start
    final := number n.final
    fresh := n.countingOrder.length }

/-! ## Checked changes -/

/-- The automaton itself, if all its identifiers lie below the limit. -/
def fit (n : Nfa σ) : Except Misuse (Nfa σ) :=
  if n.fresh ≤ stateLimit then .ok n else .error .statesExhausted

def requireState (n : Nfa σ) (q : State) : Except Misuse Unit :=
  if n.hasState q then .ok () else .error (.unknownState q)

def setStart? (n : Nfa σ) (q : State) : Except Misuse (Nfa σ) := do
  n.requireState q
  return { n with start := q }

def setFinal? (n : Nfa σ) (q : State) : Except Misuse (Nfa σ) := do
  n.requireState q
  return { n with final := q }

def addState? (n : Nfa σ) : Except Misuse (State × Nfa σ) := do
  let n' ← n.addState.fit
  return (n.fresh, n')

/-- The automaton with one more transition, and whether it is new.  Both ends have to be
states; the source is checked first. -/
def addEdge? [Ord σ] [DecidableEq σ] (n : Nfa σ) (e : Edge (Label σ)) :
    Except Misuse (Bool × Nfa σ) := do
  n.requireState e.source
  n.requireState e.target
  return (!n.hasEdge e, n.addEdges [e])

/-! ## Descriptions -/

/-- A description of an automaton: lists in any order, with any repetitions. -/
structure Parts (σ : Type) where
  states : List State
  alphabet : List σ
  transitions : List (Edge (Label σ))
  start : State
  final : State

def unknownEnd? {ℓ : Type} (states : List State) (e : Edge ℓ) : Option State :=
  [e.source, e.target].find? (· ∉ states)

/-- The automaton that a description stands for.  Letters on transitions join the
alphabet. -/
def ofParts [Ord σ] (d : Parts σ) : Except PartsError (Nfa σ) :=
  if d.start ∉ d.states then .error (.startNotInStates d.start)
  else if d.final ∉ d.states then .error (.finalNotInStates d.final)
  else if let some q := d.states.find? (stateLimit ≤ ·) then .error (.stateIdOutOfRange q)
  else if let some q := d.transitions.findSome? (unknownEnd? d.states) then
    .error (.unknownTransitionState q)
  else
    .ok
      { states := Ascending.ofList d.states
        alphabet := Ascending.ofList (d.alphabet ++ letters d.transitions)
        edges := Ascending.ofList d.transitions
        start := d.start
        final := d.final
        fresh := d.states.foldl (fun m q => max m (q + 1)) 0 }

end Nfa

end Kleene
