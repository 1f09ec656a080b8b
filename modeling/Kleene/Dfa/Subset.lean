import Kleene.Dfa.Basic
import Kleene.Nfa.Simulation

/-!
# Subset construction

A deterministic automaton runs through the sets of states in which a nondeterministic one
can be.  The sets are numbered in the order of their discovery; the one found last is
looked at first, letter by letter.
-/

namespace Kleene

structure Subsets (σ : Type) where
  found : List (List State)
  /-- The sets to be looked at, with their numbers, the next one first. -/
  pending : List (State × List State)
  edges : List (Edge σ)
  deriving DecidableEq, Repr

namespace Subsets

variable {σ : Type}

/-- Adds a transition to a set, which gets the next number if it is new. -/
def visit (source : State) (a : σ) (s : List State) (t : Subsets σ) : Subsets σ :=
  match t.found.idxOf? s with
  | some i => { t with edges := ⟨source, a, i⟩ :: t.edges }
  | none =>
    let i := t.found.length
    { found := t.found ++ [s]
      pending := (i, s) :: t.pending
      edges := ⟨source, a, i⟩ :: t.edges }

variable [Ord σ] [DecidableEq σ]

/-- Looks at a set: follows every letter.  The empty set is left out unless the automaton is
to be complete. -/
def expand (n : Nfa σ) (complete : Bool) (source : State) (s : List State) (t : Subsets σ) :
    Subsets σ :=
  n.alphabet.foldl
    (fun t a =>
      let next := n.step s a
      if next.isEmpty && !complete then t else t.visit source a next)
    t

def run (n : Nfa σ) (complete : Bool) : (rounds : Nat) → Subsets σ → Subsets σ
  | 0, t => t
  | rounds + 1, t =>
    match t.pending with
    | [] => t
    | (i, s) :: rest => run n complete rounds (expand n complete i s { t with pending := rest })

/-- All sets that can be reached.  No set is looked at twice, so there are no more rounds
than subsets. -/
def all (n : Nfa σ) (complete : Bool) : Subsets σ :=
  run n complete (Nat.pow 2 n.states.length) ⟨[n.initial], [(0, n.initial)], []⟩

end Subsets

namespace Nfa

variable {σ : Type}

/-- The mark of a set of states: the empty set is a trap. -/
def subsetMark (n : Nfa σ) (s : List State) : Mark :=
  if n.isAcceptingSet s then .accepting else if s.isEmpty then .trap else .plain

/-- The deterministic automaton on the sets of states.  With `complete` it has the empty set
as a trap, where missing transitions lead. -/
def toDfa [Ord σ] [DecidableEq σ] (n : Nfa σ) (complete : Bool) : Dfa σ :=
  let subsets := Subsets.all n complete
  { marks := subsets.found.map n.subsetMark
    alphabet := n.alphabet
    edges := Ascending.ofList subsets.edges
    start := 0 }

end Nfa

/-- The deterministic automaton as a nondeterministic one with the same states, and one final
state behind the accepting ones. -/
def Dfa.toNfa {σ : Type} [Ord σ] (d : Dfa σ) : Nfa σ :=
  let final := d.stateCount
  (Nfa.ofCount d.alphabet (d.stateCount + 1) d.start final).addEdges
    ((d.edges.map (Edge.mapLabel Label.symbol)) ++
      d.finals.map fun q => ⟨q, .epsilon, final⟩)

namespace Dfa

variable {σ : Type} [Ord σ] [DecidableEq σ]

/-- Lifting step by step: the states come first, of which the new one has the largest number, then
one transition after the other. -/
def toNfaWithin? (room : Room) (d : Dfa σ) : Except Misuse (Nfa σ) := do
  let final ← room.number? d.stateCount
  let bare := Nfa.ofCount d.alphabet (d.stateCount + 1) d.start final
  let new : List (Edge (Label σ)) :=
    (d.transitions.map (Edge.mapLabel Label.symbol)) ++ d.finals.map fun q => ⟨q, .epsilon, final⟩
  bare.requireState bare.start
  bare.requireState bare.final
  new.foldlM (fun n e => Prod.snd <$> n.addEdge? e) bare

def toNfa? (d : Dfa σ) : Except Misuse (Nfa σ) := d.toNfaWithin? .unlimited

end Dfa

/-! ## Checked form

The same search, but the automaton is built on the way: a new set gets the number of the state that
is added for it, the set of a pending state is looked up by its number, transitions must not
contradict one another, and the result is `none` if a state still waits after the last round.  The
automaton may outgrow its room before the search has come to its end. -/

/-- The automaton as far as it is built, with the sets that its states stand for. -/
structure Draft (σ : Type) where
  /-- The sets, by the number of their state. -/
  found : List (List State)
  /-- The states, by their set. -/
  numbers : List (List State × State)
  /-- The states to be looked at, the next one first. -/
  pending : List State
  dfa : Dfa σ
  deriving DecidableEq, Repr

namespace Draft

variable {σ : Type} [Ord σ] [DecidableEq σ] [Quotable σ]

/-- Adds a transition to the state of a set, and first that state if the set is new. -/
def visit? (room : Room) (n : Nfa σ) (source : State) (a : σ) (s : List State) (t : Draft σ) :
    Except Misuse (Draft σ) :=
  match t.numbers.lookup s with
  | some i => do
    let dfa ← t.dfa.addEdgeWithin? room ⟨source, a, i⟩
    return { t with dfa := dfa }
  | none => do
    let (i, grown) ← t.dfa.addState? room (n.subsetMark s)
    let dfa ← grown.addEdgeWithin? room ⟨source, a, i⟩
    return ⟨t.found ++ [s], (s, i) :: t.numbers, i :: t.pending, dfa⟩

def expand? (room : Room) (n : Nfa σ) (complete : Bool) (i : State) (t : Draft σ) :
    Except Misuse (Draft σ) :=
  match t.found[i]? with
  | none => .error .outOfBounds
  | some s =>
    n.alphabet.foldlM
      (fun t a =>
        let next := n.step s a
        if next.isEmpty && !complete then .ok t else t.visit? room n i a next)
      t

/-- Looks at states until none waits, unless that takes more rounds. -/
def run? (room : Room) (n : Nfa σ) (complete : Bool) :
    (rounds : Nat) → Draft σ → Except Misuse (Option (Draft σ))
  | 0, t => .ok (if t.pending.isEmpty then some t else none)
  | rounds + 1, t =>
    match t.pending with
    | [] => .ok (some t)
    | i :: rest => do
      let t ← expand? room n complete i { t with pending := rest }
      run? room n complete rounds t

end Draft

namespace Nfa

variable {σ : Type} [Ord σ] [DecidableEq σ] [Quotable σ]

def toDfaWithin? (room : Room) (n : Nfa σ) (complete : Bool) : Except Misuse (Option (Dfa σ)) := do
  let first ← (Dfa.single n.alphabet).setAccepting? 0 (n.isAcceptingSet n.initial)
  let t ← Draft.run? room n complete (Nat.pow 2 n.states.length)
    ⟨[n.initial], [(n.initial, 0)], [0], first⟩
  return t.map Draft.dfa

/-- Determinizing if numbers and places never run out. -/
def toDfa? (n : Nfa σ) (complete : Bool) : Except Misuse (Option (Dfa σ)) :=
  n.toDfaWithin? .unlimited complete

end Nfa

end Kleene
