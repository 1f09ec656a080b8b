import Kleene.Nfa.Basic

/-!
# The regular operations

Concatenation, union and iteration of automata.  An operation that fuses states first
isolates the terminals of its operands: afterwards start and final state are different,
nothing leads into the start state and nothing out of the final state.  Each operation also
has a checked form, which fails when the result needs more states than there are
identifiers.
-/

namespace Kleene.Nfa

variable {σ : Type} [Ord σ]

def epsilonEdge (p q : State) : Edge (Label σ) := ⟨p, .epsilon, q⟩

/-- A new start state in front, unless the start state is apart from the final state and
nothing leads into it. -/
def isolateStart (n : Nfa σ) : Nfa σ :=
  if n.start = n.final || !(n.incoming n.start).isEmpty then
    { n.addState.addEdges [epsilonEdge n.fresh n.start] with start := n.fresh }
  else n

/-- A new final state behind, unless nothing leads out of the final state. -/
def isolateFinal (n : Nfa σ) : Nfa σ :=
  if !(n.outgoing n.final).isEmpty then
    { n.addState.addEdges [epsilonEdge n.final n.fresh] with final := n.fresh }
  else n

def isolate (n : Nfa σ) : Nfa σ := n.isolateStart.isolateFinal

/-- The states of `b` that get a new place when it is copied into another automaton: those
that are not `identified` with a state there. -/
def newcomers (b : Nfa σ) (identified : List (State × State)) : List State :=
  b.states.filter fun q => (identified.lookup q).isNone

/-- Where a state goes when its automaton is copied: a state that is `identified` goes to its
partner, and the newcomers go, in order, to the states from `fresh` on. -/
def placement (fresh : State) (identified : List (State × State)) (newcomers : List State)
    (q : State) : State :=
  match identified.lookup q with
  | some p => p
  | none => fresh + newcomers.idxOf q

/-- The automaton `a` with a copy of the states and transitions of `b` in it. -/
def absorb (a b : Nfa σ) (identified : List (State × State)) : Nfa σ :=
  let newcomers := b.newcomers identified
  let place := placement a.fresh identified newcomers
  { a with
    states := Ascending.union a.states ((List.range newcomers.length).map (a.fresh + ·))
    alphabet := Ascending.union a.alphabet b.alphabet
    edges := Ascending.union a.edges (Ascending.ofList (b.edges.map (Edge.mapStates place)))
    fresh := a.fresh + newcomers.length }

/-- Automata with isolated terminals in a row: the final state of `a` and the start state of
`b` become one. -/
def chain (a b : Nfa σ) : Nfa σ :=
  let identified := [(b.start, a.final)]
  { absorb a b identified with
    final := placement a.fresh identified (b.newcomers identified) b.final }

/-- Automata with isolated terminals side by side: the start states become one, and so do
the final states. -/
def join (a b : Nfa σ) : Nfa σ := absorb a b [(b.start, a.start), (b.final, a.final)]

def concat (a b : Nfa σ) : Nfa σ := chain a.isolate b.isolate

def union (a b : Nfa σ) : Nfa σ := join a.isolate b.isolate

/-- A new start and a new final state around the automaton, with the way back. -/
def loop (n : Nfa σ) (bypass : List (Edge (Label σ))) : Nfa σ :=
  let start := n.fresh
  let final := n.fresh + 1
  { n.addState.addState.addEdges
      ([epsilonEdge start n.start, epsilonEdge n.final n.start, epsilonEdge n.final final]
        ++ bypass) with
    start := start
    final := final }

def plus (n : Nfa σ) : Nfa σ := n.loop []

def star (n : Nfa σ) : Nfa σ := n.loop [epsilonEdge n.fresh (n.fresh + 1)]

def opt (n : Nfa σ) : Nfa σ :=
  n.isolate.addEdges [epsilonEdge n.isolate.start n.isolate.final]

/-! ## Checked forms -/

def isolate? (n : Nfa σ) : Except Misuse (Nfa σ) := n.isolate.fit

def concat? (a b : Nfa σ) : Except Misuse (Nfa σ) := do
  let a ← a.isolate?
  let b ← b.isolate?
  (chain a b).fit

def union? (a b : Nfa σ) : Except Misuse (Nfa σ) := do
  let a ← a.isolate?
  let b ← b.isolate?
  (join a b).fit

def star? (n : Nfa σ) : Except Misuse (Nfa σ) := n.star.fit

def plus? (n : Nfa σ) : Except Misuse (Nfa σ) := n.plus.fit

def opt? (n : Nfa σ) : Except Misuse (Nfa σ) := n.opt.fit

end Kleene.Nfa
