import Kleene.Elimination.Graph

/-!
# Operations in containers

How automata come about and change in a graph container: one state, one transition and one letter
after the other, and each of them is checked.  Another automaton is copied in the order in which its
own container lists it.
-/

namespace Kleene

namespace NfaGraph

variable {C : GraphMap} {σ : Type}

/-! ## Checked changes -/

def requireState (g : NfaGraph C σ) (q : State) : Except Misuse Unit :=
  if g.hasState q then .ok () else .error (.unknownState q)

def setStart? (g : NfaGraph C σ) (q : State) : Except Misuse (NfaGraph C σ) := do
  g.requireState q
  return { g with start := q }

def setFinal? (g : NfaGraph C σ) (q : State) : Except Misuse (NfaGraph C σ) := do
  g.requireState q
  return { g with final := q }

/-- The next identifier, if there is one, and the automaton with it as a state. -/
def newState? (g : NfaGraph C σ) : Except Misuse (State × NfaGraph C σ) := do
  let new ← g.addState?
  return (g.fresh, new)

section Changes

variable [Ord σ] [DecidableEq σ]

/-- Whether a transition is new, and the automaton with it.  Both ends have to be states; the source
is checked first. -/
def addEdge? (g : NfaGraph C σ) (e : Edge (Label σ)) : Except Misuse (Bool × NfaGraph C σ) := do
  g.requireState e.source
  g.requireState e.target
  return (!g.hasEdge e, g.addEdge e)

def addEdges? (g : NfaGraph C σ) (es : List (Edge (Label σ))) : Except Misuse (NfaGraph C σ) :=
  es.foldlM (fun g e => Prod.snd <$> g.addEdge? e) g

/-- The transitions along any alignment, added one by one. -/
def follow? (g : NfaGraph C σ) (al : Alignment σ) : Except Misuse (NfaGraph C σ) :=
  g.addEdges? (g.listing.alignmentEdges al)

/-- Rips out `q` step by step: whether `q` has been ripped out, and the automaton afterwards.  In
safe mode this is given up, before anything is changed, if letters would have to be combined. -/
def attemptRip? (c : Combiner σ) (safe : Bool) (g : NfaGraph C σ) (q : State) :
    Except Misuse (Bool × NfaGraph C σ) := do
  g.requireInner q
  let joins := (g.entering q).any (!·.label.isEpsilon) &&
    (g.leavingEdges q).any (!·.label.isEpsilon)
  if safe && (!(g.loopLetters q).isEmpty || joins) then return (false, g)
  let c := if safe then { c with path := Nfa.eitherLabel } else c
  let new ← (g.removeState q).addEdges? (g.rerouted c q)
  return (true, new)

end Changes

/-! ## Constructions -/

section Constructions

variable [Ord σ]

/-- The states `0, …, count - 1` without transitions, if all of them are numbers of states. -/
def ofCount? (C : GraphMap) (alphabet : List σ) (count : Nat) (start final : State) :
    Except Misuse (NfaGraph C σ) := do
  let states ← (List.range count).mapM State.ofIndex
  let g : NfaGraph C σ :=
    { graph := C.addNodes C.empty states
      alphabet := Ascending.ofList alphabet
      start := start
      final := final
      fresh := count }
  g.requireState start
  g.requireState final
  return g

def nothing? (C : GraphMap) (alphabet : List σ) : Except Misuse (NfaGraph C σ) :=
  ofCount? C alphabet 2 0 1

def emptyWord? (C : GraphMap) (alphabet : List σ) : Except Misuse (NfaGraph C σ) :=
  ofCount? C alphabet 1 0 0

def literal? [DecidableEq σ] (C : GraphMap) (a : σ) : Except Misuse (NfaGraph C σ) := do
  let g ← nothing? C [a]
  g.addEdges? [⟨g.start, .symbol a, g.final⟩]

/-- The deterministic automaton as a nondeterministic one: the states come first, with one final
state more, then the transitions, and last those to the final state. -/
def ofDfa? [DecidableEq σ] (C : GraphMap) (d : Dfa σ) : Except Misuse (NfaGraph C σ) := do
  let final ← State.ofIndex d.stateCount
  let g ← ofCount? C d.alphabet (d.stateCount + 1) d.start final
  g.addEdges? ((d.transitions.map (Edge.mapLabel Label.symbol)) ++
    d.finals.map fun q => ⟨q, .epsilon, final⟩)

end Constructions

/-! ## Copies -/

/-- An automaton that another one is being copied into, and the places of that one's states. -/
structure Copy (C : GraphMap) (σ : Type) where
  automaton : NfaGraph C σ
  places : List (State × State)

namespace Copy

/-- A state without a place gets the next identifier. -/
def addState? (c : Copy C σ) (q : State) : Except Misuse (Copy C σ) :=
  match c.places.lookup q with
  | some _ => .ok c
  | none => do
    let (p, g) ← c.automaton.newState?
    return ⟨g, (q, p) :: c.places⟩

def place? (c : Copy C σ) (q : State) : Except Misuse State :=
  match c.places.lookup q with
  | some p => .ok p
  | none => .error (.unknownState q)

/-- A transition is copied between the places of its ends. -/
def addEdge? [Ord σ] [DecidableEq σ] (c : Copy C σ) (e : Edge (Label σ)) :
    Except Misuse (Copy C σ) := do
  let p ← c.place? e.source
  let q ← c.place? e.target
  let (_, g) ← c.automaton.addEdge? ⟨p, e.label, q⟩
  return { c with automaton := g }

def addLetter [Ord σ] (c : Copy C σ) (x : σ) : Copy C σ :=
  { c with automaton := { c.automaton with alphabet := Ascending.insert x c.automaton.alphabet } }

end Copy

/-! ## The regular operations -/

section Operations

variable [Ord σ] [DecidableEq σ]

/-- The states of `b` are copied into `a` first, in order, then its transitions as its container
lists them, then its letters. -/
def absorb? (a b : NfaGraph C σ) (identified : List (State × State)) :
    Except Misuse (Copy C σ) := do
  let c ← b.states.foldlM Copy.addState? ⟨a, identified⟩
  let c ← b.unsorted.foldlM Copy.addEdge? c
  return b.alphabet.foldl Copy.addLetter c

/-- Automata with isolated terminals in a row: the final state of `a` and the start state of `b`
become one. -/
def chain? (a b : NfaGraph C σ) : Except Misuse (NfaGraph C σ) := do
  let c ← a.absorb? b [(b.start, a.final)]
  let final ← c.place? b.final
  return { c.automaton with final := final }

/-- Automata with isolated terminals side by side: the start states become one, and so do the final
states. -/
def join? (a b : NfaGraph C σ) : Except Misuse (NfaGraph C σ) := do
  let c ← a.absorb? b [(b.start, a.start), (b.final, a.final)]
  return c.automaton

def concat? (a b : NfaGraph C σ) : Except Misuse (NfaGraph C σ) := do
  let a ← a.isolate?
  let b ← b.isolate?
  chain? a b

def union? (a b : NfaGraph C σ) : Except Misuse (NfaGraph C σ) := do
  let a ← a.isolate?
  let b ← b.isolate?
  join? a b

/-- A new start and a new final state around the automaton, with the way back; with a `bypass` there
is also a way around it. -/
def loop? (g : NfaGraph C σ) (bypass : Bool) : Except Misuse (NfaGraph C σ) := do
  let (start, new) ← g.newState?
  let (final, new) ← new.newState?
  let new ← new.addEdges? (Nfa.epsilonEdge start g.start ::
    (if bypass then [Nfa.epsilonEdge start final] else []) ++
    [Nfa.epsilonEdge g.final g.start, Nfa.epsilonEdge g.final final])
  return { new with start := start, final := final }

def star? (g : NfaGraph C σ) : Except Misuse (NfaGraph C σ) := g.loop? true

def plus? (g : NfaGraph C σ) : Except Misuse (NfaGraph C σ) := g.loop? false

def opt? (g : NfaGraph C σ) : Except Misuse (NfaGraph C σ) := do
  let g ← g.isolate?
  g.addEdges? [Nfa.epsilonEdge g.start g.final]

end Operations

end NfaGraph

end Kleene
