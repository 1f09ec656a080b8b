import Kleene.Automaton.GraphMap
import Kleene.Correction.Alignment
import Kleene.Dfa.Subset

/-!
# Nondeterministic automata in containers

An automaton is kept in a graph container, with the set of all labels from one state to another at
one arrow.  What reads the container goes through states and arrows in the order in which it lists
them, unless it sorts them first.
-/

namespace Kleene

/-- An automaton in a container; the labels at an arrow are a set in order and not empty. -/
structure NfaGraph (C : GraphMap) (σ : Type) where
  graph : C.Graph (List (Label σ))
  alphabet : List σ
  start : State
  final : State
  fresh : State

namespace NfaGraph

variable {C : GraphMap} {σ : Type}

/-! ## Reading the structure -/

def hasState (g : NfaGraph C σ) (q : State) : Bool := q ∈ C.nodes g.graph

def stateCount (g : NfaGraph C σ) : Nat := (C.nodes g.graph).length

def states (g : NfaGraph C σ) : List State := Ascending.sort (C.nodes g.graph)

/-- The number of transitions; parallel ones count one by one. -/
def transitionCount (g : NfaGraph C σ) : Nat := ((C.arrows g.graph).flatMap fun x => x.2).length

/-- The transitions in the order in which the container lists its arrows. -/
def unsorted (g : NfaGraph C σ) : List (Edge (Label σ)) :=
  (C.arrows g.graph).flatMap fun x => x.2.map fun l => ⟨x.1.1, l, x.1.2⟩

/-- The transitions by source, target and label. -/
def transitions [Ord σ] (g : NfaGraph C σ) : List (Edge (Label σ)) := Ascending.sort g.unsorted

/-- All that the sorted readings show of the automaton. -/
def listing [Ord σ] (g : NfaGraph C σ) : Nfa σ :=
  ⟨g.states, g.alphabet, g.transitions, g.start, g.final, g.fresh⟩

def labels (g : NfaGraph C σ) (p q : State) : List (Label σ) := (C.value? g.graph (p, q)).getD []

/-- The transitions into `q`, its loops included, by source and label. -/
def incoming (g : NfaGraph C σ) (q : State) : List (Edge (Label σ)) :=
  (Ascending.sort (C.predecessors g.graph q)).flatMap fun p =>
    (g.labels p q).map fun l => ⟨p, l, q⟩

def outgoing (g : NfaGraph C σ) (p : State) : List (Edge (Label σ)) :=
  (Ascending.sort (C.successors g.graph p)).flatMap fun q =>
    (g.labels p q).map fun l => ⟨p, l, q⟩

/-- The states that transitions with a label lead to, in the order of the container. -/
def targets [DecidableEq σ] (g : NfaGraph C σ) (p : State) (l : Label σ) : List State :=
  (C.successors g.graph p).filter fun q => l ∈ g.labels p q

def hasEdge [DecidableEq σ] (g : NfaGraph C σ) (e : Edge (Label σ)) : Bool :=
  e.label ∈ g.labels e.source e.target

/-! ## Changing the structure -/

def addState (g : NfaGraph C σ) : NfaGraph C σ :=
  { g with graph := C.addNode g.graph g.fresh, fresh := g.fresh + 1 }

/-- The automaton with the next identifier as a state, if there is one. -/
def addState? (g : NfaGraph C σ) : Except Misuse (NfaGraph C σ) :=
  if g.fresh < stateLimit then .ok g.addState else .error .statesExhausted

/-- The alphabet with the letter of a label, if the label has one. -/
def withLetter [Ord σ] (alphabet : List σ) (l : Label σ) : List σ :=
  Ascending.insertAll l.symbol?.toList alphabet

def addEdge [Ord σ] (g : NfaGraph C σ) (e : Edge (Label σ)) : NfaGraph C σ :=
  { g with
    graph := C.put g.graph e.ends (Ascending.insert e.label (g.labels e.source e.target))
    alphabet := withLetter g.alphabet e.label }

def addEdges [Ord σ] (g : NfaGraph C σ) (es : List (Edge (Label σ))) : NfaGraph C σ :=
  es.foldl addEdge g

/-- The automaton with other labels at an arrow.  An arrow that is left without labels is
removed. -/
def setLabels (g : NfaGraph C σ) (a : Arrow) (ls : List (Label σ)) : NfaGraph C σ :=
  { g with graph := if ls.isEmpty then C.removeArrow g.graph a else C.put g.graph a ls }

/-- Whether the automaton has a transition, and the automaton without it. -/
def removeEdge [DecidableEq σ] (g : NfaGraph C σ) (e : Edge (Label σ)) : Bool × NfaGraph C σ :=
  match C.value? g.graph e.ends with
  | none => (false, g)
  | some ls => (e.label ∈ ls, g.setLabels e.ends (ls.filter (· ≠ e.label)))

def removeState (g : NfaGraph C σ) (q : State) : NfaGraph C σ :=
  { g with graph := C.removeNode g.graph q }

/-! ## Descriptions -/

def addDescribed [Ord σ] (g : NfaGraph C σ) (e : Edge (Label σ)) :
    Except PartsError (NfaGraph C σ) :=
  match [e.source, e.target].find? fun q => !g.hasState q with
  | some q => .error (.unknownTransitionState q)
  | none => .ok (g.addEdge e)

/-- The states of a description, added one after the other. -/
def withoutTransitions [Ord σ] (C : GraphMap) (d : Nfa.Parts σ) : NfaGraph C σ :=
  let graph := C.addNodes C.empty d.states
  { graph := graph
    alphabet := Ascending.ofList d.alphabet
    start := d.start
    final := d.final
    fresh := (C.nodes graph).foldl (fun m q => max m (q + 1)) 0 }

/-- The automaton that a description stands for; its transitions are added one after the other to
its states.  Letters on transitions join the alphabet. -/
def ofParts? [Ord σ] (C : GraphMap) (d : Nfa.Parts σ) : Except PartsError (NfaGraph C σ) :=
  let g := withoutTransitions C d
  if !g.hasState d.start then .error (.startNotInStates d.start)
  else if !g.hasState d.final then .error (.finalNotInStates d.final)
  else if let some q := (C.nodes g.graph).find? (stateLimit ≤ ·) then .error (.stateIdOutOfRange q)
  else d.transitions.foldlM addDescribed g

/-! ## Simulation -/

/-- Puts a state on the stack and into the closure, unless it is there already. -/
def visit (found : List State × List State) (q : State) : List State × List State :=
  if q ∈ found.2 then found else (q :: found.1, Ascending.insert q found.2)

/-- The number of states that are not in the closure yet. -/
def unseen (g : NfaGraph C σ) (closure : List State) : Nat :=
  (C.nodes g.graph).countP (· ∉ closure)

theorem unseen_insert_lt {g : NfaGraph C σ} {closure : List State} {q : State}
    (hq : q ∈ C.nodes g.graph) (hnew : q ∉ closure) :
    g.unseen (Ascending.insert q closure) < g.unseen closure := by
  unfold unseen
  rw [List.countP_eq_length_filter, List.countP_eq_length_filter]
  have hfilter : (C.nodes g.graph).filter (· ∉ Ascending.insert q closure) =
      ((C.nodes g.graph).filter (· ∉ closure)).filter (· ≠ q) := by
    rw [List.filter_filter]
    refine List.filter_congr fun r _ => ?_
    simp [Ascending.mem_insert]
  rw [hfilter]
  exact List.length_filter_lt_length_iff_exists.2
    ⟨q, List.mem_filter.2 ⟨hq, decide_eq_true hnew⟩, by simp⟩

/-- Every visit that makes the stack longer uses up a state. -/
theorem weight_foldl_visit_le {g : NfaGraph C σ} {qs : List State}
    (hqs : ∀ q ∈ qs, q ∈ C.nodes g.graph) (found : List State × List State) :
    2 * g.unseen (qs.foldl visit found).2 + (qs.foldl visit found).1.length ≤
      2 * g.unseen found.2 + found.1.length := by
  induction qs generalizing found with
  | nil => exact Nat.le_refl _
  | cons q qs ih =>
    obtain ⟨hq, hqs⟩ := List.forall_mem_cons.1 hqs
    refine Nat.le_trans (ih hqs _) ?_
    unfold visit
    split
    · exact Nat.le_refl _
    · rename_i hnew
      have hlt := unseen_insert_lt hq hnew
      show 2 * g.unseen (Ascending.insert q found.2) + (found.1.length + 1) ≤ _
      omega

section Reading

variable [DecidableEq σ]

theorem mem_nodes_of_mem_targets {g : NfaGraph C σ} {p q : State} {l : Label σ}
    (h : q ∈ g.targets p l) : q ∈ C.nodes g.graph := by
  obtain ⟨x, hx⟩ := (C.mem_successors _ _ _).1 (List.mem_filter.1 h).1
  exact (C.ends_mem _ _ _ hx).2

/-- Follows ε-transitions from the states of a stack; what they lead to is put on the stack if it is
new. -/
def explore (g : NfaGraph C σ) (stack closure : List State) : List State :=
  match stack with
  | [] => closure
  | q :: rest =>
    let found := (g.targets q .epsilon).foldl visit (rest, closure)
    g.explore found.1 found.2
termination_by 2 * g.unseen closure + stack.length
decreasing_by
  have hnodes : ∀ r ∈ g.targets q .epsilon, r ∈ C.nodes g.graph := fun _ =>
    mem_nodes_of_mem_targets
  have hle := weight_foldl_visit_le hnodes (rest, closure)
  rw [List.length_cons]
  exact Nat.lt_succ_of_le hle

/-- The states that ε-transitions lead to from `q`, and `q`. -/
def closure (g : NfaGraph C σ) (q : State) : List State := g.explore [q] [q]

/-- The states that ε-transitions lead to from `q`; `q` itself if it is asked for, or if the search
comes back to it. -/
def epsilonClosure (g : NfaGraph C σ) (q : State) (includeState : Bool) : List State :=
  g.explore [q] (if includeState then [q] else [])

/-- What the search has after some number of states taken off the stack. -/
inductive Rounds (g : NfaGraph C σ) :
    Nat → List State × List State → List State × List State → Prop
  | refl (x : List State × List State) : Rounds g 0 x x
  | next {k : Nat} {q : State} {rest closure : List State} {x : List State × List State} :
      Rounds g k ((g.targets q .epsilon).foldl visit (rest, closure)) x →
        Rounds g (k + 1) (q :: rest, closure) x

def initial (g : NfaGraph C σ) : List State := g.closure g.start

/-- The closed set after reading `a` in a closed set. -/
def step (g : NfaGraph C σ) (s : List State) (a : σ) : List State :=
  Ascending.ofList (s.flatMap fun p => (g.targets p (.symbol a)).flatMap g.closure)

/-- The states that one letter leads to from `q`, with ε-transitions before and after it or
without. -/
def nextStates [Ord σ] (g : NfaGraph C σ) (q : State) (a : σ) (includeEpsilon : Bool) :
    List State :=
  if Ascending.search a g.alphabet then
    if includeEpsilon then
      Ascending.ofList (((g.epsilonClosure q true).flatMap fun p => g.targets p (.symbol a)).flatMap
        fun p => g.epsilonClosure p true)
    else Ascending.ofList (g.targets q (.symbol a))
  else []

/-! ## Subset construction -/

variable [Ord σ] [Quotable σ]

def expand? (room : Room) (g : NfaGraph C σ) (complete : Bool) (i : State) (t : Draft σ) :
    Except Misuse (Draft σ) :=
  match t.found[i]? with
  | none => .error .outOfBounds
  | some s =>
    g.alphabet.foldlM
      (fun t a =>
        let next := g.step s a
        if next.isEmpty && !complete then .ok t else t.visit? room g.listing i a next)
      t

/-- Looks at states until none waits, unless that takes more rounds. -/
def run? (room : Room) (g : NfaGraph C σ) (complete : Bool) :
    (rounds : Nat) → Draft σ → Except Misuse (Option (Draft σ))
  | 0, t => .ok (if t.pending.isEmpty then some t else none)
  | rounds + 1, t =>
    match t.pending with
    | [] => .ok (some t)
    | i :: rest => do
      let t ← g.expand? room complete i { t with pending := rest }
      g.run? room complete rounds t

def toDfaWithin? (room : Room) (g : NfaGraph C σ) (complete : Bool) :
    Except Misuse (Option (Dfa σ)) := do
  let first ← (Dfa.single g.alphabet).setAccepting? 0 (g.final ∈ g.initial)
  let t ← g.run? room complete (Nat.pow 2 g.stateCount)
    ⟨[g.initial], [(g.initial, 0)], [0], first⟩
  return t.map Draft.dfa

/-- Determinizing if numbers and places never run out. -/
def toDfa? (g : NfaGraph C σ) (complete : Bool) : Except Misuse (Option (Dfa σ)) :=
  g.toDfaWithin? .unlimited complete

end Reading

/-- An alignment of a word with the automaton, from the sorted readings alone. -/
def align [Ord σ] [DecidableEq σ] (g : NfaGraph C σ) (w : List σ) : Option (Alignment σ) :=
  g.listing.align w

end NfaGraph

end Kleene
