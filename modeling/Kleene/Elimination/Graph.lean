import Kleene.Elimination.Synthesis
import Kleene.Nfa.Graph

/-!
# Elimination in containers

The elimination of states of an automaton that is kept in a graph container.  Parallel transitions
are merged in the order in which the container lists its arrows; the transitions at a state and the
states to choose from are sorted first.
-/

namespace Kleene.NfaGraph

variable {C : GraphMap} {σ τ : Type}

/-! ## Isolated terminals -/

def hasIncoming (g : NfaGraph C σ) (q : State) : Bool := !(C.predecessors g.graph q).isEmpty

def hasOutgoing (g : NfaGraph C σ) (p : State) : Bool := !(C.successors g.graph p).isEmpty

/-- A new start state in front, unless the start state is apart from the final state and
nothing leads into it. -/
def isolateStart? [Ord σ] (g : NfaGraph C σ) : Except Misuse (NfaGraph C σ) :=
  if g.start = g.final || g.hasIncoming g.start then do
    let new ← g.addState?
    return { new.addEdge (Nfa.epsilonEdge g.fresh g.start) with start := g.fresh }
  else .ok g

/-- A new final state behind, unless nothing leads out of the final state. -/
def isolateFinal? [Ord σ] (g : NfaGraph C σ) : Except Misuse (NfaGraph C σ) :=
  if g.hasOutgoing g.final then do
    let new ← g.addState?
    return { new.addEdge (Nfa.epsilonEdge g.final g.fresh) with final := g.fresh }
  else .ok g

def isolate? [Ord σ] (g : NfaGraph C σ) : Except Misuse (NfaGraph C σ) := do
  let front ← g.isolateStart?
  front.isolateFinal?

/-! ## Ripping out a state -/

/-- The letters on the loops of `q`; ε-loops do not count. -/
def loopLetters (g : NfaGraph C σ) (q : State) : List σ :=
  Nfa.letters ((g.incoming q).filter (·.isLoop))

/-- The transitions into `q` from other states. -/
def entering (g : NfaGraph C σ) (q : State) : List (Edge (Label σ)) :=
  (g.incoming q).filter (!·.isLoop)

def leavingEdges (g : NfaGraph C σ) (q : State) : List (Edge (Label σ)) :=
  (g.outgoing q).filter (!·.isLoop)

/-- The transitions that take the place of the paths through `q`. -/
def rerouted (c : Combiner σ) (g : NfaGraph C σ) (q : State) : List (Edge (Label σ)) :=
  (g.entering q).flatMap fun e =>
    (g.leavingEdges q).map fun f =>
      ⟨e.source, c.path e.label (g.loopLetters q) f.label, f.target⟩

def rip [Ord σ] (c : Combiner σ) (g : NfaGraph C σ) (q : State) : NfaGraph C σ :=
  (g.removeState q).addEdges (g.rerouted c q)

/-- The arrows with several labels, each with the one label for all of them, in the order of the
container. -/
def merged (c : Combiner σ) (g : NfaGraph C σ) : List (Arrow × Label σ) :=
  ((C.arrows g.graph).filter fun x => 1 < x.2.length).map fun x => (x.1, c.parallel x.2)

/-- The automaton with parallel transitions merged; the letters of the merged labels join the
alphabet. -/
def unionEdges [Ord σ] (c : Combiner σ) (g : NfaGraph C σ) : NfaGraph C σ :=
  { g with
    graph := C.putAll g.graph ((g.merged c).map fun x => (x.1, [x.2]))
    alphabet := ((g.merged c).map Prod.snd).foldl withLetter g.alphabet }

/-! ## Which state is next -/

/-- How much the labels grow when `q` is ripped out. -/
def ripCost (c : Combiner σ) (g : NfaGraph C σ) (q : State) : Nat :=
  let weigh := fun edges : List (Edge (Label σ)) =>
    edges.foldr (fun e total => c.weight e.label + total) 0
  saturatingAdd (saturatingMul (weigh (g.entering q)) (g.leavingEdges q).length)
    (saturatingMul (weigh (g.leavingEdges q)) (g.entering q).length)

def innerStates (g : NfaGraph C σ) : List State :=
  g.states.filter fun q => q ≠ g.start && q ≠ g.final

def nextInner? (c : Combiner σ) (order : EliminationOrder) (g : NfaGraph C σ) : Option State :=
  match order with
  | .ascending => g.innerStates.head?
  | .heuristic => Nfa.firstMin? (g.ripCost c) g.innerStates

/-- Fails for the start state, for the final state and for what is no state. -/
def requireInner (g : NfaGraph C σ) (q : State) : Except Misuse Unit :=
  if q = g.start || q = g.final then .error (.terminalState q)
  else if g.hasState q then .ok () else .error (.unknownState q)

def ripAndMerge [Ord σ] (c : Combiner σ) (g : NfaGraph C σ) (q : State) : NfaGraph C σ :=
  (g.rip c q).unionEdges c

/-! ## What ripping out leaves -/

theorem mem_states {g : NfaGraph C σ} {q : State} : q ∈ g.states ↔ q ∈ C.nodes g.graph :=
  Ascending.mem_sort

theorem mem_labels {g : NfaGraph C σ} {p q : State} {l : Label σ} :
    l ∈ g.labels p q ↔ ∃ ls, C.value? g.graph (p, q) = some ls ∧ l ∈ ls := by
  unfold labels
  cases C.value? g.graph (p, q) <;> simp

/-- Transitions lead from nodes to nodes. -/
theorem ends_mem {g : NfaGraph C σ} {p q : State} {l : Label σ} (h : l ∈ g.labels p q) :
    p ∈ C.nodes g.graph ∧ q ∈ C.nodes g.graph := by
  obtain ⟨ls, hls, -⟩ := mem_labels.1 h
  exact C.ends_mem _ _ _ hls

theorem mem_incoming {g : NfaGraph C σ} {p q r : State} {l : Label σ} :
    ⟨p, l, r⟩ ∈ g.incoming q ↔ r = q ∧ l ∈ g.labels p q := by
  unfold incoming
  simp only [List.mem_flatMap, List.mem_map, Ascending.mem_sort]
  constructor
  · rintro ⟨p', -, l', hl, heq⟩
    obtain ⟨rfl, rfl, rfl⟩ := Edge.mk.inj heq
    exact ⟨rfl, hl⟩
  · rintro ⟨rfl, hl⟩
    obtain ⟨ls, hls, -⟩ := mem_labels.1 hl
    exact ⟨p, (C.mem_predecessors _ _ _).2 ⟨ls, hls⟩, l, hl, rfl⟩

theorem mem_outgoing {g : NfaGraph C σ} {p q r : State} {l : Label σ} :
    ⟨r, l, q⟩ ∈ g.outgoing p ↔ r = p ∧ l ∈ g.labels p q := by
  unfold outgoing
  simp only [List.mem_flatMap, List.mem_map, Ascending.mem_sort]
  constructor
  · rintro ⟨q', -, l', hl, heq⟩
    obtain ⟨rfl, rfl, rfl⟩ := Edge.mk.inj heq
    exact ⟨rfl, hl⟩
  · rintro ⟨rfl, hl⟩
    obtain ⟨ls, hls, -⟩ := mem_labels.1 hl
    exact ⟨q, (C.mem_successors _ _ _).2 ⟨ls, hls⟩, l, hl, rfl⟩

theorem mem_entering {g : NfaGraph C σ} {p q r : State} {l : Label σ} :
    ⟨p, l, r⟩ ∈ g.entering q ↔ l ∈ g.labels p q ∧ r = q ∧ p ≠ q := by
  unfold entering
  rw [List.mem_filter, mem_incoming]
  constructor
  · rintro ⟨⟨rfl, hl⟩, hloop⟩
    exact ⟨hl, rfl, by simpa [Edge.isLoop] using hloop⟩
  · rintro ⟨hl, rfl, hne⟩
    exact ⟨⟨rfl, hl⟩, by simpa [Edge.isLoop] using hne⟩

theorem mem_leavingEdges {g : NfaGraph C σ} {p q r : State} {l : Label σ} :
    ⟨p, l, r⟩ ∈ g.leavingEdges q ↔ l ∈ g.labels q r ∧ p = q ∧ r ≠ q := by
  unfold leavingEdges
  rw [List.mem_filter, mem_outgoing]
  constructor
  · rintro ⟨⟨rfl, hl⟩, hloop⟩
    exact ⟨hl, rfl, Ne.symm (by simpa [Edge.isLoop] using hloop)⟩
  · rintro ⟨hl, rfl, hne⟩
    exact ⟨⟨rfl, hl⟩, by simpa [Edge.isLoop] using hne.symm⟩

/-- The new transitions lead from nodes to nodes, and not to or from the state that goes. -/
theorem ends_mem_rerouted {c : Combiner σ} {g : NfaGraph C σ} {q : State} {e : Edge (Label σ)}
    (h : e ∈ g.rerouted c q) : (e.source ∈ C.nodes g.graph ∧ e.source ≠ q) ∧
      e.target ∈ C.nodes g.graph ∧ e.target ≠ q := by
  obtain ⟨⟨p, pre, s⟩, hin, h⟩ := List.mem_flatMap.1 h
  obtain ⟨⟨t, post, r⟩, hout, rfl⟩ := List.mem_map.1 h
  obtain ⟨hpre, -, hp⟩ := mem_entering.1 hin
  obtain ⟨hpost, -, hr⟩ := mem_leavingEdges.1 hout
  exact ⟨⟨(ends_mem hpre).1, hp⟩, (ends_mem hpost).2, hr⟩

theorem mem_nodes_addEdge [Ord σ] {g : NfaGraph C σ} {e : Edge (Label σ)} {q : State}
    (hs : e.source ∈ C.nodes g.graph) (ht : e.target ∈ C.nodes g.graph) :
    q ∈ C.nodes (g.addEdge e).graph ↔ q ∈ C.nodes g.graph := by
  show q ∈ C.nodes (C.putAll g.graph
    [(e.ends, Ascending.insert e.label (g.labels e.source e.target))]) ↔ _
  exact GraphMap.mem_nodes_putAll (List.forall_mem_singleton.2 ⟨hs, ht⟩)

theorem mem_nodes_addEdges [Ord σ] {g : NfaGraph C σ} {es : List (Edge (Label σ))} {q : State}
    (hends : ∀ e ∈ es, e.source ∈ C.nodes g.graph ∧ e.target ∈ C.nodes g.graph) :
    q ∈ C.nodes (g.addEdges es).graph ↔ q ∈ C.nodes g.graph := by
  induction es generalizing g with
  | nil => exact Iff.rfl
  | cons e es ih =>
    obtain ⟨⟨hs, ht⟩, hrest⟩ := List.forall_mem_cons.1 hends
    refine (ih fun f hf => ?_).trans (mem_nodes_addEdge hs ht)
    exact (hrest f hf).imp (mem_nodes_addEdge hs ht).2 (mem_nodes_addEdge hs ht).2

theorem mem_nodes_rip [Ord σ] {c : Combiner σ} {g : NfaGraph C σ} {q r : State} :
    r ∈ C.nodes (g.rip c q).graph ↔ r ∈ C.nodes g.graph ∧ r ≠ q := by
  have hends : ∀ e ∈ g.rerouted c q, e.source ∈ C.nodes (g.removeState q).graph ∧
      e.target ∈ C.nodes (g.removeState q).graph := fun e he =>
    (ends_mem_rerouted he).imp (C.mem_nodes_removeNode _ _ _).2 (C.mem_nodes_removeNode _ _ _).2
  exact (mem_nodes_addEdges hends).trans (C.mem_nodes_removeNode _ _ _)

theorem mem_nodes_unionEdges [Ord σ] {c : Combiner σ} {g : NfaGraph C σ} {q : State} :
    q ∈ C.nodes (g.unionEdges c).graph ↔ q ∈ C.nodes g.graph := by
  refine C.mem_nodes_putAll fun x hx => ?_
  obtain ⟨y, hy, rfl⟩ := List.mem_map.1 hx
  obtain ⟨z, hz, rfl⟩ := List.mem_map.1 hy
  exact C.ends_mem _ _ _ ((C.mem_arrows _ _ _).1 (List.mem_filter.1 hz).1)

theorem stateCount_ripAndMerge_lt [Ord σ] {c : Combiner σ} {g : NfaGraph C σ} {q : State}
    (hq : q ∈ C.nodes g.graph) : (g.ripAndMerge c q).stateCount < g.stateCount := by
  have hmem : ∀ r, r ∈ C.nodes (g.ripAndMerge c q).graph ↔ r ∈ C.nodes g.graph ∧ r ≠ q :=
    fun r => mem_nodes_unionEdges.trans mem_nodes_rip
  have hnodup : (q :: C.nodes (g.ripAndMerge c q).graph).Nodup :=
    List.nodup_cons.2 ⟨fun h => ((hmem q).1 h).2 rfl, C.nodup_nodes _⟩
  have hsub : q :: C.nodes (g.ripAndMerge c q).graph ⊆ C.nodes g.graph :=
    List.cons_subset.2 ⟨hq, fun r hr => ((hmem r).1 hr).1⟩
  exact (List.subperm_of_subset hnodup hsub).length_le

theorem mem_innerStates_of_nextInner? {c : Combiner σ} {order : EliminationOrder}
    {g : NfaGraph C σ} {q : State} (h : g.nextInner? c order = some q) : q ∈ g.innerStates := by
  cases order with
  | ascending => exact List.mem_of_head? h
  | heuristic => exact Nfa.mem_of_firstMin?_eq_some h

/-! ## Elimination and synthesis -/

/-- Rips out one state after the other, checking of every one whether it may be ripped out. -/
def ripAll? [Ord σ] (c : Combiner σ) (order : EliminationOrder) (g : NfaGraph C σ) :
    Except Misuse (NfaGraph C σ) :=
  match _h : g.nextInner? c order with
  | none => .ok g
  | some q => do
    g.requireInner q
    ripAll? c order (g.ripAndMerge c q)
termination_by g.stateCount
decreasing_by
  have hinner := List.mem_filter.1 (mem_innerStates_of_nextInner? _h)
  exact stateCount_ripAndMerge_lt (mem_states.1 hinner.1)

/-- The states in the order in which `renumber` counts them: the start state, then the
others ascending. -/
def countingOrder (g : NfaGraph C σ) : List State := g.start :: g.states.filter (· ≠ g.start)

/-- The automaton in a new graph on the states `0, …, stateCount - 1`. -/
def renumber (g : NfaGraph C σ) : NfaGraph C σ :=
  let number := fun q => g.countingOrder.idxOf q
  { g with
    graph := C.build (g.countingOrder.map number)
      ((C.arrows g.graph).map fun x => ((number x.1.1, number x.1.2), x.2))
    start := number g.start
    final := number g.final
    fresh := g.countingOrder.length }

def eliminate? [Ord σ] (c : Combiner σ) (order : EliminationOrder) (g : NfaGraph C σ) :
    Except Misuse (NfaGraph C σ) := do
  let isolated ← g.isolate?
  let last ← (isolated.unionEdges c).ripAll? c order
  return last.renumber

/-- The label for the whole language, or nothing if no word is accepted. -/
def expression? [Ord σ] (c : Combiner σ) (order : EliminationOrder) (g : NfaGraph C σ) :
    Except Misuse (Option (Label σ)) := do
  let last ← g.eliminate? c order
  return (last.labels last.start last.final).head?

/-- The automaton in a new graph, with other letters. -/
def mapLetters [Ord τ] (f : σ → τ) (g : NfaGraph C σ) : NfaGraph C τ where
  graph := C.build (C.nodes g.graph)
    ((C.arrows g.graph).map fun x => (x.1, Ascending.ofList (x.2.map (Label.map f))))
  alphabet := Ascending.ofList (g.alphabet.map f)
  start := g.start
  final := g.final
  fresh := g.fresh

/-- An expression for the accepted words. -/
def synthesize? [Ord σ] [DecidableEq σ] (g : NfaGraph C σ) (order : EliminationOrder) :
    Except Misuse (Option (Postfix σ)) := do
  let label ← (g.mapLetters Annotated.literal).expression? (postfixCombiner σ) order
  return label.map Label.tokens

/-- The text of an expression for the accepted words, glued together from texts. -/
def synthesizeText? [ToString σ] (g : NfaGraph C σ) (order : EliminationOrder) :
    Except Misuse (Option String) := do
  let label ← (g.mapLetters fun a => escape (toString a)).expression? textCombiner order
  return label.map TextCombiner.textOf

end Kleene.NfaGraph
