import Kleene.Drawing.Outline
import Kleene.Proofs.ContainerOperations
import Kleene.Proofs.Multigraph

/-!
# What a snapshot keeps

However an automaton comes by its bundles of parallel transitions, taken apart again they are its
transitions in order, each of them once.  A copy with texts for labels shows therefore the automaton
itself, if no two labels have the same text.
-/

namespace Kleene

namespace Outline

variable {ℓ : Type} {o : Outline ℓ}

/-- The transitions of the bundles, one bundle after the other. -/
def edges (o : Outline ℓ) : List (Edge ℓ) :=
  o.bundles.flatMap fun b => b.2.map fun l => ⟨b.1.1, l, b.1.2⟩

def view (o : Outline ℓ) : View ℓ := ⟨o.states, o.start, o.states.filter o.isFinal, o.edges⟩

theorem capture_eq (o : Outline ℓ) (text : ℓ → String) :
    o.capture text = o.view.snapshotWith text := by
  unfold capture View.snapshotWith view edges
  simp only [List.map_flatMap, List.map_map]
  rfl

/-- Bundles are taken apart into what they were made of. -/
theorem flatMap_bundled (es : List (Edge ℓ)) :
    ((bundled es).flatMap fun b => b.2.map fun l => (⟨b.1.1, l, b.1.2⟩ : Edge ℓ)) = es := by
  induction es with
  | nil => rfl
  | cons e es ih =>
    unfold bundled
    cases hbundles : bundled es with
    | nil =>
      rw [hbundles] at ih
      rw [← ih]
      rfl
    | cons b bs =>
      rw [hbundles] at ih
      dsimp only
      split
      · rename_i hends
        rw [← ih]
        simp only [List.flatMap_cons, List.map_cons, List.cons_append, hends]
        rfl
      · rw [← ih]
        rfl

end Outline

/-! ## The bundles of a container -/

namespace NfaGraph

variable {C : GraphMap} {σ : Type} {g : NfaGraph C σ} {n : Nfa σ}

theorem perm_bundles (g : NfaGraph C σ) : g.outline.bundles.Perm (C.arrows g.graph) :=
  List.mergeSort_perm _ _

/-- No two bundles have the same ends, so they are in order. -/
theorem pairwise_bundles (g : NfaGraph C σ) : g.outline.bundles.Pairwise fun x y =>
    x.1.1 < y.1.1 ∨ (x.1.1 = y.1.1 ∧ x.1.2 < y.1.2) := by
  have htrans : ∀ {p q p' q' p'' q'' : Nat}, p < p' ∨ (p = p' ∧ q ≤ q') →
      p' < p'' ∨ (p' = p'' ∧ q' ≤ q'') → p < p'' ∨ (p = p'' ∧ q ≤ q'') := by omega
  have htotal : ∀ p q p' q' : Nat,
      (p < p' ∨ (p = p' ∧ q ≤ q')) ∨ p' < p ∨ (p' = p ∧ q' ≤ q) := by omega
  have hsorted : g.outline.bundles.Pairwise fun x y =>
      decide (x.1.1 < y.1.1 ∨ (x.1.1 = y.1.1 ∧ x.1.2 ≤ y.1.2)) = true := by
    apply List.pairwise_mergeSort
    · intro x y z hxy hyz
      exact decide_eq_true (htrans (of_decide_eq_true hxy) (of_decide_eq_true hyz))
    · intro x y
      rw [Bool.or_eq_true, decide_eq_true_eq, decide_eq_true_eq]
      exact htotal _ _ _ _
  have hnodup := g.perm_bundles.nodup_iff.2 (C.nodup_arrows g.graph)
  refine (hsorted.and hnodup).imp_of_mem fun {x y} hx hy hxy => ?_
  rcases hxy with ⟨hle, hne⟩
  rcases of_decide_eq_true hle with hlt | ⟨hsource, htarget⟩
  · exact .inl hlt
  · refine .inr ⟨hsource, Nat.lt_of_le_of_ne htarget fun heq => hne ?_⟩
    -- the container has one value at each arrow
    have hends : x.1 = y.1 := Prod.ext hsource heq
    have hvalue := (C.mem_arrows g.graph x.1 x.2).1 (g.perm_bundles.mem_iff.1 hx)
    have hvalue' := (C.mem_arrows g.graph y.1 y.2).1 (g.perm_bundles.mem_iff.1 hy)
    rw [hends, hvalue'] at hvalue
    exact Prod.ext hends (Option.some.inj hvalue).symm

variable [Ord σ] [Std.TransOrd σ] [Std.LawfulEqOrd σ]

theorem Holds.edges_outline (h : g.Holds n) : g.outline.edges = n.edges := by
  apply Ascending.eq_of_mem_iff _ h.wellFormed.edges_ascending
  · intro e
    rw [← h.mem_unsorted]
    exact (g.perm_bundles.flatMap_right _).mem_iff
  · apply isAscending_bundles Prod.fst _ g.pairwise_bundles
    intro x hx
    rcases x with ⟨⟨p, q⟩, ls⟩
    rcases h.mem_arrows.1 (g.perm_bundles.mem_iff.1 hx) with ⟨-, rfl⟩
    exact Nfa.labelsBetween_ascending h.wellFormed.edges_ascending p q

theorem Holds.view_outline (h : g.Holds n) : g.outline.view = n.view := by
  have hfinals : g.outline.isFinal = fun q => decide (q = n.final) := by
    rw [← h.final_eq]
    rfl
  have hstates : g.outline.states = n.states := h.states_eq
  have hstart : g.outline.start = n.start := h.start_eq
  unfold Outline.view Nfa.view
  rw [h.edges_outline, hstates, hstart, hfinals]

end NfaGraph

/-! ## The bundles of a graph -/

namespace Multigraph

variable {σ : Type} {g : Multigraph σ} {d : Dfa σ}

theorem Represents.isFinal_eq (h : g.Represents d) (q : State) : g.isFinal q = d.isFinal q := by
  unfold isFinal Dfa.isFinal
  rw [h.nodes, List.getElem?_map]
  rcases d.marks[q]? with _ | _ | _ | _
  · rfl
  · rfl
  · rfl
  · rfl

variable [Ord σ] [Std.TransOrd σ] [Std.LawfulEqOrd σ]

/-- The runs that are bundled are those of the transitions in order. -/
theorem Represents.edges_outline (h : g.Represents d) (hd : d.WellFormed) :
    g.outline.edges = d.edges := by
  have hperm : g.transitions.Perm d.edges := (List.mergeSort_perm _ _).trans h.edges
  have hnodup := hperm.nodup_iff.2 hd.edges_ascending.nodup
  have hsort := Ascending.sort_eq hnodup hd.edges_ascending fun _ => hperm.mem_iff
  rw [← hsort]
  exact Outline.flatMap_bundled _

theorem Represents.view_outline (h : g.Represents d) (hd : d.WellFormed) :
    g.outline.view = d.view := by
  have hfinals : g.outline.isFinal = d.isFinal := funext h.isFinal_eq
  have hstates : g.outline.states = d.states := congrArg List.range h.stateCount_eq
  have hstart : g.outline.start = d.start := h.start
  unfold Outline.view Dfa.view Dfa.finals
  rw [h.edges_outline hd, hstates, hstart, hfinals]

end Multigraph

/-! ## Copies -/

/-- The automaton in a container or in a graph, with what it consists of. -/
inductive Outline.Of : {ℓ : Type} → [Ord ℓ] → Outline ℓ → View ℓ → Prop
  | nfa {C : GraphMap} {σ : Type} [Ord σ] [Std.TransOrd σ] [Std.LawfulEqOrd σ] {g : NfaGraph C σ}
      {n : Nfa σ} : g.Holds n → Of g.outline n.view
  | dfa {σ : Type} [Ord σ] [Std.TransOrd σ] [Std.LawfulEqOrd σ] {g : Multigraph σ} {d : Dfa σ} :
      d.WellFormed → g.Represents d → Of g.outline d.view

/-- Everything is listed once and in order. -/
structure View.Ordered {ℓ : Type} [Ord ℓ] (v : View ℓ) : Prop where
  states_ascending : Ascending.IsAscending v.states
  finals_ascending : Ascending.IsAscending v.finals
  edges_ascending : Ascending.IsAscending v.edges

/-- The labels that are in use. -/
def View.labels {ℓ : Type} (v : View ℓ) : Set ℓ := {l | ∃ e ∈ v.edges, e.label = l}

section Copies

variable {ℓ : Type} [Ord ℓ] {o : Outline ℓ} {v v' : View ℓ} {text : ℓ → String}

theorem Outline.Of.view_eq (h : o.Of v) : o.view = v := by
  cases h with
  | nfa h => exact h.view_outline
  | dfa hd h => exact h.view_outline hd

theorem Outline.Of.ordered (h : o.Of v) : v.Ordered := by
  cases h with
  | nfa h =>
    have hn := h.wellFormed
    exact ⟨hn.states_ascending, hn.states_ascending.filter _, hn.edges_ascending⟩
  | dfa hd _ =>
    refine ⟨Ascending.isAscending_range _, ?_, hd.edges_ascending⟩
    exact (Ascending.isAscending_range _).filter _

/-- States and final states stand in the copy once and in order, and for each transition there is
one entry, in the order of the transitions. -/
structure Snapshot.Copies (s : Snapshot) (v : View ℓ) (text : ℓ → String) : Prop where
  start_eq : s.start = v.start
  states_ascending : Ascending.IsAscending s.states
  mem_states : ∀ q, q ∈ s.states ↔ q ∈ v.states
  finals_ascending : Ascending.IsAscending s.finals
  mem_finals : ∀ q, q ∈ s.finals ↔ q ∈ v.finals
  exists_edges : ∃ es, Ascending.IsAscending es ∧ (∀ e, e ∈ es ↔ e ∈ v.edges) ∧
    s.transitions = es.map fun e => (e.source, text e.label, e.target)
  nodup_transitions : s.transitions.Nodup

/-- Both have the same states, the same start and final states and the same transitions. -/
structure View.Same (v v' : View ℓ) : Prop where
  mem_states_iff : ∀ q, q ∈ v.states ↔ q ∈ v'.states
  start_eq : v.start = v'.start
  mem_finals_iff : ∀ q, q ∈ v.finals ↔ q ∈ v'.finals
  mem_edges_iff : ∀ e, e ∈ v.edges ↔ e ∈ v'.edges

omit [Ord ℓ] in
/-- Transitions whose labels have different texts look different. -/
theorem injOn_shown {labels : Set ℓ} (htext : Set.InjOn text labels) :
    Set.InjOn (fun e : Edge ℓ => (e.source, text e.label, e.target)) {e | e.label ∈ labels} := by
  intro e he f hf heq
  rcases e with ⟨p, l, q⟩
  rcases f with ⟨p', l', q'⟩
  rcases Prod.mk.inj heq with ⟨hsource, hrest⟩
  rcases Prod.mk.inj hrest with ⟨hshown, htarget⟩
  rw [Edge.mk.injEq]
  exact ⟨hsource, htext he hf hshown, htarget⟩

variable [Std.TransOrd ℓ] [Std.LawfulEqOrd ℓ]

omit [Std.TransOrd ℓ] in
theorem View.Ordered.copies_snapshotWith (hv : v.Ordered) (htext : Set.InjOn text v.labels) :
    (v.snapshotWith text).Copies v text where
  start_eq := rfl
  states_ascending := hv.states_ascending
  mem_states _ := Iff.rfl
  finals_ascending := hv.finals_ascending
  mem_finals _ := Iff.rfl
  exists_edges := ⟨v.edges, hv.edges_ascending, fun _ => Iff.rfl, rfl⟩
  nodup_transitions := by
    apply List.Nodup.map_on _ hv.edges_ascending.nodup
    intro e he f hf heq
    exact injOn_shown htext ⟨e, he, rfl⟩ ⟨f, hf, rfl⟩ heq

omit [Ord ℓ] [Std.TransOrd ℓ] [Std.LawfulEqOrd ℓ] in
/-- A transition that stands in the other copy is a transition there. -/
theorem View.mem_edges_of_snapshotWith (htext : Set.InjOn text (v.labels ∪ v'.labels))
    (heq : v.snapshotWith text = v'.snapshotWith text) {e : Edge ℓ} (he : e ∈ v.edges) :
    e ∈ v'.edges := by
  have hshown : (e.source, text e.label, e.target) ∈ (v'.snapshotWith text).transitions := by
    rw [← heq]
    exact List.mem_map.2 ⟨e, he, rfl⟩
  rcases List.mem_map.1 hshown with ⟨f, hf, hsame⟩
  rw [← injOn_shown htext (.inr ⟨f, hf, rfl⟩) (.inl ⟨e, he, rfl⟩) hsame]
  exact hf

/-- Copies with texts that tell the labels of both apart are equal only if the same was copied. -/
theorem View.Ordered.snapshotWith_eq_iff (hv : v.Ordered) (hv' : v'.Ordered)
    (htext : Set.InjOn text (v.labels ∪ v'.labels)) :
    v.snapshotWith text = v'.snapshotWith text ↔ v.Same v' := by
  apply Iff.intro
  · intro heq
    have hswap : Set.InjOn text (v'.labels ∪ v.labels) := by
      rw [Set.union_comm]
      exact htext
    exact
      { mem_states_iff := fun q => by rw [show v.states = v'.states from congrArg Snapshot.states heq]
        start_eq := congrArg Snapshot.start heq
        mem_finals_iff := fun q => by rw [show v.finals = v'.finals from congrArg Snapshot.finals heq]
        mem_edges_iff := fun e =>
          ⟨mem_edges_of_snapshotWith htext heq, mem_edges_of_snapshotWith hswap heq.symm⟩ }
  · intro hsame
    unfold View.snapshotWith
    rw [Ascending.eq_of_mem_iff hv.states_ascending hv'.states_ascending hsame.mem_states_iff,
      Ascending.eq_of_mem_iff hv.finals_ascending hv'.finals_ascending hsame.mem_finals_iff,
      Ascending.eq_of_mem_iff hv.edges_ascending hv'.edges_ascending hsame.mem_edges_iff,
      hsame.start_eq]

/-- A copy with different texts for different labels has everything once and in order.  Therefore,
if the texts tell apart the labels of two automata, their copies are equal exactly if they have the
same states, start, final states and transitions. -/
theorem Outline.Of.capture_spec (h : o.Of v) (htext : Set.InjOn text v.labels) :
    o.capture text = v.snapshotWith text ∧ (o.capture text).Copies v text ∧
      ∀ {o' : Outline ℓ} {v' : View ℓ}, o'.Of v' → Set.InjOn text (v.labels ∪ v'.labels) →
        (o.capture text = o'.capture text ↔ v.Same v') := by
  rw [o.capture_eq, h.view_eq]
  refine ⟨rfl, h.ordered.copies_snapshotWith htext, ?_⟩
  intro o' v' h' hboth
  rw [o'.capture_eq, h'.view_eq]
  exact h.ordered.snapshotWith_eq_iff h'.ordered hboth

end Copies

/-! ## Two labels with one text -/

theorem View.labels_of_edges_singleton {ℓ : Type} {v : View ℓ} {p q : State} {l : ℓ}
    (h : v.edges = [⟨p, l, q⟩]) : v.labels = {l} := by
  ext l'
  unfold View.labels
  rw [h]
  simp [eq_comm]

namespace Nfa

/-- An ε-transition in place of a letter that is written the same. -/
def silent : Nfa Char := (nothing []).addEdges [epsilonEdge 0 1]

/-- Texts that tell the labels of either automaton apart need not tell apart the automata. -/
theorem capture_not_faithful : ∃ g g' : NfaGraph GraphMap.listed Char,
    g.Holds (literal 'ε') ∧ g'.Holds silent ∧
    Set.InjOn toString (literal 'ε').view.labels ∧ Set.InjOn toString silent.view.labels ∧
    g.outline.capture toString = g'.outline.capture toString ∧
    ¬ (literal 'ε').view.Same silent.view := by
  obtain ⟨g, -, hg⟩ := NfaGraph.exists_literal? GraphMap.listed 'ε'
  obtain ⟨bare, -, hbare⟩ := NfaGraph.exists_nothing? GraphMap.listed ([] : List Char)
  obtain ⟨g', -, hg'⟩ := hbare.exists_addEdge? (epsilonEdge 0 1) (List.mem_range.2 Nat.zero_lt_two)
    (List.mem_range.2 Nat.one_lt_two)
  refine ⟨g, g', hg.toHolds, hg'.toHolds, ?_, ?_, ?_, fun hsame => ?_⟩
  · rw [View.labels_of_edges_singleton (v := (literal 'ε').view) rfl]
    exact Set.injOn_singleton _ _
  · rw [View.labels_of_edges_singleton (v := silent.view) rfl]
    exact Set.injOn_singleton _ _
  · rw [Outline.capture_eq, Outline.capture_eq, hg.view_outline, hg'.view_outline]
    rfl
  · have hedge : (⟨0, .symbol 'ε', 1⟩ : Edge (Label Char)) ∈ silent.view.edges :=
      (hsame.mem_edges_iff _).1 (List.mem_singleton.2 rfl)
    exact absurd hedge (by decide)

end Nfa

/-! ## Parallel transitions with another one between them -/

namespace Dfa

/-- By letter, a transition to another state comes between the two that are parallel. -/
def interleaved : Dfa Char :=
  ⟨[.plain, .plain, .accepting], ['a', 'b', 'c'], [⟨0, 'a', 1⟩, ⟨0, 'c', 1⟩, ⟨0, 'b', 2⟩], 0⟩

/-- The last letter leads elsewhere. -/
def rearranged : Dfa Char :=
  ⟨[.plain, .plain, .accepting], ['a', 'b', 'c'], [⟨0, 'a', 1⟩, ⟨0, 'b', 2⟩, ⟨0, 'c', 2⟩], 0⟩

/-- A graph to which the transitions of an automaton were added one after the other. -/
def grown (d : Dfa Char) : Multigraph Char :=
  ⟨d.marks.map Mark.flags, d.alphabet, d.edges.reverse, d.start⟩

theorem represents_grown (d : Dfa Char) : d.grown.Represents d :=
  ⟨rfl, rfl, List.reverse_perm d.edges, rfl⟩

theorem wellFormed_interleaved : interleaved.WellFormed := wellFormed_of_ofParts
  (show ofParts ⟨[0, 1, 2], [], [⟨0, 'a', 1⟩, ⟨0, 'b', 2⟩, ⟨0, 'c', 1⟩], 0, [2]⟩ = .ok interleaved
    from rfl)

theorem wellFormed_rearranged : rearranged.WellFormed := wellFormed_of_ofParts
  (show ofParts ⟨[0, 1, 2], [], [⟨0, 'a', 1⟩, ⟨0, 'b', 2⟩, ⟨0, 'c', 2⟩], 0, [2]⟩ = .ok rearranged
    from rfl)

theorem capture_spec_interleaved :
    interleaved.WellFormed ∧ rearranged.WellFormed ∧ Function.Injective String.singleton ∧
    (interleaved.grown.outline.capture String.singleton).Copies interleaved.view
      String.singleton ∧
    interleaved.grown.outline.capture String.singleton ≠
      rearranged.grown.outline.capture String.singleton := by
  have hinjective : Function.Injective String.singleton := by
    intro c c' heq
    have hlists := congrArg String.toList heq
    rw [String.toList_singleton, String.toList_singleton] at hlists
    exact List.singleton_inj.1 hlists
  have hof := Outline.Of.dfa wellFormed_interleaved (represents_grown interleaved)
  have hof' := Outline.Of.dfa wellFormed_rearranged (represents_grown rearranged)
  rcases hof.capture_spec hinjective.injOn with ⟨-, hcopies, hiff⟩
  refine ⟨wellFormed_interleaved, wellFormed_rearranged, hinjective, hcopies, ?_⟩
  intro heq
  have hsame := (hiff hof' hinjective.injOn).1 heq
  have hmem : (⟨0, 'c', 1⟩ : Edge Char) ∈ rearranged.view.edges :=
    (hsame.mem_edges_iff _).1 (by decide)
  exact absurd hmem (by decide)

end Dfa

end Kleene
