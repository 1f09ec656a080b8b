import Kleene.Proofs.Containers
import Kleene.Proofs.Reductions

/-!
# Changes in a container

What is done to an automaton in a container is done to the automaton that the container holds:
states and transitions are added and removed, states are ripped out and parallel transitions merged,
letters are replaced and states counted anew.  In what order the container lists arrows does not
show where no arrow is changed twice.
-/

namespace Kleene

namespace Nfa

variable {σ : Type} {n : Nfa σ} {p q r : State}

theorem letters_singleton (e : Edge (Label σ)) : letters [e] = e.label.symbol?.toList := by
  obtain ⟨p, l, q⟩ := e
  cases l <;> rfl

theorem labelSet?_removeState : (n.removeState q).labelSet? p r =
    if p = q ∨ r = q then none else n.labelSet? p r := by
  have hlabels : (n.removeState q).labelsBetween p r =
      if p = q ∨ r = q then [] else n.labelsBetween p r := by
    unfold labelsBetween removeState
    rw [List.filter_filter]
    split
    · rename_i hends
      rw [List.map_eq_nil_iff, List.filter_eq_nil_iff]
      rintro e - he
      simp only [Bool.and_eq_true, decide_eq_true_eq] at he
      obtain ⟨⟨rfl, rfl⟩, hs, ht⟩ := he
      exact hends.elim hs ht
    · rename_i hends
      refine congrArg _ (List.filter_congr fun e _ => ?_)
      obtain ⟨hp, hr⟩ := not_or.1 hends
      by_cases hs : e.source = p <;> by_cases ht : e.target = r <;> simp [hs, ht, hp, hr]
  rw [labelSet?_eq, labelSet?_eq, hlabels]
  split <;> rfl

/-- A label without others beside it is the merged label. -/
theorem labelsBetween_eq_singleton {l : Label σ} (he : ⟨p, l, q⟩ ∈ n.edges)
    (hlength : ¬1 < (n.labelsBetween p q).length) (c : Combiner σ) :
    n.labelsBetween p q = [n.mergedLabel c p q] := by
  have hl := mem_labelsBetween.2 he
  unfold mergedLabel
  match hlabels : n.labelsBetween p q with
  | [] =>
    rw [hlabels] at hl
    cases hl
  | [l'] => rfl
  | l' :: l'' :: ls =>
    rw [hlabels] at hlength
    exact absurd (Nat.succ_lt_succ (Nat.succ_pos ls.length)) hlength

variable [Ord σ] [Std.TransOrd σ] [Std.LawfulEqOrd σ]

/-- Joined states have the one ascending set of their labels. -/
theorem ite_eq_labelSet? (h : n.WellFormed) {joined : Prop} [Decidable joined]
    {ls : List (Label σ)} (hjoined : joined ↔ ∃ l, ⟨p, l, q⟩ ∈ n.edges)
    (hls : Ascending.IsAscending ls) (hmem : joined → ∀ l, l ∈ ls ↔ ⟨p, l, q⟩ ∈ n.edges) :
    (if joined then some ls else none) = n.labelSet? p q := by
  split
  · rename_i hyes
    refine (labelSet?_eq_some_iff.2 ⟨hjoined.1 hyes, ?_⟩).symm
    exact Ascending.eq_of_mem_iff hls (labelsBetween_ascending h.edges_ascending p q)
      fun l => (hmem hyes l).trans mem_labelsBetween.symm
  · rename_i hno
    exact (if_neg (mt (mem_joinedPairs.trans hjoined.symm).1 hno)).symm

/-! ## Counting -/

omit [Std.LawfulEqOrd σ] [Std.TransOrd σ] in
theorem WellFormed.nodup_countingOrder (h : n.WellFormed) : n.countingOrder.Nodup :=
  List.nodup_cons.2 ⟨fun hmem => of_decide_eq_true (List.mem_filter.1 hmem).2 rfl,
    h.states_ascending.nodup.filter _⟩

omit [Std.LawfulEqOrd σ] [Std.TransOrd σ] in
theorem WellFormed.mem_map_idxOf_countingOrder (h : n.WellFormed) :
    q ∈ n.countingOrder.map (n.countingOrder.idxOf ·) ↔ q ∈ n.renumber.states := by
  rw [List.mem_map]
  constructor
  · rintro ⟨p, hp, rfl⟩
    exact List.mem_range.2 (List.idxOf_lt_length_of_mem hp)
  · intro hq
    have hlt := List.mem_range.1 hq
    exact ⟨n.countingOrder[q], List.getElem_mem hlt, h.nodup_countingOrder.idxOf_getElem q hlt⟩

omit [Ord σ] [Std.LawfulEqOrd σ] [Std.TransOrd σ] in
theorem Wired.ends_mem_countingOrder (h : n.Wired) {l : Label σ} (he : ⟨p, l, q⟩ ∈ n.edges) :
    p ∈ n.countingOrder ∧ q ∈ n.countingOrder :=
  ⟨h.mem_countingOrder.2 (h.source_mem _ _ _ he), h.mem_countingOrder.2 (h.target_mem _ _ _ he)⟩

omit [Std.TransOrd σ] in
/-- States are counted apart, so their transitions stay apart. -/
theorem mem_edges_renumber_idxOf {l : Label σ} (hp : p ∈ n.countingOrder)
    (hq : q ∈ n.countingOrder) :
    ⟨n.countingOrder.idxOf p, l, n.countingOrder.idxOf q⟩ ∈ n.renumber.edges ↔
      ⟨p, l, q⟩ ∈ n.edges := by
  rw [mem_edges_renumber]
  constructor
  · rintro ⟨s, t, he, hs, ht⟩
    rwa [(List.idxOf_inj hp).1 hs, (List.idxOf_inj hq).1 ht]
  · exact fun he => ⟨p, q, he, rfl, rfl⟩

/-- The labels from one state to another, which are given by their numbers. -/
def labelsByNumber (n : Nfa σ) (a : Arrow) : List (Label σ) :=
  n.labelsBetween (n.countingOrder.getD a.1 0) (n.countingOrder.getD a.2 0)

omit [Ord σ] [Std.LawfulEqOrd σ] [Std.TransOrd σ] in
theorem getD_idxOf_countingOrder (hp : p ∈ n.countingOrder) :
    n.countingOrder.getD (n.countingOrder.idxOf p) 0 = p := by
  rw [List.getD_eq_getElem?_getD, List.getElem?_idxOf hp]
  rfl

omit [Ord σ] [Std.LawfulEqOrd σ] [Std.TransOrd σ] in
/-- Numbers lead back to the states that have them. -/
theorem labelsByNumber_idxOf (hp : p ∈ n.countingOrder) (hq : q ∈ n.countingOrder) :
    n.labelsByNumber (n.countingOrder.idxOf p, n.countingOrder.idxOf q) = n.labelsBetween p q := by
  unfold labelsByNumber
  rw [getD_idxOf_countingOrder hp, getD_idxOf_countingOrder hq]

end Nfa

namespace NfaGraph.Holds

variable {C : GraphMap} {σ : Type} [Ord σ] {g : NfaGraph C σ} {n : Nfa σ} {p q : State}
variable {e : Edge (Label σ)} {es : List (Edge (Label σ))} {c : Combiner σ}

/-! ## States and transitions -/

theorem addState (h : g.Holds n) : g.addState.Holds n.addState where
  wellFormed := h.wellFormed.addState
  mem_nodes q := by
    rw [Nfa.mem_addState, ← h.mem_nodes, ← h.fresh_eq]
    exact C.mem_nodes_addNode _ _ _
  value?_eq p q := (C.value?_addNode _ _ _).trans (h.value?_eq p q)
  alphabet_eq := h.alphabet_eq
  start_eq := h.start_eq
  final_eq := h.final_eq
  fresh_eq := congrArg (· + 1) h.fresh_eq

theorem withStart (h : g.Holds n) (hp : p ∈ n.states) :
    ({ g with start := p } : NfaGraph C σ).Holds { n with start := p } :=
  { h with
    wellFormed := h.wellFormed.withTerminals hp h.wellFormed.final_mem
    start_eq := rfl }

theorem withFinal (h : g.Holds n) (hq : q ∈ n.states) :
    ({ g with final := q } : NfaGraph C σ).Holds { n with final := q } :=
  { h with
    wellFormed := h.wellFormed.withTerminals h.wellFormed.start_mem hq
    final_eq := rfl }

theorem removeState (h : g.Holds n) (hs : q ≠ n.start) (hf : q ≠ n.final) :
    (g.removeState q).Holds (n.removeState q) where
  wellFormed := h.wellFormed.removeState hs hf
  mem_nodes p := by
    rw [Nfa.mem_removeState, ← h.mem_nodes]
    exact C.mem_nodes_removeNode _ _ _
  value?_eq p r := by
    rw [Nfa.labelSet?_removeState, ← h.value?_eq]
    exact C.value?_removeNode _ _ _
  alphabet_eq := h.alphabet_eq
  start_eq := h.start_eq
  final_eq := h.final_eq
  fresh_eq := h.fresh_eq

theorem mem_merged (h : g.Holds n) {l : Label σ} : ((p, q), l) ∈ g.merged c ↔
    1 < (n.labelsBetween p q).length ∧ l = n.mergedLabel c p q := by
  have hparallel : 1 < (n.labelsBetween p q).length →
      c.parallel (n.labelsBetween p q) = n.mergedLabel c p q := fun hlength => by
    unfold Nfa.mergedLabel
    split
    · rename_i hone
      rw [hone] at hlength
      exact absurd hlength (Nat.lt_irrefl 1)
    · rfl
  unfold merged
  rw [List.mem_map]
  constructor
  · rintro ⟨⟨⟨p', q'⟩, ls⟩, hx, heq⟩
    obtain ⟨hpq, rfl⟩ := Prod.mk.inj heq
    obtain ⟨rfl, rfl⟩ := Prod.mk.inj hpq
    obtain ⟨harrow, hlength⟩ := List.mem_filter.1 hx
    obtain ⟨-, rfl⟩ := h.mem_arrows.1 harrow
    exact ⟨of_decide_eq_true hlength, hparallel (of_decide_eq_true hlength)⟩
  · rintro ⟨hlength, rfl⟩
    obtain ⟨l, hl⟩ := List.exists_mem_of_length_pos (Nat.zero_lt_of_lt hlength)
    have harrow := h.mem_arrows.2 ⟨⟨l, Nfa.mem_labelsBetween.1 hl⟩, rfl⟩
    exact ⟨((p, q), n.labelsBetween p q), List.mem_filter.2 ⟨harrow, decide_eq_true hlength⟩,
      by rw [hparallel hlength]⟩

/-! ## Isolated terminals -/

theorem hasIncoming_eq (h : g.Holds n) (q : State) :
    g.hasIncoming q = !(n.incoming q).isEmpty := by
  refine congrArg (!·) (Bool.eq_iff_iff.2 ?_)
  rw [Nfa.isEmpty_incoming, List.isEmpty_iff, List.eq_nil_iff_forall_not_mem]
  simp only [C.mem_predecessors, h.exists_value?_iff, not_exists]

theorem hasOutgoing_eq (h : g.Holds n) (p : State) :
    g.hasOutgoing p = !(n.outgoing p).isEmpty := by
  refine congrArg (!·) (Bool.eq_iff_iff.2 ?_)
  rw [Nfa.isEmpty_outgoing, List.isEmpty_iff, List.eq_nil_iff_forall_not_mem]
  simp only [C.mem_successors, h.exists_value?_iff, not_exists]
  exact forall_comm

variable [Std.TransOrd σ] [Std.LawfulEqOrd σ]

theorem addEdge (h : g.Holds n) (hs : e.source ∈ n.states) (ht : e.target ∈ n.states) :
    (g.addEdge e).Holds (n.addEdges [e]) where
  wellFormed := h.wellFormed.addEdges fun p l q he => by
    obtain rfl := List.mem_singleton.1 he
    exact ⟨hs, ht⟩
  mem_nodes q :=
    (mem_nodes_addEdge ((h.mem_nodes _).2 hs) ((h.mem_nodes _).2 ht)).trans (h.mem_nodes q)
  value?_eq p q := by
    rw [Nfa.labelSet?_addEdges h.wellFormed.edges_ascending, ← h.value?_eq]
    refine (C.value?_put _ _ _ _).trans ?_
    by_cases hends : (p, q) = e.ends
    · rw [if_pos hends, if_pos hends.symm, hends]
      rfl
    · rw [if_neg hends, if_neg (Ne.symm hends)]
  alphabet_eq := by
    show withLetter g.alphabet e.label = Ascending.insertAll (Nfa.letters [e]) n.alphabet
    rw [withLetter, Nfa.letters_singleton, h.alphabet_eq]
  start_eq := h.start_eq
  final_eq := h.final_eq
  fresh_eq := h.fresh_eq

theorem addEdges (h : g.Holds n) (hes : ∀ e ∈ es, e.source ∈ n.states ∧ e.target ∈ n.states) :
    (g.addEdges es).Holds (n.addEdges es) := by
  induction es generalizing g n with
  | nil => exact h
  | cons e es ih =>
    obtain ⟨⟨hs, ht⟩, hes⟩ := List.forall_mem_cons.1 hes
    have hnext := ih (h.addEdge hs ht) hes
    rwa [h.wellFormed.addEdges_append, List.singleton_append] at hnext

/-- The automaton with a new start state in front, in a container. -/
theorem withNewStart (h : g.Holds n) :
    ({ g.addState.addEdge (Nfa.epsilonEdge g.fresh g.start) with
      start := g.fresh } : NfaGraph C σ).Holds n.withNewStart := by
  have hfresh : n.fresh ∈ n.addState.states := Nfa.mem_addState.2 (.inl rfl)
  have hstart : n.start ∈ n.addState.states := Nfa.mem_addState.2 (.inr h.wellFormed.start_mem)
  rw [h.fresh_eq, h.start_eq]
  exact (h.addState.addEdge (e := Nfa.epsilonEdge n.fresh n.start) hfresh hstart).withStart hfresh

theorem withNewFinal (h : g.Holds n) :
    ({ g.addState.addEdge (Nfa.epsilonEdge g.final g.fresh) with
      final := g.fresh } : NfaGraph C σ).Holds n.withNewFinal := by
  have hfresh : n.fresh ∈ n.addState.states := Nfa.mem_addState.2 (.inl rfl)
  have hfinal : n.final ∈ n.addState.states := Nfa.mem_addState.2 (.inr h.wellFormed.final_mem)
  rw [h.fresh_eq, h.final_eq]
  exact (h.addState.addEdge (e := Nfa.epsilonEdge n.final n.fresh) hfinal hfresh).withFinal hfresh

/-! ## Ripping out -/

theorem rip (h : g.Holds n) (hs : q ≠ n.start) (hf : q ≠ n.final) :
    (g.rip c q).Holds (n.rip c q) := by
  have hends : ∀ e ∈ g.rerouted c q,
      e.source ∈ (n.removeState q).states ∧ e.target ∈ (n.removeState q).states := fun e he => by
    rw [Nfa.mem_removeState, Nfa.mem_removeState, ← h.mem_nodes, ← h.mem_nodes]
    exact ends_mem_rerouted he
  have hsame : (n.removeState q).addEdges (g.rerouted c q) = n.rip c q := by
    unfold rerouted
    rw [h.entering_eq, h.leavingEdges_eq, h.loopLetters_eq]
    rfl
  exact hsame ▸ (h.removeState hs hf).addEdges hends

/-! ## Merging -/

omit [Ord σ] [Std.TransOrd σ] [Std.LawfulEqOrd σ] in
theorem mem_symbols {xs : List (Arrow × Label σ)} {a : σ} :
    a ∈ (xs.map Prod.snd).filterMap Label.symbol? ↔ ∃ x ∈ xs, x.2 = .symbol a := by
  rw [List.mem_filterMap]
  constructor
  · rintro ⟨l, hl, ha⟩
    obtain ⟨x, hx, rfl⟩ := List.mem_map.1 hl
    refine ⟨x, hx, ?_⟩
    cases hlabel : x.2 with
    | symbol b =>
      rw [hlabel] at ha
      rw [Option.some.inj ha]
    | epsilon =>
      rw [hlabel] at ha
      cases ha
  · rintro ⟨x, hx, hlabel⟩
    exact ⟨x.2, List.mem_map.2 ⟨x, hx, rfl⟩, by rw [hlabel]; rfl⟩

/-- Letters that join one after the other join all at once. -/
theorem foldl_withLetter {ls : List (Label σ)} {alphabet : List σ}
    (h : Ascending.IsAscending alphabet) :
    ls.foldl withLetter alphabet = Ascending.insertAll (ls.filterMap Label.symbol?) alphabet := by
  induction ls generalizing alphabet with
  | nil => rfl
  | cons l ls ih =>
    have hletters : (l :: ls).filterMap Label.symbol? =
        l.symbol?.toList ++ ls.filterMap Label.symbol? := by
      cases l <;> rfl
    rw [List.foldl_cons, withLetter, ih (Ascending.isAscending_insertAll h), hletters,
      Ascending.insertAll_append h]

/-- Where several labels were there is now the merged one. -/
theorem value?_unionEdges (h : g.Holds n) (p q : State) :
    C.value? (g.unionEdges c).graph (p, q) = (n.unionEdges c).labelSet? p q := by
  have hvalue : ∀ x ∈ (g.merged c).map fun x => (x.1, [x.2]),
      x.2 = [n.mergedLabel c x.1.1 x.1.2] := fun x hx => by
    obtain ⟨⟨⟨p, q⟩, l⟩, hl, rfl⟩ := List.mem_map.1 hx
    rw [(h.mem_merged.1 hl).2]
  have hmerged : (p, q) ∈ ((g.merged c).map fun x => (x.1, [x.2])).map Prod.fst ↔
      1 < (n.labelsBetween p q).length := by
    rw [List.map_map, List.mem_map]
    constructor
    · rintro ⟨⟨⟨p', q'⟩, l⟩, hl, heq⟩
      obtain ⟨rfl, rfl⟩ := Prod.mk.inj heq
      exact (h.mem_merged.1 hl).1
    · exact fun hlength => ⟨_, h.mem_merged.2 ⟨hlength, rfl⟩, rfl⟩
  refine (C.value?_putAll (f := fun a => [n.mergedLabel c a.1 a.2]) hvalue).trans ?_
  rw [h.wellFormed.labelSet?_unionEdges c, h.value?_eq]
  split
  · rename_i hmany
    obtain ⟨l, hl⟩ := List.exists_mem_of_length_pos (Nat.zero_lt_of_lt (hmerged.1 hmany))
    rw [Nfa.labelSet?_eq_some_iff.2 ⟨⟨l, Nfa.mem_labelsBetween.1 hl⟩, rfl⟩]
    rfl
  · rename_i hone
    cases hset : n.labelSet? p q with
    | none => rfl
    | some ls =>
      obtain ⟨⟨l, he⟩, rfl⟩ := Nfa.labelSet?_eq_some_iff.1 hset
      rw [Nfa.labelsBetween_eq_singleton he (mt hmerged.2 hone) c]
      rfl

/-- The letters of all merged labels are known, whether the container has merged them or they were
alone. -/
theorem alphabet_unionEdges (h : g.Holds n) :
    (g.unionEdges c).alphabet = (n.unionEdges c).alphabet := by
  have hascending := h.wellFormed.alphabet_ascending
  show ((g.merged c).map Prod.snd).foldl withLetter g.alphabet =
    Ascending.insertAll (Nfa.letters (n.unionEdges c).edges) n.alphabet
  rw [h.alphabet_eq, foldl_withLetter hascending]
  refine Ascending.eq_of_mem_iff (Ascending.isAscending_insertAll hascending)
    (Ascending.isAscending_insertAll hascending) fun a => ?_
  rw [Ascending.mem_insertAll, Ascending.mem_insertAll, Nfa.mem_letters, mem_symbols]
  constructor
  · refine Or.imp_left ?_
    rintro ⟨⟨⟨p, q⟩, l⟩, hx, rfl⟩
    obtain ⟨hlength, hl⟩ := h.mem_merged.1 hx
    obtain ⟨l', hl'⟩ := List.exists_mem_of_length_pos (Nat.zero_lt_of_lt hlength)
    exact ⟨p, q, Nfa.mem_edges_unionEdges.2 ⟨⟨l', Nfa.mem_labelsBetween.1 hl'⟩, hl⟩⟩
  · rintro (⟨p, q, he⟩ | ha)
    · obtain ⟨⟨l, hl⟩, hmerged⟩ := Nfa.mem_edges_unionEdges.1 he
      by_cases hlength : 1 < (n.labelsBetween p q).length
      · exact .inl ⟨((p, q), .symbol a), h.mem_merged.2 ⟨hlength, hmerged⟩, rfl⟩
      · -- a label that is alone stays as it is, and its letter is known
        have hone := Nfa.labelsBetween_eq_singleton hl hlength c
        rw [← hmerged] at hone
        have hold : Label.symbol a ∈ n.labelsBetween p q := hone ▸ List.mem_singleton.2 rfl
        exact .inr (h.wellFormed.letter_mem p a q (Nfa.mem_labelsBetween.1 hold))
    · exact .inr ha

theorem unionEdges (h : g.Holds n) : (g.unionEdges c).Holds (n.unionEdges c) where
  wellFormed := h.wellFormed.unionEdges c
  mem_nodes q := mem_nodes_unionEdges.trans (h.mem_nodes q)
  value?_eq := h.value?_unionEdges
  alphabet_eq := h.alphabet_unionEdges
  start_eq := h.start_eq
  final_eq := h.final_eq
  fresh_eq := h.fresh_eq

/-! ## New graphs -/

omit [Std.TransOrd σ] [Std.LawfulEqOrd σ] in
theorem value?_mapLetters {τ : Type} [Ord τ] [Std.TransOrd τ] [Std.LawfulEqOrd τ] (h : g.Holds n)
    (f : σ → τ) (p q : State) :
    C.value? (g.mapLetters f).graph (p, q) = (n.mapLetters f).labelSet? p q := by
  refine (C.value?_build (f := fun a =>
    Ascending.ofList ((n.labelsBetween a.1 a.2).map (Label.map f))) ?_).trans
    (Nfa.ite_eq_labelSet? (h.wellFormed.mapLetters f) ?_ (Ascending.isAscending_ofList _) ?_)
  · intro x hx
    obtain ⟨⟨⟨s, t⟩, ls⟩, harrow, rfl⟩ := List.mem_map.1 hx
    rw [(h.mem_arrows.1 harrow).2]
  · rw [List.map_map, List.mem_map]
    constructor
    · rintro ⟨⟨⟨s, t⟩, ls⟩, harrow, heq⟩
      obtain ⟨rfl, rfl⟩ := Prod.mk.inj heq
      obtain ⟨⟨l, he⟩, -⟩ := h.mem_arrows.1 harrow
      exact ⟨l.map f, Nfa.mem_edges_mapLetters.2 ⟨l, he, rfl⟩⟩
    · rintro ⟨l, hl⟩
      obtain ⟨l', he, -⟩ := Nfa.mem_edges_mapLetters.1 hl
      exact ⟨_, h.mem_arrows.2 ⟨⟨l', he⟩, rfl⟩, rfl⟩
  · intro _ l
    rw [Ascending.mem_ofList, List.mem_map, Nfa.mem_edges_mapLetters]
    simp only [Nfa.mem_labelsBetween, eq_comm]

omit [Std.TransOrd σ] [Std.LawfulEqOrd σ] in
theorem mapLetters {τ : Type} [Ord τ] [Std.TransOrd τ] [Std.LawfulEqOrd τ] (h : g.Holds n)
    (f : σ → τ) : (g.mapLetters f).Holds (n.mapLetters f) where
  wellFormed := h.wellFormed.mapLetters f
  mem_nodes q := by
    refine (C.mem_nodes_build fun x hx => ?_).trans (h.mem_nodes q)
    obtain ⟨y, hy, rfl⟩ := List.mem_map.1 hx
    exact C.ends_mem _ _ _ ((C.mem_arrows _ _ _).1 hy)
  value?_eq := h.value?_mapLetters f
  alphabet_eq := by
    show Ascending.ofList (g.alphabet.map f) = Ascending.ofList (n.alphabet.map f)
    rw [h.alphabet_eq]
  start_eq := h.start_eq
  final_eq := h.final_eq
  fresh_eq := h.fresh_eq

omit [Std.TransOrd σ] [Std.LawfulEqOrd σ] in
theorem countingOrder_eq (h : g.Holds n) : g.countingOrder = n.countingOrder := by
  unfold countingOrder Nfa.countingOrder
  rw [h.states_eq, h.start_eq]

theorem value?_renumber (h : g.Holds n) (p q : State) :
    C.value? g.renumber.graph (p, q) = n.renumber.labelSet? p q := by
  refine (C.value?_build (f := n.labelsByNumber) ?_).trans
    (Nfa.ite_eq_labelSet? h.wellFormed.renumber ?_
      (Nfa.labelsBetween_ascending h.wellFormed.edges_ascending _ _) ?_)
  · intro x hx
    obtain ⟨⟨⟨s, t⟩, ls⟩, harrow, rfl⟩ := List.mem_map.1 hx
    obtain ⟨⟨l, he⟩, rfl⟩ := h.mem_arrows.1 harrow
    obtain ⟨hs, ht⟩ := h.wellFormed.ends_mem_countingOrder he
    rw [h.countingOrder_eq]
    exact (Nfa.labelsByNumber_idxOf hs ht).symm
  · rw [List.map_map, List.mem_map, h.countingOrder_eq]
    constructor
    · rintro ⟨⟨⟨s, t⟩, ls⟩, harrow, heq⟩
      obtain ⟨rfl, rfl⟩ := Prod.mk.inj heq
      obtain ⟨⟨l, he⟩, -⟩ := h.mem_arrows.1 harrow
      exact ⟨l, Nfa.mem_edges_renumber.2 ⟨s, t, he, rfl, rfl⟩⟩
    · rintro ⟨l, hl⟩
      obtain ⟨s, t, he, rfl, rfl⟩ := Nfa.mem_edges_renumber.1 hl
      exact ⟨_, h.mem_arrows.2 ⟨⟨l, he⟩, rfl⟩, rfl⟩
  · rw [List.map_map, List.mem_map, h.countingOrder_eq]
    rintro ⟨⟨⟨s, t⟩, ls⟩, harrow, heq⟩ l
    obtain ⟨rfl, rfl⟩ := Prod.mk.inj heq
    obtain ⟨⟨l', he⟩, -⟩ := h.mem_arrows.1 harrow
    obtain ⟨hs, ht⟩ := h.wellFormed.ends_mem_countingOrder he
    rw [Nfa.labelsByNumber_idxOf hs ht, Nfa.mem_labelsBetween]
    exact (Nfa.mem_edges_renumber_idxOf hs ht).symm

theorem renumber (h : g.Holds n) : g.renumber.Holds n.renumber where
  wellFormed := h.wellFormed.renumber
  mem_nodes q := by
    refine (C.mem_nodes_build fun x hx => ?_).trans ?_
    · obtain ⟨⟨⟨s, t⟩, ls⟩, harrow, rfl⟩ := List.mem_map.1 hx
      obtain ⟨⟨l, he⟩, -⟩ := h.mem_arrows.1 harrow
      rw [h.countingOrder_eq]
      exact (h.wellFormed.ends_mem_countingOrder he).imp List.mem_map_of_mem List.mem_map_of_mem
    · rw [h.countingOrder_eq]
      exact h.wellFormed.mem_map_idxOf_countingOrder
  value?_eq := h.value?_renumber
  alphabet_eq := h.alphabet_eq
  start_eq := by
    show g.countingOrder.idxOf g.start = n.countingOrder.idxOf n.start
    rw [h.countingOrder_eq, h.start_eq]
  final_eq := by
    show g.countingOrder.idxOf g.final = n.countingOrder.idxOf n.final
    rw [h.countingOrder_eq, h.final_eq]
  fresh_eq := congrArg List.length h.countingOrder_eq

end NfaGraph.Holds

end Kleene
