import Kleene.Correction.Alignment
import Kleene.Proofs.Changes
import Kleene.Proofs.Elimination

/-!
# Changes of nondeterministic automata

An automaton evolves if a change leaves it well formed and takes no identifier back.  Every checked
change lets it evolve: new terminals, states and transitions, transitions along an alignment,
transitions that are removed or merged, and states that are ripped out.  A description stands for a
well-formed automaton, and counting the states anew gives one.  The labels of parallel transitions
are kept as one set, and a set that a change leaves empty is not kept.
-/

namespace Kleene

/-! ## Lists without repetitions -/

theorem eraseDups_sublist {β : Type} [BEq β] (xs : List β) : xs.eraseDups.Sublist xs := by
  match xs with
  | [] => exact List.Sublist.refl _
  | x :: xs =>
    rw [List.eraseDups_cons]
    exact ((eraseDups_sublist _).trans List.filter_sublist).cons_cons x
termination_by xs.length
decreasing_by exact Nat.lt_succ_of_le (List.length_filter_le _ _)

/-- Edges sort by their ends, and parallel ones by their labels. -/
theorem Edge.compare_eq_lt_iff {ℓ : Type} [Ord ℓ] {e f : Edge ℓ} : compare e f = .lt ↔
    e.source < f.source ∨ (e.source = f.source ∧
      (e.target < f.target ∨ (e.target = f.target ∧ compare e.label f.label = .lt))) := by
  rw [Edge.compare_def, Ordering.then_eq_lt, Ordering.then_eq_lt, Nat.compare_eq_lt,
    Nat.compare_eq_eq, Nat.compare_eq_lt, Nat.compare_eq_eq]

namespace Nfa

variable {σ : Type} {n n' m : Nfa σ} {p q r : State} {l : Label σ} {e : Edge (Label σ)}
variable {d : Parts σ}

/-! ## What the checked changes check -/

section Checks

/-- What needs a state succeeds if the state is there. -/
theorem requireState_bind_eq_ok_iff {α : Type} {x : Except Misuse α} {y : α} :
    (do n.requireState q; x) = .ok y ↔ q ∈ n.states ∧ x = .ok y := by
  unfold requireState hasState
  by_cases hq : q ∈ n.states
  · rw [if_pos (decide_eq_true hq)]
    exact (and_iff_right hq).symm
  · rw [if_neg (by simpa using hq)]
    exact iff_of_false (fun h => by cases h) fun h => hq h.1

theorem requireInner_bind_eq_ok_iff {α : Type} {x : Except Misuse α} {y : α} :
    (do n.requireInner q; x) = .ok y ↔
      (q ≠ n.start ∧ q ≠ n.final ∧ q ∈ n.states) ∧ x = .ok y := by
  unfold requireInner
  by_cases hterminal : q = n.start ∨ q = n.final
  · rw [if_pos (by simpa using hterminal)]
    exact iff_of_false (fun h => by cases h) fun h => hterminal.elim h.1.1 h.1.2.1
  · rw [if_neg (by simpa using hterminal), requireState_bind_eq_ok_iff]
    obtain ⟨hstart, hfinal⟩ := not_or.1 hterminal
    exact and_congr_left fun _ => ⟨fun hq => ⟨hstart, hfinal, hq⟩, fun h => h.2.2⟩

theorem setStart?_eq_ok_iff :
    n.setStart? q = .ok n' ↔ q ∈ n.states ∧ n' = { n with start := q } := by
  unfold setStart?
  rw [requireState_bind_eq_ok_iff]
  exact and_congr_right fun _ => ⟨fun h => by cases h; rfl, fun h => by rw [h]; rfl⟩

theorem setFinal?_eq_ok_iff :
    n.setFinal? q = .ok n' ↔ q ∈ n.states ∧ n' = { n with final := q } := by
  unfold setFinal?
  rw [requireState_bind_eq_ok_iff]
  exact and_congr_right fun _ => ⟨fun h => by cases h; rfl, fun h => by rw [h]; rfl⟩

/-- A new state is the next identifier, if one is left. -/
theorem addState?_eq_ok_iff : n.addState? = .ok (q, n') ↔
    n.fresh < stateLimit ∧ q = n.fresh ∧ n' = n.addState := by
  unfold addState? fit
  by_cases h : n.addState.fresh ≤ stateLimit
  · rw [if_pos h]
    show Except.ok (n.fresh, n.addState) = _ ↔ _
    rw [Except.ok.injEq, Prod.mk.injEq, eq_comm, eq_comm (a := n.addState)]
    exact (and_iff_right h).symm
  · rw [if_neg h]
    exact iff_of_false (fun he => by cases he) fun he => h he.1

theorem addState?_eq_error (h : ¬n.fresh < stateLimit) :
    n.addState? = .error .statesExhausted := by
  have hfull : n.addState.fit = .error .statesExhausted := if_neg h
  unfold addState?
  rw [hfull]
  rfl

variable [Ord σ]

theorem addEdge?_eq_ok_iff [DecidableEq σ] {new : Bool} : n.addEdge? e = .ok (new, n') ↔
    e.source ∈ n.states ∧ e.target ∈ n.states ∧ new = !n.hasEdge e ∧ n' = n.addEdges [e] := by
  unfold addEdge?
  rw [requireState_bind_eq_ok_iff, requireState_bind_eq_ok_iff]
  show _ ∧ _ ∧ Except.ok (!n.hasEdge e, n.addEdges [e]) = _ ↔ _
  rw [Except.ok.injEq, Prod.mk.injEq, eq_comm (b := new), eq_comm (b := n')]

theorem rip?_eq_ok_iff {c : Combiner σ} : n.rip? c q = .ok n' ↔
    (q ≠ n.start ∧ q ≠ n.final ∧ q ∈ n.states) ∧ n' = n.rip c q := by
  unfold rip?
  rw [requireInner_bind_eq_ok_iff]
  exact and_congr_right fun _ => ⟨fun h => by cases h; rfl, fun h => by rw [h]; rfl⟩

theorem safeRip?_eq_ok_some_iff : n.safeRip? q = .ok (some n') ↔
    (q ≠ n.start ∧ q ≠ n.final ∧ q ∈ n.states) ∧ n.isSafe q = true ∧
      n' = n.reroute eitherLabel q := by
  unfold safeRip?
  rw [requireInner_bind_eq_ok_iff]
  refine and_congr_right fun _ => ?_
  show Except.ok (n.safeRip q) = _ ↔ _
  unfold safeRip
  split
  · rename_i hsafe
    rw [Except.ok.injEq, Option.some.injEq, eq_comm]
    exact (and_iff_right hsafe).symm
  · rename_i hsafe
    exact iff_of_false (fun h => by cases h) fun h => hsafe h.1

end Checks

/-! ## Evolution -/

/-- What every change keeps: the automaton stays well formed and no identifier is taken back. -/
structure Evolves [Ord σ] (n n' : Nfa σ) : Prop where
  wellFormed : n'.WellFormed
  fresh_le : n.fresh ≤ n'.fresh

variable [Ord σ]

theorem WellFormed.evolves (h : n.WellFormed) : Evolves n n := ⟨h, Nat.le_refl _⟩

theorem Evolves.trans (h : Evolves n m) (h' : Evolves m n') : Evolves n n' :=
  ⟨h'.wellFormed, Nat.le_trans h.fresh_le h'.fresh_le⟩

theorem WellFormed.evolves_setStart? (h : n.WellFormed) (hset : n.setStart? q = .ok n') :
    Evolves n n' := by
  obtain ⟨hq, rfl⟩ := setStart?_eq_ok_iff.1 hset
  exact ⟨h.withTerminals hq h.final_mem, Nat.le_refl _⟩

theorem WellFormed.evolves_setFinal? (h : n.WellFormed) (hset : n.setFinal? q = .ok n') :
    Evolves n n' := by
  obtain ⟨hq, rfl⟩ := setFinal?_eq_ok_iff.1 hset
  exact ⟨h.withTerminals h.start_mem hq, Nat.le_refl _⟩

theorem WellFormed.evolves_addState? (h : n.WellFormed) (hadd : n.addState? = .ok (q, n')) :
    Evolves n n' := by
  obtain ⟨-, -, rfl⟩ := addState?_eq_ok_iff.1 hadd
  exact ⟨h.addState, Nat.le_succ _⟩

theorem WellFormed.removeEdge [DecidableEq σ] (h : n.WellFormed) (e : Edge (Label σ)) :
    (n.removeEdge e).WellFormed :=
  have hold : ∀ f ∈ (n.removeEdge e).edges, f ∈ n.edges := fun _ hf => (List.mem_filter.1 hf).1
  { h with
    source_mem := fun p l q he => h.source_mem p l q (hold _ he)
    target_mem := fun p l q he => h.target_mem p l q (hold _ he)
    edges_ascending := h.edges_ascending.filter _
    letter_mem := fun p a q he => h.letter_mem p a q (hold _ he) }

omit [Ord σ] in
theorem mem_removeState : p ∈ (n.removeState q).states ↔ p ∈ n.states ∧ p ≠ q := by
  unfold removeState
  rw [List.mem_filter, decide_eq_true_eq]

omit [Ord σ] in
theorem mem_edges_removeState : ⟨p, l, r⟩ ∈ (n.removeState q).edges ↔
    ⟨p, l, r⟩ ∈ n.edges ∧ p ≠ q ∧ r ≠ q := by
  unfold removeState
  simp only [List.mem_filter, Bool.and_eq_true, decide_eq_true_eq]

/-- A state that is not terminal can be removed. -/
theorem WellFormed.removeState (h : n.WellFormed) (hs : q ≠ n.start) (hf : q ≠ n.final) :
    (n.removeState q).WellFormed where
  start_mem := mem_removeState.2 ⟨h.start_mem, hs.symm⟩
  final_mem := mem_removeState.2 ⟨h.final_mem, hf.symm⟩
  source_mem p l r he := by
    obtain ⟨he, hp, -⟩ := mem_edges_removeState.1 he
    exact mem_removeState.2 ⟨h.source_mem _ _ _ he, hp⟩
  target_mem p l r he := by
    obtain ⟨he, -, hr⟩ := mem_edges_removeState.1 he
    exact mem_removeState.2 ⟨h.target_mem _ _ _ he, hr⟩
  states_ascending := h.states_ascending.filter _
  alphabet_ascending := h.alphabet_ascending
  edges_ascending := h.edges_ascending.filter _
  letter_mem p a r he := h.letter_mem p a r (mem_edges_removeState.1 he).1
  lt_fresh p hp := h.lt_fresh p (mem_removeState.1 hp).1

section Lawful

variable [Std.TransOrd σ] [Std.LawfulEqOrd σ]

theorem WellFormed.evolves_addEdge? [DecidableEq σ] {new : Bool} (h : n.WellFormed)
    (hadd : n.addEdge? e = .ok (new, n')) : Evolves n n' := by
  obtain ⟨hs, ht, -, rfl⟩ := addEdge?_eq_ok_iff.1 hadd
  refine ⟨h.addEdges fun p l q he => ?_, Nat.le_refl _⟩
  rw [← List.mem_singleton.1 he] at hs ht
  exact ⟨hs, ht⟩

/-- Whatever label the paths through the state get, their ends are other states. -/
theorem WellFormed.reroute (h : n.WellFormed) (hs : q ≠ n.start) (hf : q ≠ n.final)
    (label : Label σ → List σ → Label σ → Label σ) : (n.reroute label q).WellFormed := by
  refine (h.removeState hs hf).addEdges fun p l r he => ?_
  obtain ⟨⟨s, pre, t⟩, hin, he⟩ := List.mem_flatMap.1 he
  obtain ⟨⟨t', post, r'⟩, hout, heq⟩ := List.mem_map.1 he
  obtain ⟨hin, -, hp⟩ := mem_entering.1 hin
  obtain ⟨hout, -, hr⟩ := mem_leavingEdges.1 hout
  obtain ⟨rfl, -, rfl⟩ := Edge.mk.inj heq
  exact ⟨mem_removeState.2 ⟨h.source_mem _ _ _ hin, hp⟩,
    mem_removeState.2 ⟨h.target_mem _ _ _ hout, hr⟩⟩

/-! ## Transitions along an alignment -/

section Follow

variable [DecidableEq σ] {al : Alignment σ}

theorem WellFormed.evolves_follow? (h : n.WellFormed) (hfollow : n.follow? al = .ok n') :
    Evolves n n' := by
  refine of_foldlM_eq_ok (P := Evolves n) (fun m e m' hm hstep => ?_) h.evolves hfollow
  cases hadd : m.addEdge? e with
  | error misuse =>
    rw [hadd] at hstep
    cases hstep
  | ok result =>
    rw [hadd] at hstep
    cases hstep
    exact hm.trans (hm.wellFormed.evolves_addEdge? hadd)

omit [DecidableEq σ] in
/-- Adding transitions twice is adding all of them at once. -/
theorem WellFormed.addEdges_append (h : n.WellFormed) {es fs : List (Edge (Label σ))} :
    (n.addEdges es).addEdges fs = n.addEdges (es ++ fs) := by
  unfold Nfa.addEdges
  congr 1
  · rw [show letters (es ++ fs) = letters es ++ letters fs from List.filterMap_append,
      Ascending.insertAll_append h.alphabet_ascending]
  · exact Ascending.insertAll_append h.edges_ascending

omit [DecidableEq σ] in
/-- The order and the number of repetitions of the transitions that are added do not matter. -/
theorem WellFormed.addEdges_congr (h : n.WellFormed) {es fs : List (Edge (Label σ))}
    (hes : ∀ e, e ∈ es ↔ e ∈ fs) : n.addEdges es = n.addEdges fs := by
  unfold Nfa.addEdges
  congr 1
  · exact Ascending.insertAll_congr h.alphabet_ascending fun a => by simp only [mem_letters, hes]
  · exact Ascending.insertAll_congr h.edges_ascending hes

/-- Transitions between states, added one by one, make the automaton that they make at once. -/
theorem WellFormed.foldlM_addEdge?_eq_ok (h : n.WellFormed) {es : List (Edge (Label σ))}
    (hends : ∀ e ∈ es, e.source ∈ n.states ∧ e.target ∈ n.states) :
    es.foldlM (fun n e => Prod.snd <$> n.addEdge? e) n = .ok (n.addEdges es) := by
  have hnone : n.addEdges [] = n := rfl
  -- the transitions that have been added are kept apart from the rest
  suffices hsteps : ∀ done : List (Edge (Label σ)), (n.addEdges done).WellFormed →
      es.foldlM (fun n e => Prod.snd <$> n.addEdge? e) (n.addEdges done) =
        .ok (n.addEdges (done ++ es)) from hsteps [] (hnone ▸ h)
  induction es with
  | nil =>
    intro done _
    rw [List.append_nil]
    rfl
  | cons e es ih =>
    intro done hdone
    obtain ⟨he, hes⟩ := List.forall_mem_cons.1 hends
    have hadd : (n.addEdges done).addEdge? e =
        .ok (!(n.addEdges done).hasEdge e, (n.addEdges done).addEdges [e]) :=
      addEdge?_eq_ok_iff.2 ⟨he.1, he.2, rfl, rfl⟩
    have hnext := (hdone.evolves_addEdge? hadd).wellFormed
    rw [List.foldlM_cons, hadd]
    show es.foldlM _ ((n.addEdges done).addEdges [e]) = _
    rw [h.addEdges_append] at hnext ⊢
    rw [ih hes _ hnext, List.append_assoc, List.singleton_append]

end Follow

/-! ## Merged transitions -/

omit [Std.TransOrd σ] [Std.LawfulEqOrd σ] in
/-- The pairs of joined states come in order. -/
theorem WellFormed.joinedPairs_ascending (h : n.WellFormed) : n.joinedPairs.Pairwise fun s t =>
    s.1 < t.1 ∨ (s.1 = t.1 ∧ s.2 < t.2) := by
  have hsorted : (n.edges.map Edge.ends).Pairwise fun s t =>
      s = t ∨ s.1 < t.1 ∨ (s.1 = t.1 ∧ s.2 < t.2) := by
    refine List.pairwise_map.2 (h.edges_ascending.imp fun {e f} hlt => ?_)
    obtain hs | ⟨hs, ht | ⟨ht, -⟩⟩ := Edge.compare_eq_lt_iff.1 hlt
    · exact .inr (.inl hs)
    · exact .inr (.inr ⟨hs, ht⟩)
    · exact .inl (Prod.ext hs ht)
  have hdistinct := (hsorted.sublist (eraseDups_sublist _)).and (nodup_eraseDups _)
  exact hdistinct.imp fun hst => hst.1.resolve_left hst.2

theorem WellFormed.unionEdges (h : n.WellFormed) (c : Combiner σ) :
    (n.unionEdges c).WellFormed where
  toWired := wired_unionEdges h.toWired
  states_ascending := h.states_ascending
  alphabet_ascending := Ascending.isAscending_insertAll h.alphabet_ascending
  edges_ascending := List.pairwise_map.2 (h.joinedPairs_ascending.imp fun hst =>
    Edge.compare_eq_lt_iff.2 (hst.imp_right (.imp_right .inl)))
  letter_mem p _ q he := Ascending.mem_insertAll.2 (.inl (mem_letters.2 ⟨p, q, he⟩))
  lt_fresh := h.lt_fresh

theorem WellFormed.evolves_unionEdges (h : n.WellFormed) (c : Combiner σ) :
    Evolves n (n.unionEdges c) := ⟨h.unionEdges c, Nat.le_refl _⟩

/-! ## Counting anew -/

omit [Ord σ] [Std.TransOrd σ] [Std.LawfulEqOrd σ] in
theorem Wired.mem_countingOrder (h : n.Wired) : q ∈ n.countingOrder ↔ q ∈ n.states := by
  unfold countingOrder
  rw [List.mem_cons, List.mem_filter, decide_eq_true_eq]
  by_cases hq : q = n.start
  · exact iff_of_true (.inl hq) (hq ▸ h.start_mem)
  · simp [hq]

omit [Std.TransOrd σ] in
theorem mem_edges_renumber : ⟨p, l, q⟩ ∈ n.renumber.edges ↔ ∃ s t, ⟨s, l, t⟩ ∈ n.edges ∧
    p = n.countingOrder.idxOf s ∧ q = n.countingOrder.idxOf t := by
  unfold renumber
  rw [Ascending.mem_ofList, List.mem_map]
  constructor
  · rintro ⟨⟨s, l', t⟩, he, heq⟩
    obtain ⟨rfl, rfl, rfl⟩ := Edge.mk.inj heq
    exact ⟨s, t, he, rfl, rfl⟩
  · rintro ⟨s, t, he, rfl, rfl⟩
    exact ⟨_, he, rfl⟩

/-- Counting the states anew keeps an automaton well formed. -/
theorem WellFormed.renumber (h : n.WellFormed) : n.renumber.WellFormed := by
  have hnumber : ∀ q ∈ n.states, n.countingOrder.idxOf q ∈ n.renumber.states := fun q hq =>
    List.mem_range.2 (List.idxOf_lt_length_of_mem (h.mem_countingOrder.2 hq))
  constructor
  · constructor
    · exact hnumber _ h.start_mem
    · exact hnumber _ h.final_mem
    · intro p l q he
      obtain ⟨s, t, hedge, rfl, -⟩ := mem_edges_renumber.1 he
      exact hnumber _ (h.source_mem _ _ _ hedge)
    · intro p l q he
      obtain ⟨s, t, hedge, -, rfl⟩ := mem_edges_renumber.1 he
      exact hnumber _ (h.target_mem _ _ _ hedge)
  · exact Ascending.isAscending_range _
  · exact h.alphabet_ascending
  · exact Ascending.isAscending_ofList _
  · intro p a q he
    obtain ⟨s, t, hedge, -, -⟩ := mem_edges_renumber.1 he
    exact h.letter_mem _ _ _ hedge
  · exact fun q hq => List.mem_range.1 hq

/-! ## Descriptions -/

/-- There is an automaton for the description. -/
structure Parts.Valid (d : Parts σ) : Prop where
  start_mem : d.start ∈ d.states
  final_mem : d.final ∈ d.states
  lt_limit : ∀ q ∈ d.states, q < stateLimit
  ends_mem : ∀ e ∈ d.transitions, e.source ∈ d.states ∧ e.target ∈ d.states

/-- The states of a description, without its transitions. -/
def Parts.bare (d : Parts σ) : Nfa σ where
  states := Ascending.ofList d.states
  alphabet := Ascending.ofList d.alphabet
  edges := []
  start := d.start
  final := d.final
  fresh := d.states.foldl (fun m q => max m (q + 1)) 0

def Parts.automaton (d : Parts σ) : Nfa σ := d.bare.addEdges d.transitions

omit [Ord σ] [Std.TransOrd σ] [Std.LawfulEqOrd σ] in
theorem foldl_max_le_iff {states : List State} {m k : Nat} :
    states.foldl (fun m q => max m (q + 1)) m ≤ k ↔ m ≤ k ∧ ∀ q ∈ states, q < k := by
  induction states generalizing m with
  | nil => simp
  | cons p states ih =>
    rw [List.foldl_cons, ih, Nat.max_le, List.forall_mem_cons, and_assoc]
    exact Iff.rfl

omit [Ord σ] [Std.TransOrd σ] [Std.LawfulEqOrd σ] in
theorem lt_foldl_max {states : List State} (hq : q ∈ states) :
    q < states.foldl (fun m q => max m (q + 1)) 0 :=
  (foldl_max_le_iff.1 (Nat.le_refl _)).2 q hq

omit [Std.TransOrd σ] [Std.LawfulEqOrd σ] in
theorem Parts.Valid.fits (h : d.Valid) : d.automaton.fresh ≤ stateLimit :=
  foldl_max_le_iff.2 ⟨Nat.zero_le _, h.lt_limit⟩

omit [Ord σ] [Std.TransOrd σ] [Std.LawfulEqOrd σ] in
theorem unknownEnd?_eq_none_iff {states : List State} :
    unknownEnd? states e = none ↔ e.source ∈ states ∧ e.target ∈ states := by
  unfold unknownEnd?
  simp

theorem Parts.wellFormed_bare (hstart : d.start ∈ d.states) (hfinal : d.final ∈ d.states) :
    d.bare.WellFormed where
  start_mem := Ascending.mem_ofList.2 hstart
  final_mem := Ascending.mem_ofList.2 hfinal
  source_mem _ _ _ he := by cases he
  target_mem _ _ _ he := by cases he
  states_ascending := Ascending.isAscending_ofList _
  alphabet_ascending := Ascending.isAscending_ofList _
  edges_ascending := Ascending.isAscending_nil
  letter_mem _ _ _ he := by cases he
  lt_fresh _ hq := lt_foldl_max (Ascending.mem_ofList.1 hq)

theorem ofParts_eq_ok_iff : ofParts d = .ok n ↔ d.Valid ∧ n = d.automaton := by
  have halphabet : Ascending.ofList (d.alphabet ++ letters d.transitions) =
      Ascending.insertAll (letters d.transitions) (Ascending.ofList d.alphabet) :=
    (Ascending.insertAll_append Ascending.isAscending_nil).symm
  unfold ofParts
  rw [halphabet]
  by_cases hstart : d.start ∈ d.states
  · rw [if_neg (not_not.2 hstart)]
    by_cases hfinal : d.final ∈ d.states
    · rw [if_neg (not_not.2 hfinal)]
      split
      · rename_i q hq
        have hlimit : stateLimit ≤ q := by simpa using List.find?_some hq
        exact iff_of_false (fun h => by cases h) fun h =>
          Nat.not_lt.2 hlimit (h.1.lt_limit q (List.mem_of_find?_eq_some hq))
      · rename_i hlimit
        have hlimit := List.find?_eq_none.1 (Option.eq_none_iff_forall_ne_some.2 hlimit)
        split
        · rename_i q hq
          obtain ⟨e, he, hend⟩ := List.exists_of_findSome?_eq_some hq
          refine iff_of_false (fun h => by cases h) fun h => ?_
          rw [unknownEnd?_eq_none_iff.2 (h.1.ends_mem e he)] at hend
          cases hend
        · rename_i hends
          have hends := List.findSome?_eq_none_iff.1 (Option.eq_none_iff_forall_ne_some.2 hends)
          rw [Except.ok.injEq, eq_comm]
          refine (and_iff_right ⟨hstart, hfinal, fun q hq => ?_, fun e he => ?_⟩).symm
          · exact Nat.not_le.1 fun hle => hlimit q hq (decide_eq_true hle)
          · exact unknownEnd?_eq_none_iff.1 (hends e he)
    · rw [if_pos hfinal]
      exact iff_of_false (fun h => by cases h) fun h => hfinal h.1.final_mem
  · rw [if_pos hstart]
    exact iff_of_false (fun h => by cases h) fun h => hstart h.1.start_mem

/-- The automaton that a description stands for is well formed. -/
theorem wellFormed_of_ofParts (h : ofParts d = .ok n) : n.WellFormed := by
  obtain ⟨hvalid, rfl⟩ := ofParts_eq_ok_iff.1 h
  refine (Parts.wellFormed_bare hvalid.start_mem hvalid.final_mem).addEdges fun p l q he => ?_
  exact (hvalid.ends_mem _ he).imp Ascending.mem_ofList.2 Ascending.mem_ofList.2

/-! ## Labels between two states -/

/-- The labels that are kept for two states, if any transition joins them. -/
def labelSet? (n : Nfa σ) (p q : State) : Option (List (Label σ)) :=
  if (p, q) ∈ n.joinedPairs then some (n.labelsBetween p q) else none

omit [Ord σ] [Std.TransOrd σ] [Std.LawfulEqOrd σ] in
theorem labelSet?_eq_some_iff {ls : List (Label σ)} :
    n.labelSet? p q = some ls ↔ (∃ l, ⟨p, l, q⟩ ∈ n.edges) ∧ ls = n.labelsBetween p q := by
  unfold labelSet?
  rw [← mem_joinedPairs]
  split
  · rename_i hjoined
    rw [Option.some.injEq, eq_comm, and_iff_right hjoined]
  · rename_i hjoined
    exact iff_of_false (fun h => by cases h) fun h => hjoined h.1

omit [Ord σ] [Std.TransOrd σ] [Std.LawfulEqOrd σ] in
/-- No empty set of labels is kept. -/
theorem ne_nil_of_labelSet? {ls : List (Label σ)} (h : n.labelSet? p q = some ls) : ls ≠ [] := by
  obtain ⟨⟨l, he⟩, rfl⟩ := labelSet?_eq_some_iff.1 h
  exact List.ne_nil_of_mem (mem_labelsBetween.2 he)

omit [Ord σ] [Std.TransOrd σ] [Std.LawfulEqOrd σ] in
theorem labelSet?_eq : n.labelSet? p q =
    if (n.labelsBetween p q).isEmpty then none else some (n.labelsBetween p q) := by
  cases h : n.labelSet? p q with
  | some ls =>
    have hne := ne_nil_of_labelSet? h
    rw [(labelSet?_eq_some_iff.1 h).2] at hne ⊢
    simp [hne]
  | none =>
    have hnone : ∀ l, l ∉ n.labelsBetween p q := fun l hl => by
      rw [labelSet?_eq_some_iff.2 ⟨⟨l, mem_labelsBetween.1 hl⟩, rfl⟩] at h
      cases h
    rw [List.eq_nil_iff_forall_not_mem.2 hnone]
    rfl

omit [Std.TransOrd σ] [Std.LawfulEqOrd σ] in
/-- The labels of parallel transitions are a set in order. -/
theorem labelsBetween_ascending (h : Ascending.IsAscending n.edges) (p q : State) :
    Ascending.IsAscending (n.labelsBetween p q) := by
  refine List.pairwise_map.2 ((h.filter _).imp_of_mem fun {e f} he hf hlt => ?_)
  have hends : ∀ g ∈ n.edges.filter (fun g => g.source = p && g.target = q),
      g.source = p ∧ g.target = q := fun g hg => by simpa using (List.mem_filter.1 hg).2
  obtain ⟨hsource, htarget⟩ := hends e he
  obtain ⟨hsource', htarget'⟩ := hends f hf
  rw [Edge.compare_eq_lt_iff, hsource, hsource', htarget, htarget'] at hlt
  simpa using hlt

/-- A new transition joins its ends, and its label joins their set; other sets stay. -/
theorem labelSet?_addEdges (h : Ascending.IsAscending n.edges) (e : Edge (Label σ)) :
    (n.addEdges [e]).labelSet? p q =
      if e.ends = (p, q) then some (Ascending.insert e.label ((n.labelSet? p q).getD []))
      else n.labelSet? p q := by
  have hascending := labelsBetween_ascending (n := n.addEdges [e])
    (Ascending.isAscending_insertAll h) p q
  have hmem : ∀ l, l ∈ (n.addEdges [e]).labelsBetween p q ↔
      ⟨p, l, q⟩ = e ∨ l ∈ n.labelsBetween p q := fun l => by
    rw [mem_labelsBetween, mem_addEdges, List.mem_singleton, mem_labelsBetween]
  have hold := labelsBetween_ascending h p q
  split
  · rename_i hends
    obtain ⟨rfl, rfl⟩ := Prod.mk.inj hends
    have hset : (n.labelSet? e.source e.target).getD [] = n.labelsBetween e.source e.target := by
      rw [labelSet?_eq]
      cases n.labelsBetween e.source e.target <;> rfl
    rw [hset]
    refine labelSet?_eq_some_iff.2 ⟨⟨e.label, mem_addEdges.2 (.inl (List.mem_singleton.2 rfl))⟩, ?_⟩
    refine Ascending.eq_of_mem_iff (Ascending.isAscending_insert hold) hascending fun l => ?_
    rw [hmem, Ascending.mem_insert]
    refine or_congr_left ⟨fun heq => ?_, fun heq => (congrArg Edge.label heq)⟩
    rw [heq]
  · rename_i hends
    have hsame : (n.addEdges [e]).labelsBetween p q = n.labelsBetween p q := by
      refine Ascending.eq_of_mem_iff hascending hold fun l => ?_
      rw [hmem]
      exact or_iff_right fun heq => hends (heq ▸ rfl)
    rw [labelSet?_eq, labelSet?_eq, hsame]

omit [Ord σ] [Std.TransOrd σ] [Std.LawfulEqOrd σ] in
theorem labelsBetween_removeEdge [DecidableEq σ] : (n.removeEdge e).labelsBetween p q =
    (n.labelsBetween p q).filter fun l => (⟨p, l, q⟩ : Edge (Label σ)) ≠ e := by
  unfold labelsBetween removeEdge
  rw [List.filter_map, List.filter_filter, List.filter_filter]
  congr 1
  refine List.filter_congr fun f _ => ?_
  obtain ⟨s, l, t⟩ := f
  by_cases hs : s = p <;> by_cases ht : t = q
  · subst hs
    subst ht
    simp
  all_goals simp [hs, ht]

omit [Ord σ] [Std.TransOrd σ] [Std.LawfulEqOrd σ] in
/-- Where the last label is removed, no set is kept. -/
theorem labelSet?_removeEdge [DecidableEq σ] : (n.removeEdge e).labelSet? p q =
    (n.labelSet? p q).bind fun ls =>
      let rest := ls.filter fun l => (⟨p, l, q⟩ : Edge (Label σ)) ≠ e
      if rest.isEmpty then none else some rest := by
  rw [labelSet?_eq, labelSet?_eq, labelsBetween_removeEdge]
  cases n.labelsBetween p q <;> rfl

omit [Ord σ] [Std.TransOrd σ] [Std.LawfulEqOrd σ] in
/-- The labels from one state to another do not matter to others. -/
theorem labelSet?_removeEdge_of_ne [DecidableEq σ] (hne : (p, q) ≠ e.ends) :
    (n.removeEdge e).labelSet? p q = n.labelSet? p q := by
  have hall : ∀ ls : List (Label σ), (ls.filter fun l => (⟨p, l, q⟩ : Edge (Label σ)) ≠ e) = ls :=
    fun ls => List.filter_eq_self.2 fun l _ => decide_eq_true fun heq => hne (heq ▸ rfl)
  rw [labelSet?_removeEdge]
  cases hls : n.labelSet? p q with
  | none => rfl
  | some ls =>
    show (if (ls.filter _).isEmpty then none else some (ls.filter _)) = some ls
    rw [hall, if_neg (mt List.isEmpty_iff.1 (ne_nil_of_labelSet? hls))]

omit [Ord σ] [Std.TransOrd σ] [Std.LawfulEqOrd σ] in
theorem labelSet?_removeEdge_self [DecidableEq σ] :
    (n.removeEdge e).labelSet? e.source e.target = (n.labelSet? e.source e.target).bind fun ls =>
      let rest := ls.filter (· ≠ e.label)
      if rest.isEmpty then none else some rest := by
  have hlabel : ∀ l, (⟨e.source, l, e.target⟩ : Edge (Label σ)) ≠ e ↔ l ≠ e.label := fun l =>
    not_congr ⟨fun heq => congrArg Edge.label heq, fun heq => heq ▸ rfl⟩
  rw [labelSet?_removeEdge]
  simp only [hlabel]

/-- Where transitions are merged, the set becomes the one merged label. -/
theorem WellFormed.labelSet?_unionEdges (h : n.WellFormed) (c : Combiner σ) :
    (n.unionEdges c).labelSet? p q = (n.labelSet? p q).map fun _ => [n.mergedLabel c p q] := by
  have hjoined : (p, q) ∈ (n.unionEdges c).joinedPairs ↔ (p, q) ∈ n.joinedPairs := by
    simp only [mem_joinedPairs, mem_edges_unionEdges, exists_and_left, exists_eq, and_true]
  unfold labelSet?
  by_cases hpq : (p, q) ∈ n.joinedPairs
  · rw [if_pos (hjoined.2 hpq), if_pos hpq]
    refine congrArg some (Ascending.eq_of_mem_iff
      (labelsBetween_ascending (h.unionEdges c).edges_ascending p q)
      (List.pairwise_singleton _ _) fun l => ?_)
    rw [mem_labelsBetween, mem_edges_unionEdges, List.mem_singleton,
      and_iff_right (mem_joinedPairs.1 hpq)]
  · rw [if_neg (mt hjoined.1 hpq), if_neg hpq]
    rfl

end Lawful

end Nfa

end Kleene
