import Kleene.Proofs.Absorption

/-!
# Languages of the regular operations

Concatenation, union and iteration of automata accept what their names say, for all well-formed
operands, and their results are well formed.  Wherever states are fused, isolated terminals keep
a path from going back and forth between the operands.
-/

open Computability

namespace Kleene.Nfa

variable {σ : Type} {a b n : Nfa σ} {p q : State} {u v w : List σ}

/-! ## In a row -/

section Chain

theorem lookup_chain : [(b.start, a.final)].lookup q = some p ↔ q = b.start ∧ p = a.final := by
  rw [List.lookup_singleton]
  by_cases h : q = b.start
  · simp [h, eq_comm]
  · simp [h]

theorem place_start_chain : place a b [(b.start, a.final)] b.start = a.final :=
  place_of_lookup (lookup_chain.2 ⟨rfl, rfl⟩)

variable [Ord σ]

theorem WellFormed.seam_chain (ha : a.WellFormed) : Seam a [(b.start, a.final)] where
  mem_states _ _ h := (lookup_chain.1 h).2 ▸ ha.final_mem
  injective _ _ _ hq hr := (lookup_chain.1 hq).1.trans (lookup_chain.1 hr).1.symm

-- Only the start state of `b` is placed on a state of `a`, the final one.
theorem WellFormed.eq_start_of_place_mem_chain (ha : a.WellFormed)
    (h : place a b [(b.start, a.final)] q ∈ a.states) : q = b.start :=
  (lookup_chain.1 (ha.exists_lookup_of_place_mem h)).1

variable [Std.LawfulEqOrd σ]

theorem wellFormed_chain [Std.TransOrd σ] (ha : a.WellFormed) (hb : b.WellFormed) :
    (chain a b).WellFormed :=
  (ha.absorb hb ha.seam_chain).withTerminals (mem_absorb_of_mem ha.start_mem)
    (place_mem_absorb ha.seam_chain hb.final_mem)

-- From the copy of a state of `b` on, a path to the end is a copy of a path of `b`.
theorem WellFormed.spells_of_chain_place (ha : a.WellFormed) (hb : b.WellFormed)
    (hai : a.Isolated) (hq : q ∈ b.states)
    (hw : (chain a b).Spells (place a b [(b.start, a.final)] q) (chain a b).final w) :
    b.Spells q b.final w := by
  refine hw.backward (R := fun p w => ∀ q ∈ b.states, p = place a b [(b.start, a.final)] q →
    b.Spells q b.final w) ?_ ?_ q hq rfl
  · intro q hq h
    have h : b.final = q := ha.place_injective ha.seam_chain hb.final_mem h
    exact h ▸ .nil _
  · intro p l r he u hu v _ ih q hq hp
    rcases mem_edges_absorb.1 he with hedge | ⟨s, t, hedge, hs, ht⟩
    · -- a transition of `a` would have to leave its final state
      have hmem : place a b [(b.start, a.final)] q ∈ a.states := hp ▸ ha.source_mem _ _ _ hedge
      rw [hp, ha.eq_start_of_place_mem_chain hmem, place_start_chain] at hedge
      exact absurd hedge (hai.not_out_of_final _ _)
    · have h : q = s := ha.place_injective ha.seam_chain hq (hp.symm.trans hs)
      exact .cons (h ▸ hedge) hu (ih t (hb.target_mem _ _ _ hedge) ht)

-- From a state of `a` on, a path to the end goes on in `a` and then through `b`.
theorem WellFormed.spells_of_chain (ha : a.WellFormed) (hb : b.WellFormed) (hai : a.Isolated)
    (hbi : b.Isolated) (hp : p ∈ a.states) (hw : (chain a b).Spells p (chain a b).final w) :
    ∃ u v, w = u ++ v ∧ a.Spells p a.final u ∧ v ∈ b.language := by
  refine hw.backward (R := fun p w => p ∈ a.states →
    ∃ u v, w = u ++ v ∧ a.Spells p a.final u ∧ v ∈ b.language) ?_ ?_ hp
  · intro hmem
    exact absurd (ha.eq_start_of_place_mem_chain hmem).symm hbi.start_ne_final
  · intro p l r he u hu v hv ih hp
    rcases mem_edges_absorb.1 he with hedge | ⟨s, t, hedge, hs, -⟩
    · rcases ih (ha.target_mem _ _ _ hedge) with ⟨x, y, rfl, hx, hy⟩
      exact ⟨u ++ x, y, (List.append_assoc u x y).symm, .cons hedge hu hx, hy⟩
    · -- the copy of `b` is entered in its start state
      have hstart : s = b.start := ha.eq_start_of_place_mem_chain (hs ▸ hp)
      have hpath : (chain a b).Spells (place a b [(b.start, a.final)] s) (chain a b).final
          (u ++ v) := hs ▸ .cons he hu hv
      rw [hstart] at hpath
      have hword := ha.spells_of_chain_place hb hai hb.start_mem hpath
      have hfinal : p = a.final := by rw [hs, hstart, place_start_chain]
      exact ⟨[], u ++ v, rfl, hfinal ▸ .nil _, hword⟩

-- Isolated automata in a row accept the words of one followed by words of the other.
theorem WellFormed.language_chain (ha : a.WellFormed) (hb : b.WellFormed) (hai : a.Isolated)
    (hbi : b.Isolated) : (chain a b).language = a.language * b.language := by
  ext w
  rw [mem_language_iff, Language.mem_mul]
  refine ⟨fun hw => ?_, fun hw => ?_⟩
  · rcases ha.spells_of_chain hb hai hbi ha.start_mem hw with ⟨u, v, rfl, hu, hv⟩
    exact ⟨u, hu, v, hv, rfl⟩
  · rcases hw with ⟨u, hu, v, hv, rfl⟩
    have hfirst : (chain a b).Spells a.start a.final u := Spells.absorb hu
    have hsecond : (chain a b).Spells (place a b [(b.start, a.final)] b.start)
        (place a b [(b.start, a.final)] b.final) v := Spells.place hv
    rw [place_start_chain] at hsecond
    exact hfirst.append hsecond

end Chain

/-! ## Side by side -/

section Join

-- Where the terminals of `b` go when it is put beside `a`.
theorem lookup_join (hb : b.start ≠ b.final) :
    [(b.start, a.start), (b.final, a.final)].lookup q = some p ↔
      (q = b.start ∧ p = a.start) ∨ (q = b.final ∧ p = a.final) := by
  rw [List.lookup_cons, List.lookup_singleton]
  by_cases hs : q = b.start
  · subst hs
    simp [hb, eq_comm]
  · rw [beq_false_of_ne hs]
    by_cases hf : q = b.final
    · simp [hf, hb.symm, eq_comm]
    · simp [hs, hf]

theorem place_start_join (hb : b.Isolated) :
    place a b [(b.start, a.start), (b.final, a.final)] b.start = a.start :=
  place_of_lookup ((lookup_join hb.start_ne_final).2 (.inl ⟨rfl, rfl⟩))

theorem place_final_join (hb : b.Isolated) :
    place a b [(b.start, a.start), (b.final, a.final)] b.final = a.final :=
  place_of_lookup ((lookup_join hb.start_ne_final).2 (.inr ⟨rfl, rfl⟩))

variable [Ord σ]

theorem WellFormed.seam_join (ha : a.WellFormed) (hai : a.Isolated) (hbi : b.Isolated) :
    Seam a [(b.start, a.start), (b.final, a.final)] := by
  refine ⟨fun q p h => ?_, fun q r p hq hr => ?_⟩
  · rcases (lookup_join hbi.start_ne_final).1 h with ⟨-, rfl⟩ | ⟨-, rfl⟩
    · exact ha.start_mem
    · exact ha.final_mem
  · rcases (lookup_join hbi.start_ne_final).1 hq with ⟨rfl, rfl⟩ | ⟨rfl, rfl⟩ <;>
      rcases (lookup_join hbi.start_ne_final).1 hr with ⟨rfl, h⟩ | ⟨rfl, h⟩
    · rfl
    · exact absurd h hai.start_ne_final
    · exact absurd h.symm hai.start_ne_final
    · rfl

-- Only the terminals of `b` are placed on states of `a`, on its terminals.
theorem WellFormed.terminal_of_place_mem_join (ha : a.WellFormed) (hbi : b.Isolated)
    (h : place a b [(b.start, a.start), (b.final, a.final)] q ∈ a.states) :
    q = b.start ∨ q = b.final :=
  ((lookup_join hbi.start_ne_final).1 (ha.exists_lookup_of_place_mem h)).imp And.left And.left

variable [Std.LawfulEqOrd σ]

theorem wellFormed_join [Std.TransOrd σ] (ha : a.WellFormed) (hb : b.WellFormed)
    (hai : a.Isolated) (hbi : b.Isolated) : (join a b).WellFormed :=
  ha.absorb hb (ha.seam_join hai hbi)

-- From a state of `b` behind the start on, a path to the end is a copy of a path of `b`.
theorem WellFormed.spells_of_join_place (ha : a.WellFormed) (hb : b.WellFormed)
    (hai : a.Isolated) (hbi : b.Isolated) (hq : q ∈ b.states) (hne : q ≠ b.start)
    (hw : (join a b).Spells (place a b [(b.start, a.start), (b.final, a.final)] q) a.final w) :
    b.Spells q b.final w := by
  have hinj := fun {q r : State} => ha.place_injective (b := b) (r := r) (q := q)
    (ha.seam_join hai hbi)
  refine hw.backward (R := fun p w => ∀ q ∈ b.states, q ≠ b.start →
    p = place a b [(b.start, a.start), (b.final, a.final)] q → b.Spells q b.final w)
    ?_ ?_ q hq hne rfl
  · intro q hq _ h
    exact hinj hb.final_mem ((place_final_join hbi).trans h) ▸ .nil _
  · intro p l r he u hu v _ ih q hq hne hp
    rcases mem_edges_absorb.1 he with hedge | ⟨s, t, hedge, hs, ht⟩
    · -- a transition of `a` would have to leave its final state
      have hmem : place a b [(b.start, a.start), (b.final, a.final)] q ∈ a.states :=
        hp ▸ ha.source_mem _ _ _ hedge
      have hfinal : q = b.final := (ha.terminal_of_place_mem_join hbi hmem).resolve_left hne
      rw [hp, hfinal, place_final_join hbi] at hedge
      exact absurd hedge (hai.not_out_of_final _ _)
    · have h : q = s := hinj hq (hp.symm.trans hs)
      have hts : t ≠ b.start := fun h => hbi.not_into_start _ _ (h ▸ hedge)
      exact .cons (h ▸ hedge) hu (ih t (hb.target_mem _ _ _ hedge) hts ht)

-- From a state of `a` behind the start on, a path to the end is a path of `a`.
theorem WellFormed.spells_of_join (ha : a.WellFormed) (hai : a.Isolated) (hbi : b.Isolated)
    (hp : p ∈ a.states) (hne : p ≠ a.start) (hw : (join a b).Spells p a.final w) :
    a.Spells p a.final w := by
  refine hw.backward (R := fun p w => p ∈ a.states → p ≠ a.start → a.Spells p a.final w)
    (fun _ _ => .nil _) ?_ hp hne
  intro p l r he u hu v _ ih hp hne
  rcases mem_edges_absorb.1 he with hedge | ⟨s, t, hedge, hs, -⟩
  · have hr : r ≠ a.start := fun h => hai.not_into_start _ _ (h ▸ hedge)
    exact .cons hedge hu (ih (ha.target_mem _ _ _ hedge) hr)
  · -- a transition of `b` would have to leave its final state
    rcases ha.terminal_of_place_mem_join hbi (hs ▸ hp) with h | h
    · exact absurd (by rw [hs, h, place_start_join hbi]) hne
    · exact absurd (h ▸ hedge) (hbi.not_out_of_final _ _)

-- Isolated automata side by side accept the words of both.
theorem WellFormed.language_join (ha : a.WellFormed) (hb : b.WellFormed) (hai : a.Isolated)
    (hbi : b.Isolated) : (join a b).language = a.language + b.language := by
  ext w
  rw [Language.mem_add, mem_language_iff, mem_language_iff, mem_language_iff]
  refine ⟨fun hw => ?_, fun hw => ?_⟩
  · -- the first transition decides which of the two the path belongs to
    rcases hw.eq_or_exists_edge with ⟨h, -⟩ | ⟨l, r, u, v, he, hu, rfl, hv⟩
    · exact absurd h hai.start_ne_final
    · rcases mem_edges_absorb.1 he with hedge | ⟨s, t, hedge, hs, ht⟩
      · have hr : r ≠ a.start := fun h => hai.not_into_start _ _ (h ▸ hedge)
        have hrest := ha.spells_of_join hai hbi (ha.target_mem _ _ _ hedge) hr hv
        exact .inl (.cons hedge hu hrest)
      · have hts : t ≠ b.start := fun h => hbi.not_into_start _ _ (h ▸ hedge)
        have hrest := ha.spells_of_join_place hb hai hbi (hb.target_mem _ _ _ hedge) hts
          (ht ▸ hv)
        have hsb : b.start = s := ha.place_injective (ha.seam_join hai hbi) hb.start_mem
          ((place_start_join hbi).trans hs)
        exact .inr (.cons (hsb ▸ hedge) hu hrest)
  · rcases hw with hw | hw
    · exact Spells.absorb hw
    · have h : (join a b).Spells (place a b [(b.start, a.start), (b.final, a.final)] b.start)
          (place a b [(b.start, a.start), (b.final, a.final)] b.final) w := Spells.place hw
      rwa [place_start_join hbi, place_final_join hbi] at h

end Join

/-! ## Iteration -/

section Loop

variable [Ord σ] [Std.LawfulEqOrd σ] {bypass : List (Edge (Label σ))}

theorem mem_edges_loop {e : Edge (Label σ)} : e ∈ (n.loop bypass).edges ↔
    e = epsilonEdge n.fresh n.start ∨ e = epsilonEdge n.final n.start ∨
      e = epsilonEdge n.final (n.fresh + 1) ∨ e ∈ bypass ∨ e ∈ n.edges := by
  unfold loop
  rw [mem_addEdges, List.mem_append]
  simp only [List.mem_cons, List.not_mem_nil, or_false, or_assoc]
  rfl

omit [Std.LawfulEqOrd σ] in
theorem WellFormed.succ_fresh_notMem (h : n.WellFormed) : n.fresh + 1 ∉ n.states := fun hmem =>
  Nat.lt_irrefl _ (Nat.lt_of_succ_lt (h.lt_fresh _ hmem))

theorem wellFormed_loop [Std.TransOrd σ] (h : n.WellFormed)
    (hb : ∀ e ∈ bypass, e = epsilonEdge n.fresh (n.fresh + 1)) : (n.loop bypass).WellFormed := by
  have hstart : n.fresh ∈ n.addState.addState.states :=
    mem_addState.2 (.inr (mem_addState.2 (.inl rfl)))
  have hfinal : n.fresh + 1 ∈ n.addState.addState.states := mem_addState.2 (.inl rfl)
  have hold : ∀ q ∈ n.states, q ∈ n.addState.addState.states := fun q hq =>
    mem_addState.2 (.inr (mem_addState.2 (.inr hq)))
  refine (h.addState.addState.addEdges ?_).withTerminals hstart hfinal
  intro p l q he
  simp only [List.mem_append, List.mem_cons, List.not_mem_nil, or_false, or_assoc] at he
  rcases he with he | he | he | he
  · rcases Edge.mk.inj he with ⟨rfl, -, rfl⟩
    exact ⟨hstart, hold _ h.start_mem⟩
  · rcases Edge.mk.inj he with ⟨rfl, -, rfl⟩
    exact ⟨hold _ h.final_mem, hold _ h.start_mem⟩
  · rcases Edge.mk.inj he with ⟨rfl, -, rfl⟩
    exact ⟨hold _ h.final_mem, hfinal⟩
  · rcases Edge.mk.inj (hb _ he) with ⟨rfl, -, rfl⟩
    exact ⟨hstart, hfinal⟩

-- Nothing leaves the new final state.
theorem WellFormed.not_out_of_loop (h : n.WellFormed)
    (hb : ∀ e ∈ bypass, e = epsilonEdge n.fresh (n.fresh + 1)) (l : Label σ) (q : State) :
    ⟨n.fresh + 1, l, q⟩ ∉ (n.loop bypass).edges := by
  have hne : n.fresh + 1 ≠ n.fresh := Nat.succ_ne_self _
  have hfinal : n.fresh + 1 ≠ n.final := fun he => h.succ_fresh_notMem (he ▸ h.final_mem)
  intro he
  rcases mem_edges_loop.1 he with he | he | he | he | he
  · exact hne (Edge.mk.inj he).1
  · exact hfinal (Edge.mk.inj he).1
  · exact hfinal (Edge.mk.inj he).1
  · exact hne (Edge.mk.inj (hb _ he)).1
  · exact h.succ_fresh_notMem (h.source_mem _ _ _ he)

-- From an old state on, a path to the end is a path to the old final state and then goes round
-- any number of times.
theorem WellFormed.spells_of_loop (h : n.WellFormed)
    (hb : ∀ e ∈ bypass, e = epsilonEdge n.fresh (n.fresh + 1)) (hp : p ∈ n.states)
    (hw : (n.loop bypass).Spells p (n.fresh + 1) w) :
    ∃ u v, w = u ++ v ∧ n.Spells p n.final u ∧ v ∈ n.language∗ := by
  refine hw.backward (R := fun p w => p ∈ n.states →
    ∃ u v, w = u ++ v ∧ n.Spells p n.final u ∧ v ∈ n.language∗)
    (fun hmem => absurd hmem h.succ_fresh_notMem) ?_ hp
  intro p l r he u hu v hv ih hp
  rcases mem_edges_loop.1 he with he | he | he | he | he
  · exact absurd ((Edge.mk.inj he).1 ▸ hp) h.fresh_notMem
  · -- the way back to the old start state ends a round
    rcases Edge.mk.inj he with ⟨rfl, rfl, rfl⟩
    rw [Label.mem_language_epsilon] at hu
    subst hu
    rcases ih h.start_mem with ⟨x, y, rfl, hx, S, rfl, hS⟩
    exact ⟨[], _, rfl, .nil _, x :: S, rfl, List.forall_mem_cons.2 ⟨hx, hS⟩⟩
  · -- the way to the new final state ends the path
    rcases Edge.mk.inj he with ⟨rfl, rfl, rfl⟩
    rw [Label.mem_language_epsilon] at hu
    rcases hv.eq_of_no_edges (h.not_out_of_loop hb) with ⟨-, rfl⟩
    exact ⟨[], [], by rw [hu], .nil _, Language.nil_mem_kstar _⟩
  · exact absurd ((Edge.mk.inj (hb _ he)).1 ▸ hp) h.fresh_notMem
  · rcases ih (h.target_mem _ _ _ he) with ⟨x, y, rfl, hx, hy⟩
    exact ⟨u ++ x, y, (List.append_assoc u x y).symm, .cons he hu hx, hy⟩

-- Any number of rounds lead from the old final state to the new one.
theorem spells_loop_of_forall_mem {S : List (List σ)} (hS : ∀ y ∈ S, y ∈ n.language) :
    (n.loop bypass).Spells n.final (n.fresh + 1) S.flatten := by
  induction S with
  | nil => exact .of_epsilon (mem_edges_loop.2 (.inr (.inr (.inl rfl))))
  | cons y S ih =>
    rcases List.forall_mem_cons.1 hS with ⟨hy, hS⟩
    have hback : (n.loop bypass).Spells n.final n.start [] :=
      .of_epsilon (mem_edges_loop.2 (.inr (.inl rfl)))
    have hround : (n.loop bypass).Spells n.start n.final y :=
      hy.mono fun e he => mem_edges_loop.2 (.inr (.inr (.inr (.inr he))))
    exact hback.append (hround.append (ih hS))

-- Going round accepts one or more words in a row, and the empty word if there is a bypass.
theorem WellFormed.language_loop (h : n.WellFormed)
    (hb : ∀ e ∈ bypass, e = epsilonEdge n.fresh (n.fresh + 1)) :
    (n.loop bypass).language =
      (if bypass.isEmpty then 0 else 1) + n.language * n.language∗ := by
  ext w
  rw [Language.mem_add, Language.mem_mul, mem_language_iff]
  have hne : n.fresh ≠ n.fresh + 1 := (Nat.succ_ne_self _).symm
  refine ⟨fun hw => ?_, fun hw => ?_⟩
  · rcases hw.eq_or_exists_edge with ⟨heq, -⟩ | ⟨l, r, u, v, he, hu, rfl, hv⟩
    · exact absurd heq hne
    · rcases mem_edges_loop.1 he with he | he | he | he | he
      · rcases Edge.mk.inj he with ⟨-, rfl, rfl⟩
        rw [Label.mem_language_epsilon] at hu
        subst hu
        rcases h.spells_of_loop hb h.start_mem hv with ⟨x, y, rfl, hx, hy⟩
        exact .inr ⟨x, hx, y, hy, rfl⟩
      · have hfinal : n.fresh = n.final := (Edge.mk.inj he).1
        exact absurd (hfinal ▸ h.final_mem) h.fresh_notMem
      · have hfinal : n.fresh = n.final := (Edge.mk.inj he).1
        exact absurd (hfinal ▸ h.final_mem) h.fresh_notMem
      · -- the bypass leads straight to the end
        rcases Edge.mk.inj (hb _ he) with ⟨-, rfl, rfl⟩
        rw [Label.mem_language_epsilon] at hu
        rcases hv.eq_of_no_edges (h.not_out_of_loop hb) with ⟨-, rfl⟩
        rw [if_neg (by rw [List.isEmpty_iff]; exact List.ne_nil_of_mem he), hu]
        exact .inl rfl
      · exact absurd (h.source_mem _ _ _ he) h.fresh_notMem
  · rcases hw with hw | ⟨x, hx, y, ⟨S, rfl, hS⟩, rfl⟩
    · cases bypass with
      | nil => exact absurd hw (Language.notMem_zero w)
      | cons e bypass =>
        have hw : w = [] := hw
        rw [hw]
        refine .of_epsilon (mem_edges_loop.2 (.inr (.inr (.inr (.inl ?_)))))
        exact hb e List.mem_cons_self ▸ List.mem_cons_self
    · have hin : (n.loop bypass).Spells n.fresh n.start [] :=
        .of_epsilon (mem_edges_loop.2 (.inl rfl))
      have hround : (n.loop bypass).Spells n.start n.final x :=
        hx.mono fun e he => mem_edges_loop.2 (.inr (.inr (.inr (.inr he))))
      exact hin.append (hround.append (spells_loop_of_forall_mem hS))

end Loop

/-! ## The operations -/

section Operations

variable [Ord σ] [Std.TransOrd σ] [Std.LawfulEqOrd σ]

omit [Std.TransOrd σ] [Std.LawfulEqOrd σ] in
theorem wellFormed_literal (c : σ) : (literal c).WellFormed where
  start_mem := by simp [literal]
  final_mem := by simp [literal]
  source_mem p l q he := by simp_all [literal]
  target_mem p l q he := by simp_all [literal]
  states_ascending := by simp [literal, Ascending.isAscending_nat_iff]
  alphabet_ascending := List.pairwise_singleton _ _
  edges_ascending := List.pairwise_singleton _ _
  letter_mem p a q he := by simp_all [literal]
  lt_fresh q hq := by
    have hq : q = 0 ∨ q = 1 := by simpa [literal] using hq
    rcases hq with rfl | rfl
    · exact Nat.zero_lt_two
    · exact Nat.one_lt_two

omit [Ord σ] [Std.TransOrd σ] [Std.LawfulEqOrd σ] in
theorem language_literal (c : σ) : (literal c).language = {[c]} := by
  ext w
  rw [mem_language_iff]
  have hedge : ∀ p l q, ⟨p, l, q⟩ ∈ (literal c).edges ↔ p = 0 ∧ l = .symbol c ∧ q = 1 := by
    simp [literal]
  refine ⟨fun hw => ?_, fun hw => ?_⟩
  · rcases hw.eq_or_exists_edge with ⟨h, -⟩ | ⟨l, r, u, v, he, hu, rfl, hv⟩
    · exact absurd h Nat.zero_ne_one
    · rcases (hedge _ _ _).1 he with ⟨-, rfl, rfl⟩
      rcases hv.eq_of_no_edges (by simp [hedge]) with ⟨-, rfl⟩
      rw [Label.mem_language_symbol] at hu
      rw [hu]
      rfl
  · have hw : w = [c] := hw
    exact hw ▸ .of_symbol ((hedge _ _ _).2 ⟨rfl, rfl, rfl⟩)

theorem wellFormed_emptyWord (alphabet : List σ) : (emptyWord alphabet).WellFormed :=
  wellFormed_ofCount Nat.one_pos Nat.one_pos

omit [Std.TransOrd σ] [Std.LawfulEqOrd σ] in
theorem language_emptyWord (alphabet : List σ) : (emptyWord alphabet).language = 1 := by
  ext w
  rw [mem_language_iff]
  refine ⟨fun hw => ?_, fun hw => ?_⟩
  · exact (hw.eq_of_no_edges (by simp [emptyWord, ofCount])).2
  · have hw : w = [] := hw
    exact hw ▸ .nil _

theorem wellFormed_concat (ha : a.WellFormed) (hb : b.WellFormed) : (concat a b).WellFormed :=
  wellFormed_chain ha.isolate hb.isolate

/-- Concatenation accepts the words of one automaton followed by words of the other. -/
theorem language_concat (ha : a.WellFormed) (hb : b.WellFormed) :
    (concat a b).language = a.language * b.language := by
  rw [concat, ha.isolate.language_chain hb.isolate ha.isolated_isolate hb.isolated_isolate,
    ha.language_isolate, hb.language_isolate]

theorem wellFormed_union (ha : a.WellFormed) (hb : b.WellFormed) : (union a b).WellFormed :=
  wellFormed_join ha.isolate hb.isolate ha.isolated_isolate hb.isolated_isolate

/-- Union accepts the words of both automata. -/
theorem language_union (ha : a.WellFormed) (hb : b.WellFormed) :
    (union a b).language = a.language + b.language := by
  rw [union, ha.isolate.language_join hb.isolate ha.isolated_isolate hb.isolated_isolate,
    ha.language_isolate, hb.language_isolate]

theorem wellFormed_plus (h : n.WellFormed) : n.plus.WellFormed := wellFormed_loop h (by simp)

omit [Std.TransOrd σ] in
theorem language_plus (h : n.WellFormed) : n.plus.language = n.language * n.language∗ := by
  rw [plus, h.language_loop (by simp)]
  exact zero_add _

theorem wellFormed_star (h : n.WellFormed) : n.star.WellFormed := wellFormed_loop h (by simp)

omit [Std.TransOrd σ] in
theorem language_star (h : n.WellFormed) : n.star.language = n.language∗ := by
  rw [star, h.language_loop (by simp)]
  exact Language.one_add_self_mul_kstar_eq_kstar _

theorem wellFormed_opt (h : n.WellFormed) : n.opt.WellFormed := by
  refine h.isolate.addEdges fun p l q he => ?_
  rcases Edge.mk.inj (List.mem_singleton.1 he) with ⟨rfl, -, rfl⟩
  exact ⟨h.isolate.start_mem, h.isolate.final_mem⟩

/-- An isolated automaton with a way past it accepts its words and the empty one. -/
theorem language_opt (h : n.WellFormed) : n.opt.language = 1 + n.language := by
  rw [← h.language_isolate]
  have hi := h.isolated_isolate
  have hedge : ∀ e, e ∈ n.opt.edges ↔
      e = epsilonEdge n.isolate.start n.isolate.final ∨ e ∈ n.isolate.edges := fun e => by
    unfold opt
    rw [mem_addEdges, List.mem_singleton]
  -- behind the start state the way past is out of reach
  have hbehind : ∀ p w, n.opt.Spells p n.isolate.final w → p ≠ n.isolate.start →
      n.isolate.Spells p n.isolate.final w := fun p w hw => by
    refine hw.backward (R := fun p w => p ≠ n.isolate.start → n.isolate.Spells p n.isolate.final w)
      (fun _ => .nil _) ?_
    intro p l r he u hu v _ ih hp
    rcases (hedge _).1 he with he | he
    · exact absurd (Edge.mk.inj he).1 hp
    · exact .cons he hu (ih fun hr => hi.not_into_start _ _ (hr ▸ he))
  ext w
  rw [Language.mem_add, Language.mem_one, mem_language_iff, mem_language_iff]
  refine ⟨fun hw => ?_, fun hw => ?_⟩
  · rcases hw.eq_or_exists_edge with ⟨heq, -⟩ | ⟨l, r, u, v, he, hu, rfl, hv⟩
    · exact absurd heq hi.start_ne_final
    · rcases (hedge _).1 he with he | he
      · rcases Edge.mk.inj he with ⟨-, rfl, rfl⟩
        rw [Label.mem_language_epsilon] at hu
        rcases (hbehind _ _ hv hi.start_ne_final.symm).eq_of_no_edges hi.not_out_of_final
          with ⟨-, rfl⟩
        exact .inl (by rw [hu]; rfl)
      · have hr : r ≠ n.isolate.start := fun hr => hi.not_into_start _ _ (hr ▸ he)
        exact .inr (.cons he hu (hbehind _ _ hv hr))
  · rcases hw with rfl | hw
    · exact .of_epsilon ((hedge _).2 (.inl rfl))
    · exact hw.mono fun e he => (hedge e).2 (.inr he)

end Operations

end Kleene.Nfa
