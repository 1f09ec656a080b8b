import Kleene.Proofs.NfaChanges

/-!
# Safe rips

In safe mode a state is ripped out only if no path through it carries several letters.  Otherwise
the automaton stays as it is.  When the state goes, each path through it had one letter at most,
and the transition in its place carries that letter, so that no accepted word is lost or won.
-/

open Computability

namespace Kleene.Nfa

variable {σ : Type} {n : Nfa σ} {q : State}

/-- Some path through `q` carries several letters: `q` has a loop on a letter, or letters stand both
on a way in from another state and on a way out to another state. -/
def JoinsLetters (n : Nfa σ) (q : State) : Prop :=
  (∃ a, ⟨q, .symbol a, q⟩ ∈ n.edges) ∨
    (∃ p a, p ≠ q ∧ ⟨p, .symbol a, q⟩ ∈ n.edges) ∧ ∃ b r, r ≠ q ∧ ⟨q, .symbol b, r⟩ ∈ n.edges

/-! ## Refusal -/

theorem isEmpty_loopLetters_iff :
    (n.loopLetters q).isEmpty = true ↔ ¬∃ a, ⟨q, .symbol a, q⟩ ∈ n.edges := by
  rw [List.isEmpty_iff, List.eq_nil_iff_forall_not_mem, not_exists]
  exact forall_congr' fun a => not_congr mem_loopLetters

theorem all_entering_iff : (n.entering q).all (·.label.isEpsilon) = true ↔
    ¬∃ p a, p ≠ q ∧ ⟨p, .symbol a, q⟩ ∈ n.edges := by
  rw [List.all_eq_true]
  constructor
  · rintro hall ⟨p, a, hp, he⟩
    cases hall _ (mem_entering.2 ⟨he, rfl, hp⟩)
  · rintro hnone ⟨p, l, r⟩ he
    obtain ⟨he, rfl, hp⟩ := mem_entering.1 he
    cases l with
    | epsilon => rfl
    | symbol a => exact absurd ⟨p, a, hp, he⟩ hnone

theorem all_leavingEdges_iff : (n.leavingEdges q).all (·.label.isEpsilon) = true ↔
    ¬∃ b r, r ≠ q ∧ ⟨q, .symbol b, r⟩ ∈ n.edges := by
  rw [List.all_eq_true]
  constructor
  · rintro hall ⟨b, r, hr, he⟩
    cases hall _ (mem_leavingEdges.2 ⟨he, rfl, hr⟩)
  · rintro hnone ⟨p, l, r⟩ he
    obtain ⟨he, rfl, hr⟩ := mem_leavingEdges.1 he
    cases l with
    | epsilon => rfl
    | symbol b => exact absurd ⟨b, r, hr, he⟩ hnone

theorem isSafe_eq_true_iff : n.isSafe q = true ↔ ¬n.JoinsLetters q := by
  unfold isSafe JoinsLetters
  rw [Bool.and_eq_true, Bool.or_eq_true, isEmpty_loopLetters_iff, all_entering_iff,
    all_leavingEdges_iff, not_or, not_and_or]

/-- The refusal that is computed label by label is that of the safety test. -/
theorem refuses_eq (n : Nfa σ) (q : State) :
    (!(n.loopLetters q).isEmpty || ((n.entering q).any (!·.label.isEpsilon) &&
      (n.leavingEdges q).any (!·.label.isEpsilon))) = !n.isSafe q := by
  unfold isSafe
  rw [Bool.not_and, Bool.not_or, List.not_all_eq_any_not, List.not_all_eq_any_not]

section Attempt

variable [Ord σ] [Std.TransOrd σ] [Std.LawfulEqOrd σ] [DecidableEq σ]

/-- Nothing goes wrong while a state is ripped out: the new transitions lead from states to states
that are still there. -/
theorem WellFormed.attemptRip?_eq_ok (h : n.WellFormed) (hq : q ∈ n.states) (hs : q ≠ n.start)
    (hf : q ≠ n.final) (c : Combiner σ) (safe : Bool) : n.attemptRip? c safe q =
      .ok (if safe && !n.isSafe q then (false, n)
        else (true, n.reroute (if safe then eitherLabel else c.path) q)) := by
  have hends : ∀ label, ∀ e ∈ n.rerouted label q,
      e.source ∈ (n.removeState q).states ∧ e.target ∈ (n.removeState q).states := by
    intro label e he
    obtain ⟨⟨s, pre, t⟩, hin, he⟩ := List.mem_flatMap.1 he
    obtain ⟨⟨t', post, r⟩, hout, rfl⟩ := List.mem_map.1 he
    obtain ⟨hin, -, hs⟩ := mem_entering.1 hin
    obtain ⟨hout, -, hr⟩ := mem_leavingEdges.1 hout
    exact ⟨mem_removeState.2 ⟨h.source_mem _ _ _ hin, hs⟩,
      mem_removeState.2 ⟨h.target_mem _ _ _ hout, hr⟩⟩
  have hadd := fun label => (h.removeState hs hf).foldlM_addEdge?_eq_ok (hends label)
  unfold attemptRip?
  refine requireInner_bind_eq_ok_iff.2 ⟨⟨hs, hf, hq⟩, ?_⟩
  simp only [refuses_eq]
  by_cases hrefused : (safe && !n.isSafe q) = true
  · rw [if_pos hrefused, if_pos hrefused]
    rfl
  · rw [if_neg hrefused, if_neg hrefused, hadd]
    rfl

end Attempt

/-! ## Success -/

/-- A path with one label that is not ε carries this label. -/
theorem language_eitherLabel {pre post : Label σ} {loops : List σ}
    (h : pre.isEpsilon = true ∨ post.isEpsilon = true) :
    (eitherLabel pre loops post).language = pre.language * post.language := by
  cases pre with
  | epsilon => exact (one_mul post.language).symm
  | symbol a =>
    cases post with
    | epsilon => exact (mul_one (Label.symbol a).language).symm
    | symbol b => cases h <;> contradiction

/-- Labels of which one is kept. -/
def eitherCombiner (σ : Type) : Combiner σ := ⟨eitherLabel, fun _ => .epsilon, fun _ => 0⟩

/-- The labels of new transitions mean what they stand for, although combining any labels in this
way would not be sound. -/
theorem meaning_of_not_joinsLetters (h : ¬n.JoinsLetters q) {s t : State} {pre post : Label σ}
    (hs : s ≠ q) (ht : t ≠ q) (hin : ⟨s, pre, q⟩ ∈ n.edges) (hout : ⟨q, post, t⟩ ∈ n.edges) :
    (eitherLabel pre (n.loopLetters q) post).language = pre.language *
      ((n.loopLetters q).map fun a => (Label.symbol a).language).sum∗ * post.language := by
  obtain ⟨hloops, hjoint⟩ := not_or.1 h
  have hone : pre.isEpsilon = true ∨ post.isEpsilon = true := by
    cases pre with
    | epsilon => exact .inl rfl
    | symbol a =>
      cases post with
      | epsilon => exact .inr rfl
      | symbol b => exact absurd ⟨⟨s, a, hs, hin⟩, b, t, ht, hout⟩ hjoint
  rw [List.isEmpty_iff.1 (isEmpty_loopLetters_iff.2 hloops), List.map_nil, List.sum_nil, kstar_zero,
    mul_one]
  exact language_eitherLabel hone

variable [Ord σ] [Std.TransOrd σ] [Std.LawfulEqOrd σ]

omit [Std.TransOrd σ] in
theorem language_reroute_eitherLabel (h : ¬n.JoinsLetters q) (hs : q ≠ n.start)
    (hf : q ≠ n.final) : (n.reroute eitherLabel q).language = n.language := by
  ext w
  exact path_rip_iff_of_meaning (c := eitherCombiner σ) rfl
    (fun _ _ _ _ => meaning_of_not_joinsLetters h) hs.symm hf.symm

theorem WellFormed.alphabet_reroute_eitherLabel (h : n.WellFormed) (q : State) :
    (n.reroute eitherLabel q).alphabet = n.alphabet := by
  refine Ascending.insertAll_eq_self h.alphabet_ascending fun a ha => ?_
  obtain ⟨p, r, he⟩ := mem_letters.1 ha
  obtain ⟨⟨s, pre, t⟩, hin, he⟩ := List.mem_flatMap.1 he
  obtain ⟨⟨t', post, r'⟩, hout, heq⟩ := List.mem_map.1 he
  have hlabel : eitherLabel pre (n.loopLetters q) post = .symbol a := (Edge.mk.inj heq).2.1
  unfold eitherLabel at hlabel
  split at hlabel
  · rw [hlabel] at hout
    exact h.letter_mem _ _ _ (mem_leavingEdges.1 hout).1
  · rw [hlabel] at hin
    exact h.letter_mem _ _ _ (mem_entering.1 hin).1

variable [DecidableEq σ]

/-- A safe rip of an inner state is refused exactly if some path through the state carries several
letters, and then the automaton is what it was.  Otherwise the state is gone, and the automaton has
the same letters and accepts the same words. -/
theorem WellFormed.attemptRip?_safe_spec (h : n.WellFormed) (hq : q ∈ n.states) (hs : q ≠ n.start)
    (hf : q ≠ n.final) (c : Combiner σ) :
    (∀ m, n.attemptRip? c true q = .ok (false, m) ↔ n.JoinsLetters q ∧ m = n) ∧
    (n.JoinsLetters q → n.safeRip? q = .ok none) ∧
    (¬n.JoinsLetters q → ∃ m, n.attemptRip? c true q = .ok (true, m) ∧
      n.safeRip? q = .ok (some m) ∧ (∀ p, p ∈ m.states ↔ p ∈ n.states ∧ p ≠ q) ∧
      m.alphabet = n.alphabet ∧ ∀ w, m.accepts w = n.accepts w) := by
  have hattempt := h.attemptRip?_eq_ok hq hs hf c true
  have hinner : q ≠ n.start ∧ q ≠ n.final ∧ q ∈ n.states := ⟨hs, hf, hq⟩
  by_cases hjoins : n.JoinsLetters q
  · have hnot : n.isSafe q = false := by
      rw [Bool.eq_false_iff]
      exact fun hsafe => isSafe_eq_true_iff.1 hsafe hjoins
    simp only [hnot, Bool.not_false, Bool.and_self, if_true] at hattempt
    refine ⟨fun m => ?_, fun _ => ?_, absurd hjoins⟩
    · rw [hattempt, Except.ok.injEq, Prod.mk.injEq, eq_comm (a := n)]
      exact and_congr_left fun _ => iff_of_true rfl hjoins
    · refine requireInner_bind_eq_ok_iff.2 ⟨hinner, ?_⟩
      rw [safeRip, hnot]
      rfl
  · have hsafe := isSafe_eq_true_iff.2 hjoins
    simp only [hsafe, Bool.not_true, Bool.and_false, Bool.false_eq_true, if_false,
      if_true] at hattempt
    refine ⟨fun m => ?_, fun h => absurd h hjoins, fun _ => ⟨_, hattempt, ?_, fun p => ?_, ?_, ?_⟩⟩
    · rw [hattempt, Except.ok.injEq, Prod.mk.injEq]
      exact iff_of_false (fun h => by cases h.1) fun h => hjoins h.1
    · exact safeRip?_eq_ok_some_iff.2 ⟨hinner, hsafe, rfl⟩
    · exact mem_removeState
    · exact h.alphabet_reroute_eitherLabel q
    · exact accepts_eq_of_language_eq (language_reroute_eitherLabel hjoins hs hf)

/-- One inner state has a loop without a letter and a letter on one way in.  The other one has a
letter on both sides. -/
def crossing : Nfa Char :=
  { states := [0, 1, 2, 3, 4], alphabet := ['a', 'b'], start := 0, final := 2, fresh := 5
    edges := [⟨0, .symbol 'a', 1⟩, ⟨0, .epsilon, 3⟩, ⟨0, .symbol 'a', 4⟩, ⟨1, .epsilon, 1⟩,
      ⟨1, .epsilon, 2⟩, ⟨3, .epsilon, 1⟩, ⟨4, .symbol 'b', 2⟩] }

theorem wellFormed_crossing : crossing.WellFormed := wellFormed_of_ofParts
  (show ofParts ⟨[0, 1, 2, 3, 4], [], crossing.edges, 0, 2⟩ = .ok crossing from rfl)

theorem attemptRip?_safe_spec_crossing : crossing.WellFormed ∧
    crossing.attemptRip? (eitherCombiner Char) true 4 = .ok (false, crossing) ∧
    ∃ m, crossing.attemptRip? (eitherCombiner Char) true 1 = .ok (true, m) ∧ 1 ∉ m.states ∧
      m.accepts ['a'] = true ∧ m.accepts ['a', 'a'] = false := by
  have hjoins : crossing.JoinsLetters 4 :=
    .inr ⟨⟨0, 'a', by decide, by decide⟩, 'b', 2, by decide, by decide⟩
  have hsafe : ¬crossing.JoinsLetters 1 := isSafe_eq_true_iff.1 (by decide +kernel)
  obtain ⟨hrefused, -, -⟩ := wellFormed_crossing.attemptRip?_safe_spec (q := 4) (by decide)
    (by decide) (by decide) (eitherCombiner Char)
  obtain ⟨-, -, hdone⟩ := wellFormed_crossing.attemptRip?_safe_spec (q := 1) (by decide)
    (by decide) (by decide) (eitherCombiner Char)
  obtain ⟨m, hm, -, hstates, -, haccepts⟩ := hdone hsafe
  refine ⟨wellFormed_crossing, (hrefused crossing).2 ⟨hjoins, rfl⟩, m, hm, fun h => ?_, ?_, ?_⟩
  · exact ((hstates 1).1 h).2 rfl
  · exact (haccepts ['a']).trans (by decide +kernel)
  · exact (haccepts ['a', 'a']).trans (by decide +kernel)

end Kleene.Nfa
