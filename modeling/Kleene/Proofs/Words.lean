import Mathlib.Data.List.Shortlex
import Kleene.Ascending
import Kleene.Comparison.Words

/-!
# Words in order

Words sort by length, and words of one length by their letters.  The list of all words up to a
length holds each word over the alphabet once and in this order, so the first entry with a property
is the earliest word with it.  Merging two ascending alphabets gives the ascending alphabet of the
letters of both.
-/

namespace Kleene

/-! ## The first entry of an ordered list -/

/-- In an ordered list the search from the front finds the least of the elements it looks for. -/
theorem find?_eq_some_iff_of_pairwise {α : Type} {r : α → α → Prop} [Std.Asymm r] {xs : List α}
    (h : xs.Pairwise r) {p : α → Bool} {a : α} : xs.find? p = some a ↔
      (a ∈ xs ∧ p a = true) ∧ ∀ b ∈ xs, p b = true → b = a ∨ r a b := by
  induction xs with
  | nil => simp
  | cons x xs ih =>
    obtain ⟨hx, hxs⟩ := List.pairwise_cons.1 h
    by_cases hpx : p x = true
    · rw [List.find?_cons_of_pos hpx, Option.some.injEq]
      constructor
      · rintro rfl
        exact ⟨⟨List.mem_cons_self, hpx⟩, fun b hb _ => (List.mem_cons.1 hb).imp id (hx b)⟩
      · rintro ⟨⟨ha, -⟩, hleast⟩
        obtain hxa | hxa := hleast x List.mem_cons_self hpx
        · exact hxa
        · -- then it would stand behind `x` and yet before it
          obtain rfl | ha := List.mem_cons.1 ha
          · rfl
          · exact absurd hxa (Std.Asymm.asymm _ _ (hx a ha))
    · rw [List.find?_cons_of_neg hpx, ih hxs]
      constructor
      · rintro ⟨⟨ha, hpa⟩, hleast⟩
        refine ⟨⟨List.mem_cons_of_mem x ha, hpa⟩, fun b hb hpb => ?_⟩
        obtain rfl | hb := List.mem_cons.1 hb
        · exact absurd hpb hpx
        · exact hleast b hb hpb
      · rintro ⟨⟨ha, hpa⟩, hleast⟩
        obtain rfl | ha := List.mem_cons.1 ha
        · exact absurd hpa hpx
        · exact ⟨⟨ha, hpa⟩, fun b hb => hleast b (List.mem_cons_of_mem x hb)⟩

variable {σ : Type} [Ord σ] {u v w x y : List σ} {a : σ} {alphabet as bs : List σ} {n max : Nat}

/-! ## The order of words -/

/-- In the order of a dictionary. -/
def LetterBefore (u v : List σ) : Prop := List.Lex (fun a b => compare a b = .lt) u v

/-- Shorter words first, and words of one length in the order of a dictionary. -/
def Earlier (u v : List σ) : Prop := List.Shortlex (fun a b => compare a b = .lt) u v

theorem earlier_iff : Earlier u v ↔
    u.length < v.length ∨ (u.length = v.length ∧ LetterBefore u v) := List.shortlex_def

/-- The earliest of the words of at most `max` letters that have a property. -/
structure IsFirst (max : Nat) (P : List σ → Prop) (w : List σ) : Prop where
  length_le : w.length ≤ max
  holds : P w
  earliest : ∀ v, v.length ≤ max → P v → v = w ∨ Earlier w v

/-- What follows two words of one length does not matter for their order. -/
theorem LetterBefore.append (h : LetterBefore u v) (hlength : u.length = v.length) :
    LetterBefore (u ++ x) (v ++ y) := by
  induction h with
  | nil => cases hlength
  | rel h => exact .rel h
  | cons _ ih => exact .cons (ih (Nat.succ.inj hlength))

theorem LetterBefore.append_left (h : LetterBefore u v) (w : List σ) :
    LetterBefore (w ++ u) (w ++ v) := List.Lex.append_left _ h w

section Asymmetry

variable [Std.OrientedOrd σ]

instance instAsymmCompare : Std.Asymm fun a b : σ => compare a b = .lt where
  asymm a b hab hba := by
    rw [Std.OrientedOrd.eq_swap, hba] at hab
    cases hab

instance : Std.Asymm (LetterBefore (σ := σ)) := inferInstanceAs (Std.Asymm (List.Lex _))

instance : Std.Asymm (Earlier (σ := σ)) := inferInstanceAs (Std.Asymm (List.Shortlex _))

end Asymmetry

/-! ## All words up to a length -/

omit [Ord σ] in
theorem mem_wordsOfLength :
    w ∈ wordsOfLength alphabet n ↔ w.length = n ∧ ∀ a ∈ w, a ∈ alphabet := by
  induction n generalizing w with
  | zero =>
    unfold wordsOfLength
    rw [List.mem_singleton, List.length_eq_zero_iff]
    exact ⟨fun h => ⟨h, by simp [h]⟩, fun h => h.1⟩
  | succ n ih =>
    unfold wordsOfLength
    simp only [List.mem_flatMap, List.mem_map, ih]
    constructor
    · rintro ⟨a, ha, v, ⟨hlength, hv⟩, rfl⟩
      exact ⟨congrArg Nat.succ hlength, List.forall_mem_cons.2 ⟨ha, hv⟩⟩
    · rintro ⟨hlength, hw⟩
      obtain ⟨a, v, rfl⟩ := List.exists_cons_of_length_eq_add_one hlength
      obtain ⟨ha, hv⟩ := List.forall_mem_cons.1 hw
      exact ⟨a, ha, v, ⟨Nat.succ.inj hlength, hv⟩, rfl⟩

omit [Ord σ] in
/-- Every word over the alphabet is listed, the empty one too. -/
theorem mem_wordsUpTo :
    w ∈ wordsUpTo alphabet max ↔ w.length ≤ max ∧ ∀ a ∈ w, a ∈ alphabet := by
  unfold wordsUpTo
  simp only [List.mem_flatMap, List.mem_range, mem_wordsOfLength]
  constructor
  · rintro ⟨n, hn, rfl, hw⟩
    exact ⟨Nat.le_of_lt_succ hn, hw⟩
  · rintro ⟨hmax, hw⟩
    exact ⟨w.length, Nat.lt_succ_of_le hmax, rfl, hw⟩

/-- First come the words with a smaller first letter. -/
theorem pairwise_wordsOfLength (h : Ascending.IsAscending alphabet) (n : Nat) :
    (wordsOfLength alphabet n).Pairwise LetterBefore := by
  induction n with
  | zero => exact List.pairwise_singleton _ _
  | succ n ih =>
    refine List.pairwise_flatMap.2 ⟨fun a _ => ?_, List.Pairwise.imp ?_ h⟩
    · exact List.pairwise_map.2 (ih.imp .cons)
    · intro a b hab u hu v hv
      obtain ⟨u, -, rfl⟩ := List.mem_map.1 hu
      obtain ⟨v, -, rfl⟩ := List.mem_map.1 hv
      exact .rel hab

theorem pairwise_wordsUpTo (h : Ascending.IsAscending alphabet) (max : Nat) :
    (wordsUpTo alphabet max).Pairwise Earlier := by
  refine List.pairwise_flatMap.2 ⟨fun n _ => ?_, List.pairwise_lt_range.imp ?_⟩
  · refine (pairwise_wordsOfLength h n).imp_of_mem fun {u v} hu hv huv => ?_
    have hlength : u.length = v.length :=
      (mem_wordsOfLength.1 hu).1.trans (mem_wordsOfLength.1 hv).1.symm
    exact earlier_iff.2 (.inr ⟨hlength, huv⟩)
  · intro m n hmn u hu v hv
    rw [← (mem_wordsOfLength.1 hu).1, ← (mem_wordsOfLength.1 hv).1] at hmn
    exact earlier_iff.2 (.inl hmn)

/-- The first listed word with a property is the earliest of all words with it, provided that only
words over the alphabet have it. -/
theorem find?_wordsUpTo_eq_some_iff [Std.OrientedOrd σ] (h : Ascending.IsAscending alphabet)
    {p : List σ → Bool} (hp : ∀ w, p w = true → ∀ a ∈ w, a ∈ alphabet) :
    (wordsUpTo alphabet max).find? p = some w ↔ IsFirst max (p · = true) w := by
  rw [find?_eq_some_iff_of_pairwise (pairwise_wordsUpTo h max), mem_wordsUpTo]
  constructor
  · rintro ⟨⟨⟨hmax, -⟩, hw⟩, hleast⟩
    exact ⟨hmax, hw, fun v hv hpv => hleast v (mem_wordsUpTo.2 ⟨hv, hp v hpv⟩) hpv⟩
  · rintro ⟨hmax, hw, hleast⟩
    exact ⟨⟨⟨hmax, hp w hw⟩, hw⟩, fun v hv hpv => hleast v (mem_wordsUpTo.1 hv).1 hpv⟩

omit [Ord σ] in
theorem find?_wordsUpTo_eq_none_iff {p : List σ → Bool}
    (hp : ∀ w, p w = true → ∀ a ∈ w, a ∈ alphabet) :
    (wordsUpTo alphabet max).find? p = none ↔ ∀ w, w.length ≤ max → ¬p w = true := by
  rw [List.find?_eq_none]
  constructor
  · intro h w hw hpw
    exact h w (mem_wordsUpTo.2 ⟨hw, hp w hpw⟩) hpw
  · intro h w hw
    exact h w (mem_wordsUpTo.1 hw).1

/-! ## Merged alphabets -/

theorem mem_interleave : a ∈ interleave as bs ↔ a ∈ as ∨ a ∈ bs := by
  fun_induction interleave as bs with
  | case1 => simp
  | case2 => simp
  | case3 c as d bs _ ih => simp only [List.mem_cons, ih, or_assoc]
  | case4 c as d bs _ ih =>
    simp only [List.mem_cons, ih]
    exact or_left_comm

omit [Ord σ] in
theorem mem_withoutRuns [DecidableEq σ] : a ∈ withoutRuns as ↔ a ∈ as := by
  fun_induction withoutRuns as with
  | case1 => rfl
  | case2 => rfl
  | case3 c rest ih => simp [ih]
  | case4 c d rest _ ih =>
    rw [List.mem_cons, ih]
    exact List.mem_cons.symm

theorem mem_mergedAlphabet [DecidableEq σ] : a ∈ mergedAlphabet as bs ↔ a ∈ as ∨ a ∈ bs :=
  mem_withoutRuns.trans mem_interleave

variable [Std.TransOrd σ]

theorem pairwise_isLE_interleave (has : as.Pairwise fun a b => (compare a b).isLE)
    (hbs : bs.Pairwise fun a b => (compare a b).isLE) :
    (interleave as bs).Pairwise fun a b => (compare a b).isLE := by
  fun_induction interleave as bs with
  | case1 => exact hbs
  | case2 => exact has
  | case3 c as d bs hle ih =>
    obtain ⟨hc, has⟩ := List.pairwise_cons.1 has
    refine List.pairwise_cons.2 ⟨fun e he => ?_, ih has hbs⟩
    obtain he | he := mem_interleave.1 he
    · exact hc e he
    · obtain rfl | he := List.mem_cons.1 he
      · exact hle
      · exact Std.TransCmp.isLE_trans hle ((List.pairwise_cons.1 hbs).1 e he)
  | case4 c as d bs hle ih =>
    have hdc : (compare d c).isLE := by
      have hgt := Std.OrientedCmp.gt_iff_lt.1 (Ordering.isLE_eq_false.1 (Bool.eq_false_iff.2 hle))
      rw [hgt]
      rfl
    obtain ⟨hd, hbs⟩ := List.pairwise_cons.1 hbs
    refine List.pairwise_cons.2 ⟨fun e he => ?_, ih has hbs⟩
    obtain he | he := mem_interleave.1 he
    · obtain rfl | he := List.mem_cons.1 he
      · exact hdc
      · exact Std.TransCmp.isLE_trans hdc ((List.pairwise_cons.1 has).1 e he)
    · exact hd e he

variable [Std.LawfulEqOrd σ] [DecidableEq σ]

/-- Runs of equal letters are all the repetitions that a sorted list can have. -/
theorem isAscending_withoutRuns (h : as.Pairwise fun a b => (compare a b).isLE) :
    Ascending.IsAscending (withoutRuns as) := by
  fun_induction withoutRuns as with
  | case1 => exact .nil
  | case2 => exact List.pairwise_singleton _ _
  | case3 c rest ih => exact ih (List.pairwise_cons.1 h).2
  | case4 c d rest hne ih =>
    obtain ⟨hc, hrest⟩ := List.pairwise_cons.1 h
    have hcd : compare c d = .lt := by
      have hle := hc d List.mem_cons_self
      cases hcompare : compare c d with
      | lt => rfl
      | eq => exact absurd (Std.LawfulEqCmp.eq_of_compare hcompare) hne
      | gt =>
        rw [hcompare] at hle
        cases hle
    refine Ascending.isAscending_cons.2 ⟨fun e he => ?_, ih hrest⟩
    obtain rfl | he := List.mem_cons.1 (mem_withoutRuns.1 he)
    · exact hcd
    · exact Std.TransCmp.lt_of_lt_of_isLE hcd ((List.pairwise_cons.1 hrest).1 e he)

theorem isAscending_mergedAlphabet (has : Ascending.IsAscending as)
    (hbs : Ascending.IsAscending bs) : Ascending.IsAscending (mergedAlphabet as bs) := by
  have hle : ∀ {cs : List σ}, Ascending.IsAscending cs →
      cs.Pairwise fun a b => (compare a b).isLE := fun h => h.imp fun {a b} hab => by
    rw [hab]
    rfl
  exact isAscending_withoutRuns (pairwise_isLE_interleave (hle has) (hle hbs))

end Kleene
