import Kleene.Proofs.CheckedLabels

/-!
# Operators applied to expressions

An operator is applied to expressions of which some may have no tokens.  These are left out, and the
result is an expression again: what it describes is the concatenation or the union of what is left,
or what the quantifier makes of the one operand that is left, be it merged with a quantifier that
the operand ends in or not.
-/

open Computability

namespace Kleene.Postfix

variable {σ : Type} {op : Operator} {p r : Postfix σ} {ps : List (Postfix σ)}

/-- The operands that have tokens, in the order in which they are given. -/
def withTokens (ps : List (Postfix σ)) : List (Postfix σ) := ps.filter (!·.isEmpty)

/-- The operands are joined in an order of their own. -/
theorem nonempty_perm (op : Operator) (ps : List (Postfix σ)) :
    (nonempty op ps).Perm (withTokens ps) := (arranged_perm op ps).filter _

theorem nonempty_eq_nil_iff : nonempty op ps = [] ↔ ∀ p ∈ ps, p = [] := by
  simp only [List.eq_nil_iff_forall_not_mem, mem_nonempty, not_and, not_not]

/-- Tokens are made of tokens only. -/
theorem apply_eq_nil_iff : apply op ps = [] ↔ ∀ p ∈ ps, p = [] := by
  rw [← @nonempty_eq_nil_iff σ op]
  constructor
  · intro h
    by_contra hne
    by_cases hop : op.isQuantifier = true
    · have harity : op.arity = 1 := of_decide_eq_true hop
      unfold apply at h
      simp only [List.isEmpty_iff, if_neg hne, if_pos harity] at h
      exact List.cons_ne_nil _ _ (List.append_eq_nil_iff.1 h).2
    · rw [apply_of_not_isQuantifier (Bool.eq_false_of_not_eq_true hop)] at h
      exact joined_ne_nil hne (fun p hp => (mem_nonempty.1 hp).2) h
  · intro h
    unfold apply
    rw [h]
    rfl

/-! ## What the result describes -/

theorem language_apply_concat (hps : ∀ p ∈ ps, p.Valid) :
    (apply .concat ps).language = ((withTokens ps).map language).prod :=
  (denotes_apply_concat ps hps).language_eq.trans (prod_nonempty ps).symm

theorem language_apply_alternation (hps : ∀ p ∈ ps, p.Valid) (hne : apply .alternation ps ≠ []) :
    (apply .alternation ps).language = ((withTokens ps).map language).sum := by
  rw [← offered_of_ne_nil hne, (apply_alternation ps hps).2, ← sum_nonempty]
  exact ((nonempty_perm .alternation ps).map language).sum_eq

/-- A quantifier is applied to the only operand with tokens. -/
theorem apply_eq_apply_singleton (hp : p ∈ ps) (hne : p ≠ [])
    (hone : ps.countP (!·.isEmpty) ≤ 1) : apply op ps = apply op [p] := by
  have hlength : (nonempty op ps).length ≤ 1 := (length_nonempty op ps).trans_le hone
  have hmem : p ∈ nonempty op ps := mem_nonempty.2 ⟨hp, hne⟩
  have honly : nonempty op ps = [p] := by
    obtain ⟨q, hq⟩ := List.length_eq_one_iff.1
      (Nat.le_antisymm hlength (List.length_pos_of_mem hmem))
    rw [hq, List.mem_singleton] at hmem
    rw [hq, hmem]
  unfold apply
  rw [honly, nonempty_singleton hne]

theorem valid_apply (harity : op.arity ≠ 0) (hps : ∀ p ∈ ps, p.Valid)
    (hfew : op.arity = 1 → ps.countP (!·.isEmpty) ≤ 1) : (apply op ps).Valid := by
  by_cases hnil : apply op ps = []
  · rw [hnil]
    exact valid_nil
  cases op with
  | concat => exact (denotes_apply_concat ps hps).valid
  | alternation => exact (apply_alternation ps hps).1
  | star | plus | optional =>
    rw [apply_eq_nil_iff] at hnil
    push Not at hnil
    obtain ⟨p, hp, hne⟩ := hnil
    rw [apply_eq_apply_singleton hp hne (hfew rfl)]
    exact (apply_quantifier _ rfl hne (hps p hp)).2.valid
  | groupOpen | groupClose => exact absurd rfl harity

/-- An operator that takes operands can be applied to expressions, empty ones among them, if a
quantifier gets at most one with tokens.  The result is empty if all operands are, and an expression
otherwise.  It describes the concatenation of the operands with tokens in their order, or their
union; and for a quantifier the same as the operand with the quantifier behind it. -/
theorem checkedApply_spec (harity : op.arity ≠ 0) (hps : ∀ p ∈ ps, p.Valid)
    (hfew : op.isQuantifier = true → ps.countP (!·.isEmpty) ≤ 1) :
    ∃ r, checkedApply op ps = .ok r ∧ (r = [] ↔ ∀ p ∈ ps, p = []) ∧ r.Valid ∧
      (op = .concat → r.Denotes ((withTokens ps).map language).prod) ∧
      (op = .alternation → r ≠ [] → r.Denotes ((withTokens ps).map language).sum) ∧
      (op.isQuantifier = true → ∀ p ∈ ps, p ≠ [] →
        r.Denotes (quantify op p.language) ∧ r.language = language (p ++ [.operator op])) := by
  have hone : op.arity = 1 → ps.countP (!·.isEmpty) ≤ 1 := fun h => hfew (decide_eq_true h)
  have hvalid := valid_apply harity hps hone
  refine ⟨apply op ps, checkedApply_eq_ok_iff.2 ⟨⟨harity, hone⟩, rfl⟩, apply_eq_nil_iff, hvalid,
    ?_, ?_, fun hop p hp hne => ?_⟩
  · rintro rfl
    rw [← language_apply_concat hps]
    exact hvalid
  · rintro rfl hne
    rw [← language_apply_alternation hps hne]
    exact hvalid
  · rw [apply_eq_apply_singleton hp hne (hfew hop)]
    have hdenotes := (apply_quantifier op hop hne (hps p hp)).2
    have hbehind := denotes_quantified hop hne (hps p hp)
    exact ⟨hdenotes, hdenotes.language_eq.trans hbehind.language_eq.symm⟩

/-- A union of which the longer operand comes first and one is empty, and a quantifier that merges
with the one that its only operand with tokens ends in. -/
theorem checkedApply_spec_merged :
    let pair : Postfix Char := [.literal 'a', .literal 'b', .operator .concat]
    let rounds : Postfix Char := [.literal 'a', .operator .plus]
    (∃ r, checkedApply .alternation [pair, [], rounds] = .ok r ∧
      r.Denotes (pair.language + (rounds.language + 0))) ∧
    ∃ r, checkedApply .optional [[], rounds] = .ok r ∧ r = [.literal 'a', .operator .star] ∧
      r.language = language [.literal 'a', .operator .plus, .operator .optional] := by
  intro pair rounds
  have hletter : ∀ c : Char, Valid [.literal c] := fun c => (denotes_literal c).valid
  have hpair : pair.Valid := (denotes_binary .concat (· * ·) (fun _ _ _ => rfl)
    ⟨List.cons_ne_nil _ _, hletter 'a'⟩ ⟨List.cons_ne_nil _ _, hletter 'b'⟩).valid
  have hrounds : rounds.Valid :=
    (denotes_quantified (show Operator.plus.isQuantifier = true from rfl) (List.cons_ne_nil _ _)
      (hletter 'a')).valid
  have hoffered : ∀ p ∈ [pair, [], rounds], Valid p := List.forall_mem_cons.2
    ⟨hpair, List.forall_mem_cons.2 ⟨valid_nil, List.forall_mem_singleton.2 hrounds⟩⟩
  have hoperand : ∀ p ∈ [[], rounds], Valid p :=
    List.forall_mem_cons.2 ⟨valid_nil, List.forall_mem_singleton.2 hrounds⟩
  obtain ⟨r, hr, hnil, -, -, hunion, -⟩ :=
    checkedApply_spec (show Operator.alternation.arity ≠ 0 by decide) hoffered
      (fun h => by cases h)
  obtain ⟨q, hq, -, -, -, -, hquantified⟩ :=
    checkedApply_spec (show Operator.optional.arity ≠ 0 by decide) hoperand (fun _ => by decide)
  have hne : r ≠ [] := fun h => List.cons_ne_nil _ _ (hnil.1 h pair List.mem_cons_self)
  refine ⟨⟨r, hr, hunion rfl hne⟩, q, hq, ?_, ?_⟩
  · exact Except.ok.inj (hq.symm.trans rfl)
  · exact (hquantified rfl rounds (by simp) (List.cons_ne_nil _ _)).2

end Kleene.Postfix
