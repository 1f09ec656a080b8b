import Kleene.Proofs.Elimination
import Kleene.Proofs.Evaluation
import Kleene.Elimination.PostfixCombiner
import Mathlib.Algebra.BigOperators.Group.List.Basic

/-!
# Expressions as labels

Leaving out empty operands, sorting the operands of a choice and merging quantifiers change the
tokens of an expression and not its language.  So the combiner of postfix expressions is sound.
-/

open Computability

namespace Kleene

variable {σ : Type}

namespace Postfix

/-- The language that the expression describes, empty for tokens that form no expression. -/
def language (p : Postfix σ) : Language σ :=
  match p.evaluate (languageAlgebra σ) with
  | .ok L => L
  | .error _ => 0

/-- The tokens form an expression. -/
def Valid (p : Postfix σ) : Prop := p.Denotes p.language

theorem Denotes.language_eq {p : Postfix σ} {L : Language σ} (h : p.Denotes L) :
    p.language = L := by
  unfold language
  rw [h]

theorem Denotes.valid {p : Postfix σ} {L : Language σ} (h : p.Denotes L) : p.Valid := by
  unfold Valid
  rw [h.language_eq]
  exact h

@[simp] theorem valid_nil : Valid ([] : Postfix σ) := denotes_nil

@[simp] theorem language_nil : language ([] : Postfix σ) = 1 := rfl

/-- What an operand adds to a choice: an empty expression adds nothing. -/
def offered (p : Postfix σ) : Language σ := if p.isEmpty then 0 else p.language

@[simp] theorem offered_nil : offered ([] : Postfix σ) = 0 := rfl

theorem offered_of_ne_nil {p : Postfix σ} (hp : p ≠ []) : p.offered = p.language := by
  unfold offered
  rw [if_neg (by rwa [List.isEmpty_iff])]

-- An expression with tokens adds some word to a choice.
theorem Valid.offered_eq_zero_iff {p : Postfix σ} (h : p.Valid) : p.offered = 0 ↔ p = [] := by
  refine ⟨fun hzero => ?_, fun hnil => by rw [hnil, offered_nil]⟩
  by_contra hp
  rcases h.exists_mem_ne_nil hp with ⟨w, hw, -⟩
  rw [← offered_of_ne_nil hp, hzero] at hw
  exact Language.notMem_zero w hw

/-! ## Operands in a row -/

theorem foldlM_push_flatten {ps : List (Postfix σ)} (h : ∀ p ∈ ps, p ≠ [] ∧ p.Valid)
    (s : List (Language σ)) :
    ps.flatten.foldlM (push (languageAlgebra σ)) s = .ok ((ps.map language).reverse ++ s) := by
  induction ps generalizing s with
  | nil => rfl
  | cons p ps ih =>
    rcases List.forall_mem_cons.1 h with ⟨hp, hps⟩
    rw [List.flatten_cons, foldlM_append_of_ok (foldlM_push_of_evaluate hp.1 hp.2 s), ih hps,
      List.map_cons, List.reverse_cons, List.append_assoc]
    rfl

-- A binary operator that stands once less often than there are values joins them all.
theorem foldlM_push_replicate {op : Operator} {f : Language σ → Language σ → Language σ}
    (hop : ∀ x y rest,
      push (languageAlgebra σ) (y :: x :: rest) (.operator op) = .ok (f x y :: rest))
    (xs : List (Language σ)) (y : Language σ) :
    (List.replicate xs.length (.operator op)).foldlM (push (languageAlgebra σ))
      (y :: xs) = .ok [xs.foldl (fun y x => f x y) y] := by
  induction xs generalizing y with
  | nil => rfl
  | cons x xs ih =>
    rw [List.length_cons, List.replicate_succ, foldlM_cons_of_ok (hop x y xs)]
    exact ih (f x y)

/-- Operands that a binary operator joins. -/
def joined (op : Operator) (ps : List (Postfix σ)) : Postfix σ :=
  ps.flatten ++ List.replicate (ps.length - 1) (.operator op)

theorem joined_ne_nil {op : Operator} {ps : List (Postfix σ)} (hne : ps ≠ [])
    (h : ∀ p ∈ ps, p ≠ []) : joined op ps ≠ [] := by
  cases ps with
  | nil => exact absurd rfl hne
  | cons p ps =>
    unfold joined
    rw [List.flatten_cons, List.append_assoc]
    exact List.append_ne_nil_of_left_ne_nil (h p List.mem_cons_self) _

theorem denotes_joined (op : Operator) (f : Language σ → Language σ → Language σ)
    (hop : ∀ x y rest,
      push (languageAlgebra σ) (y :: x :: rest) (.operator op) = .ok (f x y :: rest))
    {ps : List (Postfix σ)} {q : Postfix σ} (h : ∀ p ∈ ps ++ [q], p ≠ [] ∧ p.Valid) :
    Denotes (joined op (ps ++ [q])) ((ps.map language).foldr f q.language) := by
  have hne : joined op (ps ++ [q]) ≠ [] := joined_ne_nil (by simp) fun p hp => (h p hp).1
  refine (evaluate_eq_ok_iff hne).2 ?_
  unfold joined
  rw [foldlM_append_of_ok (foldlM_push_flatten h [])]
  -- the values stand in reverse order, the last operand on top
  have hstack : ((ps ++ [q]).map language).reverse ++ [] =
      q.language :: (ps.map language).reverse := by simp
  have hcount : (ps ++ [q]).length - 1 = (ps.map language).reverse.length := by simp
  rw [hstack, hcount, foldlM_push_replicate hop, List.foldl_reverse]

/-- Two expressions and a binary operator behind them. -/
theorem denotes_binary (op : Operator) (f : Language σ → Language σ → Language σ)
    (hop : ∀ x y rest,
      push (languageAlgebra σ) (y :: x :: rest) (.operator op) = .ok (f x y :: rest))
    {p q : Postfix σ} (hp : p ≠ [] ∧ p.Valid) (hq : q ≠ [] ∧ q.Valid) :
    Denotes (p ++ (q ++ [.operator op])) (f p.language q.language) := by
  refine (evaluate_eq_ok_iff (List.append_ne_nil_of_left_ne_nil hp.1 _)).2 ?_
  rw [foldlM_append_of_ok (foldlM_push_of_evaluate hp.1 hp.2 []),
    foldlM_append_of_ok (foldlM_push_of_evaluate hq.1 hq.2 _)]
  exact foldlM_singleton_of_ok (hop _ _ _)

/-! ## Applying operators -/

theorem collapse?_eq_none {op : Operator} (h : op.isQuantifier = false) (inner : Operator) :
    inner.collapse? op = none := by
  cases op <;> cases inner <;> first | rfl | cases h

theorem apply_of_not_isQuantifier {op : Operator} (h : op.isQuantifier = false)
    (ps : List (Postfix σ)) : apply op ps = joined op (nonempty op ps) := by
  have harity : op.arity ≠ 1 := of_decide_eq_false h
  have habsorb : ∀ p : Postfix σ, absorbQuantifier op p = (p, op) := by
    intro p
    unfold absorbQuantifier
    cases p.topOperator? with
    | none => rfl
    | some inner =>
      rw [Option.bind_some, collapse?_eq_none h]
  unfold apply joined
  simp only [habsorb, if_neg harity]
  split
  · rename_i hempty
    rw [List.isEmpty_iff.1 hempty]
    rfl
  · rfl

theorem arranged_perm (op : Operator) (ps : List (Postfix σ)) : (arranged op ps).Perm ps := by
  unfold arranged
  split
  · exact List.mergeSort_perm ps _
  · exact .refl ps

theorem mem_nonempty {op : Operator} {ps : List (Postfix σ)} {p : Postfix σ} :
    p ∈ nonempty op ps ↔ p ∈ ps ∧ p ≠ [] := by
  unfold nonempty
  rw [List.mem_filter, (arranged_perm op ps).mem_iff, Bool.not_eq_true', ← Bool.not_eq_true,
    List.isEmpty_iff]

-- Empty operands of a concatenation stand for the empty word.
theorem prod_nonempty (ps : List (Postfix σ)) :
    ((nonempty .concat ps).map language).prod = (ps.map language).prod := by
  have harranged : arranged .concat ps = ps := rfl
  unfold nonempty
  rw [harranged]
  clear harranged
  induction ps with
  | nil => rfl
  | cons p ps ih =>
    cases p with
    | nil => simp [ih]
    | cons x p => simp [ih]

-- Empty operands of a choice add nothing to it, and their order does not matter.
theorem sum_nonempty (ps : List (Postfix σ)) :
    ((nonempty .alternation ps).map language).sum = (ps.map offered).sum := by
  rw [← ((arranged_perm .alternation ps).map offered).sum_eq]
  unfold nonempty
  generalize arranged .alternation ps = qs
  induction qs with
  | nil => rfl
  | cons q qs ih =>
    cases q with
    | nil => simp [ih]
    | cons x q => simp [ih, offered]

-- Applying concatenation concatenates the languages.
theorem denotes_apply_concat (ps : List (Postfix σ)) (h : ∀ p ∈ ps, p.Valid) :
    Denotes (apply .concat ps) (ps.map language).prod := by
  rw [apply_of_not_isQuantifier rfl, ← prod_nonempty]
  have hall : ∀ p ∈ nonempty .concat ps, p ≠ [] ∧ p.Valid := fun p hp =>
    ⟨(mem_nonempty.1 hp).2, h p (mem_nonempty.1 hp).1⟩
  rcases List.eq_nil_or_concat' (nonempty .concat ps) with hnil | ⟨qs, q, hqs⟩
  · rw [hnil]
    exact denotes_nil
  · rw [hqs] at hall ⊢
    have h := denotes_joined .concat (· * ·) (fun _ _ _ => rfl) hall
    simpa [List.prod_eq_foldr] using h

-- Applying alternation to expressions adds up what they offer.
theorem apply_alternation (ps : List (Postfix σ)) (h : ∀ p ∈ ps, p.Valid) :
    (apply .alternation ps).Valid ∧
      (apply .alternation ps).offered = (ps.map offered).sum := by
  rw [apply_of_not_isQuantifier rfl, ← sum_nonempty]
  have hall : ∀ p ∈ nonempty .alternation ps, p ≠ [] ∧ p.Valid := fun p hp =>
    ⟨(mem_nonempty.1 hp).2, h p (mem_nonempty.1 hp).1⟩
  rcases List.eq_nil_or_concat' (nonempty .alternation ps) with hnil | ⟨qs, q, hqs⟩
  · rw [hnil]
    exact ⟨valid_nil, rfl⟩
  · rw [hqs] at hall ⊢
    have hne : joined .alternation (qs ++ [q]) ≠ [] :=
      joined_ne_nil (by simp) fun p hp => (hall p hp).1
    have h := denotes_joined .alternation (· + ·) (fun _ _ _ => rfl) hall
    refine ⟨h.valid, ?_⟩
    rw [offered_of_ne_nil hne, h.language_eq]
    simp [List.sum_eq_foldr]

/-- What a quantifier does to a language. -/
def quantify : Operator → Language σ → Language σ
  | .star, L => L∗
  | .plus, L => L * L∗
  | .optional, L => 1 + L
  | _, L => L

theorem push_quantifier {op : Operator} (h : op.isQuantifier = true) (x : Language σ)
    (s : List (Language σ)) :
    push (languageAlgebra σ) (x :: s) (.operator op) = .ok (quantify op x :: s) := by
  cases op <;> first | rfl | cases h

/-- Expression `p` in front of a quantifier. -/
theorem denotes_quantified {op : Operator} (h : op.isQuantifier = true) {p : Postfix σ}
    (hp : p ≠ []) (hv : p.Valid) : Denotes (p ++ [.operator op]) (quantify op p.language) := by
  refine (evaluate_eq_ok_iff (by simp)).2 ?_
  rw [foldlM_append_of_ok (foldlM_push_of_evaluate hp hv [])]
  exact foldlM_singleton_of_ok (push_quantifier h _ _)

-- An expression that ends in a quantifier is the quantifier applied to what is before.
theorem Valid.language_eq_quantify {op : Operator} (h : op.isQuantifier = true)
    {p : Postfix σ} (hv : Valid (p ++ [.operator op])) :
    p ≠ [] ∧ p.Valid ∧ language (p ++ [.operator op]) = quantify op p.language := by
  have hfold := (evaluate_eq_ok_iff (by simp)).1 hv
  rw [List.foldlM_append] at hfold
  have hp : p ≠ [] := by
    intro hnil
    rw [hnil] at hfold
    cases op <;> cases h <;> cases hfold
  -- before the quantifier one value is on the stack
  cases hs : p.foldlM (push (languageAlgebra σ)) [] with
  | error e =>
    rw [hs] at hfold
    cases hfold
  | ok s =>
    rw [hs] at hfold
    have hpush : List.foldlM (push (languageAlgebra σ)) s [.operator op] =
        .ok [language (p ++ [.operator op])] := hfold
    rw [List.foldlM_cons] at hpush
    cases s with
    | nil => cases op <;> cases h <;> cases hpush
    | cons x s =>
      rw [push_quantifier h] at hpush
      rcases List.cons.inj (Except.ok.inj hpush) with ⟨hx, rfl⟩
      have hdenotes : p.Denotes x := (evaluate_eq_ok_iff hp).2 hs
      exact ⟨hp, hdenotes.valid, by rw [← hx, hdenotes.language_eq]⟩

-- Going round by the empty word adds no word.
theorem kstar_one_add (L : Language σ) : (1 + L)∗ = L∗ := by
  have hle : 1 + L ≤ L∗ := add_le one_le_kstar le_kstar
  exact le_antisymm ((kstar_mono hle).trans_eq (kstar_idem L)) (kstar_mono le_add_self)

-- Merging two quantifiers changes no language.
theorem quantify_collapse {inner outer merged : Operator}
    (h : inner.collapse? outer = some merged) (L : Language σ) :
    inner.isQuantifier = true ∧ merged.isQuantifier = true ∧
      quantify outer (quantify inner L) = quantify merged L := by
  have hplus : (L * L∗)∗ = L∗ :=
    le_antisymm ((kstar_mono mul_kstar_le_kstar).trans_eq (kstar_idem L))
      (kstar_mono (le_mul_of_one_le_right' one_le_kstar))
  have hopt : (1 + L)∗ = L∗ := kstar_one_add L
  have habsorb : 1 + L∗ = L∗ := add_eq_right_iff_le.2 one_le_kstar
  cases inner <;> cases outer <;> cases h <;> refine ⟨rfl, rfl, ?_⟩
  · exact kstar_idem L
  · show L∗ * L∗∗ = L∗
    rw [kstar_idem, kstar_mul_kstar]
  · exact habsorb
  · exact hplus
  · show L * L∗ * (L * L∗)∗ = L * L∗
    rw [hplus, mul_assoc, kstar_mul_kstar]
  · show 1 + L * L∗ = L∗
    exact one_add_mul_kstar
  · exact hopt
  · show (1 + L) * (1 + L)∗ = L∗
    rw [hopt, add_mul, one_mul]
    exact add_eq_left_iff_le.2 mul_kstar_le_kstar
  · show 1 + (1 + L) = 1 + L
    rw [← add_assoc, add_idem]

theorem nonempty_singleton {op : Operator} {p : Postfix σ} (hp : p ≠ []) :
    nonempty op [p] = [p] := by
  have harranged : arranged op [p] = [p] := by
    unfold arranged
    split <;> simp
  unfold nonempty
  rw [harranged, List.filter_cons_of_pos (by simpa using hp)]
  rfl

theorem topOperator?_eq_some {p : Postfix σ} {op : Operator} (h : p.topOperator? = some op) :
    p = p.dropLast ++ [.operator op] := by
  unfold topOperator? at h
  rcases Option.bind_eq_some_iff.1 h with ⟨x, hx, hop⟩
  cases x with
  | literal a => cases hop
  | operator op' =>
    rcases Option.some.inj hop with rfl
    exact (List.dropLast_append_getLast? _ hx).symm

-- Applying a quantifier to an expression with tokens does to its language what it says.
theorem apply_quantifier (op : Operator) (h : op.isQuantifier = true) {p : Postfix σ}
    (hp : p ≠ []) (hv : p.Valid) :
    apply op [p] ≠ [] ∧ Denotes (apply op [p]) (quantify op p.language) := by
  have harity : op.arity = 1 := of_decide_eq_true h
  unfold apply absorbQuantifier
  simp only [nonempty_singleton hp, List.flatten_singleton, if_pos harity]
  cases hmerged : p.topOperator?.bind (Operator.collapse? · op) with
  | none => exact ⟨by simp, denotes_quantified h hp hv⟩
  | some merged =>
    -- the quantifier at the end gives way to the merged one
    rcases Option.bind_eq_some_iff.1 hmerged with ⟨inner, htop, hcollapse⟩
    have hsplit := topOperator?_eq_some htop
    rcases quantify_collapse hcollapse (language p.dropLast) with ⟨hinner, hm, hlanguage⟩
    rw [hsplit] at hv
    rcases hv.language_eq_quantify hinner with ⟨hne, hvalid, heq⟩
    rw [← hsplit] at heq
    refine ⟨by simp, ?_⟩
    rw [heq, hlanguage]
    exact denotes_quantified hm hne hvalid

theorem apply_quantifier_nil {op : Operator} : apply op [([] : Postfix σ)] = [] := by
  have hnil : nonempty op [([] : Postfix σ)] = [] := by
    refine List.eq_nil_iff_forall_not_mem.2 fun p hp => ?_
    rcases mem_nonempty.1 hp with ⟨hmem, hne⟩
    exact hne (List.mem_singleton.1 hmem)
  unfold apply
  rw [hnil]
  rfl

end Postfix

/-! ## The combiner -/

namespace PostfixCombiner

open Postfix

/-- The expression of the label is one, and only ε has an empty one. -/
def Good (l : Label (Annotated σ)) : Prop := l.tokens.Valid ∧ (l.tokens = [] → l = .epsilon)

/-- The language that the expression of a label describes. -/
def meaning (l : Label (Annotated σ)) : Language σ := l.tokens.language

theorem tokens_ofTokens (p : Postfix σ) : (Label.ofTokens p).tokens = p := by
  cases p <;> rfl

theorem good_ofTokens {p : Postfix σ} (h : p.Valid) : Good (Label.ofTokens p) := by
  refine ⟨by rwa [tokens_ofTokens], fun hnil => ?_⟩
  rw [tokens_ofTokens] at hnil
  rw [hnil]
  rfl

theorem foldl_loops {loops : List (Annotated σ)} {choice : Postfix σ}
    (h : ∀ a ∈ loops, a.tokens.Valid) (hv : choice.Valid) :
    let result := loops.foldl (fun choice l => apply .alternation [l.tokens, choice]) choice
    result.Valid ∧ result.offered = (loops.map (·.tokens.offered)).sum + choice.offered := by
  induction loops generalizing choice with
  | nil => exact ⟨hv, (zero_add _).symm⟩
  | cons a loops ih =>
    rcases List.forall_mem_cons.1 h with ⟨ha, h⟩
    have hround := apply_alternation [a.tokens, choice]
      (List.forall_mem_cons.2 ⟨ha, List.forall_mem_singleton.2 hv⟩)
    rcases ih h hround.1 with ⟨hvalid, hoffered⟩
    refine ⟨hvalid, hoffered.trans ?_⟩
    rw [hround.2, List.map_cons, List.map_singleton, List.sum_cons, List.sum_singleton,
      List.map_cons, List.sum_cons, add_left_comm, add_assoc]

/-- What labels mean is what they offer, and the empty word if one of them is empty. -/
theorem sum_meaning (ls : List (Label (Annotated σ))) :
    (ls.map meaning).sum = (if ls.any (·.tokens.isEmpty) then 1 else 0) +
      (ls.map fun l => l.tokens.offered).sum := by
  ext w
  rw [Language.mem_add, mem_sum_map, mem_sum_map]
  refine ⟨fun hw => ?_, fun hw => ?_⟩
  · rcases hw with ⟨l, hl, hw⟩
    by_cases hnil : l.tokens = []
    · have hany : ls.any (·.tokens.isEmpty) = true :=
        List.any_eq_true.2 ⟨l, hl, List.isEmpty_iff.2 hnil⟩
      unfold meaning at hw
      rw [hnil, language_nil] at hw
      rw [if_pos hany]
      exact .inl hw
    · unfold meaning at hw
      rw [← offered_of_ne_nil hnil] at hw
      exact .inr ⟨l, hl, hw⟩
  · rcases hw with hw | ⟨l, hl, hw⟩
    · split at hw
      · rename_i hany
        rcases List.any_eq_true.1 hany with ⟨l, hl, hempty⟩
        refine ⟨l, hl, ?_⟩
        unfold meaning
        rw [List.isEmpty_iff.1 hempty]
        exact hw
      · exact absurd hw (Language.notMem_zero w)
    · refine ⟨l, hl, ?_⟩
      by_cases hnil : l.tokens = []
      · rw [hnil] at hw
        exact absurd hw (Language.notMem_zero w)
      · rwa [offered_of_ne_nil hnil] at hw

-- Going round the choice between loops is going round the loops, be some of them empty or not.
theorem loopChoice_spec {loops : List (Annotated σ)} (h : ∀ a ∈ loops, a.tokens.Valid) :
    (loopChoice loops).Valid ∧
      (loopChoice loops).offered∗ = (loops.map fun a => meaning (.symbol a)).sum∗ := by
  obtain ⟨hvalid, hoffered⟩ := foldl_loops h valid_nil
  have hmeaning := sum_meaning (loops.map Label.symbol)
  rw [List.map_map, List.map_map] at hmeaning
  have hsum : (loopChoice loops).offered = (loops.map (·.tokens.offered)).sum :=
    hoffered.trans (add_zero _)
  refine ⟨hvalid, ?_⟩
  rw [hsum]
  refine Eq.symm ((congrArg _ hmeaning).trans ?_)
  split
  · exact kstar_one_add _
  · exact congrArg _ (zero_add _)

-- Going round a choice any number of times.
theorem denotes_star {choice : Postfix σ} (h : choice.Valid) :
    Denotes (apply .star [choice]) choice.offered∗ := by
  by_cases hnil : choice = []
  · rw [hnil, apply_quantifier_nil, offered_nil, kstar_zero]
    exact denotes_nil
  · rw [offered_of_ne_nil hnil]
    exact (apply_quantifier _ rfl hnil h).2

-- Going round once more than any number of times is the same with or without rounds to go,
-- as long as it follows or precedes the choice.
theorem denotes_plus {choice : Postfix σ} (h : choice.Valid) :
    Denotes (apply .plus [choice]) (choice.language * choice.offered∗) := by
  by_cases hnil : choice = []
  · rw [hnil, apply_quantifier_nil, offered_nil, kstar_zero, language_nil, mul_one]
    exact denotes_nil
  · rw [offered_of_ne_nil hnil]
    exact (apply_quantifier _ rfl hnil h).2

theorem language_mul_kstar_offered (p : Postfix σ) :
    p.language * p.offered∗ = p.offered∗ * p.language := by
  by_cases hnil : p = []
  · simp [hnil]
  · rw [offered_of_ne_nil hnil]
    exact (Language.mul_self_kstar_comm _).symm

variable [DecidableEq σ]

/-- The label of a path means a way in, loops and a way out. -/
theorem path_spec {pre post : Label (Annotated σ)} {loops : List (Annotated σ)}
    (hpre : pre.tokens.Valid) (hloops : ∀ a ∈ loops, a.tokens.Valid) (hpost : post.tokens.Valid) :
    Good (path pre loops post) ∧ meaning (path pre loops post) =
      meaning pre * (loops.map fun a => meaning (.symbol a)).sum∗ * meaning post := by
  have hchoice := loopChoice_spec hloops
  have hstar := denotes_star hchoice.1
  have hplus := denotes_plus hchoice.1
  rw [← hchoice.2]
  unfold path meaning
  simp only
  split
  · -- the way in is one more round
    rename_i heq
    have h := denotes_apply_concat [apply .plus [loopChoice loops], post.tokens]
      (List.forall_mem_cons.2 ⟨hplus.valid, List.forall_mem_singleton.2 hpost⟩)
    refine ⟨good_ofTokens h.valid, ?_⟩
    rw [tokens_ofTokens, h.language_eq, heq]
    simp [hplus.language_eq]
  · split
    · -- the way out is one more round
      rename_i heq
      have h := denotes_apply_concat [pre.tokens, apply .plus [loopChoice loops]]
        (List.forall_mem_cons.2 ⟨hpre, List.forall_mem_singleton.2 hplus.valid⟩)
      refine ⟨good_ofTokens h.valid, ?_⟩
      rw [tokens_ofTokens, h.language_eq, heq]
      simp [hplus.language_eq, language_mul_kstar_offered, mul_assoc]
    · have h := denotes_apply_concat
        [pre.tokens, apply .star [loopChoice loops], post.tokens]
        (by simp [hpre, hstar.valid, hpost])
      refine ⟨good_ofTokens h.valid, ?_⟩
      rw [tokens_ofTokens, h.language_eq]
      simp [hstar.language_eq, mul_assoc]

omit [DecidableEq σ] in
theorem foldl_labels {ls : List (Label (Annotated σ))} {union : Postfix σ}
    (h : ∀ l ∈ ls, l.tokens.Valid) (hv : union.Valid) :
    let result := ls.foldl (fun union l => if l.tokens.isEmpty then union
      else apply .alternation [union, l.tokens]) union
    result.Valid ∧
      result.offered = union.offered + (ls.map fun l => l.tokens.offered).sum := by
  induction ls generalizing union with
  | nil => exact ⟨hv, (add_zero _).symm⟩
  | cons l ls ih =>
    rcases List.forall_mem_cons.1 h with ⟨hl, h⟩
    simp only [List.foldl_cons, List.map_cons, List.sum_cons]
    split
    · rename_i hempty
      rw [List.isEmpty_iff.1 hempty, offered_nil, zero_add]
      exact ih h hv
    · have hround := apply_alternation [union, l.tokens]
        (List.forall_mem_cons.2 ⟨hv, List.forall_mem_singleton.2 hl⟩)
      rcases ih h hround.1 with ⟨hvalid, hoffered⟩
      refine ⟨hvalid, hoffered.trans ?_⟩
      rw [hround.2, List.map_cons, List.map_singleton, List.sum_cons, List.sum_singleton,
        add_assoc]

omit [DecidableEq σ] in
-- The choice between labels offers what those of them offer that are not empty.
theorem choice_spec {ls : List (Label (Annotated σ))} (h : ∀ l ∈ ls, l.tokens.Valid) :
    (choice ls).Valid ∧ (choice ls).offered = (ls.map fun l => l.tokens.offered).sum := by
  have h := foldl_labels h valid_nil
  rwa [offered_nil, zero_add] at h

omit [DecidableEq σ] in
/-- The label of a choice means what all its labels mean together. -/
theorem parallel_spec {ls : List (Label (Annotated σ))} (hne : ls ≠ [])
    (h : ∀ l ∈ ls, l.tokens.Valid) :
    Good (parallel ls) ∧ meaning (parallel ls) = (ls.map meaning).sum := by
  rcases choice_spec h with ⟨hvalid, hoffered⟩
  rw [sum_meaning, ← hoffered]
  unfold parallel
  split
  · by_cases hnil : choice ls = []
    · rw [hnil, apply_quantifier_nil]
      exact ⟨good_ofTokens valid_nil, (add_zero _).symm⟩
    · have hopt := (apply_quantifier .optional rfl hnil hvalid).2
      refine ⟨good_ofTokens hopt.valid, ?_⟩
      unfold meaning
      rw [tokens_ofTokens, hopt.language_eq, offered_of_ne_nil hnil]
      rfl
  · -- without an empty label there is something to choose
    rename_i hany
    have hnil : choice ls ≠ [] := by
      intro hnil
      rcases List.exists_mem_of_ne_nil ls hne with ⟨l, hl⟩
      have hzero : l.tokens.offered = 0 := by
        ext w
        refine ⟨fun hw => ?_, fun hw => absurd hw (Language.notMem_zero w)⟩
        have hmem : w ∈ (ls.map fun l => l.tokens.offered).sum := mem_sum_map.2 ⟨l, hl, hw⟩
        rwa [← hoffered, hnil] at hmem
      refine hany (List.any_eq_true.2 ⟨l, hl, List.isEmpty_iff.2 ?_⟩)
      exact (h l hl).offered_eq_zero_iff.1 hzero
    refine ⟨good_ofTokens hvalid, ?_⟩
    unfold meaning
    rw [tokens_ofTokens, zero_add, offered_of_ne_nil hnil]

end PostfixCombiner

theorem postfixCombiner_sound (σ : Type) [DecidableEq σ] :
    (postfixCombiner σ).Sound PostfixCombiner.Good PostfixCombiner.meaning where
  good_epsilon := ⟨Postfix.valid_nil, fun _ => rfl⟩
  meaning_epsilon := rfl
  good_path _ _ _ hpre hloops hpost :=
    (PostfixCombiner.path_spec hpre.1 (fun a ha => (hloops a ha).1) hpost.1).1
  meaning_path _ _ _ hpre hloops hpost :=
    (PostfixCombiner.path_spec hpre.1 (fun a ha => (hloops a ha).1) hpost.1).2
  good_parallel _ hne h := (PostfixCombiner.parallel_spec hne fun l hl => (h l hl).1).1
  meaning_parallel _ hne h := (PostfixCombiner.parallel_spec hne fun l hl => (h l hl).1).2

end Kleene
