import Kleene.Proofs.Recognition
import Kleene.Regex.Printing

/-!
# Expression trees

The tokens that have a value are the postorder of a tree, which is the only one, and the value is
the fold of the tree.  On all other tokens the evaluation fails at the first operator that finds too
few operands, or at the end if several values are left.  How many operands there are can be counted
without evaluating anything: a literal adds one, and an operator with two operands takes one away.
-/

namespace Kleene

variable {σ α β : Type}

/-- An expression as a tree. -/
inductive Expression (σ : Type) where
  | literal (a : σ)
  | concat (e f : Expression σ)
  | alternation (e f : Expression σ)
  | star (e : Expression σ)
  | plus (e : Expression σ)
  | optional (e : Expression σ)
  deriving DecidableEq, Repr

namespace Expression

/-- The nodes of the tree as tokens, operators after their operands. -/
def postorder : Expression σ → Postfix σ
  | literal a => [.literal a]
  | concat e f => e.postorder ++ (f.postorder ++ [.operator .concat])
  | alternation e f => e.postorder ++ (f.postorder ++ [.operator .alternation])
  | star e => e.postorder ++ [.operator .star]
  | plus e => e.postorder ++ [.operator .plus]
  | optional e => e.postorder ++ [.operator .optional]

/-- The value of the tree. -/
def fold (A : Algebra σ α) : Expression σ → α
  | literal a => A.literal a
  | concat e f => A.concat (e.fold A) (f.fold A)
  | alternation e f => A.alternation (e.fold A) (f.fold A)
  | star e => A.star (e.fold A)
  | plus e => A.plus (e.fold A)
  | optional e => A.optional (e.fold A)

/-- Trees as values of themselves, with a tree of choice for the expression without tokens. -/
def algebra (e : Expression σ) : Algebra σ (Expression σ) where
  empty := e
  literal := literal
  concat := concat
  alternation := alternation
  star := star
  plus := plus
  optional := optional

theorem fold_algebra (e f : Expression σ) : f.fold e.algebra = f := by
  induction f with
  | literal a => rfl
  | concat f g ihf ihg => exact congrArg₂ concat ihf ihg
  | alternation f g ihf ihg => exact congrArg₂ alternation ihf ihg
  | star f ih => exact congrArg star ih
  | plus f ih => exact congrArg plus ih
  | optional f ih => exact congrArg optional ih

theorem postorder_ne_nil (e : Expression σ) : e.postorder ≠ [] := by
  cases e <;> simp [postorder]

/-- The postorder of a tree puts the value of the tree on the stack. -/
theorem foldlM_push_postorder (A : Algebra σ α) (e : Expression σ) (s : List α) :
    e.postorder.foldlM (Postfix.push A) s = .ok (e.fold A :: s) := by
  induction e generalizing s with
  | literal a => rfl
  | concat e f ihe ihf | alternation e f ihe ihf =>
    rw [postorder, foldlM_append_of_ok (ihe s), foldlM_append_of_ok (ihf _)]
    rfl
  | star e ih | plus e ih | optional e ih =>
    rw [postorder, foldlM_append_of_ok (ih s)]
    rfl

theorem evaluate_postorder (A : Algebra σ α) (e : Expression σ) :
    e.postorder.evaluate A = .ok (e.fold A) :=
  (Postfix.evaluate_eq_ok_iff e.postorder_ne_nil).2 (e.foldlM_push_postorder A [])

-- Evaluating the postorder in the algebra of trees builds the tree again.
theorem postorder_injective {e f : Expression σ} (h : e.postorder = f.postorder) : e = f := by
  have he := e.evaluate_postorder e.algebra
  rw [h, f.evaluate_postorder e.algebra, fold_algebra, fold_algebra] at he
  exact (Except.ok.inj he).symm

/-- The tokens of trees in a row, the first tree last in the list. -/
def rowOf (ts : List (Expression σ)) : Postfix σ := ts.reverse.flatMap postorder

@[simp] theorem rowOf_nil : rowOf ([] : List (Expression σ)) = [] := rfl

@[simp] theorem rowOf_cons (e : Expression σ) (ts : List (Expression σ)) :
    rowOf (e :: ts) = rowOf ts ++ e.postorder := by
  simp [rowOf]

end Expression

open Expression (rowOf)

namespace Postfix

variable {A : Algebra σ α} {s t : List α} {x : Token σ} {p : Postfix σ} {e : RegexError}

/-! ## Values as folds -/

/-- A token that is taken makes a tree of itself and of the topmost trees. -/
theorem exists_trees_of_push {ts : List (Expression σ)}
    (h : push A (ts.map (Expression.fold A)) x = .ok t) :
    ∃ ts', t = ts'.map (Expression.fold A) ∧ rowOf ts' = rowOf ts ++ [x] := by
  cases x with
  | literal a =>
    cases h
    exact ⟨.literal a :: ts, rfl, Expression.rowOf_cons _ _⟩
  | operator op =>
    match ts, op with
    | e :: ts, .star =>
      cases h
      exact ⟨.star e :: ts, rfl, by simp [Expression.postorder]⟩
    | e :: ts, .plus =>
      cases h
      exact ⟨.plus e :: ts, rfl, by simp [Expression.postorder]⟩
    | e :: ts, .optional =>
      cases h
      exact ⟨.optional e :: ts, rfl, by simp [Expression.postorder]⟩
    | f :: e :: ts, .concat =>
      cases h
      exact ⟨.concat e f :: ts, rfl, by simp [Expression.postorder]⟩
    | f :: e :: ts, .alternation =>
      cases h
      exact ⟨.alternation e f :: ts, rfl, by simp [Expression.postorder]⟩
    | [], .concat | [], .alternation | [_], .concat | [_], .alternation => cases h
    | [], .star | [], .plus | [], .optional | _, .groupOpen | _, .groupClose => cases h

/-- The values on the stack are folds of trees, and the tokens are those of the trees. -/
theorem exists_trees_of_foldlM (ts : List (Expression σ))
    (h : p.foldlM (push A) (ts.map (Expression.fold A)) = .ok t) :
    ∃ ts', t = ts'.map (Expression.fold A) ∧ rowOf ts' = rowOf ts ++ p := by
  induction p generalizing ts with
  | nil =>
    cases h
    exact ⟨ts, rfl, (List.append_nil _).symm⟩
  | cons x p ih =>
    obtain ⟨s, hs, hrest⟩ := exists_of_foldlM_cons h
    obtain ⟨ts', rfl, hrow⟩ := exists_trees_of_push hs
    obtain ⟨ts'', ht, hrow'⟩ := ih ts' hrest
    exact ⟨ts'', ht, by rw [hrow', hrow, List.append_assoc]; rfl⟩

/-- Tokens have a value exactly if they are the postorder of a tree; the value is its fold. -/
theorem evaluate_eq_ok_iff_exists_tree {v : α} (hp : p ≠ []) :
    p.evaluate A = .ok v ↔ ∃ e : Expression σ, p = e.postorder ∧ v = e.fold A := by
  constructor
  · intro h
    obtain ⟨ts, hts, hrow⟩ := exists_trees_of_foldlM [] ((evaluate_eq_ok_iff hp).1 h)
    obtain ⟨e, rfl, hv⟩ := List.map_eq_singleton_iff.1 hts.symm
    exact ⟨e, by simpa using hrow.symm, hv.symm⟩
  · rintro ⟨e, rfl, rfl⟩
    exact e.evaluate_postorder A

/-! ## Counting operands -/

/-- How many values the tokens leave, if all operators among them find their operands. -/
def operands (p : Postfix σ) : Nat := p.countP Token.isLiteral - p.countP Token.isBinary

end Postfix

namespace Operator

/-- Behind `n` operands the operator has no place: it takes more, or it is a group mark. -/
def Misplaced (op : Operator) (n : Nat) : Prop := op.arity = 0 ∨ n < op.arity

/-- What is wrong with an operator that has no place. -/
def complaint (op : Operator) : RegexError :=
  if op.arity = 0 then .strayGroupToken op else .missingOperand op

end Operator

namespace Postfix

variable {A : Algebra σ α} {s t : List α} {x : Token σ} {p : Postfix σ} {e : RegexError}

/-- Every operator finds as many operands as it takes. -/
def Supplied (p : Postfix σ) : Prop :=
  ∀ front op rest, p = front ++ .operator op :: rest → ¬ op.Misplaced (operands front)

theorem push_operator_eq_error_iff {op : Operator} :
    push A s (.operator op) = .error e ↔ op.Misplaced s.length ∧ e = op.complaint := by
  match s, op with
  | _ :: _, .star | _ :: _, .plus | _ :: _, .optional =>
    simp [push, Operator.Misplaced, Operator.arity]
  | _ :: _ :: _, .concat | _ :: _ :: _, .alternation =>
    simp [push, Operator.Misplaced, Operator.arity]
  | [], .concat | [], .alternation | [_], .concat | [_], .alternation =>
    simp [push, Operator.Misplaced, Operator.arity, Operator.complaint, eq_comm]
  | [], .star | [], .plus | [], .optional | _, .groupOpen | _, .groupClose =>
    simp [push, Operator.Misplaced, Operator.arity, Operator.complaint, eq_comm]

/-- The stack is as high as the count of operands says. -/
theorem length_eq_operands (h : p.foldlM (push A) [] = .ok t) : t.length = operands p := by
  have hlength := length_foldlM_push h
  rw [List.length_nil] at hlength
  unfold operands
  omega

/-- The evaluation fails at the first operator without a place, whatever the algebra. -/
theorem foldlM_push_eq_error_iff : p.foldlM (push A) [] = .error e ↔
    ∃ front op rest s, p = front ++ .operator op :: rest ∧
      front.foldlM (push A) [] = .ok s ∧ op.Misplaced (operands front) ∧ e = op.complaint := by
  rw [foldlM_eq_error_iff]
  constructor
  · rintro ⟨front, x, rest, s, rfl, hfront, hx⟩
    cases x with
    | literal a => cases hx
    | operator op =>
      rw [push_operator_eq_error_iff, length_eq_operands hfront] at hx
      exact ⟨front, op, rest, s, rfl, hfront, hx⟩
  · rintro ⟨front, op, rest, s, rfl, hfront, hx⟩
    rw [← length_eq_operands hfront] at hx
    exact ⟨front, _, rest, s, rfl, hfront, push_operator_eq_error_iff.2 hx⟩

/-- The tokens are all taken exactly if every operator finds its operands. -/
theorem exists_foldlM_iff_supplied : (∃ t, p.foldlM (push A) [] = .ok t) ↔ Supplied p := by
  constructor
  · rintro ⟨t, ht⟩ front op rest rfl hmisplaced
    obtain ⟨s, hs, hrest⟩ := exists_of_foldlM_append ht
    obtain ⟨s', hop, -⟩ := exists_of_foldlM_cons hrest
    rw [← length_eq_operands hs] at hmisplaced
    rw [push_operator_eq_error_iff.2 ⟨hmisplaced, rfl⟩] at hop
    cases hop
  · intro h
    cases ht : p.foldlM (push A) [] with
    | ok t => exact ⟨t, rfl⟩
    | error e =>
      obtain ⟨front, op, rest, -, hp, -, hmisplaced, -⟩ := foldlM_push_eq_error_iff.1 ht
      exact absurd hmisplaced (h front op rest hp)

theorem push_ne_nil (h : push A s x = .ok t) : t ≠ [] := by
  rintro rfl
  cases x with
  | literal a => cases h
  | operator op => rcases s with _ | ⟨v, _ | ⟨w, s⟩⟩ <;> cases op <;> cases h

/-- Tokens that are all taken leave some value. -/
theorem operands_ne_zero (hp : p ≠ []) (h : Supplied p) : operands p ≠ 0 := by
  obtain ⟨t, ht⟩ := (exists_foldlM_iff_supplied (A := languageAlgebra σ)).2 h
  rw [← length_eq_operands ht]
  rcases List.eq_nil_or_concat' p with hnil | ⟨q, x, rfl⟩
  · exact absurd hnil hp
  · obtain ⟨s, -, hrest⟩ := exists_of_foldlM_append ht
    obtain ⟨t', hx, hnil⟩ := exists_of_foldlM_cons hrest
    cases hnil
    rw [ne_eq, List.length_eq_zero_iff]
    exact push_ne_nil hx

/-- An operator without a place is what the evaluation fails at first. -/
theorem evaluate_eq_error_iff_of_not_supplied (hp : ¬ Supplied p) : p.evaluate A = .error e ↔
    ∃ front op rest, p = front ++ .operator op :: rest ∧ Supplied front ∧
      op.Misplaced (operands front) ∧ e = op.complaint := by
  have hnil : p ≠ [] := by
    rintro rfl
    exact hp fun front op rest h => by simp at h
  rw [evaluate_of_ne_nil hnil]
  cases ht : p.foldlM (push A) [] with
  | ok t => exact absurd (exists_foldlM_iff_supplied.1 ⟨t, ht⟩) hp
  | error e' =>
    have hfirst := foldlM_push_eq_error_iff (A := A) (p := p) (e := e)
    rw [ht, Except.error.injEq] at hfirst
    rw [Except.error.injEq, hfirst]
    constructor
    · rintro ⟨front, op, rest, s, hp, hs, hmisplaced⟩
      exact ⟨front, op, rest, hp, exists_foldlM_iff_supplied.1 ⟨s, hs⟩, hmisplaced⟩
    · rintro ⟨front, op, rest, hp, hfront, hmisplaced⟩
      obtain ⟨s, hs⟩ := exists_foldlM_iff_supplied.2 hfront
      exact ⟨front, op, rest, s, hp, hs, hmisplaced⟩

/-- Where all operators find their operands, the number of values that are left decides. -/
theorem evaluate_eq_error_iff_of_supplied (hnil : p ≠ []) (hp : Supplied p) :
    p.evaluate A = .error e ↔ operands p ≠ 1 ∧ e = .danglingOperands (operands p) := by
  obtain ⟨t, ht⟩ := (exists_foldlM_iff_supplied (A := A)).2 hp
  rw [evaluate_of_ne_nil hnil, ← length_eq_operands ht, ht]
  rcases t with _ | ⟨v, _ | ⟨w, t⟩⟩ <;> simp [eq_comm]

/-- Where the evaluation goes wrong: at the first operator without a place, or at the end. -/
theorem evaluate_eq_error_iff : p.evaluate A = .error e ↔
    (∃ front op rest, p = front ++ .operator op :: rest ∧ Supplied front ∧
      op.Misplaced (operands front) ∧ e = op.complaint) ∨
    (p ≠ [] ∧ Supplied p ∧ operands p ≠ 1 ∧ e = .danglingOperands (operands p)) := by
  by_cases hp : Supplied p
  · have hno : ¬ ∃ front op rest, p = front ++ .operator op :: rest ∧ Supplied front ∧
        op.Misplaced (operands front) ∧ e = op.complaint :=
      fun ⟨front, op, rest, h, _, hmisplaced, _⟩ => hp front op rest h hmisplaced
    rw [or_iff_right hno]
    by_cases hnil : p = []
    · rw [hnil]
      exact ⟨fun h => (by cases h), fun h => absurd rfl h.1⟩
    · rw [evaluate_eq_error_iff_of_supplied hnil hp]
      exact ⟨fun h => ⟨hnil, hp, h⟩, fun h => h.2.2⟩
  · rw [evaluate_eq_error_iff_of_not_supplied hp, or_iff_left fun h => hp h.2.1]

example (A : Algebra Char α) : evaluate A [.literal 'a', .operator .concat, .operator .groupOpen] =
    .error (.missingOperand .concat) := rfl

/-- Whether an expression has a value, and which error it gives, does not depend on the algebra. -/
theorem sameResult_evaluate (p : Postfix σ) (A : Algebra σ α) (B : Algebra σ β) :
    SameResult (fun _ _ => True) (p.evaluate A) (p.evaluate B) := by
  refine evaluate_related ?_ fun _ => trivial
  constructor <;> intros <;> trivial

-- The tokens with a value are those of a tree; all others fail where they first go wrong.
theorem evaluate_spec (p : Postfix σ) (A : Algebra σ α) :
    (∀ v, p.evaluate A = .ok v ↔
      (p = [] ∧ v = A.empty) ∨ ∃ e : Expression σ, p = e.postorder ∧ v = e.fold A) ∧
    (∀ e f : Expression σ, p = e.postorder → p = f.postorder → e = f) ∧
    (∀ err, p.evaluate A = .error err ↔
      (∃ front op rest, p = front ++ .operator op :: rest ∧ Supplied front ∧
        op.Misplaced (operands front) ∧ err = op.complaint) ∨
      (p ≠ [] ∧ Supplied p ∧ operands p ≠ 1 ∧ err = .danglingOperands (operands p))) ∧
    ∀ [Ord σ] [ToString σ], ((∃ n, p.toNfa = .ok n) ↔ ∃ text, p.print = .ok text) ∧
      ∀ err, p.toNfa = .error err ↔ p.print = .error err := by
  refine ⟨fun v => ?_, fun e f he hf => Expression.postorder_injective (he.symm.trans hf),
    fun err => evaluate_eq_error_iff, ?_⟩
  · by_cases hnil : p = []
    · have hno : ¬ ∃ e : Expression σ, p = e.postorder ∧ v = e.fold A :=
        fun ⟨e, he, _⟩ => e.postorder_ne_nil (he.symm.trans hnil)
      rw [or_iff_left hno, hnil]
      exact ⟨fun h => ⟨rfl, (Except.ok.inj h).symm⟩, fun h => congrArg _ h.2.symm⟩
    · rw [evaluate_eq_ok_iff_exists_tree hnil, or_iff_right fun h => hnil h.1]
  · intro _ _
    have hsame := sameResult_evaluate p (Nfa.algebra σ) (Fragment.algebra σ)
    unfold toNfa print
    generalize p.evaluate (Nfa.algebra σ) = r at hsame ⊢
    generalize p.evaluate (Fragment.algebra σ) = r' at hsame ⊢
    cases hsame with
    | ok => exact ⟨⟨fun _ => ⟨_, rfl⟩, fun _ => ⟨_, rfl⟩⟩, fun _ => ⟨nofun, nofun⟩⟩
    | error e =>
      refine ⟨⟨fun ⟨_, h⟩ => (by cases h), fun ⟨_, h⟩ => (by cases h)⟩, fun err => ?_⟩
      exact ⟨fun h => (by cases h; rfl), fun h => (by cases h; rfl)⟩

end Postfix

end Kleene
