import Kleene.Misuse
import Kleene.Regex.Postfix

/-!
# Applying operators to expressions

An operator is applied to expressions of which some may be empty.  Empty operands stand for
the empty word and are left out, and a quantifier on a quantifier becomes a single one.
-/

namespace Kleene.Postfix

variable {σ : Type}

/-- The operands in the order in which they are joined: those of a commutative operator by
length, shortest first and otherwise as given. -/
def arranged (op : Operator) (operands : List (Postfix σ)) : List (Postfix σ) :=
  if op.isCommutative then operands.mergeSort (fun p q => p.length ≤ q.length) else operands

def nonempty (op : Operator) (operands : List (Postfix σ)) : List (Postfix σ) :=
  (arranged op operands).filter (!·.isEmpty)

/-- The tokens of the operands in a row, and the operator that follows them: a quantifier at
the end is taken off and merged with a quantifier applied to it. -/
def absorbQuantifier (op : Operator) (tokens : Postfix σ) : Postfix σ × Operator :=
  match (topOperator? tokens).bind (Operator.collapse? · op) with
  | some merged => (tokens.dropLast, merged)
  | none => (tokens, op)

/-- The operator applied to all operands that are not empty.  A binary operator joins `n`
operands by standing `n - 1` times at the end; without operands the result is empty. -/
def apply (op : Operator) (operands : List (Postfix σ)) : Postfix σ :=
  let ps := nonempty op operands
  if ps.isEmpty then []
  else
    let (tokens, applied) := absorbQuantifier op ps.flatten
    tokens ++ List.replicate (if op.arity = 1 then 1 else ps.length - 1) (.operator applied)

/-- `apply`, for an operator that takes operands, and at most one of them if it is a
quantifier. -/
def checkedApply (op : Operator) (operands : List (Postfix σ)) : Except Misuse (Postfix σ) :=
  let count := (nonempty op operands).length
  if op.arity = 0 then .error (.groupApplied op)
  else if op.arity = 1 ∧ 1 < count then .error (.operandCount count op)
  else .ok (apply op operands)

end Kleene.Postfix
