import Kleene.Kinds
import Kleene.Regex.Error

/-!
# Postfix expressions

A regular expression with every operator after its operands, so that no parentheses are
needed: `ab|c` is `a b · c |`.  No token at all stands for the empty word.  An expression
is given a meaning by an algebra, which says what a letter is and what each operator does.
-/

namespace Kleene

inductive Token (σ : Type) where
  | literal (a : σ)
  | operator (op : Operator)
  deriving DecidableEq, Repr

namespace Token

variable {σ : Type}

/-- Literals sort before operators. -/
instance [Ord σ] : Ord (Token σ) where
  compare
    | literal a, literal b => compare a b
    | literal _, operator _ => .lt
    | operator _, literal _ => .gt
    | operator o, operator p => compare o p

def kind : Token σ → σ ⊕ Operator
  | literal a => .inl a
  | operator op => .inr op

theorem compare_eq_compareKinds [Ord σ] (x y : Token σ) :
    compare x y = compareKinds x.kind y.kind := by
  cases x <;> cases y <;> rfl

theorem kind_injective (x y : Token σ) (h : x.kind = y.kind) : x = y := by
  cases x <;> cases y <;> simp_all [kind]

instance [Ord σ] [Std.TransOrd σ] : Std.TransOrd (Token σ) :=
  transOrd_of_kinds compare_eq_compareKinds

instance [Ord σ] [Std.LawfulEqOrd σ] : Std.LawfulEqOrd (Token σ) :=
  lawfulEqOrd_of_kinds compare_eq_compareKinds kind_injective

def operator? : Token σ → Option Operator
  | literal _ => none
  | operator op => some op

def isLiteral : Token σ → Bool
  | literal _ => true
  | operator _ => false

def text [ToString σ] : Token σ → String
  | literal a => escape (toString a)
  | operator op => op.text

end Token

abbrev Postfix (σ : Type) := List (Token σ)

/-- What letters and operators mean in some set of values. -/
structure Algebra (σ α : Type) where
  empty : α
  literal : σ → α
  concat : α → α → α
  alternation : α → α → α
  star : α → α
  plus : α → α
  optional : α → α

namespace Postfix

variable {σ α : Type}

def text [ToString σ] (p : Postfix σ) : String := " ".intercalate (p.map Token.text)

/-- The outermost operator, which stands last. -/
def topOperator? (p : Postfix σ) : Option Operator := p.getLast?.bind Token.operator?

def literalCount (p : Postfix σ) : Nat := p.countP Token.isLiteral

/-- The values waiting for an operator after one more token; the latest value is first. -/
def push (A : Algebra σ α) (values : List α) : Token σ → Except RegexError (List α)
  | .literal a => .ok (A.literal a :: values)
  | .operator op =>
    match op, values with
    | .concat, y :: x :: rest => .ok (A.concat x y :: rest)
    | .alternation, y :: x :: rest => .ok (A.alternation x y :: rest)
    | .star, x :: rest => .ok (A.star x :: rest)
    | .plus, x :: rest => .ok (A.plus x :: rest)
    | .optional, x :: rest => .ok (A.optional x :: rest)
    | .groupOpen, _ | .groupClose, _ => .error (.strayGroupToken op)
    | op, _ => .error (.missingOperand op)

def evaluate (A : Algebra σ α) (p : Postfix σ) : Except RegexError α :=
  if p.isEmpty then .ok A.empty
  else
    match p.foldlM (push A) [] with
    | .ok [value] => .ok value
    | .ok values => .error (.danglingOperands values.length)
    | .error e => .error e

end Postfix

end Kleene
