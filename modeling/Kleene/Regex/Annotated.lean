import Kleene.Automaton.Label
import Kleene.Regex.Printing

/-!
# Annotated letters

Letters that are whole expressions.  During elimination the transitions of an automaton
carry them, and at the end one of them describes the language.
-/

namespace Kleene

/-- A letter of the automaton, or an expression over its letters. -/
inductive Annotated (σ : Type) where
  | literal (a : σ)
  | expression (p : Postfix σ)
  deriving DecidableEq, Repr

namespace Annotated

variable {σ : Type}

/-- Letters sort before expressions, and expressions as lists of tokens. -/
instance [Ord σ] : Ord (Annotated σ) where
  compare
    | literal a, literal b => compare a b
    | literal _, expression _ => .lt
    | expression _, literal _ => .gt
    | expression p, expression q => compare p q

def kind : Annotated σ → σ ⊕ Postfix σ
  | literal a => .inl a
  | expression p => .inr p

theorem compare_eq_compareKinds [Ord σ] (x y : Annotated σ) :
    compare x y = compareKinds x.kind y.kind := by
  cases x <;> cases y <;> rfl

theorem kind_injective (x y : Annotated σ) (h : x.kind = y.kind) : x = y := by
  cases x <;> cases y <;> simp_all [kind]

instance [Ord σ] [Std.TransOrd σ] : Std.TransOrd (Annotated σ) :=
  transOrd_of_kinds compare_eq_compareKinds

instance [Ord σ] [Std.LawfulEqOrd σ] : Std.LawfulEqOrd (Annotated σ) :=
  lawfulEqOrd_of_kinds compare_eq_compareKinds kind_injective

def tokens : Annotated σ → Postfix σ
  | literal a => [.literal a]
  | expression p => p

instance [ToString σ] : ToString (Annotated σ) where
  toString
    | literal a => escape (toString a)
    | expression p => Postfix.display p

end Annotated

variable {σ : Type}

/-- The expression of a label, ε being the empty one. -/
def Label.tokens : Label (Annotated σ) → Postfix σ
  | .symbol a => a.tokens
  | .epsilon => []

def Label.ofTokens (p : Postfix σ) : Label (Annotated σ) :=
  if p.isEmpty then .epsilon else .symbol (.expression p)

end Kleene
