import Kleene.Kinds

/-!
# Labels

A transition carries a letter or ε, the empty word.
-/

namespace Kleene

inductive Label (σ : Type) where
  | symbol (a : σ)
  | epsilon
  deriving DecidableEq, Repr

namespace Label

variable {σ τ : Type}

/-- Letters in their own order, and after them ε. -/
instance [Ord σ] : Ord (Label σ) where
  compare
    | symbol a, symbol b => compare a b
    | symbol _, epsilon => .lt
    | epsilon, symbol _ => .gt
    | epsilon, epsilon => .eq

def kind : Label σ → σ ⊕ Fin 1
  | symbol a => .inl a
  | epsilon => .inr 0

theorem compare_eq_compareKinds [Ord σ] (x y : Label σ) :
    compare x y = compareKinds x.kind y.kind := by
  cases x <;> cases y <;> rfl

theorem kind_injective (x y : Label σ) (h : x.kind = y.kind) : x = y := by
  cases x <;> cases y <;> simp_all [kind]

instance [Ord σ] [Std.TransOrd σ] : Std.TransOrd (Label σ) :=
  transOrd_of_kinds compare_eq_compareKinds

instance [Ord σ] [Std.LawfulEqOrd σ] : Std.LawfulEqOrd (Label σ) :=
  lawfulEqOrd_of_kinds compare_eq_compareKinds kind_injective

def isEpsilon : Label σ → Bool
  | symbol _ => false
  | epsilon => true

def symbol? : Label σ → Option σ
  | symbol a => some a
  | epsilon => none

def ofOption : Option σ → Label σ
  | some a => symbol a
  | none => epsilon

def map (f : σ → τ) : Label σ → Label τ
  | symbol a => symbol (f a)
  | epsilon => epsilon

instance [ToString σ] : ToString (Label σ) where
  toString
    | symbol a => toString a
    | epsilon => "ε"

end Label

end Kleene
