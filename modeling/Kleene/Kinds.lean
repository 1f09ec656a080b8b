/-!
# Two kinds of values

Several types hold values of two kinds, as a label is a letter or ε.  They sort by kind
first: all values of the first kind come before those of the second.  An order of this form
is lawful if the orders of both kinds are.
-/

namespace Kleene

variable {α β γ : Type}

/-- Values of the first kind before those of the second, and each kind in its own order. -/
def compareKinds [Ord α] [Ord β] : α ⊕ β → α ⊕ β → Ordering
  | .inl a, .inl b => compare a b
  | .inl _, .inr _ => .lt
  | .inr _, .inl _ => .gt
  | .inr a, .inr b => compare a b

section Laws

variable [Ord α] [Ord β]

theorem compareKinds_swap [Std.OrientedOrd α] [Std.OrientedOrd β] :
    ∀ s t : α ⊕ β, compareKinds s t = (compareKinds t s).swap
  | .inl _, .inl _ => Std.OrientedOrd.eq_swap
  | .inl _, .inr _ => rfl
  | .inr _, .inl _ => rfl
  | .inr _, .inr _ => Std.OrientedOrd.eq_swap

theorem compareKinds_isLE_trans [Std.TransOrd α] [Std.TransOrd β] :
    ∀ {s t u : α ⊕ β}, (compareKinds s t).isLE → (compareKinds t u).isLE →
      (compareKinds s u).isLE
  | .inl _, .inl _, .inl _, h, h' => Std.TransOrd.isLE_trans h h'
  | .inl _, _, .inr _, _, _ => rfl
  | .inl _, .inr _, .inl _, _, h' => by cases h'
  | .inr _, .inl _, _, h, _ => by cases h
  | .inr _, .inr _, .inl _, _, h' => by cases h'
  | .inr _, .inr _, .inr _, h, h' => Std.TransOrd.isLE_trans h h'

theorem compareKinds_self [Std.ReflOrd α] [Std.ReflOrd β] :
    ∀ s : α ⊕ β, compareKinds s s = .eq
  | .inl _ => Std.ReflOrd.compare_self
  | .inr _ => Std.ReflOrd.compare_self

theorem eq_of_compareKinds [Std.LawfulEqOrd α] [Std.LawfulEqOrd β] :
    ∀ {s t : α ⊕ β}, compareKinds s t = .eq → s = t
  | .inl _, .inl _, h => congrArg Sum.inl (Std.LawfulEqOrd.eq_of_compare h)
  | .inl _, .inr _, h => by cases h
  | .inr _, .inl _, h => by cases h
  | .inr _, .inr _, h => congrArg Sum.inr (Std.LawfulEqOrd.eq_of_compare h)

variable [Ord γ] {kind : γ → α ⊕ β}

theorem transOrd_of_kinds [Std.TransOrd α] [Std.TransOrd β]
    (h : ∀ x y : γ, compare x y = compareKinds (kind x) (kind y)) : Std.TransOrd γ where
  eq_swap {x y} := by rw [h, h, compareKinds_swap]
  isLE_trans {x y z} hxy hyz := by
    rw [h] at hxy hyz ⊢
    exact compareKinds_isLE_trans hxy hyz

/-- In a type that sorts by kinds, and whose values are given by their kinds, values that
compare as equal are equal. -/
theorem lawfulEqOrd_of_kinds [Std.LawfulEqOrd α] [Std.LawfulEqOrd β]
    (h : ∀ x y : γ, compare x y = compareKinds (kind x) (kind y))
    (hkind : ∀ x y : γ, kind x = kind y → x = y) : Std.LawfulEqOrd γ where
  compare_self {x} := by rw [h, compareKinds_self]
  eq_of_compare {x y} hxy := by
    rw [h] at hxy
    exact hkind x y (eq_of_compareKinds hxy)

end Laws

end Kleene
