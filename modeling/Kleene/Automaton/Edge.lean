import Kleene.Automaton.State
import Kleene.Automaton.Label

/-!
# Edges

A labelled arrow between two states.  The order of edges is lawful if that of their labels is.
-/

namespace Kleene

structure Edge (ℓ : Type) where
  source : State
  label : ℓ
  target : State
  deriving DecidableEq, Repr

/-- Edges sort by source, target and label, so that parallel edges stand together. -/
instance {ℓ : Type} [Ord ℓ] : Ord (Edge ℓ) where
  compare e f :=
    (compare e.source f.source).then
      ((compare e.target f.target).then (compare e.label f.label))

namespace Edge

variable {ℓ ℓ' : Type}

section Order

variable [Ord ℓ]

theorem compare_def (e f : Edge ℓ) :
    compare e f = (compare e.source f.source).then
      ((compare e.target f.target).then (compare e.label f.label)) := rfl

instance [Std.TransOrd ℓ] : Std.TransOrd (Edge ℓ) :=
  inferInstanceAs <| Std.TransCmp <|
    compareLex (compareOn source) (compareLex (compareOn target) (compareOn label))

instance [Std.LawfulEqOrd ℓ] : Std.LawfulEqOrd (Edge ℓ) where
  compare_self {e} := by
    rw [compare_def, Ordering.then_eq_eq, Ordering.then_eq_eq]
    exact ⟨Std.ReflCmp.compare_self, Std.ReflCmp.compare_self, Std.ReflCmp.compare_self⟩
  eq_of_compare {e f} h := by
    rw [compare_def, Ordering.then_eq_eq, Ordering.then_eq_eq] at h
    obtain ⟨hsource, htarget, hlabel⟩ := h
    cases e
    cases f
    congr
    · exact Std.LawfulEqCmp.eq_of_compare hsource
    · exact Std.LawfulEqCmp.eq_of_compare hlabel
    · exact Std.LawfulEqCmp.eq_of_compare htarget

end Order

def mapLabel (f : ℓ → ℓ') (e : Edge ℓ) : Edge ℓ' := ⟨e.source, f e.label, e.target⟩

def mapStates (f : State → State) (e : Edge ℓ) : Edge ℓ := ⟨f e.source, e.label, f e.target⟩

def ends (e : Edge ℓ) : State × State := (e.source, e.target)

def isLoop (e : Edge ℓ) : Bool := e.source = e.target

end Edge

end Kleene
