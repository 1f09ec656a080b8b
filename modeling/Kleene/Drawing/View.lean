import Kleene.Dfa.Basic
import Kleene.Nfa.Basic

/-!
# Views

The structure of an automaton of either kind, as far as a drawing shows it.
-/

namespace Kleene

/-- What a drawing shows of an automaton with labels of type `ℓ`. -/
structure View (ℓ : Type) where
  states : List State
  start : State
  finals : List State
  /-- The transitions, ascending by source, target and label. -/
  edges : List (Edge ℓ)
  deriving DecidableEq, Repr

def Nfa.view {σ : Type} (n : Nfa σ) : View (Label σ) :=
  ⟨n.states, n.start, n.states.filter (· = n.final), n.edges⟩

def Dfa.view {σ : Type} (d : Dfa σ) : View σ := ⟨d.states, d.start, d.finals, d.edges⟩

end Kleene
