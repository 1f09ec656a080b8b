import Kleene.Automaton.Label

/-!
# Label combiners

When a state is eliminated, a path through it becomes one transition, and parallel
transitions become one.  A combiner says what label the new transition gets.
-/

namespace Kleene

/-- How labels are put together when states are eliminated. -/
structure Combiner (σ : Type) where
  /-- The label for a path that enters a state by `pre`, goes round its loops any number of
  times and leaves by `post`. -/
  path : (pre : Label σ) → (loops : List σ) → (post : Label σ) → Label σ
  /-- The label for a choice between parallel labels. -/
  parallel : List (Label σ) → Label σ
  weight : Label σ → Nat

end Kleene
