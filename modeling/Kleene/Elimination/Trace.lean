import Kleene.Elimination.Order

/-!
# Traces of eliminations

The rounds of an elimination one by one, for looking at how the labels grow.
-/

namespace Kleene

structure RipRound (σ : Type) where
  state : State
  /-- The costs of all states before the round. -/
  costs : List (State × Nat)
  isSafe : Bool
  after : Nfa σ

namespace Nfa

variable {σ : Type} [Ord σ]

def ripRound (c : Combiner σ) (n : Nfa σ) (q : State) : RipRound σ :=
  ⟨q, n.states.map fun p => (p, n.ripCost c p), n.isSafe q, n.ripAndMerge c q⟩

/-- The rounds until no inner state is left. -/
def ripRounds (c : Combiner σ) (order : EliminationOrder) (n : Nfa σ) : List (RipRound σ) :=
  match _h : n.nextInner? c order with
  | none => []
  | some q => n.ripRound c q :: ripRounds c order (n.ripAndMerge c q)
termination_by n.states.length
decreasing_by
  exact length_states_ripAndMerge_lt (List.mem_filter.1 (mem_innerStates_of_nextInner? _h)).1

end Nfa

end Kleene
