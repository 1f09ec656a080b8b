import Kleene.Automaton.State

/-!
# Invalid descriptions

Why a list of states and transitions describes no automaton.
-/

namespace Kleene

/-- A defect in the description of an automaton. -/
inductive PartsError where
  | startNotInStates (state : State)
  | finalNotInStates (state : State)
  /-- An end of a transition is not among the states. -/
  | unknownTransitionState (state : State)
  /-- A state that leaves no identifier for the next one. -/
  | stateIdOutOfRange (state : State)
  /-- Two transitions of a deterministic automaton leave one state on one letter and lead to
  different states; `letter` is quoted. -/
  | nonDeterministic (state : State) (letter : String)
  deriving DecidableEq, Repr

def PartsError.message : PartsError → String
  | startNotInStates q => "start state " ++ toString q ++ " must be in states"
  | finalNotInStates q => "final state " ++ toString q ++ " must be in states"
  | unknownTransitionState q => "transition references unknown state " ++ toString q
  | stateIdOutOfRange q => "state id " ++ toString q ++ " is out of range"
  | nonDeterministic q a =>
    "state " ++ toString q ++ " has more than one transition on symbol " ++ a

end Kleene
