import Kleene.Automaton.State
import Kleene.Regex.Operator

/-!
# Misuse

Calls that no value of the library answers: their precondition is up to the caller.  Each
cause is a constructor, and `Misuse.message` is the one place that puts it into words.
-/

namespace Kleene

/-- A precondition that the caller did not meet. -/
inductive Misuse where
  | unknownState (state : State)
  /-- The start or final state was to be eliminated. -/
  | terminalState (state : State)
  | statesExhausted
  /-- A number at or above the limit of identifiers. -/
  | stateOutOfRange (index : Nat)
  /-- A second transition of a deterministic automaton on one letter; `letter` is quoted. -/
  | conflict (source : State) (letter : String) (existing new : State)
  | outOfBounds
  | acceptingTrap
  /-- A group mark used as an operator. -/
  | groupApplied (op : Operator)
  | operandCount (count : Nat) (op : Operator)
  deriving DecidableEq, Repr

def stateName (q : State) : String := "State(" ++ toString q ++ ")"

/-- The wording of a misuse; a position outside a table has none. -/
def Misuse.message? : Misuse → Option String
  | unknownState q => some ("Unknown state " ++ stateName q)
  | terminalState q => some ("Cannot rip the start or final state " ++ stateName q)
  | statesExhausted => some "NFA state space exhausted"
  | stateOutOfRange n => some ("State index " ++ toString n ++ " does not fit into the state space")
  | conflict p a q r =>
    let arrow := stateName p ++ " -" ++ a ++ "-> "
    some ("Transition conflict, adding the new transition causes this automaton to no longer be a "
      ++ "DFA. Existing: " ++ arrow ++ stateName q ++ ". New: " ++ arrow ++ stateName r)
  | outOfBounds => none
  | acceptingTrap => some "A node cannot be both accepting and a trap node"
  | groupApplied op => some ("Group token " ++ op.name ++ " cannot be applied")
  | operandCount n op => some ("Invalid number of operands " ++ toString n ++ " for " ++ op.name)

/-- The state with a given number, if that lies below the limit. -/
def State.ofIndex (index : Nat) : Except Misuse State :=
  if index < stateLimit then .ok index else .error (.stateOutOfRange index)

end Kleene
