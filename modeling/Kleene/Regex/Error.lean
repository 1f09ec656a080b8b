import Kleene.Regex.Operator

/-!
# Malformed expressions

Why a text or a list of tokens is no regular expression.  Positions count the bytes of the
text before the place in question.
-/

namespace Kleene

inductive RegexError where
  /-- The text ends in a backslash that escapes nothing. -/
  | danglingEscape (position : Nat)
  | strayGroupToken (op : Operator)
  /-- A closing parenthesis without an opening one, or the other way round. -/
  | unbalancedParenthesis (position : Nat)
  | missingOperand (op : Operator)
  /-- Operands that no operator joins. -/
  | danglingOperands (count : Nat)
  deriving DecidableEq, Repr

def RegexError.message : RegexError → String
  | danglingEscape n => "dangling escape at position " ++ toString n
  | strayGroupToken op => "group token " ++ op.name ++ " in postfix expression"
  | unbalancedParenthesis n => "unbalanced parenthesis at position " ++ toString n
  | missingOperand op => "operator " ++ op.name ++ " is missing an operand"
  | danglingOperands n => toString n ++ " operands are not joined by an operator"

end Kleene
