import Kleene.Regex.Lexeme
import Kleene.Regex.Postfix

/-!
# Reading an expression

The text of an expression is brought into postfix form from left to right.  Operators wait
on a stack for their right operand, and an operator sends those that bind tighter to the
output first; quantifiers have their operand already and never wait.  Concatenation is not
written, so a literal or an opening parenthesis that follows a complete operand adds it.
-/

namespace Kleene

/-- An expression that is being read. -/
structure Yard where
  /-- The tokens of the postfix form so far, last token first. -/
  output : List (Token Char)
  /-- The operators and open parentheses that wait, innermost first, with their positions. -/
  waiting : List (Operator × Nat)
  afterOperand : Bool
  deriving DecidableEq, Repr

namespace Yard

def start : Yard := ⟨[], [], false⟩

/-- Sends the waiting operators that bind tighter than `op` to the output. -/
def release (op : Operator) (output : List (Token Char)) :
    List (Operator × Nat) → List (Token Char) × List (Operator × Nat)
  | [] => (output, [])
  | top :: rest =>
    if top.1.precedence ≤ op.precedence then (output, top :: rest)
    else release op (.operator top.1 :: output) rest

/-- Reads an operator: a quantifier goes to the output, any other waits. -/
def apply (y : Yard) (op : Operator) (position : Nat) : Yard :=
  let (output, waiting) := release op y.output y.waiting
  if op.isQuantifier then { y with output := .operator op :: output, waiting := waiting }
  else { y with output := output, waiting := (op, position) :: waiting }

/-- Sends the waiting operators down to the innermost open parenthesis to the output, and
removes it; there may be none. -/
def unwind? (output : List (Token Char)) :
    List (Operator × Nat) → Option (List (Token Char) × List (Operator × Nat))
  | [] => none
  | (.groupOpen, _) :: rest => some (output, rest)
  | (op, _) :: rest => unwind? (.operator op :: output) rest

/-- Adds the concatenation that is not written, if an operand follows an operand. -/
def juxtapose (y : Yard) (position : Nat) : Yard :=
  if y.afterOperand then y.apply .concat position else y

def read (y : Yard) (l : Lexeme) : Except RegexError Yard :=
  match l.kind with
  | .literal c =>
    let y := y.juxtapose l.position
    .ok { y with output := .literal c :: y.output, afterOperand := true }
  | .opening =>
    let y := y.juxtapose l.position
    .ok { y with waiting := (.groupOpen, l.position) :: y.waiting, afterOperand := false }
  | .closing =>
    match unwind? y.output y.waiting with
    | some (output, waiting) => .ok ⟨output, waiting, true⟩
    | none => .error (.unbalancedParenthesis l.position)
  | .operator op => .ok { y.apply op l.position with afterOperand := op.isQuantifier }

/-- Sends all waiting operators to the output; no parenthesis may be open. -/
def flush (output : List (Token Char)) :
    List (Operator × Nat) → Except RegexError (List (Token Char))
  | [] => .ok output
  | (.groupOpen, position) :: _ => .error (.unbalancedParenthesis position)
  | (op, _) :: rest => flush (.operator op :: output) rest

def finish (y : Yard) : Except RegexError (Postfix Char) :=
  (flush y.output y.waiting).map List.reverse

end Yard

def Postfix.ofLexemes (ls : List Lexeme) : Except RegexError (Postfix Char) := do
  let y ← ls.foldlM Yard.read Yard.start
  y.finish

/-- The postfix form of the text of an expression. -/
def Postfix.ofText (text : String) : Except RegexError (Postfix Char) := do
  let ls ← Lexeme.scan text
  Postfix.ofLexemes ls

end Kleene
