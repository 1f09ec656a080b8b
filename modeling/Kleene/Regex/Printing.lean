import Kleene.Regex.Reading

/-!
# Printing an expression

A postfix expression is written back as text with as few parentheses as possible: an operand
is grouped if it binds weaker than the operator applied to it.  A chain of one binary
operator is read as grouped to the right, so a left operand with an operator of equal
precedence is grouped as well, and reading the text gives back the same postfix form.
-/

namespace Kleene

structure Fragment where
  text : String
  top : Option Operator

namespace Fragment

/-- Whether the fragment needs parentheses as an operand of `op`. -/
def needsGroup (f : Fragment) (op : Operator) (isLeft : Bool) : Bool :=
  match f.top with
  | none => false
  | some inner =>
    inner.precedence < op.precedence
      || (isLeft && inner.arity = 2 && inner.precedence = op.precedence)

def asOperand (f : Fragment) (op : Operator) (isLeft : Bool) : String :=
  if f.needsGroup op isLeft then "(" ++ f.text ++ ")" else f.text

def quantified (op : Operator) (f : Fragment) : Fragment :=
  ⟨f.asOperand op false ++ op.text, some op⟩

/-- A binary operator between its operands; concatenation is not written. -/
def joined (op : Operator) (f g : Fragment) : Fragment :=
  let sign := (op.symbol?.map Char.toString).getD ""
  ⟨f.asOperand op true ++ sign ++ g.asOperand op false, some op⟩

def algebra (σ : Type) [ToString σ] : Algebra σ Fragment where
  empty := ⟨"", none⟩
  literal a := ⟨escape (toString a), none⟩
  concat := joined .concat
  alternation := joined .alternation
  star := quantified .star
  plus := quantified .plus
  optional := quantified .optional

end Fragment

def Postfix.print {σ : Type} [ToString σ] (p : Postfix σ) : Except RegexError String :=
  (p.evaluate (Fragment.algebra σ)).map Fragment.text

/-- The text of a postfix expression; tokens that form no expression are shown one by one. -/
def Postfix.display {σ : Type} [ToString σ] (p : Postfix σ) : String :=
  match p.print with
  | .ok text => text
  | .error _ => p.text

def reprint (text : String) : Except RegexError String := do
  let p ← Postfix.ofText text
  p.print

end Kleene
