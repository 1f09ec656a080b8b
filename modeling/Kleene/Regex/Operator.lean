/-!
# Operators

The closed set of operators of a regular expression.  Concatenation is written by
juxtaposition and has no character of its own; groups are operators only while a text is
being read, and have no place in a postfix expression.
-/

namespace Kleene

inductive Operator where
  | concat
  | alternation
  | star
  | plus
  | optional
  | groupOpen
  | groupClose
  deriving DecidableEq, Repr

namespace Operator

/-- The number of operands the operator takes; group marks take none. -/
def arity : Operator → Nat
  | concat | alternation => 2
  | star | plus | optional => 1
  | groupOpen | groupClose => 0

/-- How tightly the operator binds: quantifiers before concatenation before alternation. -/
def precedence : Operator → Nat
  | groupOpen | groupClose => 0
  | alternation => 1
  | concat => 2
  | star | plus | optional => 3

/-- Quantifiers stand right after their operand. -/
def isQuantifier (op : Operator) : Bool := op.arity = 1

def isCommutative (op : Operator) : Bool := op = alternation

def symbol? : Operator → Option Char
  | concat => none
  | alternation => some '|'
  | star => some '*'
  | plus => some '+'
  | optional => some '?'
  | groupOpen => some '('
  | groupClose => some ')'

/-- How the operator is shown in postfix form, where concatenation is a raised dot. -/
def text (op : Operator) : String := (op.symbol?.getD '·').toString

def name : Operator → String
  | concat => "Concat"
  | alternation => "Alternation"
  | star => "Star"
  | plus => "Plus"
  | optional => "Optional"
  | groupOpen => "GroupOpen"
  | groupClose => "GroupClose"

/-- All operators, in the order in which they sort. -/
def all : List Operator := [concat, alternation, star, plus, optional, groupOpen, groupClose]

def ofName? (name : String) : Option Operator := all.find? (·.name = name)

/-- The quantifier that does the work of `outer` applied to an expression whose outermost
operator is the quantifier `inner`: `(e*)+` is `e*`. -/
def collapse? : Operator → Operator → Option Operator
  | star, star | star, plus | star, optional => some star
  | plus, star | plus, optional => some star
  | plus, plus => some plus
  | optional, star | optional, plus => some star
  | optional, optional => some optional
  | _, _ => none

def rank : Operator → Nat
  | concat => 0
  | alternation => 1
  | star => 2
  | plus => 3
  | optional => 4
  | groupOpen => 5
  | groupClose => 6

instance : Ord Operator := ⟨compareOn rank⟩

instance : Std.TransOrd Operator := inferInstanceAs (Std.TransCmp (compareOn rank))

theorem rank_injective {op op' : Operator} (h : op.rank = op'.rank) : op = op' := by
  cases op <;> cases op' <;> first | rfl | cases h

theorem compare_def (op op' : Operator) : compare op op' = compare op.rank op'.rank := rfl

instance : Std.LawfulEqOrd Operator where
  compare_self {op} := by
    rw [compare_def]
    exact Std.ReflCmp.compare_self
  eq_of_compare {op op'} h := by
    rw [compare_def] at h
    exact rank_injective (Std.LawfulEqCmp.eq_of_compare h)

end Operator

/-- The characters with a meaning of their own, which need a backslash to stand for
themselves. -/
def specialCharacters : List Char := ['\\', '(', ')', '|', '*', '+', '?']

def escapeChars (text : List Char) : List Char :=
  text.flatMap fun c => if c ∈ specialCharacters then ['\\', c] else [c]

def escape (text : String) : String := String.ofList (escapeChars text.toList)

end Kleene
