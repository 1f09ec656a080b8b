import Kleene.Elimination.Combiner
import Kleene.Regex.Operator

/-!
# Labels as text

The labels are texts of expressions, put together as they are.  A text with an alternation
outside all parentheses is grouped before it is concatenated.  The empty text and ε are the
same label.
-/

namespace Kleene

namespace TextCombiner

/-- Whether an alternation stands outside all parentheses, after `depth` open parentheses and
possibly a backslash. -/
def alternationOutside (depth : Nat) (escaped : Bool) : List Char → Bool
  | [] => false
  | c :: rest =>
    if escaped then alternationOutside depth false rest
    else if c = '\\' then alternationOutside depth true rest
    else if c = '(' then alternationOutside (depth + 1) false rest
    else if c = ')' then alternationOutside (depth - 1) false rest
    else if c = '|' ∧ depth = 0 then true
    else alternationOutside depth false rest

def hasTopLevelAlternation (text : String) : Bool := alternationOutside 0 false text.toList

/-- The text as an operand of a concatenation. -/
def grouped (text : String) : String :=
  if hasTopLevelAlternation text then "(" ++ text ++ ")" else text

def textOf (l : Label String) : String := l.symbol?.getD ""

def ofText (text : String) : Label String := if text.isEmpty then .epsilon else .symbol text

/-- The label of a path.  A way in or out that does the same as one round of the loops makes
the loops run at least once. -/
def path (pre : Label String) (loops : List String) (post : Label String) : Label String :=
  let pre := textOf pre
  let post := textOf post
  if loops.isEmpty then
    if pre.isEmpty || post.isEmpty then ofText (pre ++ post)
    else ofText (grouped pre ++ grouped post)
  else
    let repeated := "|".intercalate loops
    if pre = repeated then ofText ("(" ++ repeated ++ ")+" ++ grouped post)
    else if post = repeated then ofText (grouped pre ++ "(" ++ repeated ++ ")+")
    else ofText (grouped pre ++ "(" ++ repeated ++ ")*" ++ grouped post)

/-- The label of a choice: every text once, optional if one of the labels is ε. -/
def parallel (labels : List (Label String)) : Label String :=
  let optional := labels.any Label.isEpsilon
  match (labels.filterMap Label.symbol?).eraseDups with
  | [] => .epsilon
  | [text] => if optional then .symbol ("(" ++ text ++ ")?") else .symbol text
  | texts =>
    let choice := "|".intercalate texts
    if optional then .symbol ("(" ++ choice ++ ")?") else .symbol choice

end TextCombiner

/-- Labels as text; the size of a label is its number of characters. -/
def textCombiner : Combiner String where
  path := TextCombiner.path
  parallel := TextCombiner.parallel
  weight l := (TextCombiner.textOf l).length

end Kleene
