import Kleene.Text.Visible

/-!
# Quoted text

The written form of characters, texts and lists inside messages and drawings.  A character
stands in single quotes and a text in double quotes.  A backslash, the enclosing quote and
four controls have a short escape, every other character without a shape of its own is
given by its code point in hexadecimal, and the rest stands for itself.
-/

namespace Kleene

namespace Text

/-- A code point escape: the code point in lower-case hexadecimal between braces. -/
def codePointEscape (c : Char) : String :=
  "\\u\x7b" ++ String.ofList (Nat.toDigits 16 c.toNat) ++ "\x7d"

def quotedChar (quote c : Char) : String :=
  if c = '\x00' then "\\0"
  else if c = '\t' then "\\t"
  else if c = '\n' then "\\n"
  else if c = '\r' then "\\r"
  else if c = '\\' || c = quote then "\\" ++ c.toString
  else if isVisible c then c.toString
  else codePointEscape c

end Text

class Quotable (α : Type) where
  /-- The value as it is shown inside a message. -/
  quoted : α → String

export Quotable (quoted)

instance : Quotable Char where
  quoted c := "'" ++ Text.quotedChar '\'' c ++ "'"

instance : Quotable String where
  quoted s := "\"" ++ String.join (s.toList.map (Text.quotedChar '"')) ++ "\""

instance : Quotable Int where
  quoted := toString

instance {α : Type} [Quotable α] : Quotable (List α) where
  quoted xs := "[" ++ ", ".intercalate (xs.map quoted) ++ "]"

end Kleene
