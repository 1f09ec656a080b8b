/-!
# Structured reports

Reports are trees of numbers, texts, lists and named fields in a fixed order.  They are
written in the JSON format, one item per line, with two more blanks of indentation on each
level.
-/

namespace Kleene

inductive Json where
  | null
  | boolean (b : Bool)
  | number (n : Nat)
  | text (s : String)
  | list (items : List Json)
  | fields (items : List (String × Json))

namespace Json

def ofOption {α : Type} (f : α → Json) : Option α → Json
  | some a => f a
  | none => null

def controlDigits (c : Char) : String :=
  let digits := Nat.toDigits 16 c.toNat
  String.ofList (List.replicate (4 - digits.length) '0' ++ digits)

/-- A character of a text: quotes, backslashes and controls are escaped. -/
def escapedChar (c : Char) : String :=
  if c = '"' then "\\\""
  else if c = '\\' then "\\\\"
  else if c = '\n' then "\\n"
  else if c = '\r' then "\\r"
  else if c = '\t' then "\\t"
  else if c = '\x08' then "\\b"
  else if c = '\x0c' then "\\f"
  else if c < ' ' then "\\u" ++ controlDigits c
  else c.toString

def quotedText (s : String) : String := "\"" ++ String.join (s.toList.map escapedChar) ++ "\""

def newLine (level : Nat) : String := "\n" ++ String.ofList (List.replicate (2 * level) ' ')

/-- Items between brackets, each on a line of its own on the next level. -/
def enclosed (opening closing : String) (level : Nat) (items : List String) : String :=
  if items.isEmpty then opening ++ closing
  else
    opening ++ newLine (level + 1) ++ ("," ++ newLine (level + 1)).intercalate items
      ++ newLine level ++ closing

mutual

/-- The text of a report whose first line stands on some level. -/
def render (level : Nat) : Json → String
  | null => "null"
  | boolean b => toString b
  | number n => toString n
  | text s => quotedText s
  | list items => enclosed "[" "]" level (renderItems (level + 1) items)
  | fields items => enclosed "\x7b" "\x7d" level (renderFields (level + 1) items)

def renderItems (level : Nat) : List Json → List String
  | [] => []
  | item :: items => render level item :: renderItems level items

def renderFields (level : Nat) : List (String × Json) → List String
  | [] => []
  | (name, item) :: items =>
    (quotedText name ++ ": " ++ render level item) :: renderFields level items

end

def pretty (j : Json) : String := j.render 0

end Json

end Kleene
