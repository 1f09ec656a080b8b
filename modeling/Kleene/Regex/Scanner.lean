import Kleene.Regex.Lexeme

/-!
# A scanner from parsers

Lexemes are taken off the front of the text one by one, each by trying parsers in turn.  The parsers
are put together from simple ones, of which only the laws are known.
-/

namespace Kleene

/-- Takes a value off the front of the text and leaves the rest, or fails. -/
abbrev Parser (α : Type) := List Char → Option (α × List Char)

/-- Simple parsers, and ways to put parsers together. -/
structure ParserKit where
  /-- Exactly the given text. -/
  tag : List Char → Parser (List Char)
  char : Char → Parser Char
  anyChar : Parser Char
  /-- The text in front of the first place where the given text stands. -/
  takeUntil : List Char → Parser (List Char)
  /-- The first of the parsers that does not fail. -/
  alt {α : Type} : List (Parser α) → Parser α
  /-- Both parsers, one behind the other, with the value of the second. -/
  preceded {α β : Type} : Parser α → Parser β → Parser β
  pair {α β : Type} : Parser α → Parser β → Parser (α × β)
  triple {α β γ : Type} : Parser α → Parser β → Parser γ → Parser (α × β × γ)
  /-- The given value if the parser does not fail. -/
  value {α β : Type} : β → Parser α → Parser β
  map {α β : Type} : Parser α → (α → β) → Parser β

/-- What the parsers of a kit do. -/
structure ParserKit.Lawful (K : ParserKit) : Prop where
  tag_append (t rest : List Char) : K.tag t (t ++ rest) = some (t, rest)
  tag_eq_none (t cs : List Char) : ¬ t <+: cs → K.tag t cs = none
  char_cons (c : Char) (rest : List Char) : K.char c (c :: rest) = some (c, rest)
  char_eq_none (c : Char) (cs : List Char) : cs.head? ≠ some c → K.char c cs = none
  anyChar_cons (c : Char) (rest : List Char) : K.anyChar (c :: rest) = some (c, rest)
  anyChar_nil : K.anyChar [] = none
  takeUntil_append (t front rest : List Char) :
    (∀ front' rest', front ++ (t ++ rest) = front' ++ (t ++ rest') →
      front.length ≤ front'.length) →
    K.takeUntil t (front ++ (t ++ rest)) = some (front, t ++ rest)
  takeUntil_eq_none (t cs : List Char) : ¬ t <:+: cs → K.takeUntil t cs = none
  alt_nil {α : Type} (cs : List Char) : K.alt ([] : List (Parser α)) cs = none
  alt_cons {α : Type} (p : Parser α) (ps : List (Parser α)) (cs : List Char) :
    K.alt (p :: ps) cs = (p cs).or (K.alt ps cs)
  preceded_eq {α β : Type} (p : Parser α) (q : Parser β) (cs : List Char) :
    K.preceded p q cs = (p cs).bind fun r => q r.2
  pair_eq {α β : Type} (p : Parser α) (q : Parser β) (cs : List Char) :
    K.pair p q cs = (p cs).bind fun r => (q r.2).map fun r' => ((r.1, r'.1), r'.2)
  triple_eq {α β γ : Type} (p : Parser α) (q : Parser β) (o : Parser γ) (cs : List Char) :
    K.triple p q o cs = (p cs).bind fun r => (q r.2).bind fun r' =>
      (o r'.2).map fun r'' => ((r.1, r'.1, r''.1), r''.2)
  value_eq {α β : Type} (b : β) (p : Parser α) (cs : List Char) :
    K.value b p cs = (p cs).map fun r => (b, r.2)
  map_eq {α β : Type} (p : Parser α) (f : α → β) (cs : List Char) :
    K.map p f cs = (p cs).map fun r => (f r.1, r.2)

namespace ParserKit

/-- The text up to the first place where another text stands, and the rest from there. -/
def splitAt? (t : List Char) : Parser (List Char)
  | [] => if t.isEmpty then some ([], []) else none
  | c :: cs =>
    if t.isPrefixOf (c :: cs) then some ([], c :: cs)
    else (splitAt? t cs).map fun r => (c :: r.1, r.2)

/-- The parsers that try exactly what their laws say. -/
def plain : ParserKit where
  tag t cs := if t.isPrefixOf cs then some (t, cs.drop t.length) else none
  char c cs := if cs.head? = some c then some (c, cs.tail) else none
  anyChar cs := cs.head?.map fun c => (c, cs.tail)
  takeUntil := splitAt?
  alt ps cs := ps.firstM fun p => p cs
  preceded p q cs := (p cs).bind fun r => q r.2
  pair p q cs := (p cs).bind fun r => (q r.2).map fun r' => ((r.1, r'.1), r'.2)
  triple p q o cs := (p cs).bind fun r => (q r.2).bind fun r' =>
    (o r'.2).map fun r'' => ((r.1, r'.1, r''.1), r''.2)
  value b p cs := (p cs).map fun r => (b, r.2)
  map p f cs := (p cs).map fun r => (f r.1, r.2)

end ParserKit

/-- Why a text is not scanned. -/
inductive ScanError where
  | malformed (e : RegexError)
  /-- None of the parsers finds a lexeme. -/
  | unexpectedInput (position : Nat)
  deriving DecidableEq, Repr

namespace ParserKit

variable (K : ParserKit)

/-! ## Lexemes -/

def escaped : Parser Char := K.preceded (K.char '\\') K.anyChar

/-- An opening parenthesis with its group prefix, the longer ones first. -/
def opening : Parser Unit := K.alt [
  K.value () (K.alt [K.tag ['(', '?', '<', '='], K.tag ['(', '?', '<', '!']]),
  K.value () (K.triple (K.tag ['(', '?', '<']) (K.takeUntil ['>']) (K.char '>')),
  K.value () (K.pair (K.tag ['(', '?']) K.anyChar),
  K.value () (K.char '(')]

def operator : Parser Operator := K.alt [
  K.value .alternation (K.char '|'),
  K.value .star (K.char '*'),
  K.value .plus (K.char '+'),
  K.value .optional (K.char '?')]

def lexeme : Parser Lexeme.Kind := K.alt [
  K.map K.escaped .literal,
  K.value .opening K.opening,
  K.value .closing (K.char ')'),
  K.map K.operator .operator,
  K.map K.anyChar .literal]

/-! ## The loop -/

/-- The lexemes that have been found, and the text behind them. -/
structure Progress where
  found : List Lexeme
  rest : List Char
  deriving DecidableEq, Repr

variable (text : List Char)

/-- One round of the loop gives the result, or what the next round starts with. -/
def round (now : Progress) : Except ScanError (List Lexeme) ⊕ Progress :=
  if now.rest.isEmpty then .inl (.ok now.found)
  else
    let position := Lexeme.byteCount text - Lexeme.byteCount now.rest
    if now.rest = ['\\'] then .inl (.error (.malformed (.danglingEscape position)))
    else
      match K.lexeme now.rest with
      | some (kind, remaining) => .inr ⟨now.found ++ [⟨kind, position⟩], remaining⟩
      | none => .inl (.error (.unexpectedInput position))

/-- The loop ends with the result after some rounds. -/
inductive Ends : Progress → Except ScanError (List Lexeme) → Prop
  | stop {now : Progress} {r : Except ScanError (List Lexeme)} :
      K.round text now = .inl r → Ends now r
  | next {now later : Progress} {r : Except ScanError (List Lexeme)} :
      K.round text now = .inr later → Ends later r → Ends now r

/-- The scanner returns the result for the text. -/
def Scans (text : String) (r : Except ScanError (List Lexeme)) : Prop :=
  K.Ends text.toList ⟨[], text.toList⟩ r

end ParserKit

end Kleene
