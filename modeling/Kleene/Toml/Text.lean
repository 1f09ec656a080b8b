import Kleene.Toml.Scalar

/-!
# Quoted strings and blanks

Strings stand in single or double quotes, on one line, or over several lines in three
quotes at each end.  Backslashes escape only in double quotes.  All readers give what they
read and the rest of the text.
-/

namespace Kleene.Toml

/-- Characters that may stand in comments and strings: no control but the tabulator. -/
def isTextChar (c : Char) : Bool := c = '\t' || (' ' ≤ c && c ≠ '\x7f')

def isBlank (c : Char) : Bool := c = ' ' || c = '\t'

def skipBlanks (cs : List Char) : List Char := cs.dropWhile isBlank

/-- Skips blanks, ends of lines and comments. -/
def skipLines (inComment : Bool) : List Char → Option (List Char)
  | [] => some []
  | '\n' :: rest => skipLines false rest
  | '\r' :: '\n' :: rest => skipLines false rest
  | c :: rest =>
    if inComment then (if isTextChar c then skipLines true rest else none)
    else if c = '#' then skipLines true rest
    else if isBlank c then skipLines false rest
    else some (c :: rest)

/-- Skips blanks and a comment up to the end of the line, which has to come next. -/
def skipLine (inComment : Bool) : List Char → Option (List Char)
  | [] => some []
  | '\n' :: rest => some rest
  | '\r' :: '\n' :: rest => some rest
  | c :: rest =>
    if inComment then (if isTextChar c then skipLine true rest else none)
    else if c = '#' then skipLine true rest
    else if isBlank c then skipLine false rest
    else none

def codePoint? (ds : List Char) : Option Char :=
  (number? 16 ds).bind fun n => if n.isValidChar then some (Char.ofNat n) else none

def escaped? : Char → Option Char
  | 'b' => some '\x08'
  | 't' => some '\t'
  | 'n' => some '\n'
  | 'f' => some '\x0c'
  | 'r' => some '\r'
  | 'e' => some '\x1b'
  | '"' => some '"'
  | '\\' => some '\\'
  | _ => none

def escape? : List Char → Option (Char × List Char)
  | 'x' :: a :: b :: rest => (codePoint? [a, b]).map (·, rest)
  | 'u' :: a :: b :: c :: d :: rest => (codePoint? [a, b, c, d]).map (·, rest)
  | 'U' :: a :: b :: c :: d :: e :: f :: g :: h :: rest =>
    (codePoint? [a, b, c, d, e, f, g, h]).map (·, rest)
  | c :: rest => (escaped? c).map (·, rest)
  | [] => none

def prepend (c : Char) (r : Option (List Char × List Char)) : Option (List Char × List Char) :=
  r.map fun p => (c :: p.1, p.2)

/-- A string in single quotes, after the first one. -/
def literalString : List Char → Option (List Char × List Char)
  | [] => none
  | '\'' :: rest => some ([], rest)
  | c :: rest => if isTextChar c then prepend c (literalString rest) else none

/-- A string in three single quotes, after them.  Up to two more quotes at the end belong to
the string. -/
def literalLines : List Char → Option (List Char × List Char)
  | [] => none
  | '\'' :: '\'' :: '\'' :: '\'' :: '\'' :: rest => some (['\'', '\''], rest)
  | '\'' :: '\'' :: '\'' :: '\'' :: rest => some (['\''], rest)
  | '\'' :: '\'' :: '\'' :: rest => some ([], rest)
  | '\r' :: '\n' :: rest => prepend '\n' (literalLines rest)
  | c :: rest => if isTextChar c || c = '\n' then prepend c (literalLines rest) else none

/-- A string in double quotes, after the first one; `rounds` bounds the number of its
characters. -/
def basicString : (rounds : Nat) → List Char → Option (List Char × List Char)
  | 0, _ | _, [] => none
  | _ + 1, '"' :: rest => some ([], rest)
  | rounds + 1, '\\' :: rest => do
    let (c, rest) ← escape? rest
    prepend c (basicString rounds rest)
  | rounds + 1, c :: rest => if isTextChar c then prepend c (basicString rounds rest) else none

def skipSpace : List Char → List Char
  | '\n' :: rest => skipSpace rest
  | '\r' :: '\n' :: rest => skipSpace rest
  | c :: rest => if isBlank c then skipSpace rest else c :: rest
  | [] => []

/-- The text after a backslash at the end of a line and the blanks that follow it. -/
def joinedLine? (cs : List Char) : Option (List Char) :=
  match skipBlanks cs with
  | '\n' :: rest => some (skipSpace rest)
  | '\r' :: '\n' :: rest => some (skipSpace rest)
  | _ => none

/-- A string in three double quotes, after them; `rounds` bounds the number of its
characters. -/
def basicLines : (rounds : Nat) → List Char → Option (List Char × List Char)
  | 0, _ | _, [] => none
  | _ + 1, '"' :: '"' :: '"' :: '"' :: '"' :: rest => some (['"', '"'], rest)
  | _ + 1, '"' :: '"' :: '"' :: '"' :: rest => some (['"'], rest)
  | _ + 1, '"' :: '"' :: '"' :: rest => some ([], rest)
  | rounds + 1, '\r' :: '\n' :: rest => prepend '\n' (basicLines rounds rest)
  | rounds + 1, '\\' :: rest =>
    match joinedLine? rest with
    | some rest => basicLines rounds rest
    | none => do
      let (c, rest) ← escape? rest
      prepend c (basicLines rounds rest)
  | rounds + 1, c :: rest =>
    if isTextChar c || c = '\n' then prepend c (basicLines rounds rest) else none

/-- The text after an end of line that follows the opening quotes. -/
def skipFirstNewline : List Char → List Char
  | '\n' :: rest => rest
  | '\r' :: '\n' :: rest => rest
  | cs => cs

def line? : List Char → Option (String × List Char)
  | '"' :: rest => (basicString (rest.length + 1) rest).map fun p => (String.ofList p.1, p.2)
  | '\'' :: rest => (literalString rest).map fun p => (String.ofList p.1, p.2)
  | _ => none

def string? : List Char → Option (String × List Char)
  | '"' :: '"' :: '"' :: rest =>
    (basicLines (rest.length + 1) (skipFirstNewline rest)).map fun p => (String.ofList p.1, p.2)
  | '\'' :: '\'' :: '\'' :: rest =>
    (literalLines (skipFirstNewline rest)).map fun p => (String.ofList p.1, p.2)
  | cs => line? cs

end Kleene.Toml
