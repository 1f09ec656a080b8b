import Kleene.Toml.Text

/-!
# Configuration texts

A text is a list of lines: a header opens a table, and `key = value` adds to the table
opened last.  `parse?` gives the root table, or nothing if the text is malformed.
-/

namespace Kleene.Toml

/-! ## Keys -/

def isKeyChar (c : Char) : Bool := c.isAlphanum || c = '_' || c = '-'

def simpleKey? (cs : List Char) : Option (String × List Char) :=
  match cs with
  | '"' :: _ | '\'' :: _ => line? cs
  | _ =>
    let key := cs.takeWhile isKeyChar
    if key.isEmpty then none else some (String.ofList key, cs.drop key.length)

/-- The number of parts that a key has at most, and of brackets that may be open at once. -/
def nestingLimit : Nat := 80

/-- The parts of a dotted key, of which there are at most `rounds`. -/
def dottedKey? : (rounds : Nat) → List Char → Option (List String × List Char)
  | 0, _ => none
  | rounds + 1, cs => do
    let (key, rest) ← simpleKey? (skipBlanks cs)
    match skipBlanks rest with
    | '.' :: rest => do
      let (keys, rest) ← dottedKey? rounds rest
      return (key :: keys, rest)
    | rest => return ([key], rest)

/-- The parts of a key: the path to its table, and the last part. -/
def key? (cs : List Char) : Option ((List String × String) × List Char) := do
  let (keys, rest) ← dottedKey? nestingLimit cs
  let last ← keys.getLast?
  return ((keys.dropLast, last), rest)

/-! ## Values -/

def isScalarChar (c : Char) : Bool :=
  c.isAlphanum || c = '_' || c = '-' || c = '+' || c = '.' || c = ':'

/-- A scalar.  A single blank may separate a date from a time. -/
def scalarText? (cs : List Char) : Option (Value × List Char) :=
  let text := cs.takeWhile isScalarChar
  let rest := cs.drop text.length
  match rest with
  | ' ' :: c :: _ =>
    if isDate text && c.isDigit then
      let time := (rest.drop 1).takeWhile isScalarChar
      (scalar? (text ++ ' ' :: time)).map (·, rest.drop (time.length + 1))
    else (scalar? text).map (·, rest)
  | _ => (scalar? text).map (·, rest)

mutual

/-- A value, in which at most `depth` brackets are open at once; `rounds` bounds the work. -/
def value? : (rounds depth : Nat) → List Char → Option (Value × List Char)
  | 0, _, _ => none
  | rounds + 1, depth, cs =>
    match cs, depth with
    | '"' :: _, _ | '\'' :: _, _ => (string? cs).map fun p => (.string p.1, p.2)
    | '[' :: rest, depth + 1 => (items? rounds depth rest).map fun p => (.array p.1, p.2)
    | '\x7b' :: rest, depth + 1 =>
      (inline? rounds depth [] rest).map fun p => (.table .inline p.1, p.2)
    | _, _ => scalarText? cs

def items? : (rounds depth : Nat) → List Char → Option (List Value × List Char)
  | 0, _, _ => none
  | rounds + 1, depth, cs => do
    match ← skipLines false cs with
    | ']' :: rest => return ([], rest)
    | cs => do
      let (v, rest) ← value? rounds depth cs
      match ← skipLines false rest with
      | ',' :: rest => do
        let (vs, rest) ← items? rounds depth rest
        return (v :: vs, rest)
      | ']' :: rest => return ([v], rest)
      | _ => none

/-- The rest of a table between braces.  Lines may end anywhere but within a key. -/
def inline? : (rounds depth : Nat) → Entries → List Char → Option (Entries × List Char)
  | 0, _, _, _ => none
  | rounds + 1, depth, es, cs => do
    match ← skipLines false cs with
    | '\x7d' :: rest => return (es, rest)
    | cs => do
      let ((path, key), rest) ← key? cs
      match ← skipLines false rest with
      | '=' :: rest => do
        let (v, rest) ← value? rounds depth (← skipLines false rest)
        let es ← es.insert path key v .inline
        match ← skipLines false rest with
        | ',' :: rest => inline? rounds depth es rest
        | '\x7d' :: rest => return (es, rest)
        | _ => none
      | _ => none

end

/-! ## Lines -/

/-- A text that is being read: the root table, and the path to the table opened last. -/
structure Document where
  root : Entries
  current : List String

/-- A header, after its opening brackets; `isArray` for a table of an array of tables. -/
def header? (d : Document) (isArray : Bool) (cs : List Char) : Option (Document × List Char) := do
  let ((path, key), rest) ← key? cs
  let opening := if isArray then Entries.openNext key else Entries.openTable key
  let root ← d.root.modify false opening path .header
  match isArray, rest with
  | true, ']' :: ']' :: rest => return (⟨root, path ++ [key]⟩, rest)
  | false, ']' :: rest => return (⟨root, path ++ [key]⟩, rest)
  | _, _ => none

def keyValue? (d : Document) (cs : List Char) : Option (Document × List Char) := do
  let ((path, key), rest) ← key? cs
  match rest with
  | '=' :: rest => do
    let (v, rest) ← value? (rest.length + 1) nestingLimit (skipBlanks rest)
    let root ← d.root.modify false (Entries.insert path key v) d.current .header
    return ({ d with root := root }, rest)
  | _ => none

/-- Reads all lines; `rounds` bounds their number. -/
def lines? : (rounds : Nat) → Document → List Char → Option Document
  | 0, _, _ => none
  | rounds + 1, d, cs => do
    let read : Option (Document × List Char) ←
      match ← skipLines false cs with
      | [] => return d
      | '[' :: '[' :: rest => pure (header? d true rest)
      | '[' :: rest => pure (header? d false rest)
      | cs => pure (keyValue? d cs)
    let (d, rest) ← read
    let rest ← skipLine false rest
    lines? rounds d rest

/-- The root table of a text; a byte order mark in front does not count. -/
def parse? (text : String) : Option Entries :=
  let cs := text.toList
  let cs := if cs.head? = some '\ufeff' then cs.drop 1 else cs
  (lines? (cs.length + 1) ⟨[], []⟩ cs).map Document.root

end Kleene.Toml
