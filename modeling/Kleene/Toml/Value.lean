/-!
# Configuration values

The values of a configuration text, and how its lines fill the tree of tables.  A table
remembers how it came about, because that decides what may still be added to it: a table
with a header cannot get a second header or be extended by dotted keys, a table that dotted
keys go through cannot get a header, a table written inline cannot be extended at all, and a
key is given once.
-/

namespace Kleene.Toml

/-- How a table came about. -/
inductive Origin where
  /-- By its own header, or as the root. -/
  | header
  /-- On the way to a table with a header. -/
  | implied
  /-- On the way of a dotted key. -/
  | dotted
  | inline
  deriving DecidableEq, Repr

/-- A value.  Of numbers with a fraction and of dates only the kind is kept. -/
inductive Value where
  | string (text : String)
  | integer (n : Int)
  | float
  /-- A number that is too large for its kind.  It may stand in a text, but not be used. -/
  | outOfRange
  | boolean (b : Bool)
  | dateTime
  | array (items : List Value)
  /-- The tables under repeated headers. -/
  | tables (items : List (Origin × List (String × Value)))
  | table (origin : Origin) (entries : List (String × Value))

abbrev Entries := List (String × Value)

/-! ## Range -/

mutual

/-- Whether no number in the value is out of range. -/
def Value.inRange : Value → Bool
  | .outOfRange => false
  | .array items => itemsInRange items
  | .tables items => tablesInRange items
  | .table _ entries => entriesInRange entries
  | .string _ | .integer _ | .float | .boolean _ | .dateTime => true

def itemsInRange : List Value → Bool
  | [] => true
  | v :: vs => v.inRange && itemsInRange vs

def entriesInRange : List (String × Value) → Bool
  | [] => true
  | (_, v) :: es => v.inRange && entriesInRange es

def tablesInRange : List (Origin × List (String × Value)) → Bool
  | [] => true
  | (_, es) :: ts => entriesInRange es && tablesInRange ts

end

/-! ## Growth -/

namespace Entries

def replace (key : String) (v : Value) (es : Entries) : Entries :=
  es.map fun e => if e.1 = key then (key, v) else e

/-- Changes the table at the end of a path of keys.  Tables that are missing on the way are
made; arrays of tables are entered at their last table.  The tables that a dotted key goes
through belong to dotted keys from then on. -/
def modify (dotted : Bool) (edit : Origin → Entries → Option Entries) :
    List String → Origin → Entries → Option Entries
  | [], origin, es => edit origin es
  | key :: path, _, es =>
    match es.lookup key with
    | none =>
      let origin := if dotted then Origin.dotted else Origin.implied
      (modify dotted edit path origin []).map fun sub => es ++ [(key, .table origin sub)]
    | some (.table .inline _) => none
    | some (.table origin sub) =>
      if dotted && origin = .header then none
      else
        let origin := if dotted then Origin.dotted else origin
        (modify dotted edit path origin sub).map fun sub => es.replace key (.table origin sub)
    | some (.tables items) =>
      match items.getLast? with
      | none => none
      | some (origin, sub) =>
        (modify dotted edit path origin sub).map fun sub =>
          es.replace key (.tables (items.dropLast ++ [(origin, sub)]))
    | some _ => none

/-- Adds a value under a dotted key.  The table that a path leads to belongs to dotted keys,
which the last table of an array does not, and the last key is new. -/
def insert (path : List String) (key : String) (v : Value) (origin : Origin) (es : Entries) :
    Option Entries :=
  modify true
    (fun origin es =>
      if (origin = .dotted) = path.isEmpty || (es.lookup key).isSome then none
      else some (es ++ [(key, v)]))
    path origin es

def openTable (key : String) (_ : Origin) (es : Entries) : Option Entries :=
  match es.lookup key with
  | none => some (es ++ [(key, .table .header [])])
  | some (.table .implied sub) => some (es.replace key (.table .header sub))
  | some _ => none

def openNext (key : String) (_ : Origin) (es : Entries) : Option Entries :=
  match es.lookup key with
  | none => some (es ++ [(key, .tables [(.header, [])])])
  | some (.tables items) => some (es.replace key (.tables (items ++ [(.header, [])])))
  | some _ => none

end Entries

end Kleene.Toml
