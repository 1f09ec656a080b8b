import Kleene.Config.LogLevel
import Kleene.Elimination.Order
import Kleene.Toml.Document

/-!
# Settings

What a user can choose, in four sections, and how it is read from a configuration text.
Every key may be missing and then has its default.  Keys that mean nothing are ignored if no
number in their values is out of range.
-/

namespace Kleene

structure ConversionSettings where
  complete : Bool := false
  minimize : Bool := true
  deriving DecidableEq, Repr

structure EliminationSettings where
  order : EliminationOrder := .heuristic
  /-- Start from the smallest deterministic automaton. -/
  fromMinimized : Bool := true
  /-- Compare the synthesized expression with the given one on all words up to this length. -/
  verifyWordLength : Option Nat := some 6
  deriving DecidableEq, Repr

structure CorrectionSettings where
  /-- Add the transitions of the alignment to the automaton. -/
  materialize : Bool := true
  fromMinimized : Bool := false
  deriving DecidableEq, Repr

structure LoggerSettings where
  enabled : Bool := false
  logFile : Bool := false
  logLevel : LogLevel := .warn
  deriving DecidableEq, Repr

structure Settings where
  conversion : ConversionSettings := {}
  elimination : EliminationSettings := {}
  correction : CorrectionSettings := {}
  logger : LoggerSettings := {}
  deriving DecidableEq, Repr

inductive SettingsError where
  | malformed
  /-- The value of a key has a wrong type or is out of range. -/
  | wrongValue (key : String)
  deriving DecidableEq, Repr

def SettingsError.message : SettingsError → String
  | malformed => "malformed configuration text"
  | wrongValue key => "wrong value for the key " ++ key

namespace EliminationOrder

def name : EliminationOrder → String
  | heuristic => "Heuristic"
  | ascending => "Ascending"

def ofName? (name : String) : Option EliminationOrder :=
  [heuristic, ascending].find? (·.name = name)

end EliminationOrder

namespace Settings

open Toml (Value Entries)

/-! ## Reading values -/

/-- The value of a key, read by `read?`, or the default. -/
def valueOf {α : Type} (es : Entries) (key : String) (default : α) (read? : Value → Option α) :
    Except SettingsError α :=
  match es.lookup key with
  | none => .ok default
  | some v =>
    match read? v with
    | some a => .ok a
    | none => .error (.wrongValue key)

def boolean? : Value → Option Bool
  | .boolean b => some b
  | _ => none

/-- A length of words: a number without sign, of at most 64 bits. -/
def length? : Value → Option (Option Nat)
  | .integer n => if 0 ≤ n ∧ n < 0x10000000000000000 then some (some n.toNat) else none
  | _ => none

/-- A choice by name: a string, or a table with the name as its only key and nothing in it. -/
def named? {α : Type} (ofName? : String → Option α) : Value → Option α
  | .string name => ofName? name
  | .table _ [(name, .table _ [])] => ofName? name
  | .table _ [(name, .array [])] => ofName? name
  | _ => none

/-- The entries of a section: a table, or a list of the values in the order of their keys, of
which surplus ones are not looked at.  A date stands for a section that has no known key. -/
def section? (keys : List String) : Value → Option Entries
  | .table _ es => some es
  | .array items => some (keys.zip items)
  | .tables items => some (keys.zip (items.map fun t => .table t.1 t.2))
  | .dateTime => some []
  | _ => none

/-- Ignores the entries with other keys than the given ones. -/
def ignoreOthers (keys : List String) (es : Entries) : Except SettingsError Unit :=
  match es.find? fun e => !(keys.contains e.1 || e.2.inRange) with
  | none => .ok ()
  | some (key, _) => .error (.wrongValue key)

/-! ## Reading sections -/

def conversionKeys : List String := ["complete", "minimize"]

def eliminationKeys : List String := ["order", "from_minimized", "verify_word_length"]

def correctionKeys : List String := ["materialize", "from_minimized"]

def loggerKeys : List String := ["enabled", "log_file", "log_level"]

def sectionKeys : List String := ["conversion", "elimination", "correction", "logger"]

def conversionOf (es : Entries) : Except SettingsError ConversionSettings := do
  let defaults : ConversionSettings := {}
  ignoreOthers conversionKeys es
  let complete ← valueOf es "complete" defaults.complete boolean?
  let minimize ← valueOf es "minimize" defaults.minimize boolean?
  return ⟨complete, minimize⟩

def eliminationOf (es : Entries) : Except SettingsError EliminationSettings := do
  let defaults : EliminationSettings := {}
  ignoreOthers eliminationKeys es
  let order ← valueOf es "order" defaults.order (named? EliminationOrder.ofName?)
  let fromMinimized ← valueOf es "from_minimized" defaults.fromMinimized boolean?
  let length ← valueOf es "verify_word_length" defaults.verifyWordLength length?
  return ⟨order, fromMinimized, length⟩

def correctionOf (es : Entries) : Except SettingsError CorrectionSettings := do
  let defaults : CorrectionSettings := {}
  ignoreOthers correctionKeys es
  let materialize ← valueOf es "materialize" defaults.materialize boolean?
  let fromMinimized ← valueOf es "from_minimized" defaults.fromMinimized boolean?
  return ⟨materialize, fromMinimized⟩

def loggerOf (es : Entries) : Except SettingsError LoggerSettings := do
  let defaults : LoggerSettings := {}
  ignoreOthers loggerKeys es
  let enabled ← valueOf es "enabled" defaults.enabled boolean?
  let logFile ← valueOf es "log_file" defaults.logFile boolean?
  let logLevel ← valueOf es "log_level" defaults.logLevel (named? LogLevel.ofName?)
  return ⟨enabled, logFile, logLevel⟩

/-- The section under a key, or no entries if it is missing. -/
def sectionOf (es : Entries) (key : String) (keys : List String) : Except SettingsError Entries :=
  valueOf es key [] (section? keys)

def ofEntries (es : Entries) : Except SettingsError Settings := do
  ignoreOthers sectionKeys es
  let conversion ← conversionOf (← sectionOf es "conversion" conversionKeys)
  let elimination ← eliminationOf (← sectionOf es "elimination" eliminationKeys)
  let correction ← correctionOf (← sectionOf es "correction" correctionKeys)
  let logger ← loggerOf (← sectionOf es "logger" loggerKeys)
  return ⟨conversion, elimination, correction, logger⟩

def ofTextBy {α : Type} (read : Entries → Except SettingsError α) (text : String) :
    Except SettingsError α :=
  match Toml.parse? text with
  | some es => read es
  | none => .error .malformed

def ofText (text : String) : Except SettingsError Settings := ofTextBy ofEntries text

end Settings

end Kleene
