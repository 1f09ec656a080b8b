/-!
# Log levels

How much a program says about what it does.
-/

namespace Kleene

/-- A log level, from the most to the least talkative. -/
inductive LogLevel where
  | debug
  | info
  | warn
  | error
  deriving DecidableEq, Repr

structure UnknownLogLevel where
  word : String
  deriving DecidableEq, Repr

def UnknownLogLevel.message (e : UnknownLogLevel) : String := "Invalid log level: " ++ e.word

namespace LogLevel

def all : List LogLevel := [debug, info, warn, error]

def name : LogLevel → String
  | debug => "Debug"
  | info => "Info"
  | warn => "Warn"
  | error => "Error"

def shortName : LogLevel → String
  | debug => "DBG"
  | info => "INF"
  | warn => "WAR"
  | error => "ERR"

/-- The name of the most talkative events that are still shown. -/
def threshold : LogLevel → String
  | debug => "DEBUG"
  | info => "INFO"
  | warn => "WARN"
  | error => "ERROR"

def words : LogLevel → List String
  | debug => ["debug", "dbg"]
  | info => ["info", "inf"]
  | warn => ["warn", "warning", "war"]
  | error => ["error", "err"]

/-- The level that a word stands for, in capital or small letters.  The words consist of
ASCII letters only, and no other letter has one of theirs as its small letter. -/
def ofWord (word : String) : Except UnknownLogLevel LogLevel :=
  match all.find? fun level => word.toLower ∈ level.words with
  | some level => .ok level
  | none => .error ⟨word⟩

def ofName? (name : String) : Option LogLevel := all.find? (·.name = name)

end LogLevel

end Kleene
