import Kleene.CommandLine.Arguments
import Kleene.Drawing.Dot
import Kleene.Report.Fields
import Kleene.Text.Quoted

/-!
# Runs of the command line

A run reads its settings, does what its mode says, and answers with texts for the standard
output and the error output and an exit code.
-/

namespace Kleene.CommandLine

inductive FileError where
  | notFound
  | other (message : String)
  deriving DecidableEq, Repr

def FileError.message : FileError → String
  | notFound => "No such file or directory (os error 2)"
  | other message => message

inductive RunError where
  | file (e : FileError)
  | settings (e : SettingsError)
  | regex (e : RegexError)
  deriving DecidableEq, Repr

def RunError.message : RunError → String
  | file e => e.message
  | settings e => e.message
  | regex e => e.message

structure Printed where
  out : List String := []
  err : List String := []
  deriving DecidableEq, Repr

instance : Append Printed := ⟨fun p q => ⟨p.out ++ q.out, p.err ++ q.err⟩⟩

def line (s : String) : Printed := { out := [s ++ "\n"] }

def note (s : String) : Printed := { err := [s ++ "\n"] }

def concatPrinted (ps : List Printed) : Printed := ps.foldl (· ++ ·) {}

structure Outcome where
  code : Nat
  out : String
  err : String
  deriving DecidableEq, Repr

/-! ## Modes -/

/-- The postfix form of an expression, and the expression printed from it. -/
def runPostfix (s : Settings) (args : Arguments) : Except RegexError Printed := do
  let c ← s.compile args.regex
  let text ← c.expression.print
  return line c.expression.text ++ line text

def verdict (r : AcceptReport) : String :=
  if !r.isConsistent then "inconsistent" else if r.nfa then "accepted" else "rejected"

def runAccept (s : Settings) (args : Arguments) : Except RegexError Printed := do
  let c ← s.compile args.regex
  let reports := args.words.map c.accepts
  let printed := reports.map fun r =>
    note (quoted r.word ++ ": " ++ verdict r) ++ line r.toJson.pretty
  let drawing := if args.dot then line c.finalDfa.view.dot else {}
  return concatPrinted printed ++ drawing

def runConvert (s : Settings) (args : Arguments) : Except RegexError Printed := do
  let report ← s.report args.regex
  let c ← s.compile args.regex
  let drawing := if args.dot then line c.nfa.view.dot ++ line c.finalDfa.view.dot else {}
  return line report.toJson.pretty ++ drawing

def runEliminate (s : Settings) (args : Arguments) : Except RegexError Printed := do
  let report ← s.report args.regex
  let summary :=
    match report.synthesized with
    | none => "The language is empty"
    | some text => if report.equivalent = some false then text ++ " (not equivalent)" else text
  return note summary ++ line report.toJson.pretty

def distanceText (r : CorrectionReport) : String :=
  match r.distance with
  | some 0 => "accepted"
  | some n => "distance " ++ toString n
  | none => "no match possible"

/-- The corrections of all words.  Without words the expression is not even read. -/
def runCorrect (s : Settings) (args : Arguments) : Except RegexError Printed := do
  let reports ← args.words.mapM (s.correct args.regex)
  return concatPrinted <| reports.map fun r =>
    note (quoted r.word ++ ": " ++ distanceText r) ++ line r.toJson.pretty

def runMode (s : Settings) (args : Arguments) : Except RegexError Printed :=
  match args.mode with
  | .postfixForm => runPostfix s args
  | .accept => runAccept s args
  | .convert => runConvert s args
  | .eliminate => runEliminate s args
  | .correct => runCorrect s args

/-! ## Runs -/

/-- The settings in the configuration file, if one is named. -/
def settingsOf (readFile : String → Except FileError String) (config : Option String) :
    Except RunError Settings :=
  match config with
  | none => .ok {}
  | some name => do
    let text ← (readFile name).mapError .file
    (Settings.ofText text).mapError .settings

def runWith (readFile : String → Except FileError String) (args : Arguments) :
    Except RunError Printed := do
  let settings ← settingsOf readFile args.config
  (runMode settings args).mapError .regex

def helpText : String :=
  "Convert between regexes and finite automata\n\n"
    ++ "Usage: kleene [OPTIONS] <REGEX> [WORDS]...\n\n"
    ++ "Arguments:\n"
    ++ "  <REGEX>\n"
    ++ "  [WORDS]...  Input words for the accept and correct modes\n\n"
    ++ "Options:\n"
    ++ "  -m, --mode <MODE>      postfix, accept, convert, eliminate or correct [default: convert]\n"
    ++ "  -c, --config <CONFIG>  Configuration file\n"
    ++ "      --dot              Print the relevant automaton in the graphviz DOT format\n"
    ++ "  -h, --help             Print help\n"
    ++ "  -V, --version          Print version\n"

def versionText : String := "Regex Automata Tool 0.1\n"

/-- A run of the command line: 0 is success, 1 a failure and 2 a wrong use. -/
def run (readFile : String → Except FileError String) (args : List String) : Outcome :=
  match Request.ofArguments args with
  | .error e => ⟨2, "", "error: " ++ e.message ++ "\n"⟩
  | .ok .help => ⟨0, helpText, ""⟩
  | .ok .version => ⟨0, versionText, ""⟩
  | .ok (.run args) =>
    match runWith readFile args with
    | .error e => ⟨1, "", "Error: " ++ e.message ++ "\n"⟩
    | .ok printed => ⟨0, String.join printed.out, String.join printed.err⟩

end Kleene.CommandLine
