/-!
# Arguments

The arguments of the command line.  Options may stand before, between and after the
expression and the words; two hyphens end the options.
-/

namespace Kleene.CommandLine

inductive Mode where
  /-- Print the postfix form and the expression printed from it. -/
  | postfixForm
  | accept
  /-- Build the automata and report their sizes. -/
  | convert
  | eliminate
  | correct
  deriving DecidableEq, Repr

def Mode.words : Mode → List String
  | postfixForm => ["postfix", "p"]
  | accept => ["accept", "a"]
  | convert => ["convert", "c"]
  | eliminate => ["eliminate", "e"]
  | correct => ["correct", "x"]

/-- The mode that a word stands for, in capital or small letters. -/
def Mode.ofWord? (word : String) : Option Mode :=
  [postfixForm, accept, convert, eliminate, correct].find? fun mode => word.toLower ∈ mode.words

structure Arguments where
  regex : String
  words : List String := []
  mode : Mode := .convert
  config : Option String := none
  dot : Bool := false
  deriving DecidableEq, Repr

inductive Request where
  | run (args : Arguments)
  | help
  | version
  deriving DecidableEq, Repr

/-- Why arguments make no sense. -/
inductive UsageError where
  | unknownOption (arg : String)
  | repeatedOption (name : String)
  | missingValue (name : String)
  | unexpectedValue (name : String)
  | invalidMode (word : String)
  | missingExpression
  deriving DecidableEq, Repr

def UsageError.message : UsageError → String
  | unknownOption arg => "unknown option " ++ arg
  | repeatedOption name => "the option --" ++ name ++ " is given twice"
  | missingValue name => "the option --" ++ name ++ " needs a value"
  | unexpectedValue name => "the option --" ++ name ++ " takes no value"
  | invalidMode word => "Invalid mode: " ++ word
  | missingExpression => "the expression is missing"

/-- Arguments that have been read so far. -/
structure Parsed where
  /-- The arguments that are no options, last one first. -/
  positional : List String := []
  mode : Option Mode := none
  config : Option String := none
  dot : Bool := false

namespace Parsed

inductive Valued where
  | mode
  | config

def Valued.name : Valued → String
  | mode => "mode"
  | config => "config"

def setValue (p : Parsed) (option : Valued) (value : String) : Except UsageError Parsed :=
  match option with
  | .mode =>
    match Mode.ofWord? value with
    | none => .error (.invalidMode value)
    | some mode =>
      if p.mode.isSome then .error (.repeatedOption "mode") else .ok { p with mode := some mode }
  | .config =>
    if p.config.isSome then .error (.repeatedOption "config")
    else .ok { p with config := some value }

def setDot (p : Parsed) : Except UsageError Parsed :=
  if p.dot then .error (.repeatedOption "dot") else .ok { p with dot := true }

def finish (p : Parsed) : Except UsageError Request :=
  match p.positional.reverse with
  | [] => .error .missingExpression
  | regex :: words =>
    .ok (.run
      { regex := regex
        words := words
        mode := p.mode.getD .convert
        config := p.config
        dot := p.dot })

/-- What an argument says. -/
inductive Effect where
  | done (p : Parsed)
  /-- The value of the option is the next argument. -/
  | needsValue (option : Valued)
  /-- Nothing else counts. -/
  | stop (request : Request)

/-- The value that stands in the same argument as its option, or the need for one. -/
def attach (p : Parsed) (option : Valued) (value : Option (List Char)) :
    Except UsageError Effect :=
  match value with
  | some value => (p.setValue option (String.ofList value)).map .done
  | none => .ok (.needsValue option)

def long (p : Parsed) (text : List Char) : Except UsageError Effect :=
  let name := String.ofList (text.takeWhile (· ≠ '='))
  let value := if '=' ∈ text then some (text.drop (name.length + 1)) else none
  match name with
  | "mode" => p.attach .mode value
  | "config" => p.attach .config value
  | "dot" =>
    if value.isSome then .error (.unexpectedValue name) else p.setDot.map .done
  | "help" => if value.isSome then .error (.unexpectedValue name) else .ok (.stop .help)
  | "version" => if value.isSome then .error (.unexpectedValue name) else .ok (.stop .version)
  | _ => .error (.unknownOption ("--" ++ String.ofList text))

/-- The value in the rest of an argument after a short option; an equals sign before it does
not belong to it. -/
def shortValue : List Char → Option (List Char)
  | [] => none
  | '=' :: rest => some rest
  | cs => some cs

def short (p : Parsed) : List Char → Except UsageError Effect
  | 'm' :: rest => p.attach .mode (shortValue rest)
  | 'c' :: rest => p.attach .config (shortValue rest)
  | 'h' :: _ => .ok (.stop .help)
  | 'V' :: _ => .ok (.stop .version)
  | cs => .error (.unknownOption ("-" ++ String.ofList cs))

/-- Whether an argument is an option, or the end of the options. -/
def isOption (arg : String) : Bool :=
  match arg.toList with
  | '-' :: _ :: _ => true
  | _ => false

def read (p : Parsed) : List String → Except UsageError Request
  | [] => p.finish
  | arg :: rest => do
    let effect ←
      match arg.toList with
      | ['-', '-'] => return ← { p with positional := rest.reverse ++ p.positional }.finish
      | '-' :: '-' :: text => p.long text
      | '-' :: c :: text => p.short (c :: text)
      | _ => .ok (.done { p with positional := arg :: p.positional })
    match effect, rest with
    | .stop request, _ => return request
    | .done p, rest => read p rest
    | .needsValue option, [] => .error (.missingValue option.name)
    | .needsValue option, value :: rest =>
      if isOption value then .error (.missingValue option.name)
      else read (← p.setValue option value) rest

end Parsed

def Request.ofArguments (args : List String) : Except UsageError Request := Parsed.read {} args

end Kleene.CommandLine
