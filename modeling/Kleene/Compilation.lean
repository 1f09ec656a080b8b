import Kleene.Comparison.Difference
import Kleene.Config.Settings
import Kleene.Correction.Alignment
import Kleene.Dfa.Minimal
import Kleene.Dfa.Subset
import Kleene.Drawing.Snapshot
import Kleene.Elimination.Synthesis
import Kleene.Regex.Thompson

/-!
# From expressions to automata and back

An expression is compiled into automata, an expression is synthesized from one of them and
compared with the given one, and words are tried on all of them or corrected.  The settings
decide which automata are built and which one is taken.
-/

namespace Kleene

/-- The automata of an expression. -/
structure Compilation where
  expression : Postfix Char
  nfa : Nfa Char
  dfa : Dfa Char
  /-- Present if the settings ask for it. -/
  minimized : Option (Dfa Char)
  deriving DecidableEq, Repr

/-- An account of the compilation of an expression and of its synthesis. -/
structure CompilationReport where
  regex : String
  postfixForm : String
  reconstructed : String
  nfaStates : Nat
  nfaTransitions : Nat
  dfaStates : Nat
  dfaComplete : Bool
  minimizedStates : Option Nat
  /-- The synthesized expression, if any word is accepted. -/
  synthesized : Option String
  /-- Whether the synthesized expression agrees with the given one on all words up to the
  length in the settings, if there is one. -/
  equivalent : Option Bool
  deriving DecidableEq, Repr

structure AcceptReport where
  word : String
  nfa : Bool
  dfa : Bool
  minimized : Option Bool
  deriving DecidableEq, Repr

def AcceptReport.isConsistent (r : AcceptReport) : Bool :=
  r.nfa = r.dfa && r.minimized.all (· = r.nfa)

structure CorrectionReport where
  word : String
  distance : Option Nat
  entryCost : Nat
  steps : List (AlignmentStep Char)
  corrected : Option Snapshot
  correctedAccepts : Option Bool
  deriving DecidableEq, Repr

namespace Compilation

def ofText (settings : ConversionSettings) (regex : String) : Except RegexError Compilation := do
  let p ← Postfix.ofText regex
  let nfa ← p.toNfa
  let dfa := nfa.toDfa settings.complete
  return ⟨p, nfa, dfa, if settings.minimize then some dfa.minimize else none⟩

/-- The smallest deterministic automaton that was built. -/
def finalDfa (c : Compilation) : Dfa Char := c.minimized.getD c.dfa

/-- The automaton to start from: the smallest deterministic one, or the one built from the
expression. -/
def source (c : Compilation) (fromMinimized : Bool) : Nfa Char :=
  if fromMinimized then c.finalDfa.toNfa else c.nfa

def synthesize (c : Compilation) (settings : EliminationSettings) : Option (Postfix Char) :=
  (c.source settings.fromMinimized).synthesize settings.order

def accepts (c : Compilation) (word : String) : AcceptReport :=
  let w := word.toList
  ⟨word, c.nfa.accepts w, c.dfa.accepts w, c.minimized.map (·.accepts w)⟩

def correct (c : Compilation) (settings : CorrectionSettings) (word : String) :
    CorrectionReport :=
  let n := c.source settings.fromMinimized
  match n.correct word.toList with
  | none => ⟨word, none, 0, [], none, none⟩
  | some fixed =>
    let al := fixed.alignment
    let corrected := if settings.materialize then some fixed.nfa else none
    ⟨word, some al.distance, al.entryCost, al.steps, corrected.map (·.view.snapshot),
      corrected.map (·.accepts word.toList)⟩

end Compilation

namespace Settings

def compile (s : Settings) (regex : String) : Except RegexError Compilation :=
  Compilation.ofText s.conversion regex

/-- Compiles an expression, synthesizes one and compares both. -/
def report (s : Settings) (regex : String) : Except RegexError CompilationReport := do
  let c ← s.compile regex
  let synthesized := c.synthesize s.elimination
  let again ←
    match synthesized with
    | some p => p.toNfa
    | none => .ok (Nfa.nothing [])
  let equivalent := s.elimination.verifyWordLength.map (c.nfa.recognizer.agrees again.recognizer)
  let text ←
    match synthesized with
    | some p => p.print.map some
    | none => .ok none
  let reconstructed ← c.expression.print
  return {
    regex := regex
    postfixForm := c.expression.text
    reconstructed := reconstructed
    nfaStates := c.nfa.stateCount
    nfaTransitions := c.nfa.transitionCount
    dfaStates := c.dfa.stateCount
    dfaComplete := c.dfa.isComplete
    minimizedStates := c.minimized.map Dfa.stateCount
    synthesized := text
    equivalent := equivalent }

def accepts (s : Settings) (regex word : String) : Except RegexError AcceptReport := do
  let c ← s.compile regex
  return c.accepts word

def correct (s : Settings) (regex word : String) : Except RegexError CorrectionReport := do
  let c ← s.compile regex
  return c.correct s.correction word

end Settings

end Kleene
