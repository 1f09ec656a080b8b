import Kleene.Elimination.Order
import Kleene.Elimination.TextCombiner
import Kleene.Elimination.PostfixCombiner

/-!
# Synthesis

An expression for the language of an automaton, as tokens or as text.  There is none if the
automaton accepts no word.
-/

namespace Kleene.Nfa

variable {σ : Type}

def texted [ToString σ] (n : Nfa σ) : Nfa String := n.mapLetters fun a => escape (toString a)

def annotated [Ord σ] (n : Nfa σ) : Nfa (Annotated σ) := n.mapLetters Annotated.literal

/-- An expression for the accepted words. -/
def synthesize [Ord σ] [DecidableEq σ] (n : Nfa σ) (order : EliminationOrder) :
    Option (Postfix σ) :=
  (n.annotated.expression (postfixCombiner σ) order).map Label.tokens

/-- The text of an expression for the accepted words, glued together from texts. -/
def synthesizeText [ToString σ] (n : Nfa σ) (order : EliminationOrder) : Option String :=
  (n.texted.expression textCombiner order).map TextCombiner.textOf

/-! ## Checked forms -/

/-- `synthesize`, for an automaton whose terminals can be isolated. -/
def synthesize? [Ord σ] [DecidableEq σ] (n : Nfa σ) (order : EliminationOrder) :
    Except Misuse (Option (Postfix σ)) := do
  n.requireIsolable
  return n.synthesize order

def synthesizeText? [Ord σ] [ToString σ] (n : Nfa σ) (order : EliminationOrder) :
    Except Misuse (Option String) := do
  n.requireIsolable
  return n.synthesizeText order

end Kleene.Nfa
