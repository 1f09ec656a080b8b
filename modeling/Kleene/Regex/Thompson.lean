import Kleene.Nfa.Algebra
import Kleene.Regex.Reading

/-!
# Automata for expressions

An expression becomes an automaton by giving every operator its automaton construction.  In the
checked form each construction has to find identifiers for its states, and the first one that does
not ends the evaluation.
-/

namespace Kleene

variable {σ : Type} [Ord σ]

/-- Expressions as automata. -/
def Nfa.algebra (σ : Type) [Ord σ] : Algebra σ (Nfa σ) where
  empty := Nfa.emptyWord []
  literal := Nfa.literal
  concat := Nfa.concat
  alternation := Nfa.union
  star := Nfa.star
  plus := Nfa.plus
  optional := Nfa.opt

def Postfix.toNfa (p : Postfix σ) : Except RegexError (Nfa σ) := p.evaluate (Nfa.algebra σ)

def Nfa.ofText (text : String) : Except RegexError (Nfa Char) := do
  let p ← Postfix.ofText text
  p.toNfa

/-! ## Checked forms -/

/-- Expressions as automata that may have run out of identifiers. -/
def Nfa.algebra? (σ : Type) [Ord σ] : Algebra σ (Except Misuse (Nfa σ)) where
  empty := .ok (Nfa.emptyWord [])
  literal a := .ok (Nfa.literal a)
  concat x y := do
    let a ← x
    let b ← y
    a.concat? b
  alternation x y := do
    let a ← x
    let b ← y
    a.union? b
  star x := x >>= Nfa.star?
  plus x := x >>= Nfa.plus?
  optional x := x >>= Nfa.opt?

/-- The automata waiting for an operator after one more token.  Missing operands are an error of the
expression, missing identifiers are not. -/
def Postfix.pushWithin? (values : List (Nfa σ)) (x : Token σ) :
    Except (Misuse ⊕ RegexError) (List (Nfa σ)) := do
  let results ← (push (Nfa.algebra? σ) (values.map .ok) x).mapError .inr
  (results.mapM id).mapError .inl

def Postfix.toNfaWithin? (p : Postfix σ) : Except (Misuse ⊕ RegexError) (Nfa σ) :=
  if p.isEmpty then .ok (Nfa.emptyWord [])
  else
    match p.foldlM pushWithin? [] with
    | .ok [n] => .ok n
    | .ok values => .error (.inr (.danglingOperands values.length))
    | .error e => .error e

def Nfa.ofTextWithin? (text : String) : Except (Misuse ⊕ RegexError) (Nfa Char) := do
  let p ← (Postfix.ofText text).mapError .inr
  p.toNfaWithin?

end Kleene
