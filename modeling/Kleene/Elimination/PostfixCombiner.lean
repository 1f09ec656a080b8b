import Kleene.Elimination.Combiner
import Kleene.Regex.Annotated
import Kleene.Regex.Application

/-!
# Labels as expressions

The labels are postfix expressions, so that quantifiers on quantifiers merge and no
parentheses have to be placed.
-/

namespace Kleene

namespace PostfixCombiner

variable {σ : Type}

/-- The choice between the loops, the latest first among equally long ones. -/
def loopChoice (loops : List (Annotated σ)) : Postfix σ :=
  loops.foldl (fun choice l => Postfix.apply .alternation [l.tokens, choice]) []

/-- The label of a path.  A way in or out that does the same as one round of the loops makes
the loops run at least once. -/
def path [DecidableEq σ] (pre : Label (Annotated σ)) (loops : List (Annotated σ))
    (post : Label (Annotated σ)) : Label (Annotated σ) :=
  let choice := loopChoice loops
  let plus := Postfix.apply .plus [choice]
  let star := Postfix.apply .star [choice]
  if pre.tokens = choice then Label.ofTokens (Postfix.apply .concat [plus, post.tokens])
  else if post.tokens = choice then Label.ofTokens (Postfix.apply .concat [pre.tokens, plus])
  else Label.ofTokens (Postfix.apply .concat [pre.tokens, star, post.tokens])

def choice (labels : List (Label (Annotated σ))) : Postfix σ :=
  labels.foldl
    (fun union l => if l.tokens.isEmpty then union else Postfix.apply .alternation [union, l.tokens])
    []

/-- The label of a choice, optional if one of the labels is empty. -/
def parallel (labels : List (Label (Annotated σ))) : Label (Annotated σ) :=
  if labels.any (·.tokens.isEmpty) then
    Label.ofTokens (Postfix.apply .optional [choice labels])
  else Label.ofTokens (choice labels)

def parallelText [ToString σ] (labels : List (Label (Annotated σ))) : String :=
  match parallel labels with
  | .symbol a => Postfix.display a.tokens
  | .epsilon => "ε"

/-! ## Checked application

The same labels, where every operator finds out whether it may be applied to its operands. -/

def loopChoice? (loops : List (Annotated σ)) : Except Misuse (Postfix σ) :=
  loops.foldlM (fun choice l => Postfix.checkedApply .alternation [l.tokens, choice]) []

def path? [DecidableEq σ] (pre : Label (Annotated σ)) (loops : List (Annotated σ))
    (post : Label (Annotated σ)) : Except Misuse (Label (Annotated σ)) := do
  let choice ← loopChoice? loops
  if pre.tokens = choice then
    let plus ← Postfix.checkedApply .plus [choice]
    return Label.ofTokens (← Postfix.checkedApply .concat [plus, post.tokens])
  else if post.tokens = choice then
    let plus ← Postfix.checkedApply .plus [choice]
    return Label.ofTokens (← Postfix.checkedApply .concat [pre.tokens, plus])
  else
    let star ← Postfix.checkedApply .star [choice]
    return Label.ofTokens (← Postfix.checkedApply .concat [pre.tokens, star, post.tokens])

def choice? (labels : List (Label (Annotated σ))) : Except Misuse (Postfix σ) :=
  labels.foldlM
    (fun union l =>
      if l.tokens.isEmpty then .ok union else Postfix.checkedApply .alternation [union, l.tokens])
    []

def parallel? (labels : List (Label (Annotated σ))) : Except Misuse (Label (Annotated σ)) := do
  let union ← choice? labels
  if labels.any (·.tokens.isEmpty) then
    return Label.ofTokens (← Postfix.checkedApply .optional [union])
  else return Label.ofTokens union

end PostfixCombiner

/-- Labels as expressions; the size of a label is its number of tokens. -/
def postfixCombiner (σ : Type) [DecidableEq σ] : Combiner (Annotated σ) where
  path := PostfixCombiner.path
  parallel := PostfixCombiner.parallel
  weight l := l.tokens.length

end Kleene
