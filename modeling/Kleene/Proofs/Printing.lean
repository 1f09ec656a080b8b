import Kleene.Proofs.TextLabels
import Kleene.Regex.Printing

/-!
# Printed expressions

An expression is printed as a phrase of the grammar that stands for this very expression, so
that reading it again gives back the same tokens.
-/

namespace Kleene

variable {σ α : Type}

/-- Expressions as their own tokens. -/
def tokenAlgebra (σ : Type) : Algebra σ (Postfix σ) where
  empty := []
  literal a := [.literal a]
  concat p q := p ++ (q ++ [.operator .concat])
  alternation p q := p ++ (q ++ [.operator .alternation])
  star p := p ++ [.operator .star]
  plus p := p ++ [.operator .plus]
  optional p := p ++ [.operator .optional]

namespace Postfix

theorem flatten_push {s t : List (Postfix σ)} {x : Token σ}
    (h : push (tokenAlgebra σ) s x = .ok t) : t.reverse.flatten = s.reverse.flatten ++ [x] := by
  cases x with
  | literal a =>
    cases h
    simp [tokenAlgebra]
  | operator op =>
    match s, op with
    | _ :: _, .star | _ :: _, .plus | _ :: _, .optional =>
      cases h
      simp [tokenAlgebra]
    | _ :: _ :: _, .concat | _ :: _ :: _, .alternation =>
      cases h
      simp [tokenAlgebra]
    | [], .concat | [], .alternation | [_], .concat | [_], .alternation => cases h
    | [], .star | [], .plus | [], .optional | _, .groupOpen | _, .groupClose => cases h

theorem flatten_foldlM_push {p : Postfix σ} {s t : List (Postfix σ)}
    (h : p.foldlM (push (tokenAlgebra σ)) s = .ok t) :
    t.reverse.flatten = s.reverse.flatten ++ p := by
  induction p generalizing s with
  | nil =>
    cases h
    rw [List.append_nil]
  | cons x p ih =>
    cases hs : push (tokenAlgebra σ) s x with
    | error e =>
      rw [List.foldlM_cons, hs] at h
      cases h
    | ok s' =>
      rw [foldlM_cons_of_ok hs] at h
      rw [ih h, flatten_push hs, List.append_assoc]
      rfl

-- An expression with a value is the value of its own tokens.
theorem evaluate_tokenAlgebra {A : Algebra σ α} {p : Postfix σ} {x : α}
    (h : p.evaluate A = .ok x) : p.evaluate (tokenAlgebra σ) = .ok p := by
  by_cases hnil : p = []
  · rw [hnil]
    rfl
  · have hrelated : (tokenAlgebra σ).Related A fun _ _ => True := by
      constructor <;> intros <;> trivial
    rcases exists_evaluate_of_related hrelated (fun _ => trivial) h with ⟨q, hq, -⟩
    have hflatten := flatten_foldlM_push ((evaluate_eq_ok_iff hnil).1 hq)
    have heq : q = p := by simpa using hflatten
    rw [hq, heq]

end Postfix

namespace Fragment

/-- The level of a fragment with the given outermost operator. -/
def levelOf : Option Operator → Level
  | none => .atom
  | some .alternation => .choice
  | some .concat => .row
  | some _ => .quantified

/-- The level that an operand must have to stand without parentheses. -/
def operandLevel : Operator → Bool → Level
  | .alternation, true => .row
  | .alternation, false => .choice
  | .concat, false => .row
  | _, _ => .quantified

/-- The fragment is a phrase that stands for the expression. -/
def Shows (f : Fragment) (p : Postfix Char) : Prop :=
  ∃ ks, f.text.toList = spell ks ∧ Derives (levelOf f.top) ks p

-- Whatever needs no parentheses holds together tightly enough.
theorem rank_le_of_not_needsGroup {f : Fragment} {op : Operator} {isLeft : Bool}
    (hop : op.arity ≠ 0) (h : f.needsGroup op isLeft = false) :
    (levelOf f.top).rank ≤ (operandLevel op isLeft).rank := by
  unfold needsGroup at h
  generalize f.top = top at h ⊢
  cases top with
  | none => exact Nat.zero_le _
  | some inner =>
    revert hop h
    cases inner <;> cases op <;> cases isLeft <;> decide

/-- An operand, in parentheses if it needs them, has the level that it must have. -/
theorem Shows.asOperand {f : Fragment} {p : Postfix Char} (h : f.Shows p) (op : Operator)
    (isLeft : Bool) (hop : op.arity ≠ 0) :
    ∃ ks, (f.asOperand op isLeft).toList = spell ks ∧ Derives (operandLevel op isLeft) ks p := by
  rcases h with ⟨ks, htext, hd⟩
  unfold Fragment.asOperand
  split
  · have hchoice : Derives .choice ks p := hd.weaken (by cases levelOf f.top <;> decide)
    refine ⟨_, ?_, hchoice.group.weaken (Nat.zero_le _)⟩
    rw [String.toList_append, String.toList_append, htext, spell_cons, spell_append,
      spell_singleton]
    rfl
  · rename_i hno
    exact ⟨ks, htext, hd.weaken (rank_le_of_not_needsGroup hop (Bool.eq_false_of_not_eq_true hno))⟩

/-- A quantifier stands behind what is quantified, and so does another one behind both. -/
theorem level_of_isQuantifier {op : Operator} (h : op.isQuantifier = true) :
    operandLevel op false = .quantified ∧ levelOf (some op) = .quantified ∧
      op.text.toList = (Lexeme.Kind.operator op).spelling := by
  cases op with
  | star | plus | optional => exact ⟨rfl, rfl, by decide⟩
  | _ => cases h

/-- A quantifier stands right behind its operand. -/
theorem Shows.quantified {f : Fragment} {p : Postfix Char} (h : f.Shows p) (op : Operator)
    (hop : op.isQuantifier = true) : (Fragment.quantified op f).Shows (p ++ [.operator op]) := by
  have hlevel := level_of_isQuantifier hop
  have harity : op.arity = 1 := of_decide_eq_true hop
  rcases h.asOperand op false (by omega) with ⟨ks, htext, hd⟩
  rw [hlevel.1] at hd
  refine ⟨ks ++ [.operator op], ?_, ?_⟩
  · show (f.asOperand op false ++ op.text).toList = _
    rw [String.toList_append, htext, hlevel.2.2, spell_append, spell_singleton]
  · show Derives (levelOf (some op)) _ _
    rw [hlevel.2.1]
    exact .quantify hd hop

theorem shows_related : (algebra Char).Related (tokenAlgebra Char) Shows where
  literal c := by
    refine ⟨[.literal c], ?_, .literal c⟩
    rw [spell_singleton]
    exact toList_escape_toString c
  concat f g p q hf hg := by
    rcases hf.asOperand .concat true (by decide) with ⟨ks, hleft, hd⟩
    rcases hg.asOperand .concat false (by decide) with ⟨ks', hright, hd'⟩
    refine ⟨ks ++ ks', ?_, .concat hd hd'⟩
    show (f.asOperand .concat true ++ "" ++ g.asOperand .concat false).toList = _
    rw [String.append_empty, String.toList_append, hleft, hright, spell_append]
  alternation f g p q hf hg := by
    rcases hf.asOperand .alternation true (by decide) with ⟨ks, hleft, hd⟩
    rcases hg.asOperand .alternation false (by decide) with ⟨ks', hright, hd'⟩
    refine ⟨_, ?_, .alternation hd hd'⟩
    show (f.asOperand .alternation true ++ "|" ++ g.asOperand .alternation false).toList = _
    rw [String.toList_append, String.toList_append, hleft, hright, spell_append, spell_cons,
      List.append_assoc]
    rfl
  star f p hf := hf.quantified .star rfl
  plus f p hf := hf.quantified .plus rfl
  optional f p hf := hf.quantified .optional rfl

end Fragment

/-- An expression is printed as a text that is read as the same expression. -/
theorem Postfix.Denotes.print {p : Postfix Char} {L : Language Char} (h : p.Denotes L) :
    ∃ text, p.print = .ok text ∧ Postfix.ofText text = .ok p := by
  unfold Postfix.print
  by_cases hnil : p = []
  · rw [hnil]
    exact ⟨"", rfl, TextCombiner.ofText_empty⟩
  · rcases exists_evaluate_of_related Fragment.shows_related (fun heq => absurd heq hnil)
      (evaluate_tokenAlgebra h) with ⟨f, hf, ks, htext, hd⟩
    have hchoice : Derives .choice ks p :=
      hd.weaken (by cases Fragment.levelOf f.top <;> decide)
    refine ⟨f.text, ?_, hchoice.ofText htext⟩
    rw [hf]
    rfl

namespace Postfix

/-- An expression that is printed describes a language. -/
theorem exists_denotes_of_print {p : Postfix Char} {text : String} (h : p.print = .ok text) :
    ∃ L, p.Denotes L := by
  rcases exists_of_map_eq_ok h with ⟨f, hf, -⟩
  have hrelated : (languageAlgebra Char).Related (Fragment.algebra Char) fun _ _ => True := by
    constructor <;> intros <;> trivial
  rcases exists_evaluate_of_related hrelated (fun _ => trivial) hf with ⟨L, hL, -⟩
  exact ⟨L, hL⟩

-- Reading undoes printing, whatever the tokens are.
theorem ofText_print {p : Postfix Char} {text : String} (h : p.print = .ok text) :
    ofText text = .ok p := by
  rcases exists_denotes_of_print h with ⟨L, hL⟩
  rcases hL.print with ⟨text', hprint, hread⟩
  rw [hprint] at h
  rw [← Except.ok.inj h]
  exact hread

/-- A letter that is a special character, in a group that a quantifier needs. -/
theorem ofText_print_star :
    print [.literal '*', .literal 'b', .operator .concat, .operator .star] = .ok "(\\*b)*" ∧
      ofText "(\\*b)*" = .ok [.literal '*', .literal 'b', .operator .concat, .operator .star] := by
  have hprint : print [.literal '*', .literal 'b', .operator .concat, .operator .star] =
      .ok "(\\*b)*" := by decide
  exact ⟨hprint, ofText_print hprint⟩

end Postfix

end Kleene
