import Kleene.Proofs.Changes
import Kleene.Proofs.ExpressionTrees
import Kleene.Proofs.Printing

/-!
# Shortest texts

A text that is read as an expression spends characters on the letters and operators, on a backslash
before each special character, and on two parentheses for every group; all else it can leave out.
The printer writes an operand in a group only if it is looser than its place allows.  Every text of
the expression has these groups, since the grammar has no other way to put the operand there, so the
printed text is the shortest one, and the only one of its length.
-/

namespace Kleene

open Lexeme (Kind)

variable {σ : Type} {outer outer' inner : Level} {ks ks' ks₁ ks₁' ks₂ ks₂' : List Kind}
  {p : Postfix Char}

/-! ## Counting groups -/

/-- How many groups the lexemes open. -/
def openings (ks : List Kind) : Nat := ks.count .opening

@[simp] theorem openings_append (ks ks' : List Kind) :
    openings (ks ++ ks') = openings ks + openings ks' := List.count_append

@[simp] theorem openings_nil : openings [] = 0 := rfl

@[simp] theorem openings_literal (c : Char) (ks : List Kind) :
    openings (.literal c :: ks) = openings ks := by simp [openings]

@[simp] theorem openings_operator (op : Operator) (ks : List Kind) :
    openings (.operator op :: ks) = openings ks := by simp [openings]

/-- The lexemes as a group. -/
def inGroup (ks : List Kind) : List Kind := .opening :: (ks ++ [.closing])

@[simp] theorem openings_inGroup (ks : List Kind) : openings (inGroup ks) = openings ks + 1 := by
  simp [openings, inGroup]

/-- The second lexemes are the first ones, or they open more groups. -/
def Spares (ks ks' : List Kind) : Prop := ks' = ks ∨ openings ks < openings ks'

theorem Spares.le (h : Spares ks ks') : openings ks ≤ openings ks' := by
  rcases h with rfl | h
  · exact Nat.le_refl _
  · exact h.le

theorem Spares.append (h₁ : Spares ks₁ ks₁') (h₂ : Spares ks₂ ks₂') :
    Spares (ks₁ ++ ks₂) (ks₁' ++ ks₂') := by
  have hle₁ := h₁.le
  have hle₂ := h₂.le
  rcases h₁ with rfl | h₁
  · rcases h₂ with rfl | h₂
    · exact .inl rfl
    · exact .inr (by simp only [openings_append]; omega)
  · exact .inr (by simp only [openings_append]; omega)

theorem Spares.grouped (h : Spares ks ks') : Spares (inGroup ks) (inGroup ks') := by
  rcases h with rfl | h
  · exact .inl rfl
  · exact .inr (by simp only [openings_inGroup]; omega)

/-! ## The lexemes of a tree -/

/-- The lexemes of a phrase in a place for another level: a group if the phrase is looser. -/
def placed (outer inner : Level) (ks : List Kind) : List Kind :=
  if inner.rank ≤ outer.rank then ks else inGroup ks

theorem derives_placed (h : Derives inner ks p) (outer : Level) :
    Derives outer (placed outer inner ks) p := by
  unfold placed
  split
  · rename_i hle
    exact h.weaken hle
  · have hchoice : Derives .choice ks p := h.weaken (by cases inner <;> decide)
    exact hchoice.group.weaken (Nat.zero_le _)

/-- In a looser place no more groups are needed. -/
theorem Spares.loosen (h : Spares (placed outer inner ks) ks')
    (hle : outer.rank ≤ outer'.rank) : Spares (placed outer' inner ks) ks' := by
  unfold placed at h ⊢
  split at h
  · rename_i hinner
    rwa [if_pos (hinner.trans hle)]
  · split
    · have hopenings := h.le
      rw [openings_inGroup] at hopenings
      exact .inr hopenings
    · exact h

/-- A group around a phrase for any place. -/
theorem Spares.placed_atom (h : Spares (placed .choice inner ks) ks') :
    Spares (placed .atom inner ks) (inGroup ks') := by
  have hchoice : placed .choice inner ks = ks := if_pos (by cases inner <;> decide)
  rw [hchoice] at h
  unfold placed
  split
  · have hopenings := h.le
    exact .inr (by rw [openings_inGroup]; omega)
  · exact h.grouped

namespace Expression

/-- The operator at the root of the tree. -/
def top : Expression σ → Option Operator
  | literal _ => none
  | concat _ _ => some .concat
  | alternation _ _ => some .alternation
  | star _ => some .star
  | plus _ => some .plus
  | optional _ => some .optional

/-- How tightly the tree holds together. -/
def level (e : Expression σ) : Level := Fragment.levelOf e.top

/-- The lexemes of the tree, with groups around the operands that are too loose for their places. -/
def lexemes : Expression Char → List Kind
  | literal c => [.literal c]
  | concat e f => placed .quantified e.level e.lexemes ++ placed .row f.level f.lexemes
  | alternation e f => placed .row e.level e.lexemes ++
      .operator .alternation :: placed .choice f.level f.lexemes
  | star e => placed .quantified e.level e.lexemes ++ [.operator .star]
  | plus e => placed .quantified e.level e.lexemes ++ [.operator .plus]
  | optional e => placed .quantified e.level e.lexemes ++ [.operator .optional]

/-- The lexemes of the tree are a phrase for its tokens. -/
theorem derives (e : Expression Char) : Derives e.level e.lexemes e.postorder := by
  induction e with
  | literal c => exact .literal c
  | concat e f ihe ihf => exact .concat (derives_placed ihe _) (derives_placed ihf _)
  | alternation e f ihe ihf => exact .alternation (derives_placed ihe _) (derives_placed ihf _)
  | star e ih | plus e ih | optional e ih => exact .quantify (derives_placed ih _) rfl

end Expression

/-! ## No phrase has fewer groups -/

/-- A phrase is that of a tree, or it opens more groups. -/
theorem Derives.exists_spares {level : Level} (h : Derives level ks p) :
    ∃ e : Expression Char, p = e.postorder ∧ Spares (placed level e.level e.lexemes) ks := by
  induction h with
  | literal c => exact ⟨.literal c, rfl, .inl rfl⟩
  | group _ ih =>
    -- either the tree has this group as well, or it is one too many
    obtain ⟨e, he, hspares⟩ := ih
    exact ⟨e, he, hspares.placed_atom⟩
  | atom _ ih | quantified _ ih | row _ ih =>
    -- the same phrase in a looser place
    obtain ⟨e, he, hspares⟩ := ih
    exact ⟨e, he, hspares.loosen (by decide)⟩
  | @quantify ks p op _ hop ih =>
    obtain ⟨e, rfl, he⟩ := ih
    have hsign : Spares [.operator op] [.operator op] := .inl rfl
    cases op with
    | star => exact ⟨.star e, rfl, he.append hsign⟩
    | plus => exact ⟨.plus e, rfl, he.append hsign⟩
    | optional => exact ⟨.optional e, rfl, he.append hsign⟩
    | _ => cases hop
  | concat _ _ ih ih' =>
    obtain ⟨e, rfl, he⟩ := ih
    obtain ⟨f, rfl, hf⟩ := ih'
    exact ⟨.concat e f, rfl, he.append hf⟩
  | alternation _ _ ih ih' =>
    obtain ⟨e, rfl, he⟩ := ih
    obtain ⟨f, rfl, hf⟩ := ih'
    have hsign : Spares [.operator .alternation] [.operator .alternation] := .inl rfl
    exact ⟨.alternation e f, rfl, he.append (hsign.append hf)⟩

/-! ## What characters are spent on -/

/-- The lexeme that a token is written as; a concatenation is not written. -/
def Token.lexeme : Token Char → Kind
  | literal c => .literal c
  | operator op => .operator op

/-- How many characters the tokens need without any group. -/
def Postfix.width (p : Postfix Char) : Nat := (spell (p.map Token.lexeme)).length

@[simp] theorem Postfix.width_append (p q : Postfix Char) : width (p ++ q) = p.width + q.width := by
  simp [width]

@[simp] theorem Postfix.width_literal (c : Char) :
    width [.literal c] = (Kind.literal c).spelling.length := by
  simp [width, Token.lexeme]

@[simp] theorem Postfix.width_operator (op : Operator) :
    width [.operator op] = (Kind.operator op).spelling.length := by
  simp [width, Token.lexeme]

theorem length_spell_inGroup (ks : List Kind) :
    (spell (inGroup ks)).length = (spell ks).length + 2 := by
  simp [inGroup, Kind.spelling]

/-- A phrase is spelled with the characters of its tokens and two parentheses for every group. -/
theorem Derives.length_spell {level : Level} (h : Derives level ks p) :
    (spell ks).length = p.width + 2 * openings ks := by
  induction h with
  | literal c => simp
  | @group ks p _ ih =>
    have hspell := length_spell_inGroup ks
    have hopenings := openings_inGroup ks
    unfold inGroup at hspell hopenings
    omega
  | atom _ ih | quantified _ ih | row _ ih => exact ih
  | quantify _ _ ih =>
    simp only [spell_append, spell_singleton, List.length_append, Postfix.width_append,
      Postfix.width_operator, openings_append, openings_operator, openings_nil]
    omega
  | concat _ _ ih ih' =>
    have hsign : (Kind.operator .concat).spelling.length = 0 := rfl
    simp only [spell_append, List.length_append, Postfix.width_append, Postfix.width_operator,
      openings_append]
    omega
  | alternation _ _ ih ih' =>
    simp only [spell_append, spell_cons, List.length_append, Postfix.width_append,
      Postfix.width_operator, openings_append, openings_operator]
    omega

theorem spelling_literal_sublist (c : Char) : (Kind.literal c).spelling.Sublist ['\\', c] := by
  show (escapeChars [c]).Sublist _
  unfold escapeChars
  rw [List.flatMap_cons, List.flatMap_nil, List.append_nil]
  split
  · exact .refl _
  · exact List.sublist_cons_self _ _

/-- A character that is a lexeme of its own is how this lexeme is spelled. -/
theorem spelling_kindOfChar {c : Char} (hslash : c ≠ '\\') (hopen : c ≠ '(') :
    (Lexeme.kindOfChar c).spelling = [c] := by
  unfold Lexeme.kindOfChar
  split
  · rfl
  · rfl
  · rfl
  · rfl
  · rfl
  · rename_i hclosing hbar hstar hplus hoptional
    have hplain : c ∉ specialCharacters := by
      simp only [specialCharacters, List.mem_cons, List.not_mem_nil, or_false, not_or]
      exact ⟨hslash, hopen, hclosing, hbar, hstar, hplus, hoptional⟩
    show escapeChars [c] = [c]
    simp [escapeChars, hplain]

/-- What the lexemes of a text are spelled with is the text without needless backslashes and without
the prefixes of groups. -/
theorem Lexeme.spell_sublist {pos : Nat} {cs : List Char} {ls : List Lexeme}
    (h : scanFrom pos cs = .ok ls) : (spell (ls.map kind)).Sublist cs := by
  fun_induction scanFrom pos cs generalizing ls with
  | case1 =>
    cases h
    exact .slnil
  | case2 => cases h
  | case3 pos c rest ih =>
    obtain ⟨ls, hls, rfl⟩ := exists_of_map_eq_ok h
    exact (spelling_literal_sublist c).append (ih hls)
  | case4 pos rest n =>
    rename_i ih
    obtain ⟨ls, hls, rfl⟩ := exists_of_map_eq_ok h
    exact ((ih hls).trans (List.drop_sublist n rest)).cons_cons '('
  | case5 pos c rest hslash hslash' hopen ih =>
    obtain ⟨ls, hls, rfl⟩ := exists_of_map_eq_ok h
    have hne := ne_backslash hslash hslash'
    rw [List.map_cons, spell_cons, spelling_kindOfChar hne hopen]
    exact (ih hls).cons_cons c

/-! ## Printing -/

-- Exactly what is too loose for its place is put in parentheses.
theorem Fragment.needsGroup_eq_false_iff {f : Fragment} {op : Operator} (isLeft : Bool)
    (hop : op.arity ≠ 0) (htop : ∀ inner ∈ f.top, inner.arity ≠ 0) :
    f.needsGroup op isLeft = false ↔
      (levelOf f.top).rank ≤ (operandLevel op isLeft).rank := by
  refine ⟨rank_le_of_not_needsGroup hop, fun h => ?_⟩
  unfold needsGroup
  generalize f.top = top at htop h ⊢
  cases top with
  | none => rfl
  | some inner =>
    have hinner := htop inner rfl
    revert hop hinner h
    cases inner <;> cases op <;> cases isLeft <;> decide

namespace Expression

theorem top_fold [ToString σ] (e : Expression σ) : (e.fold (Fragment.algebra σ)).top = e.top := by
  cases e <;> rfl

theorem arity_top (e : Expression σ) : ∀ op ∈ e.top, op.arity ≠ 0 := by
  cases e <;> simp [top, Operator.arity]

/-- The text of an operand spells its lexemes in their place. -/
theorem toList_asOperand {e : Expression Char}
    (h : (e.fold (Fragment.algebra Char)).text.toList = spell e.lexemes) (op : Operator)
    (isLeft : Bool) (hop : op.arity ≠ 0) :
    ((e.fold (Fragment.algebra Char)).asOperand op isLeft).toList =
      spell (placed (Fragment.operandLevel op isLeft) e.level e.lexemes) := by
  have hneeds := Fragment.needsGroup_eq_false_iff isLeft hop (e.top_fold.symm ▸ e.arity_top)
  rw [top_fold] at hneeds
  unfold Fragment.asOperand placed level
  by_cases hplace : (Fragment.levelOf e.top).rank ≤ (Fragment.operandLevel op isLeft).rank
  · rw [if_pos hplace, if_neg (Bool.eq_false_iff.1 (hneeds.2 hplace))]
    exact h
  · have htrue := Bool.eq_true_of_not_eq_false fun hfalse => hplace (hneeds.1 hfalse)
    rw [if_neg hplace, if_pos htrue, String.toList_append, String.toList_append, h, inGroup,
      spell_cons, spell_append, spell_singleton]
    rfl

/-- The text of a quantified operand. -/
theorem toList_quantified {e : Expression Char}
    (h : (e.fold (Fragment.algebra Char)).text.toList = spell e.lexemes) {op : Operator}
    (hop : op.isQuantifier = true) :
    (Fragment.quantified op (e.fold (Fragment.algebra Char))).text.toList =
      spell (placed .quantified e.level e.lexemes ++ [.operator op]) := by
  obtain ⟨hlevel, -, hsign⟩ := Fragment.level_of_isQuantifier hop
  have harity : op.arity = 1 := of_decide_eq_true hop
  have hoperand := toList_asOperand h op false (by omega)
  rw [hlevel] at hoperand
  rw [spell_append, spell_singleton, ← hoperand, ← hsign]
  exact String.toList_append

/-- The printed text of a tree spells its lexemes. -/
theorem toList_fold (e : Expression Char) :
    (e.fold (Fragment.algebra Char)).text.toList = spell e.lexemes := by
  induction e with
  | literal c =>
    show (escape (toString c)).toList = spell [.literal c]
    rw [toList_escape_toString, spell_singleton]
  | concat e f ihe ihf =>
    have hleft := toList_asOperand ihe .concat true (by decide)
    have hright := toList_asOperand ihf .concat false (by decide)
    rw [lexemes, spell_append]
    show (Fragment.asOperand _ .concat true ++ "" ++ Fragment.asOperand _ .concat false).toList = _
    rw [String.append_empty, String.toList_append, hleft, hright]
    rfl
  | alternation e f ihe ihf =>
    have hleft := toList_asOperand ihe .alternation true (by decide)
    have hright := toList_asOperand ihf .alternation false (by decide)
    rw [lexemes, spell_append, spell_cons]
    show (Fragment.asOperand _ .alternation true ++ "|" ++
      Fragment.asOperand _ .alternation false).toList = _
    rw [String.toList_append, String.toList_append, hleft, hright, List.append_assoc]
    rfl
  | star e ih | plus e ih | optional e ih => exact toList_quantified ih rfl

end Expression

namespace Postfix

variable {text : String}

/-- Tokens that are printed are those of a tree, and the text spells the lexemes of the tree. -/
theorem exists_tree_of_print (hp : p ≠ []) (h : p.print = .ok text) :
    ∃ e : Expression Char, p = e.postorder ∧ text.toList = spell e.lexemes := by
  obtain ⟨f, hf, rfl⟩ := exists_of_map_eq_ok h
  obtain ⟨e, rfl, rfl⟩ := (evaluate_eq_ok_iff_exists_tree hp).1 hf
  exact ⟨e, rfl, e.toList_fold⟩

/-- The lexemes of any text of a tree are those of the tree, or they open more groups. -/
theorem spares_of_ofLexemes {e : Expression Char} {ls : List Lexeme}
    (hls : ∀ l ∈ ls, l.kind.Written) (h : ofLexemes ls = .ok e.postorder) :
    Derives .choice (ls.map Lexeme.kind) e.postorder ∧
      Spares e.lexemes (ls.map Lexeme.kind) := by
  obtain ⟨t, ht⟩ := Derivation.exists_of_evaluate hls h e.postorder_ne_nil
    (e.evaluate_postorder (tokenAlgebra Char))
  have hd := t.derives
  rw [ht] at hd
  rw [Except.ok.inj (hd.ofLexemes.symm.trans h)] at hd
  obtain ⟨e', he', hspares⟩ := hd.exists_spares
  obtain rfl := Expression.postorder_injective he'
  have hplaced : placed .choice e.level e.lexemes = e.lexemes :=
    if_pos (by cases e.level <;> decide)
  rw [hplaced] at hspares
  exact ⟨hd, hspares⟩

/-- No text of a tree has fewer groups or characters than the lexemes of the tree need, and only one
has no more characters. -/
theorem bounds_of_ofText {e : Expression Char} (htext : text.toList = spell e.lexemes)
    {other : String} (h : ofText other = .ok e.postorder) :
    ∃ ls, Lexeme.scan other = .ok ls ∧ openings e.lexemes ≤ openings (ls.map Lexeme.kind) ∧
      text.length ≤ other.length ∧ (other.length = text.length → other = text) := by
  unfold ofText at h
  obtain ⟨ls, hscan, hread⟩ := exists_of_bind_eq_ok h
  obtain ⟨hd, hspares⟩ := spares_of_ofLexemes (Lexeme.written_of_scanFrom hscan) hread
  have hsub := Lexeme.spell_sublist hscan
  have hopenings := hspares.le
  have hwidth := e.derives.length_spell
  have hwidth' := hd.length_spell
  have hlength := hsub.length_le
  have heq : text.length = (spell e.lexemes).length := by rw [← String.length_toList, htext]
  rw [String.length_toList] at hlength
  refine ⟨ls, hscan, hopenings, by omega, fun hsame => ?_⟩
  have hspell : spell (ls.map Lexeme.kind) = other.toList :=
    hsub.eq_of_length (by rw [String.length_toList]; omega)
  have hkinds : ls.map Lexeme.kind = e.lexemes := hspares.resolve_right (by omega)
  rw [← String.toList_inj, ← hspell, hkinds, htext]

/-- What all texts of an expression have at least is what the printed text has. -/
theorem bounds_of_print (h : p.print = .ok text) {ls : List Lexeme}
    (hscan : Lexeme.scan text = .ok ls) {other : String} (hother : ofText other = .ok p) :
    ∃ ls', Lexeme.scan other = .ok ls' ∧
      openings (ls.map Lexeme.kind) ≤ openings (ls'.map Lexeme.kind) ∧
      text.length ≤ other.length ∧ (other.length = text.length → other = text) := by
  by_cases hp : p = []
  · obtain rfl := hp
    obtain rfl : "" = text := Except.ok.inj h
    obtain rfl : [] = ls := Except.ok.inj ((Lexeme.scanFrom.eq_1 0).symm.trans hscan)
    unfold ofText at hother
    obtain ⟨ls', hscan', -⟩ := exists_of_bind_eq_ok hother
    exact ⟨ls', hscan', Nat.zero_le _, Nat.zero_le _, String.length_eq_zero_iff.1⟩
  · obtain ⟨e, rfl, htext⟩ := exists_tree_of_print hp h
    obtain ⟨ls₀, hscan₀, hkinds⟩ :=
      Lexeme.exists_scan_of_spelling (htext ▸ e.derives.spelling_spell)
    obtain rfl : ls₀ = ls := Except.ok.inj (hscan₀.symm.trans hscan)
    rw [hkinds]
    exact bounds_of_ofText htext hother

/-- An expression is printed as a text that is read as this expression.  All texts that are read so
open at least as many groups and have at least as many characters, and those with as many are this
text.  Nothing can be left out of it, be it a group, a backslash or any other characters. -/
theorem print_shortest (h : p.print = .ok text) :
    ofText text = .ok p ∧ ∃ ls, Lexeme.scan text = .ok ls ∧
      (∀ other, ofText other = .ok p → ∃ ls', Lexeme.scan other = .ok ls' ∧
        openings (ls.map Lexeme.kind) ≤ openings (ls'.map Lexeme.kind) ∧
        text.length ≤ other.length ∧ (other.length = text.length → other = text)) ∧
      ∀ other, other.toList.Sublist text.toList → other ≠ text → ofText other ≠ .ok p := by
  obtain ⟨L, hL⟩ := exists_denotes_of_print h
  obtain ⟨text', htext', hread⟩ := hL.print
  obtain rfl : text' = text := Except.ok.inj (htext'.symm.trans h)
  obtain ⟨ls, hscan, -⟩ := exists_of_bind_eq_ok (show Lexeme.scan text' >>= _ = .ok p from hread)
  refine ⟨hread, ls, hscan, fun other hother => bounds_of_print h hscan hother,
    fun other hsub hne hother => hne ?_⟩
  -- what is left has no more characters, so it would be the same text
  obtain ⟨-, -, -, hle, heq⟩ := bounds_of_print h hscan hother
  have hlength := hsub.length_le
  rw [String.length_toList, String.length_toList] at hlength
  exact heq (hlength.antisymm hle)

/-- A letter with a backslash, in a group that a quantifier needs: without the parentheses the star
would stand behind the last letter only. -/
theorem print_shortest_star :
    print [.literal '*', .literal 'b', .operator .concat, .operator .star] = .ok "(\\*b)*" ∧
      (∀ other, ofText other = .ok [.literal '*', .literal 'b', .operator .concat,
        .operator .star] → 6 ≤ other.length ∧ (other.length = 6 → other = "(\\*b)*")) ∧
      ofText "\\*b*" ≠ .ok [.literal '*', .literal 'b', .operator .concat, .operator .star] := by
  have hprint : print [.literal '*', .literal 'b', .operator .concat, .operator .star] =
      .ok "(\\*b)*" := by decide
  obtain ⟨-, ls, -, hbounds, hleft⟩ := print_shortest hprint
  refine ⟨hprint, fun other hother => ?_, hleft "\\*b*" (by decide) (by decide)⟩
  obtain ⟨-, -, -, hle, heq⟩ := hbounds other hother
  exact ⟨hle, heq⟩

end Postfix

end Kleene
