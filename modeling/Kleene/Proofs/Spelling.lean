import Kleene.Proofs.Grammar
import Kleene.Elimination.TextCombiner

/-!
# Spelling lexemes

A text spells lexemes if scanning it gives them, whatever follows.  A literal may have a backslash
before it even if it needs none, but no group has a prefix, so that spellings can be put behind each
other.  Phrases of the grammar have a spelling with a backslash before the special characters among
the literals and nowhere else.  In any spelling an alternation shows outside all parentheses exactly
if the phrase is a choice.
-/

namespace Kleene

variable {level : Level} {ks ks' : List Lexeme.Kind} {cs cs' : List Char} {p : Postfix Char}

/-! ## Spellings -/

/-- The characters spell lexemes of these kinds. -/
inductive Spelling : List Lexeme.Kind → List Char → Prop
  | nil : Spelling [] []
  | escaped {ks : List Lexeme.Kind} {cs : List Char} (c : Char) :
      Spelling ks cs → Spelling (.literal c :: ks) ('\\' :: c :: cs)
  | char {ks : List Lexeme.Kind} {cs : List Char} {c : Char} : c ≠ '\\' → c ≠ '(' →
      Spelling ks cs → Spelling (Lexeme.kindOfChar c :: ks) (c :: cs)
  | opening {ks : List Lexeme.Kind} {cs : List Char} {d : Char} : d ≠ '?' →
      Spelling ks (d :: cs) → Spelling (.opening :: ks) ('(' :: d :: cs)

namespace Spelling

theorem append (h : Spelling ks cs) (h' : Spelling ks' cs') :
    Spelling (ks ++ ks') (cs ++ cs') := by
  induction h with
  | nil => exact h'
  | escaped c _ ih => exact .escaped c ih
  | char hslash hopen _ ih => exact .char hslash hopen ih
  | opening hd _ ih => exact .opening hd ih

/-- A character that is a lexeme of its own. -/
theorem single (c : Char) (hslash : c ≠ '\\') (hopen : c ≠ '(') :
    Spelling [Lexeme.kindOfChar c] [c] := .char hslash hopen .nil

end Spelling

/-- A phrase starts with a literal or with a group. -/
theorem Derives.exists_head (h : Derives level ks p) :
    ∃ k ks', ks = k :: ks' ∧ (k = .opening ∨ ∃ c, k = .literal c) := by
  induction h with
  | literal c => exact ⟨_, _, rfl, .inr ⟨c, rfl⟩⟩
  | group => exact ⟨_, _, rfl, .inl rfl⟩
  | atom _ ih | quantified _ ih | row _ ih => exact ih
  | quantify _ _ ih | concat _ _ ih _ | alternation _ _ ih _ =>
    rcases ih with ⟨k, ks', rfl, hk⟩
    exact ⟨k, _, rfl, hk⟩

/-- No phrase is spelled with a question mark in front. -/
theorem Derives.exists_head_spelling (h : Derives level ks p) (hs : Spelling ks cs) :
    ∃ d cs', cs = d :: cs' ∧ d ≠ '?' := by
  rcases h.exists_head with ⟨k, ks', rfl, hk⟩
  cases hs with
  | escaped c => exact ⟨_, _, rfl, by decide⟩
  | opening => exact ⟨_, _, rfl, by decide⟩
  | @char _ cs c =>
    refine ⟨c, cs, rfl, ?_⟩
    rintro rfl
    rcases hk with hk | ⟨c, hk⟩ <;> cases hk

/-- A phrase in parentheses. -/
theorem Spelling.group (hs : Spelling ks cs) (h : Derives level ks p) :
    Spelling (.opening :: (ks ++ [.closing])) ('(' :: (cs ++ [')'])) := by
  rcases h.exists_head_spelling hs with ⟨d, cs', rfl, hd⟩
  exact .opening hd (hs.append (.single ')' (by decide) (by decide)))

/-! ## Backslashes where they are needed -/

/-- How a lexeme is spelled. -/
def Lexeme.Kind.spelling : Lexeme.Kind → List Char
  | .literal c => escapeChars [c]
  | .opening => ['(']
  | .closing => [')']
  | .operator op => op.symbol?.toList

/-- How lexemes in a row are spelled. -/
def spell (ks : List Lexeme.Kind) : List Char := ks.flatMap Lexeme.Kind.spelling

@[simp] theorem spell_nil : spell [] = [] := rfl

@[simp] theorem spell_cons (k : Lexeme.Kind) (ks : List Lexeme.Kind) :
    spell (k :: ks) = k.spelling ++ spell ks := rfl

@[simp] theorem spell_singleton (k : Lexeme.Kind) : spell [k] = k.spelling := by
  rw [spell_cons, spell_nil, List.append_nil]

@[simp] theorem spell_append (ks ks' : List Lexeme.Kind) :
    spell (ks ++ ks') = spell ks ++ spell ks' := List.flatMap_append

theorem spelling_literal (c : Char) : Spelling [.literal c] (Lexeme.Kind.literal c).spelling := by
  have hspelling : (Lexeme.Kind.literal c).spelling =
      if c ∈ specialCharacters then ['\\', c] else [c] := by
    show escapeChars [c] = _
    unfold escapeChars
    rw [List.flatMap_cons, List.flatMap_nil, List.append_nil]
  rw [hspelling]
  by_cases hc : c ∈ specialCharacters
  · rw [if_pos hc]
    exact .escaped c .nil
  · have hne : ∀ d ∈ specialCharacters, c ≠ d := fun d hd heq => hc (heq ▸ hd)
    have hkind : Lexeme.kindOfChar c = .literal c := by
      unfold Lexeme.kindOfChar
      split <;> first | rfl | exact absurd rfl (hne _ (by decide))
    rw [if_neg hc, ← hkind]
    exact .single c (hne _ (by decide)) (hne _ (by decide))

/-- A character that is escaped by itself. -/
theorem toList_escape_toString (c : Char) :
    (escape (toString c)).toList = (Lexeme.Kind.literal c).spelling := by
  unfold escape
  rw [String.toList_ofList]
  exact congrArg escapeChars (String.toList_singleton c)

theorem spelling_quantifier {op : Operator} (h : op.isQuantifier = true) :
    Spelling [.operator op] (Lexeme.Kind.operator op).spelling := by
  cases op with
  | star => exact .single '*' (by decide) (by decide)
  | plus => exact .single '+' (by decide) (by decide)
  | optional => exact .single '?' (by decide) (by decide)
  | _ => cases h

theorem spelling_alternation : Spelling [.operator .alternation] ['|'] :=
  .single '|' (by decide) (by decide)

/-- Phrases are spelled with backslashes where they are needed. -/
theorem Derives.spelling_spell (h : Derives level ks p) : Spelling ks (spell ks) := by
  induction h with
  | literal c =>
    rw [spell_singleton]
    exact spelling_literal c
  | group h ih =>
    rw [spell_cons, spell_append]
    exact ih.group h
  | atom _ ih | quantified _ ih | row _ ih => exact ih
  | quantify _ hop ih =>
    rw [spell_append, spell_singleton]
    exact ih.append (spelling_quantifier hop)
  | concat _ _ ih ih' =>
    rw [spell_append]
    exact ih.append ih'
  | alternation _ _ ih ih' =>
    rw [spell_append]
    exact ih.append (spelling_alternation.append ih')

/-! ## Scanning -/

namespace Lexeme

variable {pos : Nat} {rest : List Char}

theorem groupPrefixLength_eq_zero (h : rest.head? ≠ some '?') : groupPrefixLength rest = 0 := by
  unfold groupPrefixLength
  split <;> first | rfl | exact absurd rfl h

theorem scanFrom_opening (h : rest.head? ≠ some '?') :
    scanFrom pos ('(' :: rest) =
      (scanFrom (pos + byteCount ['(']) rest).map (⟨.opening, pos⟩ :: ·) := by
  rw [scanFrom.eq_4, groupPrefixLength_eq_zero h]
  rfl

-- A character that is a lexeme of its own.
theorem scanFrom_of_kindOfChar {c : Char} (hslash : c ≠ '\\') (hopen : c ≠ '(') :
    scanFrom pos (c :: rest) =
      (scanFrom (pos + byteCount [c]) rest).map (⟨kindOfChar c, pos⟩ :: ·) := by
  rw [scanFrom.eq_5]
  · exact fun heq => absurd heq hslash
  · exact fun _ _ heq => absurd heq hslash
  · exact fun heq => absurd heq hopen

/-- A backslash is never scanned by itself: it escapes what follows, or nothing follows. -/
theorem ne_backslash {c : Char} (hlast : c = '\\' → rest = [] → False)
    (hescape : ∀ d rest', c = '\\' → rest = d :: rest' → False) : c ≠ '\\' := by
  intro hc
  cases rest with
  | nil => exact hlast hc rfl
  | cons d rest => exact hescape d rest hc rfl

/-- Scanning a spelling gives the lexemes that it spells. -/
theorem exists_scanFrom_of_spelling (h : Spelling ks cs) (pos : Nat) :
    ∃ ls, scanFrom pos cs = .ok ls ∧ ls.map kind = ks := by
  induction h generalizing pos with
  | nil => exact ⟨[], scanFrom.eq_1 pos, rfl⟩
  | @escaped ks cs c _ ih =>
    rcases ih (pos + byteCount ['\\', c]) with ⟨ls, hscan, rfl⟩
    refine ⟨⟨.literal c, pos⟩ :: ls, ?_, rfl⟩
    rw [scanFrom.eq_3, hscan]
    rfl
  | @char ks cs c hslash hopen _ ih =>
    rcases ih (pos + byteCount [c]) with ⟨ls, hscan, rfl⟩
    refine ⟨⟨kindOfChar c, pos⟩ :: ls, ?_, rfl⟩
    rw [scanFrom_of_kindOfChar hslash hopen, hscan]
    rfl
  | @opening ks cs d hd _ ih =>
    rcases ih (pos + byteCount ['(']) with ⟨ls, hscan, rfl⟩
    refine ⟨⟨.opening, pos⟩ :: ls, ?_, rfl⟩
    have hbare : (d :: cs).head? ≠ some '?' := fun heq => hd (Option.some.inj heq)
    rw [scanFrom_opening hbare, hscan]
    rfl

theorem exists_scan_of_spelling {text : String} (h : Spelling ks text.toList) :
    ∃ ls, scan text = .ok ls ∧ ls.map kind = ks := exists_scanFrom_of_spelling h 0

end Lexeme

/-- The text of a phrase is read as the expression that the phrase is derived for. -/
theorem Derives.ofText_of_spelling {text : String} (h : Derives .choice ks p)
    (htext : Spelling ks text.toList) : Postfix.ofText text = .ok p := by
  rcases Lexeme.exists_scan_of_spelling htext with ⟨ls, hscan, rfl⟩
  unfold Postfix.ofText
  rw [hscan]
  exact h.ofLexemes

theorem Derives.ofText {text : String} (h : Derives .choice ks p)
    (htext : text.toList = spell ks) : Postfix.ofText text = .ok p :=
  h.ofText_of_spelling (htext ▸ h.spelling_spell)

/-! ## Alternations outside all parentheses -/

/-- Whether an alternation stands outside all parentheses, after `depth` open ones. -/
def alternationShown : Nat → List Lexeme.Kind → Bool
  | _, [] => false
  | depth, .opening :: ks => alternationShown (depth + 1) ks
  | depth, .closing :: ks => alternationShown (depth - 1) ks
  | depth, .operator .alternation :: ks => depth = 0 || alternationShown depth ks
  | depth, _ :: ks => alternationShown depth ks

/-- Nothing inside a phrase shows outside, unless it is a choice outside all parentheses. -/
theorem Derives.alternationShown_append (h : Derives level ks p) {depth : Nat}
    (hdepth : level = .choice → depth ≠ 0) (rest : List Lexeme.Kind) :
    alternationShown depth (ks ++ rest) = alternationShown depth rest := by
  induction h generalizing depth rest with
  | literal c => rfl
  | @group ks p _ ih =>
    have hinner := @ih (depth + 1) (fun _ => Nat.succ_ne_zero depth) (.closing :: rest)
    show alternationShown (depth + 1) ((ks ++ [.closing]) ++ rest) = _
    rw [List.append_assoc]
    exact hinner
  | atom _ ih | quantified _ ih | row _ ih => exact ih (fun hlevel => by cases hlevel) rest
  | @quantify ks p op _ hop ih =>
    rw [List.append_assoc, ih fun hlevel => by cases hlevel]
    cases op with
    | star | plus | optional => rfl
    | _ => cases hop
  | concat _ _ ih ih' =>
    rw [List.append_assoc, ih fun hlevel => by cases hlevel]
    exact ih' (fun hlevel => by cases hlevel) rest
  | @alternation ks ks' p q _ _ ih ih' =>
    rw [List.append_assoc, ih fun hlevel => by cases hlevel]
    show (decide (depth = 0) || alternationShown depth (ks' ++ rest)) = _
    rw [decide_eq_false (hdepth rfl), Bool.false_or]
    exact ih' (fun _ => hdepth rfl) rest

namespace TextCombiner

/-- A character that is a lexeme of its own counts in the text as it does among the lexemes. -/
theorem alternationOutside_kindOfChar {c : Char} (hslash : c ≠ '\\') (hopen : c ≠ '(')
    (hrest : ∀ depth, alternationOutside depth false cs = alternationShown depth ks) (depth : Nat) :
    alternationOutside depth false (c :: cs) =
      alternationShown depth (Lexeme.kindOfChar c :: ks) := by
  rw [alternationOutside, if_neg Bool.false_ne_true, if_neg hslash, if_neg hopen, hrest, hrest]
  by_cases hclosing : c = ')'
  · rw [if_pos hclosing, hclosing]
    rfl
  · rw [if_neg hclosing]
    by_cases hbar : c = '|'
    · rw [hbar]
      cases depth <;> rfl
    · rw [if_neg fun h => hbar h.1]
      unfold Lexeme.kindOfChar
      split <;> first | rfl | contradiction

/-- An alternation stands outside all parentheses of a text if it does so among the lexemes. -/
theorem alternationOutside_of_spelling (h : Spelling ks cs) (depth : Nat) :
    alternationOutside depth false cs = alternationShown depth ks := by
  induction h generalizing depth with
  | nil => rfl
  | escaped c _ ih => exact ih depth
  | opening _ _ ih => exact ih (depth + 1)
  | char hslash hopen _ ih => exact alternationOutside_kindOfChar hslash hopen ih depth

/-- A choice whose text has no alternation outside all parentheses is a single row. -/
theorem row_of_not_hasTopLevelAlternation {text : String} (h : Derives .choice ks p)
    (htext : Spelling ks text.toList) (hno : hasTopLevelAlternation text = false) :
    Derives .row ks p := by
  cases h with
  | row h => exact h
  | @alternation ks ks' p q h h' =>
    unfold hasTopLevelAlternation at hno
    rw [alternationOutside_of_spelling htext,
      h.alternationShown_append fun hlevel => by cases hlevel] at hno
    cases hno

end TextCombiner

end Kleene
