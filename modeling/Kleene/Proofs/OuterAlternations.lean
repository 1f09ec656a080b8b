import Kleene.Proofs.GroupPrefixes
import Kleene.Proofs.ReadingFaults
import Kleene.Proofs.Spelling

/-!
# Alternations outside all pairs of parentheses

Counting parentheses character by character finds out whether an alternation stands outside all
pairs of parentheses, but it takes the characters of a group prefix for characters like any other.
The count is right as long as the parentheses in every prefix match each other.
-/

namespace Kleene

open Lexeme (Kind Leads Cut CutAt nest)

/-! ## Among the lexemes -/

/-- The lexeme stands between an opening parenthesis and its counterpart. -/
def Enclosed (front : List Lexeme) (l : Lexeme) (back : List Lexeme) : Prop :=
  ∃ before o inner inner' c after, front = before ++ o :: inner ∧ back = inner' ++ c :: after ∧
    o.kind = .opening ∧ c.kind = .closing ∧ Balanced (inner ++ l :: inner')

/-- Some alternation stands outside all pairs of parentheses. -/
def HasOuterAlternation (ls : List Lexeme) : Prop :=
  ∃ front l back, ls = front ++ l :: back ∧ l.kind = .operator .alternation ∧
    ¬ Enclosed front l back

variable {ls front back : List Lexeme} {l : Lexeme} {s t : List Nat}

/-- A lexeme stands in a pair of parentheses if one is open in front of it. -/
theorem enclosed_iff_hasOpening (h : Balanced (front ++ l :: back)) (hopening : l.kind ≠ .opening)
    (hclosing : l.kind ≠ .closing) : Enclosed front l back ↔ HasOpening front := by
  constructor
  · rintro ⟨before, o, inner, inner', c, after, rfl, -, ho, -, hinner⟩
    obtain ⟨s, hs, -⟩ := exists_of_foldlM_append (h.foldlM_nest [])
    obtain ⟨r, hbefore, hrest⟩ := exists_of_foldlM_append hs
    -- what is opened inside the pair is above its own opening parenthesis
    obtain ⟨t, ht, -⟩ := exists_of_foldlM_append (hinner.foldlM_nest [])
    have hstack := Lexeme.foldlM_nest_append ht (o.position :: r)
    rw [foldlM_cons_of_ok (Lexeme.nest_opening ho), ← List.nil_append (o.position :: r),
      hstack] at hrest
    refine (hasOpening_iff hs).2 ?_
    rw [← Except.ok.inj hrest]
    exact List.append_ne_nil_of_right_ne_nil _ (List.cons_ne_nil _ _)
  · rintro ⟨before, o, inner, rfl, ho, hinner⟩
    have hclose := (balanced_iff_closes.1 h).2 before o (inner ++ l :: back)
      (by rw [List.append_assoc, List.cons_append]) ho
    obtain ⟨e, he⟩ := hasClosing_iff.1 hclose
    -- the counterpart is neither in front of the lexeme nor the lexeme itself
    rw [foldlM_append_of_ok (hinner.foldlM_nest []),
      foldlM_cons_of_ok (Lexeme.nest_other hopening hclosing)] at he
    obtain ⟨inner', c, after, rfl, hc, hinner'⟩ := hasClosing_iff.2 ⟨e, he⟩
    exact ⟨before, o, inner, inner', c, after, rfl, rfl, ho, hc,
      hinner.append (.other hopening hclosing hinner')⟩

/-! ## Counting -/

/-- One lexeme is counted as it changes the open parentheses. -/
theorem alternationShown_cons_iff (h : nest s l = .ok t) (ks : List Kind) :
    alternationShown s.length (l.kind :: ks) = true ↔
      (l.kind = .operator .alternation ∧ s = []) ∨ alternationShown t.length ks = true := by
  unfold nest at h
  cases hkind : l.kind with
  | literal | opening =>
    rw [hkind] at h
    cases h
    exact (or_iff_right fun h => by cases h.1).symm
  | closing =>
    rw [hkind] at h
    cases s with
    | nil => cases h
    | cons pos s =>
      cases h
      exact (or_iff_right fun h => by cases h.1).symm
  | operator op =>
    rw [hkind] at h
    cases h
    cases op with
    | alternation =>
      show (decide (s.length = 0) || alternationShown s.length ks) = true ↔ _
      rw [Bool.or_eq_true, decide_eq_true_iff, List.length_eq_zero_iff]
      exact or_congr_left (and_iff_right rfl).symm
    | _ => exact (or_iff_right fun h => by cases h.1).symm

/-- As long as counting goes on, an alternation shows where no parenthesis is open. -/
theorem alternationShown_iff (h : ls.foldlM nest s = .ok t) :
    alternationShown s.length (ls.map Lexeme.kind) = true ↔
      ∃ front l back, ls = front ++ l :: back ∧ l.kind = .operator .alternation ∧
        front.foldlM nest s = .ok [] := by
  induction ls generalizing s with
  | nil =>
    refine iff_of_false Bool.false_ne_true ?_
    rintro ⟨front, l, back, hls, -⟩
    exact List.append_ne_nil_of_right_ne_nil _ (List.cons_ne_nil _ _) hls.symm
  | cons l ls ih =>
    obtain ⟨s', hl, hrest⟩ := exists_of_foldlM_cons h
    rw [List.map_cons, alternationShown_cons_iff hl, ih hrest]
    constructor
    · rintro (⟨halternation, rfl⟩ | ⟨front, m, back, rfl, hm, hfront⟩)
      · exact ⟨[], l, ls, rfl, halternation, rfl⟩
      · exact ⟨l :: front, m, back, rfl, hm, by rw [foldlM_cons_of_ok hl, hfront]⟩
    · rintro ⟨front, m, back, hls, hm, hfront⟩
      cases front with
      | nil =>
        cases hls
        exact .inl ⟨hm, Except.ok.inj hfront⟩
      | cons l' front =>
        cases hls
        rw [foldlM_cons_of_ok hl] at hfront
        exact .inr ⟨front, m, back, rfl, hm, hfront⟩

/-- Where all parentheses match, counting them tells which alternations are in no pair. -/
theorem Balanced.alternationShown_iff_hasOuterAlternation (h : Balanced ls) :
    alternationShown 0 (ls.map Lexeme.kind) = true ↔ HasOuterAlternation ls := by
  refine (alternationShown_iff (h.foldlM_nest [])).trans ?_
  unfold HasOuterAlternation
  refine exists_congr fun front => exists_congr fun l => exists_congr fun back =>
    and_congr_right fun hls => and_congr_right fun hl => ?_
  subst hls
  obtain ⟨s, hs, -⟩ := exists_of_foldlM_append (h.foldlM_nest [])
  rw [enclosed_iff_hasOpening h (by rw [hl]; exact nofun) (by rw [hl]; exact nofun),
    hasOpening_iff hs, hs, not_not, Except.ok.injEq]

/-! ## In the text -/

/-- The parentheses among the characters match, and no backslash is left over at the end. -/
inductive Quiet : List Char → Prop
  | nil : Quiet []
  | char {c : Char} {cs : List Char} : c ≠ '\\' → c ≠ '(' → c ≠ ')' → Quiet cs → Quiet (c :: cs)
  | escaped (c : Char) {cs : List Char} : Quiet cs → Quiet ('\\' :: c :: cs)
  | group {cs cs' : List Char} : Quiet cs → Quiet cs' → Quiet ('(' :: (cs ++ ')' :: cs'))

namespace TextCombiner

/-- Between parentheses such characters do not count. -/
theorem alternationOutside_quiet {cs : List Char} (h : Quiet cs) (depth : Nat) (rest : List Char) :
    alternationOutside (depth + 1) false (cs ++ rest) =
      alternationOutside (depth + 1) false rest := by
  induction h generalizing depth rest with
  | nil => rfl
  | char hslash hopen hclosing _ ih =>
    rw [List.cons_append, alternationOutside, if_neg Bool.false_ne_true, if_neg hslash,
      if_neg hopen, if_neg hclosing, if_neg fun h => Nat.succ_ne_zero depth h.2]
    exact ih depth rest
  | escaped c _ ih => exact ih depth rest
  | @group cs cs' _ _ ih ih' =>
    rw [List.cons_append, List.append_assoc]
    show alternationOutside (depth + 1 + 1) false (cs ++ (')' :: cs' ++ rest)) = _
    rw [ih]
    exact ih' depth rest

/-- The characters of a lexeme are counted as it is among the lexemes, if its group prefix does not
count. -/
theorem alternationOutside_of_leads {k : Kind} {ks : List Kind} {s rest cs : List Char}
    (h : Leads k s rest) (hquiet : k = .opening → Quiet s.tail)
    (hrest : ∀ depth, alternationOutside depth false cs = alternationShown depth ks) (depth : Nat) :
    alternationOutside depth false (s ++ cs) = alternationShown depth (k :: ks) := by
  cases h with
  | escaped c => exact hrest depth
  | opening => exact (alternationOutside_quiet (hquiet rfl) depth cs).trans (hrest (depth + 1))
  | char _ hslash hopen => exact alternationOutside_kindOfChar hslash hopen hrest depth

/-- No group prefix counts. -/
abbrev QuietPrefixes (ks : List Kind) (spans : List (List Char)) : Prop :=
  List.Forall₂ (fun k s => k = .opening → Quiet s.tail) ks spans

theorem alternationOutside_of_cut {ks : List Kind} {spans : List (List Char)}
    (h : Cut [] ks spans) (hquiet : QuietPrefixes ks spans) (depth : Nat) :
    alternationOutside depth false spans.flatten = alternationShown depth ks := by
  induction h generalizing depth with
  | nil => rfl
  | cons hleads _ ih =>
    cases hquiet with
    | cons hs hquiet => exact alternationOutside_of_leads hleads hs (ih hquiet) depth

/-- In a text that is read and whose group prefixes have no parentheses but such that match, the
count finds out whether an alternation stands outside all pairs of parentheses. -/
theorem hasTopLevelAlternation_spec {text : String} {ls : List Lexeme} {spans : List (List Char)}
    {tail : List Char} {p : Postfix Char} (hcut : CutAt text ls spans tail)
    (hread : Postfix.ofText text = .ok p) (hquiet : QuietPrefixes (ls.map Lexeme.kind) spans) :
    Lexeme.scan text = .ok ls ∧
      (hasTopLevelAlternation text = true ↔ HasOuterAlternation ls) := by
  obtain ⟨rfl, hscan⟩ | ⟨-, hscan⟩ := hcut.scan_eq
  · have hbalanced : Balanced ls := by
      rw [Postfix.ofText_of_scan hscan] at hread
      exact (Postfix.exists_ofLexemes_iff_balanced (Lexeme.written_of_scanFrom hscan)).1 ⟨p, hread⟩
    refine ⟨hscan, ?_⟩
    unfold hasTopLevelAlternation
    rw [hcut.toList_eq, List.append_nil, alternationOutside_of_cut hcut.cut hquiet]
    exact hbalanced.alternationShown_iff_hasOuterAlternation
  · unfold Postfix.ofText at hread
    rw [hscan] at hread
    cases hread

/-- A name with a pair of parentheses in it, and one alternation in the group and one behind. -/
theorem hasTopLevelAlternation_spec_name :
    let ls : List Lexeme := [⟨.opening, 0⟩, ⟨.literal 'a', 8⟩, ⟨.operator .alternation, 9⟩,
      ⟨.literal 'b', 10⟩, ⟨.closing, 11⟩, ⟨.operator .alternation, 12⟩, ⟨.literal 'c', 13⟩]
    let spans : List (List Char) :=
      [['(', '?', '<', 'f', '(', 'x', ')', '>'], ['a'], ['|'], ['b'], [')'], ['|'], ['c']]
    CutAt "(?<f(x)>a|b)|c" ls spans [] ∧ (∃ p, Postfix.ofText "(?<f(x)>a|b)|c" = .ok p) ∧
      QuietPrefixes (ls.map Lexeme.kind) spans ∧ HasOuterAlternation ls := by
  intro ls spans
  have hscan : Lexeme.scan "(?<f(x)>a|b)|c" = .ok ls := by decide +kernel
  have hcut : CutAt "(?<f(x)>a|b)|c" ls spans [] :=
    ⟨by decide, by decide, hscan, .inl ⟨rfl, hscan⟩⟩
  have hread : Postfix.ofText "(?<f(x)>a|b)|c" = .ok [.literal 'a', .literal 'b',
      .operator .alternation, .literal 'c', .operator .alternation] := by decide +kernel
  have hname : Quiet ['?', '<', 'f', '(', 'x', ')', '>'] :=
    .char (by decide) (by decide) (by decide) <| .char (by decide) (by decide) (by decide) <|
      .char (by decide) (by decide) (by decide) <|
        .group (.char (by decide) (by decide) (by decide) .nil)
          (.char (by decide) (by decide) (by decide) .nil)
  have hquiet : QuietPrefixes (ls.map Lexeme.kind) spans :=
    .cons (fun _ => hname) (.cons nofun (.cons nofun (.cons nofun (.cons nofun (.cons nofun
      (.cons nofun .nil))))))
  exact ⟨hcut, ⟨_, hread⟩, hquiet, (hasTopLevelAlternation_spec hcut hread hquiet).2.1 (by decide)⟩

/-- A parenthesis in a group prefix hides the alternation behind the group, and one in a name shows
an alternation where there is none. -/
theorem hasTopLevelAlternation_not_exact :
    let ls : List Lexeme := [⟨.opening, 0⟩, ⟨.literal 'a', 3⟩, ⟨.closing, 4⟩,
      ⟨.operator .alternation, 5⟩, ⟨.literal 'b', 6⟩]
    let ls' : List Lexeme := [⟨.opening, 0⟩, ⟨.literal 'a', 6⟩, ⟨.closing, 7⟩]
    (Lexeme.scan "(?(a)|b" = .ok ls ∧ (∃ p, Postfix.ofText "(?(a)|b" = .ok p) ∧
      HasOuterAlternation ls ∧ hasTopLevelAlternation "(?(a)|b" = false) ∧
    (Lexeme.scan "(?<)|>a)" = .ok ls' ∧ (∃ p, Postfix.ofText "(?<)|>a)" = .ok p) ∧
      ¬ HasOuterAlternation ls' ∧ hasTopLevelAlternation "(?<)|>a)" = true) := by
  intro ls ls'
  have hread : Postfix.ofText "(?(a)|b" =
      .ok [.literal 'a', .literal 'b', .operator .alternation] := by decide +kernel
  have hread' : Postfix.ofText "(?<)|>a)" = .ok [.literal 'a'] := by decide +kernel
  refine ⟨⟨by decide +kernel, ⟨_, hread⟩, ?_, by decide⟩, by decide +kernel, ⟨_, hread'⟩, ?_,
    by decide⟩
  · refine ⟨[⟨.opening, 0⟩, ⟨.literal 'a', 3⟩, ⟨.closing, 4⟩], _, [⟨.literal 'b', 6⟩], rfl, rfl, ?_⟩
    rintro ⟨before, o, inner, inner', c, after, -, hback, -, hc, -⟩
    have hmem : c ∈ [(⟨.literal 'b', 6⟩ : Lexeme)] := hback ▸ List.mem_append_right _ (by simp)
    rw [List.mem_singleton.1 hmem] at hc
    cases hc
  · rintro ⟨front, l, back, hls, hl, -⟩
    have hmem : l ∈ ls' := hls ▸ List.mem_append_right _ (by simp)
    revert hl
    exact (by decide : ∀ l ∈ ls', l.kind ≠ .operator .alternation) l hmem

end TextCombiner

end Kleene
