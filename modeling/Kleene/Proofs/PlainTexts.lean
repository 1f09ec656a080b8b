import Kleene.Proofs.Changes
import Kleene.Proofs.Recognition

/-!
# Plain texts

Whether a text may be a label is left to the reader: it is plain if it becomes an automaton, but not
as the expression without tokens, and if no group in it has a prefix.  Such a text can have needless
backslashes and parentheses.  It spells a phrase of the grammar, for no other lexemes have tokens
with a value, and so the combiner of texts makes plain labels of plain labels.
-/

open Computability

namespace Kleene

/-! ## Groups without prefixes -/

/-- Whether no parenthesis that opens a group has a question mark behind it.  The text can start
behind a backslash. -/
def bareGroups (escaped : Bool) : List Char → Bool
  | [] => true
  | c :: rest =>
    if escaped then bareGroups false rest
    else if c = '\\' then bareGroups true rest
    else (c ≠ '(' || rest.head? ≠ some '?') && bareGroups false rest

variable {level : Level} {ks : List Lexeme.Kind} {cs : List Char} {p : Postfix Char}

theorem Spelling.bareGroups_eq (h : Spelling ks cs) : bareGroups false cs = true := by
  induction h with
  | nil => rfl
  | escaped c _ ih => exact ih
  | @char ks cs c hslash hopen _ ih =>
    rw [bareGroups, if_neg Bool.false_ne_true, if_neg hslash, ih, decide_eq_true hopen]
    rfl
  | @opening ks cs d hd _ ih =>
    have hne : (d :: cs).head? ≠ some '?' := fun heq => hd (Option.some.inj heq)
    rw [bareGroups, if_neg Bool.false_ne_true, if_neg (by decide), ih, decide_eq_true hne]
    rfl

/-- No phrase ends with a parenthesis that opens a group. -/
theorem Derives.exists_last (h : Derives level ks p) :
    ∃ ks' k, ks = ks' ++ [k] ∧ k ≠ .opening := by
  induction h with
  | literal c => exact ⟨[], _, rfl, nofun⟩
  | @group ks => exact ⟨.opening :: ks, _, rfl, nofun⟩
  | atom _ ih | quantified _ ih | row _ ih => exact ih
  | quantify => exact ⟨_, _, rfl, nofun⟩
  | @concat ks _ _ _ _ _ _ ih =>
    obtain ⟨ks', k, rfl, hk⟩ := ih
    exact ⟨ks ++ ks', k, (List.append_assoc _ _ _).symm, hk⟩
  | @alternation ks _ _ _ _ _ _ ih =>
    obtain ⟨ks', k, rfl, hk⟩ := ih
    exact ⟨ks ++ .operator .alternation :: ks', k,
      (List.append_assoc ks (.operator .alternation :: ks') [k]).symm, hk⟩

namespace Lexeme

/-- A text without prefixes spells the lexemes that scanning it gives, unless it ends with an open
parenthesis. -/
theorem spelling_of_scanFrom {pos : Nat} {ls : List Lexeme} (h : scanFrom pos cs = .ok ls)
    (hbare : bareGroups false cs = true) (hlast : ∀ ks, ls.map kind ≠ ks ++ [.opening]) :
    Spelling (ls.map kind) cs := by
  fun_induction scanFrom pos cs generalizing ls with
  | case1 =>
    cases h
    exact .nil
  | case2 => cases h
  | case3 pos c rest ih =>
    obtain ⟨ls, hls, rfl⟩ := exists_of_map_eq_ok h
    exact .escaped c (ih hls hbare fun ks hks => hlast (_ :: ks) (congrArg (List.cons _) hks))
  | case4 pos rest n =>
    rename_i ih
    obtain ⟨ls, hls, rfl⟩ := exists_of_map_eq_ok h
    rw [bareGroups, if_neg Bool.false_ne_true, if_neg (by decide), Bool.and_eq_true] at hbare
    have hhead : rest.head? ≠ some '?' := of_decide_eq_true hbare.1
    have hn : n = 0 := groupPrefixLength_eq_zero hhead
    rw [hn] at hls ih
    have hrest := ih hls hbare.2 fun ks hks => hlast (_ :: ks) (congrArg (List.cons _) hks)
    cases rest with
    | nil =>
      rw [List.drop_nil, scanFrom.eq_1] at hls
      cases hls
      exact absurd rfl (hlast [])
    | cons d rest => exact .opening (fun hd => hhead (congrArg some hd)) hrest
  | case5 pos c rest hslash hslash' hopen ih =>
    obtain ⟨ls, hls, rfl⟩ := exists_of_map_eq_ok h
    have hne := ne_backslash hslash hslash'
    rw [bareGroups, if_neg Bool.false_ne_true, if_neg hne, Bool.and_eq_true] at hbare
    exact .char hne hopen
      (ih hls hbare.2 fun ks hks => hlast (_ :: ks) (congrArg (List.cons _) hks))

end Lexeme

/-! ## Plain labels -/

namespace TextCombiner

/-- The label is ε, or its text becomes an automaton, but not as the expression without tokens, and
opens every group without a prefix. -/
def Plain : Label String → Prop
  | .epsilon => True
  | .symbol text => (∃ p n, Postfix.ofText text = .ok p ∧ p ≠ [] ∧ p.toNfa = .ok n) ∧
      bareGroups false text.toList = true

/-- The words that the automaton for the text of a label accepts, none if there is no automaton. -/
def compiled (l : Label String) : Language Char :=
  {w | ∃ n, Nfa.ofText (textOf l) = .ok n ∧ n.accepts w = true}

/-- What an expression with tokens becomes an automaton from is a phrase. -/
theorem exists_phrase {text : String} {n : Nfa Char} (htext : Postfix.ofText text = .ok p)
    (hp : p ≠ []) (hn : p.toNfa = .ok n) (hbare : bareGroups false text.toList = true) :
    ∃ L, Phrase .choice text L := by
  unfold Postfix.ofText at htext
  obtain ⟨ls, hscan, hread⟩ := exists_of_bind_eq_ok htext
  obtain ⟨t, ht⟩ :=
    Derivation.exists_of_evaluate (Lexeme.written_of_scanFrom hscan) hread hp hn
  have hlast : ∀ ks, ls.map Lexeme.kind ≠ ks ++ [.opening] := by
    intro ks hks
    obtain ⟨ks', k, hks', hk⟩ := t.derives.exists_last
    rw [ht, hks] at hks'
    exact hk (List.append_singleton_inj.1 hks').2.symm
  have hspelling := Lexeme.spelling_of_scanFrom hscan hbare hlast
  rw [← ht] at hspelling
  exact ⟨t.tokens.language, _, _, hspelling, t.derives, rfl⟩

/-- A label is plain exactly if its text is a phrase. -/
theorem plain_iff_good {l : Label String} : Plain l ↔ Good l := by
  cases l with
  | epsilon => exact Iff.rfl
  | symbol text =>
    constructor
    · rintro ⟨⟨p, n, htext, hp, hn⟩, hbare⟩
      obtain ⟨L, hphrase⟩ := exists_phrase htext hp hn hbare
      exact (good_of_phrase hphrase).1
    · rintro ⟨ks, p, hspelling, hd, -⟩
      obtain ⟨n, hn, -, -⟩ := Postfix.Denotes.exists_toNfa hd.valid.2
      exact ⟨⟨p, n, hd.ofText_of_spelling hspelling, hd.valid.1, hn⟩, hspelling.bareGroups_eq⟩

/-- The automaton for the text of a plain label accepts what the text describes. -/
theorem Good.compiled_eq {l : Label String} (h : Good l) : compiled l = meaning l := by
  obtain ⟨p, hp, hdenotes⟩ := h.exists_ofText
  obtain ⟨n, hn, -, hlanguage⟩ := hdenotes.exists_toNfa
  have hofText : Nfa.ofText (textOf l) = .ok n := by
    unfold Nfa.ofText
    rw [hp]
    exact hn
  ext w
  rw [← hlanguage, ← Nfa.mem_language]
  constructor
  · rintro ⟨n', hn', hw⟩
    rwa [Except.ok.inj (hofText.symm.trans hn')]
  · exact fun hw => ⟨n, hofText, hw⟩

/-- Plain labels on a way in, on loops and on a way out become a plain label, and the automaton for
it accepts a word of the way in, any number of words of the loops and a word of the way out.  Plain
labels side by side become a plain label for the words of all of them. -/
theorem plain_spec :
    (∀ (pre post : Label String) (loops : List String), Plain pre → Plain post →
      (∀ text ∈ loops, Plain (.symbol text)) →
      Plain (textCombiner.path pre loops post) ∧
        compiled (textCombiner.path pre loops post) =
          compiled pre * (loops.map fun text => compiled (.symbol text)).sum∗ * compiled post) ∧
    ∀ labels : List (Label String), labels ≠ [] → (∀ l ∈ labels, Plain l) →
      Plain (textCombiner.parallel labels) ∧
        compiled (textCombiner.parallel labels) = (labels.map compiled).sum := by
  simp only [plain_iff_good]
  constructor
  · intro pre post loops hpre hpost hloops
    obtain ⟨hgood, hmeaning⟩ := path_spec hpre hloops hpost
    refine ⟨hgood, hgood.compiled_eq.trans (hmeaning.trans ?_)⟩
    rw [hpre.compiled_eq, hpost.compiled_eq,
      List.map_congr_left fun text htext => (hloops text htext).compiled_eq]
  · intro labels hne hlabels
    obtain ⟨hgood, hmeaning⟩ := parallel_spec hne hlabels
    refine ⟨hgood, hgood.compiled_eq.trans (hmeaning.trans ?_)⟩
    rw [List.map_congr_left fun l hl => (hlabels l hl).compiled_eq]

/-- A needless backslash, an alternation that has to be put in parentheses, and a loop that is the
way out as well. -/
theorem plain_spec_needless : Plain (.symbol "\\a|b") ∧ Plain (.symbol "(c)") ∧
    textCombiner.path (.symbol "\\a|b") ["(c)"] (.symbol "(c)") = .symbol "(\\a|b)((c))+" ∧
    Plain (.symbol "(\\a|b)((c))+") ∧
    compiled (.symbol "(\\a|b)((c))+") =
      compiled (.symbol "\\a|b") * (compiled (.symbol "(c)"))∗ * compiled (.symbol "(c)") := by
  have hpre : Plain (.symbol "\\a|b") :=
    ⟨⟨[.literal 'a', .literal 'b', .operator .alternation], _, by decide +kernel, by decide, rfl⟩,
      by decide⟩
  have hpost : Plain (.symbol "(c)") :=
    ⟨⟨[.literal 'c'], _, by decide +kernel, by decide, rfl⟩, by decide⟩
  have hpath : textCombiner.path (.symbol "\\a|b") ["(c)"] (.symbol "(c)") =
      .symbol "(\\a|b)((c))+" := by decide +kernel
  obtain ⟨hplain, hcompiled⟩ := plain_spec.1 _ _ ["(c)"] hpre hpost
    (List.forall_mem_singleton.2 hpost)
  rw [hpath] at hplain hcompiled
  rw [List.map_singleton, List.sum_singleton] at hcompiled
  exact ⟨hpre, hpost, hpath, hplain, hcompiled⟩

end TextCombiner

end Kleene
