import Kleene.Proofs.Spelling

/-!
# Texts as labels

Texts are glued together to phrases of the grammar: a text with an alternation outside all
parentheses is put in parentheses before it becomes part of a row.  What the glued text means
then follows from what its parts mean, and so the combiner of texts is sound.
-/

open Computability

namespace Kleene

variable {level : Level}

/-! ## What phrases mean -/

/-- A phrase stands for an expression with tokens. -/
theorem Derives.valid {ks : List Lexeme.Kind} {p : Postfix Char} (h : Derives level ks p) :
    p ≠ [] ∧ p.Valid := by
  induction h with
  | literal c => exact ⟨List.cons_ne_nil _ _, (Postfix.denotes_literal c).valid⟩
  | group _ ih | atom _ ih | quantified _ ih | row _ ih => exact ih
  | quantify _ hop ih =>
    exact ⟨List.append_ne_nil_of_left_ne_nil ih.1 _,
      (Postfix.denotes_quantified hop ih.1 ih.2).valid⟩
  | concat _ _ ih ih' =>
    exact ⟨List.append_ne_nil_of_left_ne_nil ih.1 _,
      (Postfix.denotes_binary .concat (· * ·) (fun _ _ _ => rfl) ih ih').valid⟩
  | alternation _ _ ih ih' =>
    exact ⟨List.append_ne_nil_of_left_ne_nil ih.1 _,
      (Postfix.denotes_binary .alternation (· + ·) (fun _ _ _ => rfl) ih ih').valid⟩

/-- A row after a row is a row, grouped to the right. -/
theorem Derives.append {ks ks' : List Lexeme.Kind} {p q : Postfix Char} (h : Derives .row ks p)
    (h' : Derives .row ks' q) :
    ∃ r, Derives .row (ks ++ ks') r ∧ r.language = p.language * q.language := by
  generalize hlevel : Level.row = level at h
  induction h with
  | literal | group | atom | quantify | row | alternation => cases hlevel
  | quantified h =>
    have hbinary := Postfix.denotes_binary .concat (· * ·) (fun _ _ _ => rfl) h.valid h'.valid
    exact ⟨_, .concat h h', hbinary.language_eq⟩
  | @concat ks₁ ks₂ p₁ p₂ h₁ h₂ _ ih =>
    rcases ih rfl with ⟨r, hr, hlanguage⟩
    have hinner := Postfix.denotes_binary .concat (· * ·) (fun _ _ _ => rfl) h₁.valid h₂.valid
    have houter := Postfix.denotes_binary .concat (· * ·) (fun _ _ _ => rfl) h₁.valid hr.valid
    have hrow := Derives.concat h₁ hr
    rw [← List.append_assoc] at hrow
    refine ⟨_, hrow, ?_⟩
    rw [houter.language_eq, hinner.language_eq, hlanguage, mul_assoc]

/-- A choice beside a choice is a choice, grouped to the right. -/
theorem Derives.or {ks ks' : List Lexeme.Kind} {p q : Postfix Char} (h : Derives .choice ks p)
    (h' : Derives .choice ks' q) :
    ∃ r, Derives .choice (ks ++ .operator .alternation :: ks') r ∧
      r.language = p.language + q.language := by
  generalize hlevel : Level.choice = level at h
  induction h with
  | literal | group | atom | quantify | quantified | concat => cases hlevel
  | row h =>
    have hbinary :=
      Postfix.denotes_binary .alternation (· + ·) (fun _ _ _ => rfl) h.valid h'.valid
    exact ⟨_, .alternation h h', hbinary.language_eq⟩
  | @alternation ks₁ ks₂ p₁ p₂ h₁ h₂ _ ih =>
    rcases ih rfl with ⟨r, hr, hlanguage⟩
    have hinner :=
      Postfix.denotes_binary .alternation (· + ·) (fun _ _ _ => rfl) h₁.valid h₂.valid
    have houter :=
      Postfix.denotes_binary .alternation (· + ·) (fun _ _ _ => rfl) h₁.valid hr.valid
    have hchoice := Derives.alternation h₁ hr
    rw [← List.cons_append, ← List.append_assoc] at hchoice
    refine ⟨_, hchoice, ?_⟩
    rw [houter.language_eq, hinner.language_eq, hlanguage, add_assoc]

/-! ## Texts of phrases -/

/-- The text spells a phrase of the level, and the phrase describes the language. -/
def Phrase (level : Level) (text : String) (L : Language Char) : Prop :=
  ∃ ks p, Spelling ks text.toList ∧ Derives level ks p ∧ p.language = L

namespace Phrase

variable {text text' : String} {L L' : Language Char}

theorem ofText (h : Phrase .choice text L) : ∃ p, Postfix.ofText text = .ok p ∧ p.Denotes L := by
  rcases h with ⟨ks, p, htext, hd, rfl⟩
  exact ⟨p, hd.ofText_of_spelling htext, hd.valid.2⟩

theorem ne_empty (h : Phrase level text L) : text ≠ "" := by
  rcases h with ⟨ks, p, htext, hd, -⟩
  rintro rfl
  rcases hd.exists_head_spelling htext with ⟨d, cs, hcs, -⟩
  cases hcs

theorem quantified (h : Phrase .quantified text L) : Phrase .choice text L := by
  rcases h with ⟨ks, p, htext, hd, hL⟩
  exact ⟨ks, p, htext, .row (.quantified hd), hL⟩

theorem row (h : Phrase .row text L) : Phrase .choice text L := by
  rcases h with ⟨ks, p, htext, hd, hL⟩
  exact ⟨ks, p, htext, .row hd, hL⟩

theorem row_of_quantified (h : Phrase .quantified text L) : Phrase .row text L := by
  rcases h with ⟨ks, p, htext, hd, hL⟩
  exact ⟨ks, p, htext, .quantified hd, hL⟩

theorem literal (c : Char) : Phrase .choice (escape c.toString) {[c]} := by
  refine ⟨[.literal c], _, ?_, .row (.quantified (.atom (.literal c))), ?_⟩
  · have htext : (escape c.toString).toList = (Lexeme.Kind.literal c).spelling :=
      toList_escape_toString c
    rw [htext]
    exact spelling_literal c
  · exact (Postfix.denotes_literal c).language_eq

/-- A phrase in parentheses is an atom. -/
theorem group (h : Phrase .choice text L) : Phrase .atom ("(" ++ text ++ ")") L := by
  rcases h with ⟨ks, p, htext, hd, hL⟩
  refine ⟨_, p, ?_, .group hd, hL⟩
  rw [String.toList_append, String.toList_append]
  exact htext.group hd

/-- A phrase in parentheses and a quantifier behind; `sign` holds both. -/
theorem quantify (op : Operator) {sign : String} (hop : op.isQuantifier = true)
    (hsign : sign.toList = [')'] ++ (Lexeme.Kind.operator op).spelling)
    (h : Phrase .choice text L) :
    Phrase .quantified ("(" ++ text ++ sign) (Postfix.quantify op L) := by
  rcases h.group with ⟨ks, p, hgroup, hd, hL⟩
  refine ⟨_, _, ?_, .quantify (.atom hd) hop, ?_⟩
  · have htext : ("(" ++ text ++ sign).toList =
        ("(" ++ text ++ ")").toList ++ (Lexeme.Kind.operator op).spelling := by
      simp only [String.toList_append, hsign, List.append_assoc]
      rfl
    rw [htext]
    exact hgroup.append (spelling_quantifier hop)
  · rw [(Postfix.denotes_quantified hop hd.valid.1 hd.valid.2).language_eq, hL]

theorem append (h : Phrase .row text L) (h' : Phrase .row text' L') :
    Phrase .row (text ++ text') (L * L') := by
  rcases h with ⟨ks, p, htext, hd, rfl⟩
  rcases h' with ⟨ks', q, htext', hd', rfl⟩
  rcases hd.append hd' with ⟨r, hr, hlanguage⟩
  refine ⟨_, r, ?_, hr, hlanguage⟩
  rw [String.toList_append]
  exact htext.append htext'

theorem or (h : Phrase .choice text L) (h' : Phrase .choice text' L') :
    Phrase .choice (text ++ "|" ++ text') (L + L') := by
  rcases h with ⟨ks, p, htext, hd, rfl⟩
  rcases h' with ⟨ks', q, htext', hd', rfl⟩
  rcases hd.or hd' with ⟨r, hr, hlanguage⟩
  refine ⟨_, r, ?_, hr, hlanguage⟩
  rw [String.toList_append, String.toList_append, List.append_assoc]
  exact htext.append (spelling_alternation.append htext')

/-- Phrases with alternations between them. -/
theorem intercalate {m : String → Language Char} {texts : List String} (hne : texts ≠ [])
    (h : ∀ t ∈ texts, Phrase .choice t (m t)) :
    Phrase .choice ("|".intercalate texts) (texts.map m).sum := by
  induction texts with
  | nil => exact absurd rfl hne
  | cons t texts ih =>
    rcases List.forall_mem_cons.1 h with ⟨ht, hrest⟩
    rw [List.map_cons, List.sum_cons]
    cases texts with
    | nil =>
      rw [String.intercalate_singleton, List.map_nil, List.sum_nil, add_zero]
      exact ht
    | cons t' texts =>
      rw [String.intercalate_cons_cons]
      exact ht.or (ih (List.cons_ne_nil _ _) hrest)

/-- A phrase becomes part of a row, in parentheses if it has to. -/
theorem grouped (h : Phrase .choice text L) : Phrase .row (TextCombiner.grouped text) L := by
  unfold TextCombiner.grouped
  split
  · rcases h.group with ⟨ks, p, htext, hd, hL⟩
    exact ⟨ks, p, htext, .quantified (.atom hd), hL⟩
  · rename_i hno
    rcases h with ⟨ks, p, htext, hd, hL⟩
    have hrow := TextCombiner.row_of_not_hasTopLevelAlternation hd htext
      (Bool.eq_false_of_not_eq_true hno)
    exact ⟨ks, p, htext, hrow, hL⟩

end Phrase

/-! ## The combiner -/

namespace TextCombiner

/-- The language that the text of a label describes, empty for a text that is no expression. -/
def meaning (l : Label String) : Language Char :=
  match Postfix.ofText (textOf l) with
  | .ok p => p.language
  | .error _ => 0

/-- The text of a label is a phrase. -/
def Good : Label String → Prop
  | .symbol text => Phrase .choice text (meaning (.symbol text))
  | .epsilon => True

theorem ofText_empty : Postfix.ofText "" = .ok [] := by
  unfold Postfix.ofText Lexeme.scan
  rw [String.toList_empty, Lexeme.scanFrom.eq_1]
  rfl

theorem meaning_epsilon : meaning .epsilon = 1 := by
  unfold meaning
  rw [show textOf .epsilon = "" from rfl, ofText_empty]
  rfl

theorem meaning_eq {text : String} {L : Language Char} (h : Phrase .choice text L) :
    meaning (.symbol text) = L := by
  rcases h.ofText with ⟨p, hp, hdenotes⟩
  unfold meaning
  rw [show textOf (.symbol text) = text from rfl, hp]
  exact hdenotes.language_eq

theorem good_of_phrase {text : String} {L : Language Char} (h : Phrase .choice text L) :
    Good (.symbol text) ∧ meaning (.symbol text) = L := by
  have hmeaning := meaning_eq h
  rw [← hmeaning] at h
  exact ⟨h, hmeaning⟩

/-- The text of a good label is read as an expression for what the label means. -/
theorem Good.exists_ofText {l : Label String} (h : Good l) :
    ∃ p, Postfix.ofText (textOf l) = .ok p ∧ p.Denotes (meaning l) := by
  cases l with
  | symbol text => exact Phrase.ofText h
  | epsilon =>
    rw [meaning_epsilon]
    exact ⟨[], ofText_empty, Postfix.denotes_nil⟩

/-- The text is a row or empty, and describes the language. -/
def Part (text : String) (L : Language Char) : Prop :=
  (text = "" ∧ L = 1) ∨ Phrase .row text L

variable {text text' : String} {L L' : Language Char}

theorem Part.append (h : Part text L) (h' : Part text' L') : Part (text ++ text') (L * L') := by
  rcases h with ⟨rfl, rfl⟩ | h
  · rw [String.empty_append, one_mul]
    exact h'
  · rcases h' with ⟨rfl, rfl⟩ | h'
    · rw [String.append_empty, mul_one]
      exact .inr h
    · exact .inr (h.append h')

theorem Part.good_ofText (h : Part text L) : Good (ofText text) ∧ meaning (ofText text) = L := by
  rcases h with ⟨rfl, rfl⟩ | h
  · exact ⟨trivial, meaning_epsilon⟩
  · have hlabel : ofText text = .symbol text := by
      unfold ofText
      rw [if_neg]
      rw [String.isEmpty_iff]
      exact h.ne_empty
    rw [hlabel]
    exact good_of_phrase h.row

theorem part_grouped {l : Label String} (h : Good l) : Part (grouped (textOf l)) (meaning l) := by
  cases l with
  | symbol text => exact .inr h.grouped
  | epsilon => exact .inl ⟨rfl, meaning_epsilon⟩

theorem ofText_textOf {l : Label String} (h : Good l) : ofText (textOf l) = l := by
  cases l with
  | epsilon => rfl
  | symbol text =>
    unfold ofText
    rw [if_neg]
    · rfl
    · rw [String.isEmpty_iff]
      exact h.ne_empty

-- A label with the text of a phrase means what the phrase means.
theorem meaning_of_textOf_eq {l : Label String} (h : Phrase .choice text L)
    (heq : textOf l = text) : meaning l = L := by
  rw [← meaning_eq h]
  unfold meaning
  rw [heq]
  rfl

theorem eq_epsilon_of_textOf {l : Label String} (h : Good l) (hnil : textOf l = "") :
    l = .epsilon := by
  rw [← ofText_textOf h, hnil]
  rfl

-- Without loops, a part of a path that has no text leaves the other part as it is.
theorem path_nil_spec {pre post : Label String} (hpre : Good pre) (hpost : Good post) :
    Good (path pre [] post) ∧ meaning (path pre [] post) = meaning pre * meaning post := by
  unfold path
  simp only [List.isEmpty_nil, if_true]
  split
  · rename_i hends
    rw [Bool.or_eq_true, String.isEmpty_iff, String.isEmpty_iff] at hends
    cases hends with
    | inl hnil =>
      rw [eq_epsilon_of_textOf hpre hnil, meaning_epsilon, one_mul,
        show textOf .epsilon = "" from rfl, String.empty_append, ofText_textOf hpost]
      exact ⟨hpost, rfl⟩
    | inr hnil =>
      rw [eq_epsilon_of_textOf hpost hnil, meaning_epsilon, mul_one,
        show textOf .epsilon = "" from rfl, String.append_empty, ofText_textOf hpre]
      exact ⟨hpre, rfl⟩
  · exact ((part_grouped hpre).append (part_grouped hpost)).good_ofText

/-- The label of a path means a way in, loops and a way out. -/
theorem path_spec {pre post : Label String} {loops : List String} (hpre : Good pre)
    (hloops : ∀ a ∈ loops, Good (.symbol a)) (hpost : Good post) :
    Good (path pre loops post) ∧ meaning (path pre loops post) =
      meaning pre * (loops.map fun a => meaning (.symbol a)).sum∗ * meaning post := by
  by_cases hnil : loops = []
  · rw [hnil, List.map_nil, List.sum_nil, kstar_zero, mul_one]
    exact path_nil_spec hpre hpost
  · have hin := part_grouped hpre
    have hout := part_grouped hpost
    have hchoice := Phrase.intercalate hnil hloops
    unfold path
    simp only [List.isEmpty_eq_false_iff.2 hnil, Bool.false_eq_true, if_false]
    generalize (loops.map fun a => meaning (.symbol a)).sum = S at hchoice ⊢
    have hplus : Part ("(" ++ "|".intercalate loops ++ ")+") (S * S∗) :=
      .inr (hchoice.quantify .plus rfl rfl).row_of_quantified
    have hstar : Part ("(" ++ "|".intercalate loops ++ ")*") S∗ :=
      .inr (hchoice.quantify .star rfl rfl).row_of_quantified
    split
    · -- the way in is one more round
      rename_i heq
      rw [meaning_of_textOf_eq hchoice heq]
      exact (hplus.append hout).good_ofText
    · split
      · -- the way out is one more round
        rename_i heq
        have h := (hin.append hplus).good_ofText
        rw [meaning_of_textOf_eq hchoice heq, mul_assoc, Language.mul_self_kstar_comm]
        simpa only [String.append_assoc] using h
      · have h := ((hin.append hstar).append hout).good_ofText
        simpa only [String.append_assoc] using h

theorem mem_texts {ls : List (Label String)} {t : String} :
    t ∈ (ls.filterMap Label.symbol?).eraseDups ↔ .symbol t ∈ ls := by
  rw [List.mem_eraseDups, List.mem_filterMap]
  constructor
  · intro h
    rcases h with ⟨l, hl, hsymbol⟩
    cases l with
    | epsilon => cases hsymbol
    | symbol t' =>
      rw [← Option.some.inj hsymbol]
      exact hl
  · exact fun h => ⟨_, h, rfl⟩

theorem any_isEpsilon_iff {ls : List (Label String)} :
    ls.any Label.isEpsilon = true ↔ .epsilon ∈ ls := by
  rw [List.any_eq_true]
  constructor
  · intro h
    rcases h with ⟨l, hl, hepsilon⟩
    cases l with
    | symbol t => cases hepsilon
    | epsilon => exact hl
  · exact fun h => ⟨_, h, rfl⟩

/-- What labels mean is what their different texts mean, and the empty word if one is ε. -/
theorem sum_meaning (ls : List (Label String)) :
    (ls.map meaning).sum = (if ls.any Label.isEpsilon then 1 else 0) +
      ((ls.filterMap Label.symbol?).eraseDups.map fun t => meaning (.symbol t)).sum := by
  ext w
  rw [Language.mem_add, mem_sum_map, mem_sum_map]
  constructor
  · intro hw
    rcases hw with ⟨l, hl, hw⟩
    cases l with
    | epsilon =>
      rw [if_pos (any_isEpsilon_iff.2 hl)]
      rw [meaning_epsilon] at hw
      exact .inl hw
    | symbol t => exact .inr ⟨t, mem_texts.2 hl, hw⟩
  · intro hw
    cases hw with
    | inl hw =>
      by_cases hany : ls.any Label.isEpsilon = true
      · rw [if_pos hany] at hw
        exact ⟨_, any_isEpsilon_iff.1 hany, meaning_epsilon ▸ hw⟩
      · rw [if_neg hany] at hw
        exact absurd hw (Language.notMem_zero w)
    | inr hw =>
      rcases hw with ⟨t, ht, hw⟩
      exact ⟨_, mem_texts.1 ht, hw⟩

-- What ε adds to the text of a phrase.
theorem good_optional {text : String} {L : Language Char} (optional : Bool)
    (h : Phrase .choice text L) :
    let label : Label String := if optional then .symbol ("(" ++ text ++ ")?") else .symbol text
    Good label ∧ meaning label = (if optional then 1 else 0) + L := by
  cases optional with
  | true => exact good_of_phrase (h.quantify .optional rfl rfl).quantified
  | false =>
    simp only [Bool.false_eq_true, if_false, zero_add]
    exact good_of_phrase h

/-- The label of a choice means what all its labels mean together. -/
theorem parallel_spec {ls : List (Label String)} (hne : ls ≠ []) (h : ∀ l ∈ ls, Good l) :
    Good (parallel ls) ∧ meaning (parallel ls) = (ls.map meaning).sum := by
  have htexts : ∀ t ∈ (ls.filterMap Label.symbol?).eraseDups,
      Phrase .choice t (meaning (.symbol t)) := fun t ht => h _ (mem_texts.1 ht)
  have hepsilon : (ls.filterMap Label.symbol?).eraseDups = [] → ls.any Label.isEpsilon = true := by
    intro hnil
    rcases List.exists_mem_of_ne_nil ls hne with ⟨l, hl⟩
    cases l with
    | epsilon => exact any_isEpsilon_iff.2 hl
    | symbol t =>
      have ht := mem_texts.2 hl
      rw [hnil] at ht
      cases ht
  rw [sum_meaning]
  unfold parallel
  generalize (ls.filterMap Label.symbol?).eraseDups = texts at htexts hepsilon ⊢
  generalize ls.any Label.isEpsilon = optional at hepsilon ⊢
  match texts, htexts, hepsilon with
  | [], _, hepsilon =>
    rw [hepsilon rfl, if_pos rfl, List.map_nil, List.sum_nil, add_zero]
    exact ⟨trivial, meaning_epsilon⟩
  | [text], htexts, _ =>
    rw [List.map_singleton, List.sum_singleton]
    exact good_optional optional (htexts text List.mem_cons_self)
  | text :: text' :: texts, htexts, _ =>
    exact good_optional optional (Phrase.intercalate (List.cons_ne_nil _ _) htexts)

end TextCombiner

theorem textCombiner_sound : textCombiner.Sound TextCombiner.Good TextCombiner.meaning where
  good_epsilon := trivial
  meaning_epsilon := TextCombiner.meaning_epsilon
  good_path _ _ _ hpre hloops hpost := (TextCombiner.path_spec hpre hloops hpost).1
  meaning_path _ _ _ hpre hloops hpost := (TextCombiner.path_spec hpre hloops hpost).2
  good_parallel _ hne h := (TextCombiner.parallel_spec hne h).1
  meaning_parallel _ hne h := (TextCombiner.parallel_spec hne h).2

end Kleene
