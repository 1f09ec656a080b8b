import Kleene.Proofs.Scanning
import Kleene.Regex.Scanner

/-!
# The loop of the scanner

Parsers that obey their laws find a lexeme wherever more than a single backslash is left, and it is
the lexeme that the characters there are read as.  So every round of the loop takes one span off the
text, the loop ends, and it gives what the scan gives.
-/

namespace Kleene

open Lexeme (Kind GroupPrefix Leads Cut CutAt byteCount placed kindOfChar)

namespace ParserKit

theorem splitAt?_eq_some {t front rest : List Char}
    (h : ∀ front' rest', front ++ (t ++ rest) = front' ++ (t ++ rest') →
      front.length ≤ front'.length) :
    splitAt? t (front ++ (t ++ rest)) = some (front, t ++ rest) := by
  induction front with
  | nil =>
    show splitAt? t (t ++ rest) = some ([], t ++ rest)
    have hprefix : t <+: t ++ rest := List.prefix_append t rest
    cases hcs : t ++ rest with
    | nil =>
      rw [splitAt?, if_pos]
      exact List.isEmpty_iff.2 (List.append_eq_nil_iff.1 hcs).1
    | cons c cs =>
      rw [hcs] at hprefix
      rw [splitAt?, if_pos (List.isPrefixOf_iff_prefix.2 hprefix)]
  | cons c front ih =>
    have hno : ¬ t <+: c :: (front ++ (t ++ rest)) := by
      rintro ⟨rest', hrest'⟩
      have hle := h [] rest' hrest'.symm
      simp at hle
    have hrest := ih fun front' rest' heq =>
      Nat.le_of_succ_le_succ (h (c :: front') rest' (congrArg (List.cons c) heq))
    rw [List.cons_append, splitAt?, if_neg fun hp => hno (List.isPrefixOf_iff_prefix.1 hp), hrest]
    rfl

theorem splitAt?_eq_none {t cs : List Char} (h : ¬ t <:+: cs) : splitAt? t cs = none := by
  induction cs with
  | nil =>
    rw [splitAt?, if_neg]
    intro hempty
    rw [List.isEmpty_iff.1 hempty] at h
    exact h List.nil_infix
  | cons c cs ih =>
    have hno : ¬ t <+: c :: cs := fun hp => h hp.isInfix
    have hrest : ¬ t <:+: cs := fun hi => h (hi.trans (List.suffix_cons c cs).isInfix)
    rw [splitAt?, if_neg fun hp => hno (List.isPrefixOf_iff_prefix.1 hp), ih hrest]
    rfl

theorem lawful_plain : plain.Lawful where
  tag_append t rest := by simp [plain]
  tag_eq_none t cs h := by simp [plain, h]
  char_cons c rest := by simp [plain]
  char_eq_none c cs h := if_neg h
  anyChar_cons c rest := rfl
  anyChar_nil := rfl
  takeUntil_append t front rest := splitAt?_eq_some
  takeUntil_eq_none t cs := splitAt?_eq_none
  alt_nil cs := rfl
  alt_cons p ps cs := by cases h : p cs <;> simp [plain, h, List.firstM]
  preceded_eq p q cs := rfl
  pair_eq p q cs := rfl
  triple_eq p q o cs := rfl
  value_eq b p cs := rfl
  map_eq p f cs := rfl

/-! ## A lexeme -/

namespace Lawful

variable {K : ParserKit} {p s rest : List Char} {k : Kind}

theorem tag_eq (hK : K.Lawful) (t cs : List Char) :
    K.tag t cs = if t <+: cs then some (t, cs.drop t.length) else none := by
  split
  · rename_i h
    obtain ⟨rest, rfl⟩ := h
    rw [hK.tag_append, List.drop_left]
  · rename_i h
    exact hK.tag_eq_none t cs h

theorem char_eq (hK : K.Lawful) (c d : Char) (rest : List Char) :
    K.char c (d :: rest) = if d = c then some (c, rest) else none := by
  split
  · rename_i h
    rw [h, hK.char_cons]
  · rename_i h
    exact hK.char_eq_none c _ fun heq => h (Option.some.inj heq)

theorem char_nil (hK : K.Lawful) (c : Char) : K.char c [] = none :=
  hK.char_eq_none c [] nofun

theorem not_prefix_of_head? {c : Char} (h : rest.head? ≠ some c) : ¬ [c] <+: rest := by
  rintro ⟨tail, rfl⟩
  exact h rfl

/-- A name is taken up to the first `>`. -/
theorem takeUntil_name (hK : K.Lawful) {name : List Char} (h : '>' ∉ name) (rest : List Char) :
    K.takeUntil ['>'] (name ++ '>' :: rest) = some (name, '>' :: rest) := by
  refine hK.takeUntil_append ['>'] name rest fun front rest' heq => ?_
  by_contra hlt
  obtain ⟨mid, rfl, hmid⟩ | ⟨mid, rfl, hmid⟩ := List.append_eq_append_iff.1 heq
  · simp at hlt
  · cases mid with
    | nil => simp at hlt
    | cons c mid =>
      obtain ⟨rfl, -⟩ := List.cons.inj hmid
      exact h (List.mem_append_right _ List.mem_cons_self)

theorem takeUntil_not_mem (hK : K.Lawful) (h : '>' ∉ rest) : K.takeUntil ['>'] rest = none :=
  hK.takeUntil_eq_none _ _ fun hin => h (hin.subset List.mem_cons_self)

attribute [local simp] alt_cons alt_nil value_eq map_eq pair_eq triple_eq preceded_eq tag_eq
  char_eq char_nil anyChar_cons anyChar_nil

/-- A group prefix goes with its parenthesis. -/
theorem opening_append (hK : K.Lawful) (h : GroupPrefix p rest) :
    K.opening ('(' :: (p ++ rest)) = some ((), rest) := by
  cases h with
  | bare hhead =>
    cases rest with
    | nil => simp [opening, hK]
    | cons c rest =>
      have hc : ¬ '?' = c := fun heq => hhead (congrArg some heq.symm)
      simp [opening, hK, hc]
  | last => simp [opening, hK]
  | lookbehind => simp [opening, hK]
  | negativeLookbehind => simp [opening, hK]
  | @named name _ hname heq hbang =>
    have htake := hK.takeUntil_name hname rest
    have hno : ∀ c ≠ '>', name.head? ≠ some c → ¬ [c] <+: name ++ '>' :: rest := by
      intro c hc hne
      refine not_prefix_of_head? fun h => ?_
      cases name with
      | nil => exact hc (Option.some.inj h).symm
      | cons d name => exact hne h
    simp [opening, hK, htake, hno '=' (by decide) heq, hno '!' (by decide) hbang]
  | unnamed hrest heq hbang =>
    have htake := hK.takeUntil_not_mem hrest
    simp [opening, hK, htake, not_prefix_of_head? heq, not_prefix_of_head? hbang]
  | @char c _ hc =>
    have hc' : ¬ '<' = c := fun heq => hc heq.symm
    simp [opening, hK, hc']

theorem opening_eq_none (hK : K.Lawful) {c : Char} (h : c ≠ '(') (rest : List Char) :
    K.opening (c :: rest) = none := by
  have hc : ¬ '(' = c := fun heq => h heq.symm
  simp [opening, hK, h, hc]

/-- One round finds the lexeme that leads. -/
theorem lexeme_append (hK : K.Lawful) (h : Leads k s rest) :
    K.lexeme (s ++ rest) = some (k, rest) := by
  cases h with
  | escaped c => simp [lexeme, escaped, hK]
  | opening hp =>
    rw [List.cons_append]
    simp [lexeme, escaped, hK, hK.opening_append hp]
  | @char c _ hslash hopen =>
    have hopening := hK.opening_eq_none hopen rest
    rw [List.singleton_append]
    unfold kindOfChar
    split <;> simp_all [lexeme, escaped, operator]

/-! ## The loop -/

-- One round takes one span.
theorem round_append (hK : K.Lawful) (h : Leads k s rest) (text : List Char)
    (found : List Lexeme) : K.round text ⟨found, s ++ rest⟩ =
      .inr ⟨found ++ [⟨k, byteCount text - byteCount (s ++ rest)⟩], rest⟩ := by
  have hempty : (s ++ rest).isEmpty = false := by
    simp [h.ne_nil]
  simp only [round, hempty, hK.lexeme_append h]
  exact if_neg h.append_ne_backslash

/-- The rounds take the spans, and only the tail is left. -/
theorem ends_flatten (hK : K.Lawful) {text tail : List Char} {ks : List Kind}
    {ss : List (List Char)} {r : Except ScanError (List Lexeme)} (front : List Char)
    (found : List Lexeme) (htext : text = front ++ (ss.flatten ++ tail)) (h : Cut tail ks ss)
    (hends : K.Ends text ⟨found ++ placed (byteCount front) ks ss, tail⟩ r) :
    K.Ends text ⟨found, ss.flatten ++ tail⟩ r := by
  induction h generalizing front found with
  | nil =>
    rw [placed, List.zipWith_nil_left, List.append_nil] at hends
    exact hends
  | @cons k s ks ss hleads _ ih =>
    rw [List.flatten_cons, List.append_assoc] at htext ⊢
    have hround := hK.round_append hleads text found
    have hpos : byteCount text - byteCount (s ++ (ss.flatten ++ tail)) = byteCount front := by
      rw [htext, Lexeme.byteCount_append, Nat.add_sub_cancel]
    rw [hpos] at hround
    refine .next hround (ih (front ++ s) _ ?_ ?_)
    · rw [htext, List.append_assoc]
    · rw [Lexeme.byteCount_append, List.append_assoc]
      exact hends

theorem scans_scan (hK : K.Lawful) (text : String) :
    K.Scans text ((Lexeme.scan text).mapError .malformed) := by
  obtain ⟨ks, ss, tail, htext, htail, hcut⟩ := Lexeme.exists_cut text.toList
  suffices hends : K.Ends text.toList ⟨placed 0 ks ss, tail⟩
      ((Lexeme.scan text).mapError .malformed) by
    have hstart := hK.ends_flatten [] [] htext hcut hends
    rwa [← htext] at hstart
  rcases htail with rfl | rfl
  · rw [hcut.scan_eq_ok (htext.trans (List.append_nil _))]
    exact .stop rfl
  · rw [hcut.scan_eq_error htext, htext]
    refine .stop ?_
    simp only [round, Lexeme.byteCount_append, Nat.add_sub_cancel]
    rfl

end Lawful

theorem Ends.unique {K : ParserKit} {text : List Char} {now : Progress}
    {r r' : Except ScanError (List Lexeme)} (h : K.Ends text now r) (h' : K.Ends text now r') :
    r = r' := by
  induction h with
  | stop hround =>
    cases h' with
    | stop hround' => exact Sum.inl.inj (hround.symm.trans hround')
    | next hround' => cases hround.symm.trans hround'
  | next hround _ ih =>
    cases h' with
    | stop hround' => cases hround.symm.trans hround'
    | next hround' h' =>
      obtain rfl := Sum.inr.inj (hround.symm.trans hround')
      exact ih h'

/-- Where the parsers obey their laws, the loop of the scanner ends, and each of its rounds finds a
lexeme.  The lexemes cut the text into spans; each is the text of its lexeme, and a backslash behind
them is the only thing that is ever left over. -/
theorem scans_spec {K : ParserKit} (hK : K.Lawful) (text : String) :
    (∀ r, K.Scans text r ↔ r = (Lexeme.scan text).mapError .malformed) ∧
    (∀ pos, ¬ K.Scans text (.error (.unexpectedInput pos))) ∧
    ∃ ls spans tail, CutAt text ls spans tail ∧
      (tail = [] ∧ K.Scans text (.ok ls) ∨
        tail = ['\\'] ∧ ∃ pos, K.Scans text (.error (.malformed (.danglingEscape pos))) ∧
          pos + 1 = text.utf8ByteSize) ∧
      List.Forall₂ (fun l s => l.kind.ReadFrom s) ls spans ∧ (∀ s ∈ spans, s ≠ []) ∧
      (∀ l ∈ ls.head?, l.position = 0) ∧ (ls.map Lexeme.position).Pairwise (· < ·) ∧
      ∀ l ∈ ls, String.Pos.Raw.IsValid text ⟨l.position⟩ := by
  have hscans := hK.scans_scan text
  refine ⟨fun r => ⟨fun h => h.unique hscans, fun h => h ▸ hscans⟩, fun pos h => ?_, ?_⟩
  · have heq := h.unique hscans
    cases hscan : Lexeme.scan text <;> rw [hscan] at heq <;> cases heq
  · obtain ⟨ls, spans, tail, hcut⟩ := Lexeme.exists_cutAt text
    refine ⟨ls, spans, tail, hcut, ?_, hcut.readFrom, hcut.cut.ne_nil, hcut.position_head,
      hcut.positions_increasing, hcut.isValid_position⟩
    rcases hcut.scan_eq with ⟨rfl, hscan⟩ | ⟨rfl, hscan⟩
    · rw [hscan] at hscans
      exact .inl ⟨rfl, hscans⟩
    · rw [hscan] at hscans
      exact .inr ⟨rfl, _, hscans, hcut.byteCount_add_one⟩

theorem scans_spec_name : plain.Lawful ∧ plain.Scans "(?<n(>é\\)|(?" (.ok [⟨.opening, 0⟩,
    ⟨.literal 'é', 6⟩, ⟨.literal ')', 8⟩, ⟨.operator .alternation, 10⟩, ⟨.opening, 11⟩,
    ⟨.operator .optional, 12⟩]) := by
  have hscan : Lexeme.scan "(?<n(>é\\)|(?" = .ok [⟨.opening, 0⟩, ⟨.literal 'é', 6⟩,
      ⟨.literal ')', 8⟩, ⟨.operator .alternation, 10⟩, ⟨.opening, 11⟩,
      ⟨.operator .optional, 12⟩] := by decide +kernel
  have hspec := scans_spec lawful_plain "(?<n(>é\\)|(?"
  rw [hscan] at hspec
  exact ⟨lawful_plain, (hspec.1 _).2 rfl⟩

end ParserKit

end Kleene
