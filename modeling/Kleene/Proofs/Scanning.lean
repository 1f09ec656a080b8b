import Kleene.Proofs.Reading

/-!
# Scanning a text

A text is cut into spans, and each span is a lexeme because of the characters in it and, for a group
prefix, of what follows.  The scan gives these lexemes at the positions of their spans.  It fails
only if a backslash is left over, and then it gives the same lexemes for the text in front of it.
-/

namespace Kleene.Lexeme

/-! ## Bytes -/

@[simp] theorem byteCount_nil : byteCount [] = 0 := rfl

@[simp] theorem byteCount_cons (c : Char) (cs : List Char) :
    byteCount (c :: cs) = c.utf8Size + byteCount cs := rfl

@[simp] theorem byteCount_append (cs cs' : List Char) :
    byteCount (cs ++ cs') = byteCount cs + byteCount cs' := by
  induction cs with
  | nil => exact (Nat.zero_add _).symm
  | cons c cs ih => rw [List.cons_append, byteCount_cons, byteCount_cons, ih, Nat.add_assoc]

theorem byteCount_eq_utf8ByteSize (cs : List Char) :
    byteCount cs = (String.ofList cs).utf8ByteSize := by
  induction cs with
  | nil => rfl
  | cons c cs ih =>
    rw [byteCount_cons, String.ofList_cons, String.utf8ByteSize_append,
      String.utf8ByteSize_singleton, ih]

theorem byteCount_pos {cs : List Char} (h : cs ≠ []) : 0 < byteCount cs := by
  cases cs with
  | nil => exact absurd rfl h
  | cons c cs =>
    rw [byteCount_cons]
    exact Nat.add_pos_left c.utf8Size_pos _

/-- Texts of as many bytes in front of equal texts are equal. -/
theorem append_inj_of_byteCount {s s' rest rest' : List Char} (h : s ++ rest = s' ++ rest')
    (hbytes : byteCount s = byteCount s') : s = s' ∧ rest = rest' := by
  obtain ⟨mid, rfl, rfl⟩ | ⟨mid, rfl, rfl⟩ := List.append_eq_append_iff.1 h
  · cases mid with
    | nil => exact ⟨(List.append_nil s).symm, rfl⟩
    | cons c mid =>
      have hpos := byteCount_pos (List.cons_ne_nil c mid)
      rw [byteCount_append] at hbytes
      omega
  · cases mid with
    | nil => exact ⟨List.append_nil s', rfl⟩
    | cons c mid =>
      have hpos := byteCount_pos (List.cons_ne_nil c mid)
      rw [byteCount_append] at hbytes
      omega

/-! ## Group prefixes -/

/-- The characters are what belongs to the opening parenthesis in front of them, if the others
follow. -/
inductive GroupPrefix : List Char → List Char → Prop
  | bare {rest : List Char} : rest.head? ≠ some '?' → GroupPrefix [] rest
  | last : GroupPrefix [] ['?']
  | lookbehind (rest : List Char) : GroupPrefix ['?', '<', '='] rest
  | negativeLookbehind (rest : List Char) : GroupPrefix ['?', '<', '!'] rest
  | named {name : List Char} (rest : List Char) : '>' ∉ name → name.head? ≠ some '=' →
      name.head? ≠ some '!' → GroupPrefix ('?' :: '<' :: (name ++ ['>'])) rest
  | unnamed {rest : List Char} : '>' ∉ rest → rest.head? ≠ some '=' → rest.head? ≠ some '!' →
      GroupPrefix ['?', '<'] rest
  | char {c : Char} (rest : List Char) : c ≠ '<' → GroupPrefix ['?', c] rest

namespace GroupPrefix

variable {p rest : List Char}

theorem length_eq (h : GroupPrefix p rest) : groupPrefixLength (p ++ rest) = p.length := by
  cases h with
  | bare hhead =>
    have hno : ∀ tail, rest ≠ '?' :: tail := by
      rintro tail rfl
      exact hhead rfl
    exact groupPrefixLength.eq_5 rest (fun _ => hno _) (fun _ => hno _) (fun _ => hno _)
      fun _ _ => hno _
  | last => rfl
  | lookbehind => rfl
  | negativeLookbehind => rfl
  | @named name _ hname heq hbang =>
    have hmem : '>' ∈ name ++ '>' :: rest := List.mem_append_right _ List.mem_cons_self
    have hidx : (name ++ '>' :: rest).idxOf '>' = name.length := by
      rw [List.idxOf_append_of_notMem hname, List.idxOf_cons_self, Nat.add_zero]
    rw [List.cons_append, List.cons_append, List.append_assoc, List.singleton_append,
      groupPrefixLength.eq_3, if_pos hmem, hidx]
    · simp
    · cases name <;> simp_all
    · cases name <;> simp_all
  | unnamed hrest heq hbang =>
    rw [List.cons_append, List.cons_append, List.nil_append, groupPrefixLength.eq_3, if_neg hrest]
    · rfl
    · rintro tail rfl
      exact heq rfl
    · rintro tail rfl
      exact hbang rfl
  | @char c _ hc =>
    exact groupPrefixLength.eq_4 c rest (fun _ h => absurd h hc) (fun _ h => absurd h hc) hc

/-- Every text starts with a group prefix, which may be empty. -/
theorem exists_eq_append (cs : List Char) : ∃ p rest, cs = p ++ rest ∧ GroupPrefix p rest := by
  rcases cs with _ | ⟨c, cs⟩
  · exact ⟨[], [], rfl, .bare nofun⟩
  by_cases hc : c = '?'
  · subst hc
    rcases cs with _ | ⟨d, rest⟩
    · exact ⟨[], ['?'], rfl, .last⟩
    by_cases hd : d = '<'
    · subst hd
      by_cases heq : rest.head? = some '='
      · obtain ⟨rest, rfl⟩ := List.head?_eq_some_iff.1 heq
        exact ⟨_, rest, rfl, .lookbehind rest⟩
      by_cases hbang : rest.head? = some '!'
      · obtain ⟨rest, rfl⟩ := List.head?_eq_some_iff.1 hbang
        exact ⟨_, rest, rfl, .negativeLookbehind rest⟩
      by_cases hmem : '>' ∈ rest
      · obtain ⟨name, rest, rfl, hname⟩ := List.eq_append_cons_of_mem hmem
        refine ⟨_, rest, ?_, .named rest hname ?_ ?_⟩
        · simp
        · cases name <;> simp_all
        · cases name <;> simp_all
      · exact ⟨_, rest, rfl, .unnamed hmem heq hbang⟩
    · exact ⟨_, rest, rfl, .char rest hd⟩
  · exact ⟨[], c :: cs, rfl, .bare fun h => hc (Option.some.inj h)⟩

/-- A backslash at the end of the text belongs to no group prefix in front of it. -/
theorem of_append_backslash (h : GroupPrefix p (rest ++ ['\\'])) : GroupPrefix p rest := by
  generalize htail : rest ++ ['\\'] = tail at h
  have hhead : ∀ c, tail.head? ≠ some c → rest.head? ≠ some c := by
    intro c hne heq
    obtain ⟨rest', rfl⟩ := List.head?_eq_some_iff.1 heq
    rw [← htail] at hne
    exact hne rfl
  cases h with
  | bare hne => exact .bare (hhead _ hne)
  | last => simp [List.append_eq_singleton_iff] at htail
  | lookbehind => exact .lookbehind rest
  | negativeLookbehind => exact .negativeLookbehind rest
  | named _ hname heq hbang => exact .named rest hname heq hbang
  | unnamed hmem heq hbang =>
    rw [← htail, List.mem_append] at hmem
    exact .unnamed (fun h => hmem (.inl h)) (hhead _ heq) (hhead _ hbang)
  | char _ hc => exact .char rest hc

end GroupPrefix

/-! ## One lexeme -/

/-- The text from which a lexeme of the kind can be read. -/
def Kind.ReadFrom : Kind → List Char → Prop
  | .literal c, s => s = [c] ∨ s = ['\\', c]
  | .opening, s => s.head? = some '('
  | .closing, s => s = [')']
  | .operator op, s => ∃ c, op.symbol? = some c ∧ s = [c]

/-- The characters are read as a lexeme of the kind, if the others follow. -/
inductive Leads : Kind → List Char → List Char → Prop
  | escaped (c : Char) (rest : List Char) : Leads (.literal c) ['\\', c] rest
  | opening {p rest : List Char} : GroupPrefix p rest → Leads .opening ('(' :: p) rest
  | char {c : Char} (rest : List Char) : c ≠ '\\' → c ≠ '(' → Leads (kindOfChar c) [c] rest

theorem readFrom_kindOfChar (c : Char) : (kindOfChar c).ReadFrom [c] := by
  unfold kindOfChar
  split
  · rfl
  · exact ⟨_, rfl, rfl⟩
  · exact ⟨_, rfl, rfl⟩
  · exact ⟨_, rfl, rfl⟩
  · exact ⟨_, rfl, rfl⟩
  · exact .inl rfl

namespace Leads

variable {k : Kind} {s rest : List Char}

theorem readFrom (h : Leads k s rest) : k.ReadFrom s := by
  cases h with
  | escaped c => exact .inr rfl
  | opening => rfl
  | char => exact readFrom_kindOfChar _

theorem ne_nil (h : Leads k s rest) : s ≠ [] := by
  cases h <;> exact List.cons_ne_nil _ _

theorem append_ne_backslash (h : Leads k s rest) : s ++ rest ≠ ['\\'] := by
  cases h with
  | escaped => exact nofun
  | opening => exact nofun
  | char _ hslash => exact fun heq => hslash (List.cons.inj heq).1

/-- A text that is not at its end starts with a lexeme, unless only a backslash is left. -/
theorem exists_eq_append (cs : List Char) :
    cs = [] ∨ cs = ['\\'] ∨ ∃ k s rest, cs = s ++ rest ∧ Leads k s rest := by
  rcases cs with _ | ⟨c, cs⟩
  · exact .inl rfl
  refine .inr ?_
  by_cases hslash : c = '\\'
  · subst hslash
    rcases cs with _ | ⟨c, rest⟩
    · exact .inl rfl
    · exact .inr ⟨_, _, rest, rfl, .escaped c rest⟩
  by_cases hopen : c = '('
  · subst hopen
    obtain ⟨p, rest, rfl, hp⟩ := GroupPrefix.exists_eq_append cs
    exact .inr ⟨_, _, rest, rfl, .opening hp⟩
  · exact .inr ⟨_, _, cs, rfl, .char cs hslash hopen⟩

theorem of_append_backslash (h : Leads k s (rest ++ ['\\'])) : Leads k s rest := by
  generalize htail : rest ++ ['\\'] = tail at h
  cases h with
  | escaped c => exact .escaped c rest
  | opening hp =>
    rw [← htail] at hp
    exact .opening hp.of_append_backslash
  | char _ hslash hopen => exact .char rest hslash hopen

theorem scanFrom_append (h : Leads k s rest) (pos : Nat) : scanFrom pos (s ++ rest) =
    (scanFrom (pos + byteCount s) rest).map (⟨k, pos⟩ :: ·) := by
  cases h with
  | escaped c => exact scanFrom.eq_3 pos c rest
  | @opening p _ hp =>
    rw [List.cons_append, scanFrom.eq_4, hp.length_eq, List.take_left, List.drop_left]
  | char _ hslash hopen =>
    exact scanFrom.eq_5 pos _ rest (fun h => absurd h hslash) (fun _ _ h => absurd h hslash)
      fun h => absurd h hopen

end Leads

/-! ## All lexemes -/

/-- The lexemes of these kinds are read from the spans in a row, if the tail follows. -/
inductive Cut (tail : List Char) : List Kind → List (List Char) → Prop
  | nil : Cut tail [] []
  | cons {k : Kind} {s : List Char} {ks : List Kind} {ss : List (List Char)} :
      Leads k s (ss.flatten ++ tail) → Cut tail ks ss → Cut tail (k :: ks) (s :: ss)

/-- Where spans in a row start. -/
def starts : Nat → List (List Char) → List Nat
  | _, [] => []
  | pos, s :: ss => pos :: starts (pos + byteCount s) ss

/-- Lexemes of these kinds that start where the spans start. -/
def placed (pos : Nat) (ks : List Kind) (ss : List (List Char)) : List Lexeme :=
  List.zipWith Lexeme.mk ks (starts pos ss)

/-- Every text can be cut, and at most a backslash is left. -/
theorem exists_cut (cs : List Char) : ∃ ks ss tail, cs = ss.flatten ++ tail ∧
    (tail = [] ∨ tail = ['\\']) ∧ Cut tail ks ss := by
  induction hn : cs.length using Nat.strong_induction_on generalizing cs with
  | h n ih =>
    rcases Leads.exists_eq_append cs with rfl | rfl | ⟨k, s, rest, rfl, hleads⟩
    · exact ⟨[], [], [], rfl, .inl rfl, .nil⟩
    · exact ⟨[], [], ['\\'], rfl, .inr rfl, .nil⟩
    · have hs := List.length_pos_iff.2 hleads.ne_nil
      rw [List.length_append] at hn
      obtain ⟨ks, ss, tail, rfl, htail, hcut⟩ := ih rest.length (by omega) rest rfl
      exact ⟨k :: ks, s :: ss, tail, by simp, htail, .cons hleads hcut⟩

namespace Cut

variable {tail : List Char} {ks : List Kind} {ss : List (List Char)}

theorem of_append_backslash (h : Cut ['\\'] ks ss) : Cut [] ks ss := by
  induction h with
  | nil => exact .nil
  | cons hleads _ ih =>
    refine .cons ?_ ih
    rw [List.append_nil]
    exact hleads.of_append_backslash

theorem length_eq (h : Cut tail ks ss) : ks.length = ss.length := by
  induction h with
  | nil => rfl
  | cons _ _ ih => exact congrArg Nat.succ ih

-- Scanning reads the lexemes of the spans and goes on with the tail.
theorem scanFrom_append (h : Cut tail ks ss) (pos : Nat) : scanFrom pos (ss.flatten ++ tail) =
    (scanFrom (pos + byteCount ss.flatten) tail).map (placed pos ks ss ++ ·) := by
  induction h generalizing pos with
  | nil =>
    show scanFrom pos tail = (scanFrom pos tail).map ([] ++ ·)
    cases scanFrom pos tail <;> rfl
  | @cons k s ks ss hleads _ ih =>
    rw [List.flatten_cons, List.append_assoc, hleads.scanFrom_append, ih, byteCount_append,
      Nat.add_assoc]
    cases scanFrom (pos + (byteCount s + byteCount ss.flatten)) tail <;> rfl

theorem map_kind_placed (h : Cut tail ks ss) (pos : Nat) : (placed pos ks ss).map kind = ks := by
  induction h generalizing pos with
  | nil => rfl
  | cons _ _ ih => exact congrArg _ (ih _)

theorem map_position_placed (h : Cut tail ks ss) (pos : Nat) :
    (placed pos ks ss).map position = starts pos ss := by
  induction h generalizing pos with
  | nil => rfl
  | cons _ _ ih => exact congrArg _ (ih _)

theorem readFrom (h : Cut tail ks ss) : List.Forall₂ Kind.ReadFrom ks ss := by
  induction h with
  | nil => exact .nil
  | cons hleads _ ih => exact .cons hleads.readFrom ih

theorem ne_nil (h : Cut tail ks ss) : ∀ s ∈ ss, s ≠ [] := by
  induction h with
  | nil => exact nofun
  | cons hleads _ ih => exact List.forall_mem_cons.2 ⟨hleads.ne_nil, ih⟩

end Cut

/-! ## Positions -/

section Positions

variable {pos n : Nat} {ss : List (List Char)}

theorem le_of_mem_starts (h : n ∈ starts pos ss) : pos ≤ n := by
  induction ss generalizing pos with
  | nil => cases h
  | cons s ss ih =>
    rcases List.mem_cons.1 h with rfl | h
    · exact Nat.le_refl _
    · exact (Nat.le_add_right _ _).trans (ih h)

theorem starts_increasing (h : ∀ s ∈ ss, s ≠ []) : (starts pos ss).Pairwise (· < ·) := by
  induction ss generalizing pos with
  | nil => exact .nil
  | cons s ss ih =>
    obtain ⟨hs, hss⟩ := List.forall_mem_cons.1 h
    refine .cons (fun n hn => ?_) (ih hss)
    exact (Nat.lt_add_of_pos_right (byteCount_pos hs)).trans_le (le_of_mem_starts hn)

/-- A span starts where the spans in front of it end. -/
theorem exists_of_mem_starts (h : n ∈ starts pos ss) :
    ∃ front back, ss = front ++ back ∧ n = pos + byteCount front.flatten := by
  induction ss generalizing pos with
  | nil => cases h
  | cons s ss ih =>
    rcases List.mem_cons.1 h with rfl | h
    · exact ⟨[], s :: ss, rfl, rfl⟩
    · obtain ⟨front, back, rfl, rfl⟩ := ih h
      exact ⟨s :: front, back, rfl, by rw [List.flatten_cons, byteCount_append, Nat.add_assoc]⟩

/-- The spans of a text are known from where they start. -/
theorem eq_of_starts_eq {ss' : List (List Char)} (hstarts : starts pos ss = starts pos ss')
    (hflatten : ss.flatten = ss'.flatten) : ss = ss' := by
  induction ss generalizing pos ss' with
  | nil =>
    cases ss' with
    | nil => rfl
    | cons s' ss' => cases hstarts
  | cons s ss ih =>
    rcases ss' with _ | ⟨s', ss'⟩
    · cases hstarts
    rw [List.flatten_cons, List.flatten_cons] at hflatten
    have hrest := (List.cons.inj hstarts).2
    rcases ss with _ | ⟨t, ss⟩
    · rcases ss' with _ | ⟨t', ss'⟩
      · simpa using hflatten
      · cases hrest
    · rcases ss' with _ | ⟨t', ss'⟩
      · cases hrest
      -- the next span starts where this one ends
      · have hbytes := Nat.add_left_cancel (List.cons.inj hrest).1
        obtain ⟨rfl, hback⟩ := append_inj_of_byteCount hflatten hbytes
        exact congrArg (List.cons s) (ih hrest hback)

/-- Spans start on the boundaries of characters. -/
theorem isValid_of_mem_starts {text : String} {tail : List Char}
    (htext : text.toList = ss.flatten ++ tail) (h : n ∈ starts 0 ss) :
    String.Pos.Raw.IsValid text ⟨n⟩ := by
  obtain ⟨front, back, rfl, rfl⟩ := exists_of_mem_starts h
  refine String.Pos.Raw.isValid_iff_exists_append.2
    ⟨String.ofList front.flatten, String.ofList (back.flatten ++ tail), ?_, ?_⟩
  · apply String.toList_injective
    rw [htext, String.toList_append, String.toList_ofList, String.toList_ofList,
      List.flatten_append, List.append_assoc]
  · rw [Nat.zero_add, byteCount_eq_utf8ByteSize]
    rfl

end Positions

/-! ## Texts -/

/-- The text is cut at the positions of its lexemes into one span for each, and a tail behind them:
nothing, or a backslash that escapes nothing. -/
structure CutAt (text : String) (ls : List Lexeme) (spans : List (List Char)) (tail : List Char) :
    Prop where
  toList_eq : text.toList = spans.flatten ++ tail
  positions_eq : ls.map position = starts 0 spans
  scan_flatten : scan (String.ofList spans.flatten) = .ok ls
  scan_eq : tail = [] ∧ scan text = .ok ls ∨
    tail = ['\\'] ∧ scan text = .error (.danglingEscape (byteCount spans.flatten))

namespace CutAt

variable {text : String} {ls ls' : List Lexeme} {spans spans' : List (List Char)}
  {tail tail' : List Char}

theorem scan_of_nil (h : CutAt text ls spans []) : scan text = .ok ls := by
  rcases h.scan_eq with ⟨-, hscan⟩ | ⟨htail, -⟩
  · exact hscan
  · cases htail

theorem scan_of_backslash (h : CutAt text ls spans ['\\']) :
    scan text = .error (.danglingEscape (byteCount spans.flatten)) := by
  rcases h.scan_eq with ⟨htail, -⟩ | ⟨-, hscan⟩
  · cases htail
  · exact hscan

theorem tail_eq (h : CutAt text ls spans tail) (h' : CutAt text ls' spans' tail') :
    tail = tail' := by
  rcases h.scan_eq with ⟨htail, hscan⟩ | ⟨htail, hscan⟩ <;>
    rcases h'.scan_eq with ⟨htail', hscan'⟩ | ⟨htail', hscan'⟩
  · rw [htail, htail']
  · cases hscan.symm.trans hscan'
  · cases hscan.symm.trans hscan'
  · rw [htail, htail']

/-- A text is cut in one way only. -/
theorem unique (h : CutAt text ls spans tail) (h' : CutAt text ls' spans' tail) :
    ls = ls' ∧ spans = spans' := by
  have hflatten := List.append_cancel_right (h.toList_eq.symm.trans h'.toList_eq)
  have hscan := h.scan_flatten
  rw [hflatten, h'.scan_flatten] at hscan
  obtain rfl := Except.ok.inj hscan
  exact ⟨rfl, eq_of_starts_eq (h.positions_eq.symm.trans h'.positions_eq) hflatten⟩

end CutAt

theorem Cut.scan_eq_ok {ks : List Kind} {ss : List (List Char)} {text : String}
    (h : Cut [] ks ss) (htext : text.toList = ss.flatten) : scan text = .ok (placed 0 ks ss) := by
  have hscan := h.scanFrom_append 0
  rw [List.append_nil, scanFrom.eq_1, ← htext] at hscan
  exact hscan.trans (congrArg Except.ok (List.append_nil _))

theorem Cut.scan_eq_error {ks : List Kind} {ss : List (List Char)} {text : String}
    (h : Cut ['\\'] ks ss) (htext : text.toList = ss.flatten ++ ['\\']) :
    scan text = .error (.danglingEscape (byteCount ss.flatten)) := by
  unfold scan
  rw [htext, h.scanFrom_append, scanFrom.eq_2, Nat.zero_add]
  rfl

theorem Cut.cutAt {ks : List Kind} {ss : List (List Char)} {tail : List Char} {text : String}
    (h : Cut tail ks ss) (htail : tail = [] ∨ tail = ['\\'])
    (htext : text.toList = ss.flatten ++ tail) : CutAt text (placed 0 ks ss) ss tail := by
  rcases htail with rfl | rfl
  · exact ⟨htext, h.map_position_placed 0, h.scan_eq_ok String.toList_ofList,
      .inl ⟨rfl, h.scan_eq_ok (htext.trans (List.append_nil _))⟩⟩
  · exact ⟨htext, h.map_position_placed 0, h.of_append_backslash.scan_eq_ok String.toList_ofList,
      .inr ⟨rfl, h.scan_eq_error htext⟩⟩

theorem exists_cutAt (text : String) : ∃ ls spans tail, CutAt text ls spans tail := by
  obtain ⟨ks, ss, tail, htext, htail, hcut⟩ := exists_cut text.toList
  exact ⟨_, ss, tail, hcut.cutAt htail htext⟩

namespace CutAt

variable {text : String} {ls : List Lexeme} {spans : List (List Char)} {tail : List Char}

theorem cut (h : CutAt text ls spans tail) : Cut tail (ls.map kind) spans := by
  obtain ⟨ks, ss, tail', htext, htail, hcut⟩ := exists_cut text.toList
  have hcutAt := hcut.cutAt htail htext
  obtain rfl := h.tail_eq hcutAt
  obtain ⟨rfl, rfl⟩ := h.unique hcutAt
  rw [hcut.map_kind_placed]
  exact hcut

theorem readFrom (h : CutAt text ls spans tail) :
    List.Forall₂ (fun l s => l.kind.ReadFrom s) ls spans :=
  List.forall₂_map_left_iff.1 h.cut.readFrom

/-- The first lexeme starts with the text. -/
theorem position_head (h : CutAt text ls spans tail) : ∀ l ∈ ls.head?, l.position = 0 := by
  intro l hl
  have hstart : l.position ∈ (starts 0 spans).head? := by
    rw [← h.positions_eq, List.head?_map]
    exact Option.mem_map_of_mem position hl
  cases spans with
  | nil => cases hstart
  | cons => exact (Option.some.inj hstart).symm

theorem positions_increasing (h : CutAt text ls spans tail) :
    (ls.map position).Pairwise (· < ·) := by
  rw [h.positions_eq]
  exact starts_increasing h.cut.ne_nil

theorem isValid_position (h : CutAt text ls spans tail) :
    ∀ l ∈ ls, String.Pos.Raw.IsValid text ⟨l.position⟩ := by
  intro l hl
  refine isValid_of_mem_starts h.toList_eq ?_
  rw [← h.positions_eq]
  exact List.mem_map_of_mem hl

/-- A backslash behind the spans is the last byte of the text. -/
theorem byteCount_add_one (h : CutAt text ls spans ['\\']) :
    byteCount spans.flatten + 1 = text.utf8ByteSize := by
  have hbytes := byteCount_eq_utf8ByteSize text.toList
  rw [String.ofList_toList, h.toList_eq, byteCount_append] at hbytes
  exact hbytes

end CutAt

end Kleene.Lexeme
