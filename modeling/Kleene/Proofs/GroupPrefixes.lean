import Kleene.Proofs.Scanning

/-!
# Group prefixes without meaning

A parenthesis with a group prefix is read like one without.  The scan gives lexemes of the same
kinds, and the reader only carries their positions along, so that the expression is the same, and a
fault is the same fault at another position.
-/

namespace Kleene

/-! ## Positions -/

/-- The same fault, at the position that `f` gives for its own. -/
def RegexError.relocate (f : Nat → Nat) : RegexError → RegexError
  | danglingEscape n => danglingEscape (f n)
  | unbalancedParenthesis n => unbalancedParenthesis (f n)
  | e => e

def Lexeme.relocate (f : Nat → Nat) (l : Lexeme) : Lexeme := ⟨l.kind, f l.position⟩

namespace Yard

variable (f : Nat → Nat)

def relocateWaiting (waiting : List (Operator × Nat)) : List (Operator × Nat) :=
  waiting.map (Prod.map id f)

def relocate (y : Yard) : Yard := ⟨y.output, relocateWaiting f y.waiting, y.afterOperand⟩

theorem release_relocate (op : Operator) (output : List (Token Char))
    (waiting : List (Operator × Nat)) :
    release op output (relocateWaiting f waiting) =
      Prod.map id (relocateWaiting f) (release op output waiting) := by
  induction waiting generalizing output with
  | nil => rfl
  | cons x waiting ih =>
    show release op output (Prod.map id f x :: relocateWaiting f waiting) = _
    unfold release
    rw [Prod.map_fst, id_eq]
    split
    · rfl
    · exact ih _

theorem apply_relocate (y : Yard) (op : Operator) (k : Nat) :
    (y.relocate f).apply op (f k) = (y.apply op k).relocate f := by
  have hrelease := release_relocate f op y.output y.waiting
  unfold apply
  simp only [relocate, hrelease]
  split <;> rfl

theorem juxtapose_relocate (y : Yard) (k : Nat) :
    (y.relocate f).juxtapose (f k) = (y.juxtapose k).relocate f := by
  unfold juxtapose
  show (if y.afterOperand = true then (y.relocate f).apply .concat (f k) else y.relocate f) = _
  split
  · exact apply_relocate f y .concat k
  · rfl

theorem unwind?_relocate (output : List (Token Char)) (waiting : List (Operator × Nat)) :
    unwind? output (relocateWaiting f waiting) =
      (unwind? output waiting).map (Prod.map id (relocateWaiting f)) := by
  induction waiting generalizing output with
  | nil => rfl
  | cons x waiting ih =>
    rcases x with ⟨op, k⟩
    by_cases hopen : op = .groupOpen
    · rw [hopen]
      rfl
    · show unwind? output ((op, f k) :: relocateWaiting f waiting) = _
      rw [unwind?.eq_3 _ _ _ _ hopen, unwind?.eq_3 _ _ _ _ hopen, ih]

theorem flush_relocate (output : List (Token Char)) (waiting : List (Operator × Nat)) :
    flush output (relocateWaiting f waiting) =
      (flush output waiting).mapError (RegexError.relocate f) := by
  induction waiting generalizing output with
  | nil => rfl
  | cons x waiting ih =>
    rcases x with ⟨op, k⟩
    by_cases hopen : op = .groupOpen
    · rw [hopen]
      rfl
    · show flush output ((op, f k) :: relocateWaiting f waiting) = _
      rw [flush.eq_3 _ _ _ _ hopen, flush.eq_3 _ _ _ _ hopen, ih]

theorem read_relocate (y : Yard) (l : Lexeme) :
    (y.relocate f).read (l.relocate f) =
      ((y.read l).map (relocate f)).mapError (RegexError.relocate f) := by
  unfold read
  cases hkind : l.kind with
  | literal c =>
    simp only [Lexeme.relocate, hkind, juxtapose_relocate]
    rfl
  | opening =>
    simp only [Lexeme.relocate, hkind, juxtapose_relocate]
    rfl
  | closing =>
    simp only [Lexeme.relocate, hkind, relocate, unwind?_relocate]
    cases unwind? y.output y.waiting <;> rfl
  | operator op =>
    simp only [Lexeme.relocate, hkind, apply_relocate]
    rfl

theorem foldlM_read_relocate (ls : List Lexeme) (y : Yard) :
    (ls.map (Lexeme.relocate f)).foldlM read (y.relocate f) =
      ((ls.foldlM read y).map (relocate f)).mapError (RegexError.relocate f) := by
  induction ls generalizing y with
  | nil => rfl
  | cons l ls ih =>
    rw [List.map_cons, List.foldlM_cons, List.foldlM_cons, read_relocate]
    cases y.read l with
    | error e => rfl
    | ok y' => exact ih y'

end Yard

/-- Where lexemes stand matters only for where a fault is found. -/
theorem Postfix.ofLexemes_relocate (f : Nat → Nat) (ls : List Lexeme) :
    ofLexemes (ls.map (Lexeme.relocate f)) = (ofLexemes ls).mapError (RegexError.relocate f) := by
  have hfold := Yard.foldlM_read_relocate f ls Yard.start
  rw [show Yard.start.relocate f = Yard.start from rfl] at hfold
  unfold ofLexemes
  rw [hfold]
  cases ls.foldlM Yard.read Yard.start with
  | error e => rfl
  | ok y =>
    show (Yard.flush y.output (Yard.relocateWaiting f y.waiting)).map List.reverse =
      ((Yard.flush y.output y.waiting).map List.reverse).mapError (RegexError.relocate f)
    rw [Yard.flush_relocate]
    cases Yard.flush y.output y.waiting <;> rfl

namespace Lexeme

/-! ## Parentheses with prefixes -/

/-- An opening parenthesis with a group prefix.  A name has no `>`, and it does not start like a
lookbehind. -/
inductive GroupStart : List Char → Prop
  | nonCapturing : GroupStart ['(', '?', ':']
  | lookahead : GroupStart ['(', '?', '=']
  | negativeLookahead : GroupStart ['(', '?', '!']
  | lookbehind : GroupStart ['(', '?', '<', '=']
  | negativeLookbehind : GroupStart ['(', '?', '<', '!']
  | named {name : List Char} : '>' ∉ name → name.head? ≠ some '=' → name.head? ≠ some '!' →
      GroupStart ('(' :: '?' :: '<' :: (name ++ ['>']))

theorem GroupStart.leads {s : List Char} (h : GroupStart s) (rest : List Char) :
    Leads .opening s rest := by
  cases h with
  | nonCapturing => exact .opening (.char rest (by decide))
  | lookahead => exact .opening (.char rest (by decide))
  | negativeLookahead => exact .opening (.char rest (by decide))
  | lookbehind => exact .opening (.lookbehind rest)
  | negativeLookbehind => exact .opening (.negativeLookbehind rest)
  | named hname heq hbang => exact .opening (.named rest hname heq hbang)

/-- All spans are kept, except that some opening lexemes are given a group prefix. -/
inductive Regrouped : List Kind → List (List Char) → List (List Char) → Prop
  | nil : Regrouped [] [] []
  | keep {k : Kind} {s : List Char} {ks : List Kind} {ss ss' : List (List Char)} :
      Regrouped ks ss ss' → Regrouped (k :: ks) (s :: ss) (s :: ss')
  | group {s s' : List Char} {ks : List Kind} {ss ss' : List (List Char)} :
      GroupStart s' → Regrouped ks ss ss' → Regrouped (.opening :: ks) (s :: ss) (s' :: ss')

/-- No opening lexeme has a group prefix. -/
abbrev Bare (ks : List Kind) (ss : List (List Char)) : Prop :=
  List.Forall₂ (fun k s => k = .opening → s = ['(']) ks ss

section Regrouping

variable {tail : List Char} {ks : List Kind} {ss ss' : List (List Char)}

/-- A bare parenthesis minds only whether it is followed by a question mark, and whether that is the
end. -/
theorem Leads.of_head? {k : Kind} {s rest rest' : List Char} (h : Leads k s rest)
    (hbare : k = .opening → s = ['(']) (hhead : rest'.head? = rest.head?)
    (hlast : rest = ['?'] → rest' = ['?']) : Leads k s rest' := by
  cases h with
  | escaped c => exact .escaped c rest'
  | char _ hslash hopen => exact .char rest' hslash hopen
  | opening hp =>
    obtain rfl := (List.cons.inj (hbare rfl)).2
    cases hp with
    | bare hno =>
      rw [← hhead] at hno
      exact .opening (.bare hno)
    | last =>
      rw [hlast rfl]
      exact .opening .last

/-- What follows a lexeme starts with the same character as before. -/
theorem Regrouped.head?_eq (h : Regrouped ks ss ss') (hbare : Bare ks ss) (hcut : Cut tail ks ss) :
    (ss'.flatten ++ tail).head? = (ss.flatten ++ tail).head? := by
  cases h with
  | nil => rfl
  | @keep k s =>
    cases s with
    | nil => exact absurd rfl (hcut.ne_nil [] List.mem_cons_self)
    | cons => rfl
  | group hs' =>
    cases hbare with
    | cons hs =>
      rw [hs rfl]
      cases hs' <;> rfl

theorem Regrouped.eq_self (h : Regrouped ks ss ss') (hbare : Bare ks ss)
    (hno : '(' ∉ ss.flatten) : ss' = ss := by
  induction h with
  | nil => rfl
  | keep _ ih =>
    rw [List.flatten_cons, List.mem_append, not_or] at hno
    cases hbare with
    | cons _ hbare => rw [ih hbare hno.2]
  | group =>
    cases hbare with
    | cons hs =>
      rw [hs rfl] at hno
      exact absurd List.mem_cons_self hno

/-- Group prefixes leave all other lexemes as they are. -/
theorem Cut.regrouped (hcut : Cut tail ks ss) (hbare : Bare ks ss) (h : Regrouped ks ss ss') :
    Cut tail ks ss' := by
  induction h with
  | nil => exact hcut
  | @keep k s ks ss ss' h ih =>
    cases hcut with
    | cons hleads hcut =>
      cases hbare with
      | cons hs hbare =>
        refine .cons (hleads.of_head? hs (h.head?_eq hbare hcut) fun hlast => ?_) (ih hcut hbare)
        have hno : '(' ∉ ss.flatten := fun hmem => by
          have hin := List.mem_append_left tail hmem
          rw [hlast] at hin
          cases hin with
          | tail _ hin => cases hin
        rw [h.eq_self hbare hno, hlast]
  | group hs' _ ih =>
    cases hcut with
    | cons _ hcut =>
      cases hbare with
      | cons _ hbare => exact .cons (hs'.leads _) (ih hcut hbare)

/-- Positions move with the spans, and so does the end. -/
theorem exists_relocation (pos pos' : Nat) (hlength : ss'.length = ss.length)
    (h : ∀ s ∈ ss, s ≠ []) : ∃ f, starts pos' ss' = (starts pos ss).map f ∧
      f (pos + byteCount ss.flatten) = pos' + byteCount ss'.flatten := by
  induction ss generalizing pos pos' ss' with
  | nil =>
    obtain rfl := List.length_eq_zero_iff.1 hlength
    exact ⟨fun _ => pos', rfl, rfl⟩
  | cons s ss ih =>
    cases ss' with
    | nil => cases hlength
    | cons s' ss' =>
      obtain ⟨hs, hss⟩ := List.forall_mem_cons.1 h
      have hpos := byteCount_pos hs
      obtain ⟨f, hf, hend⟩ :=
        ih (pos + byteCount s) (pos' + byteCount s') (Nat.succ.inj hlength) hss
      -- the first span starts in front of all others
      have hlater : ∀ n ∈ starts (pos + byteCount s) ss, n ≠ pos := by
        intro n hn
        have hle := le_of_mem_starts hn
        omega
      refine ⟨fun n => if n = pos then pos' else f n, ?_, ?_⟩
      · rw [starts, starts, List.map_cons, if_pos rfl, hf]
        exact congrArg _ (List.map_congr_left fun n hn => (if_neg (hlater n hn)).symm)
      · simp only [List.flatten_cons, byteCount_append, ← Nat.add_assoc]
        rw [if_neg (by omega), hend]

theorem placed_eq_map {ls : List Lexeme} {f : Nat → Nat}
    (h : starts 0 ss' = (ls.map position).map f) :
    placed 0 (ls.map kind) ss' = ls.map (relocate f) := by
  rw [placed, h, List.map_map, List.zipWith_map, List.zipWith_self]
  rfl

end Regrouping

end Lexeme

open Lexeme in
-- Group prefixes move the lexemes and change nothing else.
theorem Postfix.ofText_regrouped {text text' : String} {ls : List Lexeme}
    {spans spans' : List (List Char)} {tail : List Char} (hcut : CutAt text ls spans tail)
    (hbare : Bare (ls.map kind) spans) (h : Regrouped (ls.map kind) spans spans')
    (htext' : text'.toList = spans'.flatten ++ tail) :
    ∃ f, CutAt text' (ls.map (Lexeme.relocate f)) spans' tail ∧
      ofText text' = (ofText text).mapError (RegexError.relocate f) := by
  have hkinds := hcut.cut
  have hkinds' := hkinds.regrouped hbare h
  obtain ⟨f, hstarts, hend⟩ := exists_relocation 0 0
    (hkinds'.length_eq.symm.trans hkinds.length_eq) hkinds.ne_nil
  rw [← hcut.positions_eq] at hstarts
  have htail : tail = [] ∨ tail = ['\\'] := hcut.scan_eq.imp And.left And.left
  have hcut' := hkinds'.cutAt htail htext'
  rw [placed_eq_map hstarts] at hcut'
  refine ⟨f, hcut', ?_⟩
  rcases hcut.scan_eq with ⟨rfl, hscan⟩ | ⟨rfl, hscan⟩
  · rw [ofText_of_scan hscan, ofText_of_scan hcut'.scan_of_nil, ofLexemes_relocate]
  · have hscan' := hcut'.scan_of_backslash
    rw [Nat.zero_add, Nat.zero_add] at hend
    unfold ofText
    rw [hscan, hscan', ← hend]
    rfl

open Lexeme in
theorem Postfix.ofText_regrouped_name :
    let ls : List Lexeme := [⟨.opening, 0⟩, ⟨.literal 'é', 1⟩, ⟨.opening, 3⟩, ⟨.literal '*', 4⟩,
      ⟨.closing, 6⟩, ⟨.opening, 7⟩, ⟨.operator .optional, 8⟩]
    let spans : List (List Char) := [['('], ['é'], ['('], ['\\', '*'], [')'], ['('], ['?']]
    let spans' : List (List Char) :=
      [['(', '?', '<', '(', '\\', '>'], ['é'], ['(', '?', '='], ['\\', '*'], [')'], ['('], ['?']]
    CutAt "(é(\\*)(?" ls spans [] ∧ Bare (ls.map kind) spans ∧
      Regrouped (ls.map kind) spans spans' ∧
      ∃ f, CutAt "(?<(\\>é(?=\\*)(?" (ls.map (Lexeme.relocate f)) spans' [] ∧
        ofText "(?<(\\>é(?=\\*)(?" = (ofText "(é(\\*)(?").mapError (RegexError.relocate f) := by
  intro ls spans spans'
  have hscan : scan "(é(\\*)(?" = .ok ls := by decide +kernel
  have hcut : CutAt "(é(\\*)(?" ls spans [] := ⟨by decide, by decide, hscan, .inl ⟨rfl, hscan⟩⟩
  have hbare : Bare (ls.map kind) spans := by
    simp [Bare, ls, spans]
  have hname : GroupStart ['(', '?', '<', '(', '\\', '>'] :=
    @GroupStart.named ['(', '\\'] (by decide) (by decide) (by decide)
  have hgroup : Regrouped (ls.map kind) spans spans' :=
    .group hname (.keep (.group .lookahead (.keep (.keep (.keep (.keep .nil))))))
  exact ⟨hcut, hbare, hgroup, ofText_regrouped hcut hbare hgroup (by decide)⟩

end Kleene
