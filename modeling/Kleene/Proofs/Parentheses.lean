import Kleene.Proofs.Evaluation
import Kleene.Regex.Lexeme

/-!
# Parentheses

Which parenthesis belongs to which is given by the lexemes that match.  Counting the open ones from
left to right, by their positions, finds the first parenthesis that is wrong: a closing one without
counterpart stops the count, and if there is none, the last of those that stay open is on top.
-/

namespace Kleene

/-! ## Counterparts -/

/-- Every parenthesis among the lexemes has its counterpart. -/
inductive Balanced : List Lexeme → Prop
  | nil : Balanced []
  | other {l : Lexeme} {ls : List Lexeme} : l.kind ≠ .opening → l.kind ≠ .closing →
      Balanced ls → Balanced (l :: ls)
  | group {o c : Lexeme} {ls ls' : List Lexeme} : o.kind = .opening → c.kind = .closing →
      Balanced ls → Balanced ls' → Balanced (o :: (ls ++ c :: ls'))

/-- A closing parenthesis behind the lexemes has its counterpart among them. -/
def HasOpening (ls : List Lexeme) : Prop :=
  ∃ before o inner, ls = before ++ o :: inner ∧ o.kind = .opening ∧ Balanced inner

/-- An opening parenthesis in front of the lexemes has its counterpart among them. -/
def HasClosing (ls : List Lexeme) : Prop :=
  ∃ inner c after, ls = inner ++ c :: after ∧ c.kind = .closing ∧ Balanced inner

/-- The first closing parenthesis that has no counterpart. -/
def FirstStray (ls : List Lexeme) (l : Lexeme) : Prop :=
  ∃ front back, ls = front ++ l :: back ∧ l.kind = .closing ∧ ¬ HasOpening front ∧
    ∀ before c inner, front = before ++ c :: inner → c.kind = .closing → HasOpening before

/-- The last opening parenthesis that has no counterpart. -/
def LastUnclosed (ls : List Lexeme) (l : Lexeme) : Prop :=
  ∃ front back, ls = front ++ l :: back ∧ l.kind = .opening ∧ ¬ HasClosing back ∧
    ∀ inner o after, back = inner ++ o :: after → o.kind = .opening → HasClosing after

variable {ls ls' front back : List Lexeme} {l : Lexeme} {s t : List Nat} {e : RegexError}

theorem Balanced.append (h : Balanced ls) (h' : Balanced ls') : Balanced (ls ++ ls') := by
  induction h with
  | nil => exact h'
  | other hopening hclosing _ ih => exact .other hopening hclosing ih
  | group ho hc hinner _ _ ih =>
    rw [List.cons_append, List.append_assoc]
    exact .group ho hc hinner ih

/-! ## Counting by positions -/

namespace Lexeme

/-- The positions of the parentheses that are open after the lexeme, innermost first. -/
def nest (opened : List Nat) (l : Lexeme) : Except RegexError (List Nat) :=
  match l.kind, opened with
  | .opening, opened => .ok (l.position :: opened)
  | .closing, [] => .error (.unbalancedParenthesis l.position)
  | .closing, _ :: opened => .ok opened
  | _, opened => .ok opened

theorem nest_opening (h : l.kind = .opening) : nest s l = .ok (l.position :: s) := by
  unfold nest
  rw [h]

theorem nest_closing (h : l.kind = .closing) (pos : Nat) : nest (pos :: s) l = .ok s := by
  unfold nest
  rw [h]

theorem nest_other (hopening : l.kind ≠ .opening) (hclosing : l.kind ≠ .closing) :
    nest s l = .ok s := by
  unfold nest
  split <;> first | rfl | contradiction

theorem nest_eq_error_iff : nest s l = .error e ↔
    l.kind = .closing ∧ s = [] ∧ e = .unbalancedParenthesis l.position := by
  unfold nest
  cases l.kind <;> cases s <;> simp [eq_comm]

/-- Parentheses that are open further out stay open. -/
theorem nest_append (h : nest s l = .ok t) (r : List Nat) : nest (s ++ r) l = .ok (t ++ r) := by
  by_cases hopening : l.kind = .opening
  · rw [nest_opening hopening] at h ⊢
    cases h
    rfl
  · by_cases hclosing : l.kind = .closing
    · cases s with
      | nil => rw [nest_eq_error_iff.2 ⟨hclosing, rfl, rfl⟩] at h; cases h
      | cons pos s =>
        rw [nest_closing hclosing] at h
        cases h
        exact nest_closing hclosing pos
    · rw [nest_other hopening hclosing] at h ⊢
      cases h
      rfl

theorem foldlM_nest_append (h : ls.foldlM nest s = .ok t) (r : List Nat) :
    ls.foldlM nest (s ++ r) = .ok (t ++ r) :=
  foldlM_map_eq_ok (g := (· ++ r)) (fun _ _ _ hl => nest_append hl r) h

end Lexeme

open Lexeme (nest)

/-- Lexemes that match leave no parenthesis open and close none. -/
theorem Balanced.foldlM_nest (h : Balanced ls) (s : List Nat) : ls.foldlM nest s = .ok s := by
  induction h generalizing s with
  | nil => rfl
  | other hopening hclosing _ ih =>
    rw [foldlM_cons_of_ok (Lexeme.nest_other hopening hclosing), ih]
  | group ho hc _ _ ih ih' =>
    rw [foldlM_cons_of_ok (Lexeme.nest_opening ho), foldlM_append_of_ok (ih _),
      foldlM_cons_of_ok (Lexeme.nest_closing hc _), ih']

/-- The parentheses at these positions, innermost first, are open behind the lexemes, and all
others match. -/
inductive Leaves : List Nat → List Lexeme → Prop
  | balanced {ls : List Lexeme} : Balanced ls → Leaves [] ls
  | opening {s : List Nat} {front back : List Lexeme} {o : Lexeme} : Leaves s front →
      o.kind = .opening → Balanced back → Leaves (o.position :: s) (front ++ o :: back)

namespace Leaves

theorem append (h : Leaves s ls) (h' : Balanced ls') : Leaves s (ls ++ ls') := by
  cases h with
  | balanced h => exact .balanced (h.append h')
  | opening h ho hback =>
    rw [List.append_assoc]
    exact .opening h ho (hback.append h')

theorem snoc (h : Leaves s ls) (hl : nest s l = .ok t) : Leaves t (ls ++ [l]) := by
  by_cases hopening : l.kind = .opening
  · rw [Lexeme.nest_opening hopening] at hl
    cases hl
    exact .opening h hopening .nil
  · by_cases hclosing : l.kind = .closing
    · cases h with
      | balanced =>
        rw [Lexeme.nest_eq_error_iff.2 ⟨hclosing, rfl, rfl⟩] at hl
        cases hl
      | opening h ho hback =>
        -- the innermost of the open parentheses is closed, and the group matches
        rw [Lexeme.nest_closing hclosing] at hl
        cases hl
        rw [List.append_assoc]
        exact h.append (.group ho hclosing hback .nil)
    · rw [Lexeme.nest_other hopening hclosing] at hl
      cases hl
      exact h.append (.other hopening hclosing .nil)

end Leaves

theorem foldlM_nest_iff_leaves : ls.foldlM nest [] = .ok s ↔ Leaves s ls := by
  constructor
  · intro h
    induction ls using List.reverseRecOn generalizing s with
    | nil =>
      cases h
      exact .balanced .nil
    | append_singleton ls l ih =>
      obtain ⟨s', hs', hl⟩ := exists_of_foldlM_append h
      obtain ⟨s'', hnest, hnil⟩ := exists_of_foldlM_cons hl
      cases hnil
      exact (ih hs').snoc hnest
  · intro h
    induction h with
    | balanced h => exact h.foldlM_nest []
    | opening _ ho hback ih =>
      rw [foldlM_append_of_ok ih, foldlM_cons_of_ok (Lexeme.nest_opening ho), hback.foldlM_nest]

theorem balanced_iff_foldlM_nest : Balanced ls ↔ ls.foldlM nest [] = .ok [] := by
  rw [foldlM_nest_iff_leaves]
  refine ⟨.balanced, fun h => ?_⟩
  cases h with
  | balanced h => exact h

/-! ## Which parenthesis is wrong -/

theorem hasOpening_iff (h : ls.foldlM nest [] = .ok s) : HasOpening ls ↔ s ≠ [] := by
  constructor
  · rintro ⟨before, o, inner, rfl, ho, hinner⟩
    obtain ⟨s', -, hrest⟩ := exists_of_foldlM_append h
    rw [foldlM_cons_of_ok (Lexeme.nest_opening ho), hinner.foldlM_nest] at hrest
    cases hrest
    exact List.cons_ne_nil _ _
  · intro hs
    cases foldlM_nest_iff_leaves.1 h with
    | balanced => exact absurd rfl hs
    | opening _ ho hback => exact ⟨_, _, _, rfl, ho, hback⟩

/-- A closing parenthesis finds its counterpart wherever counting goes on. -/
theorem exists_foldlM_nest_iff : (∃ s, ls.foldlM nest [] = .ok s) ↔
    ∀ before c inner, ls = before ++ c :: inner → c.kind = .closing → HasOpening before := by
  constructor
  · rintro ⟨s, hs⟩ before c inner rfl hc
    obtain ⟨s', hbefore, hrest⟩ := exists_of_foldlM_append hs
    refine (hasOpening_iff hbefore).2 ?_
    rintro rfl
    obtain ⟨s'', hnest, -⟩ := exists_of_foldlM_cons hrest
    rw [Lexeme.nest_eq_error_iff.2 ⟨hc, rfl, rfl⟩] at hnest
    cases hnest
  · intro h
    cases hs : ls.foldlM nest [] with
    | ok s => exact ⟨s, rfl⟩
    | error e =>
      obtain ⟨before, c, inner, s, hls, hbefore, hc⟩ := foldlM_eq_error_iff.1 hs
      obtain ⟨hclosing, hnil, -⟩ := Lexeme.nest_eq_error_iff.1 hc
      exact absurd hnil ((hasOpening_iff hbefore).1 (h before c inner hls hclosing))

theorem foldlM_nest_eq_error_iff : ls.foldlM nest [] = .error e ↔
    ∃ l, FirstStray ls l ∧ e = .unbalancedParenthesis l.position := by
  rw [foldlM_eq_error_iff]
  constructor
  · rintro ⟨front, l, back, s, rfl, hfront, hl⟩
    obtain ⟨hclosing, rfl, rfl⟩ := Lexeme.nest_eq_error_iff.1 hl
    exact ⟨l, ⟨front, back, rfl, hclosing, fun h => (hasOpening_iff hfront).1 h rfl,
      exists_foldlM_nest_iff.1 ⟨[], hfront⟩⟩, rfl⟩
  · rintro ⟨l, ⟨front, back, rfl, hclosing, hno, hothers⟩, rfl⟩
    obtain ⟨s, hs⟩ := exists_foldlM_nest_iff.2 hothers
    have hnil : s = [] := by
      by_contra hne
      exact hno ((hasOpening_iff hs).2 hne)
    exact ⟨front, l, back, s, rfl, hs, Lexeme.nest_eq_error_iff.2 ⟨hclosing, hnil, rfl⟩⟩

/-- Counting breaks off in lexemes that close a parenthesis in front of them. -/
theorem hasClosing_iff : HasClosing ls ↔ ∃ e, ls.foldlM nest [] = .error e := by
  constructor
  · rintro ⟨inner, c, after, rfl, hc, hinner⟩
    exact ⟨_, foldlM_eq_error_iff.2 ⟨inner, c, after, [], rfl, hinner.foldlM_nest [],
      Lexeme.nest_eq_error_iff.2 ⟨hc, rfl, rfl⟩⟩⟩
  · rintro ⟨e, h⟩
    obtain ⟨inner, c, after, s, hls, hinner, hc⟩ := foldlM_eq_error_iff.1 h
    obtain ⟨hclosing, rfl, -⟩ := Lexeme.nest_eq_error_iff.1 hc
    exact ⟨inner, c, after, hls, hclosing, balanced_iff_foldlM_nest.2 hinner⟩

theorem Balanced.not_hasClosing (h : Balanced ls) : ¬ HasClosing ls := by
  rw [hasClosing_iff, h.foldlM_nest]
  exact fun ⟨e, he⟩ => by cases he

/-- Lexemes match if they close nothing in front of them and all parentheses of their own. -/
theorem balanced_iff_closes : Balanced ls ↔ ¬ HasClosing ls ∧
    ∀ inner o after, ls = inner ++ o :: after → o.kind = .opening → HasClosing after := by
  constructor
  · intro h
    refine ⟨h.not_hasClosing, ?_⟩
    rintro inner o after rfl ho
    obtain ⟨s, -, hrest⟩ := exists_of_foldlM_append (h.foldlM_nest [])
    rw [foldlM_cons_of_ok (Lexeme.nest_opening ho)] at hrest
    cases hafter : after.foldlM nest [] with
    | error e => exact hasClosing_iff.2 ⟨e, hafter⟩
    | ok t =>
      -- without a counterpart the parenthesis would stay open
      have hopen := Lexeme.foldlM_nest_append hafter (o.position :: s)
      rw [List.nil_append, hrest] at hopen
      simp at hopen
  · rintro ⟨hno, hothers⟩
    cases hls : ls.foldlM nest [] with
    | error e => exact absurd (hasClosing_iff.2 ⟨e, hls⟩) hno
    | ok s =>
      cases foldlM_nest_iff_leaves.1 hls with
      | balanced h => exact h
      | opening _ ho hback => exact absurd (hothers _ _ _ rfl ho) hback.not_hasClosing

theorem lastUnclosed_iff : LastUnclosed ls l ↔
    ∃ front back, ls = front ++ l :: back ∧ l.kind = .opening ∧ Balanced back := by
  simp only [LastUnclosed, ← balanced_iff_closes]

theorem foldlM_nest_eq_ok_cons_iff {pos : Nat} : (∃ s, ls.foldlM nest [] = .ok (pos :: s)) ↔
    (¬ ∃ l, FirstStray ls l) ∧ ∃ l, LastUnclosed ls l ∧ l.position = pos := by
  simp only [lastUnclosed_iff]
  constructor
  · rintro ⟨s, hs⟩
    constructor
    · rintro ⟨l, hl⟩
      rw [foldlM_nest_eq_error_iff.2 ⟨l, hl, rfl⟩] at hs
      cases hs
    · cases foldlM_nest_iff_leaves.1 hs with
      | opening _ ho hback => exact ⟨_, ⟨_, _, rfl, ho, hback⟩, rfl⟩
  · rintro ⟨hno, l, ⟨front, back, rfl, hl, hback⟩, rfl⟩
    cases hs : (front ++ l :: back).foldlM nest [] with
    | error e =>
      obtain ⟨l', hl', -⟩ := foldlM_nest_eq_error_iff.1 hs
      exact absurd ⟨l', hl'⟩ hno
    | ok s =>
      obtain ⟨s', -, hrest⟩ := exists_of_foldlM_append hs
      rw [foldlM_cons_of_ok (Lexeme.nest_opening hl), hback.foldlM_nest] at hrest
      cases hrest
      exact ⟨s', rfl⟩

end Kleene
