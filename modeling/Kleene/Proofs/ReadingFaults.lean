import Kleene.Proofs.ExpressionTrees
import Kleene.Proofs.Parentheses

/-!
# Faults of a text

The reader fails at the first parenthesis that is wrong, for what waits between the parentheses
plays no part in which of them are open.  The tokens of all other texts can lack operands, but each
of their operands is joined to the one before it, so that one value is left at most.
-/

namespace Kleene

open Lexeme (Kind nest)

namespace Yard

variable {output : List (Token Char)} {waiting : List (Operator × Nat)} {y : Yard} {l : Lexeme}
  {op : Operator}

/-! ## Open parentheses -/

/-- The positions of the parentheses that wait, innermost first. -/
def opened (waiting : List (Operator × Nat)) : List Nat :=
  (waiting.filter fun x => x.1 = .groupOpen).map Prod.snd

theorem opened_cons_of_ne (k : Nat) (h : op ≠ .groupOpen) :
    opened ((op, k) :: waiting) = opened waiting := by
  unfold opened
  rw [List.filter_cons_of_neg (by simpa using h)]

theorem opened_groupOpen (k : Nat) : opened ((.groupOpen, k) :: waiting) = k :: opened waiting := by
  unfold opened
  rw [List.filter_cons_of_pos (by simp)]
  rfl

theorem opened_release (op : Operator) (output : List (Token Char))
    (waiting : List (Operator × Nat)) : opened (release op output waiting).2 = opened waiting := by
  induction waiting generalizing output with
  | nil => rfl
  | cons x waiting ih =>
    unfold release
    split
    · rfl
    · rename_i hbinds
      rw [ih, opened_cons_of_ne x.2 (ne_groupOpen_of_binds hbinds)]

theorem opened_apply (y : Yard) (hop : op ≠ .groupOpen) (k : Nat) :
    opened (y.apply op k).waiting = opened y.waiting := by
  have hrelease := opened_release op y.output y.waiting
  unfold apply
  generalize release op y.output y.waiting = r at hrelease
  by_cases hquantifier : op.isQuantifier = true
  · simp only [hquantifier, if_true]
    exact hrelease
  · simp only [hquantifier, if_false, Bool.false_eq_true]
    rw [opened_cons_of_ne k hop, hrelease]

theorem opened_juxtapose (y : Yard) (k : Nat) :
    opened (y.juxtapose k).waiting = opened y.waiting := by
  unfold juxtapose
  split
  · exact y.opened_apply (by decide) k
  · rfl

/-- A closing parenthesis closes the innermost of the open ones. -/
theorem opened_unwind? (output : List (Token Char)) (waiting : List (Operator × Nat)) :
    (unwind? output waiting).map (fun r => opened r.2) = (opened waiting).tail? := by
  induction waiting generalizing output with
  | nil => rfl
  | cons x waiting ih =>
    rcases x with ⟨op, k⟩
    by_cases hopen : op = .groupOpen
    · rw [hopen, opened_groupOpen]
      rfl
    · rw [unwind?.eq_3 _ _ _ _ hopen, ih, opened_cons_of_ne k hopen]

/-- At the end the innermost of the open parentheses is the one at fault. -/
theorem flush_eq_error_iff {e : RegexError} : flush output waiting = .error e ↔
    ∃ pos s, opened waiting = pos :: s ∧ e = .unbalancedParenthesis pos := by
  induction waiting generalizing output with
  | nil => exact ⟨fun h => (by cases h), fun ⟨_, _, h, _⟩ => (by cases h)⟩
  | cons x waiting ih =>
    rcases x with ⟨op, k⟩
    by_cases hopen : op = .groupOpen
    · rw [hopen, opened_groupOpen]
      constructor
      · intro h
        cases h
        exact ⟨k, _, rfl, rfl⟩
      · rintro ⟨pos, s, hpos, rfl⟩
        rw [(List.cons.inj hpos).1]
        rfl
    · rw [flush.eq_3 _ _ _ _ hopen, ih, opened_cons_of_ne k hopen]

-- Reading a lexeme counts it among the parentheses and fails where counting fails.
theorem opened_read (y : Yard) (hl : l.kind.Written) :
    (y.read l).map (fun y => opened y.waiting) = nest (opened y.waiting) l := by
  unfold read nest
  cases hkind : l.kind with
  | literal c => exact congrArg _ (y.opened_juxtapose l.position)
  | opening =>
    refine congrArg _ ((opened_groupOpen l.position).trans ?_)
    rw [opened_juxtapose]
  | closing =>
    have hunwind := opened_unwind? y.output y.waiting
    generalize unwind? y.output y.waiting = r at hunwind
    generalize opened y.waiting = s at hunwind
    cases s with
    | nil =>
      rw [Option.map_eq_none_iff.1 hunwind]
      rfl
    | cons pos s =>
      obtain ⟨⟨output, waiting⟩, rfl, hopened⟩ := Option.map_eq_some_iff.1 hunwind
      exact congrArg _ hopened
  | operator op =>
    rw [hkind] at hl
    exact congrArg _ (y.opened_apply hl.ne_groupOpen l.position)

theorem opened_foldlM_read {ls : List Lexeme} (hls : ∀ l ∈ ls, l.kind.Written) (y : Yard) :
    (ls.foldlM read y).map (fun y => opened y.waiting) = ls.foldlM nest (opened y.waiting) := by
  induction ls generalizing y with
  | nil => rfl
  | cons l ls ih =>
    obtain ⟨hl, hls⟩ := List.forall_mem_cons.1 hls
    rw [List.foldlM_cons, List.foldlM_cons, ← y.opened_read hl]
    cases y.read l with
    | error e => rfl
    | ok y' => exact ih hls y'

end Yard

namespace Postfix

variable {α : Type} {ls : List Lexeme} {p : Postfix Char} {e : RegexError}

theorem ofLexemes_eq_error_iff (hls : ∀ l ∈ ls, l.kind.Written) : ofLexemes ls = .error e ↔
    ls.foldlM nest [] = .error e ∨
      ∃ pos, (∃ s, ls.foldlM nest [] = .ok (pos :: s)) ∧ e = .unbalancedParenthesis pos := by
  have hread := Yard.opened_foldlM_read hls Yard.start
  rw [show Yard.opened Yard.start.waiting = [] from rfl] at hread
  rw [← hread]
  unfold ofLexemes
  cases ls.foldlM Yard.read Yard.start with
  | error e' =>
    constructor
    · intro h
      cases h
      exact .inl rfl
    · rintro (h | ⟨pos, ⟨s, h⟩, -⟩)
      · cases h
        rfl
      · cases h
  | ok y =>
    show (Yard.flush y.output y.waiting).map List.reverse = .error e ↔ _
    rw [map_eq_error_iff, Yard.flush_eq_error_iff]
    constructor
    · rintro ⟨pos, s, hopened, rfl⟩
      exact .inr ⟨pos, ⟨s, congrArg _ hopened⟩, rfl⟩
    · rintro (h | ⟨pos, ⟨s, h⟩, rfl⟩)
      · cases h
      · exact ⟨pos, s, Except.ok.inj h, rfl⟩

/-- The reader fails at the first closing parenthesis without counterpart, or else at the last
opening one. -/
theorem ofLexemes_eq_error_iff_fault (hls : ∀ l ∈ ls, l.kind.Written) :
    ofLexemes ls = .error e ↔ ∃ l, e = .unbalancedParenthesis l.position ∧
      (FirstStray ls l ∨ (¬ ∃ l', FirstStray ls l') ∧ LastUnclosed ls l) := by
  rw [ofLexemes_eq_error_iff hls, foldlM_nest_eq_error_iff]
  simp only [foldlM_nest_eq_ok_cons_iff]
  constructor
  · rintro (⟨l, hl, rfl⟩ | ⟨pos, ⟨hno, l, hl, rfl⟩, rfl⟩)
    · exact ⟨l, rfl, .inl hl⟩
    · exact ⟨l, rfl, .inr ⟨hno, hl⟩⟩
  · rintro ⟨l, rfl, hl | ⟨hno, hl⟩⟩
    · exact .inl ⟨l, hl, rfl⟩
    · exact .inr ⟨_, ⟨hno, l, hl, rfl⟩, rfl⟩

theorem exists_ofLexemes_iff_balanced (hls : ∀ l ∈ ls, l.kind.Written) :
    (∃ p, ofLexemes ls = .ok p) ↔ Balanced ls := by
  rw [balanced_iff_foldlM_nest]
  constructor
  · rintro ⟨p, hp⟩
    have hno : ∀ e, ofLexemes ls ≠ .error e := fun e he => by
      rw [hp] at he
      cases he
    cases hnest : ls.foldlM nest [] with
    | error e => exact absurd ((ofLexemes_eq_error_iff hls).2 (.inl hnest)) (hno e)
    | ok s =>
      cases s with
      | nil => rfl
      | cons pos s =>
        exact absurd ((ofLexemes_eq_error_iff hls).2 (.inr ⟨pos, ⟨s, hnest⟩, rfl⟩)) (hno _)
  · intro h
    cases hp : ofLexemes ls with
    | ok p => exact ⟨p, rfl⟩
    | error e =>
      rcases (ofLexemes_eq_error_iff hls).1 hp with hnest | ⟨pos, ⟨s, hnest⟩, -⟩
      · rw [h] at hnest
        cases hnest
      · rw [h] at hnest
        cases hnest

/-! ## Missing operands -/

/-- Group marks are never added. -/
theorem arity_ne_zero_of_mem_addedTokens {a : Bool} {ks : List Kind} {op : Operator}
    (hks : ∀ k ∈ ks, k.Written) (h : .operator op ∈ addedTokens a ks) : op.arity ≠ 0 := by
  induction ks generalizing a with
  | nil => cases h
  | cons k ks ih =>
    obtain ⟨hk, hks⟩ := List.forall_mem_cons.1 hks
    rcases List.mem_append.1 h with hadded | hrest
    · cases k with
      | literal c => cases a <;> simp_all [Kind.added, Operator.arity]
      | opening => cases a <;> simp_all [Kind.added, Operator.arity]
      | closing => cases hadded
      | operator op' =>
        rw [Kind.added, List.mem_singleton] at hadded
        cases hadded
        exact hk.arity_ne_zero
    · exact ih hks hrest

theorem arity_ne_zero_of_ofLexemes {op : Operator} (hls : ∀ l ∈ ls, l.kind.Written)
    (hread : ofLexemes ls = .ok p) (h : .operator op ∈ p) : op.arity ≠ 0 :=
  arity_ne_zero_of_mem_addedTokens (List.forall_mem_map.2 hls)
    ((perm_of_ofLexemes hls hread).mem_iff.1 h)

/-- What is read has at most one literal more than binary operators. -/
theorem operands_le_one (hls : ∀ l ∈ ls, l.kind.Written) (hread : ofLexemes ls = .ok p) :
    operands p ≤ 1 := by
  have hperm := perm_of_ofLexemes hls hread
  have hcount := countP_addedTokens (List.forall_mem_map.2 hls) false
  rw [← hperm.countP_eq, ← hperm.countP_eq] at hcount
  unfold operands
  simp only [Bool.false_eq_true, if_false] at hcount
  omega

/-- What is read can be evaluated, unless an operator lacks an operand. -/
theorem exists_missingOperand (hls : ∀ l ∈ ls, l.kind.Written) (hread : ofLexemes ls = .ok p)
    {A : Algebra Char α} (h : p.evaluate A = .error e) : ∃ op, e = .missingOperand op := by
  rcases evaluate_eq_error_iff.1 h with ⟨front, op, rest, rfl, -, -, rfl⟩ | ⟨hp, hsupplied, hone, -⟩
  · have harity : op.arity ≠ 0 :=
      arity_ne_zero_of_ofLexemes hls hread (List.mem_append_right _ List.mem_cons_self)
    exact ⟨op, if_neg harity⟩
  · have hle := operands_le_one hls hread
    have hne := operands_ne_zero hp hsupplied
    omega

/-! ## Texts -/

-- The reader fails exactly if the parentheses do not match, at the first that is wrong.
theorem ofText_faults {text : String} {ls : List Lexeme} (hscan : Lexeme.scan text = .ok ls) :
    ((∃ pos, ofText text = .error (.unbalancedParenthesis pos)) ↔ ¬ Balanced ls) ∧
    (∀ e, ofText text = .error e ↔ ∃ l, e = .unbalancedParenthesis l.position ∧
      (FirstStray ls l ∨ (¬ ∃ l', FirstStray ls l') ∧ LastUnclosed ls l)) ∧
    (Balanced ls → ∃ p, ofText text = .ok p ∧
      (∀ op, .operator op ∈ p → op ≠ .groupOpen ∧ op ≠ .groupClose) ∧
      ∀ (α : Type) (A : Algebra Char α) (e : RegexError),
        p.evaluate A = .error e → ∃ op, e = .missingOperand op) := by
  have hls := Lexeme.written_of_scanFrom hscan
  rw [ofText_of_scan hscan]
  refine ⟨?_, fun e => ofLexemes_eq_error_iff_fault hls, fun hbalanced => ?_⟩
  · rw [← exists_ofLexemes_iff_balanced hls]
    constructor
    · rintro ⟨pos, hpos⟩ ⟨p, hp⟩
      rw [hp] at hpos
      cases hpos
    · intro hno
      cases hp : ofLexemes ls with
      | ok p => exact absurd ⟨p, hp⟩ hno
      | error e =>
        obtain ⟨l, rfl, -⟩ := (ofLexemes_eq_error_iff_fault hls).1 hp
        exact ⟨l.position, rfl⟩
  · obtain ⟨p, hp⟩ := (exists_ofLexemes_iff_balanced hls).2 hbalanced
    refine ⟨p, hp, fun op hop => ?_, fun α A e => exists_missingOperand hls hp⟩
    have harity := arity_ne_zero_of_ofLexemes hls hp hop
    constructor <;> rintro rfl <;> exact harity rfl

/-- A closing parenthesis too many, and behind it one that is never closed. -/
theorem ofText_faults_stray :
    let ls : List Lexeme := [⟨.opening, 0⟩, ⟨.literal 'é', 1⟩, ⟨.closing, 3⟩, ⟨.closing, 4⟩,
      ⟨.opening, 5⟩]
    Lexeme.scan "(é))(" = .ok ls ∧ ¬ Balanced ls ∧ ∃ l, l.position = 4 ∧
      (FirstStray ls l ∨ (¬ ∃ l', FirstStray ls l') ∧ LastUnclosed ls l) := by
  intro ls
  have hscan : Lexeme.scan "(é))(" = .ok ls := by decide +kernel
  have htext : ofText "(é))(" = .error (.unbalancedParenthesis 4) := by decide +kernel
  obtain ⟨hbalanced, hfault, -⟩ := ofText_faults hscan
  obtain ⟨l, hl, hwhich⟩ := (hfault _).1 htext
  exact ⟨hscan, hbalanced.1 ⟨4, htext⟩, l, (RegexError.unbalancedParenthesis.inj hl).symm, hwhich⟩

end Postfix

end Kleene
