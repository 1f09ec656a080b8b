import Kleene.Proofs.Evaluation
import Kleene.Regex.Reading

/-!
# The reader of expressions

Reading fails on parentheses only, and it loses nothing: the postfix form of a text consists of the
tokens that the lexemes add one by one, in some order.  A concatenation is added by the second of
two operands.
-/

namespace Kleene

namespace Lexeme

namespace Kind

/-- The operators that are written are alternations and quantifiers. -/
def Written (k : Kind) : Prop :=
  ∀ op, k = .operator op → op = .alternation ∨ op.isQuantifier = true

theorem Written.arity_ne_zero {op : Operator} (h : (operator op).Written) : op.arity ≠ 0 := by
  rcases h op rfl with rfl | hop
  · decide
  · rw [of_decide_eq_true hop]
    exact Nat.one_ne_zero

theorem Written.ne_groupOpen {op : Operator} (h : (operator op).Written) : op ≠ .groupOpen := by
  rintro rfl
  exact h.arity_ne_zero rfl

/-- Whether an operand is complete after the lexeme. -/
def endsOperand : Kind → Bool
  | .literal _ => true
  | .opening => false
  | .closing => true
  | .operator op => op.isQuantifier

/-- The number of open parentheses after the lexeme. -/
def depthAfter (d : Nat) : Kind → Nat
  | .literal _ => d
  | .opening => d + 1
  | .closing => d - 1
  | .operator _ => d

/-- The tokens that the lexeme adds, with the concatenation in front of an operand that follows an
operand. -/
def added (afterOperand : Bool) : Kind → Postfix Char
  | .literal c => .literal c :: if afterOperand then [.operator .concat] else []
  | .opening => if afterOperand then [.operator .concat] else []
  | .closing => []
  | .operator op => [.operator op]

end Kind

theorem written_kindOfChar (c : Char) : (kindOfChar c).Written := by
  unfold kindOfChar
  intro op hop
  split at hop
  · cases hop
  · cases hop
    exact .inl rfl
  · cases hop
    exact .inr rfl
  · cases hop
    exact .inr rfl
  · cases hop
    exact .inr rfl
  · cases hop

/-- A lexeme in front of others that have been scanned. -/
theorem written_of_map_cons {r : Except RegexError (List Lexeme)} {l : Lexeme} {ls : List Lexeme}
    (h : r.map (l :: ·) = .ok ls) (hl : l.kind.Written)
    (hr : ∀ ls', r = .ok ls' → ∀ l' ∈ ls', l'.kind.Written) : ∀ l' ∈ ls, l'.kind.Written := by
  rcases exists_of_map_eq_ok h with ⟨ls', hls', rfl⟩
  exact List.forall_mem_cons.2 ⟨hl, hr ls' hls'⟩

theorem written_of_scanFrom {pos : Nat} {cs : List Char} {ls : List Lexeme}
    (h : scanFrom pos cs = .ok ls) : ∀ l ∈ ls, l.kind.Written := by
  fun_induction scanFrom pos cs generalizing ls with
  | case1 =>
    cases h
    exact fun l hl => by cases hl
  | case2 => cases h
  | case3 pos c rest ih => exact written_of_map_cons h (fun op hop => by cases hop) fun _ => ih
  | case4 pos rest n =>
    rename_i ih
    exact written_of_map_cons h (fun op hop => by cases hop) fun _ => ih
  | case5 pos c rest _ _ _ ih => exact written_of_map_cons h (written_kindOfChar c) fun _ => ih

end Lexeme

open Lexeme (Kind)

/-- The tokens that lexemes add, behind an operand or not. -/
def addedTokens : Bool → List Kind → Postfix Char
  | _, [] => []
  | a, k :: ks => k.added a ++ addedTokens k.endsOperand ks

/-- The lexemes close all parentheses that are open and all their own, and no others. -/
def Matched : Nat → List Kind → Prop
  | d, [] => d = 0
  | d, k :: ks => (k = .closing → d ≠ 0) ∧ Matched (k.depthAfter d) ks

/-! ## One lexeme -/

namespace Yard

variable {output output' : List (Token Char)} {waiting waiting' : List (Operator × Nat)}

/-- The operators that wait, without open parentheses, as tokens. -/
def waitingTokens (waiting : List (Operator × Nat)) : List (Token Char) :=
  (waiting.filter fun x => x.1 ≠ .groupOpen).map fun x => .operator x.1

/-- The number of open parentheses. -/
def depth (waiting : List (Operator × Nat)) : Nat := waiting.countP fun x => x.1 = .groupOpen

/-- The tokens that have been read, in some order. -/
def held (y : Yard) : List (Token Char) := waitingTokens y.waiting ++ y.output

theorem waitingTokens_cons_of_ne {op : Operator} (k : Nat) (h : op ≠ .groupOpen) :
    waitingTokens ((op, k) :: waiting) = .operator op :: waitingTokens waiting := by
  unfold waitingTokens
  rw [List.filter_cons_of_pos (by simpa using h)]
  rfl

theorem depth_cons_of_ne {op : Operator} (k : Nat) (h : op ≠ .groupOpen) :
    depth ((op, k) :: waiting) = depth waiting := by
  unfold depth
  rw [List.countP_cons_of_neg (by simpa using h)]

theorem depth_groupOpen (k : Nat) : depth ((.groupOpen, k) :: waiting) = depth waiting + 1 := by
  unfold depth
  rw [List.countP_cons_of_pos (by simp)]

/-- Sending an operator to the output keeps it. -/
theorem perm_send {op : Operator} (k : Nat) (h : op ≠ .groupOpen) :
    (waitingTokens waiting ++ .operator op :: output).Perm
      (waitingTokens ((op, k) :: waiting) ++ output) := by
  rw [waitingTokens_cons_of_ne k h]
  exact List.perm_middle

/-- An open parenthesis binds nothing, and so it is never sent. -/
theorem ne_groupOpen_of_binds {top op : Operator} (h : ¬ top.precedence ≤ op.precedence) :
    top ≠ .groupOpen := by
  rintro rfl
  exact h (Nat.zero_le _)

theorem release_spec (op : Operator) (output : List (Token Char))
    (waiting : List (Operator × Nat)) :
    (waitingTokens (release op output waiting).2 ++ (release op output waiting).1).Perm
        (waitingTokens waiting ++ output) ∧
      depth (release op output waiting).2 = depth waiting := by
  induction waiting generalizing output with
  | nil => exact ⟨.refl _, rfl⟩
  | cons x waiting ih =>
    unfold release
    split
    · exact ⟨.refl _, rfl⟩
    · rename_i hbinds
      have hopen := ne_groupOpen_of_binds hbinds
      rcases ih (.operator x.1 :: output) with ⟨hperm, hdepth⟩
      exact ⟨hperm.trans (perm_send x.2 hopen), hdepth.trans (depth_cons_of_ne x.2 hopen).symm⟩

theorem apply_spec (y : Yard) {op : Operator} (hop : op ≠ .groupOpen) (k : Nat) :
    (y.apply op k).held.Perm (.operator op :: y.held) ∧
      depth (y.apply op k).waiting = depth y.waiting := by
  rcases release_spec op y.output y.waiting with ⟨hperm, hdepth⟩
  unfold apply held
  generalize release op y.output y.waiting = r at hperm hdepth
  by_cases hquantifier : op.isQuantifier = true
  · simp only [hquantifier, if_true]
    exact ⟨List.perm_middle.trans (hperm.cons _), hdepth⟩
  · simp only [hquantifier, if_false, Bool.false_eq_true]
    rw [waitingTokens_cons_of_ne k hop, depth_cons_of_ne k hop]
    exact ⟨hperm.cons _, hdepth⟩

theorem juxtapose_spec (y : Yard) (k : Nat) :
    (y.juxtapose k).held.Perm
        ((if y.afterOperand then [.operator .concat] else []) ++ y.held) ∧
      depth (y.juxtapose k).waiting = depth y.waiting := by
  unfold juxtapose
  split
  · exact y.apply_spec (by decide) k
  · exact ⟨.refl _, rfl⟩

theorem unwind?_spec (h : unwind? output waiting = some (output', waiting')) :
    (waitingTokens waiting' ++ output').Perm (waitingTokens waiting ++ output) ∧
      depth waiting = depth waiting' + 1 := by
  induction waiting generalizing output with
  | nil => cases h
  | cons x waiting ih =>
    rcases x with ⟨op, k⟩
    by_cases hopen : op = .groupOpen
    · rw [hopen] at h ⊢
      cases h
      exact ⟨.refl _, depth_groupOpen k⟩
    · have hrest : unwind? (.operator op :: output) waiting = some (output', waiting') := by
        rw [← h, unwind?.eq_3]
        exact hopen
      rcases ih hrest with ⟨hperm, hdepth⟩
      exact ⟨hperm.trans (perm_send k hopen), (depth_cons_of_ne k hopen).trans hdepth⟩

theorem flush_spec (h : flush output waiting = .ok output') :
    output'.Perm (waitingTokens waiting ++ output) ∧ depth waiting = 0 := by
  induction waiting generalizing output with
  | nil =>
    cases h
    exact ⟨.refl _, rfl⟩
  | cons x waiting ih =>
    rcases x with ⟨op, k⟩
    by_cases hopen : op = .groupOpen
    · rw [hopen] at h
      cases h
    · have hrest : flush (.operator op :: output) waiting = .ok output' := by
        rw [← h, flush.eq_3]
        exact hopen
      rcases ih hrest with ⟨hperm, hdepth⟩
      exact ⟨hperm.trans (perm_send k hopen), (depth_cons_of_ne k hopen).trans hdepth⟩

theorem exists_unwind? (output : List (Token Char)) (h : depth waiting ≠ 0) :
    ∃ r, unwind? output waiting = some r := by
  induction waiting generalizing output with
  | nil => exact absurd rfl h
  | cons x waiting ih =>
    rcases x with ⟨op, k⟩
    by_cases hopen : op = .groupOpen
    · rw [hopen]
      exact ⟨_, rfl⟩
    · rw [depth_cons_of_ne k hopen] at h
      rw [unwind?.eq_3 _ _ _ _ hopen]
      exact ih _ h

theorem exists_flush (output : List (Token Char)) (h : depth waiting = 0) :
    ∃ output', flush output waiting = .ok output' := by
  induction waiting generalizing output with
  | nil => exact ⟨output, rfl⟩
  | cons x waiting ih =>
    rcases x with ⟨op, k⟩
    by_cases hopen : op = .groupOpen
    · rw [hopen, depth_groupOpen] at h
      cases h
    · rw [depth_cons_of_ne k hopen] at h
      rw [flush.eq_3 _ _ _ _ hopen]
      exact ih _ h

/-- What reading one lexeme does: its tokens are added, it decides whether an operand is complete,
and only parentheses change the depth, a closing one where one is open. -/
structure Steps (y : Yard) (k : Kind) (y' : Yard) : Prop where
  held : y'.held.Perm (k.added y.afterOperand ++ y.held)
  afterOperand : y'.afterOperand = k.endsOperand
  depth : depth y'.waiting = k.depthAfter (depth y.waiting)
  closes : k = .closing → Yard.depth y.waiting ≠ 0

theorem steps_of_read {y y' : Yard} {l : Lexeme} (hl : l.kind.Written) (h : y.read l = .ok y') :
    Steps y l.kind y' := by
  unfold read at h
  generalize l.kind = k at h hl
  cases k with
  | literal c =>
    cases h
    rcases y.juxtapose_spec l.position with ⟨hperm, hdepth⟩
    exact ⟨List.perm_middle.trans (hperm.cons _), rfl, hdepth, fun h => by cases h⟩
  | opening =>
    cases h
    rcases y.juxtapose_spec l.position with ⟨hperm, hdepth⟩
    have hopen : depth ((.groupOpen, l.position) :: (y.juxtapose l.position).waiting) =
        depth y.waiting + 1 := by rw [depth_groupOpen, hdepth]
    exact ⟨hperm, rfl, hopen, fun h => by cases h⟩
  | closing =>
    cases hunwind : unwind? y.output y.waiting with
    | none =>
      rw [hunwind] at h
      cases h
    | some r =>
      rw [hunwind] at h
      cases h
      rcases unwind?_spec hunwind with ⟨hperm, hdepth⟩
      refine ⟨hperm, rfl, ?_, fun _ => ?_⟩
      · rw [hdepth]
        rfl
      · rw [hdepth]
        exact Nat.succ_ne_zero _
  | operator op =>
    cases h
    rcases y.apply_spec hl.ne_groupOpen l.position with ⟨hperm, hdepth⟩
    exact ⟨hperm, rfl, hdepth, fun h => by cases h⟩

/-- A lexeme is read unless it closes a parenthesis and none is open. -/
theorem exists_read (y : Yard) (l : Lexeme) (h : l.kind = .closing → depth y.waiting ≠ 0) :
    ∃ y', y.read l = .ok y' := by
  unfold read
  cases hkind : l.kind with
  | literal c => exact ⟨_, rfl⟩
  | opening => exact ⟨_, rfl⟩
  | operator op => exact ⟨_, rfl⟩
  | closing =>
    rcases exists_unwind? y.output (h hkind) with ⟨r, hr⟩
    rw [hr]
    exact ⟨_, rfl⟩

/-! ## All lexemes -/

theorem finish_eq_ok {y : Yard} {p : Postfix Char} (h : y.finish = .ok p) :
    p.Perm y.held ∧ depth y.waiting = 0 := by
  rcases exists_of_map_eq_ok h with ⟨output, hflush, rfl⟩
  rcases flush_spec hflush with ⟨hperm, hdepth⟩
  exact ⟨(List.reverse_perm output).trans hperm, hdepth⟩

/-- The parentheses of lexemes that are read match, and their tokens are read. -/
theorem matched_of_foldlM {ls : List Lexeme} (hls : ∀ l ∈ ls, l.kind.Written) {y y' : Yard}
    {p : Postfix Char} (h : ls.foldlM read y = .ok y') (hp : y'.finish = .ok p) :
    Matched (depth y.waiting) (ls.map Lexeme.kind) ∧
      p.Perm (addedTokens y.afterOperand (ls.map Lexeme.kind) ++ y.held) := by
  induction ls generalizing y with
  | nil =>
    cases h
    rcases finish_eq_ok hp with ⟨hperm, hdepth⟩
    exact ⟨hdepth, hperm⟩
  | cons l ls ih =>
    rcases List.forall_mem_cons.1 hls with ⟨hl, hls⟩
    rcases exists_of_foldlM_cons h with ⟨y₁, hread, hrest⟩
    have hstep := steps_of_read hl hread
    rcases ih hls hrest with ⟨hmatched, hperm⟩
    rw [hstep.depth] at hmatched
    rw [hstep.afterOperand] at hperm
    refine ⟨⟨hstep.closes, hmatched⟩, hperm.trans ((hstep.held.append_left _).trans ?_)⟩
    rw [List.map_cons, addedTokens, ← List.append_assoc]
    exact List.perm_append_comm.append_right _

/-- Lexemes whose parentheses match are read. -/
theorem exists_foldlM_of_matched {ls : List Lexeme} (hls : ∀ l ∈ ls, l.kind.Written) {y : Yard}
    (h : Matched (depth y.waiting) (ls.map Lexeme.kind)) :
    ∃ y' p, ls.foldlM read y = .ok y' ∧ y'.finish = .ok p := by
  induction ls generalizing y with
  | nil =>
    rcases exists_flush y.output h with ⟨output, hflush⟩
    refine ⟨y, output.reverse, rfl, ?_⟩
    unfold finish
    rw [hflush]
    rfl
  | cons l ls ih =>
    rcases List.forall_mem_cons.1 hls with ⟨hl, hls⟩
    rcases h with ⟨hclosing, hmatched⟩
    rcases y.exists_read l hclosing with ⟨y₁, hread⟩
    rw [← (steps_of_read hl hread).depth] at hmatched
    rcases ih hls hmatched with ⟨y', p, hrest, hp⟩
    exact ⟨y', p, by rw [foldlM_cons_of_ok hread, hrest], hp⟩

end Yard

namespace Postfix

variable {ls : List Lexeme} {p : Postfix Char}

theorem ofLexemes_eq_ok_iff : ofLexemes ls = .ok p ↔
    ∃ y, ls.foldlM Yard.read Yard.start = .ok y ∧ y.finish = .ok p := by
  unfold ofLexemes
  cases ls.foldlM Yard.read Yard.start with
  | error e => exact ⟨fun h => (by cases h), fun ⟨_, h, _⟩ => (by cases h)⟩
  | ok y => exact ⟨fun h => ⟨y, rfl, h⟩, fun ⟨_, hy, h⟩ => by cases hy; exact h⟩

/-- What is read are the tokens that the lexemes add. -/
theorem perm_of_ofLexemes (hls : ∀ l ∈ ls, l.kind.Written) (h : ofLexemes ls = .ok p) :
    p.Perm (addedTokens false (ls.map Lexeme.kind)) := by
  rcases ofLexemes_eq_ok_iff.1 h with ⟨y, hfold, hp⟩
  have hperm := (Yard.matched_of_foldlM hls hfold hp).2
  rwa [show Yard.start.held = [] from rfl, List.append_nil] at hperm

/-- Reading succeeds exactly if the parentheses match. -/
theorem exists_ofLexemes_iff (hls : ∀ l ∈ ls, l.kind.Written) :
    (∃ p, ofLexemes ls = .ok p) ↔ Matched 0 (ls.map Lexeme.kind) := by
  constructor
  · intro h
    rcases h with ⟨p, h⟩
    rcases ofLexemes_eq_ok_iff.1 h with ⟨y, hfold, hp⟩
    exact (Yard.matched_of_foldlM hls hfold hp).1
  · intro h
    rcases Yard.exists_foldlM_of_matched (y := Yard.start) hls h with ⟨y, p, hfold, hp⟩
    exact ⟨p, ofLexemes_eq_ok_iff.2 ⟨y, hfold, hp⟩⟩

theorem ofText_of_scan {text : String} (h : Lexeme.scan text = .ok ls) :
    ofText text = ofLexemes ls := by
  unfold ofText
  rw [h]
  rfl

end Postfix

end Kleene
