import Kleene.Proofs.PostfixLabels
import Kleene.Regex.Reading

/-!
# The grammar of expressions

Which lexemes stand for which postfix expression, by how tightly they hold together: atoms,
quantified atoms, these in a row, and choices between rows.  A row and a choice group to the
right.  Reading lexemes that the grammar derives gives the tokens it derives them for, and so
does reading their spelling, in which exactly the special characters have a backslash.
-/

open Computability

namespace Kleene

/-- How tightly the pieces of a phrase hold together, tightest first. -/
inductive Level where
  | atom
  | quantified
  | row
  | choice

/-- The levels by number, tightest first. -/
def Level.rank : Level → Nat
  | .atom => 0
  | .quantified => 1
  | .row => 2
  | .choice => 3

/-- The lexemes form a phrase of the level that stands for the postfix expression. -/
inductive Derives : Level → List Lexeme.Kind → Postfix Char → Prop
  | literal (c : Char) : Derives .atom [.literal c] [.literal c]
  | group {ks : List Lexeme.Kind} {p : Postfix Char} :
      Derives .choice ks p → Derives .atom (.opening :: (ks ++ [.closing])) p
  | atom {ks : List Lexeme.Kind} {p : Postfix Char} :
      Derives .atom ks p → Derives .quantified ks p
  | quantify {ks : List Lexeme.Kind} {p : Postfix Char} {op : Operator} :
      Derives .quantified ks p → op.isQuantifier = true →
      Derives .quantified (ks ++ [.operator op]) (p ++ [.operator op])
  | quantified {ks : List Lexeme.Kind} {p : Postfix Char} :
      Derives .quantified ks p → Derives .row ks p
  | concat {ks ks' : List Lexeme.Kind} {p q : Postfix Char} :
      Derives .quantified ks p → Derives .row ks' q →
      Derives .row (ks ++ ks') (p ++ (q ++ [.operator .concat]))
  | row {ks : List Lexeme.Kind} {p : Postfix Char} : Derives .row ks p → Derives .choice ks p
  | alternation {ks ks' : List Lexeme.Kind} {p q : Postfix Char} :
      Derives .row ks p → Derives .choice ks' q →
      Derives .choice (ks ++ .operator .alternation :: ks') (p ++ (q ++ [.operator .alternation]))

/-- A phrase that holds together tightly is a phrase of every looser level. -/
theorem Derives.weaken {level level' : Level} {ks : List Lexeme.Kind} {p : Postfix Char}
    (h : Derives level ks p) (hle : level.rank ≤ level'.rank) : Derives level' ks p := by
  cases level <;> cases level' <;>
    first
    | exact h
    | exact absurd hle (by decide)
    | exact .atom h
    | exact .quantified h
    | exact .row h
    | exact .quantified (.atom h)
    | exact .row (.quantified h)
    | exact .row (.quantified (.atom h))

/-! ## Reading lexemes -/

namespace Yard

/-- Operators that wait for their right operand: no quantifiers. -/
def Patient (waiting : List (Operator × Nat)) : Prop := ∀ x ∈ waiting, x.1.precedence ≤ 2

/-- Operators that an alternation does not send to the output: the last one to wait is neither a
concatenation nor a quantifier. -/
def Resting (waiting : List (Operator × Nat)) : Prop := ∀ x ∈ waiting.head?, x.1.precedence ≤ 1

/-- The output after operators that wait have been sent to it, first in the list first. -/
def settle (pending : List (Operator × Nat)) (output : List (Token Char)) : List (Token Char) :=
  (pending.map fun x => .operator x.1).reverse ++ output

/-- The concatenation that waits at position `k` when an operand follows an operand. -/
def joint (afterOperand : Bool) (k : Nat) : List (Operator × Nat) :=
  if afterOperand then [(.concat, k)] else []

variable {output : List (Token Char)} {waiting pending : List (Operator × Nat)} {a : Bool}

@[simp] theorem settle_nil : settle [] output = output := rfl

@[simp] theorem settle_cons {x : Operator × Nat} :
    settle (x :: pending) output = settle pending (.operator x.1 :: output) := by
  simp [settle]

theorem settle_append {rest : List (Operator × Nat)} :
    settle (pending ++ rest) output = settle rest (settle pending output) := by
  simp [settle]

theorem release_of_head {op : Operator}
    (h : ∀ x ∈ waiting.head?, x.1.precedence ≤ op.precedence) :
    release op output waiting = (output, waiting) := by
  cases waiting with
  | nil => rfl
  | cons x waiting =>
    unfold release
    rw [if_pos (h x rfl)]

-- An operator sends the operators to the output that bind tighter, down to one that does not.
theorem release_append {op : Operator} (hp : ∀ x ∈ pending, op.precedence < x.1.precedence)
    (h : ∀ x ∈ waiting.head?, x.1.precedence ≤ op.precedence) :
    release op output (pending ++ waiting) = (settle pending output, waiting) := by
  induction pending generalizing output with
  | nil => exact release_of_head h
  | cons x pending ih =>
    rcases List.forall_mem_cons.1 hp with ⟨hx, hp⟩
    rw [List.cons_append, settle_cons]
    unfold release
    rw [if_neg (Nat.not_le.2 hx)]
    exact ih hp

theorem Patient.head {op : Operator} (h : Patient waiting) (hop : 2 ≤ op.precedence) :
    ∀ x ∈ waiting.head?, x.1.precedence ≤ op.precedence := fun x hx =>
  (h x (List.mem_of_mem_head? hx)).trans hop

theorem juxtapose_eq (h : Patient waiting) (k : Nat) :
    juxtapose ⟨output, waiting, a⟩ k = ⟨output, joint a k ++ waiting, a⟩ := by
  cases a with
  | false => rfl
  | true =>
    unfold juxtapose apply
    have hhead : ∀ x ∈ waiting.head?, x.1.precedence ≤ Operator.precedence .concat :=
      h.head (Nat.le_refl 2)
    rw [if_pos rfl, release_of_head hhead]
    rfl

theorem patient_joint (h : Patient waiting) (k : Nat) : Patient (joint a k ++ waiting) := by
  intro x hx
  cases a with
  | false => exact h x hx
  | true =>
    rcases List.mem_cons.1 hx with rfl | hx
    · exact Nat.le_refl 2
    · exact h x hx

theorem unwind?_append {k : Nat} (h : ∀ x ∈ pending, x.1 ≠ .groupOpen) :
    unwind? output (pending ++ (.groupOpen, k) :: waiting) =
      some (settle pending output, waiting) := by
  induction pending generalizing output with
  | nil => rfl
  | cons x pending ih =>
    rcases List.forall_mem_cons.1 h with ⟨hx, hrest⟩
    rcases x with ⟨op, k'⟩
    rw [List.cons_append, settle_cons, ← ih hrest]
    cases op with
    | groupOpen => exact absurd rfl hx
    | _ => rfl

theorem flush_eq (h : ∀ x ∈ waiting, x.1 ≠ .groupOpen) :
    flush output waiting = .ok (settle waiting output) := by
  induction waiting generalizing output with
  | nil => rfl
  | cons x waiting ih =>
    rcases List.forall_mem_cons.1 h with ⟨hx, hrest⟩
    rcases x with ⟨op, k⟩
    rw [settle_cons, ← ih hrest]
    cases op with
    | groupOpen => exact absurd rfl hx
    | _ => rfl

/-- What reading a phrase does to the yard.  An operand goes to the output; a row leaves some
concatenations waiting, and a choice alternations as well. -/
def Reads : Level → List Lexeme.Kind → Postfix Char → Prop
  | .atom, ks, p | .quantified, ks, p => ∀ ls : List Lexeme, ls.map Lexeme.kind = ks →
    ∀ output waiting a, Patient waiting → ∃ k, ls.foldlM read ⟨output, waiting, a⟩ =
      .ok ⟨p.reverse ++ output, joint a k ++ waiting, true⟩
  | .row, ks, p => ∀ ls : List Lexeme, ls.map Lexeme.kind = ks →
    ∀ output waiting a, Patient waiting → ∃ o pending k, ls.foldlM read ⟨output, waiting, a⟩ =
      .ok ⟨o, pending ++ waiting, true⟩ ∧ (∀ x ∈ pending, x.1 = .concat) ∧
      settle pending o = settle (joint a k) (p.reverse ++ output)
  | .choice, ks, p => ∀ ls : List Lexeme, ls.map Lexeme.kind = ks →
    ∀ output waiting, Patient waiting → Resting waiting →
    ∃ o pending, ls.foldlM read ⟨output, waiting, false⟩ = .ok ⟨o, pending ++ waiting, true⟩ ∧
      (∀ x ∈ pending, x.1 = .concat ∨ x.1 = .alternation) ∧ settle pending o = p.reverse ++ output

theorem read_literal {l : Lexeme} {c : Char} (hkind : l.kind = .literal c)
    (h : Patient waiting) : read ⟨output, waiting, a⟩ l =
      .ok ⟨.literal c :: output, joint a l.position ++ waiting, true⟩ := by
  unfold read
  rw [hkind]
  simp only [juxtapose_eq h]

theorem read_opening {l : Lexeme} (hkind : l.kind = .opening) (h : Patient waiting) :
    read ⟨output, waiting, a⟩ l =
      .ok ⟨output, (.groupOpen, l.position) :: (joint a l.position ++ waiting), false⟩ := by
  unfold read
  rw [hkind]
  simp only [juxtapose_eq h]

theorem read_closing {l : Lexeme} {k : Nat} (hkind : l.kind = .closing)
    (h : ∀ x ∈ pending, x.1 ≠ .groupOpen) :
    read ⟨output, pending ++ (.groupOpen, k) :: waiting, a⟩ l =
      .ok ⟨settle pending output, waiting, true⟩ := by
  unfold read
  rw [hkind]
  simp only [unwind?_append h]

theorem read_quantifier {l : Lexeme} {op : Operator} (hkind : l.kind = .operator op)
    (hop : op.isQuantifier = true) (h : Patient waiting) :
    read ⟨output, waiting, a⟩ l = .ok ⟨.operator op :: output, waiting, true⟩ := by
  have hprecedence : 2 ≤ op.precedence := by cases op <;> first | decide | cases hop
  unfold read apply
  rw [hkind]
  simp only [release_of_head (h.head hprecedence), hop, if_true]

theorem read_alternation {l : Lexeme} (hkind : l.kind = .operator .alternation)
    (hops : ∀ x ∈ pending, x.1 = .concat) (h : Resting waiting) :
    read ⟨output, pending ++ waiting, a⟩ l =
      .ok ⟨settle pending output, (.alternation, l.position) :: waiting, false⟩ := by
  have hpending : ∀ x ∈ pending, Operator.alternation.precedence < x.1.precedence := by
    intro x hx
    rw [hops x hx]
    exact Nat.one_lt_two
  unfold read apply
  rw [hkind]
  simp only [release_append hpending h]
  rfl

theorem reads_literal (c : Char) : Reads .atom [.literal c] [.literal c] := by
  intro ls hls output waiting a hw
  rcases List.map_eq_singleton_iff.1 hls with ⟨l, rfl, hkind⟩
  exact ⟨l.position, foldlM_singleton_of_ok (read_literal hkind hw)⟩

-- The closing parenthesis sends what waits inside the group to the output.
theorem reads_group {ks : List Lexeme.Kind} {p : Postfix Char} (h : Reads .choice ks p) :
    Reads .atom (.opening :: (ks ++ [.closing])) p := by
  intro ls hls output waiting a hw
  rcases List.map_eq_cons_iff.1 hls with ⟨l, ls', rfl, hopening, hrest⟩
  rcases List.map_eq_append_iff.1 hrest with ⟨inner, last, rfl, hinner, hlast⟩
  rcases List.map_eq_singleton_iff.1 hlast with ⟨r, rfl, hclosing⟩
  have hpatient : Patient ((.groupOpen, l.position) :: (joint a l.position ++ waiting)) :=
    List.forall_mem_cons.2 ⟨Nat.zero_le 2, patient_joint hw l.position⟩
  have hresting : Resting ((.groupOpen, l.position) :: (joint a l.position ++ waiting)) := by
    intro x hx
    rw [← Option.some.inj hx]
    exact Nat.zero_le 1
  rcases h inner hinner output _ hpatient hresting with ⟨o, pending, hread, hops, hsettle⟩
  have hopen : ∀ x ∈ pending, x.1 ≠ .groupOpen := by
    intro x hx
    rcases hops x hx with hop | hop <;> rw [hop] <;> decide
  refine ⟨l.position, ?_⟩
  rw [foldlM_cons_of_ok (read_opening hopening hw), foldlM_append_of_ok hread,
    foldlM_singleton_of_ok (read_closing hclosing hopen), hsettle]

-- A quantifier follows its operand to the output at once.
theorem reads_quantify {ks : List Lexeme.Kind} {p : Postfix Char} {op : Operator}
    (h : Reads .quantified ks p) (hop : op.isQuantifier = true) :
    Reads .quantified (ks ++ [.operator op]) (p ++ [.operator op]) := by
  intro ls hls output waiting a hw
  rcases List.map_eq_append_iff.1 hls with ⟨inner, last, rfl, hinner, hlast⟩
  rcases List.map_eq_singleton_iff.1 hlast with ⟨r, rfl, hkind⟩
  rcases h inner hinner output waiting a hw with ⟨k, hread⟩
  refine ⟨k, ?_⟩
  rw [foldlM_append_of_ok hread,
    foldlM_singleton_of_ok (read_quantifier hkind hop (patient_joint hw k)), List.reverse_append]
  rfl

theorem reads_row {ks : List Lexeme.Kind} {p : Postfix Char} (h : Reads .quantified ks p) :
    Reads .row ks p := by
  intro ls hls output waiting a hw
  rcases h ls hls output waiting a hw with ⟨k, hread⟩
  refine ⟨_, joint a k, k, hread, fun x hx => ?_, rfl⟩
  cases a with
  | false => cases hx
  | true => rw [List.mem_singleton.1 hx]

-- An operand in front of a row: the concatenation waits below those of the row.
theorem reads_concat {ks ks' : List Lexeme.Kind} {p q : Postfix Char}
    (h : Reads .quantified ks p) (h' : Reads .row ks' q) :
    Reads .row (ks ++ ks') (p ++ (q ++ [.operator .concat])) := by
  intro ls hls output waiting a hw
  rcases List.map_eq_append_iff.1 hls with ⟨front, back, rfl, hfront, hback⟩
  rcases h front hfront output waiting a hw with ⟨k, hread⟩
  rcases h' back hback (p.reverse ++ output) (joint a k ++ waiting) true (patient_joint hw k)
    with ⟨o, pending, k', hread', hops, hsettle⟩
  refine ⟨o, pending ++ joint a k, k, ?_, ?_, ?_⟩
  · rw [foldlM_append_of_ok hread, hread', List.append_assoc]
  · intro x hx
    rcases List.mem_append.1 hx with hx | hx
    · exact hops x hx
    · cases a with
      | false => cases hx
      | true => rw [List.mem_singleton.1 hx]
  · rw [settle_append, hsettle]
    simp [joint]

theorem reads_choice {ks : List Lexeme.Kind} {p : Postfix Char} (h : Reads .row ks p) :
    Reads .choice ks p := by
  intro ls hls output waiting hw _
  rcases h ls hls output waiting false hw with ⟨o, pending, k, hread, hops, hsettle⟩
  exact ⟨o, pending, hread, fun x hx => .inl (hops x hx), hsettle⟩

-- An alternation sends the concatenations of the row before it to the output and waits.
theorem reads_alternation {ks ks' : List Lexeme.Kind} {p q : Postfix Char}
    (h : Reads .row ks p) (h' : Reads .choice ks' q) :
    Reads .choice (ks ++ .operator .alternation :: ks')
      (p ++ (q ++ [.operator .alternation])) := by
  intro ls hls output waiting hw hresting
  rcases List.map_eq_append_iff.1 hls with ⟨front, rest, rfl, hfront, hrest⟩
  rcases List.map_eq_cons_iff.1 hrest with ⟨r, back, rfl, hkind, hback⟩
  rcases h front hfront output waiting false hw with ⟨o, pending, k, hread, hops, hsettle⟩
  have hpatient : Patient ((.alternation, r.position) :: waiting) :=
    List.forall_mem_cons.2 ⟨Nat.le_succ 1, hw⟩
  have hresting' : Resting ((.alternation, r.position) :: waiting) := by
    intro x hx
    rw [← Option.some.inj hx]
    exact Nat.le_refl 1
  rcases h' back hback (p.reverse ++ output) _ hpatient hresting'
    with ⟨o', pending', hread', hops', hsettle'⟩
  refine ⟨o', pending' ++ [(.alternation, r.position)], ?_, ?_, ?_⟩
  · rw [foldlM_append_of_ok hread, foldlM_cons_of_ok (read_alternation hkind hops hresting),
      hsettle]
    exact hread'.trans (by simp)
  · intro x hx
    rcases List.mem_append.1 hx with hx | hx
    · exact hops' x hx
    · rw [List.mem_singleton.1 hx]
      exact .inr rfl
  · rw [settle_append, hsettle']
    simp

-- Reading a phrase does to the yard what its level says.
theorem reads_of_derives {level : Level} {ks : List Lexeme.Kind} {p : Postfix Char}
    (h : Derives level ks p) : Reads level ks p := by
  induction h with
  | literal c => exact reads_literal c
  | group _ ih => exact reads_group ih
  | atom _ ih => exact ih
  | quantify _ hop ih => exact reads_quantify ih hop
  | quantified _ ih => exact reads_row ih
  | concat _ _ ih ih' => exact reads_concat ih ih'
  | row _ ih => exact reads_choice ih
  | alternation _ _ ih ih' => exact reads_alternation ih ih'

end Yard

/-- Lexemes that the grammar derives are read as the expression they are derived for. -/
theorem Derives.ofLexemes {ls : List Lexeme} {p : Postfix Char}
    (h : Derives .choice (ls.map Lexeme.kind) p) : Postfix.ofLexemes ls = .ok p := by
  have hpatient : Yard.Patient [] := fun x hx => by cases hx
  have hresting : Yard.Resting [] := fun x hx => by cases hx
  rcases Yard.reads_of_derives h ls rfl [] [] hpatient hresting
    with ⟨o, pending, hread, hops, hsettle⟩
  have hopen : ∀ x ∈ pending, x.1 ≠ .groupOpen := by
    intro x hx
    rcases hops x hx with hop | hop <;> rw [hop] <;> decide
  rw [List.append_nil] at hread hsettle
  unfold Postfix.ofLexemes Yard.start
  rw [hread]
  show Yard.finish _ = _
  unfold Yard.finish
  rw [Yard.flush_eq hopen, hsettle]
  exact congrArg _ (List.reverse_reverse p)

end Kleene
