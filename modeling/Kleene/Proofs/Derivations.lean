import Kleene.Proofs.TextLabels

/-!
# Derivations

A derivation of the grammar as a tree: its lexemes from left to right, the postfix expression it
stands for, and the language it describes.  The grammar is unambiguous: a lexeme that could go on
with a phrase is never what follows it, so lexemes have one derivation at most.
-/

open Computability

namespace Kleene

/-- The ways in which the grammar derives phrases of a level. -/
inductive Derivation : Level → Type
  | literal (c : Char) : Derivation .atom
  | group : Derivation .choice → Derivation .atom
  | atom : Derivation .atom → Derivation .quantified
  | quantify (t : Derivation .quantified) (op : Operator) (h : op.isQuantifier = true) :
      Derivation .quantified
  | quantified : Derivation .quantified → Derivation .row
  | concat : Derivation .quantified → Derivation .row → Derivation .row
  | row : Derivation .row → Derivation .choice
  | alternation : Derivation .row → Derivation .choice → Derivation .choice

namespace Derivation

variable {level : Level} {rest rest' : List Lexeme.Kind}

/-- The lexemes of the phrase. -/
def lexemes : {level : Level} → Derivation level → List Lexeme.Kind
  | _, literal c => [.literal c]
  | _, group t => .opening :: (t.lexemes ++ [.closing])
  | _, atom t => t.lexemes
  | _, quantify t op _ => t.lexemes ++ [.operator op]
  | _, quantified t => t.lexemes
  | _, concat t t' => t.lexemes ++ t'.lexemes
  | _, row t => t.lexemes
  | _, alternation t t' => t.lexemes ++ .operator .alternation :: t'.lexemes

/-- The postfix expression that the phrase stands for. -/
def tokens : {level : Level} → Derivation level → Postfix Char
  | _, literal c => [.literal c]
  | _, group t => t.tokens
  | _, atom t => t.tokens
  | _, quantify t op _ => t.tokens ++ [.operator op]
  | _, quantified t => t.tokens
  | _, concat t t' => t.tokens ++ (t'.tokens ++ [.operator .concat])
  | _, row t => t.tokens
  | _, alternation t t' => t.tokens ++ (t'.tokens ++ [.operator .alternation])

/-- The language that the phrase describes. -/
def language : {level : Level} → Derivation level → Language Char
  | _, literal c => {[c]}
  | _, group t => t.language
  | _, atom t => t.language
  | _, quantify t op _ => Postfix.quantify op t.language
  | _, quantified t => t.language
  | _, concat t t' => t.language * t'.language
  | _, row t => t.language
  | _, alternation t t' => t.language + t'.language

theorem derives : {level : Level} → (t : Derivation level) → Derives level t.lexemes t.tokens
  | _, literal c => .literal c
  | _, group t => .group t.derives
  | _, atom t => .atom t.derives
  | _, quantify t _ h => .quantify t.derives h
  | _, quantified t => .quantified t.derives
  | _, concat t t' => .concat t.derives t'.derives
  | _, row t => .row t.derives
  | _, alternation t t' => .alternation t.derives t'.derives

theorem language_tokens (t : Derivation level) : t.tokens.language = t.language := by
  induction t with
  | literal c => exact (Postfix.denotes_literal c).language_eq
  | group t ih | atom t ih | quantified t ih | row t ih => exact ih
  | quantify t op h ih =>
    have hvalid := t.derives.valid
    show Postfix.language (t.tokens ++ [.operator op]) = Postfix.quantify op t.language
    rw [(Postfix.denotes_quantified h hvalid.1 hvalid.2).language_eq, ih]
  | concat t t' ih ih' =>
    have hbinary := Postfix.denotes_binary .concat (· * ·) (fun _ _ _ => rfl)
      t.derives.valid t'.derives.valid
    show Postfix.language (t.tokens ++ (t'.tokens ++ [.operator .concat])) =
      t.language * t'.language
    rw [hbinary.language_eq, ih, ih']
  | alternation t t' ih ih' =>
    have hbinary := Postfix.denotes_binary .alternation (· + ·) (fun _ _ _ => rfl)
      t.derives.valid t'.derives.valid
    show Postfix.language (t.tokens ++ (t'.tokens ++ [.operator .alternation])) =
      t.language + t'.language
    rw [hbinary.language_eq, ih, ih']

/-- The expression of a phrase describes the language of the phrase. -/
theorem denotes (t : Derivation level) : t.tokens.Denotes t.language := by
  have hvalid := t.derives.valid.2
  unfold Postfix.Valid at hvalid
  rwa [t.language_tokens] at hvalid

/-! ## One derivation at most -/

end Derivation

/-- The level that a phrase has when the lexeme goes on with it: a quantifier goes on with a
quantified atom, an operand with a row.  Nothing goes on behind a closing parenthesis. -/
def Lexeme.Kind.reach : Lexeme.Kind → Nat
  | .literal _ => Level.row.rank
  | .opening => Level.row.rank
  | .closing => Level.choice.rank + 1
  | .operator op => if op.isQuantifier then Level.quantified.rank else Level.choice.rank

namespace Derivation

variable {level : Level} {rest rest' : List Lexeme.Kind}

/-- A phrase of the level does not go on with the lexemes. -/
def Ends (level : Level) (rest : List Lexeme.Kind) : Prop :=
  ∀ k ∈ rest.head?, level.rank < k.reach

theorem ends_cons {k : Lexeme.Kind} : Ends level (k :: rest) ↔ level.rank < k.reach :=
  ⟨fun h => h k rfl, fun h _ hk => Option.some.inj hk ▸ h⟩

theorem Ends.mono {level' : Level} (h : Ends level rest) (hle : level'.rank ≤ level.rank) :
    Ends level' rest := fun k hk => hle.trans_lt (h k hk)

/-- A phrase starts with an operand. -/
theorem exists_lexemes_eq_cons (t : Derivation level) :
    ∃ k ks, t.lexemes = k :: ks ∧ k.reach = Level.row.rank := by
  rcases t.derives.exists_head with ⟨k, ks, hks, rfl | ⟨c, rfl⟩⟩
  · exact ⟨_, ks, hks, rfl⟩
  · exact ⟨_, ks, hks, rfl⟩

theorem not_ends_row_append (t : Derivation level) : ¬ Ends .row (t.lexemes ++ rest) := by
  rcases t.exists_lexemes_eq_cons with ⟨k, ks, hks, hreach⟩
  rw [hks, List.cons_append, ends_cons, hreach]
  exact Nat.lt_irrefl _

theorem ends_quantified_append (t : Derivation level) : Ends .quantified (t.lexemes ++ rest) := by
  rcases t.exists_lexemes_eq_cons with ⟨k, ks, hks, hreach⟩
  rw [hks, List.cons_append, ends_cons, hreach]
  decide

/-- The atom under the quantifiers. -/
def base : Derivation .quantified → Derivation .atom
  | atom t => t
  | quantify t _ _ => t.base

/-- The quantifiers behind the atom. -/
def quantifiers : Derivation .quantified → List Operator
  | atom _ => []
  | quantify t op _ => t.quantifiers ++ [op]

@[simp] theorem base_atom (t : Derivation .atom) : (atom t).base = t := by rw [base]

@[simp] theorem base_quantify (t : Derivation .quantified) (op : Operator)
    (h : op.isQuantifier = true) : (quantify t op h).base = t.base := by rw [base]

@[simp] theorem quantifiers_atom (t : Derivation .atom) : (atom t).quantifiers = [] := by
  rw [quantifiers]

@[simp] theorem quantifiers_quantify (t : Derivation .quantified) (op : Operator)
    (h : op.isQuantifier = true) : (quantify t op h).quantifiers = t.quantifiers ++ [op] := by
  rw [quantifiers]

theorem isQuantifier_of_mem : (t : Derivation .quantified) →
    ∀ op ∈ t.quantifiers, op.isQuantifier = true
  | atom t, op, hop => by
    rw [quantifiers_atom] at hop
    cases hop
  | quantify t op h, op', hop => by
    rw [quantifiers_quantify] at hop
    rcases List.mem_append.1 hop with hop | hop
    · exact t.isQuantifier_of_mem _ hop
    · rw [List.mem_singleton.1 hop]
      exact h

theorem lexemes_eq_base : (t : Derivation .quantified) →
    t.lexemes = t.base.lexemes ++ t.quantifiers.map Lexeme.Kind.operator
  | atom t => by
    rw [base_atom, quantifiers_atom, List.map_nil, List.append_nil]
    rfl
  | quantify t op h => by
    rw [base_quantify, quantifiers_quantify, List.map_append, ← List.append_assoc,
      ← lexemes_eq_base t]
    rfl

/-- The atom and its quantifiers make up the whole. -/
theorem eq_of_base_eq : (t t' : Derivation .quantified) → t.base = t'.base →
    t.quantifiers = t'.quantifiers → t = t'
  | atom _, atom _, hbase, _ => by
    rw [base_atom, base_atom] at hbase
    rw [hbase]
  | atom _, quantify _ _ _, _, hquantifiers => by simp at hquantifiers
  | quantify _ _ _, atom _, _, hquantifiers => by simp at hquantifiers
  | quantify t op _, quantify t' op' _, hbase, hquantifiers => by
    rw [base_quantify, base_quantify] at hbase
    rw [quantifiers_quantify, quantifiers_quantify] at hquantifiers
    rcases List.append_inj' hquantifiers rfl with ⟨hinit, hlast⟩
    rcases List.cons.inj hlast with ⟨rfl, -⟩
    rcases eq_of_base_eq t t' hbase hinit with rfl
    rfl

-- Quantifiers in a row end where the next lexeme is none.
theorem quantifiers_cancel {ops ops' : List Operator} (hops : ∀ op ∈ ops, op.isQuantifier = true)
    (hops' : ∀ op ∈ ops', op.isQuantifier = true) (hrest : Ends .quantified rest)
    (hrest' : Ends .quantified rest')
    (h : ops.map Lexeme.Kind.operator ++ rest = ops'.map Lexeme.Kind.operator ++ rest') :
    ops = ops' ∧ rest = rest' := by
  have hno : ∀ (op : Operator) (ks : List Lexeme.Kind), op.isQuantifier = true →
      ¬ Ends .quantified (.operator op :: ks) := by
    intro op ks hop hends
    rw [ends_cons, Lexeme.Kind.reach, if_pos hop] at hends
    exact Nat.lt_irrefl _ hends
  induction ops generalizing ops' with
  | nil =>
    cases ops' with
    | nil => exact ⟨rfl, h⟩
    | cons op' ops' =>
      rw [List.map_nil, List.nil_append] at h
      rw [h] at hrest
      exact absurd hrest (hno op' _ (hops' op' List.mem_cons_self))
  | cons op ops ih =>
    cases ops' with
    | nil =>
      rw [List.map_nil, List.nil_append] at h
      rw [← h] at hrest'
      exact absurd hrest' (hno op _ (hops op List.mem_cons_self))
    | cons op' ops' =>
      rw [List.map_cons, List.map_cons, List.cons_append, List.cons_append] at h
      rcases List.cons.inj h with ⟨hop, htail⟩
      rcases Lexeme.Kind.operator.inj hop with rfl
      rcases ih (List.forall_mem_cons.1 hops).2 (List.forall_mem_cons.1 hops').2 htail
        with ⟨rfl, hrest⟩
      exact ⟨rfl, hrest⟩

/-- The phrase is the only one of its level in front of lexemes that start with its own, if what
follows does not go on with it.  For a quantified atom this says that the atom is the only one. -/
def Cancels : (level : Level) → Derivation level → Prop
  | .atom, t => ∀ (t' : Derivation .atom) (rest rest' : List Lexeme.Kind),
    t.lexemes ++ rest = t'.lexemes ++ rest' → t = t' ∧ rest = rest'
  | .quantified, t => ∀ (t' : Derivation .quantified) (rest rest' : List Lexeme.Kind),
    t.lexemes ++ rest = t'.lexemes ++ rest' → t.base = t'.base ∧
      t.quantifiers.map Lexeme.Kind.operator ++ rest =
        t'.quantifiers.map Lexeme.Kind.operator ++ rest'
  | .row, t => ∀ (t' : Derivation .row) (rest rest' : List Lexeme.Kind), Ends .row rest →
    Ends .row rest' → t.lexemes ++ rest = t'.lexemes ++ rest' → t = t' ∧ rest = rest'
  | .choice, t => ∀ (t' : Derivation .choice) (rest rest' : List Lexeme.Kind),
    Ends .choice rest → Ends .choice rest' → t.lexemes ++ rest = t'.lexemes ++ rest' →
    t = t' ∧ rest = rest'

theorem cancels_atom {t : Derivation .atom} (h : Cancels .atom t) : Cancels .quantified (atom t) := by
  intro t' rest rest' heq
  rw [lexemes_eq_base t', List.append_assoc] at heq
  rcases h _ _ _ heq with ⟨hbase, hrest⟩
  rw [base_atom, quantifiers_atom]
  exact ⟨hbase, hrest⟩

theorem cancels_quantify {t : Derivation .quantified} (op : Operator) (hop : op.isQuantifier = true)
    (h : Cancels .quantified t) : Cancels .quantified (quantify t op hop) := by
  intro t' rest rest' heq
  have hlexemes : t.lexemes ++ (.operator op :: rest) = t'.lexemes ++ rest' := by
    rw [← heq]
    exact (List.append_assoc t.lexemes [.operator op] rest).symm
  rcases h _ _ _ hlexemes with ⟨hbase, hrest⟩
  rw [base_quantify, quantifiers_quantify, List.map_append, List.append_assoc]
  exact ⟨hbase, hrest⟩

/-- A quantified atom is cancelled as a whole if no quantifier follows. -/
theorem Cancels.eq {t t' : Derivation .quantified} (h : Cancels .quantified t)
    (hrest : Ends .quantified rest) (hrest' : Ends .quantified rest')
    (heq : t.lexemes ++ rest = t'.lexemes ++ rest') : t = t' ∧ rest = rest' := by
  rcases h _ _ _ heq with ⟨hbase, hquantifiers⟩
  rcases quantifiers_cancel t.isQuantifier_of_mem t'.isQuantifier_of_mem hrest hrest' hquantifiers
    with ⟨hops, htail⟩
  exact ⟨eq_of_base_eq t t' hbase hops, htail⟩

theorem cancels_group {t : Derivation .choice} (h : Cancels .choice t) :
    Cancels .atom (group t) := by
  intro t' rest rest' heq
  cases t' with
  | literal c => cases heq
  | group t' =>
    have hinner : t.lexemes ++ (.closing :: rest) = t'.lexemes ++ (.closing :: rest') := by
      have htail : t.lexemes ++ [.closing] ++ rest = t'.lexemes ++ [.closing] ++ rest' :=
        (List.cons.inj heq).2
      rwa [List.append_assoc, List.append_assoc] at htail
    have hends : ∀ ks, Ends .choice (.closing :: ks) := fun ks => ends_cons.2 (Nat.lt_succ_self _)
    rcases h _ _ _ (hends rest) (hends rest') hinner with ⟨rfl, htail⟩
    exact ⟨rfl, (List.cons.inj htail).2⟩

theorem cancels_row_quantified {t : Derivation .quantified} (h : Cancels .quantified t) :
    Cancels .row (quantified t) := by
  intro t' rest rest' hrest hrest' heq
  have hquantified : Ends .quantified rest := hrest.mono (by decide)
  cases t' with
  | quantified t' =>
    rcases h.eq hquantified (hrest'.mono (by decide)) heq with ⟨rfl, htail⟩
    exact ⟨rfl, htail⟩
  | concat t' r' =>
    -- the row on the other side would go on with an operand
    have heq : t.lexemes ++ rest = t'.lexemes ++ (r'.lexemes ++ rest') := by
      rw [← List.append_assoc]
      exact heq
    rcases h.eq hquantified r'.ends_quantified_append heq with ⟨-, htail⟩
    rw [htail] at hrest
    exact absurd hrest r'.not_ends_row_append

theorem cancels_concat {t : Derivation .quantified} {r : Derivation .row}
    (h : Cancels .quantified t) (hr : Cancels .row r) : Cancels .row (concat t r) := by
  intro t' rest rest' hrest hrest' heq
  have heq : t.lexemes ++ (r.lexemes ++ rest) = t'.lexemes ++ rest' := by
    rw [← List.append_assoc]
    exact heq
  cases t' with
  | quantified t' =>
    have hquantified : Ends .quantified rest' := hrest'.mono (by decide)
    rcases h.eq r.ends_quantified_append hquantified heq with ⟨-, htail⟩
    rw [← htail] at hrest'
    exact absurd hrest' r.not_ends_row_append
  | concat t' r' =>
    have heq : t.lexemes ++ (r.lexemes ++ rest) = t'.lexemes ++ (r'.lexemes ++ rest') := by
      rw [← List.append_assoc t'.lexemes]
      exact heq
    rcases h.eq r.ends_quantified_append r'.ends_quantified_append heq with ⟨rfl, htail⟩
    rcases hr _ _ _ hrest hrest' htail with ⟨rfl, hend⟩
    exact ⟨rfl, hend⟩

/-- An alternation ends a row and goes on with a choice. -/
theorem ends_alternation : Ends .row (.operator .alternation :: rest) ∧
    ¬ Ends .choice (.operator .alternation :: rest) := by
  rw [ends_cons, ends_cons]
  decide

theorem cancels_choice_row {t : Derivation .row} (h : Cancels .row t) :
    Cancels .choice (row t) := by
  intro t' rest rest' hrest hrest' heq
  have hrow : Ends .row rest := hrest.mono (by decide)
  cases t' with
  | row t' =>
    rcases h _ _ _ hrow (hrest'.mono (by decide)) heq with ⟨rfl, htail⟩
    exact ⟨rfl, htail⟩
  | alternation t' c' =>
    have heq : t.lexemes ++ rest =
        t'.lexemes ++ (.operator .alternation :: (c'.lexemes ++ rest')) :=
      heq.trans (List.append_assoc _ _ _)
    rcases h _ _ _ hrow ends_alternation.1 heq with ⟨-, htail⟩
    rw [htail] at hrest
    exact absurd hrest ends_alternation.2

theorem cancels_alternation {t : Derivation .row} {c : Derivation .choice} (h : Cancels .row t)
    (hc : Cancels .choice c) : Cancels .choice (alternation t c) := by
  intro t' rest rest' hrest hrest' heq
  have heq : t.lexemes ++ (.operator .alternation :: (c.lexemes ++ rest)) =
      t'.lexemes ++ rest' := (List.append_assoc _ _ _).symm.trans heq
  cases t' with
  | row t' =>
    have hrow : Ends .row rest' := hrest'.mono (by decide)
    rcases h _ _ _ ends_alternation.1 hrow heq with ⟨-, htail⟩
    rw [← htail] at hrest'
    exact absurd hrest' ends_alternation.2
  | alternation t' c' =>
    have heq : t.lexemes ++ (.operator .alternation :: (c.lexemes ++ rest)) =
        t'.lexemes ++ (.operator .alternation :: (c'.lexemes ++ rest')) :=
      heq.trans (List.append_assoc _ _ _)
    rcases h _ _ _ ends_alternation.1 ends_alternation.1 heq with ⟨rfl, htail⟩
    rcases hc _ _ _ hrest hrest' (List.cons.inj htail).2 with ⟨rfl, hend⟩
    exact ⟨rfl, hend⟩

theorem cancels : {level : Level} → (t : Derivation level) → Cancels level t
  | _, literal c => by
    intro t' rest rest' heq
    cases t' with
    | literal c' =>
      rcases List.cons.inj heq with ⟨hkind, htail⟩
      exact ⟨congrArg literal (Lexeme.Kind.literal.inj hkind), htail⟩
    | group t' => cases heq
  | _, group t => cancels_group t.cancels
  | _, atom t => cancels_atom t.cancels
  | _, quantify t op h => cancels_quantify op h t.cancels
  | _, quantified t => cancels_row_quantified t.cancels
  | _, concat t t' => cancels_concat t.cancels t'.cancels
  | _, row t => cancels_choice_row t.cancels
  | _, alternation t t' => cancels_alternation t.cancels t'.cancels

-- Lexemes have one derivation at most.
theorem lexemes_injective {t t' : Derivation .choice} (h : t.lexemes = t'.lexemes) : t = t' := by
  have hends : Ends .choice [] := fun k hk => by cases hk
  have heq : t.lexemes ++ [] = t'.lexemes ++ [] := by rw [h]
  exact (t.cancels t' [] [] hends hends heq).1

end Derivation

end Kleene
