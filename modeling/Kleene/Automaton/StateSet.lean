import Kleene.Misuse

/-!
# Sets and tables over states

Both are made for the states below a bound.  A set knows its number of members; a table has
a slot for every state, and a slot that holds the blank value counts as empty.
-/

namespace Kleene

/-- A set of states below a bound. -/
structure StateSet where
  /-- One flag for every state below the bound. -/
  flags : Array Bool
  size : Nat
  deriving DecidableEq, Repr

namespace StateSet

def empty (bound : Nat) : StateSet := ⟨Array.replicate bound false, 0⟩

/-- Whether a state is a member; states beyond the bound are not. -/
def contains (s : StateSet) (q : State) : Bool := s.flags[q]?.getD false

def isEmpty (s : StateSet) : Bool := s.size = 0

/-- The set with one more state below the bound; others are ignored. -/
def insert (s : StateSet) (q : State) : StateSet :=
  if s.contains q || s.flags.size ≤ q then s
  else ⟨s.flags.setIfInBounds q true, s.size + 1⟩

def insert? (s : StateSet) (q : State) : Except Misuse (Bool × StateSet) :=
  if s.flags.size ≤ q then .error .outOfBounds else .ok (!s.contains q, s.insert q)

def toList (s : StateSet) : List State := (List.range s.flags.size).filter s.contains

/-- The set of the states of a list that lie below the bound. -/
def ofList (bound : Nat) (qs : List State) : StateSet := qs.foldl insert (empty bound)

/-- The number of states below the bound that are not members. -/
def unset (s : StateSet) : Nat := s.flags.count false

theorem insert_of_contains {s : StateSet} {q : State} (h : s.contains q = true) :
    s.insert q = s := by
  unfold insert
  rw [h, Bool.true_or, if_pos rfl]

theorem insert_of_not_contains {s : StateSet} {q : State} (hq : q < s.flags.size)
    (h : s.contains q = false) :
    s.insert q = ⟨s.flags.setIfInBounds q true, s.size + 1⟩ := by
  unfold insert
  rw [h, Bool.false_or, decide_eq_false (Nat.not_le.2 hq), if_neg Bool.false_ne_true]

theorem unset_insert {s : StateSet} {q : State} (hq : q < s.flags.size)
    (h : s.contains q = false) : (s.insert q).unset + 1 = s.unset := by
  have hflag : s.flags[q] = false := by simpa [contains, hq] using h
  have hpos : 0 < s.flags.count false := Array.count_pos_iff.2 (hflag ▸ Array.getElem_mem hq)
  rw [insert_of_not_contains hq h]
  show (s.flags.setIfInBounds q true).count false + 1 = s.flags.count false
  rw [Array.setIfInBounds_def, dif_pos hq, Array.count_set hq, hflag]
  simp only [beq_self_eq_true, if_true, Bool.true_beq, Bool.false_eq_true, if_false]
  omega

end StateSet

/-- Types with a value that stands for nothing. -/
class Blank (α : Type) where
  blank : α

instance {α : Type} : Blank (Option α) := ⟨none⟩

instance {α : Type} : Blank (List α) := ⟨[]⟩

structure StateTable (α : Type) where
  slots : Array α
  deriving DecidableEq, Repr

namespace StateTable

variable {α : Type}

def empty [Blank α] (bound : Nat) : StateTable α := ⟨Array.replicate bound Blank.blank⟩

/-- Whether the slot of a state is in use; states beyond the bound have none. -/
def has [Blank α] [DecidableEq α] (t : StateTable α) (q : State) : Bool :=
  match t.slots[q]? with
  | some a => a ≠ Blank.blank
  | none => false

/-- The value for a state, blank beyond the bound. -/
def get [Blank α] (t : StateTable α) (q : State) : α := t.slots[q]?.getD Blank.blank

def set (t : StateTable α) (q : State) (a : α) : StateTable α := ⟨t.slots.setIfInBounds q a⟩

def get? (t : StateTable α) (q : State) : Except Misuse α :=
  match t.slots[q]? with
  | some a => .ok a
  | none => .error .outOfBounds

def set? (t : StateTable α) (q : State) (a : α) : Except Misuse (StateTable α) :=
  if t.slots.size ≤ q then .error .outOfBounds else .ok (t.set q a)

end StateTable

end Kleene
