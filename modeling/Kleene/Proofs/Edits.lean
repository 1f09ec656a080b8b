import Mathlib.Order.Bounds.Basic

/-!
# Edit distance

A word is turned into another one by keeping, replacing, inserting and deleting letters from left
to right.  Sequences of edits can be put behind each other, and cut wherever the first word is
cut.  The edit distance is the least number of edits.
-/

namespace Kleene

variable {σ : Type} {u v w x : List σ} {a b : σ} {k l : Nat}

/-- The edit distance of two words: the least number of letters to be replaced, inserted and
deleted. -/
def levenshtein [DecidableEq σ] : List σ → List σ → Nat
  | [], v => v.length
  | a :: u, [] => u.length + 1
  | a :: u, b :: v =>
    min (levenshtein u (b :: v) + 1)
      (min (levenshtein (a :: u) v + 1) (levenshtein u v + if a = b then 0 else 1))
termination_by u v => u.length + v.length

/-- So many edits turn the first word into the second one. -/
inductive Edits : List σ → List σ → Nat → Prop
  | nil : Edits [] [] 0
  | keep {u v : List σ} {k : Nat} (a : σ) : Edits u v k → Edits (a :: u) (a :: v) k
  | replace {u v : List σ} {k : Nat} (a b : σ) : Edits u v k → Edits (a :: u) (b :: v) (k + 1)
  | insert {u v : List σ} {k : Nat} (b : σ) : Edits u v k → Edits u (b :: v) (k + 1)
  | delete {u v : List σ} {k : Nat} (a : σ) : Edits u v k → Edits (a :: u) v (k + 1)

namespace Edits

theorem self (u : List σ) : Edits u u 0 := by
  induction u with
  | nil => exact .nil
  | cons a u ih => exact .keep a ih

theorem insert_all (v : List σ) : Edits [] v v.length := by
  induction v with
  | nil => exact .nil
  | cons b v ih => exact .insert b ih

theorem delete_all (u : List σ) : Edits u [] u.length := by
  induction u with
  | nil => exact .nil
  | cons a u ih => exact .delete a ih

/-- Without an edit a word stays as it is. -/
theorem eq_of_zero (h : Edits u v 0) : u = v := by
  generalize hk : 0 = k at h
  induction h with
  | nil => rfl
  | keep a _ ih => rw [ih hk]
  | replace | insert | delete => omega

theorem nil_iff : Edits [] v k ↔ k = v.length := by
  constructor
  · intro h
    generalize hu : ([] : List σ) = u at h
    induction h with
    | nil => rfl
    | keep | replace | delete => cases hu
    | insert b _ ih => rw [ih hu, List.length_cons]
  · intro h
    rw [h]
    exact insert_all v

theorem least (h : Edits u v k) (h' : Edits u v l) : Edits u v (min k l) := by
  by_cases hkl : k ≤ l
  · rwa [Nat.min_eq_left hkl]
  · rwa [Nat.min_eq_right (Nat.le_of_not_le hkl)]

theorem append (h : Edits u v k) (h' : Edits w x l) : Edits (u ++ w) (v ++ x) (k + l) := by
  induction h with
  | nil =>
    rw [Nat.zero_add]
    exact h'
  | keep a _ ih => exact .keep a ih
  | replace a b _ ih =>
    rw [Nat.add_right_comm]
    exact .replace a b ih
  | insert b _ ih =>
    rw [Nat.add_right_comm]
    exact .insert b ih
  | delete a _ ih =>
    rw [Nat.add_right_comm]
    exact .delete a ih

-- The edits of the first letter stand before those of the other letters; insertions before it
-- count as edits of it.
theorem uncons (h : Edits (a :: u) v k) :
    ∃ x y i j, v = x ++ y ∧ k = i + j ∧ Edits [a] x i ∧ Edits u y j := by
  generalize hs : a :: u = s at h
  induction h with
  | nil => cases hs
  | keep b h _ =>
    rcases List.cons.inj hs with ⟨rfl, rfl⟩
    exact ⟨[a], _, 0, _, rfl, (Nat.zero_add _).symm, .keep a .nil, h⟩
  | replace b c h _ =>
    rcases List.cons.inj hs with ⟨rfl, rfl⟩
    exact ⟨[c], _, 1, _, rfl, Nat.add_comm _ 1, .replace a c .nil, h⟩
  | delete b h _ =>
    rcases List.cons.inj hs with ⟨rfl, rfl⟩
    exact ⟨[], _, 1, _, rfl, Nat.add_comm _ 1, .delete a .nil, h⟩
  | insert b _ ih =>
    rcases ih hs with ⟨x, y, i, j, hv, hk, hx, hy⟩
    rw [hv, hk, Nat.add_right_comm]
    exact ⟨b :: x, y, i + 1, j, rfl, rfl, .insert b hx, hy⟩

/-- Edits of a word in two parts are edits of the parts. -/
theorem split (h : Edits (u ++ w) v k) :
    ∃ x y i j, v = x ++ y ∧ k = i + j ∧ Edits u x i ∧ Edits w y j := by
  induction u generalizing v k with
  | nil => exact ⟨[], v, 0, k, rfl, (Nat.zero_add k).symm, .nil, h⟩
  | cons a u ih =>
    rcases uncons h with ⟨x, rest, i, m, hv, hk, hx, hrest⟩
    rcases ih hrest with ⟨y, z, j, l, hyz, hm, hy, hz⟩
    refine ⟨x ++ y, z, i + j, l, ?_, ?_, hx.append hy, hz⟩
    · rw [hv, hyz, List.append_assoc]
    · omega

/-- A letter that is not kept is replaced by the first letter of the other word, or deleted if
that word is empty. -/
theorem singleton (a : σ) (v : List σ) : Edits [a] v (max v.length 1) := by
  cases v with
  | nil => exact .delete a .nil
  | cons b v =>
    have hlength : max (b :: v).length 1 = v.length + 1 := by
      rw [List.length_cons]
      omega
    rw [hlength]
    exact .replace a b (insert_all v)

theorem singleton_keep (a : σ) (x y : List σ) : Edits [a] (x ++ a :: y) (x.length + y.length) :=
  (insert_all x).append (.keep a (insert_all y))

/-- There are no cheaper edits of one letter. -/
theorem of_singleton (h : Edits [a] v k) :
    max v.length 1 ≤ k ∨ ∃ x y, v = x ++ a :: y ∧ k = x.length + y.length := by
  generalize hu : [a] = u at h
  induction h with
  | nil => cases hu
  | keep b h _ =>
    rcases List.cons.inj hu with ⟨rfl, rfl⟩
    rw [nil_iff.1 h]
    exact .inr ⟨[], _, rfl, (Nat.zero_add _).symm⟩
  | replace b c h _ =>
    rcases List.cons.inj hu with ⟨rfl, rfl⟩
    have hlength := nil_iff.1 h
    rw [List.length_cons]
    omega
  | delete b h _ =>
    rcases List.cons.inj hu with ⟨rfl, rfl⟩
    have hlength := nil_iff.1 h
    omega
  | insert b _ ih =>
    rw [List.length_cons]
    cases ih hu with
    | inl hk => exact .inl (by omega)
    | inr hkept =>
      rcases hkept with ⟨x, y, hv, hk⟩
      refine .inr ⟨b :: x, y, by rw [hv]; rfl, ?_⟩
      rw [List.length_cons]
      omega

variable [DecidableEq σ]

theorem levenshtein (u v : List σ) : Edits u v (levenshtein u v) := by
  fun_induction Kleene.levenshtein u v with
  | case1 v => exact insert_all v
  | case2 a u => exact delete_all (a :: u)
  | case3 a u b v hdelete hinsert hreplace =>
    have hfirst : Edits (a :: u) (b :: v)
        (Kleene.levenshtein u v + if a = b then 0 else 1) := by
      by_cases hab : a = b
      · rw [if_pos hab, hab]
        exact .keep b hreplace
      · rw [if_neg hab]
        exact .replace a b hreplace
    exact (Edits.delete a hdelete).least ((Edits.insert b hinsert).least hfirst)

theorem levenshtein_le (h : Edits u v k) : Kleene.levenshtein u v ≤ k := by
  induction h with
  | nil => simp [Kleene.levenshtein]
  | keep a _ ih =>
    rw [Kleene.levenshtein, if_pos rfl]
    omega
  | @replace u v k a b _ ih =>
    rw [Kleene.levenshtein]
    split <;> omega
  | @insert u v k b _ ih =>
    -- the recursion takes a letter off both words, so the other word is split first
    cases u with
    | nil =>
      rw [Kleene.levenshtein] at ih ⊢
      rw [List.length_cons]
      omega
    | cons a u =>
      rw [Kleene.levenshtein]
      omega
  | @delete u v k a _ ih =>
    cases v with
    | nil =>
      have hlength : Kleene.levenshtein u [] = u.length := by
        cases u <;> simp [Kleene.levenshtein]
      rw [Kleene.levenshtein]
      omega
    | cons b v =>
      rw [Kleene.levenshtein]
      omega

/-- The edit distance is the least number of edits. -/
theorem isLeast_levenshtein (u v : List σ) : IsLeast {k | Edits u v k} (Kleene.levenshtein u v) :=
  ⟨levenshtein u v, fun _ h => levenshtein_le h⟩

end Edits

end Kleene
