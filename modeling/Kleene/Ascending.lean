/-!
# Ascending lists

A finite set is kept as the strictly ascending list of its elements, so that equal sets are
equal lists and every listing of a set has one order.
-/

namespace Kleene.Ascending

variable {α : Type} [Ord α]

def insert (a : α) : List α → List α
  | [] => [a]
  | b :: bs =>
    match compare a b with
    | .lt => a :: b :: bs
    | .eq => b :: bs
    | .gt => b :: insert a bs

def insertAll (xs s : List α) : List α := xs.foldr insert s

/-- The set of the elements of a list, whatever their order and number. -/
def ofList (xs : List α) : List α := insertAll xs []

def union : List α → List α → List α
  | [], ys => ys
  | xs, [] => xs
  | x :: xs, y :: ys =>
    match compare x y with
    | .lt => x :: union xs (y :: ys)
    | .eq => x :: union xs ys
    | .gt => y :: union (x :: xs) ys
termination_by xs ys => xs.length + ys.length

/-- Whether an element is in an ascending list: the element in the middle tells in which half it
can be. -/
def search (a : α) (s : List α) : Bool :=
  match _h : s.drop (s.length / 2) with
  | [] => false
  | b :: above =>
    match compare a b with
    | .lt => search a (s.take (s.length / 2))
    | .eq => true
    | .gt => search a above
termination_by s.length
decreasing_by
  · have hlength : s.length - s.length / 2 = above.length + 1 := by
      rw [← List.length_drop, _h, List.length_cons]
    rw [List.length_take]
    omega
  · have hlength : s.length - s.length / 2 = above.length + 1 := by
      rw [← List.length_drop, _h, List.length_cons]
    omega

/-- The elements of a list in order, with all repetitions. -/
def sort (xs : List α) : List α := xs.mergeSort fun a b => (compare a b).isLE

/-- Every element comes before those that follow it in the list. -/
def IsAscending (s : List α) : Prop := s.Pairwise fun a b => compare a b = .lt

@[simp] theorem insertAll_nil (s : List α) : insertAll [] s = s := rfl

@[simp] theorem insertAll_cons (x : α) (xs s : List α) :
    insertAll (x :: xs) s = insert x (insertAll xs s) := rfl

@[simp] theorem ofList_nil : ofList ([] : List α) = [] := rfl

@[simp] theorem ofList_cons (x : α) (xs : List α) : ofList (x :: xs) = insert x (ofList xs) := rfl

@[simp] theorem isAscending_nil : IsAscending ([] : List α) := .nil

theorem isAscending_cons {a : α} {s : List α} :
    IsAscending (a :: s) ↔ (∀ b ∈ s, compare a b = .lt) ∧ IsAscending s := List.pairwise_cons

theorem perm_sort (xs : List α) : (sort xs).Perm xs := List.mergeSort_perm _ _

theorem mem_sort {x : α} {xs : List α} : x ∈ sort xs ↔ x ∈ xs := (perm_sort xs).mem_iff

theorem length_insert_le (a : α) (s : List α) : (insert a s).length ≤ s.length + 1 := by
  induction s with
  | nil => exact Nat.le_refl 1
  | cons b bs ih =>
    simp only [insert]
    split
    · exact Nat.le_refl _
    · exact Nat.le_succ _
    · exact Nat.succ_le_succ ih

theorem length_insertAll_le (xs s : List α) : (insertAll xs s).length ≤ xs.length + s.length := by
  induction xs with
  | nil => exact Nat.le_add_left _ _
  | cons x xs ih =>
    have hinsert := length_insert_le x (insertAll xs s)
    rw [insertAll_cons, List.length_cons]
    omega

theorem le_length_insert (a : α) (s : List α) : s.length ≤ (insert a s).length := by
  induction s with
  | nil => exact Nat.zero_le 1
  | cons b bs ih =>
    simp only [insert]
    split
    · exact Nat.le_succ _
    · exact Nat.le_refl _
    · exact Nat.succ_le_succ ih

theorem le_length_insertAll (xs s : List α) : s.length ≤ (insertAll xs s).length := by
  induction xs with
  | nil => exact Nat.le_refl _
  | cons x xs ih => exact Nat.le_trans ih (le_length_insert x _)

/-! ## Members -/

section Members

variable [Std.LawfulEqOrd α]

theorem mem_insert {a x : α} {s : List α} : x ∈ insert a s ↔ x = a ∨ x ∈ s := by
  induction s with
  | nil => simp [insert]
  | cons b bs ih =>
    simp only [insert]
    split
    · simp
    · rename_i h
      have : a = b := Std.LawfulEqCmp.eq_of_compare h
      simp [this]
    · simp [ih, or_left_comm]

theorem perm_insert {a : α} {s : List α} (ha : a ∉ s) : (insert a s).Perm (a :: s) := by
  induction s with
  | nil => exact .refl _
  | cons b bs ih =>
    simp only [insert]
    split
    · exact .refl _
    · rename_i h
      exact absurd (List.mem_cons.2 (.inl (Std.LawfulEqCmp.eq_of_compare h))) ha
    · exact ((ih fun hmem => ha (List.mem_cons_of_mem b hmem)).cons b).trans (.swap a b bs)

theorem mem_insertAll {x : α} {xs s : List α} : x ∈ insertAll xs s ↔ x ∈ xs ∨ x ∈ s := by
  induction xs with
  | nil => simp
  | cons y ys ih => rw [insertAll_cons, mem_insert, ih, List.mem_cons, or_assoc]

theorem mem_ofList {x : α} {xs : List α} : x ∈ ofList xs ↔ x ∈ xs := by
  rw [ofList, mem_insertAll]
  simp

theorem mem_union {x : α} {xs ys : List α} : x ∈ union xs ys ↔ x ∈ xs ∨ x ∈ ys := by
  fun_induction union xs ys with
  | case1 => simp
  | case2 => simp
  | case3 a as b bs _ ih => simp only [List.mem_cons, ih, or_assoc]
  | case4 a as b bs h ih =>
    have hab : a = b := Std.LawfulEqCmp.eq_of_compare h
    subst hab
    simp only [List.mem_cons, ih]
    by_cases hx : x = a <;> simp [hx]
  | case5 a as b bs _ ih =>
    simp only [List.mem_cons, ih]
    by_cases hx : x = b <;> simp [hx]

theorem notMem_of_compare_ne {a : α} {s : List α} (h : ∀ b ∈ s, compare a b ≠ .eq) : a ∉ s :=
  fun ha => h a ha Std.ReflCmp.compare_self

end Members

/-! ## Order -/

section Order

variable [Std.TransOrd α] [Std.LawfulEqOrd α]

theorem isAscending_insert {a : α} {s : List α} (h : IsAscending s) : IsAscending (insert a s) := by
  induction s with
  | nil => exact List.pairwise_singleton _ _
  | cons b bs ih =>
    obtain ⟨hb, hbs⟩ := isAscending_cons.1 h
    simp only [insert]
    split
    · rename_i hab
      refine isAscending_cons.2 ⟨fun c hc => ?_, h⟩
      obtain rfl | hc := List.mem_cons.1 hc
      · exact hab
      · exact Std.TransCmp.lt_trans hab (hb c hc)
    · exact h
    · rename_i hab
      refine isAscending_cons.2 ⟨fun c hc => ?_, ih hbs⟩
      obtain rfl | hc := mem_insert.1 hc
      · exact Std.OrientedCmp.gt_iff_lt.1 hab
      · exact hb c hc

theorem isAscending_insertAll {xs s : List α} (h : IsAscending s) :
    IsAscending (insertAll xs s) := by
  induction xs with
  | nil => exact h
  | cons x xs ih => exact isAscending_insert ih

theorem isAscending_ofList (xs : List α) : IsAscending (ofList xs) :=
  isAscending_insertAll isAscending_nil

theorem isAscending_union {xs ys : List α} (hx : IsAscending xs) (hy : IsAscending ys) :
    IsAscending (union xs ys) := by
  fun_induction union xs ys with
  | case1 => exact hy
  | case2 => exact hx
  | case3 a as b bs hab ih =>
    obtain ⟨ha, has⟩ := isAscending_cons.1 hx
    refine isAscending_cons.2 ⟨fun c hc => ?_, ih has hy⟩
    obtain hc | hc := mem_union.1 hc
    · exact ha c hc
    · obtain rfl | hc := List.mem_cons.1 hc
      · exact hab
      · exact Std.TransCmp.lt_trans hab ((isAscending_cons.1 hy).1 c hc)
  | case4 a as b bs hab ih =>
    have : a = b := Std.LawfulEqCmp.eq_of_compare hab
    subst this
    obtain ⟨ha, has⟩ := isAscending_cons.1 hx
    obtain ⟨hb, hbs⟩ := isAscending_cons.1 hy
    refine isAscending_cons.2 ⟨fun c hc => ?_, ih has hbs⟩
    exact (mem_union.1 hc).elim (ha c) (hb c)
  | case5 a as b bs hab ih =>
    have hba : compare b a = .lt := Std.OrientedCmp.gt_iff_lt.1 hab
    obtain ⟨hb, hbs⟩ := isAscending_cons.1 hy
    refine isAscending_cons.2 ⟨fun c hc => ?_, ih hx hbs⟩
    obtain hc | hc := mem_union.1 hc
    · obtain rfl | hc := List.mem_cons.1 hc
      · exact hba
      · exact Std.TransCmp.lt_trans hba ((isAscending_cons.1 hx).1 c hc)
    · exact hb c hc

/-- Ascending lists with the same elements are equal. -/
theorem eq_of_mem_iff {s t : List α} (hs : IsAscending s) (ht : IsAscending t)
    (h : ∀ x, x ∈ s ↔ x ∈ t) : s = t := by
  induction s generalizing t with
  | nil =>
    cases t with
    | nil => rfl
    | cons b t => simpa using h b
  | cons a s ih =>
    cases t with
    | nil => simpa using h a
    | cons b t =>
      obtain ⟨ha, has⟩ := isAscending_cons.1 hs
      obtain ⟨hb, hbt⟩ := isAscending_cons.1 ht
      have hab : a = b := by
        obtain hab | hab := List.mem_cons.1 ((h a).1 (by simp))
        · exact hab
        · obtain hba | hba := List.mem_cons.1 ((h b).2 (by simp))
          · exact hba.symm
          · have := Std.OrientedCmp.gt_iff_lt.2 (hb a hab)
            rw [ha b hba] at this
            cases this
      subst hab
      have hnot : ∀ {u : List α}, (∀ c ∈ u, compare a c = .lt) → a ∉ u := fun hu =>
        notMem_of_compare_ne fun c hc => by simp [hu c hc]
      refine congrArg (a :: ·) (ih has hbt fun x => ?_)
      constructor
      · intro hx
        obtain rfl | hx' := List.mem_cons.1 ((h x).1 (List.mem_cons_of_mem _ hx))
        · exact absurd hx (hnot ha)
        · exact hx'
      · intro hx
        obtain rfl | hx' := List.mem_cons.1 ((h x).2 (List.mem_cons_of_mem _ hx))
        · exact absurd hx (hnot hb)
        · exact hx'

theorem insert_eq_self {a : α} {s : List α} (hs : IsAscending s) (ha : a ∈ s) :
    insert a s = s :=
  eq_of_mem_iff (isAscending_insert hs) hs fun x => by
    rw [mem_insert]
    exact ⟨fun h => h.elim (fun e => e ▸ ha) id, .inr⟩

/-- Adding two lists one after the other is adding them at once. -/
theorem insertAll_append {xs ys s : List α} (hs : IsAscending s) :
    insertAll ys (insertAll xs s) = insertAll (xs ++ ys) s :=
  eq_of_mem_iff (isAscending_insertAll (isAscending_insertAll hs)) (isAscending_insertAll hs)
    fun x => by
      rw [mem_insertAll, mem_insertAll, mem_insertAll, List.mem_append, or_assoc, or_left_comm]

theorem insertAll_eq_self {xs s : List α} (hs : IsAscending s) (h : ∀ x ∈ xs, x ∈ s) :
    insertAll xs s = s :=
  eq_of_mem_iff (isAscending_insertAll hs) hs fun x => by
    rw [mem_insertAll]
    exact or_iff_right_of_imp (h x)

/-- The order and the number of repetitions in a list do not matter for the set. -/
theorem insertAll_congr {xs ys s : List α} (hs : IsAscending s) (h : ∀ x, x ∈ xs ↔ x ∈ ys) :
    insertAll xs s = insertAll ys s :=
  eq_of_mem_iff (isAscending_insertAll hs) (isAscending_insertAll hs) fun x => by
    rw [mem_insertAll, mem_insertAll, h]

theorem ofList_congr {xs ys : List α} (h : ∀ x, x ∈ xs ↔ x ∈ ys) : ofList xs = ofList ys :=
  insertAll_congr isAscending_nil h

theorem ofList_eq_self {s : List α} (hs : IsAscending s) : ofList s = s :=
  eq_of_mem_iff (isAscending_ofList s) hs fun _ => mem_ofList

/-- A list without repetitions is put in ascending order. -/
theorem isAscending_sort {xs : List α} (h : xs.Nodup) : IsAscending (sort xs) := by
  have htotal : ∀ a b : α, ((compare a b).isLE || (compare b a).isLE) = true := fun a b => by
    have hswap : compare b a = (compare a b).swap := Std.OrientedCmp.eq_swap
    rw [hswap]
    cases compare a b <;> rfl
  have hsorted := List.pairwise_mergeSort (fun _ _ _ => Std.TransCmp.isLE_trans) htotal xs
  refine (hsorted.and ((perm_sort xs).nodup_iff.2 h)).imp fun {a b} hab => ?_
  obtain ⟨hle, hne⟩ := hab
  cases hcompare : compare a b with
  | lt => rfl
  | eq => exact absurd (Std.LawfulEqCmp.eq_of_compare hcompare) hne
  | gt =>
    rw [hcompare] at hle
    cases hle

/-- In whatever order a set is listed, it is sorted into one list. -/
theorem sort_eq {xs s : List α} (hxs : xs.Nodup) (hs : IsAscending s)
    (h : ∀ x, x ∈ xs ↔ x ∈ s) : sort xs = s :=
  eq_of_mem_iff (isAscending_sort hxs) hs fun x => mem_sort.trans (h x)

/-! ## Search -/

/-- An element that comes before one of an ascending list is to be found below that one. -/
theorem mem_append_cons_of_lt {a b : α} {below above : List α}
    (hs : IsAscending (below ++ b :: above)) (hab : compare a b = .lt) :
    a ∈ below ++ b :: above ↔ a ∈ below := by
  obtain ⟨-, habove, -⟩ := List.pairwise_append.1 hs
  rw [List.mem_append]
  refine or_iff_left (notMem_of_compare_ne fun c hc => ?_)
  have hac : compare a c = .lt := by
    obtain rfl | hc := List.mem_cons.1 hc
    · exact hab
    · exact Std.TransCmp.lt_trans hab ((isAscending_cons.1 habove).1 c hc)
  simp [hac]

theorem mem_append_cons_of_gt {a b : α} {below above : List α}
    (hs : IsAscending (below ++ b :: above)) (hab : compare a b = .gt) :
    a ∈ below ++ b :: above ↔ a ∈ above := by
  obtain ⟨-, -, hcross⟩ := List.pairwise_append.1 hs
  rw [List.append_cons, List.mem_append]
  refine or_iff_right (notMem_of_compare_ne fun c hc => ?_)
  have hac : compare a c = .gt := by
    obtain hc | hc := List.mem_append.1 hc
    · have hcb : compare c b = .lt := hcross c hc b List.mem_cons_self
      exact Std.TransCmp.gt_trans hab (Std.OrientedCmp.gt_iff_lt.2 hcb)
    · rwa [List.mem_singleton.1 hc]
  simp [hac]

/-- In an ascending list the search finds exactly the members. -/
theorem search_iff_mem {a : α} {s : List α} (hs : IsAscending s) : search a s = true ↔ a ∈ s := by
  fun_induction search a s with
  | case1 s hdrop =>
    have hlength := congrArg List.length hdrop
    rw [List.length_drop, List.length_nil] at hlength
    have hnil : s = [] := List.length_eq_zero_iff.1 (by omega)
    simp [hnil]
  | case2 s b above hdrop hab ih =>
    have hsplit : s.take (s.length / 2) ++ b :: above = s := by
      rw [← hdrop, List.take_append_drop]
    have hs' : IsAscending (s.take (s.length / 2) ++ b :: above) := by rwa [hsplit]
    have hmem := mem_append_cons_of_lt hs' hab
    rw [hsplit] at hmem
    exact (ih (List.pairwise_append.1 hs').1).trans hmem.symm
  | case3 s b above hdrop hab =>
    have heq : a = b := Std.LawfulEqCmp.eq_of_compare hab
    have hmem : a ∈ s.drop (s.length / 2) := by
      rw [hdrop, heq]
      exact List.mem_cons_self
    exact iff_of_true rfl (List.mem_of_mem_drop hmem)
  | case4 s b above hdrop hab ih =>
    have hsplit : s.take (s.length / 2) ++ b :: above = s := by
      rw [← hdrop, List.take_append_drop]
    have hs' : IsAscending (s.take (s.length / 2) ++ b :: above) := by rwa [hsplit]
    have hmem := mem_append_cons_of_gt hs' hab
    rw [hsplit] at hmem
    exact (ih (isAscending_cons.1 (List.pairwise_append.1 hs').2.1).2).trans hmem.symm

end Order

end Kleene.Ascending
