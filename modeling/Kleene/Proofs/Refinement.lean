import Kleene.Proofs.Deterministic
import Kleene.Dfa.Minimal

/-!
# Partition refinement

What makes it enough to let the smaller half of a split cell wait: a relation between states of
one cell that agrees on which letters lead into the waiting cells, and into the splitter at hand,
agrees on all cells.  Splitting keeps this, because a set and one of its halves determine the
other half, and when no cell waits it says that the letters respect the partition.
-/

namespace Kleene.Refinement

variable {σ : Type} {d : Dfa σ} {r r' : Refinement} {i j : Nat} {p q : State} {a : σ}
variable {S C I O sources : List State} {R : State → State → Prop}

theorem cell_of_mem (h : q ∈ r.cell i) : i < r.cells.size ∧ r.cells[i]? = some (r.cell i) := by
  unfold cell at h ⊢
  cases hc : r.cells[i]? with
  | none =>
    rw [hc] at h
    cases h
  | some c => exact ⟨(Array.getElem?_eq_some_iff.1 hc).1, rfl⟩

theorem exists_cell_of_mem (h : C ∈ r.cells.toList) : ∃ i, C = r.cell i := by
  rcases List.getElem?_of_mem h with ⟨i, hi⟩
  refine ⟨i, ?_⟩
  unfold cell
  rw [← Array.getElem?_toList, hi]
  rfl

theorem lt_of_isWaiting (h : r.isWaiting i = true) : i < r.waits.length := by
  unfold isWaiting at h
  cases hb : r.waits[i]? with
  | none =>
    rw [hb] at h
    cases h
  | some b => exact (List.getElem?_eq_some_iff.1 hb).1

/-! ## One split -/

/-- What a split does: the members of the cell among the sources keep its place, the others are
the last cell, and one of the two waits that did not wait before. -/
structure Splits (sources : List State) (r r' : Refinement) (i : Nat) : Prop where
  lt_size : i < r.cells.size
  size : r'.cells.size = r.cells.size + 1
  mem_inside : ∀ q, q ∈ r'.cell i ↔ q ∈ r.cell i ∧ q ∈ sources
  mem_outside : ∀ q, q ∈ r'.cell r.cells.size ↔ q ∈ r.cell i ∧ q ∉ sources
  others : ∀ j, j ≠ i → j ≠ r.cells.size → r'.cell j = r.cell j
  ne_nil : (∀ c ∈ r.cells.toList, c ≠ []) → ∀ c ∈ r'.cells.toList, c ≠ []
  perm : r'.cells.toList.flatten.Perm r.cells.toList.flatten
  waits_before : r.waits.length = r.cells.size
  waits : r'.waits.length = r'.cells.size
  isWaiting : ∀ j, j ≠ i → j ≠ r.cells.size → r'.isWaiting j = r.isWaiting j
  pending : (r'.pending = r.cells.size :: r.pending ∧ r'.isWaiting r.cells.size = true ∧
      r'.isWaiting i = r.isWaiting i) ∨
    (r'.pending = i :: r.pending ∧ r'.isWaiting r.cells.size = false ∧
      r'.isWaiting i = true ∧ r.isWaiting i = false)

theorem flatten_set_append {cells : List (List State)} (hi : cells[i]? = some C)
    (hC : C.Perm (I ++ O)) : ((cells.set i I) ++ [O]).flatten.Perm cells.flatten := by
  rcases List.getElem?_eq_some_iff.1 hi with ⟨hlt, hget⟩
  have hcells : cells = cells.take i ++ C :: cells.drop (i + 1) := by
    rw [← hget, List.getElem_cons_drop, List.take_append_drop]
  have hset : cells.set i I = cells.take i ++ I :: cells.drop (i + 1) :=
    List.set_eq_take_append_cons_drop.trans (if_pos hlt)
  rw [hset]
  conv => rhs; rw [hcells]
  simp only [List.flatten_append, List.flatten_cons, List.flatten_nil, List.append_nil,
    List.append_assoc]
  refine List.Perm.append_left _ ?_
  -- the outside moves past the cells behind
  have hswap : ((cells.drop (i + 1)).flatten ++ O).Perm (O ++ (cells.drop (i + 1)).flatten) :=
    List.perm_append_comm
  refine (hswap.append_left I).trans ?_
  rw [← List.append_assoc]
  exact (hC.symm.append_right _)

theorem mem_setIfInBounds_push {cells : Array (List State)} {c : List State}
    (h : c ∈ ((cells.setIfInBounds i I).push O).toList) : c = I ∨ c = O ∨ c ∈ cells.toList := by
  rw [Array.toList_push, List.mem_append, List.mem_singleton, Array.toList_setIfInBounds] at h
  rcases h with h | h
  · rcases List.mem_or_eq_of_mem_set h with h | h
    · exact .inr (.inr h)
    · exact .inl h
  · exact .inr (.inl h)

theorem cell_setIfInBounds_push (hcells : r'.cells = (r.cells.setIfInBounds i I).push O)
    (hi : i < r.cells.size) (j : Nat) :
    r'.cell j = if j = i then I else if j = r.cells.size then O else r.cell j := by
  unfold cell
  rw [hcells, Array.getElem?_push, Array.getElem?_setIfInBounds, Array.size_setIfInBounds]
  by_cases hj : j = i
  · have hne : i ≠ r.cells.size := by omega
    rw [hj, if_neg hne, if_pos rfl, if_pos hi, if_pos rfl]
    rfl
  · rw [if_neg hj, if_neg (Ne.symm hj)]
    split <;> rfl

theorem getD_concat (ws : List Bool) (b : Bool) (j : Nat) :
    (ws ++ [b])[j]?.getD false = if j = ws.length then b else ws[j]?.getD false := by
  by_cases hj : j = ws.length
  · rw [hj, if_pos rfl, List.getElem?_concat_length]
    rfl
  · rw [if_neg hj]
    by_cases hlt : j < ws.length
    · rw [List.getElem?_append_left hlt]
    · have hlength : (ws ++ [b]).length = ws.length + 1 := by simp
      rw [List.getElem?_eq_none (by omega), List.getElem?_eq_none (by omega)]

theorem getD_set_true {ws : List Bool} (hi : i < ws.length) (j : Nat) :
    (ws.set i true)[j]?.getD false = if j = i then true else ws[j]?.getD false := by
  by_cases hj : j = i
  · rw [hj, if_pos rfl, List.getElem?_set_self hi]
    rfl
  · rw [if_neg hj, List.getElem?_set_ne (Ne.symm hj)]

theorem isWaiting_of_waits {ws : List Bool} {b : Bool} (h : r'.waits = ws ++ [b]) (j : Nat) :
    r'.isWaiting j = if j = ws.length then b else ws[j]?.getD false := by
  unfold isWaiting
  rw [h, getD_concat]

/-- A cell is split if it has sources and other members. -/
def Mixed (sources : List State) (r : Refinement) (i : Nat) : Prop :=
  (r.cell i).filter (· ∈ sources) ≠ [] ∧ (r.cell i).filter (· ∉ sources) ≠ []

theorem mixed_iff : Mixed sources r i ↔ ¬ (((r.cell i).filter (· ∈ sources)).isEmpty ||
    ((r.cell i).filter (· ∉ sources)).isEmpty) = true := by
  unfold Mixed
  rw [Bool.or_eq_true, List.isEmpty_iff, List.isEmpty_iff, not_or]

theorem cells_split (h : Mixed sources r i) : (split sources r i).cells =
    (r.cells.setIfInBounds i ((r.cell i).filter (· ∈ sources))).push
      ((r.cell i).filter (· ∉ sources)) := by
  unfold split
  rw [if_neg (mixed_iff.1 h)]
  split <;> rfl

-- The new cell starts to wait, or the old one does if it did not wait before.
theorem pending_split (h : Mixed sources r i) :
    ((split sources r i).pending = r.cells.size :: r.pending ∧
      (split sources r i).waits = r.waits ++ [true]) ∨
    (r.isWaiting i = false ∧ (split sources r i).pending = i :: r.pending ∧
      (split sources r i).waits = r.waits.set i true ++ [false]) := by
  unfold split
  rw [if_neg (mixed_iff.1 h)]
  split
  · exact .inl ⟨rfl, rfl⟩
  · rename_i hlarger
    rw [Bool.or_eq_true, not_or] at hlarger
    exact .inr ⟨Bool.eq_false_of_not_eq_true hlarger.1, rfl, rfl⟩

theorem splits_split (hw : r.waits.length = r.cells.size) (h : Mixed sources r i) :
    Splits sources r (split sources r i) i := by
  rcases List.exists_mem_of_ne_nil _ h.1 with ⟨q, hq⟩
  rcases cell_of_mem (List.mem_filter.1 hq).1 with ⟨hi, hget⟩
  have hne : i ≠ r.cells.size := by omega
  have hset : (r.waits.set i true).length = r.cells.size := (List.length_set).trans hw
  have hcells := cells_split h
  have hcell := cell_setIfInBounds_push hcells hi
  have hsize : (split sources r i).cells.size = r.cells.size + 1 := by
    rw [hcells, Array.size_push, Array.size_setIfInBounds]
  exact {
    lt_size := hi
    size := hsize
    mem_inside := fun q => by rw [hcell, if_pos rfl, List.mem_filter, decide_eq_true_iff]
    mem_outside := fun q => by
      rw [hcell, if_neg (Ne.symm hne), if_pos rfl, List.mem_filter, decide_eq_true_iff]
    others := fun j hj hlast => by rw [hcell, if_neg hj, if_neg hlast]
    ne_nil := fun hnonempty c hc => by
      rw [hcells] at hc
      rcases mem_setIfInBounds_push hc with rfl | rfl | hc
      · exact h.1
      · exact h.2
      · exact hnonempty c hc
    perm := by
      rw [hcells, Array.toList_push, Array.toList_setIfInBounds]
      have hmem : r.cells.toList[i]? = some (r.cell i) := by rw [Array.getElem?_toList, hget]
      have hperm := List.filter_append_perm (fun q => decide (q ∈ sources)) (r.cell i)
      exact flatten_set_append hmem (by simpa only [decide_not] using hperm.symm)
    waits_before := hw
    waits := by
      rw [hsize]
      rcases pending_split h with ⟨-, hwaits⟩ | ⟨-, -, hwaits⟩
      · rw [hwaits, List.length_append, hw, List.length_singleton]
      · rw [hwaits, List.length_append, hset, List.length_singleton]
    isWaiting := fun j hj hlast => by
      rcases pending_split h with ⟨-, hwaits⟩ | ⟨-, -, hwaits⟩
      · rw [isWaiting_of_waits hwaits, hw, if_neg hlast]
        rfl
      · rw [isWaiting_of_waits hwaits, hset, if_neg hlast, getD_set_true (hw ▸ hi), if_neg hj]
        rfl
    pending := by
      rcases pending_split h with ⟨hpending, hwaits⟩ | ⟨hnot, hpending, hwaits⟩
      · left
        refine ⟨hpending, ?_, ?_⟩
        · rw [isWaiting_of_waits hwaits, hw, if_pos rfl]
        · rw [isWaiting_of_waits hwaits, hw, if_neg hne]
          rfl
      · right
        refine ⟨hpending, ?_, ?_, hnot⟩
        · rw [isWaiting_of_waits hwaits, hset, if_pos rfl]
        · rw [isWaiting_of_waits hwaits, hset, if_neg hne, getD_set_true (hw ▸ hi), if_pos rfl] }

-- Either nothing is split, because all members of the cell are sources or none is, or the cell
-- is split.
theorem split_cases (sources : List State) (i : Nat) (hw : r.waits.length = r.cells.size) :
    (split sources r i = r ∧ ((∀ q ∈ r.cell i, q ∈ sources) ∨ ∀ q ∈ r.cell i, q ∉ sources)) ∨
      Splits sources r (split sources r i) i := by
  by_cases h : Mixed sources r i
  · exact .inr (splits_split hw h)
  · left
    have hempty := h
    rw [mixed_iff, Classical.not_not] at hempty
    unfold split
    refine ⟨if_pos hempty, ?_⟩
    unfold Mixed at h
    rw [Classical.not_and_iff_not_or_not, Classical.not_not, Classical.not_not,
      List.filter_eq_nil_iff, List.filter_eq_nil_iff] at h
    cases h with
    | inl h => exact .inr fun q hq => by simpa using h q hq
    | inr h => exact .inl fun q hq => by simpa using h q hq

/-! ## What makes half of a cell enough -/

section Respect

variable [DecidableEq σ]

theorem mem_sources : p ∈ Refinement.sources d S a ↔ ∃ q ∈ S, ⟨p, a, q⟩ ∈ d.edges := by
  unfold Refinement.sources
  rw [List.mem_map]
  simp only [List.mem_filter, Bool.and_eq_true, decide_eq_true_eq]
  constructor
  · intro h
    rcases h with ⟨e, ⟨he, rfl, hS⟩, rfl⟩
    exact ⟨e.target, hS, he⟩
  · intro h
    rcases h with ⟨q, hq, he⟩
    exact ⟨_, ⟨he, rfl, hq⟩, rfl⟩

/-- Related states agree on which letters lead into the set. -/
def Respects (d : Dfa σ) (R : State → State → Prop) (S : List State) : Prop :=
  ∀ a ∈ d.alphabet, ∀ p q, R p q → (p ∈ Refinement.sources d S a ↔ q ∈ Refinement.sources d S a)

/-- Related states are in one cell. -/
def Refines (R : State → State → Prop) (r : Refinement) : Prop :=
  ∀ p q, R p q → ∃ i, p ∈ r.cell i ∧ q ∈ r.cell i

/-- A relation within the cells that agrees on the waiting cells, and on the splitter `S`, agrees
on all cells. -/
def Settled (d : Dfa σ) (S : List State) (r : Refinement) : Prop :=
  ∀ R, Refines R r → (∀ i, r.isWaiting i = true → Respects d R (r.cell i)) → Respects d R S →
    ∀ i, Respects d R (r.cell i)

theorem respects_nil : Respects d R [] := by
  intro a _ p q _
  rw [mem_sources, mem_sources]
  constructor <;> intro h <;> rcases h with ⟨s, hs, -⟩ <;> cases hs

-- Agreeing on both halves is agreeing on the whole.
theorem respects_of_halves (hC : ∀ q, q ∈ C ↔ q ∈ I ∨ q ∈ O) (hI : Respects d R I)
    (hO : Respects d R O) : Respects d R C := by
  have hsources : ∀ a p, p ∈ Refinement.sources d C a ↔
      p ∈ Refinement.sources d I a ∨ p ∈ Refinement.sources d O a := by
    intro a p
    simp only [mem_sources, hC, or_and_right, exists_or]
  intro a ha p q hpq
  rw [hsources, hsources, hI a ha p q hpq, hO a ha p q hpq]

-- Agreeing on the whole and on one half is agreeing on the other half, because a letter leads
-- into one of them only.
theorem respects_of_whole (hd : d.Deterministic) (hC : ∀ q, q ∈ C ↔ q ∈ I ∨ q ∈ O)
    (hdisjoint : ∀ q ∈ I, q ∉ O) (hwhole : Respects d R C) (hI : Respects d R I) :
    Respects d R O := by
  have hsources : ∀ a p, p ∈ Refinement.sources d O a ↔
      p ∈ Refinement.sources d C a ∧ p ∉ Refinement.sources d I a := by
    intro a p
    simp only [mem_sources, hC]
    constructor
    · intro h
      rcases h with ⟨q, hq, he⟩
      refine ⟨⟨q, .inr hq, he⟩, fun h => ?_⟩
      rcases h with ⟨q', hq', he'⟩
      rw [hd _ _ _ _ he he'] at hq
      exact hdisjoint q' hq' hq
    · intro h
      rcases h with ⟨⟨q, hq | hq, he⟩, hnot⟩
      · exact absurd ⟨q, hq, he⟩ hnot
      · exact ⟨q, hq, he⟩
  intro a ha p q hpq
  rw [hsources, hsources, hwhole a ha p q hpq, hI a ha p q hpq]

variable (hs : Splits sources r r' i)
include hs

omit [DecidableEq σ] in
theorem Splits.cell_iff (q : State) :
    q ∈ r.cell i ↔ q ∈ r'.cell i ∨ q ∈ r'.cell r.cells.size := by
  rw [hs.mem_inside, hs.mem_outside, ← and_or_left]
  exact ⟨fun hq => ⟨hq, Classical.em _⟩, fun hq => hq.1⟩

omit [DecidableEq σ] in
theorem Splits.disjoint (q : State) (hq : q ∈ r'.cell i) : q ∉ r'.cell r.cells.size := by
  rw [hs.mem_inside] at hq
  rw [hs.mem_outside]
  exact fun h => h.2 hq.2

omit [DecidableEq σ] in
-- Every cell after a split is part of a cell before it.
theorem Splits.finer (j : Nat) : ∃ k, ∀ q ∈ r'.cell j, q ∈ r.cell k := by
  by_cases hj : j = i
  · rw [hj]
    exact ⟨i, fun q hq => (hs.cell_iff q).2 (.inl hq)⟩
  · by_cases hsize : j = r.cells.size
    · rw [hsize]
      exact ⟨i, fun q hq => (hs.cell_iff q).2 (.inr hq)⟩
    · rw [hs.others j hj hsize]
      exact ⟨j, fun q hq => hq⟩

omit [DecidableEq σ] in
theorem Splits.refines (h : Refines R r') : Refines R r := by
  intro p q hpq
  rcases h p q hpq with ⟨j, hp, hq⟩
  rcases hs.finer j with ⟨k, hk⟩
  exact ⟨k, hk p hp, hk q hq⟩

/-- A split keeps what the waiting cells are good for. -/
theorem Splits.settled (hd : d.Deterministic) (h : Settled d S r) : Settled d S r' := by
  intro R hR hwaiting hS
  have hne : r.cells.size ≠ i := by
    have := hs.lt_size
    omega
  -- the relation agrees on all cells that waited before the split
  have hbefore : ∀ j, r.isWaiting j = true → Respects d R (r.cell j) := by
    intro j hj
    by_cases hji : j = i
    · rw [hji] at hj ⊢
      rcases hs.pending with ⟨-, hlast, hsame⟩ | ⟨-, -, -, hnot⟩
      · exact respects_of_halves hs.cell_iff (hwaiting i (hsame.trans hj)) (hwaiting _ hlast)
      · rw [hj] at hnot
        cases hnot
    · have hlt := lt_of_isWaiting hj
      have hsize : j ≠ r.cells.size := by
        have := hs.waits_before
        omega
      rw [← hs.others j hji hsize]
      exact hwaiting j ((hs.isWaiting j hji hsize).trans hj)
  have hall := h R (hs.refines hR) hbefore hS
  have hcomm : ∀ q, q ∈ r.cell i ↔ q ∈ r'.cell r.cells.size ∨ q ∈ r'.cell i := fun q =>
    (hs.cell_iff q).trans or_comm
  -- one half waits, and so the relation agrees on both
  have hhalves : Respects d R (r'.cell i) ∧ Respects d R (r'.cell r.cells.size) := by
    rcases hs.pending with ⟨-, hlast, -⟩ | ⟨-, -, hi, -⟩
    · have hO := hwaiting _ hlast
      have hdisjoint : ∀ q ∈ r'.cell r.cells.size, q ∉ r'.cell i := fun q hq hi =>
        hs.disjoint q hi hq
      exact ⟨respects_of_whole hd hcomm hdisjoint (hall i) hO, hO⟩
    · have hI := hwaiting _ hi
      exact ⟨hI, respects_of_whole hd hs.cell_iff hs.disjoint (hall i) hI⟩
  intro j
  by_cases hj : j = i
  · rw [hj]
    exact hhalves.1
  · by_cases hsize : j = r.cells.size
    · rw [hsize]
      exact hhalves.2
    · rw [hs.others j hj hsize]
      exact hall j

end Respect

/-! ## The invariant -/

section Invariant

variable [DecidableEq σ] {live : List State}

/-- What refinement keeps: the cells are a partition of the live states in which no cell has
both accepting and other states, and the pending cells are those that wait. -/
structure Invariant (d : Dfa σ) (live S : List State) (r : Refinement) : Prop where
  perm : r.cells.toList.flatten.Perm live
  ne_nil : ∀ c ∈ r.cells.toList, c ≠ []
  uniform : ∀ i p q, p ∈ r.cell i → q ∈ r.cell i → d.isFinal p = d.isFinal q
  waits : r.waits.length = r.cells.size
  pending_nodup : r.pending.Nodup
  mem_pending : ∀ i, i ∈ r.pending ↔ r.isWaiting i = true
  settled : Settled d S r

/-- All members of each cell are sources, or none is. -/
def Pure (sources : List State) (r : Refinement) : Prop :=
  ∀ i p q, p ∈ r.cell i → q ∈ r.cell i → (p ∈ sources ↔ q ∈ sources)

/-- Splitting makes cells smaller and adds as many cells as pending ones. -/
structure Finer (r r' : Refinement) : Prop where
  finer : ∀ j, ∃ k, ∀ q ∈ r'.cell j, q ∈ r.cell k
  count : r'.cells.size + r.pending.length = r.cells.size + r'.pending.length

theorem Finer.refl (r : Refinement) : Finer r r := ⟨fun j => ⟨j, fun _ hq => hq⟩, rfl⟩

theorem Finer.trans {u : Refinement} (h : Finer r r') (h' : Finer r' u) : Finer r u where
  finer j := by
    rcases h'.finer j with ⟨k, hk⟩
    rcases h.finer k with ⟨m, hm⟩
    exact ⟨m, fun q hq => hm q (hk q hq)⟩
  count := by
    have hcount := h.count
    have hcount' := h'.count
    omega

theorem Finer.pure (h : Finer r r') (hp : Pure sources r) : Pure sources r' := by
  intro j p q hpj hqj
  rcases h.finer j with ⟨k, hk⟩
  exact hp k p q (hk p hpj) (hk q hqj)

theorem Splits.toFiner (hs : Splits sources r r' i) : Finer r r' where
  finer := hs.finer
  count := by
    have hsize := hs.size
    rcases hs.pending with ⟨hpending, -⟩ | ⟨hpending, -⟩ <;>
    · rw [hpending, List.length_cons]
      omega

theorem Splits.mem_pending (hs : Splits sources r r' i)
    (h : ∀ i, i ∈ r.pending ↔ r.isWaiting i = true) (j : Nat) :
    j ∈ r'.pending ↔ r'.isWaiting j = true := by
  have hne : i ≠ r.cells.size := by
    have := hs.lt_size
    omega
  by_cases hj : j = i
  · -- the cell that is split waits as before, or is added
    rw [hj]
    rcases hs.pending with ⟨hpending, -, hsame⟩ | ⟨hpending, -, hwaits, -⟩
    · rw [hpending, List.mem_cons, hsame, h]
      exact or_iff_right hne
    · rw [hpending, hwaits]
      exact iff_of_true List.mem_cons_self rfl
  · by_cases hsize : j = r.cells.size
    · rw [hsize]
      rcases hs.pending with ⟨hpending, hlast, -⟩ | ⟨hpending, hlast, -, -⟩
      · rw [hpending, hlast]
        exact iff_of_true List.mem_cons_self rfl
      · -- the new cell was not pending before, for it was no cell
        have hnot : r.cells.size ∉ r.pending := by
          rw [h]
          intro hw
          have := lt_of_isWaiting hw
          have := hs.waits_before
          omega
        rw [hpending, hlast, List.mem_cons]
        exact iff_of_false (not_or.2 ⟨Ne.symm hne, hnot⟩) Bool.false_ne_true
    · rw [hs.isWaiting j hj hsize, ← h]
      rcases hs.pending with ⟨hpending, -⟩ | ⟨hpending, -⟩
      · rw [hpending, List.mem_cons]
        exact or_iff_right hsize
      · rw [hpending, List.mem_cons]
        exact or_iff_right hj

-- One split keeps the invariant.
theorem Splits.invariant (hd : d.Deterministic) (hs : Splits sources r r' i)
    (h : Invariant d live S r) : Invariant d live S r' where
  perm := hs.perm.trans h.perm
  ne_nil := hs.ne_nil h.ne_nil
  uniform j p q hp hq := by
    rcases hs.finer j with ⟨k, hk⟩
    exact h.uniform k p q (hk p hp) (hk q hq)
  waits := hs.waits
  pending_nodup := by
    rcases hs.pending with ⟨hpending, -⟩ | ⟨hpending, -, -, hnot⟩
    · rw [hpending, List.nodup_cons, h.mem_pending]
      refine ⟨fun hw => ?_, h.pending_nodup⟩
      have := lt_of_isWaiting hw
      have := h.waits
      omega
    · rw [hpending, List.nodup_cons, h.mem_pending, hnot]
      exact ⟨Bool.false_ne_true, h.pending_nodup⟩
  mem_pending := hs.mem_pending h.mem_pending
  settled := hs.settled hd h.settled

/-- All members of one cell are sources, or none is. -/
def PureAt (sources : List State) (r : Refinement) (j : Nat) : Prop :=
  ∀ p q, p ∈ r.cell j → q ∈ r.cell j → (p ∈ sources ↔ q ∈ sources)

/-- Splitting a cell leaves it and the new one with sources only or without any, and all others
as they were. -/
theorem Invariant.split (hd : d.Deterministic) (sources : List State) (h : Invariant d live S r)
    (i : Nat) :
    Invariant d live S (Refinement.split sources r i) ∧ Finer r (Refinement.split sources r i) ∧
      ∀ j, j = i ∨ r.cells.size ≤ j ∨ PureAt sources r j →
        PureAt sources (Refinement.split sources r i) j := by
  rcases split_cases sources i h.waits with ⟨heq, hpure⟩ | hs
  · rw [heq]
    refine ⟨h, .refl r, fun j hj => ?_⟩
    rcases hj with rfl | hsize | hj
    · intro p q hp hq
      rcases hpure with hpure | hpure
      · exact iff_of_true (hpure p hp) (hpure q hq)
      · exact iff_of_false (hpure p hp) (hpure q hq)
    · intro p q hp
      have := (cell_of_mem hp).1
      omega
    · exact hj
  · refine ⟨hs.invariant hd h, hs.toFiner, fun j hj => ?_⟩
    have hsize := hs.size
    intro p q hp hq
    by_cases hji : j = i
    · rw [hji, hs.mem_inside] at hp hq
      exact iff_of_true hp.2 hq.2
    · by_cases hlast : j = r.cells.size
      · rw [hlast, hs.mem_outside] at hp hq
        exact iff_of_false hp.2 hq.2
      · rcases hj with hj | hj | hj
        · exact absurd hj hji
        · have := (cell_of_mem hp).1
          omega
        · rw [hs.others j hji hlast] at hp hq
          exact hj p q hp hq

-- Splitting the cells of a list one after the other.
theorem Invariant.splitList (hd : d.Deterministic) (sources : List State) (is : List Nat)
    (h : Invariant d live S r) :
    let result := is.foldl (Refinement.split sources) r
    Invariant d live S result ∧ Finer r result ∧
      ∀ j, j ∈ is ∨ r.cells.size ≤ j ∨ PureAt sources r j → PureAt sources result j := by
  induction is generalizing r with
  | nil =>
    refine ⟨h, .refl r, fun j hj => ?_⟩
    rcases hj with hj | hsize | hj
    · cases hj
    · intro p q hp
      have hp : p ∈ r.cell j := hp
      have := (cell_of_mem hp).1
      omega
    · exact hj
  | cons i is ih =>
    rcases h.split hd sources i with ⟨hnext, hfiner, hpure⟩
    rcases ih hnext with ⟨hresult, hrest, hpures⟩
    refine ⟨hresult, hfiner.trans hrest, fun j hj => hpures j ?_⟩
    by_cases hmem : j ∈ is
    · exact .inl hmem
    · refine .inr (.inr (hpure j ?_))
      rcases hj with hj | hj
      · exact .inl ((List.mem_cons.1 hj).resolve_right hmem)
      · exact .inr hj

/-- Splitting all cells by where one letter leads keeps the invariant and makes them pure. -/
theorem Invariant.splitAll (hd : d.Deterministic) (h : Invariant d live S r)
    (splitter : List State) (a : σ) :
    Invariant d live S (Refinement.splitAll d splitter r a) ∧
      Finer r (Refinement.splitAll d splitter r a) ∧
      Pure (Refinement.sources d splitter a) (Refinement.splitAll d splitter r a) := by
  rcases h.splitList hd (Refinement.sources d splitter a) (List.range r.cells.size)
    with ⟨hresult, hfiner, hpure⟩
  refine ⟨hresult, hfiner, fun j => hpure j ?_⟩
  by_cases hj : j < r.cells.size
  · exact .inl (List.mem_range.2 hj)
  · exact .inr (.inl (Nat.not_lt.1 hj))

-- Splitting by several letters in turn.
theorem Invariant.splitLetters (hd : d.Deterministic) (splitter : List State) (as : List σ)
    (h : Invariant d live S r) :
    let result := as.foldl (Refinement.splitAll d splitter) r
    Invariant d live S result ∧ Finer r result ∧
      ∀ a ∈ as, Pure (Refinement.sources d splitter a) result := by
  induction as generalizing r with
  | nil => exact ⟨h, .refl r, fun a ha => by cases ha⟩
  | cons a as ih =>
    rcases h.splitAll hd splitter a with ⟨hnext, hfiner, hpure⟩
    rcases ih hnext with ⟨hresult, hrest, hpures⟩
    exact ⟨hresult, hfiner.trans hrest,
      List.forall_mem_cons.2 ⟨hrest.pure hpure, hpures⟩⟩

/-- When all cells have been split by where the splitter's letters lead, the splitter is no
longer needed: a relation within the cells agrees on it. -/
theorem Invariant.splitBy (hd : d.Deterministic) (h : Invariant d live S r) :
    Invariant d live [] (Refinement.splitBy d S r) ∧ Finer r (Refinement.splitBy d S r) := by
  rcases h.splitLetters hd S d.alphabet with ⟨hresult, hfiner, hpure⟩
  refine ⟨{ hresult with settled := fun R hR hwaiting _ => ?_ }, hfiner⟩
  refine hresult.settled R hR hwaiting fun a ha p q hpq => ?_
  rcases hR p q hpq with ⟨j, hp, hq⟩
  exact hpure a ha j p q hp hq

omit [DecidableEq σ] in
theorem isWaiting_take {rest : List Nat} (j : Nat) :
    (r.take i rest).isWaiting j = if j = i then false else r.isWaiting j := by
  unfold isWaiting take
  by_cases hj : j = i
  · rw [hj, if_pos rfl, List.getElem?_set_self']
    cases r.waits[i]? <;> rfl
  · rw [if_neg hj, List.getElem?_set_ne (Ne.symm hj)]

/-- A cell that is taken off the stack becomes the splitter. -/
theorem Invariant.take (h : Invariant d live [] r) {rest : List Nat}
    (hpending : r.pending = i :: rest) : Invariant d live (r.cell i) (r.take i rest) where
  perm := h.perm
  ne_nil := h.ne_nil
  uniform := h.uniform
  waits := (List.length_set).trans h.waits
  pending_nodup := (List.nodup_cons.1 (hpending ▸ h.pending_nodup)).2
  mem_pending j := by
    have hnodup := List.nodup_cons.1 (hpending ▸ h.pending_nodup)
    rw [isWaiting_take]
    show j ∈ rest ↔ _
    by_cases hj : j = i
    · rw [hj, if_pos rfl]
      exact iff_of_false hnodup.1 Bool.false_ne_true
    · rw [if_neg hj, ← h.mem_pending, hpending, List.mem_cons]
      exact (or_iff_right hj).symm
  settled R hR hwaiting hS := by
    refine h.settled R hR (fun j hj => ?_) respects_nil
    by_cases hji : j = i
    · rw [hji]
      exact hS
    · refine hwaiting j ?_
      rw [isWaiting_take, if_neg hji]
      exact hj

omit [DecidableEq σ] in
theorem length_le_length_flatten {cells : List (List State)} (h : ∀ c ∈ cells, c ≠ []) :
    cells.length ≤ cells.flatten.length := by
  induction cells with
  | nil => exact Nat.zero_le _
  | cons c cells ih =>
    rcases List.forall_mem_cons.1 h with ⟨hc, hcells⟩
    have hpos := List.length_pos_iff.2 hc
    have hrest := ih hcells
    rw [List.flatten_cons, List.length_append, List.length_cons]
    omega

-- Every cell has a live state of its own, so there are no more cells than live states.
theorem Invariant.size_le (h : Invariant d live S r) : r.cells.size ≤ live.length := by
  rw [← Array.length_toList, ← h.perm.length_eq]
  exact length_le_length_flatten h.ne_nil

/-- With as many rounds as live states, no cell waits at the end: each round uses up a waiting
cell, and a cell is added with every cell that starts to wait. -/
theorem Invariant.run (hd : d.Deterministic) (h : Invariant d live [] r) {rounds : Nat}
    (hrounds : live.length + r.pending.length ≤ rounds + r.cells.size) :
    Invariant d live [] (Refinement.run d rounds r) ∧
      (Refinement.run d rounds r).pending = [] := by
  induction rounds generalizing r with
  | zero =>
    have hle := h.size_le
    have hzero : r.pending.length = 0 := by omega
    exact ⟨h, List.length_eq_zero_iff.1 hzero⟩
  | succ rounds ih =>
    unfold Refinement.run
    split
    · rename_i hpending
      exact ⟨h, hpending⟩
    · rename_i i rest hpending
      rcases (h.take hpending).splitBy hd with ⟨hnext, hfiner⟩
      have hcount : (Refinement.splitBy d (r.cell i) (r.take i rest)).cells.size + rest.length =
          r.cells.size + (Refinement.splitBy d (r.cell i) (r.take i rest)).pending.length :=
        hfiner.count
      have hlength : r.pending.length = rest.length + 1 := by rw [hpending, List.length_cons]
      refine ih hnext ?_
      omega

/-- When no cell waits, there are no more rounds to make. -/
theorem run_of_pending_eq_nil (hpending : r.pending = []) (rounds : Nat) :
    Refinement.run d rounds r = r := by
  cases rounds with
  | zero => rfl
  | succ rounds =>
    unfold Refinement.run
    rw [hpending]

/-- When no cell waits, the letters respect the partition: from the states of one cell each
letter leads into the same cells. -/
theorem Invariant.stable (h : Invariant d live [] r) (hpending : r.pending = []) {i j : Nat}
    (ha : a ∈ d.alphabet) (hp : p ∈ r.cell i) (hq : q ∈ r.cell i) :
    p ∈ Refinement.sources d (r.cell j) a ↔ q ∈ Refinement.sources d (r.cell j) a := by
  have hsettled := h.settled (fun p q => ∃ i, p ∈ r.cell i ∧ q ∈ r.cell i) (fun p q hpq => hpq)
    (fun j hj => ?_) respects_nil
  · exact hsettled j a ha p q ⟨i, hp, hq⟩
  · rw [← h.mem_pending, hpending] at hj
    cases hj

end Invariant

end Kleene.Refinement
