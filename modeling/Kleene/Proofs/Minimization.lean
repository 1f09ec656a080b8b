import Kleene.Proofs.Liveness
import Kleene.Proofs.Refinement

/-!
# Minimization

Refinement stops with a partition of the live states into cells of states that accept the same
words as far as one letter can tell: all of a cell's states accept or none does, and each letter
leads from all of them into one cell or from none of them into a live state.  By induction on
words, the automaton on the cells accepts from a cell what the given one accepts from its states.
-/

namespace Kleene

namespace StateTable

variable {α : Type} [Blank α] {t : StateTable α} {p q : State} {v : α} {qs : List State}

@[simp] theorem get_empty (bound : Nat) (q : State) :
    (empty bound : StateTable α).get q = Blank.blank := by
  unfold get empty
  by_cases hq : q < bound <;> simp [hq]

omit [Blank α] in
@[simp] theorem size_slots_set (t : StateTable α) (q : State) (v : α) :
    (t.set q v).slots.size = t.slots.size := Array.size_setIfInBounds

theorem get_set_self (hq : q < t.slots.size) : (t.set q v).get q = v := by
  unfold get set
  rw [Array.getElem?_setIfInBounds, if_pos rfl, if_pos hq]
  rfl

theorem get_set_ne (h : p ≠ q) : (t.set q v).get p = t.get p := by
  unfold get set
  rw [Array.getElem?_setIfInBounds, if_neg (Ne.symm h)]

omit [Blank α] in
theorem size_slots_foldl_set : (qs.foldl (fun t q => t.set q v) t).slots.size = t.slots.size := by
  induction qs generalizing t with
  | nil => rfl
  | cons q qs ih => rw [List.foldl_cons, ih, size_slots_set]

theorem get_foldl_set_of_not_mem (h : p ∉ qs) :
    (qs.foldl (fun t q => t.set q v) t).get p = t.get p := by
  induction qs generalizing t with
  | nil => rfl
  | cons q qs ih =>
    rw [List.mem_cons, not_or] at h
    rw [List.foldl_cons, ih h.2, get_set_ne h.1]

theorem get_foldl_set_of_mem (h : p ∈ qs) (hp : p < t.slots.size) :
    (qs.foldl (fun t q => t.set q v) t).get p = v := by
  induction qs generalizing t with
  | nil => cases h
  | cons q qs ih =>
    rw [List.foldl_cons]
    by_cases hrest : p ∈ qs
    · have hp : p < (t.set q v).slots.size := by rwa [size_slots_set]
      exact ih hrest hp
    · have hpq : p = q := (List.mem_cons.1 h).resolve_right hrest
      rw [get_foldl_set_of_not_mem hrest, hpq, get_set_self (hpq ▸ hp)]

end StateTable

/-! ## The partition that refinement starts from -/

namespace Refinement

variable {σ : Type} [DecidableEq σ] {d : Dfa σ} {live : List State}

variable {finals others : List State} {i : Nat} {q : State}

omit [DecidableEq σ] in
theorem mem_cell_start : q ∈ (start finals others).cell i ↔
    (i = 0 ∧ q ∈ finals) ∨ (i = 1 ∧ q ∈ others) := by
  unfold start
  by_cases hothers : others = []
  · rw [hothers, List.isEmpty_nil, if_pos rfl]
    match i with
    | 0 => simp [cell]
    | i + 1 => simp [cell]
  · rw [if_neg (by simpa using hothers)]
    match i with
    | 0 => simp [cell]
    | 1 => simp [cell]
    | i + 2 => simp [cell]

omit [DecidableEq σ] in
theorem isWaiting_start_of_mem (h : q ∈ (start finals others).cell i) :
    (start finals others).isWaiting i = true := by
  unfold start at h ⊢
  by_cases hothers : others.isEmpty = true
  · rw [if_pos hothers] at h ⊢
    match i with
    | 0 => rfl
    | i + 1 => cases h
  · rw [if_neg hothers] at h ⊢
    match i with
    | 0 => rfl
    | 1 => rfl
    | i + 2 => cases h

omit [DecidableEq σ] in
theorem mem_pending_start : i ∈ (start finals others).pending ↔
    (start finals others).isWaiting i = true := by
  unfold start
  split
  · match i with
    | 0 => exact iff_of_true List.mem_cons_self rfl
    | i + 1 => exact iff_of_false (by simp) Bool.false_ne_true
  · match i with
    | 0 => exact iff_of_true (by simp) rfl
    | 1 => exact iff_of_true (by simp) rfl
    | i + 2 => exact iff_of_false (by simp) Bool.false_ne_true

-- The partition into accepting and other states has all cells waiting.
theorem invariant_start (hperm : (finals ++ others).Perm live) (hne : finals ≠ [])
    (hfinal : ∀ q ∈ finals, d.isFinal q = true) (hother : ∀ q ∈ others, d.isFinal q = false) :
    Invariant d live [] (start finals others) where
  perm := by
    unfold start
    split
    · rename_i hothers
      rw [List.isEmpty_iff.1 hothers, List.append_nil] at hperm
      simpa using hperm
    · simpa using hperm
  ne_nil := by
    unfold start
    split
    · simpa using hne
    · rename_i hothers
      rw [List.isEmpty_iff] at hothers
      simpa using And.intro hne hothers
  uniform i p q hp hq := by
    rw [mem_cell_start] at hp hq
    rcases hp with ⟨hi, hp⟩ | ⟨hi, hp⟩
    · rcases hq with ⟨-, hq⟩ | ⟨hi', -⟩
      · rw [hfinal p hp, hfinal q hq]
      · omega
    · rcases hq with ⟨hi', -⟩ | ⟨-, hq⟩
      · omega
      · rw [hother p hp, hother q hq]
  waits := by
    unfold start
    split <;> rfl
  pending_nodup := by
    unfold start
    split <;> simp
  mem_pending i := mem_pending_start
  settled R _ hwaiting _ i := by
    by_cases hwaits : (start finals others).isWaiting i = true
    · exact hwaiting i hwaits
    · -- a cell that does not wait has no members
      have hnil : (start finals others).cell i = [] :=
        List.eq_nil_iff_forall_not_mem.2 fun q hq => hwaits (isWaiting_start_of_mem hq)
      rw [hnil]
      exact respects_nil

end Refinement

namespace Dfa

variable {σ : Type} {d : Dfa σ} {cells : List (List State)}
variable {c c' : List State} {p q r : State} {a : σ} {i j : Nat}

/-! ## The cells of the partition -/

section Cells

variable [DecidableEq σ]

/-- A partition of the live states that acceptance and the letters respect. -/
structure Stable (d : Dfa σ) (cells : List (List State)) : Prop where
  perm : cells.flatten.Perm d.live
  ne_nil : ∀ c ∈ cells, c ≠ []
  uniform : ∀ c ∈ cells, ∀ p ∈ c, ∀ q ∈ c, d.isFinal p = d.isFinal q
  letters : ∀ c ∈ cells, ∀ p ∈ c, ∀ q ∈ c, ∀ c' ∈ cells, ∀ a ∈ d.alphabet,
    p ∈ Refinement.sources d c' a → q ∈ Refinement.sources d c' a

-- The first partition satisfies the invariant, if any live state accepts.
theorem invariant_firstCells (hfinals : d.live.filter d.isFinal ≠ []) :
    Refinement.Invariant d d.live [] d.firstCells :=
  Refinement.invariant_start (List.filter_append_perm d.isFinal d.live) hfinals
    (fun q hq => (List.mem_filter.1 hq).2) (fun q hq => by simpa using (List.mem_filter.1 hq).2)

omit [DecidableEq σ] in
-- All of its cells are pending, so there are enough rounds.
theorem rounds_firstCells : d.live.length + d.firstCells.pending.length ≤
    d.live.length + d.firstCells.cells.size := by
  unfold firstCells Refinement.start
  split <;> exact Nat.le_refl _

-- Refinement ends with a stable partition, if any live state accepts.
theorem stable_cells (hd : d.Deterministic) (hfinals : d.live.filter d.isFinal ≠ []) :
    d.Stable d.cells := by
  rcases (invariant_firstCells hfinals).run hd rounds_firstCells with ⟨hend, hpending⟩
  refine ⟨hend.perm, hend.ne_nil, fun c hc p hp q hq => ?_, ?_⟩
  · rcases Refinement.exists_cell_of_mem hc with ⟨i, rfl⟩
    exact hend.uniform i p q hp hq
  · intro c hc p hp q hq c' hc' a ha h
    rcases Refinement.exists_cell_of_mem hc with ⟨i, rfl⟩
    rcases Refinement.exists_cell_of_mem hc' with ⟨j, rfl⟩
    exact (hend.stable hpending ha hp hq).1 h

end Cells

/-! ## The numbers of the cells -/

-- A state of one of the numbered cells gets the number of its cell, and others keep what they
-- have.
theorem get_foldl_zipIdx (t : StateTable (Option Nat)) (k : Nat) (hnodup : cells.flatten.Nodup)
    (hq : q < t.slots.size) :
    let result := (cells.zipIdx k).foldl
      (fun t cell => cell.1.foldl (fun t q => t.set q (some cell.2)) t) t
    (q ∉ cells.flatten → result.get q = t.get q) ∧
      ∀ i c, cells[i]? = some c → q ∈ c → result.get q = some (k + i) := by
  induction cells generalizing t k with
  | nil => exact ⟨fun _ => rfl, fun i c hc => by cases hc⟩
  | cons c cells ih =>
    rw [List.flatten_cons, List.nodup_append] at hnodup
    have hsize : q < (c.foldl (fun t q => t.set q (some k)) t).slots.size := by
      rwa [StateTable.size_slots_foldl_set]
    rcases ih (c.foldl (fun t q => t.set q (some k)) t) (k + 1) hnodup.2.1 hsize
      with ⟨hkept, hnumber⟩
    rw [List.zipIdx_cons, List.foldl_cons]
    constructor
    · intro hnot
      rw [List.flatten_cons, List.mem_append, not_or] at hnot
      rw [hkept hnot.2, StateTable.get_foldl_set_of_not_mem hnot.1]
    · intro i c' hc' hqc
      cases i with
      | zero =>
        -- the state is in no later cell
        have hqc : q ∈ c := Option.some.inj hc' ▸ hqc
        have hrest : q ∉ cells.flatten := fun hmem => hnodup.2.2 q hqc q hmem rfl
        rw [hkept hrest, StateTable.get_foldl_set_of_mem hqc hq]
        rfl
      | succ i =>
        rw [hnumber i c' hc' hqc]
        exact congrArg some (by omega)

theorem get_cellTable (hnodup : cells.flatten.Nodup) (hc : cells[i]? = some c) (hq : q ∈ c)
    (hlt : q < d.stateCount) : (d.cellTable cells).get q = some i := by
  have hsize : q < (StateTable.empty d.stateCount : StateTable (Option Nat)).slots.size := by
    show q < (Array.replicate d.stateCount _).size
    rwa [Array.size_replicate]
  have h := (get_foldl_zipIdx _ 0 hnodup hsize).2 i c hc hq
  rwa [Nat.zero_add] at h

theorem get_cellTable_eq_none (hnodup : cells.flatten.Nodup) (hq : q ∉ cells.flatten)
    (hlt : q < d.stateCount) : (d.cellTable cells).get q = none := by
  have hsize : q < (StateTable.empty d.stateCount : StateTable (Option Nat)).slots.size := by
    show q < (Array.replicate d.stateCount _).size
    rwa [Array.size_replicate]
  have h := (get_foldl_zipIdx _ 0 hnodup hsize).1 hq
  rwa [StateTable.get_empty] at h

section Quotient

variable [DecidableEq σ]

theorem Stable.nodup (h : d.Stable cells) : cells.flatten.Nodup :=
  h.perm.nodup_iff.2 (nodup_live d)

theorem Stable.exists_cell (h : d.Stable cells) (hq : q ∈ d.live) :
    ∃ (i : Nat) (c : List State), cells[i]? = some c ∧ q ∈ c := by
  rcases List.mem_flatten.1 (h.perm.mem_iff.2 hq) with ⟨c, hc, hqc⟩
  rcases List.getElem?_of_mem hc with ⟨i, hi⟩
  exact ⟨i, c, hi, hqc⟩

omit [DecidableEq σ] in
theorem mem_flatten_of_cell (hc : cells[i]? = some c) (hq : q ∈ c) : q ∈ cells.flatten :=
  List.mem_flatten.2 ⟨c, List.mem_of_getElem? hc, hq⟩

theorem Stable.mem_live (h : d.Stable cells) (hc : cells[i]? = some c) (hq : q ∈ c) :
    q ∈ d.live := h.perm.mem_iff.1 (mem_flatten_of_cell hc hq)

-- The table gives the number of the cell that a state is in.
theorem Stable.get_cellTable_eq_some_iff (h : d.Stable cells) (hlt : q < d.stateCount) :
    (d.cellTable cells).get q = some i ↔ ∃ c, cells[i]? = some c ∧ q ∈ c := by
  constructor
  · intro hget
    by_cases hq : q ∈ cells.flatten
    · rcases h.exists_cell (h.perm.mem_iff.1 hq) with ⟨j, c, hc, hqc⟩
      rw [get_cellTable h.nodup hc hqc hlt] at hget
      exact ⟨c, Option.some.inj hget ▸ hc, hqc⟩
    · rw [get_cellTable_eq_none h.nodup hq hlt] at hget
      cases hget
  · intro hcell
    rcases hcell with ⟨c, hc, hqc⟩
    exact get_cellTable h.nodup hc hqc hlt

/-- The number of the cell into which a letter leads from a cell's first member. -/
def nextCell (d : Dfa σ) (cells : List (List State)) (c : List State) (a : σ) : Option Nat :=
  (d.successor (c.headD 0) a).bind (d.cellTable cells).get

theorem headD_mem (h : c ≠ []) : c.headD 0 ∈ c := by
  cases c with
  | nil => exact absurd rfl h
  | cons q c => exact List.mem_cons_self

end Quotient

/-! ## The automaton on the cells -/

section Minimal

variable [Ord σ] [DecidableEq σ]

-- The first member of a cell speaks for all its members.
theorem Stable.nextCell_eq_some_iff (h : d.Stable cells) (hd : d.WellFormed)
    (hc : cells[i]? = some c) (hq : q ∈ c) (ha : a ∈ d.alphabet) :
    d.nextCell cells c a = some j ↔
      ∃ r c', d.successor q a = some r ∧ cells[j]? = some c' ∧ r ∈ c' := by
  have hmem := List.mem_of_getElem? hc
  have hhead := headD_mem (h.ne_nil c hmem)
  unfold nextCell
  rw [Option.bind_eq_some_iff]
  constructor
  · intro hnext
    rcases hnext with ⟨r, hr, hget⟩
    have he := mem_edges_of_successor hr
    rcases (h.get_cellTable_eq_some_iff (hd.target_lt _ _ _ he)).1 hget with ⟨c', hc', hrc⟩
    have hsource := h.letters c hmem _ hhead q hq c' (List.mem_of_getElem? hc') a ha
      (Refinement.mem_sources.2 ⟨r, hrc, he⟩)
    rcases Refinement.mem_sources.1 hsource with ⟨r', hrc', he'⟩
    exact ⟨r', c', (successor_eq_some_iff hd.deterministic).2 he', hc', hrc'⟩
  · intro hnext
    rcases hnext with ⟨r, c', hr, hc', hrc⟩
    have hsource := h.letters c hmem q hq _ hhead c' (List.mem_of_getElem? hc') a ha
      (Refinement.mem_sources.2 ⟨r, hrc, mem_edges_of_successor hr⟩)
    rcases Refinement.mem_sources.1 hsource with ⟨r', hrc', he'⟩
    refine ⟨r', (successor_eq_some_iff hd.deterministic).2 he', ?_⟩
    exact (h.get_cellTable_eq_some_iff (hd.target_lt _ _ _ he')).2 ⟨c', hc', hrc'⟩

theorem mem_edges_quotient [Std.LawfulEqOrd σ] : ⟨i, a, j⟩ ∈ (d.quotient cells).edges ↔
    a ∈ d.alphabet ∧ ∃ c, cells[i]? = some c ∧ d.nextCell cells c a = some j := by
  unfold quotient
  rw [Ascending.mem_ofList, List.mem_flatMap]
  constructor
  · intro h
    rcases h with ⟨⟨c, k⟩, hc, he⟩
    rcases List.mem_filterMap.1 he with ⟨b, hb, heq⟩
    rcases Option.map_eq_some_iff.1 heq with ⟨l, hl, heq⟩
    rcases Edge.mk.inj heq with ⟨rfl, rfl, rfl⟩
    exact ⟨hb, c, List.mem_zipIdx_iff_getElem?.1 hc, hl⟩
  · intro h
    rcases h with ⟨ha, c, hc, hnext⟩
    exact ⟨(c, i), List.mem_zipIdx_iff_getElem?.2 hc,
      List.mem_filterMap.2 ⟨a, ha, Option.map_eq_some_iff.2 ⟨j, hnext, rfl⟩⟩⟩

theorem deterministic_quotient [Std.LawfulEqOrd σ] : (d.quotient cells).Deterministic := by
  intro i a j k he hf
  rcases (mem_edges_quotient.1 he).2 with ⟨c, hc, hj⟩
  rcases (mem_edges_quotient.1 hf).2 with ⟨c', hc', hk⟩
  rw [hc] at hc'
  rw [← Option.some.inj hc', hj] at hk
  exact Option.some.inj hk

theorem stateCount_quotient : (d.quotient cells).stateCount = cells.length := by
  show (cells.zipIdx.map _).length = _
  rw [List.length_map, List.length_zipIdx]

-- The mark of a cell is that of its first member, or that of a trap if all letters lead back.
theorem marks_quotient (hc : cells[i]? = some c) : (d.quotient cells).marks[i]? = some
    (if d.isFinal (c.headD 0) then .accepting
    else if d.alphabet.all fun a => d.nextCell cells c a = some i then .trap
    else .plain) := by
  unfold quotient
  rw [List.getElem?_map, List.getElem?_zipIdx, hc, Nat.zero_add]
  rfl

theorem Stable.isFinal_quotient (h : d.Stable cells) (hc : cells[i]? = some c) (hq : q ∈ c) :
    (d.quotient cells).isFinal i = d.isFinal q := by
  have hmem := List.mem_of_getElem? hc
  rw [h.uniform c hmem q hq _ (headD_mem (h.ne_nil c hmem))]
  show decide ((d.quotient cells).marks[i]? = some .accepting) = _
  rw [marks_quotient hc]
  by_cases hfinal : d.isFinal (c.headD 0) = true
  · rw [if_pos hfinal, hfinal]
    rfl
  · rw [if_neg hfinal, Bool.eq_false_of_not_eq_true hfinal]
    split <;> rfl

theorem Stable.start_quotient (h : d.Stable cells) (hlt : d.start < d.stateCount)
    (hc : cells[i]? = some c) (hq : d.start ∈ c) : (d.quotient cells).start = i := by
  show ((d.cellTable cells).get d.start).getD 0 = i
  rw [get_cellTable h.nodup hc hq hlt]
  rfl

variable [Std.TransOrd σ] [Std.LawfulEqOrd σ]

theorem Stable.wellFormed_quotient (h : d.Stable cells) (hd : d.WellFormed)
    (hstart : d.start ∈ d.live) : (d.quotient cells).WellFormed := by
  have hlt : ∀ {i c}, cells[i]? = some c → i < (d.quotient cells).stateCount := fun hc => by
    rw [stateCount_quotient]
    exact (List.getElem?_eq_some_iff.1 hc).1
  exact {
    start_lt := by
      rcases h.exists_cell hstart with ⟨i, c, hc, hq⟩
      rw [h.start_quotient hd.start_lt hc hq]
      exact hlt hc
    source_lt := fun i a j he => by
      rcases (mem_edges_quotient.1 he).2 with ⟨c, hc, -⟩
      exact hlt hc
    target_lt := fun i a j he => by
      rcases mem_edges_quotient.1 he with ⟨ha, c, hc, hnext⟩
      have hhead := headD_mem (h.ne_nil c (List.mem_of_getElem? hc))
      rcases (h.nextCell_eq_some_iff hd hc hhead ha).1 hnext with ⟨r, c', -, hc', -⟩
      exact hlt hc'
    letter_mem := fun i a j he => (mem_edges_quotient.1 he).1
    deterministic := deterministic_quotient
    alphabet_ascending := hd.alphabet_ascending
    edges_ascending := Ascending.isAscending_ofList _ }

-- From a cell the same words are accepted as from its members.
theorem Stable.acceptsFrom_quotient (h : d.Stable cells) (hd : d.WellFormed)
    (hstart : d.start ∈ d.live) (hc : cells[i]? = some c) (hq : q ∈ c) (w : List σ) :
    (d.quotient cells).acceptsFrom i w = d.acceptsFrom q w := by
  have hquotient := (h.wellFormed_quotient hd hstart).deterministic
  induction w generalizing i c q with
  | nil => exact h.isFinal_quotient hc hq
  | cons a w ih =>
    cases hnext : (d.quotient cells).successor i a with
    | some j =>
      rcases mem_edges_quotient.1 (mem_edges_of_successor hnext) with ⟨ha, c', hc', hj⟩
      have hsame : c' = c := Option.some.inj (hc'.symm.trans hc)
      rw [hsame] at hj
      rcases (h.nextCell_eq_some_iff hd hc hq ha).1 hj with ⟨r, c'', hr, hc'', hrc⟩
      rw [acceptsFrom_cons_of_some hnext, acceptsFrom_cons_of_some hr, ih hc'' hrc]
    | none =>
      rw [acceptsFrom_cons_of_none hnext]
      cases hr : d.successor q a with
      | none => rw [acceptsFrom_cons_of_none hr]
      | some r =>
        -- the letter cannot lead to a live state, for that one would be in a cell
        have hnot : r ∉ d.live := by
          intro hlive
          rcases h.exists_cell hlive with ⟨j, c', hc', hrc⟩
          have ha := hd.letter_mem _ _ _ (mem_edges_of_successor hr)
          have hj := (h.nextCell_eq_some_iff hd hc hq ha).2 ⟨r, c', hr, hc', hrc⟩
          have he := mem_edges_quotient.2 ⟨ha, c, hc, hj⟩
          rw [(successor_eq_some_iff hquotient).2 he] at hnext
          cases hnext
        rw [acceptsFrom_cons_of_some hr,
          hd.acceptsFrom_eq_false_of_not_live (h.mem_live hc hq) hr hnot]

omit [DecidableEq σ] in
theorem wellFormed_single (alphabet : List σ) : (single alphabet).WellFormed :=
  wellFormed_of_no_edges Nat.zero_lt_one (Ascending.isAscending_ofList _)

omit [Ord σ] [DecidableEq σ] [Std.TransOrd σ] [Std.LawfulEqOrd σ] in
theorem exists_live_final_iff :
    (d.live.filter d.isFinal).isEmpty = false ↔ ∃ f ∈ d.live, d.isFinal f = true := by
  rw [← Bool.not_eq_true, List.isEmpty_iff, List.filter_eq_nil_iff]
  simp

omit [Std.TransOrd σ] [Std.LawfulEqOrd σ] in
-- If a live state accepts, the cells are a stable partition and the start state is in one.
theorem WellFormed.stable_cells (hd : d.WellFormed)
    (hempty : (d.live.filter d.isFinal).isEmpty = false) :
    d.Stable d.cells ∧ d.start ∈ d.live := by
  have hne : d.live.filter d.isFinal ≠ [] := by
    intro hnil
    rw [hnil] at hempty
    cases hempty
  rcases exists_live_final_iff.1 hempty with ⟨f, hf, hfinal⟩
  exact ⟨Dfa.stable_cells hd.deterministic hne, hd.start_mem_live hf hfinal⟩

theorem WellFormed.minimize (hd : d.WellFormed) : d.minimize.WellFormed := by
  unfold Dfa.minimize
  cases hempty : (d.live.filter d.isFinal).isEmpty with
  | true => exact wellFormed_single d.alphabet
  | false =>
    have hcells := hd.stable_cells hempty
    exact hcells.1.wellFormed_quotient hd hcells.2

/-- The smallest automaton accepts the same words. -/
theorem WellFormed.accepts_minimize (hd : d.WellFormed) (w : List σ) :
    d.minimize.accepts w = d.accepts w := by
  unfold Dfa.minimize
  cases hempty : (d.live.filter d.isFinal).isEmpty with
  | true =>
    -- no word is accepted, for then a live state would accept
    have hnone : d.accepts w = false := by
      by_cases hw : d.accepts w = true
      · have hlive := exists_live_final_iff.2 (hd.exists_live_final hd.start_mem_reachable hw)
        rw [hempty] at hlive
        cases hlive
      · exact Bool.eq_false_of_not_eq_true hw
    rw [hnone]
    show (single d.alphabet).acceptsFrom 0 w = false
    cases w with
    | nil => rfl
    | cons a w => exact acceptsFrom_cons_of_none rfl
  | false =>
    have hcells := hd.stable_cells hempty
    rcases hcells.1.exists_cell hcells.2 with ⟨i, c, hc, hq⟩
    show (d.quotient d.cells).acceptsFrom (d.quotient d.cells).start w = _
    rw [hcells.1.start_quotient hd.start_lt hc hq, hcells.1.acceptsFrom_quotient hd hcells.2 hc hq]
    rfl

end Minimal

end Dfa

end Kleene
