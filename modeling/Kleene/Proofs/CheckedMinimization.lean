import Kleene.Proofs.Changes
import Kleene.Proofs.Distinguishing
import Kleene.Proofs.SubsetConstruction

/-!
# Minimization that cannot fail

In its checked form minimization looks up cells, flags and slots that have to be there, and adds
transitions that must not contradict one another.  For a well-formed automaton all of them are
there and none contradicts, and no cell waits after the last round, so the checked form ends with
what the unchecked one computes.
-/

namespace Kleene

namespace StateTable

variable {α : Type} {t : StateTable α} {q : State} {v : α}

theorem get?_eq_ok [Blank α] (h : q < t.slots.size) : t.get? q = .ok (t.get q) := by
  unfold get? get
  rw [Array.getElem?_eq_getElem h]
  rfl

theorem set?_eq_ok (h : q < t.slots.size) : t.set? q v = .ok (t.set q v) :=
  if_neg (Nat.not_le.2 h)

end StateTable

/-! ## Refinement -/

namespace Refinement

variable {σ : Type} [DecidableEq σ] {d : Dfa σ} {live S sources : List State}
variable {r : Refinement} {i : Nat}

theorem Invariant.size_le_split (h : Invariant d live S r) :
    r.cells.size ≤ (Refinement.split sources r i).cells.size := by
  obtain ⟨heq, -⟩ | hs := split_cases sources i h.waits
  · rw [heq]
  · rw [hs.size]
    exact Nat.le_succ _

theorem Invariant.lt_of_pending (h : Invariant d live S r) (hi : i ∈ r.pending) :
    i < r.cells.size := h.waits ▸ lt_of_isWaiting ((h.mem_pending i).1 hi)

variable (hlive : ∀ q ∈ live, q < d.stateCount)
include hlive

theorem Invariant.cell?_eq_ok (h : Invariant d live S r) (hi : i < r.cells.size) :
    r.cell? d i = .ok (r.cell i) := by
  have hcell : r.cells[i]? = some (r.cell i) := by
    unfold cell
    rw [Array.getElem?_eq_getElem hi]
    rfl
  have hlt : i < r.waits.length := h.waits ▸ hi
  have hmem : r.cell i ∈ r.cells.toList := by
    rw [← Array.getElem?_toList] at hcell
    exact List.mem_of_getElem? hcell
  have hstates : (r.cell i).all (· < d.stateCount) = true :=
    List.all_eq_true.2 fun q hq => decide_eq_true
      (hlive q (h.perm.mem_iff.1 (List.mem_flatten.2 ⟨_, hmem, hq⟩)))
  unfold cell?
  rw [hcell, List.getElem?_eq_getElem hlt]
  exact if_pos hstates

variable (hd : d.Deterministic)
include hd

/-- Splitting all cells meets only cells that are there. -/
theorem Invariant.splitAll?_eq_ok (h : Invariant d live S r) (splitter : List State) (a : σ) :
    splitAll? d splitter r a = .ok (Refinement.splitAll d splitter r a) := by
  -- no split takes a cell away
  refine (foldlM_eq_ok_foldl (P := fun b => Invariant d live S b ∧ r.cells.size ≤ b.cells.size)
    (fun b hb i hi => ?_) ⟨h, Nat.le_refl _⟩).1
  have hlt : i < b.cells.size := Nat.lt_of_lt_of_le (List.mem_range.1 hi) hb.2
  refine ⟨?_, (hb.1.split hd _ i).1, Nat.le_trans hb.2 hb.1.size_le_split⟩
  unfold split?
  rw [hb.1.cell?_eq_ok hlive hlt]
  rfl

theorem Invariant.splitBy?_eq_ok (h : Invariant d live S r) (splitter : List State) :
    splitBy? d splitter r = .ok (Refinement.splitBy d splitter r) :=
  (foldlM_eq_ok_foldl (P := Invariant d live S)
    (fun _ hb a _ => ⟨hb.splitAll?_eq_ok hlive hd splitter a, (hb.splitAll hd splitter a).1⟩) h).1

/-- With as many rounds as live states, refinement comes to its end. -/
theorem Invariant.run?_eq_ok (h : Invariant d live [] r) {rounds : Nat}
    (hrounds : live.length + r.pending.length ≤ rounds + r.cells.size) :
    run? d rounds r = .ok (some (Refinement.run d rounds r)) := by
  induction rounds generalizing r with
  | zero =>
    have hle := h.size_le
    have hzero : r.pending.length = 0 := by omega
    unfold run?
    rw [List.length_eq_zero_iff.1 hzero]
    rfl
  | succ rounds ih =>
    unfold run? Refinement.run
    split
    · rfl
    · rename_i i rest hpending
      have htake := h.take hpending
      obtain ⟨hnext, hfiner⟩ := htake.splitBy hd
      have hcount := hfiner.count
      have hlength : r.pending.length = rest.length + 1 := by rw [hpending, List.length_cons]
      have hsize : (r.take i rest).cells.size = r.cells.size := rfl
      have hrest : (r.take i rest).pending.length = rest.length := rfl
      rw [h.cell?_eq_ok hlive (h.lt_of_pending (hpending ▸ List.mem_cons_self))]
      show (do let r ← splitBy? d (r.cell i) (r.take i rest); run? d rounds r) = _
      rw [htake.splitBy?_eq_ok hlive hd]
      exact ih hnext (by omega)

end Refinement

namespace Dfa

variable {σ : Type} {d m : Dfa σ} {cells : List (List State)}

/-! ## The numbers of the cells -/

/-- Every live state has a slot for its number. -/
theorem cellTable?_eq_ok (hlt : ∀ q ∈ cells.flatten, q < d.stateCount) :
    d.cellTable? cells = .ok (d.cellTable cells) ∧
      (d.cellTable cells).slots.size = d.stateCount := by
  refine foldlM_eq_ok_foldl (P := fun t : StateTable (Option Nat) => t.slots.size = d.stateCount)
    (fun t ht cell hcell => ?_) Array.size_replicate
  have hmem : cell.1 ∈ cells := (List.mem_zipIdx' hcell).2 ▸ List.getElem_mem _
  refine foldlM_eq_ok_foldl (P := fun t : StateTable (Option Nat) => t.slots.size = d.stateCount)
    (fun t ht q hq => ?_) ht
  have hq : q < t.slots.size := ht ▸ hlt q (List.mem_flatten.2 ⟨cell.1, hmem, hq⟩)
  exact ⟨StateTable.set?_eq_ok hq, (StateTable.size_slots_set _ _ _).trans ht⟩

/-! ## The transitions of the cells -/

section Quotient

variable [Ord σ] [Std.TransOrd σ] [Std.LawfulEqOrd σ] {e : Edge σ} {es : List (Edge σ)}

/-- A well-formed automaton with the states of another and some of its transitions. -/
structure PartOf (m d : Dfa σ) : Prop where
  wellFormed : m.WellFormed
  stateCount_eq : m.stateCount = d.stateCount
  edges_subset : ∀ e ∈ m.edges, e ∈ d.edges

theorem PartOf.addEdges (hd : d.WellFormed) (h : PartOf m d) (hes : ∀ e ∈ es, e ∈ d.edges) :
    PartOf (m.addEdges es) d := by
  have hsubset : ∀ e ∈ (m.addEdges es).edges, e ∈ d.edges := fun e he =>
    (mem_edges_addEdges.1 he).elim (hes e) (h.edges_subset e)
  refine ⟨h.wellFormed.addEdges (fun p a q he => ?_) fun p a q r he hf => ?_,
    h.stateCount_eq, hsubset⟩
  · rw [h.stateCount_eq]
    exact ⟨hd.source_lt p a q (hes _ he), hd.target_lt p a q (hes _ he)⟩
  · exact hd.deterministic p a q r (hes _ he) (hf.elim (hes _) (h.edges_subset _))

/-- Steps that each add some transitions of the other automaton add all of them. -/
theorem PartOf.foldlM_eq_ok {α : Type} {f : Dfa σ → α → Except Misuse (Dfa σ)}
    {new : α → List (Edge σ)} {xs : List α} (hd : d.WellFormed) (h : PartOf m d)
    (hnew : ∀ x ∈ xs, ∀ e ∈ new x, e ∈ d.edges)
    (hf : ∀ m, PartOf m d → ∀ x ∈ xs, f m x = .ok (m.addEdges (new x))) :
    xs.foldlM f m = .ok (m.addEdges (xs.flatMap new)) := by
  induction xs generalizing m with
  | nil => rfl
  | cons x xs ih =>
    obtain ⟨hx, hxs⟩ := List.forall_mem_cons.1 hnew
    rw [List.foldlM_cons, hf m h x List.mem_cons_self, List.flatMap_cons,
      ← h.wellFormed.addEdges_append]
    exact ih (h.addEdges hd hx) hxs fun m hm y hy => hf m hm y (List.mem_cons_of_mem _ hy)

/-- The automaton before its transitions are added. -/
def withoutEdges (d : Dfa σ) : Dfa σ := { d with edges := [] }

omit [Std.TransOrd σ] [Std.LawfulEqOrd σ] in
theorem WellFormed.partOf_withoutEdges (hd : d.WellFormed) : PartOf d.withoutEdges d :=
  ⟨wellFormed_of_no_edges hd.start_lt hd.alphabet_ascending, rfl, fun _ he => by cases he⟩

/-- With all its transitions added it is the automaton again. -/
theorem WellFormed.addEdges_withoutEdges (hd : d.WellFormed) (hes : Ascending.ofList es = d.edges) :
    d.withoutEdges.addEdges es = d := by
  have hletters : Ascending.insertAll (es.map Edge.label) d.alphabet = d.alphabet := by
    refine Ascending.insertAll_eq_self hd.alphabet_ascending fun a ha => ?_
    obtain ⟨e, he, rfl⟩ := List.mem_map.1 ha
    exact hd.letter_mem _ _ _ (hes ▸ Ascending.mem_ofList.2 he)
  show (⟨d.marks, Ascending.insertAll _ d.alphabet, Ascending.ofList es, d.start⟩ : Dfa σ) = d
  rw [hletters, hes]

variable [DecidableEq σ]

/-- The transitions of a numbered cell. -/
def cellEdges (d : Dfa σ) (cells : List (List State)) (cell : List State × Nat) : List (Edge σ) :=
  d.alphabet.filterMap fun a => (d.nextCell cells cell.1 a).map fun j => ⟨cell.2, a, j⟩

omit [Std.TransOrd σ] [Std.LawfulEqOrd σ] in
theorem edges_quotient : (d.quotient cells).edges =
    Ascending.ofList (cells.zipIdx.flatMap (d.cellEdges cells)) := rfl

omit [Std.TransOrd σ] in
theorem mem_edges_of_cellEdges {cell : List State × Nat} (hcell : cell ∈ cells.zipIdx)
    (he : e ∈ d.cellEdges cells cell) : e ∈ (d.quotient cells).edges := by
  rw [edges_quotient, Ascending.mem_ofList]
  exact List.mem_flatMap.2 ⟨cell, hcell, he⟩

variable [Quotable σ]

/-- A transition of the other automaton can be added. -/
theorem PartOf.addEdge?_eq_ok (hd : d.WellFormed) (h : PartOf m d) (he : e ∈ d.edges) :
    m.addEdge? e = .ok (m.addEdges [e]) := by
  refine h.wellFormed.addEdge?_eq_ok ?_ ?_ fun r hr => ?_
  · rw [h.stateCount_eq]
    exact hd.source_lt _ _ _ he
  · rw [h.stateCount_eq]
    exact hd.target_lt _ _ _ he
  · exact hd.deterministic _ _ _ _ he (h.edges_subset _ (mem_edges_of_successor hr))

theorem PartOf.foldlM_addEdge?_eq_ok (hd : d.WellFormed) (h : PartOf m d)
    (hes : ∀ e ∈ es, e ∈ d.edges) : es.foldlM addEdge? m = .ok (m.addEdges es) := by
  have hfold : es.foldlM addEdge? m = .ok (m.addEdges (es.flatMap fun e => [e])) :=
    h.foldlM_eq_ok hd (fun e he _ hf => List.mem_singleton.1 hf ▸ hes e he)
      fun m hm e he => hm.addEdge?_eq_ok hd (hes e he)
  rwa [List.flatMap_singleton'] at hfold

/-- A letter adds the transition of its cell, if there is one. -/
theorem PartOf.addLetter?_eq_ok {table : StateTable (Option Nat)} {leader : State} {i : Nat}
    {a : σ} (hd : d.WellFormed) (h : PartOf m d) {b : Dfa σ}
    (hlt : ∀ r, b.successor leader a = some r → r < table.slots.size)
    (hnew : ∀ j, (b.successor leader a).bind table.get = some j → ⟨i, a, j⟩ ∈ d.edges) :
    b.addLetter? table leader i m a =
      .ok (m.addEdges (((b.successor leader a).bind table.get).map fun j => ⟨i, a, j⟩).toList) := by
  unfold addLetter?
  cases hr : b.successor leader a with
  | none => rfl
  | some r =>
    rw [hr, Option.bind_some] at hnew
    rw [Option.bind_some]
    dsimp only
    rw [StateTable.get?_eq_ok (hlt r hr)]
    cases hj : table.get r with
    | none => rfl
    | some j => exact h.addEdge?_eq_ok hd (hnew j hj)

/-- A cell adds its transitions, letter by letter. -/
theorem PartOf.addCell?_eq_ok (hd : d.WellFormed) (hq : (d.quotient cells).WellFormed)
    (hsize : (d.cellTable cells).slots.size = d.stateCount) (h : PartOf m (d.quotient cells))
    {cell : List State × Nat} (hcell : cell ∈ cells.zipIdx) (hne : cell.1 ≠ []) :
    d.addCell? (d.cellTable cells) m cell = .ok (m.addEdges (d.cellEdges cells cell)) := by
  obtain ⟨c, i⟩ := cell
  obtain ⟨leader, c, rfl⟩ := List.exists_cons_of_ne_nil hne
  have hnew : ∀ a ∈ d.alphabet, ∀ j,
      (d.successor leader a).bind (d.cellTable cells).get = some j →
        ⟨i, a, j⟩ ∈ (d.quotient cells).edges := fun a ha j hj =>
    mem_edges_of_cellEdges hcell (List.mem_filterMap.2 ⟨a, ha, congrArg (Option.map _) hj⟩)
  unfold cellEdges
  rw [List.filterMap_eq_flatMap_toList]
  refine h.foldlM_eq_ok hq (fun a ha e he => ?_) fun m hm a ha =>
    hm.addLetter?_eq_ok hq (fun r hr => hsize ▸ hd.successor_lt hr) (hnew a ha)
  obtain ⟨j, hj, rfl⟩ := Option.map_eq_some_iff.1 (Option.mem_toList.1 he)
  exact hnew a ha j hj

/-- The automaton on the cells is made without a failure. -/
theorem Stable.quotient?_eq_ok (h : d.Stable cells) (hd : d.WellFormed)
    (hstart : d.start ∈ d.live) : d.quotient? cells = .ok (d.quotient cells) := by
  have hq := h.wellFormed_quotient hd hstart
  have hlive : ∀ q ∈ cells.flatten, q < d.stateCount := fun q hmem =>
    lt_of_mem_live (h.perm.mem_iff.1 hmem)
  obtain ⟨htable, hsize⟩ := cellTable?_eq_ok hlive
  have hbare := hq.partOf_withoutEdges
  have hfold : cells.zipIdx.foldlM (d.addCell? (d.cellTable cells)) (d.quotient cells).withoutEdges
      = .ok (d.quotient cells) := by
    rw [hbare.foldlM_eq_ok hq (fun cell hcell e he => mem_edges_of_cellEdges hcell he)
      fun m hm cell hcell => hm.addCell?_eq_ok hd hq hsize hcell
        (h.ne_nil _ ((List.mem_zipIdx' hcell).2 ▸ List.getElem_mem _))]
    rw [hq.addEdges_withoutEdges edges_quotient.symm]
  unfold quotient?
  rw [htable]
  show (do
    let start ← (d.cellTable cells).get? d.start
    let m : Dfa σ := ⟨(d.quotient cells).marks, d.alphabet, [], start.getD 0⟩
    m.requireState m.start
    cells.zipIdx.foldlM (d.addCell? (d.cellTable cells)) m) = _
  rw [StateTable.get?_eq_ok (hsize ▸ hd.start_lt)]
  exact requireState_bind_eq_ok_iff.2 ⟨hbare.wellFormed.start_lt, hfold⟩

/-! ## Minimization -/

omit [Ord σ] [Std.TransOrd σ] [Std.LawfulEqOrd σ] [DecidableEq σ] [Quotable σ] in
theorem length_live_le : d.live.length ≤ d.stateCount := by
  have hsub : d.live ⊆ d.states := fun q hq => List.mem_range.2 (lt_of_mem_live hq)
  have hlength := (nodup_live d).length_le_of_subset hsub
  rwa [states, List.length_range] at hlength

omit [Std.TransOrd σ] [Std.LawfulEqOrd σ] [DecidableEq σ] [Quotable σ] in
theorem WellFormed.requireEnds_eq_ok (hd : d.WellFormed) : d.requireEnds = .ok () := by
  refine requireState_bind_eq_ok_iff.2 ⟨hd.start_lt, forM_eq_ok fun e he => ?_⟩
  exact requireState_bind_eq_ok_iff.2
    ⟨hd.source_lt _ _ _ he, requireState_eq_ok_iff.2 (hd.target_lt _ _ _ he)⟩

/-- The checked form ends, and with what the unchecked one computes. -/
theorem WellFormed.minimize?_eq_ok (hd : d.WellFormed) :
    d.minimize? = .ok (some d.minimize) := by
  unfold minimize? Dfa.minimize
  rw [hd.requireEnds_eq_ok]
  show (if _ then _ else _) = _
  cases hempty : (d.live.filter d.isFinal).isEmpty with
  | true => rfl
  | false =>
    obtain ⟨hstable, hstart⟩ := hd.stable_cells hempty
    have hne : d.live.filter d.isFinal ≠ [] := by simpa using hempty
    have hrun := (invariant_firstCells hne).run?_eq_ok (fun q hq => lt_of_mem_live hq)
      hd.deterministic rounds_firstCells
    rw [hrun]
    show some <$> d.quotient? d.cells = _
    rw [hstable.quotient?_eq_ok hd hstart]
    rfl

omit [Std.TransOrd σ] [Std.LawfulEqOrd σ] [Quotable σ] in
/-- There are no more cells than live states. -/
theorem WellFormed.stateCount_minimize_le (hd : d.WellFormed) :
    d.minimize.stateCount ≤ d.stateCount := by
  unfold Dfa.minimize
  cases hempty : (d.live.filter d.isFinal).isEmpty with
  | true => exact Nat.succ_le_of_lt (Nat.zero_lt_of_lt hd.start_lt)
  | false =>
    have hstable := (hd.stable_cells hempty).1
    have hcells := Refinement.length_le_length_flatten hstable.ne_nil
    rw [hstable.perm.length_eq] at hcells
    show (d.quotient d.cells).stateCount ≤ _
    rw [stateCount_quotient]
    exact Nat.le_trans hcells length_live_le

end Quotient

/-! ## Automata that can be built -/

section Built

variable [Ord σ] [DecidableEq σ] [Quotable σ]

/-- The automata that are described, that arise by changes that succeed, or that are made from
others. -/
inductive Built : Dfa σ → Prop
  | single (alphabet : List σ) : Built (single alphabet)
  | ofParts {parts : Parts σ} {d : Dfa σ} : ofParts parts = .ok d → Built d
  | addState {d : Dfa σ} (accepting : Bool) : Built d → Built (d.addState (.ofAccepting accepting))
  | setAccepting? {d d' : Dfa σ} {q : State} {accepting : Bool} :
      Built d → d.setAccepting? q accepting = .ok d' → Built d'
  | addEdge? {d d' : Dfa σ} {e : Edge σ} : Built d → d.addEdge? e = .ok d' → Built d'
  | complete {d : Dfa σ} : Built d → Built d.complete
  | minimize {d : Dfa σ} : Built d → Built d.minimize
  | toDfa {n : Nfa σ} (complete : Bool) : n.WellFormed → Built (n.toDfa complete)

variable [Std.TransOrd σ] [Std.LawfulEqOrd σ]

theorem Built.wellFormed (h : Built d) : d.WellFormed := by
  induction h with
  | single alphabet => exact wellFormed_single alphabet
  | ofParts hparts => exact wellFormed_of_ofParts hparts
  | addState accepting _ ih => exact ih.addState _
  | setAccepting? _ hset ih => exact ih.of_setAccepting? hset
  | addEdge? _ hadd ih => exact ih.of_addEdge? hadd
  | complete _ ih => exact ih.complete
  | minimize _ ih => exact ih.minimize
  | toDfa complete hn => exact hn.toDfa complete

/-- Minimizing an automaton, however it was built, meets no failure and comes to its end, needs
no more states than there were, and changes no verdict. -/
theorem Built.minimize?_spec (h : Built d) :
    d.minimize? = .ok (some d.minimize) ∧ d.minimize.stateCount ≤ d.stateCount ∧
      ∀ w, d.minimize.accepts w = d.accepts w :=
  ⟨h.wellFormed.minimize?_eq_ok, h.wellFormed.stateCount_minimize_le, h.wellFormed.accepts_minimize⟩

/-- A partial automaton with an unreachable state, a dead one and two that accept the same
words. -/
def wasteful : Dfa Char :=
  ⟨[.plain, .plain, .plain, .accepting, .plain, .plain], ['a', 'b'],
    [⟨0, 'a', 1⟩, ⟨0, 'b', 2⟩, ⟨1, 'a', 3⟩, ⟨1, 'b', 4⟩, ⟨2, 'a', 3⟩, ⟨5, 'a', 0⟩], 0⟩

theorem minimize?_spec_wasteful :
    wasteful.minimize? = .ok (some wasteful.minimize) ∧
      wasteful.minimize.stateCount ≤ wasteful.stateCount ∧
      ∀ w, wasteful.minimize.accepts w = wasteful.accepts w :=
  Built.minimize?_spec (.ofParts (show ofParts ⟨[0, 1, 2, 3, 4, 5], ['a', 'b'],
    [⟨0, 'a', 1⟩, ⟨0, 'b', 2⟩, ⟨1, 'a', 3⟩, ⟨1, 'b', 4⟩, ⟨2, 'a', 3⟩, ⟨5, 'a', 0⟩], 0, [3]⟩ =
      .ok wasteful from rfl))

end Built

end Dfa

end Kleene
