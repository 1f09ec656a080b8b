import Kleene.Proofs.Minimization
import Kleene.Proofs.Runs

/-!
# Distinguishing states

Refinement separates two live states only if some word tells them apart: with a state a cell has
all live states that accept the same words, at first because acceptance is the verdict on the
empty word, and after a split because the sources of such a cell are again such a set.  So any two
states of the smallest automaton are told apart by a word.  Each of them is reached by a word,
and the mark of a trap is put on exactly those from which no word is accepted.
-/

namespace Kleene

namespace Dfa

variable {σ : Type} [DecidableEq σ] {d e : Dfa σ} {p q p' q' : State} {a : σ} {w : List σ}

/-- From both states the same words are accepted. -/
def AcceptSame (d : Dfa σ) (p : State) (e : Dfa σ) (q : State) : Prop :=
  ∀ w, d.acceptsFrom p w = e.acceptsFrom q w

theorem AcceptSame.symm (h : AcceptSame d p e q) : AcceptSame e q d p := fun w => (h w).symm

theorem AcceptSame.run (h : AcceptSame d p e q) (hp : d.run p w = some p')
    (hq : e.run q w = some q') : AcceptSame d p' e q' := fun v => by
  rw [← acceptsFrom_append hp, ← acceptsFrom_append hq]
  exact h (w ++ v)

theorem AcceptSame.successor (h : AcceptSame d p e q) (hp : d.successor p a = some p')
    (hq : e.successor q a = some q') : AcceptSame d p' e q' :=
  h.run (run_singleton.trans hp) (run_singleton.trans hq)

/-- With a state the set has all live states that accept the same words. -/
def Whole (d : Dfa σ) (S : List State) : Prop :=
  ∀ p q, p ∈ S → q ∈ d.live → AcceptSame d p d q → q ∈ S

omit [DecidableEq σ] in
theorem lt_of_mem_live (h : q ∈ d.live) : q < d.stateCount :=
  (mem_reachable.1 (mem_live.1 h).1).2

section Live

variable [Ord σ]

/-- Unless the automaton is complete, some word is accepted from a live state. -/
theorem WellFormed.exists_acceptsFrom_of_live (hd : d.WellFormed) (hc : d.isComplete = false)
    (hq : q ∈ d.live) : ∃ w, d.acceptsFrom q w = true := by
  obtain hcomplete | hproductive := (mem_live.1 hq).2
  · rw [hc] at hcomplete
    cases hcomplete
  · exact hd.contains_productive_iff.1 hproductive

/-- A word that leads to a live state leads through live states. -/
theorem WellFormed.live_of_successor (hd : d.WellFormed) (hp : p ∈ d.reachable.toList)
    (hnext : d.successor p a = some q) (hq : q ∈ d.live) : p ∈ d.live := by
  cases hc : d.isComplete with
  | true => exact mem_live.2 ⟨hp, .inl hc⟩
  | false =>
    obtain ⟨w, hw⟩ := hd.exists_acceptsFrom_of_live hc hq
    have hpw : d.acceptsFrom p (a :: w) = true := by rw [acceptsFrom_cons_of_some hnext, hw]
    exact hd.mem_live_of_acceptsFrom hp hpw

variable [Std.TransOrd σ] [Std.LawfulEqOrd σ]

/-- If a letter leads from a state to a live one, it does so from all live states that accept the
same words. -/
theorem WellFormed.exists_live_successor (hd : d.WellFormed) (hq : q ∈ d.live)
    (hsame : AcceptSame d p d q) (hnext : d.successor p a = some p') (hlive : p' ∈ d.live) :
    ∃ q' ∈ d.live, d.successor q a = some q' := by
  have hreach := (mem_live.1 hq).1
  cases hc : d.isComplete with
  | true =>
    obtain ⟨q', hq'⟩ := hd.exists_successor_of_isComplete hc (lt_of_mem_live hq)
      (hd.letter_mem_of_successor hnext)
    exact ⟨q', mem_live.2 ⟨hd.successor_mem_reachable hreach hq', .inl hc⟩, hq'⟩
  | false =>
    -- a word that is accepted after the letter requires the letter from both states
    obtain ⟨w, hw⟩ := hd.exists_acceptsFrom_of_live hc hlive
    have hqw : d.acceptsFrom q (a :: w) = true := by
      rw [← hsame, acceptsFrom_cons_of_some hnext, hw]
    obtain ⟨q', hq'⟩ := exists_successor_of_acceptsFrom hqw
    rw [acceptsFrom_cons_of_some hq'] at hqw
    exact ⟨q', hd.mem_live_of_acceptsFrom (hd.successor_mem_reachable hreach hq') hqw, hq'⟩

theorem WellFormed.whole_sources (hd : d.WellFormed) {S : List State} (hS : d.Whole S)
    (hlive : ∀ q ∈ S, q ∈ d.live) (a : σ) : d.Whole (Refinement.sources d S a) := by
  intro p q hp hq hsame
  obtain ⟨p', hp', he⟩ := Refinement.mem_sources.1 hp
  have hnext := (successor_eq_some_iff hd.deterministic).2 he
  obtain ⟨q', hq', hnext'⟩ := hd.exists_live_successor hq hsame hnext (hlive p' hp')
  exact Refinement.mem_sources.2
    ⟨q', hS p' q' hp' hq' (hsame.successor hnext hnext'), mem_edges_of_successor hnext'⟩

end Live

end Dfa

/-! ## Refinement never goes too far -/

namespace Refinement

variable {σ : Type} [DecidableEq σ] {d : Dfa σ} {r : Refinement} {i : Nat} {q : State}
variable {S sources live : List State}

/-- All cells are whole. -/
def WholeCells (d : Dfa σ) (r : Refinement) : Prop := ∀ i, d.Whole (r.cell i)

theorem Invariant.mem_live (h : Invariant d live S r) (hq : q ∈ r.cell i) : q ∈ live := by
  have hcell := (cell_of_mem hq).2
  rw [← Array.getElem?_toList] at hcell
  exact h.perm.mem_iff.1 (List.mem_flatten.2 ⟨_, List.mem_of_getElem? hcell, hq⟩)

/-- Splitting by a whole set leaves the cells whole. -/
theorem Invariant.whole_split (h : Invariant d d.live S r) (hcells : WholeCells d r)
    (hsources : d.Whole sources) (i : Nat) : WholeCells d (Refinement.split sources r i) := by
  obtain ⟨heq, -⟩ | hs := split_cases sources i h.waits
  · rwa [heq]
  · intro j p q hp hq hsame
    by_cases hj : j = i
    · rw [hj, hs.mem_inside] at hp ⊢
      exact ⟨hcells i p q hp.1 hq hsame, hsources p q hp.2 hq hsame⟩
    · by_cases hlast : j = r.cells.size
      · rw [hlast, hs.mem_outside] at hp ⊢
        refine ⟨hcells i p q hp.1 hq hsame, fun hqs => hp.2 ?_⟩
        exact hsources q p hqs (h.mem_live hp.1) hsame.symm
      · rw [hs.others j hj hlast] at hp ⊢
        exact hcells j p q hp hq hsame

theorem Invariant.whole_splitAll (hd : d.Deterministic) (h : Invariant d d.live S r)
    (hcells : WholeCells d r) {splitter : List State} {a : σ}
    (hsources : d.Whole (Refinement.sources d splitter a)) :
    WholeCells d (Refinement.splitAll d splitter r a) := by
  have hkeeps : Invariant d d.live S (Refinement.splitAll d splitter r a) ∧
      WholeCells d (Refinement.splitAll d splitter r a) :=
    List.foldlRecOn (motive := fun r => Invariant d d.live S r ∧ WholeCells d r)
      (List.range r.cells.size) _ ⟨h, hcells⟩ fun r hr i _ =>
        ⟨(hr.1.split hd _ i).1, hr.1.whole_split hr.2 hsources i⟩
  exact hkeeps.2

variable [Ord σ] [Std.TransOrd σ] [Std.LawfulEqOrd σ]

theorem Invariant.whole_splitBy (hd : d.WellFormed) {splitter : List State}
    (hsplitter : d.Whole splitter) (hlive : ∀ q ∈ splitter, q ∈ d.live)
    (h : Invariant d d.live S r) (hcells : WholeCells d r) :
    WholeCells d (Refinement.splitBy d splitter r) := by
  have hkeeps : Invariant d d.live S (Refinement.splitBy d splitter r) ∧
      WholeCells d (Refinement.splitBy d splitter r) :=
    List.foldlRecOn (motive := fun r => Invariant d d.live S r ∧ WholeCells d r)
      d.alphabet _ ⟨h, hcells⟩ fun r hr a _ =>
        ⟨(hr.1.splitAll hd.deterministic splitter a).1,
          hr.1.whole_splitAll hd.deterministic hr.2 (hd.whole_sources hsplitter hlive a)⟩
  exact hkeeps.2

/-- However many rounds are made, states that accept the same words stay in one cell. -/
theorem Invariant.whole_run (hd : d.WellFormed) (h : Invariant d d.live [] r)
    (hcells : WholeCells d r) (rounds : Nat) : WholeCells d (Refinement.run d rounds r) := by
  induction rounds generalizing r with
  | zero => exact hcells
  | succ rounds ih =>
    unfold Refinement.run
    split
    · exact hcells
    · rename_i i rest hpending
      have htake := h.take hpending
      have hround := htake.whole_splitBy hd (hcells i) (fun q hq => h.mem_live hq) hcells
      exact ih (htake.splitBy hd.deterministic).1 hround

omit [Ord σ] [Std.TransOrd σ] [Std.LawfulEqOrd σ] in
-- States that accept the same words agree on the empty word.
theorem whole_firstCells : WholeCells d d.firstCells := by
  intro i p q hp hq hsame
  have hfinal : d.isFinal p = d.isFinal q := hsame []
  unfold Dfa.firstCells at hp ⊢
  rw [mem_cell_start] at hp ⊢
  simp only [List.mem_filter, hq, true_and, ← hfinal] at hp ⊢
  exact hp.imp (And.imp_right And.right) (And.imp_right And.right)

end Refinement

/-! ## The states of the smallest automaton -/

namespace Dfa

variable {σ : Type} [Ord σ] [DecidableEq σ] [Std.TransOrd σ] [Std.LawfulEqOrd σ]
variable {d : Dfa σ} {cells : List (List State)} {c c' : List State} {i j : Nat}
variable {p q : State} {a : σ} {w : List σ}

/-- Every state is reached by a word, and different states accept different words. -/
structure Reduced (d : Dfa σ) : Prop where
  reached : ∀ q < d.stateCount, ∃ w, d.run d.start w = some q
  separated : ∀ p < d.stateCount, ∀ q < d.stateCount, AcceptSame d p d q → p = q

section Quotient

variable (h : d.Stable cells) (hd : d.WellFormed) (hstart : d.start ∈ d.live)
include h hd

omit [Ord σ] hd [Std.TransOrd σ] [Std.LawfulEqOrd σ] in
theorem Stable.cell_unique (hc : cells[i]? = some c) (hq : q ∈ c) (hc' : cells[j]? = some c')
    (hq' : q ∈ c') : i = j := by
  have hlt := lt_of_mem_live (h.mem_live hc hq)
  have hi := get_cellTable h.nodup hc hq hlt
  rw [get_cellTable h.nodup hc' hq' hlt] at hi
  exact (Option.some.inj hi).symm

omit [Ord σ] hd [Std.TransOrd σ] [Std.LawfulEqOrd σ] in
theorem Stable.exists_member (hi : i < cells.length) :
    ∃ c q, cells[i]? = some c ∧ q ∈ c ∧ q ∈ d.live := by
  have hc := List.getElem?_eq_getElem hi
  obtain ⟨q, hq⟩ := List.exists_mem_of_ne_nil _ (h.ne_nil _ (List.getElem_mem hi))
  exact ⟨_, q, hc, hq, h.mem_live hc hq⟩

omit [Std.TransOrd σ] in
theorem Stable.successor_quotient (hc : cells[i]? = some c) (hq : q ∈ c)
    (hnext : d.successor q a = some p) (hc' : cells[j]? = some c') (hp : p ∈ c') :
    (d.quotient cells).successor i a = some j := by
  have ha := hd.letter_mem_of_successor hnext
  have hnextCell := (h.nextCell_eq_some_iff hd hc hq ha).2 ⟨p, c', hnext, hc', hp⟩
  exact (successor_eq_some_iff deterministic_quotient).2
    (mem_edges_quotient.2 ⟨ha, c, hc, hnextCell⟩)

omit [Std.TransOrd σ] in
/-- A word that leads to a live state leads to the cell of that state. -/
theorem Stable.run_quotient (hrun : d.run d.start w = some q) (hq : q ∈ d.live) :
    ∃ i c, cells[i]? = some c ∧ q ∈ c ∧
      (d.quotient cells).run (d.quotient cells).start w = some i := by
  induction w using List.reverseRecOn generalizing q with
  | nil =>
    obtain ⟨i, c, hc, hqc⟩ := h.exists_cell hq
    rw [← Option.some.inj (run_nil.symm.trans hrun)] at hqc
    refine ⟨i, c, hc, Option.some.inj hrun ▸ hqc, ?_⟩
    rw [h.start_quotient hd.start_lt hc hqc, run_nil]
  | append_singleton w a ih =>
    obtain ⟨p, hp, hnext⟩ := run_concat_eq_some_iff.1 hrun
    have hreach := hd.mem_reachable_iff.2 ⟨w, hp⟩
    obtain ⟨i, c, hc, hpc, hi⟩ := ih hp (hd.live_of_successor hreach hnext hq)
    obtain ⟨j, c', hc', hqc⟩ := h.exists_cell hq
    have hsuccessor := h.successor_quotient hd hc hpc hnext hc' hqc
    exact ⟨j, c', hc', hqc, run_concat_eq_some_iff.2 ⟨i, hi, hsuccessor⟩⟩

include hstart

theorem Stable.acceptSame_quotient (hc : cells[i]? = some c) (hq : q ∈ c) :
    AcceptSame (d.quotient cells) i d q := h.acceptsFrom_quotient hd hstart hc hq

/-- If the cells are whole, the automaton on the cells is reduced. -/
theorem Stable.reduced_quotient (hwhole : ∀ c ∈ cells, d.Whole c) :
    (d.quotient cells).Reduced where
  reached i hi := by
    rw [stateCount_quotient] at hi
    obtain ⟨c, q, hc, hq, hlive⟩ := h.exists_member hi
    obtain ⟨w, hw⟩ := hd.mem_reachable_iff.1 (Dfa.mem_live.1 hlive).1
    obtain ⟨j, c', hc', hq', hj⟩ := h.run_quotient hd hw hlive
    rw [h.cell_unique hc hq hc' hq']
    exact ⟨w, hj⟩
  separated i hi j hj hsame := by
    rw [stateCount_quotient] at hi hj
    obtain ⟨c, p, hc, hp, -⟩ := h.exists_member hi
    obtain ⟨c', q, hc', hq, hlive⟩ := h.exists_member hj
    have hpq : AcceptSame d p d q := fun w => by
      rw [← h.acceptSame_quotient hd hstart hc hp, ← h.acceptSame_quotient hd hstart hc' hq]
      exact hsame w
    exact h.cell_unique hc (hwhole c (List.mem_of_getElem? hc) p q hp hlive hpq) hc' hq

/-- The automaton on the cells of a complete one is complete. -/
theorem Stable.isComplete_quotient (hc : d.isComplete = true) :
    (d.quotient cells).isComplete = true := by
  refine (h.wellFormed_quotient hd hstart).isComplete_iff.2 fun i hi a ha => ?_
  rw [stateCount_quotient] at hi
  obtain ⟨c, q, hcell, hq, hlive⟩ := h.exists_member hi
  have hreach := (Dfa.mem_live.1 hlive).1
  obtain ⟨r, hr⟩ := hd.exists_successor_of_isComplete hc (lt_of_mem_live hlive) ha
  have hrlive := Dfa.mem_live.2 ⟨hd.successor_mem_reachable hreach hr, .inl hc⟩
  obtain ⟨j, c', hcell', hrc⟩ := h.exists_cell hrlive
  exact ⟨j, h.successor_quotient hd hcell hq hr hcell' hrc⟩

/-- From every state of the automaton on the cells of one that is not complete some word is
accepted. -/
theorem Stable.exists_acceptsFrom_quotient (hc : d.isComplete = false) (hi : i < cells.length) :
    ∃ w, (d.quotient cells).acceptsFrom i w = true := by
  obtain ⟨c, q, hcell, hq, hlive⟩ := h.exists_member hi
  obtain ⟨w, hw⟩ := hd.exists_acceptsFrom_of_live hc hlive
  exact ⟨w, (h.acceptSame_quotient hd hstart hcell hq w).trans hw⟩

-- A trap rejects, and all letters lead back to it.
omit [Std.TransOrd σ] [Std.LawfulEqOrd σ] h hd hstart in
theorem isTrap_quotient (hc : cells[i]? = some c) : (d.quotient cells).isTrap i = true ↔
    d.isFinal (c.headD 0) = false ∧ ∀ a ∈ d.alphabet, d.nextCell cells c a = some i := by
  unfold isTrap
  rw [marks_quotient hc]
  cases hfinal : d.isFinal (c.headD 0) with
  | true => simp
  | false => split <;> simp_all

/-- The mark of a trap is put on exactly the cells from which no word is accepted. -/
theorem Stable.isTrap_quotient_iff (hwhole : ∀ c ∈ cells, d.Whole c) (hi : i < cells.length) :
    (d.quotient cells).isTrap i = true ↔ ∀ w, (d.quotient cells).acceptsFrom i w = false := by
  have hm := h.wellFormed_quotient hd hstart
  obtain ⟨c, q, hc, hq, hlive⟩ := h.exists_member hi
  have hhead := headD_mem (h.ne_nil c (List.mem_of_getElem? hc))
  rw [isTrap_quotient hc]
  constructor
  · rintro ⟨hfinal, hloop⟩ w
    induction w with
    | nil => rw [acceptsFrom_nil, h.isFinal_quotient hc hhead, hfinal]
    | cons a w ih =>
      cases hnext : (d.quotient cells).successor i a with
      | none => exact acceptsFrom_cons_of_none hnext
      | some j =>
        -- the letter leads back
        obtain ⟨ha, c', hc', hj⟩ := mem_edges_quotient.1 (mem_edges_of_successor hnext)
        rw [hc] at hc'
        rw [← Option.some.inj hc', hloop a ha] at hj
        rw [acceptsFrom_cons_of_some hnext, ← Option.some.inj hj, ih]
  · intro hdead
    refine ⟨?_, fun a ha => ?_⟩
    · rw [← h.isFinal_quotient hc hhead]
      exact hdead []
    · cases hcomplete : d.isComplete with
      | false =>
        obtain ⟨w, hw⟩ := h.exists_acceptsFrom_quotient hd hstart hcomplete hi
        rw [hdead] at hw
        cases hw
      | true =>
        -- no word is accepted from the successor either, so it is the same state
        have hm' := h.isComplete_quotient hd hstart hcomplete
        have hlt : i < (d.quotient cells).stateCount := by rwa [stateCount_quotient]
        obtain ⟨j, hj⟩ := hm.exists_successor_of_isComplete hm' hlt ha
        have hsame : AcceptSame (d.quotient cells) j (d.quotient cells) i := fun w => by
          rw [hdead, ← hdead (a :: w), acceptsFrom_cons_of_some hj]
        have hji := (h.reduced_quotient hd hstart hwhole).separated j (hm.successor_lt hj) i hlt
          hsame
        obtain ⟨-, c', hc', hnext⟩ := mem_edges_quotient.1 (mem_edges_of_successor hj)
        rw [hc] at hc'
        rw [Option.some.inj hc', hnext, hji]

end Quotient

/-! ## Minimization as a whole -/

theorem WellFormed.whole_cells (hd : d.WellFormed) (hfinals : d.live.filter d.isFinal ≠ []) :
    ∀ c ∈ d.cells, d.Whole c := by
  intro c hc
  obtain ⟨i, rfl⟩ := Refinement.exists_cell_of_mem hc
  exact (invariant_firstCells hfinals).whole_run hd Refinement.whole_firstCells d.live.length i

omit [Std.TransOrd σ] [Std.LawfulEqOrd σ] in
/-- A live state accepts exactly if some word is accepted. -/
theorem WellFormed.live_finals_ne_nil_iff (hd : d.WellFormed) :
    d.live.filter d.isFinal ≠ [] ↔ ∃ w, d.accepts w = true := by
  constructor
  · intro hne
    obtain ⟨f, hf⟩ := List.exists_mem_of_ne_nil _ hne
    obtain ⟨hlive, hfinal⟩ := List.mem_filter.1 hf
    obtain ⟨w, hw⟩ := hd.mem_reachable_iff.1 (mem_live.1 hlive).1
    refine ⟨w, ?_⟩
    have haccepts : d.acceptsFrom d.start (w ++ []) = d.acceptsFrom f [] := acceptsFrom_append hw
    rw [List.append_nil, acceptsFrom_nil, hfinal] at haccepts
    exact haccepts
  · rintro ⟨w, hw⟩
    obtain ⟨f, hf, hfinal⟩ := hd.exists_live_final hd.start_mem_reachable hw
    exact List.ne_nil_of_mem (List.mem_filter.2 ⟨hf, hfinal⟩)

omit [Std.TransOrd σ] [Std.LawfulEqOrd σ] in
/-- If no word is accepted, a single state remains. -/
theorem WellFormed.minimize_eq_single (hd : d.WellFormed) (hnone : ¬∃ w, d.accepts w = true) :
    d.minimize = single d.alphabet := by
  have hempty := mt hd.live_finals_ne_nil_iff.1 hnone
  rw [ne_eq, Classical.not_not] at hempty
  unfold Dfa.minimize
  rw [hempty]
  rfl

omit [Std.TransOrd σ] [Std.LawfulEqOrd σ] in
/-- If some word is accepted, the states are the cells. -/
theorem WellFormed.minimize_eq_quotient (hd : d.WellFormed) (hword : ∃ w, d.accepts w = true) :
    d.minimize = d.quotient d.cells ∧ d.Stable d.cells ∧ d.start ∈ d.live := by
  have hne := hd.live_finals_ne_nil_iff.2 hword
  have hempty : (d.live.filter d.isFinal).isEmpty = false := by simpa using hne
  refine ⟨?_, hd.stable_cells hempty⟩
  unfold Dfa.minimize
  rw [if_neg (by simp [hempty])]

theorem WellFormed.reduced_minimize (hd : d.WellFormed) : d.minimize.Reduced := by
  by_cases hword : ∃ w, d.accepts w = true
  · obtain ⟨heq, hstable, hstart⟩ := hd.minimize_eq_quotient hword
    rw [heq]
    exact hstable.reduced_quotient hd hstart
      (hd.whole_cells (hd.live_finals_ne_nil_iff.2 hword))
  · -- the start state is the only one
    have hzero : ∀ q < (single d.alphabet).stateCount, q = (single d.alphabet).start := fun q hq =>
      Nat.lt_one_iff.1 hq
    rw [hd.minimize_eq_single hword]
    exact ⟨fun q hq => ⟨[], congrArg some (hzero q hq).symm⟩,
      fun p hp q hq _ => (hzero p hp).trans (hzero q hq).symm⟩

/-- From every state some word is accepted. -/
def Trim (d : Dfa σ) : Prop := ∀ q < d.stateCount, ∃ w, d.acceptsFrom q w = true

section NonEmpty

variable (hd : d.WellFormed) (hword : ∃ w, d.accepts w = true)
include hd hword

theorem WellFormed.isComplete_minimize (hc : d.isComplete = true) :
    d.minimize.isComplete = true := by
  obtain ⟨heq, hstable, hstart⟩ := hd.minimize_eq_quotient hword
  rw [heq]
  exact hstable.isComplete_quotient hd hstart hc

theorem WellFormed.trim_minimize (hc : d.isComplete = false) : d.minimize.Trim := by
  obtain ⟨heq, hstable, hstart⟩ := hd.minimize_eq_quotient hword
  intro q hq
  rw [heq, stateCount_quotient] at hq
  rw [heq]
  exact hstable.exists_acceptsFrom_quotient hd hstart hc hq

/-- The marked traps are the states from which no word is accepted. -/
theorem WellFormed.isTrap_minimize_iff (hq : q < d.minimize.stateCount) :
    d.minimize.isTrap q = true ↔ ∀ w, d.minimize.acceptsFrom q w = false := by
  obtain ⟨heq, hstable, hstart⟩ := hd.minimize_eq_quotient hword
  rw [heq, stateCount_quotient] at hq
  rw [heq]
  exact hstable.isTrap_quotient_iff hd hstart
    (hd.whole_cells (hd.live_finals_ne_nil_iff.2 hword)) hq

end NonEmpty

end Dfa

end Kleene
