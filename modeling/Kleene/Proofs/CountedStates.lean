import Kleene.Proofs.ContainerChanges
import Kleene.Proofs.Simulation

/-!
# Automata with states counted anew

Counting gives the start state the number 0 and the other states the numbers behind it, in their
order, whatever gaps there were between the identifiers.  States keep apart, so that the paths of
the automaton are found again under their numbers and no others come in.  Whose states are counted
already is left as it is.
-/

namespace Kleene.Nfa

variable {σ : Type} {n : Nfa σ} {p q : State} {w : List σ}

/-! ## Numbers of states -/

section Numbers

theorem idxOf_start_countingOrder : n.countingOrder.idxOf n.start = 0 := List.idxOf_cons_self

/-- The start state is counted first. -/
theorem idxOf_countingOrder_of_ne (hq : q ≠ n.start) :
    n.countingOrder.idxOf q = (n.states.filter (· ≠ n.start)).idxOf q + 1 :=
  List.idxOf_cons_ne _ hq.symm

variable [Ord σ]

theorem WellFormed.length_countingOrder (h : n.WellFormed) :
    n.countingOrder.length = n.stateCount := by
  apply List.Perm.length_eq
  rw [List.perm_ext_iff_of_nodup h.nodup_countingOrder h.states_ascending.nodup]
  intro q
  exact h.mem_countingOrder

theorem WellFormed.strictMonoOn_idxOf_countingOrder (h : n.WellFormed) :
    StrictMonoOn (n.countingOrder.idxOf ·) {q | q ∈ n.states ∧ q ≠ n.start} := by
  intro p hp q hq hlt
  have hothers : ∀ r ∈ n.states, r ≠ n.start → r ∈ n.states.filter (· ≠ n.start) :=
    fun r hr hne => List.mem_filter.2 ⟨hr, decide_eq_true hne⟩
  show n.countingOrder.idxOf p < n.countingOrder.idxOf q
  rw [idxOf_countingOrder_of_ne hp.2, idxOf_countingOrder_of_ne hq.2]
  apply Nat.succ_lt_succ
  exact Ascending.idxOf_lt_idxOf (h.states_ascending.filter _) (hothers p hp.1 hp.2)
    (hothers q hq.1 hq.2) hlt

theorem WellFormed.bijOn_idxOf_countingOrder (h : n.WellFormed) :
    Set.BijOn (n.countingOrder.idxOf ·) {q | q ∈ n.states} {k | k < n.stateCount} := by
  rw [← h.length_countingOrder]
  apply Set.BijOn.mk
  · intro q hq
    exact List.idxOf_lt_length_of_mem (h.mem_countingOrder.2 hq)
  · intro p hp q _ heq
    exact (List.idxOf_inj (h.mem_countingOrder.2 hp)).1 heq
  · intro k hk
    refine ⟨n.countingOrder[k], h.mem_countingOrder.1 (List.getElem_mem hk), ?_⟩
    exact h.nodup_countingOrder.idxOf_getElem k hk

end Numbers

/-! ## Paths under numbers -/

section Paths

variable [Ord σ] [Std.LawfulEqOrd σ]

/-- Along every transition the numbers can be followed, and back from the numbers the states. -/
theorem WellFormed.spells_renumber_iff (h : n.WellFormed) (hp : p ∈ n.states)
    (hq : q ∈ n.states) :
    n.renumber.Spells (n.countingOrder.idxOf p) (n.countingOrder.idxOf q) w ↔ n.Spells p q w := by
  apply Iff.intro
  · intro hpath
    have hback : n.Spells (n.countingOrder.getD (n.countingOrder.idxOf p) 0)
        (n.countingOrder.getD (n.countingOrder.idxOf q) 0) w := by
      apply hpath.simulate (n.countingOrder.getD · 0)
      intro i l j he u hu
      rcases mem_edges_renumber.1 he with ⟨s, t, hedge, rfl, rfl⟩
      rcases h.ends_mem_countingOrder hedge with ⟨hs, ht⟩
      rw [getD_idxOf_countingOrder hs, getD_idxOf_countingOrder ht]
      exact .single hedge hu
    rw [getD_idxOf_countingOrder (h.mem_countingOrder.2 hp),
      getD_idxOf_countingOrder (h.mem_countingOrder.2 hq)] at hback
    exact hback
  · intro hpath
    apply hpath.simulate (n.countingOrder.idxOf ·)
    intro s l t hedge u hu
    exact .single (mem_edges_renumber.2 ⟨s, t, hedge, rfl, rfl⟩) hu

theorem WellFormed.language_renumber (h : n.WellFormed) : n.renumber.language = n.language := by
  ext w
  exact h.spells_renumber_iff h.start_mem h.final_mem

end Paths

/-! ## Counting twice -/

section Twice

theorem countingOrder_eq_range {k : Nat} (hstates : n.states = List.range (k + 1))
    (hstart : n.start = 0) : n.countingOrder = List.range (k + 1) := by
  unfold countingOrder
  rw [hstates, hstart, List.range_succ_eq_map]
  refine congrArg (0 :: ·) ?_
  rw [List.filter_cons_of_neg (by simp), List.filter_eq_self]
  intro q hq
  rcases List.mem_map.1 hq with ⟨i, -, rfl⟩
  exact decide_eq_true (Nat.succ_ne_zero i)

theorem idxOf_range {k : Nat} (hq : q ∈ List.range k) : (List.range k).idxOf q = q := by
  have hlt : q < (List.range k).length := by
    rw [List.length_range]
    exact List.mem_range.1 hq
  have hplace := List.nodup_range.idxOf_getElem q hlt
  rw [List.getElem_range] at hplace
  exact hplace

variable [Ord σ]

/-- States that are the first numbers, with 0 as the start state, keep their numbers. -/
theorem WellFormed.idxOf_countingOrder_eq_self (h : n.WellFormed)
    (hstates : n.states = List.range n.stateCount) (hstart : n.start = 0) (hq : q ∈ n.states) :
    n.countingOrder.idxOf q = q := by
  cases hcount : n.stateCount with
  | zero =>
    -- there is a state, the start state
    have hmem := h.start_mem
    rw [hstates, hcount] at hmem
    cases hmem
  | succ k =>
    rw [hcount] at hstates
    rw [countingOrder_eq_range hstates hstart]
    rw [hstates] at hq
    exact idxOf_range hq

variable [Std.TransOrd σ] [Std.LawfulEqOrd σ]

/-- An automaton whose states are the first numbers, with 0 as its start state, is counted
already. -/
theorem WellFormed.renumber_eq_self (h : n.WellFormed) (hstates : n.states = List.range n.stateCount)
    (hstart : n.start = 0) (hfresh : n.fresh = n.stateCount) : n.renumber = n := by
  have hnumber : ∀ q ∈ n.states, n.countingOrder.idxOf q = q :=
    fun q hq => h.idxOf_countingOrder_eq_self hstates hstart hq
  have hedges : n.edges.map (Edge.mapStates (n.countingOrder.idxOf ·)) = n.edges := by
    refine (List.map_congr_left fun e he => ?_).trans (List.map_id _)
    show Edge.mk (n.countingOrder.idxOf e.source) e.label (n.countingOrder.idxOf e.target) = e
    rw [hnumber _ (h.source_mem _ _ _ he), hnumber _ (h.target_mem _ _ _ he)]
  show Nfa.mk (List.range n.countingOrder.length) n.alphabet
    (Ascending.ofList (n.edges.map (Edge.mapStates (n.countingOrder.idxOf ·))))
    (n.countingOrder.idxOf n.start) (n.countingOrder.idxOf n.final) n.countingOrder.length = n
  rw [hedges, Ascending.ofList_eq_self h.edges_ascending, hnumber _ h.start_mem,
    hnumber _ h.final_mem, h.length_countingOrder, ← hstates, ← hfresh]

end Twice

/-! ## What counting keeps -/

/-- The second automaton is the first with numbers for its states: from 0 on without gaps, 0 for the
start state, and greater ones for those that are greater among the others.  Transitions, final state
and letters are the same. -/
structure Recounts (n m : Nfa σ) (number : State → State) : Prop where
  states_eq : m.states = List.range n.stateCount
  bijOn : Set.BijOn number {q | q ∈ n.states} {k | k < n.stateCount}
  start_eq : m.start = 0
  number_start : number n.start = 0
  strictMonoOn : StrictMonoOn number {q | q ∈ n.states ∧ q ≠ n.start}
  final_eq : m.final = number n.final
  alphabet_eq : m.alphabet = n.alphabet
  mem_edges_iff : ∀ p ∈ n.states, ∀ q ∈ n.states, ∀ l,
    ⟨number p, l, number q⟩ ∈ m.edges ↔ ⟨p, l, q⟩ ∈ n.edges

variable [Ord σ] [Std.TransOrd σ] [Std.LawfulEqOrd σ]

omit [Std.TransOrd σ] in
theorem WellFormed.recounts (h : n.WellFormed) :
    Recounts n n.renumber (n.countingOrder.idxOf ·) where
  states_eq := congrArg List.range h.length_countingOrder
  bijOn := h.bijOn_idxOf_countingOrder
  start_eq := idxOf_start_countingOrder
  number_start := idxOf_start_countingOrder
  strictMonoOn := h.strictMonoOn_idxOf_countingOrder
  final_eq := rfl
  alphabet_eq := rfl
  mem_edges_iff _ hp _ hq _ :=
    mem_edges_renumber_idxOf (h.mem_countingOrder.2 hp) (h.mem_countingOrder.2 hq)

omit [Std.TransOrd σ] [Std.LawfulEqOrd σ] in
theorem WellFormed.addState?_renumber (h : n.WellFormed) :
    n.renumber.addState? = if n.stateCount < stateLimit then .ok (n.stateCount, n.renumber.addState)
      else .error .statesExhausted := by
  have hfresh : n.renumber.fresh = n.stateCount := h.length_countingOrder
  unfold addState? fit
  show (if n.renumber.fresh < stateLimit then _ else _) >>= _ = _
  rw [hfresh]
  split
  · rfl
  · rfl

theorem WellFormed.renumber_renumber (h : n.WellFormed) : n.renumber.renumber = n.renumber := by
  have hcount : n.renumber.stateCount = n.stateCount := by
    unfold stateCount
    rw [h.recounts.states_eq, List.length_range]
    rfl
  apply h.renumber.renumber_eq_self
  · rw [hcount]
    exact h.recounts.states_eq
  · exact h.recounts.start_eq
  · rw [hcount]
    exact h.length_countingOrder

/-- Counting the states anew gives them the first numbers, one to one and in order behind the start
state, with all else kept: every word is accepted as before, the next new state is counted on, and
there is nothing left to count.  So it is in a container, in whatever order states and transitions
are listed there. -/
theorem WellFormed.renumber_spec [DecidableEq σ] (h : n.WellFormed) :
    n.renumber.WellFormed ∧ (∃ number, Recounts n n.renumber number) ∧
    (∀ w, n.renumber.simulate w = n.simulate w ∧ n.renumber.accepts w = n.accepts w) ∧
    (n.renumber.addState? = if n.stateCount < stateLimit
      then .ok (n.stateCount, n.renumber.addState) else .error .statesExhausted) ∧
    n.renumber.renumber = n.renumber ∧
    ∀ {C : GraphMap} (g : NfaGraph C σ), g.Holds n → g.renumber.Holds n.renumber := by
  refine ⟨h.renumber, ⟨_, h.recounts⟩, fun w => ?_, h.addState?_renumber, h.renumber_renumber,
    fun g hg => hg.renumber⟩
  have hwords : n.renumber.accepts w = n.accepts w := accepts_eq_of_language_eq h.language_renumber w
  refine ⟨?_, hwords⟩
  rw [h.renumber.simulate_eq_accepts, h.simulate_eq_accepts, hwords]

/-- The start state has smaller and greater states beside it, is final, and has a loop. -/
def midway : Nfa Char :=
  { states := [2, 5, 9], alphabet := ['a', 'b', 'c'], start := 5, final := 5, fresh := 10
    edges := [⟨2, .symbol 'a', 9⟩, ⟨5, .symbol 'a', 2⟩, ⟨5, .symbol 'b', 5⟩, ⟨9, .epsilon, 5⟩] }

theorem wellFormed_midway : midway.WellFormed := wellFormed_of_ofParts
  (show ofParts ⟨[9, 5, 2], ['c'], [⟨5, .symbol 'b', 5⟩, ⟨5, .symbol 'a', 2⟩,
    ⟨2, .symbol 'a', 9⟩, ⟨9, .epsilon, 5⟩], 5, 5⟩ = .ok midway from rfl)

theorem renumber_spec_midway : midway.WellFormed ∧
    midway.renumber.edges = [⟨0, .symbol 'b', 0⟩, ⟨0, .symbol 'a', 1⟩, ⟨1, .symbol 'a', 2⟩,
      ⟨2, .epsilon, 0⟩] ∧
    (∃ number, Recounts midway midway.renumber number) ∧
    midway.renumber.accepts ['b', 'a', 'a', 'b'] = true ∧
    midway.renumber.addState? = .ok (3, midway.renumber.addState) ∧
    midway.renumber.renumber = midway.renumber := by
  rcases wellFormed_midway.renumber_spec with ⟨-, hrecounts, hwords, hadd, hagain, -⟩
  have haccepts : midway.accepts ['b', 'a', 'a', 'b'] = true := by decide +kernel
  exact ⟨wellFormed_midway, by decide, hrecounts, (hwords _).2.trans haccepts, hadd, hagain⟩

end Kleene.Nfa
