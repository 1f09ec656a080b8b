import Mathlib.Algebra.GroupWithZero.Nat
import Kleene.Proofs.Alignment

/-!
# Cheapest chains

An alignment is a chain of states: it comes from the start state to its entry, and each of its
steps reads a letter of the word and starts where the step before it ends.  A chain costs the
letters on the way to the entry and what the costs of paths ask for its steps.  Going back from the
final state finds a chain that no other one undercuts, and of all states from which a cheapest
chain can come to a state it goes to the first one.
-/

namespace Kleene

variable {σ : Type} {n : Nfa σ} {p q r : State} {w : List σ} {a : σ} {i j c d e : Nat}
variable {s : AlignmentStep σ} {steps : List (AlignmentStep σ)} {al : Alignment σ}

/-! ## Chains -/

namespace AlignmentStep

/-- Steps from one state to another: each one starts where the one before it ends. -/
def Connect : State → List (AlignmentStep σ) → State → Prop
  | p, [], q => p = q
  | p, s :: steps, q => s.source = p ∧ Connect s.target steps q

theorem connect_concat_iff :
    Connect p (steps ++ [s]) q ↔ Connect p steps s.source ∧ s.target = q := by
  induction steps generalizing p with
  | nil => exact and_congr_left' eq_comm
  | cons t steps ih =>
    show t.source = p ∧ Connect t.target (steps ++ [s]) q ↔ _
    rw [ih, ← and_assoc]
    rfl

end AlignmentStep

open AlignmentStep (Connect connect_concat_iff)

namespace Nfa

variable [DecidableEq σ]

/-- A chain that reads a word on the way from the start state to a state: its entry costs the least
number of letters on a path, and each of its steps costs what the table of path costs asks for it. -/
structure ChainTo (n : Nfa σ) (w : List σ) (q : State) (al : Alignment σ) : Prop where
  symbols : al.steps.map AlignmentStep.symbol = w
  connect : Connect al.entry al.steps q
  entryCost : n.Cheapest n.start al.entry al.entryCost
  stepCosts : ∀ s ∈ al.steps,
    (PathCosts.ofNfa n).stepCost s.source s.target s.symbol = some s.cost
  distance : al.distance = al.entryCost + (al.steps.map AlignmentStep.cost).sum

/-- A chain that no other chain for the same word to the same state undercuts. -/
def CheapestChain (n : Nfa σ) (w : List σ) (q : State) (al : Alignment σ) : Prop :=
  n.ChainTo w q al ∧ ∀ al', n.ChainTo w q al' → al.distance ≤ al'.distance

/-- The states in which the last step of a cheapest chain can start. -/
def lastSources (n : Nfa σ) (w : List σ) (q : State) : Set State :=
  {p | ∃ al steps s, n.CheapestChain w q al ∧ al.steps = steps ++ [s] ∧ s.source = p}

theorem chainTo_nil_iff : n.ChainTo w q ⟨d, p, e, []⟩ ↔
    w = [] ∧ p = q ∧ n.Cheapest n.start p e ∧ d = e :=
  ⟨fun h => ⟨h.symbols.symm, h.connect, h.entryCost, h.distance⟩,
    fun ⟨hw, hpq, he, hd⟩ => ⟨hw.symm, hpq, he, fun _ hs => (by cases hs), hd⟩⟩

/-- The last step of a chain leads on from a shorter chain. -/
theorem chainTo_concat_iff : n.ChainTo w q ⟨d, p, e, steps ++ [s]⟩ ↔
    ∃ d', n.ChainTo (steps.map AlignmentStep.symbol) s.source ⟨d', p, e, steps⟩ ∧
      (PathCosts.ofNfa n).stepCost s.source s.target s.symbol = some s.cost ∧ s.target = q ∧
      w = steps.map AlignmentStep.symbol ++ [s.symbol] ∧ d = d' + s.cost := by
  have hsum : ((steps ++ [s]).map AlignmentStep.cost).sum =
      (steps.map AlignmentStep.cost).sum + s.cost := by
    rw [List.map_append, List.sum_append, List.map_singleton, List.sum_singleton]
  have hsymbols : (steps ++ [s]).map AlignmentStep.symbol =
      steps.map AlignmentStep.symbol ++ [s.symbol] := List.map_append
  constructor
  · intro h
    obtain ⟨hconnect, hs⟩ := connect_concat_iff.1 h.connect
    obtain ⟨hcosts, hlast⟩ := List.forall_mem_append.1 h.stepCosts
    have hd : d = e + ((steps ++ [s]).map AlignmentStep.cost).sum := h.distance
    exact ⟨_, ⟨rfl, hconnect, h.entryCost, hcosts, rfl⟩, hlast s List.mem_cons_self, hs,
      h.symbols.symm.trans hsymbols, by rw [hd, hsum, Nat.add_assoc]⟩
  · rintro ⟨d', h, hlast, hs, hw, hd⟩
    have hd' : d' = e + (steps.map AlignmentStep.cost).sum := h.distance
    exact ⟨hsymbols.trans hw.symm, connect_concat_iff.2 ⟨h.connect, hs⟩, h.entryCost,
      List.forall_mem_append.2 ⟨h.stepCosts, List.forall_mem_singleton.2 hlast⟩,
      by rw [hsum, hd, hd', Nat.add_assoc]⟩

/-- So many edits as a chain costs turn its word into what some path spells. -/
theorem ChainTo.aligns (hn : n.Wired) (h : n.ChainTo w q al) :
    n.Aligns n.start q w al.distance := by
  obtain ⟨d, p, e, steps⟩ := al
  -- the last step leads on from a shorter chain
  induction steps using List.reverseRecOn generalizing w q d with
  | nil =>
    obtain ⟨rfl, rfl, he, rfl⟩ := chainTo_nil_iff.1 h
    exact aligns_nil_iff.2 he.exists_spells
  | append_singleton steps s ih =>
    obtain ⟨d', hchain, hcost, rfl, rfl, rfl⟩ := chainTo_concat_iff.1 h
    obtain ⟨hsource, htarget⟩ := PathCosts.mem_of_stepCost hcost
    exact (ih d' hchain).append
      ((PathCosts.minimum_stepCost hn hsource htarget s.symbol).achieved _ hcost)

end Nfa

/-! ## Going back -/

namespace AlignmentCell

variable {ways : Nat → Option Nat} {is : List Nat}

/-- Another way changes nothing, or it is the cheapest one so far. -/
theorem consider_cases (best : AlignmentCell) (i : Nat) (way : Option Nat) :
    best.consider (i, way) = best ∨ ∃ d, way = some d ∧
      best.consider (i, way) = ⟨some d, some i⟩ ∧ ∀ c, best.cost = some c → d < c := by
  unfold consider
  cases way with
  | none => exact .inl rfl
  | some d =>
    cases hcost : best.cost with
    | none => exact .inr ⟨d, rfl, rfl, fun c hc => by cases hc⟩
    | some least =>
      show (if d < least then _ else best) = best ∨ _
      by_cases hlt : d < least
      · refine .inr ⟨d, rfl, if_pos hlt, fun c hc => ?_⟩
        rwa [← Option.some.inj hc]
      · exact .inl (if_neg hlt)

/-- Of all ways of least cost a cell remembers the first one. -/
theorem previous_foldl_le (his : is.Pairwise (· < ·))
    (hc : (is.foldl (fun best i => best.consider (i, ways i)) unreachable).cost = some c)
    (hprevious : (is.foldl (fun best i => best.consider (i, ways i)) unreachable).previous = some i)
    (hj : j ∈ is) (hway : ways j = some c) : i ≤ j := by
  induction is using List.reverseRecOn with
  | nil => cases hj
  | append_singleton is k ih =>
    rw [List.foldl_append, List.foldl_cons, List.foldl_nil] at hc hprevious
    obtain ⟨his, -, hk⟩ := List.pairwise_append.1 his
    have hbest := best_foldl ways is
    rcases consider_cases (is.foldl (fun best i => best.consider (i, ways i)) unreachable) k (ways k)
      with hkept | ⟨d, -, htaken, hlt⟩
    · rw [hkept] at hc hprevious
      rcases List.mem_append.1 hj with hj | hj
      · exact ih his hc hprevious hj
      · -- the way that is remembered comes before this one
        obtain ⟨i', hi', hchosen, -⟩ := hbest.chosen c hc
        rw [Option.some.inj (hprevious.symm.trans hchosen)]
        exact Nat.le_of_lt (hk i' hi' j hj)
    · rw [htaken] at hc hprevious
      obtain rfl := Option.some.inj hc
      rcases List.mem_append.1 hj with hj | hj
      · -- no way before this one is as cheap
        obtain ⟨c', hc', hle⟩ := hbest.least j hj _ hway
        exact absurd (hlt c' hc') (Nat.not_lt.2 hle)
      · rw [List.mem_singleton.1 hj]
        exact Nat.le_of_eq (Option.some.inj hprevious).symm

end AlignmentCell

namespace AlignmentTable

variable [DecidableEq σ] {t : PathCosts σ} {column : Array AlignmentCell} {entry : Nat}

def columnAfter (n : Nfa σ) (w : List σ) : Array AlignmentCell :=
  w.foldl (nextColumn (PathCosts.ofNfa n))
    (firstColumn (PathCosts.ofNfa n) (n.states.idxOf n.start))

/-- What is known of a place after a word. -/
def cellAt (n : Nfa σ) (w : List σ) (j : Nat) : AlignmentCell :=
  (columnAfter n w)[j]?.getD .unreachable

/-- The columns after the letters of a word, the last one first. -/
def columnsBack (n : Nfa σ) (w : List σ) : List (σ × Array AlignmentCell) :=
  (columnsFrom (PathCosts.ofNfa n)
    (firstColumn (PathCosts.ofNfa n) (n.states.idxOf n.start)) w).reverse

theorem columnAfter_concat (n : Nfa σ) (w : List σ) (a : σ) :
    columnAfter n (w ++ [a]) = nextColumn (PathCosts.ofNfa n) (columnAfter n w) a := by
  unfold columnAfter
  rw [List.foldl_append, List.foldl_cons, List.foldl_nil]

theorem cellAt_concat (n : Nfa σ) (w : List σ) (a : σ) (hj : j < n.states.length) :
    cellAt n (w ++ [a]) j = (List.range n.states.length).foldl (fun best i =>
      best.consider (i, way (PathCosts.ofNfa n) (columnAfter n w) a j i)) .unreachable := by
  unfold cellAt
  rw [columnAfter_concat]
  exact cell_nextColumn (PathCosts.ofNfa n) (columnAfter n w) a (lt_size_iff.2 hj)

theorem columnsBack_concat (n : Nfa σ) (w : List σ) (a : σ) :
    columnsBack n (w ++ [a]) = (a, columnAfter n (w ++ [a])) :: columnsBack n w := by
  unfold columnsBack
  rw [columnsFrom_concat, List.reverse_append, List.reverse_singleton, List.singleton_append,
    columnAfter_concat]
  rfl

/-- The cost of a place is the least number of edits that turn the word into what some path to its
state spells. -/
theorem minimum_cellAt (hn : n.Wired) (w : List σ) (hq : n.states[j]? = some q) :
    Minimum {k | n.Aligns n.start q w k} (cellAt n w j).cost := measures_foldl hn w j q hq

theorem best_cellAt (w : List σ) (a : σ) (hj : j < n.states.length) :
    AlignmentCell.Best (way (PathCosts.ofNfa n) (columnAfter n w) a j)
      (List.range n.states.length) (cellAt n (w ++ [a]) j) := by
  rw [cellAt_concat n w a hj]
  exact AlignmentCell.best_foldl _ _

theorem backtrack_cons_eq_some {earlier : List (σ × Array AlignmentCell)}
    (h : backtrack t ((a, column) :: earlier) j = some (entry, steps)) :
    ∃ i cost steps', (column[j]?.getD .unreachable).previous = some i ∧
      t.stepCostAt (t.stepsOn a) i j = some cost ∧
      backtrack t earlier i = some (entry, steps') ∧
      steps = steps' ++ [⟨t.stateAt i, t.stateAt j, a, cost⟩] := by
  rcases Option.bind_eq_some_iff.1 h with ⟨i, hprevious, h⟩
  rcases Option.bind_eq_some_iff.1 h with ⟨cost, hcost, h⟩
  rcases Option.bind_eq_some_iff.1 h with ⟨⟨entry', steps'⟩, hrest, h⟩
  cases h
  exact ⟨i, cost, steps', hprevious, hcost, hrest, rfl⟩

omit [DecidableEq σ] in
theorem stateAt_ofNfa (hp : n.states[i]? = some p) : (PathCosts.ofNfa n).stateAt i = p := by
  show (n.states.toArray[i]?).getD 0 = p
  rw [List.getElem?_toArray, hp]
  rfl

/-- The last step on the way back to a place comes from the place that its cell remembers, with
which the cost of the cell was found. -/
theorem backtrack_concat_eq_some (hq : n.states[j]? = some q)
    (hc : (cellAt n (w ++ [a]) j).cost = some c)
    (h : backtrack (PathCosts.ofNfa n) (columnsBack n (w ++ [a])) j = some (entry, steps)) :
    ∃ i p b k steps', n.states[i]? = some p ∧ (cellAt n (w ++ [a]) j).previous = some i ∧
      (cellAt n w i).cost = some b ∧
      (PathCosts.ofNfa n).stepCostAt ((PathCosts.ofNfa n).stepsOn a) i j = some k ∧ c = b + k ∧
      backtrack (PathCosts.ofNfa n) (columnsBack n w) i = some (entry, steps') ∧
      steps = steps' ++ [⟨p, q, a, k⟩] := by
  rw [columnsBack_concat] at h
  obtain ⟨i, k, steps', hprevious, hk, hrest, rfl⟩ := backtrack_cons_eq_some h
  have hprevious : (cellAt n (w ++ [a]) j).previous = some i := hprevious
  obtain ⟨i', hi, hchosen, hway⟩ :=
    (best_cellAt w a (List.getElem?_eq_some_iff.1 hq).1).chosen c hc
  obtain rfl := Option.some.inj (hprevious.symm.trans hchosen)
  obtain ⟨b, hb, hway⟩ := Option.bind_eq_some_iff.1 hway
  obtain ⟨k', hk', hsum⟩ := Option.bind_eq_some_iff.1 hway
  obtain rfl := Option.some.inj (hk.symm.trans hk')
  have hi := List.mem_range.1 hi
  have hp : n.states[i]? = some n.states[i] := List.getElem?_eq_getElem hi
  refine ⟨i, _, b, k, steps', hp, hprevious, hb, hk, (Option.some.inj hsum).symm, hrest, ?_⟩
  rw [stateAt_ofNfa hp, stateAt_ofNfa hq]

/-- Going back from a place finds a chain to its state at the cost of the place. -/
theorem chainTo_of_backtrack (hn : n.Wired) (hq : n.states[j]? = some q)
    (hc : (cellAt n w j).cost = some c)
    (h : backtrack (PathCosts.ofNfa n) (columnsBack n w) j = some (entry, steps)) :
    ∃ p e, n.states[entry]? = some p ∧
      (PathCosts.ofNfa n).costAt (n.states.idxOf n.start) entry = some e ∧
      n.ChainTo w q ⟨c, p, e, steps⟩ := by
  -- the induction is on the word from its end, as the way back
  induction w using List.reverseRecOn generalizing j q c steps with
  | nil =>
    have hj := lt_size_iff.2 (List.getElem?_eq_some_iff.1 hq).1
    have hfirst : (cellAt n [] j).cost =
        (PathCosts.ofNfa n).costAt (n.states.idxOf n.start) j := by
      unfold cellAt columnAfter
      rw [List.foldl_nil, getElem?_firstColumn _ _ hj, Option.getD_some]
    rw [hfirst] at hc
    cases h
    refine ⟨q, c, hq, hc, Nfa.chainTo_nil_iff.2 ⟨rfl, rfl, ?_, rfl⟩⟩
    have hmin := PathCosts.minimum_costAt (List.getElem?_idxOf hn.start_mem) hq
    rw [hc] at hmin
    exact hmin.isLeast
  | append_singleton w a ih =>
    obtain ⟨i, p, b, k, steps', hp, -, hb, hk, rfl, hrest, rfl⟩ :=
      backtrack_concat_eq_some hq hc h
    obtain ⟨p', e, hentry, he, hchain⟩ := ih hp hb hrest
    have hsymbols : steps'.map AlignmentStep.symbol = w := hchain.symbols
    refine ⟨p', e, hentry, he, Nfa.chainTo_concat_iff.2 ⟨b, ?_, ?_, rfl, ?_, rfl⟩⟩
    · rwa [hsymbols]
    · rwa [PathCosts.stepCost_eq_stepCostAt hn hp hq]
    · rw [hsymbols]

/-- A chain is cheapest exactly if it costs what its last state costs after the word. -/
theorem cheapestChain_iff (hn : n.Wired) (hq : n.states[j]? = some q) : n.CheapestChain w q al ↔
    n.ChainTo w q al ∧ (cellAt n w j).cost = some al.distance := by
  refine and_congr_right fun hal => ?_
  have hmin := minimum_cellAt hn w hq
  constructor
  · intro hleast
    obtain ⟨c, hc, hle⟩ := hmin.bound _ (hal.aligns hn)
    obtain ⟨⟨entry, steps⟩, hback⟩ := exists_backtrack (PathCosts.ofNfa n) _ w
      (lt_size_iff.2 (List.getElem?_eq_some_iff.1 hq).1) hc
    obtain ⟨p, e, -, -, hchain⟩ := chainTo_of_backtrack hn hq hc hback
    rw [hc, Nat.le_antisymm hle (hleast _ hchain)]
  · intro hc al' hal'
    rw [hc] at hmin
    exact hmin.isLeast.2 (hal'.aligns hn)

variable [Ord σ]

omit [DecidableEq σ] [Ord σ] in
/-- The states of later places are later ones. -/
theorem le_of_places {qs : List State} (hqs : Ascending.IsAscending qs) (hp : qs[i]? = some p)
    (hq : qs[j]? = some q) (hij : i ≤ j) : p ≤ q := by
  obtain ⟨hi, rfl⟩ := List.getElem?_eq_some_iff.1 hp
  obtain ⟨hj, rfl⟩ := List.getElem?_eq_some_iff.1 hq
  rcases Nat.eq_or_lt_of_le hij with rfl | hlt
  · exact Nat.le_refl _
  · exact Nat.le_of_lt (List.pairwise_iff_getElem.1 (Ascending.isAscending_nat_iff.1 hqs) i j hi hj
      hlt)

/-- No cheapest chain comes to a state from a state before the one that is remembered. -/
theorem le_of_mem_lastSources (h : n.WellFormed) (hp : n.states[i]? = some p)
    (hq : n.states[j]? = some q) (hprevious : (cellAt n (w ++ [a]) j).previous = some i)
    (hr : r ∈ n.lastSources (w ++ [a]) q) : p ≤ r := by
  obtain ⟨⟨d, r', e, _⟩, steps, s, hcheapest, rfl, rfl⟩ := hr
  obtain ⟨hchain, hc⟩ := (cheapestChain_iff h.toWired hq).1 hcheapest
  obtain ⟨d', hbefore, hk, rfl, hw, rfl⟩ := Nfa.chainTo_concat_iff.1 hchain
  obtain ⟨rfl, rfl⟩ := List.append_singleton_inj.1 hw
  obtain ⟨hmem, -⟩ := PathCosts.mem_of_stepCost hk
  have hi := List.idxOf_lt_length_of_mem hmem
  have hplace := List.getElem?_idxOf hmem
  rw [PathCosts.stepCost_eq_stepCostAt h.toWired hplace hq] at hk
  -- the way from the source of the last step is as cheap as the one that is remembered
  obtain ⟨b, hb, hle⟩ := (minimum_cellAt h.toWired _ hplace).bound _ (hbefore.aligns h.toWired)
  have hway : way (PathCosts.ofNfa n) (columnAfter n (steps.map AlignmentStep.symbol)) s.symbol j
      (n.states.idxOf s.source) = some (b + s.cost) := by
    unfold cellAt at hb
    unfold way
    rw [hb, hk]
    rfl
  have hj := (List.getElem?_eq_some_iff.1 hq).1
  obtain ⟨c, hc', hle'⟩ := (best_cellAt _ _ hj).least _ (List.mem_range.2 hi) _ hway
  have hcd := Option.some.inj (hc.symm.trans hc')
  have hbd : b = d' := by
    have hle : b ≤ d' := hle
    have hcd : d' + s.cost = c := hcd
    omega
  rw [hbd] at hway
  rw [cellAt_concat _ _ _ hj] at hc hprevious
  have hplaces := AlignmentCell.previous_foldl_le List.pairwise_lt_range hc hprevious
    (List.mem_range.2 hi) hway
  exact le_of_places h.states_ascending hp hplace hplaces

/-- Each step on the way back starts in the first state in which the last step of a cheapest chain
for the word up to its letter can start. -/
theorem isLeast_source_of_backtrack (h : n.WellFormed) (hq : n.states[j]? = some q)
    (hc : (cellAt n w j).cost = some c)
    (hback : backtrack (PathCosts.ofNfa n) (columnsBack n w) j = some (entry, steps))
    {before after : List (AlignmentStep σ)} (hsteps : steps = before ++ s :: after) :
    IsLeast (n.lastSources (before.map AlignmentStep.symbol ++ [s.symbol]) s.target) s.source := by
  induction w using List.reverseRecOn generalizing j q c steps after with
  | nil =>
    cases hback
    cases before <;> cases hsteps
  | append_singleton w a ih =>
    obtain ⟨_, _, -, -, hchain⟩ := chainTo_of_backtrack h.toWired hq hc hback
    obtain ⟨i, p, b, k, steps', hp, hprevious, hb, -, -, hrest, rfl⟩ :=
      backtrack_concat_eq_some hq hc hback
    rcases List.eq_nil_or_concat' after with rfl | ⟨after, t, rfl⟩
    · obtain ⟨rfl, rfl⟩ := List.append_singleton_inj.1 hsteps
      have hw : steps'.map AlignmentStep.symbol ++ [a] = w ++ [a] := by
        rw [← hchain.symbols, List.map_append]
        rfl
      rw [hw]
      exact ⟨⟨_, _, _, (cheapestChain_iff h.toWired hq).2 ⟨hchain, hc⟩, rfl, rfl⟩,
        fun r => le_of_mem_lastSources h hp hq hprevious⟩
    · rw [← List.cons_append, ← List.append_assoc] at hsteps
      exact ih hp hb hrest (List.append_singleton_inj.1 hsteps).1

end AlignmentTable

/-! ## The chain of an alignment -/

namespace Nfa

variable [DecidableEq σ]

/-- An alignment is found by going back from the final state, which costs its distance. -/
theorem align_eq_some (h : n.align w = some al) : ∃ entry steps,
    (AlignmentTable.cellAt n w (n.states.idxOf n.final)).cost = some al.distance ∧
      AlignmentTable.backtrack (PathCosts.ofNfa n) (AlignmentTable.columnsBack n w)
        (n.states.idxOf n.final) = some (entry, steps) ∧
      al = ⟨al.distance, (PathCosts.ofNfa n).stateAt entry,
        ((PathCosts.ofNfa n).costAt (n.states.idxOf n.start) entry).getD 0, steps⟩ := by
  obtain ⟨distance, hdistance, h⟩ := Option.bind_eq_some_iff.1 h
  obtain ⟨⟨entry, steps⟩, hback, h⟩ := Option.bind_eq_some_iff.1 h
  cases h
  refine ⟨entry, steps, ?_, hback, rfl⟩
  unfold AlignmentTable.distance at hdistance
  rwa [AlignmentTable.lastColumn_ofWord] at hdistance

theorem chainTo_of_align (hn : n.Wired) (h : n.align w = some al) : n.ChainTo w n.final al := by
  obtain ⟨entry, steps, hc, hback, hal⟩ := align_eq_some h
  obtain ⟨p, e, hp, he, hchain⟩ := AlignmentTable.chainTo_of_backtrack hn
    (List.getElem?_idxOf hn.final_mem) hc hback
  rw [AlignmentTable.stateAt_ofNfa hp, he] at hal
  rw [hal]
  exact hchain

/-- An alignment is a chain for the word to the final state that no other chain undercuts.  Each of
its steps starts in the first state in which the last step of a cheapest chain for the word up to
its letter, to the state that the step leads to, can start. -/
theorem WellFormed.align_chain [Ord σ] (h : n.WellFormed) (hal : n.align w = some al) :
    n.CheapestChain w n.final al ∧ ∀ before s after, al.steps = before ++ s :: after →
      IsLeast (n.lastSources (before.map AlignmentStep.symbol ++ [s.symbol]) s.target)
        s.source := by
  have hchain := chainTo_of_align h.toWired hal
  have hfinal := List.getElem?_idxOf h.final_mem
  obtain ⟨entry, steps, hc, hback, heq⟩ := align_eq_some hal
  refine ⟨(AlignmentTable.cheapestChain_iff h.toWired hfinal).2 ⟨hchain, hc⟩, ?_⟩
  intro before s after hsteps
  rw [heq] at hsteps
  exact AlignmentTable.isLeast_source_of_backtrack h hfinal hc hback hsteps

/-- Each of the two other letters can be the one that is replaced; the last step starts in the first
state with either. -/
theorem align_chain_literal : (literal 'a').WellFormed ∧
    ∃ al, (literal 'a').align ['b', 'c'] = some al ∧
      al.steps = [⟨0, 0, 'b', 1⟩, ⟨0, 1, 'c', 1⟩] ∧
      (literal 'a').CheapestChain ['b', 'c'] (literal 'a').final al ∧
      IsLeast ((literal 'a').lastSources ['b', 'c'] 1) 0 := by
  have hal : (literal 'a').align ['b', 'c'] =
      some ⟨2, 0, 0, [⟨0, 0, 'b', 1⟩, ⟨0, 1, 'c', 1⟩]⟩ := by decide +kernel
  obtain ⟨hchain, hfirst⟩ := (wellFormed_literal 'a').align_chain hal
  exact ⟨wellFormed_literal 'a', _, hal, rfl, hchain,
    hfirst [⟨0, 0, 'b', 1⟩] ⟨0, 1, 'c', 1⟩ [] rfl⟩

end Nfa

end Kleene
