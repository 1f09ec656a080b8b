import Kleene.Proofs.NfaChanges
import Kleene.Proofs.Synthesis

/-!
# Reductions

Elimination is one way of making an automaton smaller: states are ripped out, and between that
parallel transitions are merged.  In whatever order this is done, with a sound combiner the words
that the labels spell between the terminals stay the same.  At the end of an elimination one
transition is left, and it is missing exactly if no path led from the start to the final state,
whatever the labels mean.
-/

open Computability

namespace Kleene.Nfa

variable {σ α : Type} {c : Combiner σ} {good : Label σ → Prop} {m : Label σ → Language α}
variable {n n' : Nfa σ} {p q r : State} {l : Label σ} {order : EliminationOrder}

/-! ## Any sequence of changes -/

/-- One change that makes an automaton smaller. -/
inductive Reduction where
  | rip (q : State)
  | merge
  deriving DecidableEq, Repr

namespace Reduction

def perform? [Ord σ] (c : Combiner σ) (n : Nfa σ) : Reduction → Except Misuse (Nfa σ)
  | rip q => n.rip? c q
  | merge => .ok (n.unionEdges c)

def ripped? : Reduction → Option State
  | rip q => some q
  | merge => none

end Reduction

/-- The changes one after the other. -/
def reduce? [Ord σ] (c : Combiner σ) (n : Nfa σ) (rs : List Reduction) : Except Misuse (Nfa σ) :=
  rs.foldlM (Reduction.perform? c) n

section Reduce

variable [Ord σ] {x : Reduction} {rs : List Reduction}

theorem rip?_eq_ok_iff_innerStates :
    n.rip? c q = .ok n' ↔ q ∈ n.innerStates ∧ n' = n.rip c q := by
  rw [rip?_eq_ok_iff, mem_innerStates]
  exact and_congr_left fun _ => ⟨fun h => ⟨h.2.2, h.1, h.2.1⟩, fun h => ⟨h.2.1, h.2.2, h.1⟩⟩

theorem mem_innerStates_rip : r ∈ (n.rip c q).innerStates ↔ r ∈ n.innerStates ∧ r ≠ q := by
  rw [mem_innerStates, mem_innerStates]
  show r ∈ n.states.filter (· ≠ q) ∧ r ≠ n.start ∧ r ≠ n.final ↔ _
  rw [List.mem_filter, decide_eq_true_eq, and_right_comm]

theorem reduce?_cons_of_ok (h : x.perform? c n = .ok n') :
    n.reduce? c (x :: rs) = n'.reduce? c rs := foldlM_cons_of_ok h

/-- All changes can be made if the states to rip out are different inner states. -/
theorem exists_reduce?_iff : (∃ n', n.reduce? c rs = .ok n') ↔
    (rs.filterMap Reduction.ripped?).Nodup ∧
      ∀ q ∈ rs.filterMap Reduction.ripped?, q ∈ n.innerStates := by
  induction rs generalizing n with
  | nil => exact iff_of_true ⟨n, rfl⟩ ⟨List.nodup_nil, List.forall_mem_nil _⟩
  | cons x rs ih =>
    cases x with
    | merge => exact ih (n := n.unionEdges c)
    | rip q =>
      show _ ↔ (q :: rs.filterMap Reduction.ripped?).Nodup ∧
        ∀ r ∈ q :: rs.filterMap Reduction.ripped?, r ∈ n.innerStates
      rw [List.nodup_cons, List.forall_mem_cons]
      constructor
      · rintro ⟨n', hn'⟩
        obtain ⟨n₁, hrip, hrest⟩ := exists_of_foldlM_cons hn'
        obtain ⟨hq, rfl⟩ := rip?_eq_ok_iff_innerStates.1 hrip
        obtain ⟨hnodup, hinner⟩ := ih.1 ⟨n', hrest⟩
        -- a state that is gone cannot be ripped out once more
        have hgone : q ∉ rs.filterMap Reduction.ripped? := fun hmem =>
          (mem_innerStates_rip.1 (hinner q hmem)).2 rfl
        exact ⟨⟨hgone, hnodup⟩, hq, fun r hr => (mem_innerStates_rip.1 (hinner r hr)).1⟩
      · rintro ⟨⟨hgone, hnodup⟩, hq, hinner⟩
        have hrip : n.rip? c q = .ok (n.rip c q) := rip?_eq_ok_iff_innerStates.2 ⟨hq, rfl⟩
        have hrest : ∀ r ∈ rs.filterMap Reduction.ripped?, r ∈ (n.rip c q).innerStates :=
          fun r hr => mem_innerStates_rip.2 ⟨hinner r hr, fun heq => hgone (heq ▸ hr)⟩
        obtain ⟨n', hn'⟩ := ih.2 ⟨hnodup, hrest⟩
        exact ⟨n', (reduce?_cons_of_ok (x := .rip q) hrip).trans hn'⟩

variable [Std.LawfulEqOrd σ]

/-- One change keeps good labels and all words. -/
theorem languageUnder_perform? (hc : c.Sound good m) (hg : ∀ e ∈ n.edges, good e.label)
    (hx : x.perform? c n = .ok n') :
    (∀ e ∈ n'.edges, good e.label) ∧ n'.languageUnder m = n.languageUnder m := by
  cases x with
  | merge =>
    cases hx
    refine ⟨good_unionEdges hc hg, ?_⟩
    ext w
    exact path_unionEdges_iff hc hg
  | rip q =>
    obtain ⟨hq, rfl⟩ := rip?_eq_ok_iff_innerStates.1 hx
    obtain ⟨-, hs, hf⟩ := mem_innerStates.1 hq
    refine ⟨good_rip hc hg, ?_⟩
    ext w
    exact path_rip_iff hc hg hs.symm hf.symm

theorem languageUnder_reduce? (hc : c.Sound good m) (hg : ∀ e ∈ n.edges, good e.label)
    (h : n.reduce? c rs = .ok n') : n'.languageUnder m = n.languageUnder m := by
  have hkept : (∀ e ∈ n'.edges, good e.label) ∧ n'.languageUnder m = n.languageUnder m := by
    refine of_foldlM_eq_ok (P := fun n' : Nfa σ => (∀ e ∈ n'.edges, good e.label) ∧
      n'.languageUnder m = n.languageUnder m) ?_ ⟨hg, rfl⟩ h
    intro n₁ x n₂ hn₁ hx
    obtain ⟨hgood, hlanguage⟩ := languageUnder_perform? hc hn₁.1 hx
    exact ⟨hgood, hlanguage.trans hn₁.2⟩
  exact hkept.2

end Reduce

/-! ## Whether there is a path -/

/-- Any combiner is sound if all labels mean the empty word. -/
theorem sound_const_one (c : Combiner σ) :
    c.Sound (fun _ => True) fun _ => (1 : Language Unit) where
  good_epsilon := trivial
  meaning_epsilon := rfl
  good_path _ _ _ _ _ _ := trivial
  meaning_path _ loops _ _ _ _ := by
    have hle : (loops.map fun _ => (1 : Language Unit)).sum ≤ 1 := by
      intro w hw
      obtain ⟨-, -, hw⟩ := mem_sum_map.1 hw
      exact hw
    have hstar : (loops.map fun _ => (1 : Language Unit)).sum∗ = 1 :=
      le_antisymm ((kstar_mono hle).trans_eq kstar_one) one_le_kstar
    rw [hstar, one_mul, one_mul]
  good_parallel _ _ _ := trivial
  meaning_parallel ls hne _ := by
    ext w
    rw [mem_sum_map]
    obtain ⟨l, hl⟩ := List.exists_mem_of_ne_nil ls hne
    exact ⟨fun hw => ⟨l, hl, hw⟩, fun ⟨_, _, hw⟩ => hw⟩

/-- With labels that mean the empty word, that is the one word on every path. -/
theorem path_const_one_iff {edges : List (Edge (Label σ))} {w : List Unit} :
    Path (fun _ : Label σ => (1 : Language Unit)) edges p q w ↔
      w = [] ∧ Reaches (edges.map Edge.ends) p q := by
  constructor
  · intro h
    induction h with
    | nil p => exact ⟨rfl, .refl p⟩
    | @cons p r q l u v he hu _ ih =>
      obtain ⟨rfl, hway⟩ := ih
      exact ⟨by rw [(Language.mem_one u).1 hu]; rfl, .head (List.mem_map.2 ⟨_, he, rfl⟩) hway⟩
  · rintro ⟨rfl, hway⟩
    induction hway with
    | refl => exact .nil _
    | tail _ harrow ih =>
      obtain ⟨⟨p, l, q⟩, he, heq⟩ := List.mem_map.1 harrow
      obtain ⟨rfl, rfl⟩ := Prod.mk.inj heq
      exact ih.append (.single he ((Language.mem_one []).2 rfl))

section Eliminate

variable [Ord σ] [Std.TransOrd σ] [Std.LawfulEqOrd σ]

/-- No label is left exactly if no path leads from the start to the final state. -/
theorem WellFormed.expression_eq_none_iff (h : n.WellFormed) : n.expression c order = none ↔
    ¬Reaches (n.edges.map Edge.ends) n.start n.final := by
  have hempty : ([] : List Unit) ∈ n.languageUnder (fun _ => 1) ↔
      Reaches (n.edges.map Edge.ends) n.start n.final :=
    path_const_one_iff.trans (and_iff_right rfl)
  rw [← hempty]
  obtain ⟨hnone, hzero⟩ | ⟨l, hsome, -, hone⟩ :=
    expression_spec (sound_const_one c) order h fun _ _ => trivial
  · rw [hzero]
    exact iff_of_true hnone (Language.notMem_zero [])
  · rw [hsome, hone]
    exact iff_of_false (Option.some_ne_none l) (not_not.2 Language.nil_mem_one)

/-! ## What is left in the end -/

theorem WellFormed.ripAll (h : n.WellFormed) : (n.ripAll c order).WellFormed := by
  fun_induction Nfa.ripAll c order n with
  | case1 n hnext => exact h
  | case2 n q hnext ih =>
    obtain ⟨-, hs, hf⟩ := mem_innerStates.1 (mem_innerStates_of_nextInner? hnext)
    exact ih ((h.reroute hs hf c.path).unionEdges c)

omit [Std.TransOrd σ] [Std.LawfulEqOrd σ] in
/-- The order never names a state that may not be ripped out. -/
theorem ripAll?_eq_ok (n : Nfa σ) : n.ripAll? c order = .ok (n.ripAll c order) := by
  fun_induction Nfa.ripAll c order n with
  | case1 n hnext =>
    unfold ripAll?
    split
    · rfl
    · rename_i q hsome
      rw [hnext] at hsome
      cases hsome
  | case2 n q hnext ih =>
    obtain ⟨hq, hs, hf⟩ := mem_innerStates.1 (mem_innerStates_of_nextInner? hnext)
    unfold ripAll?
    split
    · rename_i hnone
      rw [hnext] at hnone
      cases hnone
    · rename_i q' hsome
      obtain rfl := Option.some.inj (hnext.symm.trans hsome)
      exact requireInner_bind_eq_ok_iff.2 ⟨⟨hs, hf, hq⟩, ih⟩

omit [Std.TransOrd σ] [Std.LawfulEqOrd σ] in
/-- Without inner states the start and the final state are all there is to count. -/
theorem WellFormed.countingOrder_eq (h : n.WellFormed) (hne : n.start ≠ n.final)
    (hinner : n.innerStates = []) : n.countingOrder = [n.start, n.final] := by
  have hrest : n.states.filter (· ≠ n.start) = [n.final] := by
    refine Ascending.eq_of_mem_iff (h.states_ascending.filter _) (List.pairwise_singleton _ _) ?_
    intro q
    rw [List.mem_filter, decide_eq_true_eq, List.mem_singleton]
    constructor
    · rintro ⟨hq, hs⟩
      by_contra hf
      have hmem : q ∈ n.innerStates := mem_innerStates.2 ⟨hq, hs, hf⟩
      rw [hinner] at hmem
      cases hmem
    · rintro rfl
      exact ⟨h.final_mem, hne.symm⟩
  unfold countingOrder
  rw [hrest]

/-- At the end there are the states 0 and 1, and the transition of the expression between them. -/
theorem WellFormed.eliminate_eq (h : n.WellFormed) (c : Combiner σ) (order : EliminationOrder) :
    (n.eliminate c order).states = [0, 1] ∧ (n.eliminate c order).start = 0 ∧
      (n.eliminate c order).final = 1 ∧ (n.eliminate c order).edges =
        ((n.expression c order).map fun l => ⟨0, l, 1⟩).toList := by
  obtain ⟨hlast, hinner, -⟩ :=
    (eliminable_prepared (sound_const_one c) h fun _ _ => trivial).ripAll (sound_const_one c) order
  have hprepared : (n.prepared c).WellFormed := h.isolate.unionEdges c
  have hwell : ((n.prepared c).ripAll c order).WellFormed := hprepared.ripAll
  unfold expression eliminate
  generalize (n.prepared c).ripAll c order = last at hlast hinner hwell ⊢
  have hne := hlast.isolated.start_ne_final
  have hcount := hwell.countingOrder_eq hne hinner
  have hstart : last.countingOrder.idxOf last.start = 0 := by
    rw [hcount, List.idxOf_cons_self]
  have hfinal : last.countingOrder.idxOf last.final = 1 := by
    rw [hcount, List.idxOf_cons_ne _ hne, List.idxOf_cons_self]
  refine ⟨?_, hstart, hfinal, ?_⟩
  · show List.range last.countingOrder.length = _
    rw [hcount]
    rfl
  · have hends : last.renumber.start = 0 ∧ last.renumber.final = 1 := ⟨hstart, hfinal⟩
    have hedges : last.renumber.edges = Ascending.ofList
        (last.edges.map (Edge.mapStates fun q => last.countingOrder.idxOf q)) := rfl
    obtain hnone | ⟨l, hone⟩ := hlast.edges_eq hinner
    · rw [hnone] at hedges
      simp [labelsBetween, hedges]
    · rw [hone, List.map_singleton] at hedges
      unfold Edge.mapStates at hedges
      simp only [hstart, hfinal] at hedges
      simp [labelsBetween, hedges, hends, Ascending.insert]

/-! ## The whole elimination -/

omit [Std.TransOrd σ] [Std.LawfulEqOrd σ] in
/-- The checks fail only for want of identifiers. -/
theorem eliminate?_eq (n : Nfa σ) : n.eliminate? c order =
    if n.isolate.fresh ≤ stateLimit then .ok (n.eliminate c order)
    else .error .statesExhausted := by
  unfold eliminate? isolate? fit
  split
  · show (do let last ← (n.prepared c).ripAll? c order; return last.renumber) = _
    rw [ripAll?_eq_ok]
    rfl
  · rfl

omit [Std.TransOrd σ] [Std.LawfulEqOrd σ] in
theorem expression?_eq (n : Nfa σ) : n.expression? c order =
    if n.isolate.fresh ≤ stateLimit then .ok (n.expression c order)
    else .error .statesExhausted := by
  unfold expression?
  rw [eliminate?_eq]
  split <;> rfl

/-- With a sound combiner, no sequence of rips of inner states and of merges changes the words
between the terminals; and elimination, unless it lacks identifiers, ends with the states 0 and 1
and at most one transition between them, whose label means these words and which is missing exactly
if no path led from the start to the final state. -/
theorem WellFormed.reduction_spec (hc : c.Sound good m) (h : n.WellFormed)
    (hg : ∀ e ∈ n.edges, good e.label) :
    (∀ rs, ((∃ n', n.reduce? c rs = .ok n') ↔ (rs.filterMap Reduction.ripped?).Nodup ∧
        ∀ q ∈ rs.filterMap Reduction.ripped?, q ∈ n.innerStates) ∧
      ∀ n', n.reduce? c rs = .ok n' → n'.languageUnder m = n.languageUnder m) ∧
    ∀ order,
      (n.eliminate? c order = .error .statesExhausted ↔ stateLimit < n.isolate.fresh) ∧
      (n.isolate.fresh ≤ stateLimit → ∃ e x, n.eliminate? c order = .ok e ∧
        n.expression? c order = .ok x ∧ e.states = [0, 1] ∧ e.start = 0 ∧ e.final = 1 ∧
        e.edges = (x.map fun l => ⟨0, l, 1⟩).toList ∧
        (x = none ↔ ¬Reaches (n.edges.map Edge.ends) n.start n.final) ∧
        ∀ l, x = some l → m l = n.languageUnder m) := by
  refine ⟨fun rs => ⟨exists_reduce?_iff, fun n' => languageUnder_reduce? hc hg⟩, fun order => ?_⟩
  rw [eliminate?_eq, expression?_eq]
  by_cases hfit : n.isolate.fresh ≤ stateLimit
  · simp only [if_pos hfit]
    refine ⟨iff_of_false (fun he => by cases he) (Nat.not_lt.2 hfit), fun _ => ?_⟩
    obtain ⟨hstates, hstart, hfinal, hedges⟩ := h.eliminate_eq c order
    refine ⟨_, _, rfl, rfl, hstates, hstart, hfinal, hedges, h.expression_eq_none_iff, ?_⟩
    intro l hl
    obtain ⟨hnone, -⟩ | ⟨l', hsome, -, hmeaning⟩ := expression_spec hc order h hg
    · rw [hl] at hnone
      cases hnone
    · rw [Option.some.inj (hl.symm.trans hsome), hmeaning]
  · simp only [if_neg hfit]
    exact ⟨iff_of_true trivial (Nat.not_le.1 hfit), fun hle => absurd hle hfit⟩

end Eliminate

/-- A way in, a loop and a way out, with a way past them. -/
def roundabout : Nfa Char :=
  { states := [0, 1, 2], alphabet := ['a', 'b', 'c'], start := 0, final := 2, fresh := 3
    edges := [⟨0, .symbol 'a', 1⟩, ⟨0, .epsilon, 2⟩, ⟨1, .symbol 'b', 1⟩, ⟨1, .symbol 'c', 2⟩] }

theorem wellFormed_roundabout : roundabout.WellFormed := wellFormed_of_ofParts
  (show ofParts ⟨[0, 1, 2], [], [⟨0, .epsilon, 2⟩, ⟨0, .symbol 'a', 1⟩, ⟨1, .symbol 'b', 1⟩,
    ⟨1, .symbol 'c', 2⟩], 0, 2⟩ = .ok roundabout from rfl)

theorem reduction_spec_roundabout :
    roundabout.annotated.WellFormed ∧ (∀ e ∈ roundabout.annotated.edges,
      PostfixCombiner.Good e.label) ∧ roundabout.annotated.isolate.fresh ≤ stateLimit ∧
    (∃ n', roundabout.annotated.reduce? (postfixCombiner Char) [.merge, .rip 1, .merge] = .ok n' ∧
      n'.languageUnder PostfixCombiner.meaning =
        roundabout.annotated.languageUnder PostfixCombiner.meaning) ∧
    ∃ e l, roundabout.annotated.eliminate? (postfixCombiner Char) .heuristic = .ok e ∧
      e.states = [0, 1] ∧ e.edges = [⟨0, l, 1⟩] ∧
      PostfixCombiner.meaning l = roundabout.annotated.languageUnder PostfixCombiner.meaning := by
  have hwell : roundabout.annotated.WellFormed := wellFormed_roundabout.mapLetters _
  have hgood := good_annotated roundabout
  have hfit : roundabout.annotated.isolate.fresh ≤ stateLimit := by decide +kernel
  obtain ⟨hreduce, heliminate⟩ := hwell.reduction_spec (postfixCombiner_sound Char) hgood
  refine ⟨hwell, hgood, hfit, ?_, ?_⟩
  · obtain ⟨hiff, hlanguage⟩ := hreduce [.merge, .rip 1, .merge]
    obtain ⟨n', hn'⟩ := hiff.2 (by decide +kernel)
    exact ⟨n', hn', hlanguage n' hn'⟩
  · obtain ⟨e, x, he, -, hstates, -, -, hedges, hnone, hmeaning⟩ :=
      (heliminate .heuristic).2 hfit
    cases x with
    | none =>
      -- the way past the loop is a path
      have hway : Reaches (roundabout.annotated.edges.map Edge.ends) 0 2 :=
        .tail (.refl 0) (by decide +kernel)
      exact absurd hway (hnone.1 rfl)
    | some l => exact ⟨e, l, he, hstates, hedges, hmeaning l rfl⟩

/-- Elimination does not end with two states for all automata: a new terminal may need one
identifier more than there are. -/
theorem eliminate?_not_total : ¬ ∀ (c : Combiner (Annotated Char))
    (good : Label (Annotated Char) → Prop) (m : Label (Annotated Char) → Language Char),
    c.Sound good m → ∀ (n : Nfa (Annotated Char)) (order : EliminationOrder), n.WellFormed →
      (∀ e ∈ n.edges, good e.label) →
        ∃ e, n.eliminate? c order = .ok e ∧ e.states = [0, 1] ∧ e.start = 0 ∧ e.final = 1 := by
  intro h
  have hfail : lastIdentifier.annotated.eliminate? (postfixCombiner Char) .heuristic =
      .error .statesExhausted := by
    rw [eliminate?_eq, if_neg (by decide +kernel)]
  obtain ⟨e, he, -⟩ := h (postfixCombiner Char) _ _ (postfixCombiner_sound Char)
    lastIdentifier.annotated .heuristic (wellFormed_lastIdentifier.mapLetters _)
    (good_annotated lastIdentifier)
  rw [hfail] at he
  cases he

end Kleene.Nfa
