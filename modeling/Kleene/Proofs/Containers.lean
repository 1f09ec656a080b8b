import Kleene.Elimination.Graph
import Kleene.Proofs.NfaChanges
import Kleene.Proofs.Simulation

/-!
# What a container holds

A graph container holds an automaton if it has its states and, between any two of them, its labels.
In what order the container lists them is then not to be seen: sorted readings are those of the
automaton, a search finds the same closed sets whatever it comes across first, and the subset
construction numbers the sets alike.
-/

namespace Kleene

namespace NfaGraph

variable {C : GraphMap} {σ : Type} {g : NfaGraph C σ} {n : Nfa σ} {p q r : State} {l : Label σ}

/-- The container has the states and the labels of a well-formed automaton. -/
structure Holds [Ord σ] (g : NfaGraph C σ) (n : Nfa σ) : Prop where
  wellFormed : n.WellFormed
  mem_nodes : ∀ q, q ∈ C.nodes g.graph ↔ q ∈ n.states
  value?_eq : ∀ p q, C.value? g.graph (p, q) = n.labelSet? p q
  alphabet_eq : g.alphabet = n.alphabet
  start_eq : g.start = n.start
  final_eq : g.final = n.final
  fresh_eq : g.fresh = n.fresh

/-- Bundles of parallel transitions are in order if their ends are. -/
theorem isAscending_bundles {ι ℓ : Type} [Ord ℓ] (ends : ι → Arrow) {labels : ι → List ℓ}
    {xs : List ι} (hlabels : ∀ x ∈ xs, Ascending.IsAscending (labels x))
    (hends : xs.Pairwise fun x y => (ends x).1 < (ends y).1 ∨
      ((ends x).1 = (ends y).1 ∧ (ends x).2 < (ends y).2)) :
    Ascending.IsAscending (xs.flatMap fun x =>
      (labels x).map fun l => (⟨(ends x).1, l, (ends x).2⟩ : Edge ℓ)) := by
  refine List.pairwise_flatMap.2 ⟨fun x hx => ?_, hends.imp fun {x y} hlt => ?_⟩
  · refine List.pairwise_map.2 (List.Pairwise.imp (fun {l l'} hlt => ?_) (hlabels x hx))
    exact Edge.compare_eq_lt_iff.2 (.inr ⟨rfl, .inr ⟨rfl, hlt⟩⟩)
  · intro e he f hf
    obtain ⟨l, -, rfl⟩ := List.mem_map.1 he
    obtain ⟨l', -, rfl⟩ := List.mem_map.1 hf
    exact Edge.compare_eq_lt_iff.2 (hlt.imp_right (.imp_right .inl))

/-! ## What the search comes across -/

theorem mem_stack_foldl_visit {found : List State × List State} {qs : List State} :
    q ∈ (qs.foldl visit found).1 ↔ q ∈ found.1 ∨ (q ∈ qs ∧ q ∉ found.2) := by
  induction qs generalizing found with
  | nil => simp
  | cons p qs ih =>
    show q ∈ (qs.foldl visit (visit found p)).1 ↔ _
    rw [ih, visit]
    split
    · rename_i hp
      by_cases hq : q = p <;> simp [hq, hp]
    · rename_i hp
      by_cases hq : q = p <;> simp [hq, hp, Ascending.mem_insert]

theorem mem_closure_foldl_visit {found : List State × List State} {qs : List State} :
    q ∈ (qs.foldl visit found).2 ↔ q ∈ found.2 ∨ q ∈ qs := by
  induction qs generalizing found with
  | nil => simp
  | cons p qs ih =>
    show q ∈ (qs.foldl visit (visit found p)).2 ↔ _
    rw [ih, visit, List.mem_cons]
    split
    · rename_i hp
      by_cases hq : q = p <;> simp [hq, hp]
    · rw [Ascending.mem_insert, or_assoc, or_left_comm]

theorem isAscending_foldl_visit {found : List State × List State} {qs : List State}
    (h : Ascending.IsAscending found.2) : Ascending.IsAscending (qs.foldl visit found).2 := by
  induction qs generalizing found with
  | nil => exact h
  | cons p qs ih =>
    refine ih ?_
    unfold visit
    split
    · exact h
    · exact Ascending.isAscending_insert h

theorem isAscending_explore [DecidableEq σ] {stack closure : List State}
    (h : Ascending.IsAscending closure) : Ascending.IsAscending (g.explore stack closure) := by
  fun_induction explore g stack closure with
  | case1 closure => exact h
  | case2 closure q rest found ih => exact ih (isAscending_foldl_visit h)

/-- Of a state that is not on the stack, the search has seen all that a step leads to. -/
def Explored (n : Nfa σ) (stack closure : List State) : Prop :=
  ∀ p ∈ closure, p ∈ stack ∨ ∀ q, (p, q) ∈ n.epsilonArrows → q ∈ closure

namespace Holds

variable [Ord σ]

theorem labels_eq (h : g.Holds n) (p q : State) : g.labels p q = n.labelsBetween p q := by
  unfold labels
  rw [h.value?_eq, Nfa.labelSet?_eq]
  cases n.labelsBetween p q <;> rfl

theorem mem_labels (h : g.Holds n) : l ∈ g.labels p q ↔ ⟨p, l, q⟩ ∈ n.edges := by
  rw [h.labels_eq, Nfa.mem_labelsBetween]

theorem labels_ascending (h : g.Holds n) (p q : State) : Ascending.IsAscending (g.labels p q) := by
  rw [h.labels_eq]
  exact Nfa.labelsBetween_ascending h.wellFormed.edges_ascending p q

theorem exists_value?_iff (h : g.Holds n) :
    (∃ ls, C.value? g.graph (p, q) = some ls) ↔ ∃ l, ⟨p, l, q⟩ ∈ n.edges := by
  rw [h.value?_eq]
  constructor
  · rintro ⟨ls, hls⟩
    exact (Nfa.labelSet?_eq_some_iff.1 hls).1
  · exact fun hedge => ⟨_, Nfa.labelSet?_eq_some_iff.2 ⟨hedge, rfl⟩⟩

theorem mem_arrows (h : g.Holds n) {ls : List (Label σ)} : ((p, q), ls) ∈ C.arrows g.graph ↔
    (∃ l, ⟨p, l, q⟩ ∈ n.edges) ∧ ls = n.labelsBetween p q := by
  rw [C.mem_arrows, h.value?_eq, Nfa.labelSet?_eq_some_iff]

theorem mem_targets [DecidableEq σ] (h : g.Holds n) :
    q ∈ g.targets p l ↔ ⟨p, l, q⟩ ∈ n.edges := by
  unfold targets
  rw [List.mem_filter, decide_eq_true_eq, h.mem_labels, C.mem_successors, h.exists_value?_iff]
  exact and_iff_right_of_imp fun he => ⟨l, he⟩

/-! ## Closures -/

section Closures

variable [DecidableEq σ]

/-- One step of the search: what the first state of the stack leads to is found, and it is
explored. -/
theorem explored_foldl_visit (h : g.Holds n) {rest closure : List State}
    (hexplored : Explored n (q :: rest) closure) :
    Explored n ((g.targets q .epsilon).foldl visit (rest, closure)).1
      ((g.targets q .epsilon).foldl visit (rest, closure)).2 := by
  intro p hp
  rw [mem_stack_foldl_visit]
  by_cases hold : p ∈ closure
  · obtain hstack | hseen := hexplored p hold
    · obtain rfl | hrest := List.mem_cons.1 hstack
      · exact .inr fun r hr => mem_closure_foldl_visit.2
          (.inr (h.mem_targets.2 (Nfa.mem_epsilonArrows.1 hr)))
      · exact .inl (.inl hrest)
    · exact .inr fun r hr => mem_closure_foldl_visit.2 (.inl (hseen r hr))
  · exact .inl (.inr ⟨(mem_closure_foldl_visit.1 hp).resolve_left hold, hold⟩)

/-- In whatever order targets are put on the stack, the search finds what can be reached. -/
theorem mem_explore (h : g.Holds n) {stack closure : List State}
    (hstack : ∀ p ∈ stack, p ∈ closure) (hexplored : Explored n stack closure) :
    q ∈ g.explore stack closure ↔ ∃ p ∈ closure, Reaches n.epsilonArrows p q := by
  fun_induction explore g stack closure with
  | case1 closure =>
    refine ⟨fun hq => ⟨q, hq, .refl q⟩, ?_⟩
    rintro ⟨p, hp, hpq⟩
    induction hpq with
    | refl => exact hp
    | tail _ harrow ih => exact (hexplored _ ih).resolve_left List.not_mem_nil _ harrow
  | case2 closure s rest found ih =>
    have hfound : ∀ p, p ∈ found.2 ↔ p ∈ closure ∨ (s, p) ∈ n.epsilonArrows := fun p => by
      rw [mem_closure_foldl_visit, h.mem_targets, Nfa.mem_epsilonArrows]
    have hsub : ∀ p ∈ found.1, p ∈ found.2 := fun p hp => mem_closure_foldl_visit.2
      ((mem_stack_foldl_visit.1 hp).imp (fun hrest => hstack p (List.mem_cons_of_mem s hrest))
        And.left)
    rw [ih hsub (explored_foldl_visit h hexplored)]
    constructor
    · rintro ⟨p, hp, hpq⟩
      obtain hp | harrow := (hfound p).1 hp
      · exact ⟨p, hp, hpq⟩
      · exact ⟨s, hstack s List.mem_cons_self, .head harrow hpq⟩
    · rintro ⟨p, hp, hpq⟩
      exact ⟨p, (hfound p).2 (.inl hp), hpq⟩

theorem closure_eq (h : g.Holds n) (q : State) : g.closure q = n.closure q := by
  refine Ascending.eq_of_mem_iff (isAscending_explore (List.pairwise_singleton _ _))
    Nfa.isAscending_closure fun r => ?_
  unfold closure
  rw [h.mem_explore (fun _ hp => hp) (fun _ hp => .inl hp), Nfa.mem_closure]
  simp

theorem initial_eq (h : g.Holds n) : g.initial = n.initial := by
  unfold initial Nfa.initial
  rw [h.closure_eq, h.start_eq]

theorem step_eq (h : g.Holds n) (s : List State) (a : σ) : g.step s a = n.step s a := by
  refine Ascending.eq_of_mem_iff (Ascending.isAscending_ofList _) Nfa.isAscending_step fun q => ?_
  simp only [step, Ascending.mem_ofList, List.mem_flatMap, h.mem_targets, h.closure_eq,
    Nfa.mem_closure, Nfa.mem_step]

end Closures

/-! ## Sorted readings -/

theorem states_eq (h : g.Holds n) : g.states = n.states :=
  Ascending.sort_eq (C.nodup_nodes _) h.wellFormed.states_ascending h.mem_nodes

theorem hasState_eq (h : g.Holds n) (q : State) : g.hasState q = n.hasState q :=
  decide_eq_decide.2 (h.mem_nodes q)

theorem innerStates_eq (h : g.Holds n) : g.innerStates = n.innerStates := by
  unfold innerStates Nfa.innerStates
  rw [h.states_eq, h.start_eq, h.final_eq]

theorem requireInner_eq (h : g.Holds n) (q : State) : g.requireInner q = n.requireInner q := by
  unfold requireInner Nfa.requireInner Nfa.requireState
  rw [h.start_eq, h.final_eq, h.hasState_eq]

theorem stateCount_eq (h : g.Holds n) : g.stateCount = n.stateCount := by
  rw [Nfa.stateCount, ← h.states_eq]
  exact (Ascending.perm_sort _).length_eq.symm

theorem mem_unsorted (h : g.Holds n) {e : Edge (Label σ)} : e ∈ g.unsorted ↔ e ∈ n.edges := by
  obtain ⟨p, l, q⟩ := e
  simp only [unsorted, List.mem_flatMap, List.mem_map]
  constructor
  · rintro ⟨⟨⟨p', q'⟩, ls⟩, hx, l', hl, heq⟩
    obtain ⟨rfl, rfl, rfl⟩ := Edge.mk.inj heq
    obtain ⟨-, rfl⟩ := h.mem_arrows.1 hx
    exact Nfa.mem_labelsBetween.1 hl
  · intro he
    exact ⟨((p, q), _), h.mem_arrows.2 ⟨⟨l, he⟩, rfl⟩, l, Nfa.mem_labelsBetween.2 he, rfl⟩

variable [Std.LawfulEqOrd σ]

/-- No transition is listed twice, since an arrow has one set of labels. -/
theorem nodup_unsorted (h : g.Holds n) : g.unsorted.Nodup := by
  refine List.nodup_flatMap.2 ⟨?_, ?_⟩
  · rintro ⟨⟨p, q⟩, ls⟩ hx
    obtain ⟨-, rfl⟩ := h.mem_arrows.1 hx
    rw [← h.labels_eq]
    exact (h.labels_ascending p q).nodup.map fun l l' heq => congrArg Edge.label heq
  · refine (C.nodup_arrows g.graph).imp_of_mem fun {x y} hx hy hne e hex hey => hne ?_
    obtain ⟨l, -, rfl⟩ := List.mem_map.1 hex
    obtain ⟨l', -, heq⟩ := List.mem_map.1 hey
    obtain ⟨hsource, -, htarget⟩ := Edge.mk.inj heq
    have harrow : y.1 = x.1 := Prod.ext hsource htarget
    have hvalue := (C.mem_arrows _ _ _).1 hy
    rw [harrow, (C.mem_arrows _ _ _).1 hx] at hvalue
    exact Prod.ext harrow.symm (Option.some.inj hvalue)

variable [Std.TransOrd σ]

theorem transitions_eq (h : g.Holds n) : g.transitions = n.edges :=
  Ascending.sort_eq h.nodup_unsorted h.wellFormed.edges_ascending fun _ => h.mem_unsorted

theorem transitionCount_eq (h : g.Holds n) : g.transitionCount = n.transitionCount := by
  have hlength : g.unsorted.length = g.transitionCount := by
    unfold unsorted transitionCount
    simp only [List.length_flatMap, List.length_map]
  rw [← hlength, Nfa.transitionCount, ← h.transitions_eq]
  exact (Ascending.perm_sort g.unsorted).length_eq.symm

theorem listing_eq (h : g.Holds n) : g.listing = n := by
  unfold listing
  rw [h.states_eq, h.alphabet_eq, h.transitions_eq, h.start_eq, h.final_eq, h.fresh_eq]

theorem incoming_eq (h : g.Holds n) (q : State) : g.incoming q = n.incoming q := by
  refine Ascending.eq_of_mem_iff ?_ (h.wellFormed.edges_ascending.filter _) ?_
  · apply isAscending_bundles (fun p => (p, q)) (fun p _ => h.labels_ascending p q)
    refine List.Pairwise.imp (fun {p p'} hlt => ?_)
      (Ascending.isAscending_sort (C.nodup_predecessors _ q))
    exact .inl (Nat.compare_eq_lt.1 hlt)
  · rintro ⟨p, l, r⟩
    rw [mem_incoming, Nfa.incoming, List.mem_filter, decide_eq_true_eq, h.mem_labels, and_comm]
    exact and_congr_left fun hr => by rw [hr]

theorem outgoing_eq (h : g.Holds n) (p : State) : g.outgoing p = n.outgoing p := by
  refine Ascending.eq_of_mem_iff ?_ (h.wellFormed.edges_ascending.filter _) ?_
  · apply isAscending_bundles (fun q => (p, q)) (fun q _ => h.labels_ascending p q)
    refine List.Pairwise.imp (fun {q q'} hlt => ?_)
      (Ascending.isAscending_sort (C.nodup_successors _ p))
    exact .inr ⟨rfl, Nat.compare_eq_lt.1 hlt⟩
  · rintro ⟨r, l, q⟩
    rw [mem_outgoing, Nfa.outgoing, List.mem_filter, decide_eq_true_eq, h.mem_labels, and_comm]
    exact and_congr_left fun hr => by rw [hr]

theorem entering_eq (h : g.Holds n) (q : State) : g.entering q = n.entering q :=
  congrArg _ (h.incoming_eq q)

theorem leavingEdges_eq (h : g.Holds n) (q : State) : g.leavingEdges q = n.leavingEdges q :=
  congrArg _ (h.outgoing_eq q)

theorem loopLetters_eq (h : g.Holds n) (q : State) : g.loopLetters q = n.loopLetters q := by
  unfold loopLetters Nfa.loopLetters
  rw [h.incoming_eq, Nfa.incoming, List.filter_filter]
  refine congrArg _ (List.filter_congr fun e _ => ?_)
  by_cases ht : e.target = q <;> simp [Edge.isLoop, ht]

theorem ripCost_eq (h : g.Holds n) (c : Combiner σ) (q : State) :
    g.ripCost c q = n.ripCost c q := by
  unfold ripCost Nfa.ripCost
  rw [h.entering_eq, h.leavingEdges_eq]

theorem nextInner?_eq (h : g.Holds n) (c : Combiner σ) (order : EliminationOrder) :
    g.nextInner? c order = n.nextInner? c order := by
  cases order with
  | ascending => exact congrArg List.head? h.innerStates_eq
  | heuristic =>
    show Nfa.firstMin? (g.ripCost c) g.innerStates = Nfa.firstMin? (n.ripCost c) n.innerStates
    rw [h.innerStates_eq, funext (h.ripCost_eq c)]

theorem align_eq [DecidableEq σ] (h : g.Holds n) (w : List σ) : g.align w = n.align w := by
  unfold align
  rw [h.listing_eq]

/-! ## Subset construction -/

section Determinization

variable [DecidableEq σ] [Quotable σ]

theorem expand?_eq (h : g.Holds n) (room : Room) (complete : Bool) (i : State) (t : Draft σ) :
    g.expand? room complete i t = Draft.expand? room n complete i t := by
  unfold expand? Draft.expand?
  cases t.found[i]? with
  | none => rfl
  | some s => simp only [h.step_eq, h.alphabet_eq, h.listing_eq]

theorem run?_eq (h : g.Holds n) (room : Room) (complete : Bool) (rounds : Nat) (t : Draft σ) :
    g.run? room complete rounds t = Draft.run? room n complete rounds t := by
  induction rounds generalizing t with
  | zero => rfl
  | succ rounds ih =>
    unfold run? Draft.run?
    cases t.pending with
    | nil => rfl
    | cons i rest => simp only [h.expand?_eq, ih]

theorem toDfaWithin?_eq (h : g.Holds n) (room : Room) (complete : Bool) :
    g.toDfaWithin? room complete = n.toDfaWithin? room complete := by
  unfold toDfaWithin? Nfa.toDfaWithin? Nfa.isAcceptingSet
  rw [h.alphabet_eq, h.initial_eq, h.final_eq, h.stateCount_eq, Nfa.stateCount]
  simp only [h.run?_eq]

theorem toDfa?_eq (h : g.Holds n) (complete : Bool) : g.toDfa? complete = n.toDfa? complete :=
  h.toDfaWithin?_eq .unlimited complete

end Determinization

end Holds

end NfaGraph

end Kleene
