import Kleene.Nfa.GraphOperations
import Kleene.Proofs.ContainerElimination
import Kleene.Proofs.Copies
import Kleene.Proofs.Lifting
import Kleene.Proofs.SafeRips

/-!
# Operations in a container

What is done step by step in a container is done to the automaton that it holds, and fails where
that fails.  An arrow that is left without labels is removed, because the automaton that is held has
no empty set of labels.  A copy of another automaton comes out the same in whatever order its
transitions are listed.
-/

namespace Kleene.NfaGraph

variable {C : GraphMap} {σ : Type} [Ord σ] {g : NfaGraph C σ} {n : Nfa σ} {p q : State}
variable {e : Edge (Label σ)} {es : List (Edge (Label σ))}

/-- The same value comes with an automaton and with the container that holds it. -/
def HoldsWith {α : Type} (x : α × NfaGraph C σ) (y : α × Nfa σ) : Prop :=
  x.1 = y.1 ∧ x.2.HoldsFit y.2

/-! ## Checks -/

section Checks

variable {α β : Type} {R : α → β → Prop} {x : Except Misuse α} {y : Except Misuse β}

omit [Ord σ] in
theorem sameResult_requireState (h : q ∈ n.states → SameResult R x y) :
    SameResult R (do n.requireState q; x) (do n.requireState q; y) := by
  unfold Nfa.requireState Nfa.hasState
  by_cases hq : q ∈ n.states
  · rw [if_pos (decide_eq_true hq)]
    exact h hq
  · rw [if_neg (by simpa using hq)]
    exact .error _

omit [Ord σ] in
theorem sameResult_requireInner (h : q ≠ n.start → q ≠ n.final → SameResult R x y) :
    SameResult R (do n.requireInner q; x) (do n.requireInner q; y) := by
  unfold Nfa.requireInner
  by_cases hterminal : q = n.start ∨ q = n.final
  · rw [if_pos (by simpa using hterminal)]
    exact .error _
  · rw [if_neg (by simpa using hterminal)]
    obtain ⟨hs, hf⟩ := not_or.1 hterminal
    exact sameResult_requireState fun _ => h hs hf

theorem Holds.requireState_eq (h : g.Holds n) (q : State) :
    g.requireState q = n.requireState q := by
  unfold NfaGraph.requireState Nfa.requireState
  rw [h.hasState_eq]

theorem Holds.hasEdge_eq [DecidableEq σ] (h : g.Holds n) (e : Edge (Label σ)) :
    g.hasEdge e = n.hasEdge e := decide_eq_decide.2 h.mem_labels

end Checks

/-! ## Checked changes -/

theorem HoldsFit.setStart? (h : g.HoldsFit n) (q : State) :
    SameResult HoldsFit (g.setStart? q) (n.setStart? q) := by
  unfold NfaGraph.setStart? Nfa.setStart?
  rw [h.requireState_eq]
  exact sameResult_requireState fun hq => .ok ⟨h.withStart hq, h.fits⟩

theorem HoldsFit.setFinal? (h : g.HoldsFit n) (q : State) :
    SameResult HoldsFit (g.setFinal? q) (n.setFinal? q) := by
  unfold NfaGraph.setFinal? Nfa.setFinal?
  rw [h.requireState_eq]
  exact sameResult_requireState fun hq => .ok ⟨h.withFinal hq, h.fits⟩

theorem HoldsFit.addState? (h : g.HoldsFit n) :
    SameResult HoldsFit g.addState? n.addState.fit := by
  have hgrown := h.grown (k := id) h.toHolds.addState rfl
  cases hnew : g.addState? <;> rw [hnew] at hgrown <;> exact hgrown

theorem HoldsFit.newState? (h : g.HoldsFit n) : SameResult HoldsWith g.newState? n.addState? :=
  SameResult.bind h.addState? fun _ _ hnew => .ok ⟨h.fresh_eq, hnew⟩

/-- What is made of one more state may rely on which state it is. -/
theorem HoldsFit.newState?_bind (h : g.HoldsFit n) {α β : Type} {R : α → β → Prop}
    {f : State × NfaGraph C σ → Except Misuse α} {k : State × Nfa σ → Except Misuse β}
    (hnext : ∀ g', g'.HoldsFit n.addState →
      SameResult R (f (n.fresh, g')) (k (n.fresh, n.addState))) :
    SameResult R (g.newState? >>= f) (n.addState? >>= k) := by
  refine (h.newState?.and fun _ hx => (Nfa.addState?_eq_ok_iff.1 hx).2).bind ?_
  rintro ⟨q, g'⟩ ⟨-, m⟩ ⟨⟨rfl, h'⟩, rfl, rfl⟩
  exact hnext g' h'

omit [Ord σ] in
theorem mem_nodes_setLabels {a : Arrow} {ls : List (Label σ)}
    (ha : a.1 ∈ C.nodes g.graph ∧ a.2 ∈ C.nodes g.graph) :
    q ∈ C.nodes (g.setLabels a ls).graph ↔ q ∈ C.nodes g.graph := by
  unfold setLabels
  split
  · exact C.mem_nodes_removeArrow _ _ _
  · have hends : ∀ x ∈ [(a, ls)], x.1.1 ∈ C.nodes g.graph ∧ x.1.2 ∈ C.nodes g.graph :=
      List.forall_mem_singleton.2 ha
    exact GraphMap.mem_nodes_putAll hends

omit [Ord σ] in
theorem value?_setLabels {a : Arrow} {ls : List (Label σ)} (b : Arrow) :
    C.value? (g.setLabels a ls).graph b =
      if b = a then (if ls.isEmpty then none else some ls) else C.value? g.graph b := by
  unfold setLabels
  split
  · exact C.value?_removeArrow _ _ _
  · exact C.value?_put _ _ _ _

section Lawful

variable [DecidableEq σ] [Std.TransOrd σ] [Std.LawfulEqOrd σ]

omit [Std.TransOrd σ] [Std.LawfulEqOrd σ] in
/-- A label is taken out of its set, and a set that gets empty is not kept. -/
theorem Holds.removeEdge (h : g.Holds n) (e : Edge (Label σ)) :
    (g.removeEdge e).1 = n.hasEdge e ∧ (g.removeEdge e).2.Holds (n.removeEdge e) := by
  have hother : ∀ p q, (p, q) ≠ e.ends →
      C.value? g.graph (p, q) = (n.removeEdge e).labelSet? p q := fun p q hne => by
    rw [h.value?_eq, Nfa.labelSet?_removeEdge_of_ne hne]
  have hset : (n.removeEdge e).labelSet? e.source e.target =
      (C.value? g.graph e.ends).bind fun ls =>
        let rest := ls.filter (· ≠ e.label)
        if rest.isEmpty then none else some rest :=
    Nfa.labelSet?_removeEdge_self.trans (by rw [← h.value?_eq]; rfl)
  have hedge : e ∈ n.edges ↔ ∃ ls, C.value? g.graph e.ends = some ls ∧ e.label ∈ ls :=
    h.mem_labels.symm.trans NfaGraph.mem_labels
  unfold NfaGraph.removeEdge
  cases hls : C.value? g.graph e.ends with
  | none =>
    rw [hls] at hset hedge
    refine ⟨(decide_eq_false fun he => ?_).symm, ?_⟩
    · obtain ⟨ls, hsome, -⟩ := hedge.1 he
      cases hsome
    · refine { h with wellFormed := h.wellFormed.removeEdge e, value?_eq := fun p q => ?_ }
      by_cases hends : (p, q) = e.ends
      · obtain ⟨rfl, rfl⟩ := Prod.mk.inj hends
        exact hls.trans hset.symm
      · exact hother p q hends
  | some ls =>
    rw [hls] at hset hedge
    have hmem : e.label ∈ ls ↔ e ∈ n.edges :=
      ⟨fun hl => hedge.2 ⟨ls, rfl, hl⟩, fun he => by
        obtain ⟨ls', hsome, hl⟩ := hedge.1 he
        exact Option.some.inj hsome ▸ hl⟩
    refine ⟨decide_eq_decide.2 hmem, { h with
      wellFormed := h.wellFormed.removeEdge e
      mem_nodes := fun q => (mem_nodes_setLabels (C.ends_mem _ _ _ hls)).trans (h.mem_nodes q)
      value?_eq := fun p q => (value?_setLabels _).trans ?_ }⟩
    by_cases hends : (p, q) = e.ends
    · obtain ⟨rfl, rfl⟩ := Prod.mk.inj hends
      rw [if_pos hends]
      exact hset.symm
    · rw [if_neg hends]
      exact hother p q hends

theorem HoldsFit.addEdge? (h : g.HoldsFit n) (e : Edge (Label σ)) :
    SameResult HoldsWith (g.addEdge? e) (n.addEdge? e) := by
  unfold NfaGraph.addEdge? Nfa.addEdge?
  rw [h.requireState_eq, h.requireState_eq]
  exact sameResult_requireState fun hs => sameResult_requireState fun ht =>
    .ok ⟨congrArg (!·) (h.hasEdge_eq e), h.addEdge hs ht, h.fits⟩

theorem HoldsFit.addEdges? (h : g.HoldsFit n) (es : List (Edge (Label σ))) :
    SameResult HoldsFit (g.addEdges? es) (es.foldlM (fun n e => Prod.snd <$> n.addEdge? e) n) :=
  SameResult.foldlM (fun _ _ h e _ => SameResult.map (h.addEdge? e) fun _ _ h => h.2) h

/-- Transitions between states can be added. -/
theorem HoldsFit.exists_addEdges? (h : g.HoldsFit n)
    (hends : ∀ e ∈ es, e.source ∈ n.states ∧ e.target ∈ n.states) :
    ∃ g', g.addEdges? es = .ok g' ∧ g'.HoldsFit (n.addEdges es) :=
  (h.addEdges? es).exists_of_eq_ok (h.wellFormed.foldlM_addEdge?_eq_ok hends)

theorem HoldsFit.exists_addEdge? (h : g.HoldsFit n) (e : Edge (Label σ)) (hs : e.source ∈ n.states)
    (ht : e.target ∈ n.states) :
    ∃ g', g.addEdges? [e] = .ok g' ∧ g'.HoldsFit (n.addEdges [e]) :=
  h.exists_addEdges? (List.forall_mem_singleton.2 ⟨hs, ht⟩)

theorem HoldsFit.follow? (h : g.HoldsFit n) (al : Alignment σ) :
    SameResult HoldsFit (g.follow? al) (n.follow? al) := by
  unfold NfaGraph.follow?
  rw [h.listing_eq]
  exact h.addEdges? _

omit [DecidableEq σ] in
/-- The transitions that take the place of the paths through a state are the same. -/
theorem Holds.rerouted_eq (h : g.Holds n) (c : Combiner σ) (q : State) :
    g.rerouted c q = n.rerouted c.path q := by
  unfold NfaGraph.rerouted Nfa.rerouted
  rw [h.entering_eq, h.leavingEdges_eq, h.loopLetters_eq]

theorem HoldsFit.attemptRip? (h : g.HoldsFit n) (c : Combiner σ) (safe : Bool) (q : State) :
    SameResult HoldsWith (g.attemptRip? c safe q) (n.attemptRip? c safe q) := by
  have hrerouted : g.rerouted (if safe then { c with path := Nfa.eitherLabel } else c) q =
      n.rerouted (if safe then Nfa.eitherLabel else c.path) q := by
    rw [h.rerouted_eq]
    cases safe <;> rfl
  unfold NfaGraph.attemptRip? Nfa.attemptRip?
  rw [h.requireInner_eq, h.entering_eq, h.leavingEdges_eq, h.loopLetters_eq]
  simp only [hrerouted]
  refine sameResult_requireInner fun hs hf => ?_
  have hremoved : (g.removeState q).HoldsFit (n.removeState q) :=
    ⟨h.toHolds.removeState hs hf, h.fits⟩
  split
  · exact .ok ⟨rfl, h⟩
  · exact (hremoved.addEdges? _).bind fun _ _ hnew => .ok ⟨rfl, hnew⟩

/-! ## Constructions -/

/-- The numbers are handed out in order, as long as there are any. -/
theorem mapM_ofIndex_range (count : Nat) : (List.range count).mapM State.ofIndex =
    if count ≤ stateLimit then .ok (List.range count) else .error (.stateOutOfRange stateLimit) := by
  induction count with
  | zero => rfl
  | succ count ih =>
    rw [List.range_succ, List.mapM_append, ih]
    by_cases hle : count ≤ stateLimit
    · rw [if_pos hle]
      show (do let qs ← [count].mapM State.ofIndex; return List.range count ++ qs) = _
      rw [List.mapM_cons, State.ofIndex]
      by_cases hlt : count < stateLimit
      · rw [if_pos hlt, if_pos (Nat.succ_le_of_lt hlt)]
        rfl
      · rw [if_neg hlt, if_neg (mt Nat.lt_of_succ_le hlt), Nat.le_antisymm hle (Nat.not_lt.1 hlt)]
        rfl
    · rw [if_neg hle, if_neg (mt Nat.le_of_succ_le hle)]
      rfl

omit [DecidableEq σ] in
theorem exists_ofCount? (C : GraphMap) (alphabet : List σ) {count : Nat} {start final : State}
    (hs : start < count) (hf : final < count) (hlimit : count ≤ stateLimit) :
    ∃ g, ofCount? C alphabet count start final = .ok g ∧
      g.HoldsFit (Nfa.ofCount alphabet count start final) := by
  have hmem : ∀ q, q ∈ C.nodes (C.addNodes (C.empty : C.Graph (List (Label σ))) (List.range count)) ↔
      q ∈ List.range count := fun q =>
    GraphMap.mem_nodes_addNodes.trans (or_iff_left (C.mem_nodes_empty q))
  have hholds : ({ graph := C.addNodes C.empty (List.range count)
                   alphabet := Ascending.ofList alphabet
                   start := start, final := final, fresh := count } : NfaGraph C σ).HoldsFit
      (Nfa.ofCount alphabet count start final) :=
    { wellFormed := Nfa.wellFormed_ofCount hs hf
      mem_nodes := hmem
      value?_eq := fun p q => GraphMap.value?_addNodes.trans (C.value?_empty _)
      alphabet_eq := rfl
      start_eq := rfl
      final_eq := rfl
      fresh_eq := rfl
      fits := hlimit }
  refine ⟨_, ?_, hholds⟩
  unfold ofCount?
  rw [mapM_ofIndex_range, if_pos hlimit]
  show (do NfaGraph.requireState _ start; NfaGraph.requireState _ final; return _) = _
  rw [hholds.requireState_eq, hholds.requireState_eq]
  exact Nfa.requireState_bind_eq_ok_iff.2 ⟨List.mem_range.2 hs,
    Nfa.requireState_bind_eq_ok_iff.2 ⟨List.mem_range.2 hf, rfl⟩⟩

omit [DecidableEq σ] in
theorem exists_nothing? (C : GraphMap) (alphabet : List σ) :
    ∃ g, nothing? C alphabet = .ok g ∧ g.HoldsFit (Nfa.nothing alphabet) :=
  exists_ofCount? C alphabet Nat.zero_lt_two Nat.one_lt_two (by decide)

omit [DecidableEq σ] in
theorem exists_emptyWord? (C : GraphMap) (alphabet : List σ) :
    ∃ g, emptyWord? C alphabet = .ok g ∧ g.HoldsFit (Nfa.emptyWord alphabet) :=
  exists_ofCount? C alphabet Nat.one_pos Nat.one_pos (by decide)

theorem exists_literal? (C : GraphMap) (a : σ) :
    ∃ g, literal? C a = .ok g ∧ g.HoldsFit (Nfa.literal a) := by
  have hliteral : (Nfa.nothing [a]).addEdges [⟨0, .symbol a, 1⟩] = Nfa.literal a := by
    unfold Nfa.addEdges Nfa.literal
    congr 1
    exact Ascending.insert_eq_self (List.pairwise_singleton _ _) (List.mem_singleton.2 rfl)
  obtain ⟨g, hg, hholds⟩ := exists_nothing? C [a]
  obtain ⟨g', hg', hholds'⟩ := hholds.exists_addEdge? ⟨0, .symbol a, 1⟩
    (List.mem_range.2 Nat.zero_lt_two) (List.mem_range.2 Nat.one_lt_two)
  refine ⟨g', ?_, hliteral ▸ hholds'⟩
  unfold literal?
  rw [hg]
  show g.addEdges? [⟨g.start, .symbol a, g.final⟩] = _
  rw [hholds.start_eq, hholds.final_eq]
  exact hg'

/-- A deterministic automaton can be lifted unless its states use up all numbers. -/
theorem ofDfa?_spec (C : GraphMap) {d : Dfa σ} (hd : d.WellFormed) :
    if d.stateCount < stateLimit then ∃ g, ofDfa? C d = .ok g ∧ g.HoldsFit d.toNfa
    else ofDfa? C d = .error (.stateOutOfRange d.stateCount) := by
  unfold ofDfa? State.ofIndex
  split
  · rename_i hroom
    obtain ⟨g, hg, hholds⟩ := exists_ofCount? C d.alphabet (Nat.lt_succ_of_lt hd.start_lt)
      (Nat.lt_succ_self d.stateCount) (Nat.succ_le_of_lt hroom)
    rw [hd.toNfa_eq_addEdges]
    obtain ⟨g', hg', hholds'⟩ := hholds.exists_addEdges? hd.ends_mem_bare
    refine ⟨g', ?_, hholds'⟩
    show (do let g ← ofCount? C d.alphabet (d.stateCount + 1) d.start d.stateCount; _) = _
    rw [hg]
    exact hg'
  · rfl

end Lawful

end Kleene.NfaGraph
