import Kleene.Proofs.ContainerChanges

/-!
# Elimination in a container

The elimination of states takes the same steps in a container as on the automaton that it holds: the
same state is next, its rip costs the same and the labels come out the same.  So the synthesized
expression is the same, or identifiers run out in both.
-/

namespace Kleene

namespace Nfa

variable {σ τ : Type} [Ord σ] {n : Nfa σ}

/-- The terminals are isolated one after the other, and each time an identifier may be missing. -/
theorem isolate?_eq_bind (n : Nfa σ) :
    n.isolate? = n.isolateStart.fit >>= fun m => m.isolateFinal.fit := by
  unfold isolate? fit
  by_cases hstart : n.isolateStart.fresh ≤ stateLimit
  · rw [if_pos hstart]
    rfl
  · have hisolate : ¬n.isolate.fresh ≤ stateLimit := fun hle => hstart
      (Nat.le_trans n.isolateStart.fresh_le_isolateFinal hle)
    rw [if_neg hstart, if_neg hisolate]
    rfl

theorem fresh_isolateStart (n : Nfa σ) : n.isolateStart.fresh =
    n.fresh + if n.start = n.final || !(n.incoming n.start).isEmpty then 1 else 0 := by
  unfold isolateStart
  split <;> rfl

theorem fresh_isolateFinal (n : Nfa σ) : n.isolateFinal.fresh =
    n.fresh + if !(n.outgoing n.final).isEmpty then 1 else 0 := by
  unfold isolateFinal
  split <;> rfl

variable [Std.LawfulEqOrd σ]

/-- A new start state leaves the transitions out of the final state as they are. -/
theorem WellFormed.isEmpty_outgoing_isolateStart (h : n.WellFormed) :
    (n.isolateStart.outgoing n.isolateStart.final).isEmpty = (n.outgoing n.final).isEmpty := by
  obtain heq | ⟨heq, -⟩ := isolateStart_eq n <;> rw [heq]
  have hne : n.final ≠ n.fresh := fun he => h.fresh_notMem (he ▸ h.final_mem)
  rw [Bool.eq_iff_iff, isEmpty_outgoing, isEmpty_outgoing]
  refine forall_congr' fun l => forall_congr' fun q => not_congr (mem_edges_withNewStart.trans ?_)
  exact or_iff_right fun he => hne (congrArg Edge.source he)

theorem WellFormed.fresh_isolate (h : n.WellFormed) : n.isolate.fresh =
    n.fresh + (if n.start = n.final || !(n.incoming n.start).isEmpty then 1 else 0) +
      (if !(n.outgoing n.final).isEmpty then 1 else 0) := by
  rw [Nfa.isolate, fresh_isolateFinal, h.isEmpty_outgoing_isolateStart, fresh_isolateStart]

variable [Ord τ] [Std.LawfulEqOrd τ]

/-- How many identifiers the isolation takes does not depend on the letters. -/
theorem WellFormed.fresh_isolate_mapLetters [Std.TransOrd τ] (h : n.WellFormed) (f : σ → τ) :
    (n.mapLetters f).isolate.fresh = n.isolate.fresh := by
  have hincoming : ((n.mapLetters f).incoming n.start).isEmpty = (n.incoming n.start).isEmpty := by
    rw [Bool.eq_iff_iff, isEmpty_incoming, isEmpty_incoming]
    refine forall_congr' fun p => ⟨fun hnone l he => ?_, fun hnone l he => ?_⟩
    · exact hnone (l.map f) (mem_edges_mapLetters.2 ⟨l, he, rfl⟩)
    · obtain ⟨l', he', -⟩ := mem_edges_mapLetters.1 he
      exact hnone l' he'
  have houtgoing : ((n.mapLetters f).outgoing n.final).isEmpty = (n.outgoing n.final).isEmpty := by
    rw [Bool.eq_iff_iff, isEmpty_outgoing, isEmpty_outgoing]
    refine ⟨fun hnone l q he => ?_, fun hnone l q he => ?_⟩
    · exact hnone (l.map f) q (mem_edges_mapLetters.2 ⟨l, he, rfl⟩)
    · obtain ⟨l', he', -⟩ := mem_edges_mapLetters.1 he
      exact hnone l' q he'
  rw [h.fresh_isolate, (h.mapLetters f).fresh_isolate]
  show n.fresh +
    (if n.start = n.final || !((n.mapLetters f).incoming n.start).isEmpty then 1 else 0) +
    (if !((n.mapLetters f).outgoing n.final).isEmpty then 1 else 0) = _
  rw [hincoming, houtgoing]

end Nfa

namespace NfaGraph

variable {C : GraphMap} {σ : Type} [Ord σ] {g : NfaGraph C σ} {n : Nfa σ}

/-- The container holds an automaton whose identifiers lie below the limit. -/
structure HoldsFit (g : NfaGraph C σ) (n : Nfa σ) : Prop extends g.Holds n where
  fits : n.fresh ≤ stateLimit

variable [Std.TransOrd σ] [Std.LawfulEqOrd σ]

omit [Std.TransOrd σ] [Std.LawfulEqOrd σ] in
/-- What is made of one more state is made if there is an identifier for that state. -/
theorem HoldsFit.grown (h : g.HoldsFit n) {k : NfaGraph C σ → NfaGraph C σ} {m : Nfa σ}
    (hm : (k g.addState).Holds m) (hfresh : m.fresh = n.fresh + 1) :
    SameResult HoldsFit (do let new ← g.addState?; return k new) m.fit := by
  unfold NfaGraph.addState? Nfa.fit
  rw [h.fresh_eq, hfresh]
  by_cases hroom : n.fresh < stateLimit
  · have hfits : m.fresh ≤ stateLimit := hfresh ▸ hroom
    rw [if_pos hroom, if_pos (show n.fresh + 1 ≤ stateLimit from hroom)]
    exact .ok ⟨hm, hfits⟩
  · rw [if_neg hroom, if_neg (show ¬n.fresh + 1 ≤ stateLimit from hroom)]
    exact .error _

theorem HoldsFit.isolateStart? (h : g.HoldsFit n) :
    SameResult HoldsFit g.isolateStart? n.isolateStart.fit := by
  have hcondition : (decide (g.start = g.final) || g.hasIncoming g.start) =
      (decide (n.start = n.final) || !(n.incoming n.start).isEmpty) := by
    rw [h.hasIncoming_eq, h.start_eq, h.final_eq]
  unfold NfaGraph.isolateStart? Nfa.isolateStart
  rw [hcondition]
  split
  · exact h.grown (k := fun new =>
      { new.addEdge (Nfa.epsilonEdge g.fresh g.start) with start := g.fresh }) h.withNewStart rfl
  · rw [Nfa.fit, if_pos h.fits]
    exact .ok h

theorem HoldsFit.isolateFinal? (h : g.HoldsFit n) :
    SameResult HoldsFit g.isolateFinal? n.isolateFinal.fit := by
  have hcondition : g.hasOutgoing g.final = !(n.outgoing n.final).isEmpty := by
    rw [h.hasOutgoing_eq, h.final_eq]
  unfold NfaGraph.isolateFinal? Nfa.isolateFinal
  rw [hcondition]
  split
  · exact h.grown (k := fun new =>
      { new.addEdge (Nfa.epsilonEdge g.final g.fresh) with final := g.fresh }) h.withNewFinal rfl
  · rw [Nfa.fit, if_pos h.fits]
    exact .ok h

theorem HoldsFit.isolate? (h : g.HoldsFit n) : SameResult HoldsFit g.isolate? n.isolate? := by
  rw [Nfa.isolate?_eq_bind]
  exact h.isolateStart?.bind fun _ _ hfront => hfront.isolateFinal?

theorem Holds.ripAndMerge (h : g.Holds n) {c : Combiner σ} {order : EliminationOrder} {q : State}
    (hnext : n.nextInner? c order = some q) : (g.ripAndMerge c q).Holds (n.ripAndMerge c q) := by
  obtain ⟨-, hs, hf⟩ := Nfa.mem_innerStates.1 (Nfa.mem_innerStates_of_nextInner? hnext)
  exact (h.rip hs hf).unionEdges

/-- State by state, the same one is ripped out next. -/
theorem Holds.ripAll? (h : g.Holds n) (c : Combiner σ) (order : EliminationOrder) :
    SameResult Holds (g.ripAll? c order) (n.ripAll? c order) := by
  fun_induction Nfa.ripAll? c order n generalizing g with
  | case1 n hnext =>
    unfold NfaGraph.ripAll?
    split
    · exact .ok h
    · rename_i q hsome
      rw [h.nextInner?_eq, hnext] at hsome
      cases hsome
  | case2 n q hnext ih =>
    unfold NfaGraph.ripAll?
    split
    · rename_i hnone
      rw [h.nextInner?_eq, hnext] at hnone
      cases hnone
    · rename_i q' hsome
      rw [h.nextInner?_eq, hnext] at hsome
      obtain rfl := Option.some.inj hsome
      rw [h.requireInner_eq]
      cases n.requireInner q with
      | error misuse => exact .error misuse
      | ok _ => exact ih (h.ripAndMerge hnext)

theorem HoldsFit.eliminate? (h : g.HoldsFit n) (c : Combiner σ) (order : EliminationOrder) :
    SameResult Holds (g.eliminate? c order) (n.eliminate? c order) :=
  h.isolate?.bind fun _ _ hisolated =>
    (hisolated.unionEdges.ripAll? c order).bind fun _ _ hlast => .ok hlast.renumber

theorem HoldsFit.expression?_eq (h : g.HoldsFit n) (c : Combiner σ) (order : EliminationOrder) :
    g.expression? c order = n.expression? c order :=
  SameResult.eq ((h.eliminate? c order).bind fun g' n' h' => .ok <| by
    rw [h'.labels_eq, h'.start_eq, h'.final_eq])

/-! ## Synthesis -/

omit [Std.TransOrd σ] [Std.LawfulEqOrd σ] in
theorem HoldsFit.mapLetters {τ : Type} [Ord τ] [Std.TransOrd τ] [Std.LawfulEqOrd τ]
    (h : g.HoldsFit n) (f : σ → τ) : (g.mapLetters f).HoldsFit (n.mapLetters f) :=
  ⟨h.toHolds.mapLetters f, h.fits⟩

theorem HoldsFit.synthesize?_eq [DecidableEq σ] (h : g.HoldsFit n) (order : EliminationOrder) :
    g.synthesize? order = n.synthesize? order := by
  unfold NfaGraph.synthesize? Nfa.synthesize?
  rw [(h.mapLetters _).expression?_eq, Nfa.expression?_eq, Nfa.requireIsolable_bind,
    h.wellFormed.fresh_isolate_mapLetters]
  split <;> rfl

omit [Std.TransOrd σ] in
theorem HoldsFit.synthesizeText?_eq [ToString σ] (h : g.HoldsFit n) (order : EliminationOrder) :
    g.synthesizeText? order = n.synthesizeText? order := by
  unfold NfaGraph.synthesizeText? Nfa.synthesizeText?
  rw [(h.mapLetters _).expression?_eq, Nfa.expression?_eq, Nfa.requireIsolable_bind,
    h.wellFormed.fresh_isolate_mapLetters]
  split <;> rfl

end NfaGraph

end Kleene
