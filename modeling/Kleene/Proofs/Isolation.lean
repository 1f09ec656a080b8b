import Kleene.Proofs.Paths
import Kleene.Proofs.WellFormed

/-!
# Isolated terminals

Before automata are joined or states are ruled out, start and final state are set apart:
nothing leads into the start state and nothing out of the final state.  Isolating the terminals
of an automaton changes no word of its language, whatever the letters mean.
-/

namespace Kleene.Nfa

variable {σ α : Type} {m : Label σ → Language α}

/-- Start and final state are different, nothing leads into the start state and nothing out of
the final state. -/
structure Isolated (n : Nfa σ) : Prop where
  start_ne_final : n.start ≠ n.final
  not_into_start : ∀ p l, ⟨p, l, n.start⟩ ∉ n.edges
  not_out_of_final : ∀ l q, ⟨n.final, l, q⟩ ∉ n.edges

theorem isEmpty_incoming {n : Nfa σ} {q : State} :
    (n.incoming q).isEmpty = true ↔ ∀ p l, ⟨p, l, q⟩ ∉ n.edges := by
  rw [List.isEmpty_iff, incoming, List.filter_eq_nil_iff]
  constructor
  · intro h p l he
    exact h _ he (by simp)
  · intro h e he hr
    rw [← of_decide_eq_true hr] at h
    exact h e.source e.label he

theorem isEmpty_outgoing {n : Nfa σ} {q : State} :
    (n.outgoing q).isEmpty = true ↔ ∀ l r, ⟨q, l, r⟩ ∉ n.edges := by
  rw [List.isEmpty_iff, outgoing, List.filter_eq_nil_iff]
  constructor
  · intro h l r he
    exact h _ he (by simp)
  · intro h e he hp
    rw [← of_decide_eq_true hp] at h
    exact h e.label e.target he

variable [Ord σ] {n : Nfa σ}

/-- The automaton with a new start state in front. -/
def withNewStart (n : Nfa σ) : Nfa σ :=
  { n.addState.addEdges [epsilonEdge n.fresh n.start] with start := n.fresh }

/-- The automaton with a new final state behind. -/
def withNewFinal (n : Nfa σ) : Nfa σ :=
  { n.addState.addEdges [epsilonEdge n.final n.fresh] with final := n.fresh }

theorem isolateStart_eq (n : Nfa σ) : n.isolateStart = n.withNewStart ∨
    n.isolateStart = n ∧ n.start ≠ n.final ∧ ∀ p l, ⟨p, l, n.start⟩ ∉ n.edges := by
  unfold isolateStart
  split
  · exact .inl rfl
  · rename_i h
    simp only [Bool.or_eq_true, decide_eq_true_eq, Bool.not_eq_true', not_or,
      Bool.not_eq_false] at h
    exact .inr ⟨rfl, h.1, isEmpty_incoming.1 h.2⟩

theorem isolateFinal_eq (n : Nfa σ) : n.isolateFinal = n.withNewFinal ∨
    n.isolateFinal = n ∧ ∀ l q, ⟨n.final, l, q⟩ ∉ n.edges := by
  unfold isolateFinal
  split
  · exact .inl rfl
  · rename_i h
    rw [Bool.not_eq_true', Bool.not_eq_false] at h
    exact .inr ⟨rfl, isEmpty_outgoing.1 h⟩

theorem fresh_le_isolateStart (n : Nfa σ) : n.fresh ≤ n.isolateStart.fresh := by
  rcases isolateStart_eq n with he | ⟨he, -⟩ <;> rw [he]
  exact Nat.le_succ _

theorem fresh_le_isolateFinal (n : Nfa σ) : n.fresh ≤ n.isolateFinal.fresh := by
  rcases isolateFinal_eq n with he | ⟨he, -⟩ <;> rw [he]
  exact Nat.le_succ _

/-! ## A new start state -/

section NewStart

variable [Std.LawfulEqOrd σ]

theorem mem_edges_withNewStart {e : Edge (Label σ)} :
    e ∈ n.withNewStart.edges ↔ e = epsilonEdge n.fresh n.start ∨ e ∈ n.edges := by
  unfold withNewStart
  rw [mem_addEdges, List.mem_singleton]
  rfl

theorem WellFormed.withNewStart [Std.TransOrd σ] (h : n.WellFormed) :
    n.withNewStart.WellFormed := by
  have hfresh : n.fresh ∈ n.addState.states := mem_addState.2 (.inl rfl)
  refine (h.addState.addEdges ?_).withTerminals hfresh (mem_addState.2 (.inr h.final_mem))
  intro p l q he
  rcases Edge.mk.inj (List.mem_singleton.1 he) with ⟨rfl, -, rfl⟩
  exact ⟨hfresh, mem_addState.2 (.inr h.start_mem)⟩

-- The new start state is isolated from the rest.
theorem WellFormed.withNewStart_isolated (h : n.WellFormed) :
    n.withNewStart.start ≠ n.withNewStart.final ∧
      ∀ p l, ⟨p, l, n.withNewStart.start⟩ ∉ n.withNewStart.edges := by
  have hne : n.fresh ≠ n.final := fun he => h.fresh_notMem (he ▸ h.final_mem)
  refine ⟨hne, fun p l he => ?_⟩
  rcases mem_edges_withNewStart.1 he with he | he
  · have hstart : n.fresh = n.start := (Edge.mk.inj he).2.2
    exact h.fresh_notMem (hstart ▸ h.start_mem)
  · exact h.fresh_notMem (h.target_mem _ _ _ he)

-- A path from an old state to the final state does not use the new start state.
theorem WellFormed.path_of_withNewStart (h : n.WellFormed) {p : State} {w : List α}
    (hp : p ∈ n.states) (hw : Path m n.withNewStart.edges p n.final w) :
    Path m n.edges p n.final w := by
  refine hw.backward (R := fun p w => p ∈ n.states → Path m n.edges p n.final w)
    (fun _ => .nil _) ?_ hp
  intro p l r he u hu v _ ih hp
  rcases mem_edges_withNewStart.1 he with he | he
  · exact absurd ((Edge.mk.inj he).1 ▸ hp) h.fresh_notMem
  · exact .cons he hu (ih (h.target_mem _ _ _ he))

theorem WellFormed.languageUnder_withNewStart (h : n.WellFormed) (hm : m .epsilon = 1) :
    n.withNewStart.languageUnder m = n.languageUnder m := by
  ext w
  rw [mem_languageUnder_iff, mem_languageUnder_iff]
  constructor
  · intro hw
    rcases hw.eq_or_exists_edge with ⟨heq, -⟩ | ⟨l, r, u, v, he, hu, rfl, hv⟩
    · exact absurd heq h.withNewStart_isolated.1
    · -- only the new transition leaves the new start state
      rcases mem_edges_withNewStart.1 he with he | he
      · rcases Edge.mk.inj he with ⟨-, rfl, rfl⟩
        rw [hm, Language.mem_one] at hu
        subst hu
        exact h.path_of_withNewStart h.start_mem hv
      · exact absurd (h.source_mem _ _ _ he) h.fresh_notMem
  · intro hw
    have hstart : Path m n.withNewStart.edges n.fresh n.start [] :=
      .single (mem_edges_withNewStart.2 (.inl rfl)) (hm ▸ Language.nil_mem_one)
    exact hstart.append (hw.mono fun e he => mem_edges_withNewStart.2 (.inr he))

end NewStart

/-! ## A new final state -/

section NewFinal

variable [Std.LawfulEqOrd σ]

theorem mem_edges_withNewFinal {e : Edge (Label σ)} :
    e ∈ n.withNewFinal.edges ↔ e = epsilonEdge n.final n.fresh ∨ e ∈ n.edges := by
  unfold withNewFinal
  rw [mem_addEdges, List.mem_singleton]
  rfl

theorem WellFormed.withNewFinal [Std.TransOrd σ] (h : n.WellFormed) :
    n.withNewFinal.WellFormed := by
  have hfresh : n.fresh ∈ n.addState.states := mem_addState.2 (.inl rfl)
  refine (h.addState.addEdges ?_).withTerminals (mem_addState.2 (.inr h.start_mem)) hfresh
  intro p l q he
  rcases Edge.mk.inj (List.mem_singleton.1 he) with ⟨rfl, -, rfl⟩
  exact ⟨mem_addState.2 (.inr h.final_mem), hfresh⟩

-- Nothing leaves the new final state.
theorem WellFormed.withNewFinal_isolated (h : n.WellFormed) (l : Label σ) (q : State) :
    ⟨n.fresh, l, q⟩ ∉ n.withNewFinal.edges := by
  intro he
  rcases mem_edges_withNewFinal.1 he with he | he
  · exact h.fresh_notMem ((Edge.mk.inj he).1 ▸ h.final_mem)
  · exact h.fresh_notMem (h.source_mem _ _ _ he)

theorem WellFormed.languageUnder_withNewFinal (h : n.WellFormed) (hm : m .epsilon = 1) :
    n.withNewFinal.languageUnder m = n.languageUnder m := by
  ext w
  rw [mem_languageUnder_iff, mem_languageUnder_iff]
  constructor
  · intro hw
    refine hw.backward (R := fun p w => p ∈ n.states → Path m n.edges p n.final w)
      (fun hp => absurd hp h.fresh_notMem) ?_ h.start_mem
    intro p l r he u hu v hv ih hp
    rcases mem_edges_withNewFinal.1 he with he | he
    · -- the new transition leads to the end of the path
      rcases Edge.mk.inj he with ⟨rfl, rfl, rfl⟩
      rw [hm, Language.mem_one] at hu
      rcases hv.eq_of_no_edges h.withNewFinal_isolated with ⟨-, rfl⟩
      rw [hu]
      exact .nil _
    · exact .cons he hu (ih (h.target_mem _ _ _ he))
  · intro hw
    have hfinal : Path m n.withNewFinal.edges n.final n.fresh [] :=
      .single (mem_edges_withNewFinal.2 (.inl rfl)) (hm ▸ Language.nil_mem_one)
    have h := Path.append (hw.mono fun e he => mem_edges_withNewFinal.2 (.inr he)) hfinal
    rwa [List.append_nil] at h

end NewFinal

/-! ## Both -/

section Both

variable [Std.LawfulEqOrd σ]

theorem WellFormed.isolateStart [Std.TransOrd σ] (h : n.WellFormed) :
    n.isolateStart.WellFormed := by
  rcases isolateStart_eq n with he | ⟨he, -⟩ <;> rw [he]
  · exact h.withNewStart
  · exact h

theorem WellFormed.isolateFinal [Std.TransOrd σ] (h : n.WellFormed) :
    n.isolateFinal.WellFormed := by
  rcases isolateFinal_eq n with he | ⟨he, -⟩ <;> rw [he]
  · exact h.withNewFinal
  · exact h

/-- Isolating the terminals keeps an automaton well formed. -/
theorem WellFormed.isolate [Std.TransOrd σ] (h : n.WellFormed) : n.isolate.WellFormed :=
  h.isolateStart.isolateFinal

theorem WellFormed.isolateStart_isolated (h : n.WellFormed) :
    n.isolateStart.start ≠ n.isolateStart.final ∧
      ∀ p l, ⟨p, l, n.isolateStart.start⟩ ∉ n.isolateStart.edges := by
  rcases isolateStart_eq n with he | ⟨he, hs⟩ <;> rw [he]
  · exact h.withNewStart_isolated
  · exact hs

-- A new final state leaves an isolated start state isolated.
theorem WellFormed.isolateFinal_isolated (h : n.WellFormed) (hne : n.start ≠ n.final)
    (hinto : ∀ p l, ⟨p, l, n.start⟩ ∉ n.edges) : n.isolateFinal.Isolated := by
  rcases isolateFinal_eq n with he | ⟨he, hout⟩ <;> rw [he]
  · have hfresh : n.start ≠ n.fresh := fun heq => h.fresh_notMem (heq ▸ h.start_mem)
    refine ⟨hfresh, fun p l hmem => ?_, h.withNewFinal_isolated⟩
    rcases mem_edges_withNewFinal.1 hmem with hmem | hmem
    · exact hfresh (Edge.mk.inj hmem).2.2
    · exact hinto p l hmem
  · exact ⟨hne, hinto, hout⟩

/-- Isolating the terminals isolates them. -/
theorem WellFormed.isolated_isolate [Std.TransOrd σ] (h : n.WellFormed) : n.isolate.Isolated :=
  h.isolateStart.isolateFinal_isolated h.isolateStart_isolated.1 h.isolateStart_isolated.2

theorem WellFormed.languageUnder_isolateStart (h : n.WellFormed) (hm : m .epsilon = 1) :
    n.isolateStart.languageUnder m = n.languageUnder m := by
  rcases isolateStart_eq n with he | ⟨he, -⟩ <;> rw [he]
  exact h.languageUnder_withNewStart hm

theorem WellFormed.languageUnder_isolateFinal (h : n.WellFormed) (hm : m .epsilon = 1) :
    n.isolateFinal.languageUnder m = n.languageUnder m := by
  rcases isolateFinal_eq n with he | ⟨he, -⟩ <;> rw [he]
  exact h.languageUnder_withNewFinal hm

theorem WellFormed.languageUnder_isolate [Std.TransOrd σ] (h : n.WellFormed)
    (hm : m .epsilon = 1) : n.isolate.languageUnder m = n.languageUnder m :=
  (h.isolateStart.languageUnder_isolateFinal hm).trans (h.languageUnder_isolateStart hm)

/-- A property of labels that ε has is kept, because the new transitions carry ε. -/
theorem good_isolate {good : Label σ → Prop} (hgood : good .epsilon)
    (h : ∀ e ∈ n.edges, good e.label) : ∀ e ∈ n.isolate.edges, good e.label := by
  have hstart : ∀ e ∈ n.isolateStart.edges, good e.label := by
    intro e he
    rcases isolateStart_eq n with heq | ⟨heq, -⟩ <;> rw [heq] at he
    · rcases mem_edges_withNewStart.1 he with rfl | he
      · exact hgood
      · exact h e he
    · exact h e he
  intro e he
  unfold isolate at he
  rcases isolateFinal_eq n.isolateStart with heq | ⟨heq, -⟩ <;> rw [heq] at he
  · rcases mem_edges_withNewFinal.1 he with rfl | he
    · exact hgood
    · exact hstart e he
  · exact hstart e he

/-- Isolating the terminals changes no word of the language. -/
theorem WellFormed.language_isolate [Std.TransOrd σ] (h : n.WellFormed) :
    n.isolate.language = n.language := h.languageUnder_isolate rfl

end Both

end Kleene.Nfa
