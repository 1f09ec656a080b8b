import Kleene.Proofs.CheckedMinimization
import Kleene.Proofs.Completion

/-!
# Traps

A marked trap promises that no accepting state can be reached from it.  Every construction marks
only states that keep the promise, but an automaton can be changed afterwards, and a change looks
only at the marks of the states that it names: a state that becomes accepting loses its own mark,
and a new transition takes no mark away.  A change breaks the promise exactly if a trap that stays
marked gets a way to an accepting state.
-/

namespace Kleene.Dfa

variable {σ : Type} {d d' : Dfa σ} {p q f : State} {e : Edge σ} {mark : Mark} {accepting : Bool}

/-- Zero or more transitions lead from the first state to the second. -/
def Leads (d : Dfa σ) : State → State → Prop := Reaches (d.edges.map Edge.ends)

/-- No accepting state can be reached from the state, not even the state itself. -/
def Dead (d : Dfa σ) (q : State) : Prop := ∀ f, d.Leads q f → d.isFinal f = false

/-- All marked traps are dead. -/
def TrapsSound (d : Dfa σ) : Prop := ∀ q, d.isTrap q = true → d.Dead q

theorem lt_of_isTrap (h : d.isTrap q = true) : q < d.stateCount := by
  have hmark : d.marks[q]? = some .trap := of_decide_eq_true h
  exact (List.getElem?_eq_some_iff.1 hmark).1

theorem trapsSound_of_no_trap (h : ∀ q, d.isTrap q = false) : d.TrapsSound := fun q hq => by
  rw [h q] at hq
  cases hq

/-! ## Dead states and words -/

theorem WellFormed.leads_lt [Ord σ] (hd : d.WellFormed) (hp : p < d.stateCount)
    (h : d.Leads p q) : q < d.stateCount := by
  induction h with
  | refl => exact hp
  | tail _ harrow _ =>
    obtain ⟨⟨s, a, t⟩, he, heq⟩ := List.mem_map.1 harrow
    obtain ⟨-, rfl⟩ := Prod.mk.inj heq
    exact hd.target_lt s a _ he

/-- A state is dead exactly if no word is accepted from it. -/
theorem dead_iff [DecidableEq σ] (hd : d.Deterministic) :
    d.Dead q ↔ ∀ w, d.acceptsFrom q w = false := by
  unfold Dead Leads
  simp only [reaches_iff_exists_run hd]
  constructor
  · intro h w
    unfold acceptsFrom
    cases hrun : d.run q w with
    | none => rfl
    | some f => exact h f ⟨w, hrun⟩
  · rintro h f ⟨w, hrun⟩
    have hw := h w
    unfold acceptsFrom at hw
    rwa [hrun] at hw

theorem not_dead_iff : ¬d.Dead q ↔ ∃ f, d.Leads q f ∧ d.isFinal f = true := by
  simp only [Dead, not_forall, Bool.not_eq_false, exists_prop]

/-! ## New marks -/

/-- The automaton with another mark on one state. -/
def withMark (d : Dfa σ) (q : State) (mark : Mark) : Dfa σ :=
  { d with marks := d.marks.set q mark }

theorem getElem?_withMark (hq : q < d.stateCount) {other : Mark} :
    (d.withMark q mark).marks[p]? = some other ↔
      (p = q ∧ mark = other) ∨ (p ≠ q ∧ d.marks[p]? = some other) := by
  show (d.marks.set q mark)[p]? = some other ↔ _
  by_cases hpq : p = q
  · subst hpq
    simp [List.getElem?_set_self hq]
  · simp [List.getElem?_set_ne (Ne.symm hpq), hpq]

theorem isTrap_withMark (hq : q < d.stateCount) : (d.withMark q mark).isTrap p = true ↔
    (p = q ∧ mark = .trap) ∨ (p ≠ q ∧ d.isTrap p = true) := by
  unfold isTrap
  rw [decide_eq_true_eq, getElem?_withMark hq, decide_eq_true_eq]

theorem isFinal_withMark (hq : q < d.stateCount) : (d.withMark q mark).isFinal p = true ↔
    (p = q ∧ mark = .accepting) ∨ (p ≠ q ∧ d.isFinal p = true) := by
  unfold isFinal
  rw [decide_eq_true_eq, getElem?_withMark hq, decide_eq_true_eq]

theorem setAccepting?_true_eq_ok_iff :
    d.setAccepting? q true = .ok d' ↔ q < d.stateCount ∧ d' = d.withMark q .accepting := by
  unfold setAccepting?
  rw [requireState_bind_eq_ok_iff]
  refine and_congr_right fun _ => ?_
  show Except.ok (d.withMark q .accepting) = _ ↔ _
  rw [Except.ok.injEq, eq_comm]

/-- A state that is made accepting must not be in reach of a trap other than itself. -/
theorem TrapsSound.withMark_accepting_iff (h : d.TrapsSound) (hq : q < d.stateCount) :
    (d.withMark q .accepting).TrapsSound ↔
      ∀ p, d.isTrap p = true → p ≠ q → ¬d.Leads p q := by
  have hfinal : (d.withMark q .accepting).isFinal q = true :=
    (isFinal_withMark hq).2 (.inl ⟨rfl, rfl⟩)
  constructor
  · intro hsound p hp hpq hleads
    have htrap : (d.withMark q .accepting).isTrap p = true :=
      (isTrap_withMark hq).2 (.inr ⟨hpq, hp⟩)
    rw [hsound p htrap q hleads] at hfinal
    cases hfinal
  · intro hapart p hp f hleads
    obtain ⟨-, hmark⟩ | ⟨hpq, htrap⟩ := (isTrap_withMark hq).1 hp
    · cases hmark
    · refine Bool.eq_false_of_not_eq_true fun hf => ?_
      obtain ⟨rfl, -⟩ | ⟨-, hf⟩ := (isFinal_withMark hq).1 hf
      · exact hapart p htrap hpq hleads
      · rw [h p htrap f hleads] at hf
        cases hf

/-- A state that stops accepting gives no trap a new way. -/
theorem TrapsSound.of_setAccepting?_false (h : d.TrapsSound)
    (hset : d.setAccepting? q false = .ok d') : d'.TrapsSound := by
  unfold setAccepting? at hset
  obtain ⟨hq, hset⟩ := requireState_bind_eq_ok_iff.1 hset
  rw [if_neg Bool.false_ne_true] at hset
  split at hset
  · cases hset
    intro p hp f hleads
    obtain ⟨-, hmark⟩ | ⟨-, hp⟩ := (isTrap_withMark hq).1 hp
    · cases hmark
    · refine Bool.eq_false_of_not_eq_true fun hf => ?_
      obtain ⟨-, hmark⟩ | ⟨-, hf⟩ := (isFinal_withMark hq).1 hf
      · cases hmark
      · rw [h p hp f hleads] at hf
        cases hf
  · cases hset
    exact h

/-- A new state is no trap, and no trap leads to it. -/
theorem TrapsSound.addState [Ord σ] (h : d.TrapsSound) (hd : d.WellFormed) :
    (d.addState (.ofAccepting accepting)).TrapsSound := by
  have hmarks : ∀ r < d.stateCount,
      (d.addState (.ofAccepting accepting)).marks[r]? = d.marks[r]? := fun r hr =>
    List.getElem?_append_left hr
  have hnew : (d.addState (.ofAccepting accepting)).isTrap d.stateCount = false := by
    show decide ((d.marks ++ [Mark.ofAccepting accepting])[d.marks.length]? = some .trap) = false
    cases accepting <;> simp [Mark.ofAccepting]
  intro p hp f hleads
  have hlt := lt_of_isTrap hp
  rw [stateCount_addState] at hlt
  have hold : p < d.stateCount := by
    refine Nat.lt_of_le_of_ne (Nat.le_of_lt_succ hlt) fun heq => ?_
    rw [heq, hnew] at hp
    cases hp
  have htrap : d.isTrap p = true := by
    unfold isTrap at hp ⊢
    rwa [hmarks p hold] at hp
  have hf := h p htrap f hleads
  unfold isFinal at hf ⊢
  rwa [hmarks f (hd.leads_lt hold hleads)]

/-! ## New transitions -/

section Edges

variable [Ord σ] [Std.LawfulEqOrd σ]

/-- A way after a transition has been added is one from before, or it uses the transition. -/
theorem leads_addEdges_iff : (d.addEdges [e]).Leads p q ↔
    d.Leads p q ∨ (d.Leads p e.source ∧ d.Leads e.target q) := by
  have hold : ∀ {s t}, d.Leads s t → (d.addEdges [e]).Leads s t := fun hst =>
    hst.mono fun _ harrow => by
      obtain ⟨f, hf, heq⟩ := List.mem_map.1 harrow
      exact List.mem_map.2 ⟨f, mem_edges_addEdges.2 (.inr hf), heq⟩
  constructor
  · intro h
    induction h with
    | refl => exact .inl (.refl _)
    | tail _ harrow ih =>
      obtain ⟨f, hf, heq⟩ := List.mem_map.1 harrow
      obtain ⟨rfl, rfl⟩ := Prod.mk.inj heq
      obtain hf | hf := mem_edges_addEdges.1 hf
      · -- the last transition is the new one
        rw [List.mem_singleton.1 hf] at ih ⊢
        exact .inr ⟨ih.elim id And.left, .refl _⟩
      · have hmem : (f.source, f.target) ∈ d.edges.map Edge.ends := List.mem_map.2 ⟨f, hf, rfl⟩
        exact ih.imp (·.tail hmem) fun hway => ⟨hway.1, hway.2.tail hmem⟩
  · rintro (h | ⟨hsource, htarget⟩)
    · exact hold h
    · have hnew : (e.source, e.target) ∈ (d.addEdges [e]).edges.map Edge.ends :=
        List.mem_map.2 ⟨e, mem_edges_addEdges.2 (.inl (List.mem_singleton.2 rfl)), rfl⟩
      exact ((hold hsource).tail hnew).trans (hold htarget)

/-- A transition that a trap leads to must lead to a dead state. -/
theorem TrapsSound.addEdges_iff (h : d.TrapsSound) : (d.addEdges [e]).TrapsSound ↔
    ∀ p, d.isTrap p = true → d.Leads p e.source → d.Dead e.target := by
  constructor
  · intro hsound p hp hsource f htarget
    exact hsound p hp f (leads_addEdges_iff.2 (.inr ⟨hsource, htarget⟩))
  · intro hdead p hp f hleads
    obtain hleads | ⟨hsource, htarget⟩ := leads_addEdges_iff.1 hleads
    · exact h p hp f hleads
    · exact hdead p hp hsource f htarget

variable [Std.TransOrd σ] [DecidableEq σ] [Quotable σ]

/-- A transition that was there is in order, and a new one if no trap leads through it to an
accepting state. -/
theorem TrapsSound.addEdge?_iff (h : d.TrapsSound) (hd : d.WellFormed)
    (hadd : d.addEdge? e = .ok d') : d'.TrapsSound ↔
      ∀ p, d.isTrap p = true → d.Leads p e.source → d.Dead e.target := by
  rw [← h.addEdges_iff]
  obtain ⟨hsucc, rfl⟩ | ⟨-, -, -, rfl⟩ := addEdge?_cases hadd
  · rw [hd.addEdge_eq_self hsucc]
  · exact Iff.rfl

end Edges

/-! ## Constructions -/

section Constructions

variable [Ord σ] [DecidableEq σ]

omit [DecidableEq σ] in
theorem trapsSound_single (alphabet : List σ) : (single alphabet).TrapsSound := by
  refine trapsSound_of_no_trap fun q => ?_
  unfold isTrap single
  cases q <;> rfl

/-- A description has no traps. -/
theorem trapsSound_of_ofParts [Quotable σ] {parts : Parts σ} (h : ofParts parts = .ok d) :
    d.TrapsSound := by
  refine trapsSound_of_no_trap fun q => ?_
  obtain ⟨start, -, h⟩ := foldlM_of_ofParts h
  refine of_foldlM_eq_ok (P := fun d => d.isTrap q = false) (fun d e d' hd hadd => ?_) ?_ h
  · obtain rfl | ⟨_, -, _, -, -, rfl⟩ := addDescribed_cases hadd
    · exact hd
    · exact hd
  · refine Bool.eq_false_of_not_eq_true fun htrap => ?_
    have hmark := of_decide_eq_true htrap
    rw [List.getElem?_map, Option.map_eq_some_iff] at hmark
    obtain ⟨r, -, hr⟩ := hmark
    unfold Mark.ofAccepting at hr
    split at hr <;> cases hr

variable [Std.TransOrd σ] [Std.LawfulEqOrd σ]

theorem TrapsSound.complete (h : d.TrapsSound) (hd : d.WellFormed) : d.complete.TrapsSound := by
  obtain ⟨-, heq⟩ | ⟨hmissing, heq⟩ := complete_eq d
  · rwa [heq]
  · rw [heq]
    intro q hq
    have hlt := lt_of_isTrap hq
    rw [stateCount_withTrap] at hlt
    rw [dead_iff (hd.withTrap hmissing).deterministic]
    intro w
    by_cases hold : q < d.stateCount
    · rw [isTrap_withTrap hold] at hq
      rw [hd.acceptsFrom_withTrap hmissing hold]
      exact (dead_iff hd.deterministic).1 (h q hq) w
    · have hnew : q = d.stateCount :=
        Nat.le_antisymm (Nat.le_of_lt_succ hlt) (Nat.le_of_not_lt hold)
      rw [hnew, hd.acceptsFrom_trap]

/-- Minimization marks its traps anew. -/
theorem WellFormed.trapsSound_minimize (hd : d.WellFormed) : d.minimize.TrapsSound := by
  by_cases hword : ∃ w, d.accepts w = true
  · intro q hq
    rw [dead_iff hd.minimize.deterministic]
    exact (hd.isTrap_minimize_iff hword (lt_of_isTrap hq)).1 hq
  · rw [hd.minimize_eq_single hword]
    exact trapsSound_single d.alphabet

/-- If a word is accepted, a complete automaton stays complete when it is minimized, and from all
states of any other one an accepting state can be reached afterwards.  In both cases the marked
traps are the states from which none can be reached. -/
theorem WellFormed.minimize_traps_spec (hd : d.WellFormed) (hword : ∃ w, d.accepts w = true) :
    (d.isComplete = true → d.minimize.isComplete = true) ∧
    (d.isComplete = false → ∀ q < d.minimize.stateCount,
      ∃ f, d.minimize.Leads q f ∧ d.minimize.isFinal f = true) ∧
    ∀ q < d.minimize.stateCount, d.minimize.isTrap q = true ↔
      ¬∃ f, d.minimize.Leads q f ∧ d.minimize.isFinal f = true := by
  have hdead : ∀ {q}, d.minimize.Dead q ↔ ∀ w, d.minimize.acceptsFrom q w = false :=
    dead_iff hd.minimize.deterministic
  refine ⟨hd.isComplete_minimize hword, fun hpartial q hq => ?_, fun q hq => ?_⟩
  · obtain ⟨w, hw⟩ := hd.trim_minimize hword hpartial q hq
    refine not_dead_iff.1 fun hq => ?_
    rw [hdead.1 hq w] at hw
    cases hw
  · rw [hd.isTrap_minimize_iff hword hq, ← not_dead_iff, not_not, hdead]

/-- An automaton with a dead state that is trimmed, and its completion, where all dead states become
one marked trap. -/
theorem minimize_traps_spec_deadEnd :
    (deadEnd.isComplete = false ∧ ∀ q < deadEnd.minimize.stateCount,
      ∃ f, deadEnd.minimize.Leads q f ∧ deadEnd.minimize.isFinal f = true) ∧
    (deadEnd.complete.isComplete = true ∧ deadEnd.complete.minimize.isComplete = true) ∧
    deadEnd.complete.minimize.isTrap 1 = true ∧
    ¬∃ f, deadEnd.complete.minimize.Leads 1 f ∧ deadEnd.complete.minimize.isFinal f = true := by
  have hd : deadEnd.WellFormed := wellFormed_of_ofParts
    (show ofParts ⟨[0, 1, 2, 3], ['a', 'b', 'c'],
      [⟨0, 'a', 1⟩, ⟨0, 'b', 2⟩, ⟨2, 'a', 2⟩, ⟨3, 'a', 1⟩], 0, [1]⟩ = .ok deadEnd from rfl)
  have hspec := hd.minimize_traps_spec ⟨['a'], by decide⟩
  have hspec' := hd.complete.minimize_traps_spec ⟨['a'], by decide⟩
  have hpartial : deadEnd.isComplete = false := by decide
  have hcomplete : deadEnd.complete.isComplete = true := by decide
  have htrap : deadEnd.complete.minimize.isTrap 1 = true := by decide +kernel
  exact ⟨⟨hpartial, hspec.2.1 hpartial⟩, ⟨hcomplete, hspec'.1 hcomplete⟩, htrap,
    (hspec'.2.2 1 (lt_of_isTrap htrap)).1 htrap⟩

/-- Only the empty set of states is a trap, and nothing leaves it. -/
theorem trapsSound_toDfa {n : Nfa σ} (hn : n.WellFormed) (complete : Bool) :
    (n.toDfa complete).TrapsSound := by
  intro i hi
  rw [dead_iff (hn.toDfa complete).deterministic]
  intro w
  have hlt : i < (Subsets.all n complete).found.length := by
    rw [← Subsets.stateCount_automaton (n := n)]
    exact lt_of_isTrap hi
  have hs := List.getElem?_eq_getElem hlt
  rw [hn.acceptsFrom_toDfa hs, (Nfa.isTrap_toDfa_iff hs).1 hi, Nfa.foldl_step_nil]
  rfl

/-! ## Automata that are built with care -/

variable [Quotable σ]

/-- The automata that are built without giving a marked trap a way to an accepting state. -/
inductive Guarded : Dfa σ → Prop
  | single (alphabet : List σ) : Guarded (single alphabet)
  | ofParts {parts : Parts σ} {d : Dfa σ} : ofParts parts = .ok d → Guarded d
  | addState {d : Dfa σ} (accepting : Bool) :
      Guarded d → Guarded (d.addState (.ofAccepting accepting))
  | accept {d d' : Dfa σ} {q : State} :
      Guarded d → (∀ p, d.isTrap p = true → p ≠ q → ¬d.Leads p q) →
        d.setAccepting? q true = .ok d' → Guarded d'
  | unaccept {d d' : Dfa σ} {q : State} :
      Guarded d → d.setAccepting? q false = .ok d' → Guarded d'
  | addEdge? {d d' : Dfa σ} {e : Edge σ} :
      Guarded d → (∀ p, d.isTrap p = true → d.Leads p e.source → d.Dead e.target) →
        d.addEdge? e = .ok d' → Guarded d'
  | complete {d : Dfa σ} : Guarded d → Guarded d.complete
  | minimize {d : Dfa σ} : Guarded d → Guarded d.minimize
  | toDfa {n : Nfa σ} (complete : Bool) : n.WellFormed → Guarded (n.toDfa complete)

omit [Std.TransOrd σ] [Std.LawfulEqOrd σ] in
theorem Guarded.built (h : Guarded d) : Built d := by
  induction h with
  | single alphabet => exact .single alphabet
  | ofParts hparts => exact .ofParts hparts
  | addState accepting _ ih => exact .addState accepting ih
  | accept _ _ hset ih => exact .setAccepting? ih hset
  | unaccept _ hset ih => exact .setAccepting? ih hset
  | addEdge? _ _ hadd ih => exact .addEdge? ih hadd
  | complete _ ih => exact .complete ih
  | minimize _ ih => exact .minimize ih
  | toDfa complete hn => exact .toDfa complete hn

theorem Guarded.trapsSound (h : Guarded d) : d.TrapsSound := by
  induction h with
  | single alphabet => exact trapsSound_single alphabet
  | ofParts hparts => exact trapsSound_of_ofParts hparts
  | addState accepting hg ih => exact ih.addState hg.built.wellFormed
  | accept _ hguard hset ih =>
    obtain ⟨hq, rfl⟩ := setAccepting?_true_eq_ok_iff.1 hset
    exact (ih.withMark_accepting_iff hq).2 hguard
  | unaccept _ hset ih => exact ih.of_setAccepting?_false hset
  | addEdge? hg hguard hadd ih => exact (ih.addEdge?_iff hg.built.wellFormed hadd).2 hguard
  | complete hg ih => exact ih.complete hg.built.wellFormed
  | minimize hg _ => exact hg.built.wellFormed.trapsSound_minimize
  | toDfa complete hn => exact trapsSound_toDfa hn complete

/-- The marks of an automaton that was built with care are sound, and they stay sound exactly if
the next change respects them. -/
theorem Guarded.trapsSound_spec (h : Guarded d) : d.TrapsSound ∧
    (∀ q d', d.setAccepting? q true = .ok d' →
      (d'.TrapsSound ↔ ∀ p, d.isTrap p = true → p ≠ q → ¬d.Leads p q)) ∧
    ∀ e d', d.addEdge? e = .ok d' →
      (d'.TrapsSound ↔ ∀ p, d.isTrap p = true → d.Leads p e.source → d.Dead e.target) := by
  refine ⟨h.trapsSound, fun q d' hset => ?_, fun e d' hadd => ?_⟩
  · obtain ⟨hq, rfl⟩ := setAccepting?_true_eq_ok_iff.1 hset
    exact h.trapsSound.withMark_accepting_iff hq
  · exact h.trapsSound.addEdge?_iff h.built.wellFormed hadd

/-- A start state without a transition, completed, and an accepting state that nothing leads
to. -/
def besideTrap : Dfa Char :=
  ⟨[.plain, .trap, .accepting], ['a'], [⟨0, 'a', 1⟩, ⟨1, 'a', 1⟩], 0⟩

theorem guarded_besideTrap : besideTrap.Guarded :=
  (Guarded.single ['a']).complete.addState true

theorem trapsSound_spec_besideTrap : besideTrap.Guarded ∧ besideTrap.TrapsSound ∧
    (∀ q d', besideTrap.setAccepting? q true = .ok d' →
      (d'.TrapsSound ↔ ∀ p, besideTrap.isTrap p = true → p ≠ q → ¬besideTrap.Leads p q)) ∧
    ∀ e d', besideTrap.addEdge? e = .ok d' → (d'.TrapsSound ↔
      ∀ p, besideTrap.isTrap p = true → besideTrap.Leads p e.source → besideTrap.Dead e.target) :=
  ⟨guarded_besideTrap, guarded_besideTrap.trapsSound_spec⟩

/-- Without that care a mark can become wrong: a new letter leads from the trap to the accepting
state. -/
theorem not_trapsSound_of_built : ¬∀ d : Dfa Char, d.Built → d.TrapsSound := by
  intro hall
  let opened : Dfa Char := besideTrap.addEdges [⟨1, 'b', 2⟩]
  have hadd : besideTrap.addEdge? ⟨1, 'b', 2⟩ = .ok opened := rfl
  have hway : opened.Leads 1 2 := .tail (.refl 1) (by decide)
  have hdead := hall opened (.addEdge? guarded_besideTrap.built hadd) 1 rfl 2 hway
  cases hdead

end Constructions

end Kleene.Dfa
