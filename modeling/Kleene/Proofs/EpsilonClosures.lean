import Kleene.Proofs.Descriptions

/-!
# Closures under ε-transitions

The search for a closure puts a state on its stack when it puts it into the closure, and the state
that it starts from is on the stack without being in the closure unless it is asked for.  So it
comes to an end in any graph, and it finds the state itself exactly if a cycle of ε-transitions goes
through it.  One letter leads from a state along the paths that spell it.
-/

namespace Kleene

namespace Nfa

variable {σ : Type} {n : Nfa σ} {p q r : State} {es es' : List (Edge (Label σ))}

/-! ## Paths of ε-transitions -/

theorem Walk.append (h : n.Walk p es r) (h' : n.Walk r es' q) : n.Walk p (es ++ es') q := by
  induction h with
  | nil => exact h'
  | cons he _ ih => exact .cons he (ih h')

theorem Walk.exists_of_append (h : n.Walk p (es ++ es') q) :
    ∃ r, n.Walk p es r ∧ n.Walk r es' q := by
  induction es generalizing p with
  | nil => exact ⟨p, .nil p, h⟩
  | cons e es ih =>
    cases h with
    | cons he hrest =>
      obtain ⟨r, hr, hq⟩ := ih hrest
      exact ⟨r, .cons he hr, hq⟩

/-- The ε-transitions lead one after the other from the first state to the second. -/
def EpsilonWalk (n : Nfa σ) (p : State) (es : List (Edge (Label σ))) (q : State) : Prop :=
  n.Walk p es q ∧ ∀ e ∈ es, e.label = .epsilon

/-- A cycle of ε-transitions goes through the state. -/
def OnEpsilonCycle (n : Nfa σ) (q : State) : Prop :=
  ∃ p es, n.EpsilonWalk p es p ∧ ∃ e ∈ es, e.source = q

namespace EpsilonWalk

theorem nil (p : State) : n.EpsilonWalk p [] p := ⟨.nil p, nofun⟩

theorem cons (he : ⟨p, .epsilon, r⟩ ∈ n.edges) (h : n.EpsilonWalk r es q) :
    n.EpsilonWalk p (⟨p, .epsilon, r⟩ :: es) q :=
  ⟨.cons he h.1, List.forall_mem_cons.2 ⟨rfl, h.2⟩⟩

theorem append (h : n.EpsilonWalk p es r) (h' : n.EpsilonWalk r es' q) :
    n.EpsilonWalk p (es ++ es') q :=
  ⟨h.1.append h'.1, List.forall_mem_append.2 ⟨h.2, h'.2⟩⟩

theorem exists_of_append (h : n.EpsilonWalk p (es ++ es') q) :
    ∃ r, n.EpsilonWalk p es r ∧ n.EpsilonWalk r es' q := by
  obtain ⟨r, hr, hq⟩ := h.1.exists_of_append
  obtain ⟨hes, hes'⟩ := List.forall_mem_append.1 h.2
  exact ⟨r, ⟨hr, hes⟩, hq, hes'⟩

theorem exists_of_cons {e : Edge (Label σ)} (h : n.EpsilonWalk p (e :: es) q) :
    e.source = p ∧ ⟨p, .epsilon, e.target⟩ ∈ n.edges ∧ n.EpsilonWalk e.target es q := by
  obtain ⟨hwalk, hlabels⟩ := h
  obtain ⟨hlabel, hrestLabels⟩ := List.forall_mem_cons.1 hlabels
  cases hwalk with
  | cons he hrest =>
    cases hlabel
    exact ⟨rfl, he, hrest, hrestLabels⟩

end EpsilonWalk

theorem reaches_epsilonArrows_iff :
    Reaches n.epsilonArrows p q ↔ ∃ es, n.EpsilonWalk p es q := by
  constructor
  · intro h
    induction h with
    | refl => exact ⟨[], .nil p⟩
    | tail _ harrow ih =>
      obtain ⟨es, hes⟩ := ih
      exact ⟨_, hes.append (.cons (mem_epsilonArrows.1 harrow) (.nil _))⟩
  · rintro ⟨es, hes⟩
    induction es generalizing p with
    | nil =>
      cases hes.1
      exact .refl _
    | cons e es ih =>
      obtain ⟨-, he, hrest⟩ := hes.exists_of_cons
      exact .head (mem_epsilonArrows.2 he) (ih hrest)

theorem reachedBeyond_epsilonArrows_iff :
    ReachedBeyond n.epsilonArrows [p] q ↔ ∃ es, es ≠ [] ∧ n.EpsilonWalk p es q := by
  unfold ReachedBeyond
  simp only [List.mem_singleton, exists_eq_left, mem_epsilonArrows, reaches_epsilonArrows_iff]
  constructor
  · rintro ⟨r, he, es, hes⟩
    exact ⟨_, List.cons_ne_nil _ _, hes.cons he⟩
  · rintro ⟨es, hne, hes⟩
    cases es with
    | nil => exact absurd rfl hne
    | cons e es =>
      obtain ⟨-, he, hrest⟩ := hes.exists_of_cons
      exact ⟨_, he, es, hrest⟩

/-- A cycle can be followed from any state on it. -/
theorem onEpsilonCycle_iff : n.OnEpsilonCycle q ↔ ∃ es, es ≠ [] ∧ n.EpsilonWalk q es q := by
  constructor
  · rintro ⟨p, es, hes, e, he, rfl⟩
    obtain ⟨front, back, rfl⟩ := List.append_of_mem he
    obtain ⟨r, hfront, hback⟩ := hes.exists_of_append
    obtain ⟨rfl, -, -⟩ := hback.exists_of_cons
    exact ⟨_, List.cons_ne_nil e (back ++ front), hback.append hfront⟩
  · rintro ⟨es, hne, hes⟩
    cases es with
    | nil => exact absurd rfl hne
    | cons e es => exact ⟨q, e :: es, hes, e, List.mem_cons_self, hes.exists_of_cons.1⟩

end Nfa

namespace NfaGraph

variable {C : GraphMap} {σ : Type} [DecidableEq σ] {g : NfaGraph C σ} {n : Nfa σ} {p q : State}
  {a : σ}

/-! ## The end of the search -/

/-- A state is put on the stack if and only if it is put into the closure. -/
theorem length_visit (found : List State × List State) (q : State) :
    (visit found q).1.length + found.2.length = found.1.length + (visit found q).2.length := by
  unfold visit
  split
  · rfl
  · rename_i hnew
    have hlength := (Ascending.perm_insert hnew).length_eq
    simp only [List.length_cons] at hlength ⊢
    omega

theorem length_foldl_visit (qs : List State) (found : List State × List State) :
    (qs.foldl visit found).1.length + found.2.length =
      found.1.length + (qs.foldl visit found).2.length := by
  induction qs generalizing found with
  | nil => rfl
  | cons q qs ih =>
    have hfirst := length_visit found q
    have hrest := ih (visit found q)
    rw [List.foldl_cons]
    omega

/-- The search ends in any graph, after as many rounds as there were states on the stack or came
into the closure. -/
theorem exists_rounds_explore (g : NfaGraph C σ) (stack closure : List State) :
    ∃ k, g.Rounds k (stack, closure) ([], g.explore stack closure) ∧
      k + closure.length = stack.length + (g.explore stack closure).length := by
  fun_induction explore g stack closure with
  | case1 closure => exact ⟨0, .refl _, rfl⟩
  | case2 closure q rest found ih =>
    obtain ⟨k, hrounds, hcount⟩ := ih
    have hlength := length_foldl_visit (g.targets q .epsilon) (rest, closure)
    refine ⟨k + 1, .next hrounds, ?_⟩
    simp only [List.length_cons, found] at hcount hlength ⊢
    omega

theorem rounds_epsilonClosure (g : NfaGraph C σ) (q : State) (includeState : Bool) :
    g.Rounds ((g.epsilonClosure q includeState).length + if includeState then 0 else 1)
      ([q], if includeState then [q] else []) ([], g.epsilonClosure q includeState) := by
  obtain ⟨k, hrounds, hcount⟩ :=
    g.exists_rounds_explore [q] (if includeState then [q] else [])
  have hk : (g.epsilonClosure q includeState).length + (if includeState then 0 else 1) = k := by
    unfold epsilonClosure
    cases includeState <;> simp at hcount ⊢ <;> omega
  rw [hk]
  exact hrounds

theorem isAscending_epsilonClosure (g : NfaGraph C σ) (q : State) (includeState : Bool) :
    Ascending.IsAscending (g.epsilonClosure q includeState) := by
  apply isAscending_explore
  cases includeState with
  | true => exact List.pairwise_singleton _ _
  | false => exact .nil

/-! ## What the search finds -/

namespace Holds

variable [Ord σ]

theorem epsilonClosure_true (h : g.Holds n) (q : State) :
    g.epsilonClosure q true = n.closure q := h.closure_eq q

/-- Without the state itself the search starts from what its ε-transitions lead to. -/
theorem epsilonClosure_false (h : g.Holds n) (q : State) :
    g.epsilonClosure q false = n.properClosure q := by
  refine Ascending.eq_of_mem_iff (g.isAscending_epsilonClosure q false)
    (isAscending_reachFrom Ascending.isAscending_nil) fun r => ?_
  have hexplored := h.explored_foldl_visit (show Explored n [q] [] from nofun)
  have hstack : ∀ p ∈ ((g.targets q .epsilon).foldl visit ([], [])).1,
      p ∈ ((g.targets q .epsilon).foldl visit ([], [])).2 := fun p hp =>
    mem_closure_foldl_visit.2 ((mem_stack_foldl_visit.1 hp).imp_right And.left)
  rw [Nfa.mem_properClosure]
  unfold epsilonClosure
  rw [if_neg Bool.false_ne_true, explore, h.mem_explore hstack hexplored]
  simp only [mem_closure_foldl_visit, List.not_mem_nil, false_or, h.mem_targets]
  unfold ReachedBeyond
  simp only [List.mem_singleton, exists_eq_left, Nfa.mem_epsilonArrows]

/-- Looking the letter up in the alphabet first changes nothing. -/
theorem nextStates_true (h : g.Holds n) (q : State) (a : σ) :
    g.nextStates q a true = n.afterLetter q a := by
  have hmem : ∀ r, r ∈ (((g.epsilonClosure q true).flatMap fun p => g.targets p (.symbol a)).flatMap
      fun p => g.epsilonClosure p true) ↔
      r ∈ ((n.closure q).flatMap fun p => n.targets p (.symbol a)).flatMap n.closure := by
    intro r
    simp only [List.mem_flatMap, h.epsilonClosure_true, h.mem_targets, Nfa.mem_targets]
  unfold nextStates Nfa.afterLetter
  rw [h.alphabet_eq, if_pos rfl, Ascending.ofList_congr hmem]

variable [Std.TransOrd σ] [Std.LawfulEqOrd σ]

theorem nextStates_eq (h : g.Holds n) (q : State) (a : σ) :
    g.nextStates q a true = n.nextStates q a := by
  rw [h.nextStates_true]
  refine Ascending.eq_of_mem_iff ?_ Nfa.isAscending_step fun r => ?_
  · unfold Nfa.afterLetter
    split
    · exact Ascending.isAscending_ofList _
    · exact Ascending.isAscending_nil
  · rw [h.wellFormed.mem_afterLetter, Nfa.nextStates, Nfa.mem_step, Nfa.spells_singleton_iff]
    simp only [Nfa.mem_closure, Nfa.spells_nil_iff]
    constructor
    · rintro ⟨s, t, hs, he, ht⟩
      exact ⟨s, hs, t, he, ht⟩
    · rintro ⟨s, hs, t, he, ht⟩
      exact ⟨s, t, hs, he, ht⟩

end Holds

variable [Ord σ] [Std.TransOrd σ] [Std.LawfulEqOrd σ]

/-- In any graph the search from a state ends: one round is made for each state in the closure, and
one more for the state that it starts from if that is not asked for.  For an automaton it finds what
one or more ε-transitions lead to, in whatever order the container lists targets, and with the state
itself asked for nothing else but the state.  One letter leads exactly along the paths that spell
it. -/
theorem closures_spec (g : NfaGraph C σ) (s : State) (a : σ) :
    (∀ includeState, g.Rounds
      ((g.epsilonClosure s includeState).length + if includeState then 0 else 1)
        ([s], if includeState then [s] else []) ([], g.epsilonClosure s includeState)) ∧
    (∀ includeState, Ascending.IsAscending (g.epsilonClosure s includeState)) ∧
    ∀ n, g.Holds n →
      (∀ q, q ∈ g.epsilonClosure s false ↔ ∃ es, es ≠ [] ∧ n.EpsilonWalk s es q) ∧
      (s ∈ g.epsilonClosure s false ↔ n.OnEpsilonCycle s) ∧
      (∀ q, q ∈ g.epsilonClosure s true ↔ q = s ∨ q ∈ g.epsilonClosure s false) ∧
      (∀ q, q ∈ g.nextStates s a true ↔ ∃ es, n.Walk s es q ∧ Nfa.letters es = [a]) ∧
      g.epsilonClosure s false = n.properClosure s ∧ g.epsilonClosure s true = n.closure s ∧
      g.nextStates s a true = n.nextStates s a := by
  refine ⟨g.rounds_epsilonClosure s, g.isAscending_epsilonClosure s, fun n h => ?_⟩
  have hproper : ∀ q, q ∈ g.epsilonClosure s false ↔ ∃ es, es ≠ [] ∧ n.EpsilonWalk s es q := by
    intro q
    rw [h.epsilonClosure_false, Nfa.mem_properClosure, Nfa.reachedBeyond_epsilonArrows_iff]
  refine ⟨hproper, ?_, fun q => ?_, fun q => ?_, h.epsilonClosure_false s, h.epsilonClosure_true s,
    h.nextStates_eq s a⟩
  · rw [hproper, Nfa.onEpsilonCycle_iff]
  · rw [h.epsilonClosure_true, h.epsilonClosure_false, Nfa.mem_closure, Nfa.mem_properClosure]
    exact reaches_iff_eq_or_reachedBeyond
  · rw [h.nextStates_true, h.wellFormed.mem_afterLetter, Nfa.spells_iff_exists_walk]

/-- The cycle through the first two states is followed until it comes back to the first one, and one
letter leads out of it to the last state alone. -/
theorem closures_spec_idleCycles : ∃ g : NfaGraph .listed Char, g.Holds Nfa.idleCycles ∧
    g.epsilonClosure 0 false = [0, 1] ∧ Nfa.idleCycles.OnEpsilonCycle 0 ∧
      (¬∃ es, es ≠ [] ∧ Nfa.idleCycles.EpsilonWalk 0 es 2) ∧
        ∀ q, (∃ es, Nfa.idleCycles.Walk 0 es q ∧ Nfa.letters es = ['a']) ↔ q = 2 := by
  obtain ⟨hvalid, hautomaton⟩ := (Nfa.ofParts_eq_ok_iff (n := Nfa.idleCycles)
    (d := ⟨[0, 1, 2], ['b'],
      [⟨0, .epsilon, 1⟩, ⟨1, .epsilon, 0⟩, ⟨1, .symbol 'a', 2⟩, ⟨2, .epsilon, 2⟩], 0, 2⟩)).1 rfl
  have hg := NfaGraph.ofParts?_eq_ok_iff (C := .listed).2 ⟨hvalid, rfl⟩
  have h : Holds _ Nfa.idleCycles := hautomaton ▸ (holdsFit_of_ofParts? hg).1
  obtain ⟨hproper, hcycle, -, hletter, hfound, -, hnext⟩ := (closures_spec _ 0 'a').2.2 _ h
  have hclosure : Nfa.idleCycles.properClosure 0 = [0, 1] := by decide +kernel
  have hlast : Nfa.idleCycles.nextStates 0 'a' = [2] := by decide +kernel
  rw [hclosure] at hfound
  rw [hlast] at hnext
  refine ⟨_, h, hfound, hcycle.1 ?_, mt (hproper 2).2 ?_, fun q => ?_⟩
  · rw [hfound]
    decide
  · rw [hfound]
    decide
  · rw [← hletter, hnext, List.mem_singleton]

end NfaGraph

end Kleene
