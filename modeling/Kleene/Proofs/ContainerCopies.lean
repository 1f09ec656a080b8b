import Kleene.Proofs.ContainerOperations

/-!
# Regular operations in a container

The copy of an automaton into another one gives every state the same place in a container, whatever
the order is in which the container lists the transitions.  So the regular operations yield what
they yield on the automata that the containers hold, or run out of identifiers with them.
-/

namespace Kleene.NfaGraph

variable {C : GraphMap} {σ : Type} [Ord σ]

/-! ## Copies -/

/-- The container holds the copy as far as it has come, and the places are the same. -/
def Copy.Holds (c : Copy C σ) (c' : Nfa.Copy σ) : Prop :=
  c.automaton.HoldsFit c'.automaton ∧ c.places = c'.places

section Steps

variable {c : Copy C σ} {c' : Nfa.Copy σ}

theorem Copy.Holds.addState? (h : c.Holds c') (q : State) :
    SameResult Copy.Holds (c.addState? q) (c'.addState? q) := by
  obtain ⟨hautomaton, hplaces⟩ := h
  unfold Copy.addState? Nfa.Copy.addState?
  rw [hplaces]
  cases c'.places.lookup q with
  | some p => exact .ok ⟨hautomaton, hplaces⟩
  | none =>
    refine hautomaton.newState?.bind ?_
    rintro ⟨p, g⟩ ⟨p', n⟩ ⟨rfl, hnew⟩
    exact .ok ⟨hnew, rfl⟩

theorem Copy.Holds.place?_eq (h : c.Holds c') (q : State) : c.place? q = c'.place? q := by
  obtain ⟨g, places⟩ := c
  obtain ⟨n, places'⟩ := c'
  obtain rfl : places = places' := h.2
  rfl

variable [DecidableEq σ] [Std.TransOrd σ] [Std.LawfulEqOrd σ]

theorem Copy.Holds.addEdge? (h : c.Holds c') (e : Edge (Label σ)) :
    SameResult Copy.Holds (c.addEdge? e) (c'.addEdge? e) := by
  unfold Copy.addEdge? Nfa.Copy.addEdge?
  rw [h.place?_eq, h.place?_eq]
  cases c'.place? e.source with
  | error misuse => exact .error misuse
  | ok p =>
    cases c'.place? e.target with
    | error misuse => exact .error misuse
    | ok q => exact (h.1.addEdge? _).bind fun _ _ hnew => .ok ⟨hnew.2, h.2⟩

omit [DecidableEq σ] in
theorem Copy.Holds.addLetter (h : c.Holds c') (x : σ) : (c.addLetter x).Holds (c'.addLetter x) := by
  obtain ⟨hautomaton, hplaces⟩ := h
  have hwell := hautomaton.wellFormed
  refine ⟨{ hautomaton with
    wellFormed := { hwell with
      alphabet_ascending := Ascending.isAscending_insert hwell.alphabet_ascending
      letter_mem := fun p a q he => Ascending.mem_insert.2 (.inr (hwell.letter_mem p a q he)) }
    alphabet_eq := ?_ }, hplaces⟩
  exact congrArg (Ascending.insert x) hautomaton.alphabet_eq

omit [DecidableEq σ] in
theorem Copy.Holds.foldl_addLetter (h : c.Holds c') (letters : List σ) :
    (letters.foldl Copy.addLetter c).Holds (letters.foldl Nfa.Copy.addLetter c') := by
  induction letters generalizing c c' with
  | nil => exact h
  | cons x letters ih => exact ih (h.addLetter x)

end Steps

section Operations

variable [DecidableEq σ] [Std.TransOrd σ] [Std.LawfulEqOrd σ]
variable {a b g : NfaGraph C σ} {m n : Nfa σ} {identified : List (State × State)}

theorem HoldsFit.absorb? (ha : a.HoldsFit m) (hb : b.HoldsFit n) (identified : List (State × State)) :
    SameResult Copy.Holds (a.absorb? b identified) (Nfa.absorb? m n identified b.unsorted) := by
  have hstart : Copy.Holds ⟨a, identified⟩ ⟨m, identified⟩ := ⟨ha, rfl⟩
  unfold NfaGraph.absorb? Nfa.absorb?
  rw [hb.states_eq, hb.alphabet_eq]
  refine SameResult.bind (SameResult.foldlM (fun _ _ h q _ => h.addState? q) hstart) fun _ _ h => ?_
  exact SameResult.bind (SameResult.foldlM (fun _ _ h e _ => h.addEdge? e) h) fun _ _ h =>
    .ok (h.foldl_addLetter _)

/-- The final state of the copied automaton has got a place. -/
theorem exists_place?_of_absorb? (hm : m.WellFormed) (hfit : m.fresh ≤ stateLimit)
    (hn : n.WellFormed) {listing : List (Edge (Label σ))} (hlisting : ∀ e, e ∈ listing ↔ e ∈ n.edges)
    {c : Nfa.Copy σ} (hc : Nfa.absorb? m n [(n.start, m.final)] listing = .ok c) :
    ∃ p ∈ c.automaton.states, c.place? n.final = .ok p := by
  have hseam := hm.seam_chain (b := n)
  have hsteps := hm.absorb?_supplies hfit hn hseam hlisting
  by_cases hlast : (Nfa.absorb m n [(n.start, m.final)]).fresh ≤ stateLimit
  · obtain ⟨c', hc', hautomaton, hplaces⟩ := hsteps.1 hlast
    obtain rfl := Except.ok.inj (hc.symm.trans hc')
    refine ⟨_, hautomaton ▸ Nfa.place_mem_absorb hseam hn.final_mem, ?_⟩
    unfold Nfa.Copy.place?
    rw [hplaces _ hn.final_mem]
  · rw [hsteps.2 (Nat.not_le.1 hlast)] at hc
    cases hc

theorem HoldsFit.chain? (ha : a.HoldsFit m) (hb : b.HoldsFit n) :
    SameResult HoldsFit (a.chain? b) (Nfa.chain m n).fit := by
  rw [← ha.wellFormed.chain?_eq_fit ha.fits hb.wellFormed fun _ => hb.mem_unsorted]
  unfold NfaGraph.chain? Nfa.chain?
  rw [ha.final_eq, hb.start_eq, hb.final_eq]
  refine ((ha.absorb? hb _).and fun c' hc' => exists_place?_of_absorb? ha.wellFormed ha.fits
    hb.wellFormed (fun _ => hb.mem_unsorted) hc').bind ?_
  rintro c c' ⟨h, p, hp, hplace⟩
  rw [h.place?_eq, hplace]
  exact .ok ⟨h.1.withFinal hp, h.1.fits⟩

theorem HoldsFit.join? (ha : a.HoldsFit m) (hb : b.HoldsFit n) (hm : m.Isolated)
    (hn : n.Isolated) : SameResult HoldsFit (a.join? b) (Nfa.join m n).fit := by
  rw [← ha.wellFormed.join?_eq_fit ha.fits hb.wellFormed hm hn fun _ => hb.mem_unsorted]
  unfold NfaGraph.join? Nfa.join?
  rw [ha.start_eq, ha.final_eq, hb.start_eq, hb.final_eq]
  exact (ha.absorb? hb _).bind fun _ _ h => .ok h.1

/-! ## The operations -/

omit [DecidableEq σ] in
/-- What isolation yields is isolated. -/
theorem HoldsFit.isolated_isolate? (h : g.HoldsFit n) :
    SameResult (fun g n => g.HoldsFit n ∧ n.Isolated) g.isolate? n.isolate? :=
  h.isolate?.and fun m hm => by
    obtain rfl : m = n.isolate := Nfa.eq_of_within hm
    exact h.wellFormed.isolated_isolate

theorem HoldsFit.concat? (ha : a.HoldsFit m) (hb : b.HoldsFit n) :
    SameResult HoldsFit (a.concat? b) (Nfa.concat? m n) :=
  ha.isolate?.bind fun _ _ ha => hb.isolate?.bind fun _ _ hb => ha.chain? hb

theorem HoldsFit.union? (ha : a.HoldsFit m) (hb : b.HoldsFit n) :
    SameResult HoldsFit (a.union? b) (Nfa.union? m n) :=
  ha.isolated_isolate?.bind fun _ _ ha => hb.isolated_isolate?.bind fun _ _ hb =>
    ha.1.join? hb.1 ha.2 hb.2

omit [DecidableEq σ] [Std.TransOrd σ] [Std.LawfulEqOrd σ] in
/-- The loop takes two identifiers, one after the other. -/
theorem fit_loop (n : Nfa σ) (es : List (Edge (Label σ))) : (n.loop es).fit =
    n.addState? >>= fun x => x.2.addState? >>= fun _ => .ok (n.loop es) := by
  by_cases hfirst : n.fresh < stateLimit
  · rw [Nfa.addState?_eq_ok_iff.2 ⟨hfirst, rfl, rfl⟩]
    show _ = n.addState.addState? >>= fun _ => _
    by_cases hsecond : n.addState.fresh < stateLimit
    · rw [Nfa.addState?_eq_ok_iff.2 ⟨hsecond, rfl, rfl⟩]
      exact if_pos hsecond
    · rw [Nfa.addState?_eq_error hsecond]
      exact if_neg hsecond
  · rw [Nfa.addState?_eq_error hfirst]
    exact if_neg fun hle => hfirst (Nat.le_of_succ_le hle)

omit [DecidableEq σ] in
/-- The transitions around the automaton may be added in another order. -/
theorem loop_eq (h : n.WellFormed) (es : List (Edge (Label σ))) : n.loop es =
    { n.addState.addState.addEdges (Nfa.epsilonEdge n.fresh n.start :: es ++
        [Nfa.epsilonEdge n.final n.start, Nfa.epsilonEdge n.final (n.fresh + 1)]) with
      start := n.fresh, final := n.fresh + 1 } := by
  unfold Nfa.loop
  rw [h.addState.addState.addEdges_congr fun e => ?_]
  simp only [List.cons_append, List.nil_append, List.mem_cons, List.mem_append, List.not_mem_nil,
    or_false]
  tauto

theorem HoldsFit.loop? (h : g.HoldsFit n) {bypass : Bool} {es : List (Edge (Label σ))}
    (hes : es = if bypass then [Nfa.epsilonEdge n.fresh (n.fresh + 1)] else []) :
    SameResult HoldsFit (g.loop? bypass) (n.loop es).fit := by
  have hwell : (n.loop es).WellFormed := Nfa.wellFormed_loop h.wellFormed fun e he => by
    subst hes
    cases bypass with
    | true => exact List.mem_singleton.1 he
    | false => cases he
  rw [fit_loop]
  unfold NfaGraph.loop?
  rw [h.start_eq, h.final_eq]
  refine h.newState?_bind fun g₁ h₁ => h₁.newState?_bind fun g₂ h₂ => ?_
  rw [loop_eq h.wellFormed] at hwell ⊢
  obtain ⟨g₃, hg₃, h₃⟩ := h₂.exists_addEdges? fun e he =>
    ⟨hwell.source_mem _ _ _ (Nfa.mem_addEdges.2 (.inl he)),
      hwell.target_mem _ _ _ (Nfa.mem_addEdges.2 (.inl he))⟩
  have hadd : g₂.addEdges? (Nfa.epsilonEdge n.fresh n.start ::
      (if bypass then [Nfa.epsilonEdge n.fresh n.addState.fresh] else []) ++
      [Nfa.epsilonEdge n.final n.start, Nfa.epsilonEdge n.final n.addState.fresh]) = .ok g₃ :=
    hes ▸ hg₃
  show SameResult HoldsFit (g₂.addEdges? _ >>= _) _
  rw [hadd]
  exact .ok ⟨(h₃.toHolds.withStart hwell.start_mem).withFinal hwell.final_mem, h₃.fits⟩

theorem HoldsFit.star? (h : g.HoldsFit n) : SameResult HoldsFit g.star? n.star? := h.loop? rfl

theorem HoldsFit.plus? (h : g.HoldsFit n) : SameResult HoldsFit g.plus? n.plus? := h.loop? rfl

theorem HoldsFit.opt? (h : g.HoldsFit n) : SameResult HoldsFit g.opt? n.opt? := by
  have hsteps : n.opt? = n.isolate? >>= fun m =>
      .ok (m.addEdges [Nfa.epsilonEdge m.start m.final]) := by
    show n.opt.within n.isolate.fresh = n.isolate.within n.isolate.fresh >>= _
    unfold Nfa.within
    split <;> rfl
  rw [hsteps]
  refine h.isolate?.bind fun g n h => ?_
  obtain ⟨g', hg', h'⟩ := h.exists_addEdge? (Nfa.epsilonEdge n.start n.final)
    h.wellFormed.start_mem h.wellFormed.final_mem
  rw [h.start_eq, h.final_eq, hg']
  exact .ok h'

end Operations

end Kleene.NfaGraph
