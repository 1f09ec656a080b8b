import Kleene.Proofs.Determinization
import Kleene.Proofs.NfaChanges
import Kleene.Proofs.Renumbering

/-!
# Lifting and back

A deterministic automaton that is lifted is, after a word, in the state that the word leads to and,
if that one is accepting, in the new final state as well.  Each set of active states is determined
by the state that the word leads to, and tells it, so subset construction finds one set for every
state that can be reached, and none besides: it gives back the reachable part, dead states
included.
-/

namespace Kleene.Dfa

variable {σ : Type} [Ord σ] {d e : Dfa σ} {p q : State} {a : σ} {u v w : List σ}

/-- A renumbering of the states of the first automaton that can be reached to all states of the
second, which keeps the transitions and the accepting states. -/
structure ReachedIso (d e : Dfa σ) where
  toEquiv : {q // q ∈ d.reachable.toList} ≃ Fin e.stateCount
  alphabet_eq : e.alphabet = d.alphabet
  start_iff : ∀ q, (toEquiv q : State) = e.start ↔ (q : State) = d.start
  isFinal_eq : ∀ q, e.isFinal (toEquiv q) = d.isFinal q
  mem_edges_iff : ∀ (p : {q // q ∈ d.reachable.toList}) (a : σ)
    (q : {q // q ∈ d.reachable.toList}),
    ⟨toEquiv p, a, toEquiv q⟩ ∈ e.edges ↔ ⟨(p : State), a, (q : State)⟩ ∈ d.edges

/-- A renumbering to an automaton in which all states are reached. -/
theorem Renumbering.nonempty_reachedIso [DecidableEq σ] (f : Renumbering d e) (hd : d.WellFormed)
    (he : e.WellFormed) (hreached : ∀ q < e.stateCount, e.Reached q)
    (halphabet : e.alphabet = d.alphabet) (hlanguage : ∀ w, e.accepts w = d.accepts w) :
    Nonempty (ReachedIso d e) := by
  let hequiv : {q // q ∈ d.reachable.toList} ≃ {q // d.Reached q} :=
    Equiv.subtypeEquivRight fun _ => hd.mem_reachable_iff
  refine ⟨⟨hequiv.trans (f.toEquiv.trans (he.reachedEquiv hreached).symm), halphabet,
    fun q => f.start_iff (hequiv q), fun q => f.isFinal_eq hlanguage (hequiv q), fun p a q => ?_⟩⟩
  rw [← successor_eq_some_iff he.deterministic, ← successor_eq_some_iff hd.deterministic]
  exact f.successor_iff (hequiv p) (hequiv q)

/-! ## The states after a word -/

section Lifted

variable [Std.LawfulEqOrd σ]

/-- Without a letter only the new final state is reached, from the accepting states. -/
theorem reaches_toNfa_iff : Reaches d.toNfa.epsilonArrows p q ↔
    q = p ∨ (d.isFinal p = true ∧ q = d.stateCount) := by
  constructor
  · intro h
    induction h with
    | refl => exact .inl rfl
    | tail _ harrow ih =>
      obtain ⟨a, ha, -⟩ | ⟨hfinal, -, rfl⟩ := mem_edges_toNfa.1 (Nfa.mem_epsilonArrows.1 harrow)
      · cases ha
      · obtain rfl | ⟨-, rfl⟩ := ih
        · exact .inr ⟨hfinal, rfl⟩
        · exact absurd (lt_of_isFinal hfinal) (Nat.lt_irrefl _)
  · rintro (rfl | ⟨hfinal, rfl⟩)
    · exact .refl _
    · exact .tail (.refl p) (Nfa.mem_epsilonArrows.2 (mem_edges_toNfa.2 (.inr ⟨hfinal, rfl, rfl⟩)))

variable [DecidableEq σ]

/-- After a word the lifted automaton is in the state that the word leads to, and in the new final
state if that one is accepting. -/
theorem WellFormed.mem_active_toNfa (hd : d.WellFormed) : q ∈ d.toNfa.active w ↔
    ∃ m, d.run d.start w = some m ∧ (q = m ∨ (d.isFinal m = true ∧ q = d.stateCount)) := by
  induction w using List.reverseRecOn generalizing q with
  | nil =>
    show q ∈ d.toNfa.closure d.start ↔ _
    rw [Nfa.mem_closure, reaches_toNfa_iff, run_nil]
    simp
  | append_singleton w a ih =>
    rw [Nfa.active_concat, Nfa.mem_step]
    constructor
    · rintro ⟨p, hp, m, he, hmq⟩
      obtain ⟨b, hb, hedge⟩ | ⟨-, hb, -⟩ := mem_edges_toNfa.1 he
      · obtain rfl := Label.symbol.inj hb
        obtain ⟨r, hr, rfl | ⟨-, rfl⟩⟩ := ih.1 hp
        · refine ⟨m, run_concat_eq_some_iff.2 ⟨_, hr, ?_⟩, reaches_toNfa_iff.1 hmq⟩
          exact (successor_eq_some_iff hd.deterministic).2 hedge
        · -- nothing leaves the new final state
          exact absurd (hd.source_lt _ _ _ hedge) (Nat.lt_irrefl _)
      · cases hb
    · rintro ⟨m, hm, hq⟩
      obtain ⟨p, hp, hnext⟩ := run_concat_eq_some_iff.1 hm
      refine ⟨p, ih.2 ⟨p, hp, .inl rfl⟩, m, ?_, reaches_toNfa_iff.2 hq⟩
      exact mem_edges_toNfa.2 (.inl ⟨a, rfl, mem_edges_of_successor hnext⟩)

theorem WellFormed.active_toNfa_eq_nil_iff (hd : d.WellFormed) :
    d.toNfa.active w = [] ↔ d.run d.start w = none := by
  constructor
  · intro hnil
    cases hrun : d.run d.start w with
    | none => rfl
    | some m =>
      have hm : m ∈ d.toNfa.active w := hd.mem_active_toNfa.2 ⟨m, hrun, .inl rfl⟩
      rw [hnil] at hm
      cases hm
  · intro hnone
    refine List.eq_nil_iff_forall_not_mem.2 fun q hq => ?_
    obtain ⟨m, hm, -⟩ := hd.mem_active_toNfa.1 hq
    rw [hnone] at hm
    cases hm

/-- Words lead to one state exactly if the same states are active after them in the lifted
automaton. -/
theorem WellFormed.active_toNfa_eq_iff (hd : d.WellFormed) :
    d.toNfa.active u = d.toNfa.active v ↔ d.run d.start u = d.run d.start v := by
  constructor
  · intro hsame
    cases hu : d.run d.start u with
    | none =>
      have hnil : d.toNfa.active v = [] := hsame ▸ hd.active_toNfa_eq_nil_iff.2 hu
      rw [hd.active_toNfa_eq_nil_iff.1 hnil]
    | some p =>
      have hmem : p ∈ d.toNfa.active v := hsame ▸ hd.mem_active_toNfa.2 ⟨p, hu, .inl rfl⟩
      obtain ⟨m, hm, rfl | ⟨-, rfl⟩⟩ := hd.mem_active_toNfa.1 hmem
      · rw [hm]
      · exact absurd (hd.run_lt hd.start_lt hu) (Nat.lt_irrefl _)
  · intro hsame
    refine Ascending.eq_of_mem_iff Nfa.isAscending_active Nfa.isAscending_active fun q => ?_
    rw [hd.mem_active_toNfa, hd.mem_active_toNfa, hsame]

/-! ## The lifted automaton -/

variable [Std.TransOrd σ]

omit [DecidableEq σ] in
theorem WellFormed.alphabet_toNfa (hd : d.WellFormed) : d.toNfa.alphabet = d.alphabet := by
  unfold Dfa.toNfa Nfa.addEdges Nfa.ofCount
  rw [Ascending.ofList_eq_self hd.alphabet_ascending]
  refine Ascending.insertAll_eq_self hd.alphabet_ascending fun a ha => ?_
  obtain ⟨p, q, he⟩ := Nfa.mem_letters.1 ha
  obtain ⟨b, hb, hedge⟩ | ⟨-, hb, -⟩ := mem_edges_toNfa.1 (Nfa.mem_addEdges.2 (.inl he))
  · obtain rfl := Label.symbol.inj hb
    exact hd.letter_mem _ _ _ hedge
  · cases hb

omit [Std.LawfulEqOrd σ] [DecidableEq σ] [Std.TransOrd σ] in
theorem mem_transitions {t : Edge σ} : t ∈ d.transitions ↔ t ∈ d.edges :=
  (List.mergeSort_perm ..).mem_iff

omit [DecidableEq σ] in
theorem WellFormed.wellFormed_bare (hd : d.WellFormed) :
    (Nfa.ofCount d.alphabet (d.stateCount + 1) d.start d.stateCount).WellFormed :=
  Nfa.wellFormed_ofCount (Nat.lt_succ_of_lt hd.start_lt) (Nat.lt_succ_self _)

omit [DecidableEq σ] in
/-- The transitions may as well come in order. -/
theorem WellFormed.toNfa_eq_addEdges (hd : d.WellFormed) : d.toNfa =
    (Nfa.ofCount d.alphabet (d.stateCount + 1) d.start d.stateCount).addEdges
      (d.transitions.map (Edge.mapLabel Label.symbol) ++
        d.finals.map fun q => ⟨q, .epsilon, d.stateCount⟩) :=
  hd.wellFormed_bare.addEdges_congr fun e => by
    simp only [List.mem_append, List.mem_map, mem_transitions]

omit [DecidableEq σ] in
/-- The ends of the transitions that are added are states. -/
theorem WellFormed.ends_mem_bare (hd : d.WellFormed) :
    ∀ e ∈ d.transitions.map (Edge.mapLabel Label.symbol) ++
        d.finals.map fun q => (⟨q, .epsilon, d.stateCount⟩ : Edge (Label σ)),
      e.source ∈ List.range (d.stateCount + 1) ∧ e.target ∈ List.range (d.stateCount + 1) := by
  have hwired := hd.toNfa.toWired
  rw [hd.toNfa_eq_addEdges] at hwired
  exact fun e he => ⟨hwired.source_mem _ _ _ (Nfa.mem_addEdges.2 (.inl he)),
    hwired.target_mem _ _ _ (Nfa.mem_addEdges.2 (.inl he))⟩

/-- The ends of all transitions are states, so adding the transitions cannot fail. -/
theorem WellFormed.toNfa?_eq_ok (hd : d.WellFormed) :
    d.toNfa? = .ok d.toNfa := by
  have hbare := hd.wellFormed_bare
  rw [hd.toNfa_eq_addEdges]
  exact Nfa.requireState_bind_eq_ok_iff.2 ⟨hbare.start_mem, Nfa.requireState_bind_eq_ok_iff.2
    ⟨hbare.final_mem, hbare.foldlM_addEdge?_eq_ok hd.ends_mem_bare⟩⟩

/-- Lifting fails within limits exactly if no number is left for the new final state. -/
theorem WellFormed.toNfaWithin?_eq (hd : d.WellFormed) (edges : Nat) :
    d.toNfaWithin? (.limited edges) = if d.stateCount < stateLimit then .ok d.toNfa
      else .error (.stateOutOfRange d.stateCount) := by
  have hlift := hd.toNfa?_eq_ok
  unfold toNfa? at hlift
  unfold toNfaWithin? Room.number? State.ofIndex
  dsimp only
  split
  · exact hlift
  · rfl

/-! ## Back again -/

omit [Ord σ] [Std.LawfulEqOrd σ] [Std.TransOrd σ] in
theorem keyedBy_run (d : Dfa σ) :
    d.KeyedBy (fun w => ∃ q, d.run d.start w = some q) fun w => d.run d.start w where
  exists_run_iff _ := Iff.rfl
  eq_iff u v p q hp hq := by rw [hp, hq, Option.some.injEq]

theorem WellFormed.keyedBy_toDfa_toNfa (hd : d.WellFormed) :
    (d.toNfa.toDfa false).KeyedBy (fun w => ∃ q, d.run d.start w = some q)
      fun w => d.run d.start w where
  exists_run_iff w := by
    have hnone := hd.toNfa.run_eq_none_iff (w := w)
    rw [hd.active_toNfa_eq_nil_iff] at hnone
    rw [← Option.ne_none_iff_exists', ← Option.ne_none_iff_exists']
    exact not_congr hnone
  eq_iff u v p q hp hq := (hd.toNfa.run_eq_run_iff hp hq).trans hd.active_toNfa_eq_iff

/-- Without limits, lifting and subset construction meet no failure; within limits, lifting needs one
number more than there are states.  Both give back, with other numbers, the part that can be reached
from the start, and lifting changes no verdict. -/
theorem WellFormed.toDfa_toNfa_spec [Quotable σ] (hd : d.WellFormed) :
    d.toNfa? = .ok d.toNfa ∧
      (∀ edges, d.toNfaWithin? (.limited edges) = if d.stateCount < stateLimit then .ok d.toNfa
        else .error (.stateOutOfRange d.stateCount)) ∧
      d.toNfa.toDfa? false = .ok (some (d.toNfa.toDfa false)) ∧
        Nonempty (ReachedIso d (d.toNfa.toDfa false)) ∧
          ∀ w, d.toNfa.accepts w = d.accepts w := by
  refine ⟨hd.toNfa?_eq_ok, hd.toNfaWithin?_eq, hd.toNfa.toDfa?_eq_ok false, ?_, hd.accepts_toNfa⟩
  obtain ⟨f⟩ := d.keyedBy_run.nonempty_renumbering hd.keyedBy_toDfa_toNfa
  refine f.nonempty_reachedIso hd (hd.toNfa.toDfa false) (fun q hq => hd.toNfa.exists_run_toDfa hq)
    hd.alphabet_toNfa fun w => ?_
  rw [hd.toNfa.accepts_toDfa, hd.accepts_toNfa]

/-- One letter leads to acceptance and another one to a dead end; nothing leads to the last
state. -/
def byway : Dfa Char :=
  ⟨[.plain, .plain, .accepting, .accepting], ['a', 'b'],
    [⟨0, 'b', 1⟩, ⟨0, 'a', 2⟩, ⟨2, 'a', 2⟩, ⟨3, 'b', 0⟩], 0⟩

theorem wellFormed_byway : byway.WellFormed := wellFormed_of_ofParts
  (show ofParts ⟨[0, 1, 2, 3], ['a', 'b'],
    [⟨0, 'a', 2⟩, ⟨0, 'b', 1⟩, ⟨2, 'a', 2⟩, ⟨3, 'b', 0⟩], 0, [2, 3]⟩ = .ok byway from rfl)

theorem toDfa_toNfa_spec_byway : byway.WellFormed ∧
    byway.toNfa? = .ok byway.toNfa ∧ byway.toNfaWithin? (.limited 4) = .ok byway.toNfa ∧
      byway.toNfa.toDfa? false = .ok (some (byway.toNfa.toDfa false)) ∧
        Nonempty (ReachedIso byway (byway.toNfa.toDfa false)) ∧
          ∀ w, byway.toNfa.accepts w = byway.accepts w := by
  obtain ⟨hlift, hlimited, hback⟩ := wellFormed_byway.toDfa_toNfa_spec
  have hnumber : byway.stateCount < stateLimit := by decide
  exact ⟨wellFormed_byway, hlift, (hlimited 4).trans (if_pos hnumber), hback⟩

end Lifted

end Kleene.Dfa
