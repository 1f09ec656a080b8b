import Kleene.Proofs.Changes
import Kleene.Proofs.Evaluation
import Kleene.Proofs.Runs

/-!
# Descriptions of deterministic automata

A description names states by any numbers, in any order and with repetitions.  Its states are
counted in ascending order, and its transitions are checked one after the other against those that
are there already.  There is an automaton for it exactly if everything that it mentions is a state
and no two transitions contradict each other, and that automaton accepts the words that the
transitions spell on the states as they are named.
-/

namespace Kleene.Dfa

variable {σ : Type} {d d' : Dfa σ} {p p' : Parts σ} {q r : State} {i : Nat} {a : σ} {w : List σ}
  {e : Edge σ} {es : List (Edge σ)}

namespace Parts

/-! ## Numbers of states -/

/-- The described states, each once, in ascending order. -/
def identifiers (p : Parts σ) : List State := Ascending.ofList p.states

/-- The place of a state among all described ones. -/
def number (p : Parts σ) (q : State) : State := p.identifiers.idxOf q

theorem mem_identifiers : q ∈ p.identifiers ↔ q ∈ p.states := Ascending.mem_ofList

theorem pairwise_identifiers : p.identifiers.Pairwise (· < ·) :=
  Ascending.isAscending_nat_iff.1 (Ascending.isAscending_ofList p.states)

theorem nodup_identifiers : p.identifiers.Nodup := pairwise_identifiers.imp Nat.ne_of_lt

theorem length_identifiers : p.identifiers.length = p.states.toFinset.card := by
  rw [← List.toFinset_card_of_nodup nodup_identifiers]
  congr 1
  ext q
  rw [List.mem_toFinset, List.mem_toFinset, mem_identifiers]

theorem number_lt (hq : q ∈ p.states) : p.number q < p.identifiers.length :=
  List.idxOf_lt_length_of_mem (mem_identifiers.2 hq)

theorem getElem?_number (hq : q ∈ p.states) : p.identifiers[p.number q]? = some q :=
  List.getElem?_idxOf (mem_identifiers.2 hq)

theorem number_inj (hq : q ∈ p.states) : p.number q = p.number r ↔ q = r :=
  List.idxOf_inj (mem_identifiers.2 hq)

theorem exists_number (hi : i < p.identifiers.length) : ∃ q ∈ p.states, p.number q = i :=
  ⟨p.identifiers[i], mem_identifiers.1 (List.getElem_mem hi), nodup_identifiers.idxOf_getElem i hi⟩

/-- Greater states have greater numbers. -/
theorem strictMonoOn_number (p : Parts σ) : StrictMonoOn p.number {q | q ∈ p.states} := by
  intro q hq r hr hlt
  apply Ascending.idxOf_lt_idxOf (Ascending.isAscending_ofList p.states) _ _ hlt
  · exact mem_identifiers.2 hq
  · exact mem_identifiers.2 hr

theorem number?_of_mem (hq : q ∈ p.states) : p.number? q = some (p.number q) := by
  obtain ⟨i, hi⟩ := Option.isSome_iff_exists.1 (List.isSome_idxOf?.2 (mem_identifiers.2 hq))
  rw [number, List.idxOf_eq_getD_idxOf?, hi]
  exact hi

theorem number?_of_notMem (hq : q ∉ p.states) : p.number? q = none :=
  List.idxOf?_eq_none_iff.2 fun h => hq (mem_identifiers.1 h)

/-! ## The automaton of a description -/

/-- Everything that the description mentions is among its states, and no two transitions leave one
state on one letter for different states. -/
structure Valid (p : Parts σ) : Prop where
  start_mem : p.start ∈ p.states
  finals_mem : ∀ q ∈ p.finals, q ∈ p.states
  ends_mem : ∀ e ∈ p.transitions, e.source ∈ p.states ∧ e.target ∈ p.states
  deterministic : ∀ e ∈ p.transitions, ∀ f ∈ p.transitions,
    e.source = f.source → e.label = f.label → e.target = f.target

/-- The descriptions have the same start state and list the same states, letters, transitions and
final states, each in an order and with repetitions of its own. -/
structure SameSets (p p' : Parts σ) : Prop where
  mem_states : ∀ q, q ∈ p.states ↔ q ∈ p'.states
  mem_alphabet : ∀ a, a ∈ p.alphabet ↔ a ∈ p'.alphabet
  mem_transitions : ∀ e, e ∈ p.transitions ↔ e ∈ p'.transitions
  start_eq : p.start = p'.start
  mem_finals : ∀ q, q ∈ p.finals ↔ q ∈ p'.finals

theorem SameSets.symm (h : p.SameSets p') : p'.SameSets p :=
  ⟨fun q => (h.mem_states q).symm, fun a => (h.mem_alphabet a).symm,
    fun e => (h.mem_transitions e).symm, h.start_eq.symm, fun q => (h.mem_finals q).symm⟩

theorem Valid.of_sameSets (h : p.Valid) (hsame : p.SameSets p') : p'.Valid where
  start_mem := hsame.start_eq ▸ (hsame.mem_states _).1 h.start_mem
  finals_mem q hq := (hsame.mem_states q).1 (h.finals_mem q ((hsame.mem_finals q).2 hq))
  ends_mem e he := (h.ends_mem e ((hsame.mem_transitions e).2 he)).imp (hsame.mem_states _).1
    (hsame.mem_states _).1
  deterministic e he f hf := h.deterministic e ((hsame.mem_transitions e).2 he) f
    ((hsame.mem_transitions f).2 hf)

variable [Ord σ]

/-- The described states, without a transition. -/
def bare (p : Parts σ) : Dfa σ where
  marks := p.identifiers.map fun q => Mark.ofAccepting (q ∈ p.finals)
  alphabet := Ascending.ofList p.alphabet
  edges := []
  start := p.number p.start

/-- The described states and transitions, by number. -/
def automaton (p : Parts σ) : Dfa σ :=
  p.bare.addEdges (p.transitions.map (Edge.mapStates p.number))

theorem stateCount_bare : p.bare.stateCount = p.identifiers.length := List.length_map _

theorem stateCount_automaton : p.automaton.stateCount = p.identifiers.length := stateCount_bare

theorem isFinal_automaton (hq : q ∈ p.states) :
    p.automaton.isFinal (p.number q) = true ↔ q ∈ p.finals := by
  have hmark : p.automaton.marks[p.number q]? = some (Mark.ofAccepting (q ∈ p.finals)) := by
    show (p.identifiers.map _)[p.number q]? = _
    rw [List.getElem?_map, getElem?_number hq]
    rfl
  rw [isFinal, hmark]
  by_cases hfinal : q ∈ p.finals <;> simp [hfinal, Mark.ofAccepting]

variable [Std.TransOrd σ] [Std.LawfulEqOrd σ]

theorem wellFormed_bare (hstart : p.start ∈ p.states) : p.bare.WellFormed :=
  wellFormed_of_no_edges (by rw [List.length_map]; exact number_lt hstart)
    (Ascending.isAscending_ofList _)

omit [Std.TransOrd σ] in
theorem mem_edges_automaton {s t : State} : (⟨s, a, t⟩ : Edge σ) ∈ p.automaton.edges ↔
    ∃ q r, ⟨q, a, r⟩ ∈ p.transitions ∧ p.number q = s ∧ p.number r = t := by
  unfold automaton
  rw [mem_edges_addEdges, List.mem_map]
  constructor
  · rintro (⟨⟨q, b, r⟩, he, heq⟩ | he)
    · cases heq
      exact ⟨q, r, he, rfl, rfl⟩
    · cases he
  · rintro ⟨q, r, he, rfl, rfl⟩
    exact .inl ⟨_, he, rfl⟩

omit [Std.TransOrd σ] in
/-- Transitions between described states contradict each other exactly if their numbered forms
do. -/
theorem deterministic_automaton_iff
    (hends : ∀ e ∈ p.transitions, e.source ∈ p.states ∧ e.target ∈ p.states) :
    p.automaton.Deterministic ↔ ∀ e ∈ p.transitions, ∀ f ∈ p.transitions,
      e.source = f.source → e.label = f.label → e.target = f.target := by
  constructor
  · rintro h ⟨q, a, r⟩ he ⟨q', a', r'⟩ hf rfl rfl
    have hnumbers : p.number r = p.number r' := h _ _ _ _
      (mem_edges_automaton.2 ⟨q, r, he, rfl, rfl⟩) (mem_edges_automaton.2 ⟨q, r', hf, rfl, rfl⟩)
    exact (number_inj (hends _ he).2).1 hnumbers
  · intro h s a t t' he hf
    obtain ⟨q, r, he', rfl, rfl⟩ := mem_edges_automaton.1 he
    obtain ⟨q', r', hf', hq, rfl⟩ := mem_edges_automaton.1 hf
    have hsource : q' = q := (number_inj (hends ⟨q', a, r'⟩ hf').1).1 hq
    have htarget : r = r' := h ⟨q, a, r⟩ he' ⟨q', a, r'⟩ hf' hsource.symm rfl
    rw [htarget]

/-- What is listed, and not how, makes the automaton. -/
theorem SameSets.automaton_eq (h : p.SameSets p') : p.automaton = p'.automaton := by
  have hidentifiers : p.identifiers = p'.identifiers := Ascending.ofList_congr h.mem_states
  have hnumber : p.number = p'.number := by
    unfold number
    rw [hidentifiers]
  have hbare : p.bare = p'.bare := by
    unfold bare
    rw [hidentifiers, hnumber, Ascending.ofList_congr h.mem_alphabet, h.start_eq]
    simp only [h.mem_finals]
  unfold automaton addEdges
  rw [hbare, hnumber]
  congr 1
  · exact Ascending.insertAll_congr (Ascending.isAscending_ofList _) fun a => by
      simp only [List.mem_map, h.mem_transitions]
  · exact Ascending.insertAll_congr Ascending.isAscending_nil fun e => by
      simp only [List.mem_map, h.mem_transitions]

end Parts

/-! ## Reading a description -/

section Reading

variable [Ord σ] [Std.TransOrd σ] [Std.LawfulEqOrd σ] [DecidableEq σ]

theorem WellFormed.deterministic_addEdge_iff (hd : d.WellFormed) {s t : State}
    (hs : s < d.stateCount) (ht : t < d.stateCount) :
    (d.addEdges [⟨s, a, t⟩]).Deterministic ↔ ∀ r, d.successor s a = some r → t = r := by
  refine ⟨fun h r hr => ?_, fun h => (hd.addEdge hs ht h).deterministic⟩
  exact h _ _ _ _ (mem_edges_addEdges.2 (.inl List.mem_cons_self))
    (mem_edges_addEdges.2 (.inr (mem_edges_of_successor hr)))

variable [Quotable σ]

/-- A described transition is taken if its ends are described states and it contradicts none that
was taken before. -/
theorem WellFormed.addDescribed_eq_ok_iff (hd : d.WellFormed)
    (hcount : d.stateCount = p.identifiers.length) : addDescribed p d e = .ok d' ↔
      (e.source ∈ p.states ∧ e.target ∈ p.states) ∧
        (d.addEdges [e.mapStates p.number]).Deterministic ∧
        d' = d.addEdges [e.mapStates p.number] := by
  unfold addDescribed
  by_cases hs : e.source ∈ p.states
  · by_cases ht : e.target ∈ p.states
    · rw [Parts.number?_of_mem hs, Parts.number?_of_mem ht, and_iff_right ⟨hs, ht⟩, Edge.mapStates,
        hd.deterministic_addEdge_iff (hcount ▸ Parts.number_lt hs) (hcount ▸ Parts.number_lt ht)]
      dsimp only
      cases hr : d.successor (p.number e.source) e.label with
      | none => simp [eq_comm]
      | some r =>
        by_cases heq : r = p.number e.target
        · subst heq
          rw [hd.addEdge_eq_self hr]
          simp [eq_comm]
        · simp [heq, eq_comm]
    · rw [Parts.number?_of_mem hs, Parts.number?_of_notMem ht]
      exact iff_of_false (fun h => by cases h) fun h => ht h.1.2
  · rw [Parts.number?_of_notMem hs]
    exact iff_of_false (fun h => by cases h) fun h => hs h.1.1

/-- The transitions are taken one after the other exactly if together they are deterministic. -/
theorem WellFormed.foldlM_addDescribed_eq_ok_iff (hd : d.WellFormed)
    (hcount : d.stateCount = p.identifiers.length) : es.foldlM (addDescribed p) d = .ok d' ↔
      (∀ e ∈ es, e.source ∈ p.states ∧ e.target ∈ p.states) ∧
        (d.addEdges (es.map (Edge.mapStates p.number))).Deterministic ∧
        d' = d.addEdges (es.map (Edge.mapStates p.number)) := by
  induction es generalizing d with
  | nil =>
    show Except.ok d = Except.ok d' ↔ _
    rw [Except.ok.injEq, eq_comm]
    exact ⟨fun h => ⟨List.forall_mem_nil _, hd.deterministic, h⟩, fun h => h.2.2⟩
  | cons e es ih =>
    have happend : d.addEdges (e.mapStates p.number :: es.map (Edge.mapStates p.number)) =
        (d.addEdges [e.mapStates p.number]).addEdges (es.map (Edge.mapStates p.number)) := by
      rw [hd.addEdges_append, List.singleton_append]
    rw [List.forall_mem_cons, List.map_cons, happend]
    by_cases hfirst : (e.source ∈ p.states ∧ e.target ∈ p.states) ∧
        (d.addEdges [e.mapStates p.number]).Deterministic
    · have hadd := (hd.addDescribed_eq_ok_iff hcount).2 ⟨hfirst.1, hfirst.2, rfl⟩
      have hwf : (d.addEdges [e.mapStates p.number]).WellFormed := hd.addEdge
        (hcount ▸ Parts.number_lt hfirst.1.1) (hcount ▸ Parts.number_lt hfirst.1.2)
        ((hd.deterministic_addEdge_iff (hcount ▸ Parts.number_lt hfirst.1.1)
          (hcount ▸ Parts.number_lt hfirst.1.2)).1 hfirst.2)
      rw [foldlM_cons_of_ok hadd, ih hwf hcount, and_iff_right hfirst.1]
    · refine iff_of_false (fun hok => ?_) fun hok => hfirst ⟨hok.1.1, ?_⟩
      · obtain ⟨d₁, hadd, -⟩ := exists_of_foldlM_cons hok
        exact hfirst (((hd.addDescribed_eq_ok_iff hcount).1 hadd).imp_right And.left)
      · -- fewer transitions are no less deterministic
        intro s a t t' he hf
        exact hok.2.1 s a t t' (mem_edges_addEdges.2 (.inr he)) (mem_edges_addEdges.2 (.inr hf))

/-- There is an automaton for the descriptions that are valid. -/
theorem ofParts_eq_ok_iff : ofParts p = .ok d ↔ p.Valid ∧ d = p.automaton := by
  unfold ofParts
  by_cases hstart : p.start ∈ p.states
  · rw [Parts.number?_of_mem hstart]
    dsimp only
    split
    · rename_i q hq
      have hmissing : q ∉ p.states := by simpa using List.find?_some hq
      exact iff_of_false (fun h => by cases h) fun h =>
        hmissing (h.1.finals_mem q (List.mem_of_find?_eq_some hq))
    · rename_i hfinals
      have hfinals : ∀ q ∈ p.finals, q ∈ p.states := by simpa using hfinals
      show p.transitions.foldlM (addDescribed p) p.bare = .ok d ↔ _
      rw [(Parts.wellFormed_bare hstart).foldlM_addDescribed_eq_ok_iff Parts.stateCount_bare]
      show _ ∧ p.automaton.Deterministic ∧ d = p.automaton ↔ _
      constructor
      · rintro ⟨hends, hdeterministic, hd⟩
        exact ⟨⟨hstart, hfinals, hends, (Parts.deterministic_automaton_iff hends).1 hdeterministic⟩,
          hd⟩
      · rintro ⟨hvalid, hd⟩
        exact ⟨hvalid.ends_mem,
          (Parts.deterministic_automaton_iff hvalid.ends_mem).2 hvalid.deterministic, hd⟩
  · rw [Parts.number?_of_notMem hstart]
    exact iff_of_false (fun h => by cases h) fun h => hstart h.1.start_mem

end Reading

/-! ## Words of a description -/

/-- Following described transitions that spell the word leads from one state to the other. -/
inductive Parts.Leads (p : Parts σ) : State → List σ → State → Prop
  | nil (q : State) : p.Leads q [] q
  | cons {q r s : State} {a : σ} {w : List σ} :
      ⟨q, a, r⟩ ∈ p.transitions → p.Leads r w s → p.Leads q (a :: w) s

namespace Parts.Valid

theorem mem_of_leads (h : p.Valid) (hw : p.Leads q w r) (hq : q ∈ p.states) : r ∈ p.states := by
  induction hw with
  | nil => exact hq
  | cons he _ ih => exact ih (h.ends_mem _ he).2

variable [Ord σ] [Std.LawfulEqOrd σ] [DecidableEq σ]

theorem successor_eq_some_iff (h : p.Valid) :
    p.automaton.successor (p.number q) a = some i ↔
      ∃ r, ⟨q, a, r⟩ ∈ p.transitions ∧ p.number r = i := by
  rw [Dfa.successor_eq_some_iff ((deterministic_automaton_iff h.ends_mem).2 h.deterministic),
    mem_edges_automaton]
  constructor
  · rintro ⟨q', r, he, hnumber, rfl⟩
    have hsource : q' = q := (number_inj (h.ends_mem ⟨q', a, r⟩ he).1).1 hnumber
    exact ⟨r, hsource ▸ he, rfl⟩
  · rintro ⟨r, he, rfl⟩
    exact ⟨q, r, he, rfl, rfl⟩

/-- A run on the numbers follows the transitions between the states as they are named. -/
theorem run_eq_some_iff (h : p.Valid) :
    p.automaton.run (p.number q) w = some i ↔ ∃ r, p.Leads q w r ∧ p.number r = i := by
  induction w generalizing q with
  | nil =>
    rw [run_nil, Option.some.injEq]
    constructor
    · intro heq
      exact ⟨q, .nil q, heq⟩
    · rintro ⟨r, hleads, rfl⟩
      cases hleads
      rfl
  | cons a w ih =>
    rw [← List.singleton_append, run_append, run_singleton, Option.bind_eq_some_iff]
    constructor
    · rintro ⟨j, hj, hrest⟩
      obtain ⟨r, he, rfl⟩ := h.successor_eq_some_iff.1 hj
      obtain ⟨s, hleads, hs⟩ := ih.1 hrest
      exact ⟨s, .cons he hleads, hs⟩
    · rintro ⟨s, hleads, hs⟩
      cases hleads with
      | cons he hleads =>
        exact ⟨_, h.successor_eq_some_iff.2 ⟨_, he, rfl⟩, ih.2 ⟨s, hleads, hs⟩⟩

theorem accepts_automaton_iff (h : p.Valid) :
    p.automaton.accepts w = true ↔ ∃ r ∈ p.finals, p.Leads p.start w r := by
  have haccepts : p.automaton.accepts w = true ↔ ∃ i,
      p.automaton.run (p.number p.start) w = some i ∧ p.automaton.isFinal i = true := by
    show ((p.automaton.run (p.number p.start) w).map p.automaton.isFinal).getD false = true ↔ _
    cases p.automaton.run (p.number p.start) w <;> simp
  rw [haccepts]
  constructor
  · rintro ⟨i, hrun, hfinal⟩
    obtain ⟨r, hleads, rfl⟩ := h.run_eq_some_iff.1 hrun
    exact ⟨r, (isFinal_automaton (h.mem_of_leads hleads h.start_mem)).1 hfinal, hleads⟩
  · rintro ⟨r, hr, hleads⟩
    exact ⟨p.number r, h.run_eq_some_iff.2 ⟨r, hleads, rfl⟩,
      (isFinal_automaton (h.finals_mem r hr)).2 hr⟩

end Parts.Valid

section Specification

variable [Ord σ] [Std.TransOrd σ] [Std.LawfulEqOrd σ] [DecidableEq σ] [Quotable σ]

/-- There is an automaton exactly for the valid descriptions.  Its states are the numbers of the
described ones in their order, it accepts what the described transitions spell, and repetitions
and the order of the lists make no difference. -/
theorem ofParts_spec (p : Parts σ) :
    ((∃ d, ofParts p = .ok d) ↔ p.Valid) ∧
    (∀ d, ofParts p = .ok d →
      d.states = List.range p.states.toFinset.card ∧
      StrictMonoOn p.number {q | q ∈ p.states} ∧
      (∀ i, i ∈ d.states ↔ ∃ q ∈ p.states, p.number q = i) ∧
      d.start = p.number p.start ∧
      (∀ q ∈ p.states, d.isFinal (p.number q) = true ↔ q ∈ p.finals) ∧
      (∀ q ∈ p.states, ∀ a i, d.successor (p.number q) a = some i ↔
        ∃ r, ⟨q, a, r⟩ ∈ p.transitions ∧ p.number r = i) ∧
      ∀ w, d.accepts w = true ↔ ∃ r ∈ p.finals, p.Leads p.start w r) ∧
    ∀ p', p.SameSets p' → ∀ d, ofParts p' = .ok d ↔ ofParts p = .ok d := by
  simp only [ofParts_eq_ok_iff]
  refine ⟨?_, ?_, fun p' hsame d => ?_⟩
  · constructor
    · rintro ⟨d, h, -⟩
      exact h
    · intro h
      exact ⟨p.automaton, h, rfl⟩
  · rintro d ⟨h, rfl⟩
    refine ⟨?_, p.strictMonoOn_number, fun i => ?_, rfl, fun q hq => Parts.isFinal_automaton hq,
      fun q _ a i => h.successor_eq_some_iff, fun w => h.accepts_automaton_iff⟩
    · rw [states, Parts.stateCount_automaton, Parts.length_identifiers]
    · rw [states, Parts.stateCount_automaton, List.mem_range]
      constructor
      · exact Parts.exists_number
      · rintro ⟨q, hq, rfl⟩
        exact Parts.number_lt hq
  · rw [hsame.automaton_eq]
    exact and_congr_left fun _ => ⟨fun h => h.of_sameSets hsame.symm, fun h => h.of_sameSets hsame⟩

/-- Three states with gaps between them, out of order, one of them and one transition twice. -/
def scattered : Parts Char where
  states := [20, 7, 20, 15]
  alphabet := ['c']
  transitions := [⟨20, 'a', 7⟩, ⟨7, 'b', 20⟩, ⟨20, 'a', 7⟩]
  start := 20
  finals := [7, 7]

theorem ofParts_spec_scattered : ∃ d, ofParts scattered = .ok d ∧ d.states = [0, 1, 2] ∧
    d.start = scattered.number 20 ∧ d.accepts ['a', 'b', 'a'] = true := by
  obtain ⟨hexists, hok, -⟩ := ofParts_spec scattered
  have hvalid : scattered.Valid := ⟨by decide, by decide, by decide, by decide⟩
  obtain ⟨d, hd⟩ := hexists.2 hvalid
  obtain ⟨hstates, -, -, hstart, -, -, hwords⟩ := hok d hd
  have hleads : scattered.Leads 20 ['a', 'b', 'a'] 7 :=
    .cons (r := 7) (by decide) (.cons (r := 20) (by decide) (.cons (r := 7) (by decide) (.nil 7)))
  exact ⟨d, hd, hstates, hstart, (hwords _).2 ⟨7, by decide, hleads⟩⟩

end Specification

end Kleene.Dfa
