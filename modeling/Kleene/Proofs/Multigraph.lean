import Kleene.Dfa.Multigraph
import Kleene.Proofs.Assembly

/-!
# Automata and their graphs

The few functions that make and change a graph never let both flags of a node be set or two
transitions go out of a node on one letter, although the graph has room for that.  Whatever
automaton is built, these functions make a graph that holds exactly its states, marks and
transitions, each transition once.  So counting the transitions of a node tells whether there is
one on every letter.
-/

namespace Kleene

variable {σ : Type}

namespace Multigraph

variable {g g' : Multigraph σ} {d d' : Dfa σ} {e : Edge σ} {p q r : State} {a : σ}
variable {accepting : Bool} {mark : Mark}

/-! ## What the functions keep -/

/-- A graph as it should be. -/
structure Sound [Ord σ] (g : Multigraph σ) : Prop where
  start_lt : g.start < g.stateCount
  ends_lt : ∀ e ∈ g.edges, e.source < g.stateCount ∧ e.target < g.stateCount
  letter_mem : ∀ e ∈ g.edges, e.label ∈ g.alphabet
  alphabet_ascending : Ascending.IsAscending g.alphabet
  deterministic : g.edges.Pairwise fun e f => e.source = f.source → e.label ≠ f.label
  one_flag : ∀ f ∈ g.nodes, ¬(f.accepting = true ∧ f.trap = true)

section Changes

variable [Ord σ]

theorem Sound.withNodes (h : g.Sound) {nodes : List Flags} (hle : g.nodes.length ≤ nodes.length)
    (hflags : ∀ f ∈ nodes, f ∈ g.nodes ∨ ¬(f.accepting = true ∧ f.trap = true)) :
    ({ g with nodes := nodes } : Multigraph σ).Sound where
  start_lt := Nat.lt_of_lt_of_le h.start_lt hle
  ends_lt e he := (h.ends_lt e he).imp (Nat.lt_of_lt_of_le · hle) (Nat.lt_of_lt_of_le · hle)
  letter_mem := h.letter_mem
  alphabet_ascending := h.alphabet_ascending
  deterministic := h.deterministic
  one_flag f hf := (hflags f hf).elim (h.one_flag f) id

theorem Sound.addState (h : g.Sound) (accepting : Bool) : (g.addState accepting).Sound := by
  refine h.withNodes (by simp) fun f hf => ?_
  obtain hf | hf := List.mem_append.1 hf
  · exact .inl hf
  · rw [List.mem_singleton.1 hf]
    exact .inr (by simp)

theorem Sound.setNode (h : g.Sound) {f : Flags} (hf : ¬(f.accepting = true ∧ f.trap = true))
    (q : State) : ({ g with nodes := g.nodes.set q f } : Multigraph σ).Sound := by
  refine h.withNodes (by simp) fun f' hf' => ?_
  obtain hold | rfl := List.mem_or_eq_of_mem_set hf'
  · exact .inl hold
  · exact .inr hf

theorem Sound.of_setAccepting? (h : g.Sound) (hset : g.setAccepting? q accepting = .ok g') :
    g'.Sound := by
  unfold setAccepting? at hset
  split at hset
  · cases hset
  · cases hset
    exact h.setNode (by cases accepting <;> simp) q

theorem Sound.of_markTrap? (h : g.Sound) (hmark : g.markTrap? q = .ok g') : g'.Sound := by
  unfold markTrap? at hmark
  split at hmark
  · cases hmark
    exact h.setNode (by simp) q
  · cases hmark

variable [DecidableEq σ]

omit [Ord σ] in
theorem find?_edge_eq_none_iff {edges : List (Edge σ)} :
    (edges.find? fun e => e.source = q && e.label = a).map Edge.target = none ↔
      ∀ e ∈ edges, e.source = q → e.label ≠ a := by
  rw [Option.map_eq_none_iff, List.find?_eq_none]
  simp only [Bool.and_eq_true, decide_eq_true_eq, not_and, ne_eq]

variable [Quotable σ]

theorem addEdge?_cases (hadd : g.addEdge? e = .ok g') : g' = g ∨
    (g.successor e.source e.label = none ∧ e.source < g.stateCount ∧ e.target < g.stateCount ∧
      g' = { g with alphabet := Ascending.insert e.label g.alphabet, edges := e :: g.edges }) := by
  unfold addEdge? at hadd
  split at hadd
  · split at hadd
    · cases hadd
      exact .inl rfl
    · cases hadd
  · split at hadd
    · rename_i hends
      cases hadd
      exact .inr ⟨‹_›, hends.1, hends.2, rfl⟩
    · cases hadd

variable [Std.TransOrd σ] [Std.LawfulEqOrd σ]

/-- A transition is added only where none is on its letter. -/
theorem Sound.of_addEdge? (h : g.Sound) (hadd : g.addEdge? e = .ok g') : g'.Sound := by
  obtain rfl | ⟨hnone, hs, ht, rfl⟩ := addEdge?_cases hadd
  · exact h
  · exact
      { start_lt := h.start_lt
        ends_lt := List.forall_mem_cons.2 ⟨⟨hs, ht⟩, h.ends_lt⟩
        letter_mem := List.forall_mem_cons.2 ⟨Ascending.mem_insert.2 (.inl rfl), fun f hf =>
          Ascending.mem_insert.2 (.inr (h.letter_mem f hf))⟩
        alphabet_ascending := Ascending.isAscending_insert h.alphabet_ascending
        deterministic := h.deterministic.cons fun f hf hsource hlabel =>
          find?_edge_eq_none_iff.1 hnone f hf hsource.symm hlabel.symm
        one_flag := h.one_flag }

/-- The graphs that the functions make. -/
inductive Assembled : Multigraph σ → Prop
  | ofAccepting? {alphabet : List σ} {accepting : List Bool} {start : State}
      {g : Multigraph σ} : ofAccepting? alphabet accepting start = .ok g → Assembled g
  | addState {g : Multigraph σ} (accepting : Bool) : Assembled g → Assembled (g.addState accepting)
  | setAccepting? {g g' : Multigraph σ} {q : State} {accepting : Bool} :
      Assembled g → g.setAccepting? q accepting = .ok g' → Assembled g'
  | markTrap? {g g' : Multigraph σ} {q : State} :
      Assembled g → g.markTrap? q = .ok g' → Assembled g'
  | addEdge? {g g' : Multigraph σ} {e : Edge σ} :
      Assembled g → g.addEdge? e = .ok g' → Assembled g'

omit [DecidableEq σ] [Quotable σ] in
theorem sound_of_ofAccepting? {alphabet : List σ} {accepting : List Bool} {start : State}
    (hnew : ofAccepting? alphabet accepting start = .ok g) : g.Sound := by
  unfold ofAccepting? at hnew
  split at hnew
  · cases hnew
    exact
      { start_lt := by simpa [stateCount]
        ends_lt := by simp
        letter_mem := by simp
        alphabet_ascending := Ascending.isAscending_ofList alphabet
        deterministic := .nil
        one_flag := fun f hf => by
          obtain ⟨b, -, rfl⟩ := List.mem_map.1 hf
          simp }
  · cases hnew

theorem Assembled.sound (h : g.Assembled) : g.Sound := by
  induction h with
  | ofAccepting? hnew => exact sound_of_ofAccepting? hnew
  | addState accepting _ ih => exact ih.addState accepting
  | setAccepting? _ hset ih => exact ih.of_setAccepting? hset
  | markTrap? _ hmark ih => exact ih.of_markTrap? hmark
  | addEdge? _ hadd ih => exact ih.of_addEdge? hadd

end Changes

/-! ## The graph of an automaton -/

/-- The graph holds exactly what the automaton has. -/
structure Represents (g : Multigraph σ) (d : Dfa σ) : Prop where
  nodes : g.nodes = d.marks.map Mark.flags
  alphabet : g.alphabet = d.alphabet
  edges : g.edges.Perm d.edges
  start : g.start = d.start

theorem Represents.stateCount_eq (h : g.Represents d) : g.stateCount = d.stateCount := by
  unfold stateCount Dfa.stateCount
  rw [h.nodes, List.length_map]

theorem Represents.isComplete_eq (h : g.Represents d) : g.isComplete = d.isComplete := by
  unfold isComplete Dfa.isComplete Dfa.states
  simp only [h.stateCount_eq, h.alphabet, h.edges.countP_eq]

/-! ## Changes of both -/

theorem Represents.addState (h : g.Represents d) (accepting : Bool) :
    (g.addState accepting).Represents (d.addState (.ofAccepting accepting)) := by
  refine ⟨?_, h.alphabet, h.edges, h.start⟩
  show g.nodes ++ _ = (d.marks ++ _).map _
  rw [h.nodes, List.map_append]
  cases accepting <;> rfl

theorem Represents.setNode (h : g.Represents d) (q : State) (mark : Mark) :
    ({ g with nodes := g.nodes.set q mark.flags } : Multigraph σ).Represents
      { d with marks := d.marks.set q mark } := by
  refine ⟨?_, h.alphabet, h.edges, h.start⟩
  show g.nodes.set q _ = (d.marks.set q mark).map _
  rw [h.nodes, List.map_set]

theorem Represents.exists_markTrap? (h : g.Represents d) (hq : q < d.stateCount) :
    ∃ g', g.markTrap? q = .ok g' ∧ g'.Represents { d with marks := d.marks.set q .trap } := by
  refine ⟨_, ?_, h.setNode q .trap⟩
  unfold markTrap?
  rw [h.stateCount_eq, if_pos hq]
  rfl

/-- A state that is not accepting keeps its mark if it is to be none. -/
theorem Represents.exists_setAccepting? (h : g.Represents d)
    (hset : d.setAccepting? q accepting = .ok d') :
    ∃ g', g.setAccepting? q accepting = .ok g' ∧ g'.Represents d' := by
  unfold Dfa.setAccepting? at hset
  obtain ⟨hq, hset⟩ := Dfa.requireState_bind_eq_ok_iff.1 hset
  have hmark : d.marks[q]? = some d.marks[q] := List.getElem?_eq_getElem hq
  have hflags : g.nodes[q]? = some d.marks[q].flags := by
    rw [h.nodes, List.getElem?_map, hmark]
    rfl
  unfold setAccepting?
  rw [hflags]
  refine ⟨_, rfl, ?_⟩
  cases accepting with
  | true =>
    cases hset
    exact h.setNode q .accepting
  | false =>
    unfold Dfa.isFinal at hset
    rw [hmark] at hset
    by_cases hfinal : d.marks[q] = .accepting
    · rw [hfinal] at hset ⊢
      cases hset
      exact h.setNode q .plain
    · have hsame := h.setNode q d.marks[q]
      have htrap : (⟨false, d.marks[q].flags.trap⟩ : Flags) = d.marks[q].flags := by
        revert hfinal
        cases d.marks[q] <;> simp [Mark.flags]
      simp only [Option.some.injEq, hfinal] at hset
      cases hset
      rw [List.set_getElem_self hq] at hsame
      rwa [← htrap] at hsame

theorem Represents.exists_addEdge? [Ord σ] [DecidableEq σ] [Quotable σ] [Std.LawfulEqOrd σ]
    (h : g.Represents d) (hnone : d.successor e.source e.label = none)
    (hs : e.source < d.stateCount) (ht : e.target < d.stateCount) :
    ∃ g', g.addEdge? e = .ok g' ∧ g'.Represents (d.addEdges [e]) := by
  have hnew : ∀ f ∈ d.edges, f.source = e.source → f.label ≠ e.label :=
    find?_edge_eq_none_iff.1 hnone
  have hnone' : g.successor e.source e.label = none :=
    find?_edge_eq_none_iff.2 fun f hf => hnew f (h.edges.mem_iff.1 hf)
  have hmem : e ∉ d.edges := fun he => hnew e he rfl rfl
  refine ⟨{ g with alphabet := Ascending.insert e.label g.alphabet, edges := e :: g.edges }, ?_,
    h.nodes, ?_, (h.edges.cons e).trans (Ascending.perm_insert hmem).symm, h.start⟩
  · unfold addEdge?
    rw [hnone', h.stateCount_eq]
    exact if_pos ⟨hs, ht⟩
  · show Ascending.insert e.label g.alphabet = Ascending.insert e.label d.alphabet
    rw [h.alphabet]

end Multigraph

/-! ## Every automaton has a graph -/

namespace Dfa

variable [Ord σ] [DecidableEq σ] [Quotable σ] {d : Dfa σ}

/-- The functions on graphs make one that holds exactly what the automaton has. -/
def Assemblable (d : Dfa σ) : Prop := ∃ g : Multigraph σ, g.Assembled ∧ g.Represents d

/-- Traps are marked one after the other, after their nodes have been made. -/
theorem Assemblable.markTraps {marks more : List Mark}
    (h : Assemblable { d with marks := marks ++ more.map fun m => .ofAccepting (m = .accepting) }) :
    Assemblable { d with marks := marks ++ more } := by
  induction more generalizing marks with
  | nil => exact h
  | cons m more ih =>
    have hnext : Assemblable
        { d with marks := (marks ++ [m]) ++ more.map fun m => .ofAccepting (m = .accepting) } := by
      cases m with
      | trap =>
        obtain ⟨g, hg, hrep⟩ := h
        have hlt : marks.length < (marks ++ ([Mark.trap] ++ more).map
            fun m => Mark.ofAccepting (m = .accepting)).length := by simp
        obtain ⟨g', hmark, hrep'⟩ := hrep.exists_markTrap? hlt
        refine ⟨g', hg.markTrap? hmark, ?_⟩
        simpa using hrep'
      | plain | accepting => simpa [Mark.ofAccepting] using h
    simpa using ih hnext

variable [Std.LawfulEqOrd σ]

theorem keptByChanges_assemblable : KeptByChanges (Assemblable (σ := σ)) where
  bare marks alphabet start hstart := by
    let accepting := marks.map fun m => decide (m = .accepting)
    have hnew : Multigraph.ofAccepting? alphabet accepting start =
        .ok ⟨accepting.map (⟨·, false⟩), Ascending.ofList alphabet, [], start⟩ :=
      if_pos (by rwa [List.length_map])
    have hnodes : accepting.map (⟨·, false⟩) =
        (marks.map fun m => Mark.ofAccepting (m = .accepting)).map Mark.flags := by
      rw [List.map_map, List.map_map]
      refine List.map_congr_left fun m _ => ?_
      cases m <;> rfl
    have hbare : Assemblable ⟨[] ++ marks.map fun m => .ofAccepting (m = .accepting),
        Ascending.ofList alphabet, [], start⟩ := ⟨_, .ofAccepting? hnew, hnodes, rfl, .nil, rfl⟩
    exact Assemblable.markTraps (d := ⟨marks, Ascending.ofList alphabet, [], start⟩) hbare
  addState d mark := by
    rintro ⟨g, hg, hrep⟩
    have hadd : Assemblable (d.addState (.ofAccepting (mark = .accepting))) :=
      ⟨_, hg.addState _, hrep.addState _⟩
    have hmarked : Assemblable { d with marks := d.marks ++ [mark] } := hadd.markTraps
    exact hmarked
  setAccepting? d q accepting d' := by
    rintro ⟨g, hg, hrep⟩ hset
    obtain ⟨g', hset', hrep'⟩ := hrep.exists_setAccepting? hset
    exact ⟨g', hg.setAccepting? hset', hrep'⟩
  addEdge d e := by
    rintro ⟨g, hg, hrep⟩ hnone hs ht
    obtain ⟨g', hadd, hrep'⟩ := hrep.exists_addEdge? hnone hs ht
    exact ⟨g', hg.addEdge? hadd, hrep'⟩

/-! ## Automata that can be built -/

variable [Std.TransOrd σ]

/-- However an automaton was built, its graph has no two transitions out of one state on one letter,
not even the same one twice, and no node with both flags; letters and ends of transitions are
there, and counting transitions tells whether every state has a successor on every letter. -/
theorem Built.multigraph_spec (h : Built d) :
    (∃ g : Multigraph σ, g.Assembled ∧ g.Represents d) ∧
    (∀ g : Multigraph σ, g.Assembled → g.Represents d →
      (g.edges.Pairwise fun e f => e.source = f.source → e.label ≠ f.label) ∧
      (∀ f ∈ g.nodes, ¬(f.accepting = true ∧ f.trap = true)) ∧
      g.isComplete = d.isComplete) ∧
    (∀ p a q r, ⟨p, a, q⟩ ∈ d.edges → ⟨p, a, r⟩ ∈ d.edges → q = r) ∧
    Ascending.IsAscending d.alphabet ∧
    (∀ e ∈ d.edges, e.label ∈ d.alphabet ∧ e.source < d.stateCount ∧ e.target < d.stateCount) ∧
    d.start < d.stateCount ∧
    (∀ q, ¬(d.isFinal q = true ∧ d.isTrap q = true)) ∧
    (d.isComplete = true ↔
      ∀ q < d.stateCount, ∀ a ∈ d.alphabet, ∃ r, d.successor q a = some r) := by
  have hd := h.wellFormed
  refine ⟨keptByChanges_assemblable.of_built h, fun g hg hrep => ?_, hd.deterministic,
    hd.alphabet_ascending, fun e he => ?_, hd.start_lt, fun q hq => ?_, hd.isComplete_iff⟩
  · exact ⟨hg.sound.deterministic, hg.sound.one_flag, hrep.isComplete_eq⟩
  · exact ⟨hd.letter_mem _ _ _ he, hd.source_lt _ _ _ he, hd.target_lt _ _ _ he⟩
  · have haccepting := of_decide_eq_true hq.1
    rw [of_decide_eq_true hq.2] at haccepting
    cases haccepting

/-- Completed, and then a letter leads from the trap to a new accepting state. -/
def reopened : Dfa Char :=
  ⟨[.plain, .trap, .accepting], ['a', 'b'], [⟨0, 'a', 1⟩, ⟨1, 'a', 1⟩, ⟨1, 'b', 2⟩], 0⟩

theorem built_reopened : reopened.Built :=
  .addEdge? (.addState true (.complete (.single ['a'])))
    (show ((single ['a']).complete.addState .accepting).addEdge? ⟨1, 'b', 2⟩ = .ok reopened
      from rfl)

theorem multigraph_spec_reopened : reopened.Built ∧
    (∃ g : Multigraph Char, g.Assembled ∧ g.Represents reopened) ∧
      ¬∀ q < reopened.stateCount, ∀ a ∈ reopened.alphabet, ∃ r, reopened.successor q a = some r :=
  have hspec := built_reopened.multigraph_spec
  ⟨built_reopened, hspec.1, mt hspec.2.2.2.2.2.2.2.2 (by decide)⟩

end Dfa

end Kleene
