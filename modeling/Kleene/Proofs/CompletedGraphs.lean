import Kleene.Proofs.Limits
import Kleene.Proofs.Multigraph

/-!
# Completion of graphs

Which transitions are missing is found out in the graph as it was, and then they are added one by
one to a graph that has the trap already.  The graph of a complete automaton comes out: every
missing transition is added once, none contradicts another, and a second completion finds nothing
to add.
-/

namespace Kleene

variable {σ : Type} [DecidableEq σ] {d d' : Dfa σ} {p q : State} {a : σ} {es : List (Edge σ)}

namespace Multigraph

variable {g : Multigraph σ}

/-- The transition that is found first is the only one. -/
theorem Represents.successor_eq (h : g.Represents d) (hd : d.Deterministic) (q : State) (a : σ) :
    g.successor q a = d.successor q a := by
  have hgraph : ({ d with edges := g.edges } : Dfa σ).Deterministic := fun p a q r he hf =>
    hd p a q r (h.edges.mem_iff.1 he) (h.edges.mem_iff.1 hf)
  apply Option.ext
  intro r
  show ({ d with edges := g.edges } : Dfa σ).successor q a = some r ↔ _
  rw [Dfa.successor_eq_some_iff hgraph, Dfa.successor_eq_some_iff hd]
  exact h.edges.mem_iff

theorem Represents.missing_eq (h : g.Represents d) (hd : d.Deterministic) :
    g.missing = d.missing := by
  unfold missing Dfa.missing Dfa.states
  simp only [h.stateCount_eq, h.alphabet, h.successor_eq hd]

variable [Ord σ] [Quotable σ] [Std.LawfulEqOrd σ]

/-- What can be added to the automaton can be added to its graph. -/
theorem Represents.exists_addEdge?_of_eq_ok {e : Edge σ} (h : g.Represents d)
    (hd : d.Deterministic) (hadd : d.addEdge? e = .ok d') :
    ∃ g', g.addEdge? e = .ok g' ∧ g'.Represents d' := by
  rcases Dfa.addEdge?_cases hadd with ⟨hsome, rfl⟩ | ⟨hnone, hsource, htarget, rfl⟩
  · refine ⟨g, ?_, h⟩
    unfold addEdge?
    rw [h.successor_eq hd, hsome]
    exact if_pos rfl
  · exact h.exists_addEdge? hnone hsource htarget

variable [Std.TransOrd σ]

theorem Represents.exists_foldlM_addEdge? (h : g.Represents d) (hd : d.WellFormed)
    (hfold : es.foldlM Dfa.addEdge? d = .ok d') :
    ∃ g', es.foldlM addEdge? g = .ok g' ∧ g'.Represents d' := by
  induction es generalizing g d with
  | nil =>
    cases hfold
    exact ⟨g, rfl, h⟩
  | cons e es ih =>
    rw [List.foldlM_cons] at hfold
    rcases exists_of_bind_eq_ok hfold with ⟨m, hadd, hrest⟩
    rcases h.exists_addEdge?_of_eq_ok hd.deterministic hadd with ⟨g', hgraph, hrep⟩
    rw [List.foldlM_cons, hgraph]
    exact ih hrep (hd.of_addEdge? hadd) hrest

omit [DecidableEq σ] [Ord σ] [Quotable σ] [Std.LawfulEqOrd σ] [Std.TransOrd σ] in
/-- The trap is a node that is marked after it has been added. -/
theorem Represents.exists_trap (h : g.Represents d) : ∃ g',
    (g.addState false).markTrap? d.stateCount = .ok g' ∧ g'.Represents (d.addState .trap) := by
  have hlt : d.stateCount < (d.addState (.ofAccepting false)).stateCount := by
    rw [Dfa.stateCount_addState]
    exact Nat.lt_succ_self _
  have hmarks : (d.marks ++ [Mark.ofAccepting false]).set d.stateCount .trap =
      d.marks ++ [.trap] := by
    unfold Dfa.stateCount
    simp
  rcases (h.addState false).exists_markTrap? hlt with ⟨g', hmark, hrep⟩
  refine ⟨g', hmark, ?_⟩
  change g'.Represents
    { d with marks := (d.marks ++ [Mark.ofAccepting false]).set d.stateCount .trap } at hrep
  rw [hmarks] at hrep
  exact hrep

/-- Completing the graph of an automaton gives the graph of the completed automaton. -/
theorem Represents.exists_complete? (h : g.Represents d) (hd : d.WellFormed) :
    ∃ g', g.complete? = .ok g' ∧ g'.Represents d.complete := by
  have hcomplete := hd.complete?_eq_ok
  unfold Dfa.complete? Dfa.completeWithin? at hcomplete
  unfold complete?
  rw [h.missing_eq hd.deterministic, h.stateCount_eq, h.alphabet]
  cases hempty : d.missing.isEmpty with
  | true =>
    rw [hempty] at hcomplete
    rw [← Except.ok.inj hcomplete]
    exact ⟨g, rfl, h⟩
  | false =>
    rw [hempty] at hcomplete
    rcases h.exists_trap with ⟨marked, hmark, hrep⟩
    rcases hrep.exists_foldlM_addEdge? (hd.addState .trap) hcomplete with ⟨g', hfold, hrep'⟩
    refine ⟨g', ?_, hrep'⟩
    show (g.addState false).markTrap? d.stateCount >>= _ = _
    rw [hmark]
    exact hfold

/-- The graph of a complete automaton is left as it is. -/
theorem Represents.complete?_eq_self (h : g.Represents d) (hd : d.WellFormed)
    (hc : d.isComplete = true) : g.complete? = .ok g := by
  unfold complete?
  rw [h.missing_eq hd.deterministic, hd.isComplete_iff_missing.1 hc]
  rfl

end Multigraph

/-! ## What completion keeps and adds -/

namespace Dfa

variable [Ord σ]

/-- The first automaton is the second one with all transitions: states, marks and letters are those
of the second, except for one trap at most, and each transition that is new leads into this trap
from where none was. -/
structure Completes (e d : Dfa σ) : Prop where
  isComplete : e.isComplete = true
  exists_successor : ∀ q < e.stateCount, ∀ a ∈ e.alphabet, ∃ r, e.successor q a = some r
  accepts_eq : ∀ w, e.accepts w = d.accepts w
  start_eq : e.start = d.start
  alphabet_eq : e.alphabet = d.alphabet
  marks_eq : e.marks = d.marks ∨ e.marks = d.marks ++ [.trap]
  mem_edges_iff : ∀ p a q, ⟨p, a, q⟩ ∈ e.edges ↔ ⟨p, a, q⟩ ∈ d.edges ∨
    (q = d.stateCount ∧ p < e.stateCount ∧ a ∈ d.alphabet ∧ d.successor p a = none)

variable [Std.TransOrd σ] [Std.LawfulEqOrd σ]

omit [Std.TransOrd σ] in
theorem WellFormed.mem_edges_complete_iff (hd : d.WellFormed) : ⟨p, a, q⟩ ∈ d.complete.edges ↔
    ⟨p, a, q⟩ ∈ d.edges ∨
      (q = d.stateCount ∧ p < d.complete.stateCount ∧ a ∈ d.alphabet ∧ d.successor p a = none) := by
  rcases complete_eq d with ⟨hmissing, heq⟩ | ⟨-, heq⟩
  · -- nothing is missing, and so nothing is added
    rw [heq]
    refine (or_iff_left fun h => ?_).symm
    have hpair : (p, a) ∈ d.missing := mem_missing.2 h.2
    rw [hmissing] at hpair
    cases hpair
  · rw [heq, mem_edges_withTrap, stateCount_withTrap, mem_missing]
    refine or_congr_right (and_congr_right fun _ => ?_)
    by_cases hp : p = d.stateCount
    · rw [hp]
      simp [hd.successor_trap_eq_none]
    · have hold : p < d.stateCount + 1 ↔ p < d.stateCount :=
        Nat.lt_succ_iff_lt_or_eq.trans (or_iff_left hp)
      simp only [hp, hold, false_and, or_false]

theorem WellFormed.completes_complete (hd : d.WellFormed) : Completes d.complete d where
  isComplete := hd.isComplete_complete
  exists_successor := hd.complete.isComplete_iff.1 hd.isComplete_complete
  accepts_eq := hd.accepts_complete
  start_eq := start_complete d
  alphabet_eq := hd.alphabet_complete
  marks_eq := by
    rcases complete_eq d with ⟨-, heq⟩ | ⟨-, heq⟩
    · exact .inl (congrArg marks heq)
    · exact .inr (congrArg marks heq)
  mem_edges_iff _ _ _ := hd.mem_edges_complete_iff

/-- Without limits, completion meets no failure; within limits, it fails exactly if the completed
automaton does not fit.  It makes the automaton complete and keeps all that was there, and a second
completion changes nothing.  The same holds of its graph, to which the transitions are added one by
one. -/
theorem WellFormed.complete_spec [Quotable σ] (hd : d.WellFormed) :
    d.complete? = .ok d.complete ∧ Completes d.complete d ∧
      d.complete.complete? = .ok d.complete ∧
      (∀ room, d.Fits room →
        (d.complete.Fits room → d.completeWithin? room = .ok d.complete) ∧
        (¬ d.complete.Fits room → ∃ misuse, d.completeWithin? room = .error misuse)) ∧
        ∀ g : Multigraph σ, g.Represents d →
          ∃ g', g.complete? = .ok g' ∧ g'.Represents d.complete ∧ g'.complete? = .ok g' := by
  have hagain : d.complete.complete? = .ok d.complete := by
    rw [hd.complete.complete?_eq_ok, hd.complete.complete_eq_self hd.isComplete_complete]
  refine ⟨hd.complete?_eq_ok, hd.completes_complete, hagain,
    fun room hroom => restricts_complete? hroom _ hd.complete?_eq_ok, fun g hg => ?_⟩
  rcases hg.exists_complete? hd with ⟨g', hgraph, hrep⟩
  exact ⟨g', hgraph, hrep, hrep.complete?_eq_self hd.complete hd.isComplete_complete⟩

/-- The trap of an earlier completion, from which a letter leads on, is completed as any other
state. -/
theorem complete_spec_reopened : reopened.WellFormed ∧ reopened.isComplete = false ∧
    reopened.complete? = .ok reopened.complete ∧ Completes reopened.complete reopened ∧
      reopened.complete.complete? = .ok reopened.complete ∧
        ∃ g g' : Multigraph Char, g.Represents reopened ∧ g.complete? = .ok g' ∧
          g'.Represents reopened.complete ∧ g'.complete? = .ok g' := by
  have hd := built_reopened.wellFormed
  rcases hd.complete_spec with ⟨hcomplete, hcompletes, hagain, -, hgraphs⟩
  rcases built_reopened.multigraph_spec.1 with ⟨g, -, hg⟩
  rcases hgraphs g hg with ⟨g', hgraph⟩
  exact ⟨hd, by decide, hcomplete, hcompletes, hagain, g, g', hg, hgraph⟩

end Dfa

end Kleene
