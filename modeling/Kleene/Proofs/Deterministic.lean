import Kleene.Proofs.RegularOperations
import Kleene.Dfa.Subset

/-!
# Deterministic automata and their languages

A well-formed deterministic automaton has at most one transition per state and letter, between
states and on letters of its alphabet.  Lifted to a nondeterministic automaton it accepts the
same words.
-/

namespace Kleene.Dfa

variable {σ : Type} {d : Dfa σ} {p q r : State} {a : σ} {w : List σ}

/-- At most one transition per state and letter. -/
def Deterministic (d : Dfa σ) : Prop :=
  ∀ p a q r, ⟨p, a, q⟩ ∈ d.edges → ⟨p, a, r⟩ ∈ d.edges → q = r

/-- A deterministic automaton in the form in which all constructions produce it. -/
structure WellFormed [Ord σ] (d : Dfa σ) : Prop where
  start_lt : d.start < d.stateCount
  source_lt : ∀ p a q, ⟨p, a, q⟩ ∈ d.edges → p < d.stateCount
  target_lt : ∀ p a q, ⟨p, a, q⟩ ∈ d.edges → q < d.stateCount
  letter_mem : ∀ p a q, ⟨p, a, q⟩ ∈ d.edges → a ∈ d.alphabet
  deterministic : d.Deterministic
  alphabet_ascending : Ascending.IsAscending d.alphabet
  edges_ascending : Ascending.IsAscending d.edges

/-- Without transitions there is nothing but the start to look at. -/
theorem wellFormed_of_no_edges [Ord σ] {marks : List Mark} {alphabet : List σ} {start : State}
    (hstart : start < marks.length) (halphabet : Ascending.IsAscending alphabet) :
    (⟨marks, alphabet, [], start⟩ : Dfa σ).WellFormed where
  start_lt := hstart
  source_lt _ _ _ he := by cases he
  target_lt _ _ _ he := by cases he
  letter_mem _ _ _ he := by cases he
  deterministic _ _ _ _ he := by cases he
  alphabet_ascending := halphabet
  edges_ascending := Ascending.isAscending_nil

theorem lt_of_isFinal (h : d.isFinal q = true) : q < d.stateCount := by
  have hmark : d.marks[q]? = some .accepting := of_decide_eq_true h
  exact (List.getElem?_eq_some_iff.1 hmark).1

theorem mem_finals : q ∈ d.finals ↔ d.isFinal q = true := by
  unfold finals states
  rw [List.mem_filter, List.mem_range]
  exact ⟨fun h => h.2, fun h => ⟨lt_of_isFinal h, h⟩⟩

section Reading

variable [DecidableEq σ]

theorem mem_edges_of_successor (h : d.successor q a = some r) : ⟨q, a, r⟩ ∈ d.edges := by
  unfold successor edge? at h
  rcases Option.map_eq_some_iff.1 h with ⟨e, hfind, htarget⟩
  have hmem := List.mem_of_find?_eq_some hfind
  have hpair := List.find?_some hfind
  rw [Bool.and_eq_true, decide_eq_true_eq, decide_eq_true_eq] at hpair
  rw [← hpair.1, ← hpair.2, ← htarget]
  exact hmem

/-- In a deterministic automaton the transitions are the graph of the successor. -/
theorem successor_eq_some_iff (h : d.Deterministic) :
    d.successor q a = some r ↔ ⟨q, a, r⟩ ∈ d.edges := by
  constructor
  · exact mem_edges_of_successor
  · intro he
    cases hs : d.successor q a with
    | some r' => rw [h _ _ _ _ he (mem_edges_of_successor hs)]
    | none =>
      -- the search would have found the transition
      unfold successor edge? at hs
      rw [Option.map_eq_none_iff, List.find?_eq_none] at hs
      exact absurd (by simp) (hs _ he)

/-- Whether an accepting state is reached by a word from `q`. -/
def acceptsFrom (d : Dfa σ) (q : State) (w : List σ) : Bool :=
  ((d.run q w).map d.isFinal).getD false

theorem acceptsFrom_nil : d.acceptsFrom q [] = d.isFinal q := rfl

theorem acceptsFrom_cons_of_none (h : d.successor q a = none) :
    d.acceptsFrom q (a :: w) = false := by
  unfold acceptsFrom run
  rw [List.foldlM_cons, h]
  rfl

theorem acceptsFrom_cons_of_some (h : d.successor q a = some r) :
    d.acceptsFrom q (a :: w) = d.acceptsFrom r w := by
  unfold acceptsFrom run
  rw [List.foldlM_cons, h]
  rfl

end Reading

/-! ## As a nondeterministic automaton -/

section ToNfa

variable [Ord σ] [Std.LawfulEqOrd σ]

theorem mem_edges_toNfa {l : Label σ} : ⟨p, l, q⟩ ∈ d.toNfa.edges ↔
    (∃ a, l = .symbol a ∧ ⟨p, a, q⟩ ∈ d.edges) ∨
      (d.isFinal p = true ∧ l = .epsilon ∧ q = d.stateCount) := by
  unfold toNfa
  rw [Nfa.mem_addEdges, List.mem_append, List.mem_map, List.mem_map]
  constructor
  · intro h
    rcases h with (⟨e, he, heq⟩ | ⟨s, hs, heq⟩) | h
    · rcases Edge.mk.inj heq with ⟨rfl, rfl, rfl⟩
      exact .inl ⟨e.label, rfl, he⟩
    · rcases Edge.mk.inj heq with ⟨rfl, rfl, rfl⟩
      exact .inr ⟨mem_finals.1 hs, rfl, rfl⟩
    · cases h
  · intro h
    rcases h with ⟨a, rfl, he⟩ | ⟨hp, rfl, rfl⟩
    · exact .inl (.inl ⟨_, he, rfl⟩)
    · exact .inl (.inr ⟨p, mem_finals.2 hp, rfl⟩)

/-- Lifting a well-formed automaton gives a well-formed one. -/
theorem WellFormed.toNfa [Std.TransOrd σ] (h : d.WellFormed) : d.toNfa.WellFormed := by
  have hcount : d.start < d.stateCount + 1 := Nat.lt_succ_of_lt h.start_lt
  have hfinal : d.stateCount < d.stateCount + 1 := Nat.lt_succ_self _
  refine (Nfa.wellFormed_ofCount hcount hfinal).addEdges ?_
  intro p l q he
  show p ∈ List.range (d.stateCount + 1) ∧ q ∈ List.range (d.stateCount + 1)
  rw [List.mem_range, List.mem_range]
  have he : ⟨p, l, q⟩ ∈ d.toNfa.edges := Nfa.mem_addEdges.2 (.inl he)
  rcases mem_edges_toNfa.1 he with ⟨a, -, he⟩ | ⟨hp, -, rfl⟩
  · exact ⟨Nat.lt_succ_of_lt (h.source_lt _ _ _ he), Nat.lt_succ_of_lt (h.target_lt _ _ _ he)⟩
  · exact ⟨Nat.lt_succ_of_lt (lt_of_isFinal hp), hfinal⟩

variable [DecidableEq σ]

omit [DecidableEq σ] in
-- Nothing leaves the final state that is put behind the accepting ones.
theorem WellFormed.not_out_of_toNfa_final (h : d.WellFormed) (l : Label σ) (q : State) :
    ⟨d.stateCount, l, q⟩ ∉ d.toNfa.edges := by
  intro he
  rcases mem_edges_toNfa.1 he with ⟨a, -, he⟩ | ⟨hp, -, -⟩
  · exact Nat.lt_irrefl _ (h.source_lt _ _ _ he)
  · exact Nat.lt_irrefl _ (lt_of_isFinal hp)

-- A path to the new final state reads a word that is accepted.
theorem WellFormed.acceptsFrom_of_spells (h : d.WellFormed) (hq : q < d.stateCount)
    (hw : d.toNfa.Spells q d.stateCount w) : d.acceptsFrom q w = true := by
  refine hw.backward (R := fun q w => q < d.stateCount → d.acceptsFrom q w = true)
    (fun hlt => absurd hlt (Nat.lt_irrefl _)) ?_ hq
  intro p l r he u hu v hv ih hp
  rcases mem_edges_toNfa.1 he with ⟨a, rfl, hedge⟩ | ⟨hfinal, rfl, rfl⟩
  · rw [Label.mem_language_symbol] at hu
    rw [hu, List.singleton_append,
      acceptsFrom_cons_of_some ((successor_eq_some_iff h.deterministic).2 hedge)]
    exact ih (h.target_lt _ _ _ hedge)
  · -- the path ends in the final state
    rw [Label.mem_language_epsilon] at hu
    have hnil := (hv.eq_of_no_edges h.not_out_of_toNfa_final).2
    rw [hu, hnil, List.append_nil, acceptsFrom_nil, hfinal]

theorem spells_of_acceptsFrom (hw : d.acceptsFrom q w = true) :
    d.toNfa.Spells q d.stateCount w := by
  induction w generalizing q with
  | nil =>
    rw [acceptsFrom_nil] at hw
    exact .of_epsilon (mem_edges_toNfa.2 (.inr ⟨hw, rfl, rfl⟩))
  | cons a w ih =>
    cases hs : d.successor q a with
    | none =>
      rw [acceptsFrom_cons_of_none hs] at hw
      cases hw
    | some r =>
      rw [acceptsFrom_cons_of_some hs] at hw
      have hedge : ⟨q, .symbol a, r⟩ ∈ d.toNfa.edges :=
        mem_edges_toNfa.2 (.inl ⟨a, rfl, mem_edges_of_successor hs⟩)
      exact (Nfa.Spells.of_symbol hedge).append (ih hw)

/-- Lifting an automaton changes no verdict. -/
theorem WellFormed.accepts_toNfa (h : d.WellFormed) (w : List σ) :
    d.toNfa.accepts w = d.accepts w := by
  rw [Bool.eq_iff_iff, Nfa.mem_language, Nfa.mem_language_iff]
  exact ⟨fun hw => h.acceptsFrom_of_spells h.start_lt hw, fun hw => spells_of_acceptsFrom hw⟩

end ToNfa

end Kleene.Dfa
