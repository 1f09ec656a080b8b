import Mathlib.Data.List.Basic
import Kleene.Dfa.Subset
import Kleene.Nfa.Algebra

/-!
# Well-formed automata

An automaton is wired if its terminals and all ends of transitions are states, and well formed
if moreover its lists are ascending, its alphabet covers its transitions and the identifier of
the next state is above all others.  Every construction of an automaton yields a well-formed
one.
-/

namespace Kleene

variable {σ τ : Type}

/-! ## Ascending lists of numbers -/

namespace Ascending

theorem isAscending_nat_iff {s : List Nat} : IsAscending s ↔ s.Pairwise (· < ·) := by
  simp only [IsAscending, Nat.compare_eq_lt]

theorem isAscending_range (k : Nat) : IsAscending (List.range k) :=
  isAscending_nat_iff.2 List.pairwise_lt_range

theorem isAscending_map_add_range (b k : Nat) : IsAscending ((List.range k).map (b + ·)) := by
  rw [isAscending_nat_iff, List.pairwise_map]
  exact List.pairwise_lt_range.imp fun h => Nat.add_lt_add_left h b

/-- In ascending order smaller numbers come first. -/
theorem idxOf_lt_idxOf {s : List Nat} {m n : Nat} (hs : IsAscending s) (hm : m ∈ s) (hn : n ∈ s)
    (hlt : m < n) : s.idxOf m < s.idxOf n := by
  have hpos := List.idxOf_lt_length_of_mem hm
  have hpos' := List.idxOf_lt_length_of_mem hn
  apply Nat.lt_of_not_le
  intro hle
  rcases Nat.lt_or_eq_of_le hle with hback | heq
  · have hpair := List.pairwise_iff_getElem.1 (isAscending_nat_iff.1 hs) _ _ hpos' hpos hback
    rw [List.getElem_idxOf, List.getElem_idxOf] at hpair
    exact Nat.lt_asymm hlt hpair
  · exact Nat.ne_of_lt hlt ((List.idxOf_inj hn).1 heq).symm

theorem IsAscending.nodup {α : Type} [Ord α] [Std.ReflOrd α] {s : List α}
    (h : IsAscending s) : s.Nodup :=
  h.imp fun {a b} hab heq => by
    subst heq
    rw [Std.ReflOrd.compare_self] at hab
    cases hab

theorem IsAscending.filter {α : Type} [Ord α] {s : List α} (p : α → Bool)
    (h : IsAscending s) : IsAscending (s.filter p) := List.Pairwise.filter p h

end Ascending

namespace Nfa

/-- The terminals and the ends of all transitions are states. -/
structure Wired (n : Nfa σ) : Prop where
  start_mem : n.start ∈ n.states
  final_mem : n.final ∈ n.states
  source_mem : ∀ p l q, ⟨p, l, q⟩ ∈ n.edges → p ∈ n.states
  target_mem : ∀ p l q, ⟨p, l, q⟩ ∈ n.edges → q ∈ n.states

/-- A wired automaton in the form in which all operations keep it. -/
structure WellFormed [Ord σ] (n : Nfa σ) : Prop extends Wired n where
  states_ascending : Ascending.IsAscending n.states
  alphabet_ascending : Ascending.IsAscending n.alphabet
  edges_ascending : Ascending.IsAscending n.edges
  letter_mem : ∀ p a q, ⟨p, .symbol a, q⟩ ∈ n.edges → a ∈ n.alphabet
  lt_fresh : ∀ q ∈ n.states, q < n.fresh

theorem WellFormed.nodup_states [Ord σ] {n : Nfa σ} (h : n.WellFormed) : n.states.Nodup :=
  Ascending.IsAscending.nodup h.states_ascending

/-- There are as many states as identifiers at most. -/
theorem WellFormed.length_states_le [Ord σ] {n : Nfa σ} (h : n.WellFormed) : n.states.length ≤ n.fresh := by
  rw [← List.length_range (n := n.fresh)]
  exact h.nodup_states.length_le_of_subset fun q hq => List.mem_range.2 (h.lt_fresh q hq)

theorem mem_letters {edges : List (Edge (Label σ))} {a : σ} :
    a ∈ letters edges ↔ ∃ p q, ⟨p, .symbol a, q⟩ ∈ edges := by
  simp only [letters, List.mem_filterMap]
  constructor
  · intro h
    rcases h with ⟨⟨p, l, q⟩, he, hl⟩
    cases l with
    | symbol b =>
      rcases Option.some.inj hl with rfl
      exact ⟨p, q, he⟩
    | epsilon => cases hl
  · intro h
    rcases h with ⟨p, q, he⟩
    exact ⟨_, he, rfl⟩

@[simp] theorem mem_addState {n : Nfa σ} {q : State} : q ∈ n.addState.states ↔ q = n.fresh ∨ q ∈ n.states :=
  Ascending.mem_insert

section Changes

variable [Ord σ] {n : Nfa σ}

theorem WellFormed.fresh_notMem (h : n.WellFormed) : n.fresh ∉ n.states := fun hmem =>
  Nat.lt_irrefl _ (h.lt_fresh _ hmem)

theorem wellFormed_ofCount [Std.TransOrd σ] [Std.LawfulEqOrd σ] {alphabet : List σ} {count : Nat}
    {start final : State} (hs : start < count) (hf : final < count) :
    (ofCount alphabet count start final).WellFormed where
  start_mem := List.mem_range.2 hs
  final_mem := List.mem_range.2 hf
  source_mem _ _ _ he := absurd he (by simp [ofCount])
  target_mem _ _ _ he := absurd he (by simp [ofCount])
  states_ascending := Ascending.isAscending_range count
  alphabet_ascending := Ascending.isAscending_ofList alphabet
  edges_ascending := .nil
  letter_mem _ _ _ he := absurd he (by simp [ofCount])
  lt_fresh _ hq := List.mem_range.1 hq

/-- A new state keeps an automaton well formed. -/
theorem WellFormed.addState (h : n.WellFormed) : n.addState.WellFormed where
  start_mem := mem_addState.2 (.inr h.start_mem)
  final_mem := mem_addState.2 (.inr h.final_mem)
  source_mem p l q he := mem_addState.2 (.inr (h.source_mem p l q he))
  target_mem p l q he := mem_addState.2 (.inr (h.target_mem p l q he))
  states_ascending := Ascending.isAscending_insert h.states_ascending
  alphabet_ascending := h.alphabet_ascending
  edges_ascending := h.edges_ascending
  letter_mem := h.letter_mem
  lt_fresh q hq := by
    rcases mem_addState.1 hq with rfl | hq
    · exact Nat.lt_succ_self _
    · exact Nat.lt_succ_of_lt (h.lt_fresh q hq)

theorem WellFormed.withTerminals (h : n.WellFormed) {p q : State} (hp : p ∈ n.states)
    (hq : q ∈ n.states) : ({ n with start := p, final := q } : Nfa σ).WellFormed :=
  { h with start_mem := hp, final_mem := hq }

variable [Std.TransOrd σ] [Std.LawfulEqOrd σ]

omit [Std.TransOrd σ] in
@[simp] theorem mem_addEdges {es : List (Edge (Label σ))} {e : Edge (Label σ)} :
    e ∈ (n.addEdges es).edges ↔ e ∈ es ∨ e ∈ n.edges := Ascending.mem_insertAll

/-- New transitions between states keep an automaton well formed. -/
theorem WellFormed.addEdges (h : n.WellFormed) {es : List (Edge (Label σ))}
    (hes : ∀ p l q, ⟨p, l, q⟩ ∈ es → p ∈ n.states ∧ q ∈ n.states) :
    (n.addEdges es).WellFormed where
  start_mem := h.start_mem
  final_mem := h.final_mem
  source_mem p l q he := (mem_addEdges.1 he).elim (hes p l q · |>.1) (h.source_mem p l q)
  target_mem p l q he := (mem_addEdges.1 he).elim (hes p l q · |>.2) (h.target_mem p l q)
  states_ascending := h.states_ascending
  alphabet_ascending := Ascending.isAscending_insertAll h.alphabet_ascending
  edges_ascending := Ascending.isAscending_insertAll h.edges_ascending
  letter_mem p a q he := by
    refine Ascending.mem_insertAll.2 ((mem_addEdges.1 he).imp (fun he => ?_) (h.letter_mem p a q))
    exact mem_letters.2 ⟨p, q, he⟩
  lt_fresh := h.lt_fresh

omit [Ord σ] [Std.TransOrd σ] [Std.LawfulEqOrd σ] in
theorem mem_edges_mapLetters [Ord τ] [Std.LawfulEqOrd τ] {f : σ → τ} {p q : State} {l : Label τ} :
    ⟨p, l, q⟩ ∈ (n.mapLetters f).edges ↔ ∃ l', ⟨p, l', q⟩ ∈ n.edges ∧ l = l'.map f := by
  unfold mapLetters
  rw [Ascending.mem_ofList, List.mem_map]
  refine ⟨fun h => ?_, fun h => ?_⟩
  · rcases h with ⟨e, he, heq⟩
    rcases Edge.mk.inj heq with ⟨rfl, rfl, rfl⟩
    exact ⟨e.label, he, rfl⟩
  · rcases h with ⟨l', he, rfl⟩
    exact ⟨_, he, rfl⟩

omit [Std.TransOrd σ] [Std.LawfulEqOrd σ] in
/-- Replacing letters keeps an automaton well formed. -/
theorem WellFormed.mapLetters [Ord τ] [Std.TransOrd τ] [Std.LawfulEqOrd τ] (h : n.WellFormed)
    (f : σ → τ) : (n.mapLetters f).WellFormed where
  start_mem := h.start_mem
  final_mem := h.final_mem
  source_mem p l q he := by
    rcases mem_edges_mapLetters.1 he with ⟨l', he, -⟩
    exact h.source_mem _ _ _ he
  target_mem p l q he := by
    rcases mem_edges_mapLetters.1 he with ⟨l', he, -⟩
    exact h.target_mem _ _ _ he
  states_ascending := h.states_ascending
  alphabet_ascending := Ascending.isAscending_ofList _
  edges_ascending := Ascending.isAscending_ofList _
  letter_mem p a q he := by
    rcases mem_edges_mapLetters.1 he with ⟨l', hedge, hl⟩
    cases l' with
    | epsilon => cases hl
    | symbol b =>
      rcases Label.symbol.inj hl with rfl
      exact Ascending.mem_ofList.2 (List.mem_map.2 ⟨b, h.letter_mem _ _ _ hedge, rfl⟩)
  lt_fresh := h.lt_fresh

end Changes

end Nfa

end Kleene
