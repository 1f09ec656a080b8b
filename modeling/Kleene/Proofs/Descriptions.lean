import Kleene.Proofs.CheckedMinimization
import Kleene.Proofs.ContainerElimination
import Kleene.Proofs.Determinization

/-!
# Descriptions in any order

A description lists states, letters and transitions in some order, maybe repeatedly, and a graph
container remembers something of that order.  Whether there is an automaton for the description, and
all that can be asked of it, depends on nothing but what is listed.
-/

namespace Kleene

namespace Nfa

variable {σ : Type} {n : Nfa σ} {d d' : Nfa.Parts σ} {q : State}

/-- The next identifier is the least one above those that are listed. -/
theorem foldl_max_congr {states states' : List State} (h : ∀ q, q ∈ states ↔ q ∈ states') :
    states.foldl (fun m q => max m (q + 1)) 0 = states'.foldl (fun m q => max m (q + 1)) 0 :=
  Nat.le_antisymm (foldl_max_le_iff.2 ⟨Nat.zero_le _, fun q hq => lt_foldl_max ((h q).1 hq)⟩)
    (foldl_max_le_iff.2 ⟨Nat.zero_le _, fun q hq => lt_foldl_max ((h q).2 hq)⟩)

/-! ## Descriptions that list the same -/

/-- The descriptions agree in their terminals and list the same states, letters and transitions,
each in an order and with repetitions of its own. -/
structure Parts.SameSets (d d' : Parts σ) : Prop where
  mem_states : ∀ q, q ∈ d.states ↔ q ∈ d'.states
  mem_alphabet : ∀ a, a ∈ d.alphabet ↔ a ∈ d'.alphabet
  mem_transitions : ∀ e, e ∈ d.transitions ↔ e ∈ d'.transitions
  start_eq : d.start = d'.start
  final_eq : d.final = d'.final

theorem Parts.SameSets.symm (h : d.SameSets d') : d'.SameSets d :=
  ⟨fun q => (h.mem_states q).symm, fun a => (h.mem_alphabet a).symm,
    fun e => (h.mem_transitions e).symm, h.start_eq.symm, h.final_eq.symm⟩

theorem Parts.Valid.of_sameSets (h : d.Valid) (hsame : d.SameSets d') : d'.Valid where
  start_mem := hsame.start_eq ▸ (hsame.mem_states _).1 h.start_mem
  final_mem := hsame.final_eq ▸ (hsame.mem_states _).1 h.final_mem
  lt_limit q hq := h.lt_limit q ((hsame.mem_states q).2 hq)
  ends_mem e he := (h.ends_mem e ((hsame.mem_transitions e).2 he)).imp (hsame.mem_states _).1
    (hsame.mem_states _).1

variable [Ord σ] [Std.TransOrd σ] [Std.LawfulEqOrd σ]

theorem Parts.SameSets.automaton_eq (h : d.SameSets d') : d.automaton = d'.automaton := by
  have hbare : d.bare = d'.bare := by
    unfold bare
    rw [Ascending.ofList_congr h.mem_states, Ascending.ofList_congr h.mem_alphabet, h.start_eq,
      h.final_eq, foldl_max_congr h.mem_states]
  unfold automaton addEdges
  rw [hbare]
  congr 1
  · exact Ascending.insertAll_congr (Ascending.isAscending_ofList _) fun a => by
      simp only [mem_letters, h.mem_transitions]
  · exact Ascending.insertAll_congr Ascending.isAscending_nil h.mem_transitions

end Nfa

/-! ## In a container -/

namespace NfaGraph

variable {C : GraphMap} {σ : Type} [Ord σ] {g g' : NfaGraph C σ} {n : Nfa σ} {d : Nfa.Parts σ}

theorem mem_nodes_withoutTransitions {q : State} :
    q ∈ C.nodes (withoutTransitions C d).graph ↔ q ∈ d.states :=
  GraphMap.mem_nodes_addNodes.trans (or_iff_left (C.mem_nodes_empty q))

variable [Std.TransOrd σ] [Std.LawfulEqOrd σ]

theorem holds_withoutTransitions (hstart : d.start ∈ d.states) (hfinal : d.final ∈ d.states) :
    (withoutTransitions C d).Holds d.bare where
  wellFormed := Nfa.Parts.wellFormed_bare hstart hfinal
  mem_nodes _ := mem_nodes_withoutTransitions.trans Ascending.mem_ofList.symm
  value?_eq _ _ := GraphMap.value?_addNodes.trans (C.value?_empty _)
  alphabet_eq := rfl
  start_eq := rfl
  final_eq := rfl
  fresh_eq := Nfa.foldl_max_congr fun _ => mem_nodes_withoutTransitions

omit [Std.TransOrd σ] [Std.LawfulEqOrd σ] in
/-- One transition is added if its ends are states. -/
theorem Holds.addDescribed_eq_ok_iff (h : g.Holds n) {e : Edge (Label σ)} :
    g.addDescribed e = .ok g' ↔ (e.source ∈ n.states ∧ e.target ∈ n.states) ∧ g' = g.addEdge e := by
  have hmissing : ∀ q, (!g.hasState q) = true ↔ q ∉ n.states := fun q => by
    rw [h.hasState_eq, Nfa.hasState]
    simp
  unfold addDescribed
  split
  · rename_i q hq
    have hnone : q ∉ n.states := (hmissing q).1 (by simpa using List.find?_some hq)
    refine iff_of_false (fun h => by cases h) fun hok => hnone ?_
    have hends := List.mem_of_find?_eq_some hq
    rw [List.mem_cons, List.mem_singleton] at hends
    exact hends.elim (fun heq => heq ▸ hok.1.1) fun heq => heq ▸ hok.1.2
  · rename_i hnone
    have hends := List.find?_eq_none.1 hnone
    simp only [hmissing, not_not, List.forall_mem_cons] at hends
    rw [Except.ok.injEq, eq_comm]
    exact (and_iff_right ⟨hends.1, hends.2.1⟩).symm

theorem Holds.foldlM_addDescribed_eq_ok_iff (h : g.Holds n) {es : List (Edge (Label σ))} :
    es.foldlM addDescribed g = .ok g' ↔
      (∀ e ∈ es, e.source ∈ n.states ∧ e.target ∈ n.states) ∧ g' = g.addEdges es := by
  induction es generalizing g n with
  | nil =>
    show Except.ok g = Except.ok g' ↔ _
    rw [Except.ok.injEq, eq_comm]
    exact (and_iff_right (List.forall_mem_nil _)).symm
  | cons e es ih =>
    rw [List.forall_mem_cons]
    by_cases hends : e.source ∈ n.states ∧ e.target ∈ n.states
    · have hadd : g.addDescribed e = .ok (g.addEdge e) := h.addDescribed_eq_ok_iff.2 ⟨hends, rfl⟩
      rw [foldlM_cons_of_ok hadd, ih (h.addEdge hends.1 hends.2), and_iff_right hends]
      exact Iff.rfl
    · refine iff_of_false (fun hok => ?_) fun hok => hends hok.1.1
      obtain ⟨g₁, hadd, -⟩ := exists_of_foldlM_cons hok
      exact hends (h.addDescribed_eq_ok_iff.1 hadd).1

/-- In every container there is an automaton for the descriptions that are valid. -/
theorem ofParts?_eq_ok_iff : ofParts? C d = .ok g ↔
    d.Valid ∧ g = (withoutTransitions C d).addEdges d.transitions := by
  have hstate : ∀ q, (withoutTransitions C d).hasState q = decide (q ∈ d.states) := fun q =>
    decide_eq_decide.2 mem_nodes_withoutTransitions
  unfold ofParts?
  simp only [hstate, Bool.not_eq_true', decide_eq_false_iff_not]
  by_cases hstart : d.start ∈ d.states
  · rw [if_neg (not_not.2 hstart)]
    by_cases hfinal : d.final ∈ d.states
    · rw [if_neg (not_not.2 hfinal)]
      split
      · rename_i q hq
        have hlimit : stateLimit ≤ q := by simpa using List.find?_some hq
        have hmem := mem_nodes_withoutTransitions.1 (List.mem_of_find?_eq_some hq)
        exact iff_of_false (fun h => by cases h) fun h => Nat.not_lt.2 hlimit (h.1.lt_limit q hmem)
      · rename_i hlimit
        have hlimit := List.find?_eq_none.1 (Option.eq_none_iff_forall_ne_some.2 hlimit)
        have hbelow : ∀ q ∈ d.states, q < stateLimit := fun q hq => Nat.not_le.1 fun hle =>
          hlimit q (mem_nodes_withoutTransitions.2 hq) (decide_eq_true hle)
        rw [(holds_withoutTransitions hstart hfinal).foldlM_addDescribed_eq_ok_iff]
        refine and_congr_left fun _ => ⟨fun hends => ⟨hstart, hfinal, hbelow, fun e he => ?_⟩,
          fun h e he => ?_⟩
        · exact (hends e he).imp Ascending.mem_ofList.1 Ascending.mem_ofList.1
        · exact (h.ends_mem e he).imp Ascending.mem_ofList.2 Ascending.mem_ofList.2
    · rw [if_pos hfinal]
      exact iff_of_false (fun h => by cases h) fun h => hfinal h.1.final_mem
  · rw [if_pos hstart]
    exact iff_of_false (fun h => by cases h) fun h => hstart h.1.start_mem

theorem holdsFit_of_ofParts? (h : ofParts? C d = .ok g) : g.HoldsFit d.automaton := by
  obtain ⟨hvalid, rfl⟩ := ofParts?_eq_ok_iff.1 h
  have hbare := holds_withoutTransitions (C := C) hvalid.start_mem hvalid.final_mem
  refine ⟨hbare.addEdges fun e he => ?_, hvalid.fits⟩
  exact (hvalid.ends_mem e he).imp Ascending.mem_ofList.2 Ascending.mem_ofList.2

end NfaGraph

/-! ## What can be asked of an automaton -/

/-- The minimal automaton after a determinization that may not have come to an end. -/
def Dfa.minimizeIfAny? {σ : Type} [Ord σ] [DecidableEq σ] [Quotable σ]
    (result : Except Misuse (Option (Dfa σ))) : Except Misuse (Option (Dfa σ)) := do
  match ← result with
  | some d => d.minimize?
  | none => return none

/-- All answers about an automaton: what is in it, the deterministic and the minimal automaton, the
expressions in either order of elimination and the alignments of all words. -/
structure Nfa.Results (σ : Type) where
  dump : Nfa σ
  stateCount : Nat
  transitionCount : Nat
  toDfa? : (complete : Bool) → Except Misuse (Option (Dfa σ))
  minimized? : (complete : Bool) → Except Misuse (Option (Dfa σ))
  synthesize? : EliminationOrder → Except Misuse (Option (Postfix σ))
  synthesizeText? : EliminationOrder → Except Misuse (Option String)
  align : List σ → Option (Alignment σ)

section Results

variable {σ : Type} [Ord σ] [DecidableEq σ] [Quotable σ] [ToString σ]

def Nfa.results (n : Nfa σ) : Nfa.Results σ where
  dump := n
  stateCount := n.stateCount
  transitionCount := n.transitionCount
  toDfa? := n.toDfa?
  minimized? complete := Dfa.minimizeIfAny? (n.toDfa? complete)
  synthesize? := n.synthesize?
  synthesizeText? := n.synthesizeText?
  align := n.align

def NfaGraph.results {C : GraphMap} (g : NfaGraph C σ) : Nfa.Results σ where
  dump := g.listing
  stateCount := g.stateCount
  transitionCount := g.transitionCount
  toDfa? := g.toDfa?
  minimized? complete := Dfa.minimizeIfAny? (g.toDfa? complete)
  synthesize? := g.synthesize?
  synthesizeText? := g.synthesizeText?
  align := g.align

variable [Std.TransOrd σ] [Std.LawfulEqOrd σ]

/-- Asked about the automaton it holds, a container gives the answers for that automaton. -/
theorem NfaGraph.HoldsFit.results_eq {C : GraphMap} {g : NfaGraph C σ} {n : Nfa σ}
    (h : g.HoldsFit n) : g.results = n.results := by
  unfold NfaGraph.results Nfa.results
  rw [h.listing_eq, h.stateCount_eq, h.transitionCount_eq, funext h.toDfa?_eq,
    funext h.synthesize?_eq, funext h.synthesizeText?_eq, funext h.align_eq]

/-- For descriptions that list the same, in whatever order and in whatever containers, either there
is an automaton for both or for none.  If there is, all answers are the same, down to the numbers of
states; they are those for one automaton, and the determinization and the minimization come to an
end. -/
theorem Nfa.Parts.SameSets.results_spec {d d' : Nfa.Parts σ} (h : d.SameSets d')
    (C C' : GraphMap) :
    ((∃ g, NfaGraph.ofParts? C d = .ok g) ↔ ∃ g, NfaGraph.ofParts? C' d' = .ok g) ∧
    ∀ g g', NfaGraph.ofParts? C d = .ok g → NfaGraph.ofParts? C' d' = .ok g' →
      g.results = g'.results ∧
      ∃ n, Nfa.ofParts d = .ok n ∧ Nfa.ofParts d' = .ok n ∧ g.results = n.results ∧
        ∀ complete, ∃ D M, g.toDfa? complete = .ok (some D) ∧ D.minimize? = .ok (some M) ∧
          g.results.minimized? complete = .ok (some M) := by
  have hvalid : d.Valid ↔ d'.Valid := ⟨fun hd => hd.of_sameSets h, fun hd => hd.of_sameSets h.symm⟩
  constructor
  · simp only [NfaGraph.ofParts?_eq_ok_iff, exists_and_left, exists_eq, and_true]
    exact hvalid
  · intro g g' hg hg'
    have hn := NfaGraph.holdsFit_of_ofParts? hg
    have hn' := NfaGraph.holdsFit_of_ofParts? hg'
    rw [← h.automaton_eq] at hn'
    obtain ⟨hd, -⟩ := NfaGraph.ofParts?_eq_ok_iff.1 hg
    refine ⟨hn.results_eq.trans hn'.results_eq.symm, d.automaton, ofParts_eq_ok_iff.2 ⟨hd, rfl⟩,
      ofParts_eq_ok_iff.2 ⟨hvalid.1 hd, h.automaton_eq⟩, hn.results_eq, fun complete => ?_⟩
    have hdfa := (hn.toDfa?_eq complete).trans (hn.wellFormed.toDfa?_eq_ok complete)
    have hminimal := (hn.wellFormed.toDfa complete).minimize?_eq_ok
    refine ⟨_, _, hdfa, hminimal, ?_⟩
    show Dfa.minimizeIfAny? (g.toDfa? complete) = _
    rw [hdfa]
    exact hminimal

end Results

namespace Nfa

/-- A way in, a loop and a way out, with a way past them. -/
def inOrder : Nfa.Parts Char :=
  ⟨[0, 1, 2], ['a', 'b'], [⟨0, .symbol 'a', 1⟩, ⟨0, .epsilon, 2⟩, ⟨1, .symbol 'b', 1⟩,
    ⟨1, .symbol 'a', 2⟩, ⟨1, .symbol 'b', 2⟩], 0, 2⟩

/-- The same, listed from the end and in part twice. -/
def outOfOrder : Nfa.Parts Char :=
  ⟨[2, 1, 0, 2], ['b', 'a', 'b'], [⟨1, .symbol 'b', 2⟩, ⟨1, .symbol 'a', 2⟩, ⟨1, .symbol 'b', 1⟩,
    ⟨0, .epsilon, 2⟩, ⟨1, .symbol 'a', 2⟩, ⟨0, .symbol 'a', 1⟩], 0, 2⟩

theorem sameSets_inOrder : inOrder.SameSets outOfOrder where
  mem_states q := by simp [inOrder, outOfOrder]; tauto
  mem_alphabet a := by simp [inOrder, outOfOrder]; tauto
  mem_transitions e := by simp [inOrder, outOfOrder]; tauto
  start_eq := rfl
  final_eq := rfl

theorem valid_inOrder : inOrder.Valid :=
  ⟨by decide, by decide, by decide, by decide⟩

/-- The containers list their nodes in different orders. -/
theorem results_spec_inOrder : inOrder.SameSets outOfOrder ∧
    ∃ g g', NfaGraph.ofParts? .listed inOrder = .ok g ∧
      NfaGraph.ofParts? .listed outOfOrder = .ok g' ∧ g.graph.nodes ≠ g'.graph.nodes ∧
      g.results = g'.results := by
  have hspec := sameSets_inOrder.results_spec .listed .listed
  have hg := NfaGraph.ofParts?_eq_ok_iff (C := .listed).2 ⟨valid_inOrder, rfl⟩
  obtain ⟨g', hg'⟩ := hspec.1.1 ⟨_, hg⟩
  refine ⟨sameSets_inOrder, _, g', hg, hg', ?_, (hspec.2 _ _ hg hg').1⟩
  obtain ⟨-, rfl⟩ := NfaGraph.ofParts?_eq_ok_iff.1 hg'
  decide

end Nfa

end Kleene
