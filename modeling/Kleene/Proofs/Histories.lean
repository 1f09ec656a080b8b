import Kleene.Proofs.CheckedMinimization
import Kleene.Proofs.ContainerCopies
import Kleene.Proofs.CountedStates
import Kleene.Proofs.Descriptions

/-!
# Histories

However an automaton has come about in its container, by whatever constructions and changes that
succeeded, its terminals and the ends of its transitions are states, no set of labels is empty, and
the identifier of its next state is above all that it ever had: a state that was removed leaves a
gap, and no new state takes its place.  Only counting the states anew starts over.
-/

namespace Kleene

/-! ## Operations as changes -/

namespace Nfa

variable {σ : Type} [Ord σ] {a b m n n' : Nfa σ}

theorem fresh_le_isolate (n : Nfa σ) : n.fresh ≤ n.isolate.fresh :=
  Nat.le_trans n.fresh_le_isolateStart n.isolateStart.fresh_le_isolateFinal

theorem Evolves.of_within {last : State} (h : Evolves n m) (hok : m.within last = .ok n') :
    Evolves n n' := eq_of_within hok ▸ h

variable [Std.TransOrd σ] [Std.LawfulEqOrd σ]

theorem WellFormed.evolves_isolate (h : n.WellFormed) : Evolves n n.isolate :=
  ⟨h.isolate, n.fresh_le_isolate⟩

theorem WellFormed.evolves_star (h : n.WellFormed) : Evolves n n.star :=
  ⟨wellFormed_star h, Nat.le_add_right n.fresh 2⟩

theorem WellFormed.evolves_plus (h : n.WellFormed) : Evolves n n.plus :=
  ⟨wellFormed_plus h, Nat.le_add_right n.fresh 2⟩

theorem WellFormed.evolves_opt (h : n.WellFormed) : Evolves n n.opt :=
  ⟨wellFormed_opt h, n.fresh_le_isolate⟩

/-- The first operand goes on as the result. -/
theorem WellFormed.evolves_concat? (ha : a.WellFormed) (hb : b.WellFormed)
    (hok : concat? a b = .ok n) : Evolves a n := by
  rw [concat?_eq_within] at hok
  have hle : a.fresh ≤ (concat a b).fresh := Nat.le_trans a.fresh_le_isolate (Nat.le_add_right _ _)
  exact Evolves.of_within ⟨wellFormed_concat ha hb, hle⟩ hok

theorem WellFormed.evolves_union? (ha : a.WellFormed) (hb : b.WellFormed)
    (hok : union? a b = .ok n) : Evolves a n := by
  rw [union?_eq_within] at hok
  have hle : a.fresh ≤ (union a b).fresh := Nat.le_trans a.fresh_le_isolate (Nat.le_add_right _ _)
  exact Evolves.of_within ⟨wellFormed_union ha hb, hle⟩ hok

/-- A state that is ripped out leaves a gap, and an attempt that is given up changes nothing. -/
theorem WellFormed.evolves_attemptRip? [DecidableEq σ] {c : Combiner σ} {safe done : Bool}
    {q : State} (h : n.WellFormed) (hok : n.attemptRip? c safe q = .ok (done, n')) :
    Evolves n n' := by
  obtain ⟨⟨hs, hf, hq⟩, -⟩ := requireInner_bind_eq_ok_iff.1 hok
  rw [h.attemptRip?_eq_ok hq hs hf] at hok
  split at hok <;> cases hok
  · exact h.evolves
  · exact ⟨h.reroute hs hf _, Nat.le_refl _⟩

end Nfa

namespace NfaGraph

variable {C : GraphMap} {σ : Type} [Ord σ] {g g' : NfaGraph C σ} {n n' : Nfa σ} {held : Set State}

/-! ## Constructions and changes -/

section Steps

variable [DecidableEq σ]

/-- The automata that are made from scratch, from a description or from a deterministic
automaton. -/
inductive Constructed [Quotable σ] : NfaGraph C σ → Prop
  | nothing? {alphabet : List σ} {g : NfaGraph C σ} : nothing? C alphabet = .ok g → Constructed g
  | emptyWord? {alphabet : List σ} {g : NfaGraph C σ} : emptyWord? C alphabet = .ok g → Constructed g
  | literal? {a : σ} {g : NfaGraph C σ} : literal? C a = .ok g → Constructed g
  | ofParts? {parts : Nfa.Parts σ} {g : NfaGraph C σ} : ofParts? C parts = .ok g → Constructed g
  | ofDfa? {d : Dfa σ} {g : NfaGraph C σ} : d.Built → ofDfa? C d = .ok g → Constructed g

/-- The changes of one automaton that succeed. -/
inductive Step (g : NfaGraph C σ) : NfaGraph C σ → Prop
  | setStart? {q : State} {g' : NfaGraph C σ} : g.setStart? q = .ok g' → Step g g'
  | setFinal? {q : State} {g' : NfaGraph C σ} : g.setFinal? q = .ok g' → Step g g'
  | newState? {q : State} {g' : NfaGraph C σ} : g.newState? = .ok (q, g') → Step g g'
  | addEdge? {e : Edge (Label σ)} {new : Bool} {g' : NfaGraph C σ} :
      g.addEdge? e = .ok (new, g') → Step g g'
  | removeEdge (e : Edge (Label σ)) : Step g (g.removeEdge e).2
  | isolate? {g' : NfaGraph C σ} : g.isolate? = .ok g' → Step g g'
  | star? {g' : NfaGraph C σ} : g.star? = .ok g' → Step g g'
  | plus? {g' : NfaGraph C σ} : g.plus? = .ok g' → Step g g'
  | opt? {g' : NfaGraph C σ} : g.opt? = .ok g' → Step g g'
  | attemptRip? {c : Combiner σ} {safe done : Bool} {q : State} {g' : NfaGraph C σ} :
      g.attemptRip? c safe q = .ok (done, g') → Step g g'
  | unionEdges (c : Combiner σ) : Step g (g.unionEdges c)
  | follow? {al : Alignment σ} {g' : NfaGraph C σ} : g.follow? al = .ok g' → Step g g'

variable [Std.TransOrd σ] [Std.LawfulEqOrd σ]

theorem Constructed.exists_holdsFit [Quotable σ] (h : Constructed g) : ∃ n, g.HoldsFit n := by
  -- each construction succeeds with a container that holds the automaton it stands for
  have hsame : ∀ {x : Except Misuse (NfaGraph C σ)} {n : Nfa σ},
      (∃ g, x = .ok g ∧ g.HoldsFit n) → x = .ok g → ∃ n, g.HoldsFit n := by
    rintro x n ⟨g', rfl, hholds⟩ hg
    exact ⟨n, Except.ok.inj hg ▸ hholds⟩
  cases h with
  | nothing? hg => exact hsame (exists_nothing? C _) hg
  | emptyWord? hg => exact hsame (exists_emptyWord? C _) hg
  | literal? hg => exact hsame (exists_literal? C _) hg
  | ofParts? hg => exact ⟨_, holdsFit_of_ofParts? hg⟩
  | ofDfa? hd hg =>
    have hspec := ofDfa?_spec C hd.wellFormed
    split at hspec
    · exact hsame hspec hg
    · rw [hspec] at hg
      cases hg

/-- What is done in the container is a change of the automaton that it holds. -/
theorem Step.exists_evolves (h : Step g g') (hg : g.HoldsFit n) :
    ∃ n', g'.HoldsFit n' ∧ Nfa.Evolves n n' := by
  have hn := hg.wellFormed
  cases h with
  | setStart? hok =>
    obtain ⟨n', hn', h'⟩ := (hg.setStart? _).exists_of_ok hok
    exact ⟨n', h', hn.evolves_setStart? hn'⟩
  | setFinal? hok =>
    obtain ⟨n', hn', h'⟩ := (hg.setFinal? _).exists_of_ok hok
    exact ⟨n', h', hn.evolves_setFinal? hn'⟩
  | newState? hok =>
    obtain ⟨⟨q, n'⟩, hn', -, h'⟩ := hg.newState?.exists_of_ok hok
    exact ⟨n', h', hn.evolves_addState? hn'⟩
  | addEdge? hok =>
    obtain ⟨⟨new, n'⟩, hn', -, h'⟩ := (hg.addEdge? _).exists_of_ok hok
    exact ⟨n', h', hn.evolves_addEdge? hn'⟩
  | removeEdge e =>
    exact ⟨n.removeEdge e, ⟨(hg.removeEdge e).2, hg.fits⟩, hn.removeEdge e, Nat.le_refl _⟩
  | isolate? hok =>
    obtain ⟨n', hn', h'⟩ := hg.isolate?.exists_of_ok hok
    exact ⟨n', h', hn.evolves_isolate.of_within hn'⟩
  | star? hok =>
    obtain ⟨n', hn', h'⟩ := hg.star?.exists_of_ok hok
    exact ⟨n', h', hn.evolves_star.of_within hn'⟩
  | plus? hok =>
    obtain ⟨n', hn', h'⟩ := hg.plus?.exists_of_ok hok
    exact ⟨n', h', hn.evolves_plus.of_within hn'⟩
  | opt? hok =>
    obtain ⟨n', hn', h'⟩ := hg.opt?.exists_of_ok hok
    exact ⟨n', h', hn.evolves_opt.of_within hn'⟩
  | attemptRip? hok =>
    obtain ⟨⟨done, n'⟩, hn', -, h'⟩ := (hg.attemptRip? _ _ _).exists_of_ok hok
    exact ⟨n', h', hn.evolves_attemptRip? hn'⟩
  | unionEdges c => exact ⟨n.unionEdges c, ⟨hg.toHolds.unionEdges, hg.fits⟩, hn.evolves_unionEdges c⟩
  | follow? hok =>
    obtain ⟨n', hn', h'⟩ := (hg.follow? _).exists_of_ok hok
    exact ⟨n', h', hn.evolves_follow? hn'⟩

end Steps

/-! ## Runs -/

def stateSet (g : NfaGraph C σ) : Set State := {q | q ∈ C.nodes g.graph}

/-- The automata that come about by constructions and changes that succeed, each with all states
that it has had since it was constructed or since its states were last counted anew. -/
inductive Made (C : GraphMap) : {σ : Type} → [Ord σ] → NfaGraph C σ → Set State → Prop
  | construct {σ : Type} [Ord σ] [Std.TransOrd σ] [Std.LawfulEqOrd σ] [DecidableEq σ] [Quotable σ]
      {g : NfaGraph C σ} : Constructed g → Made C g g.stateSet
  | step {σ : Type} [Ord σ] [Std.TransOrd σ] [Std.LawfulEqOrd σ] [DecidableEq σ]
      {g g' : NfaGraph C σ} {held : Set State} :
      Made C g held → Step g g' → Made C g' (held ∪ g'.stateSet)
  | concat? {σ : Type} [Ord σ] [Std.TransOrd σ] [Std.LawfulEqOrd σ] [DecidableEq σ]
      {a b g : NfaGraph C σ} {held other : Set State} :
      Made C a held → Made C b other → a.concat? b = .ok g → Made C g (held ∪ g.stateSet)
  | union? {σ : Type} [Ord σ] [Std.TransOrd σ] [Std.LawfulEqOrd σ] [DecidableEq σ]
      {a b g : NfaGraph C σ} {held other : Set State} :
      Made C a held → Made C b other → a.union? b = .ok g → Made C g (held ∪ g.stateSet)
  | mapLetters {σ τ : Type} [Ord σ] [Ord τ] [Std.TransOrd τ] [Std.LawfulEqOrd τ]
      {g : NfaGraph C σ} {held : Set State} (f : σ → τ) : Made C g held → Made C (g.mapLetters f) held
  | renumber {σ : Type} [Ord σ] [Std.TransOrd σ] [Std.LawfulEqOrd σ]
      {g : NfaGraph C σ} {held : Set State} : Made C g held → Made C g.renumber g.renumber.stateSet

/-- What holds all along: the container holds an automaton, and all states that it has and has had
lie below the next identifier. -/
structure Tracked (g : NfaGraph C σ) (n : Nfa σ) (held : Set State) : Prop where
  holdsFit : g.HoldsFit n
  subset : g.stateSet ⊆ held
  lt_fresh : ∀ q ∈ held, q < n.fresh

theorem HoldsFit.lt_fresh (h : g.HoldsFit n) : ∀ q ∈ g.stateSet, q < n.fresh := fun q hq =>
  h.wellFormed.lt_fresh q ((h.mem_nodes q).1 hq)

theorem HoldsFit.tracked (h : g.HoldsFit n) : Tracked g n g.stateSet :=
  ⟨h, fun _ hq => hq, h.lt_fresh⟩

theorem Tracked.evolve (h : Tracked g n held) (h' : g'.HoldsFit n') (he : Nfa.Evolves n n') :
    Tracked g' n' (held ∪ g'.stateSet) where
  holdsFit := h'
  subset _ hq := .inr hq
  lt_fresh q hq := by
    obtain hq | hq := hq
    · exact Nat.lt_of_lt_of_le (h.lt_fresh q hq) he.fresh_le
    · exact h'.lt_fresh q hq

theorem HoldsFit.renumber [Std.TransOrd σ] [Std.LawfulEqOrd σ] (h : g.HoldsFit n) :
    g.renumber.HoldsFit n.renumber := by
  refine ⟨h.toHolds.renumber, ?_⟩
  show n.countingOrder.length ≤ stateLimit
  rw [h.wellFormed.length_countingOrder]
  exact h.wellFormed.length_states_le.trans h.fits

theorem Made.exists_tracked (h : Made C g held) : ∃ n, Tracked g n held := by
  induction h with
  | construct hc =>
    obtain ⟨n, hn⟩ := hc.exists_holdsFit
    exact ⟨n, hn.tracked⟩
  | step _ hstep ih =>
    obtain ⟨n, hn⟩ := ih
    obtain ⟨n', h', he⟩ := hstep.exists_evolves hn.holdsFit
    exact ⟨n', hn.evolve h' he⟩
  | concat? _ _ hok iha ihb =>
    obtain ⟨m, hm⟩ := iha
    obtain ⟨n, hn⟩ := ihb
    obtain ⟨n', hn', h'⟩ := (hm.holdsFit.concat? hn.holdsFit).exists_of_ok hok
    exact ⟨n', hm.evolve h'
      (hm.holdsFit.wellFormed.evolves_concat? hn.holdsFit.wellFormed hn')⟩
  | union? _ _ hok iha ihb =>
    obtain ⟨m, hm⟩ := iha
    obtain ⟨n, hn⟩ := ihb
    obtain ⟨n', hn', h'⟩ := (hm.holdsFit.union? hn.holdsFit).exists_of_ok hok
    exact ⟨n', hm.evolve h'
      (hm.holdsFit.wellFormed.evolves_union? hn.holdsFit.wellFormed hn')⟩
  | mapLetters f _ ih =>
    obtain ⟨n, hn⟩ := ih
    refine ⟨n.mapLetters f, hn.holdsFit.mapLetters f, fun q hq => hn.subset ?_, hn.lt_fresh⟩
    exact (hn.holdsFit.mem_nodes q).2 (((hn.holdsFit.mapLetters f).mem_nodes q).1 hq)
  | renumber _ ih =>
    obtain ⟨n, hn⟩ := ih
    exact ⟨n.renumber, hn.holdsFit.renumber.tracked⟩

/-- In the container of every automaton that comes about, the terminals and the ends of all arrows
are states, the labels at an arrow are a set in order that is not empty, the alphabet is in order
and has their letters, and a state that is added is above all states that there have been. -/
theorem Made.stored_spec (h : Made C g held) :
    g.start ∈ C.nodes g.graph ∧ g.final ∈ C.nodes g.graph ∧
    (∀ p q ls, ((p, q), ls) ∈ C.arrows g.graph → p ∈ C.nodes g.graph ∧ q ∈ C.nodes g.graph ∧
      ls ≠ [] ∧ Ascending.IsAscending ls ∧ ∀ a, .symbol a ∈ ls → a ∈ g.alphabet) ∧
    Ascending.IsAscending g.alphabet ∧
    (∀ q ∈ C.nodes g.graph, q ∈ held) ∧
    ∀ q g', g.newState? = .ok (q, g') → ∀ p ∈ held, p < q := by
  obtain ⟨n, hn⟩ := h.exists_tracked
  have hg := hn.holdsFit
  have hw := hg.wellFormed
  refine ⟨?_, ?_, fun p q ls hx => ?_, ?_, fun q hq => hn.subset hq, fun q g' hok p hp => ?_⟩
  · rw [hg.start_eq]
    exact (hg.mem_nodes _).2 hw.start_mem
  · rw [hg.final_eq]
    exact (hg.mem_nodes _).2 hw.final_mem
  · obtain ⟨⟨l, hl⟩, rfl⟩ := hg.mem_arrows.1 hx
    refine ⟨(hg.mem_nodes p).2 (hw.source_mem _ _ _ hl), (hg.mem_nodes q).2 (hw.target_mem _ _ _ hl),
      List.ne_nil_of_mem (Nfa.mem_labelsBetween.2 hl),
      Nfa.labelsBetween_ascending hw.edges_ascending p q, fun a ha => ?_⟩
    rw [hg.alphabet_eq]
    exact hw.letter_mem p a q (Nfa.mem_labelsBetween.1 ha)
  · rw [hg.alphabet_eq]
    exact hw.alphabet_ascending
  · obtain ⟨⟨q', n'⟩, hadd, rfl, -⟩ := hg.newState?.exists_of_ok hok
    obtain ⟨-, rfl, -⟩ := Nfa.addState?_eq_ok_iff.1 hadd
    exact hn.lt_fresh p hp

/-- The automaton of one letter, after a state was added to it and ripped out again and its
transition was removed. -/
def emptied : Nfa Char := { Nfa.nothing ['a'] with fresh := 3 }

/-- No empty set of labels is left at the arrow, and the next state does not fill the gap. -/
theorem stored_spec_emptied : ∃ (g : NfaGraph GraphMap.listed Char) (held : Set State),
    Made GraphMap.listed g held ∧ g.Holds emptied ∧ 2 ∈ held ∧ (∃ g', g.newState? = .ok (3, g')) ∧
    g.start ∈ GraphMap.listed.nodes g.graph ∧
    (∀ p q ls, ((p, q), ls) ∈ GraphMap.listed.arrows g.graph → ls ≠ []) ∧
    ∀ p ∈ held, p < 3 := by
  let n : Nfa Char := (Nfa.literal 'a').addState
  let m : Nfa Char := { Nfa.literal 'a' with fresh := 3 }
  have hadd : (Nfa.literal 'a').addState? = .ok (2, n) := rfl
  have hrip : n.attemptRip? (Nfa.eitherCombiner Char) true 2 = .ok (true, m) := rfl
  have hnext : emptied.addState? = .ok (3, emptied.addState) := rfl
  obtain ⟨g, hg, h⟩ := exists_literal? GraphMap.listed 'a'
  obtain ⟨⟨q, g₁⟩, hg₁, rfl, h₁⟩ := h.newState?.exists_of_eq_ok hadd
  obtain ⟨⟨done, g₂⟩, hg₂, -, h₂⟩ := (h₁.attemptRip? _ true 2).exists_of_eq_ok hrip
  have h₃ : (g₂.removeEdge ⟨0, .symbol 'a', 1⟩).2.HoldsFit emptied :=
    ⟨(h₂.removeEdge ⟨0, .symbol 'a', 1⟩).2, h₂.fits⟩
  obtain ⟨⟨q, g₄⟩, hg₄, rfl, -⟩ := h₃.newState?.exists_of_eq_ok hnext
  have hmade := (((Made.construct (.literal? hg)).step (.newState? hg₁)).step
    (.attemptRip? hg₂)).step (.removeEdge ⟨0, .symbol 'a', 1⟩)
  have hheld : 2 ∈ g₁.stateSet := (h₁.mem_nodes 2).2 (show 2 ∈ [0, 1, 2] by decide)
  obtain ⟨hstart, -, hstored, -, -, hfresh⟩ := hmade.stored_spec
  exact ⟨_, _, hmade, h₃.toHolds, .inl (.inl (.inr hheld)), ⟨g₄, hg₄⟩, hstart,
    fun p q ls hx => (hstored p q ls hx).2.2.1, hfresh 3 g₄ hg₄⟩

end NfaGraph

end Kleene
