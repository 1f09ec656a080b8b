import Kleene.Proofs.Isolation

/-!
# One automaton inside another

Two automata are joined by copying the second into the first: some of its states become states
of the first, and the others go to new places.  No two states of the second automaton share a
place, so the copy has the same paths.
-/

namespace Kleene.Nfa

variable {σ : Type} {a b : Nfa σ} {identified : List (State × State)} {p q r : State}

/-- The place of a state of `b` when `b` is copied into `a`. -/
def place (a b : Nfa σ) (identified : List (State × State)) (q : State) : State :=
  placement a.fresh identified (b.newcomers identified) q

/-- The states that are identified go to states of `a`, no two of them to the same one. -/
structure Seam (a : Nfa σ) (identified : List (State × State)) : Prop where
  mem_states : ∀ q p, identified.lookup q = some p → p ∈ a.states
  injective : ∀ q r p, identified.lookup q = some p → identified.lookup r = some p → q = r

theorem place_of_lookup (h : identified.lookup q = some p) : place a b identified q = p := by
  unfold place placement
  rw [h]

theorem place_of_newcomer (h : identified.lookup q = none) :
    place a b identified q = a.fresh + (b.newcomers identified).idxOf q := by
  unfold place placement
  rw [h]

theorem mem_newcomers (hq : q ∈ b.states) (h : identified.lookup q = none) :
    q ∈ b.newcomers identified := List.mem_filter.2 ⟨hq, by rw [h]; rfl⟩

variable [Ord σ]

/-- Only identified states are placed on states that were there before. -/
theorem WellFormed.exists_lookup_of_place_mem (ha : a.WellFormed)
    (h : place a b identified q ∈ a.states) :
    identified.lookup q = some (place a b identified q) := by
  cases hl : identified.lookup q with
  | some p => rw [place_of_lookup hl]
  | none =>
    rw [place_of_newcomer hl] at h
    exact absurd (ha.lt_fresh _ h) (Nat.not_lt.2 (Nat.le_add_right _ _))

/-- No two states of the copied automaton share a place. -/
theorem WellFormed.place_injective (ha : a.WellFormed) (hs : Seam a identified)
    (hq : q ∈ b.states) (h : place a b identified q = place a b identified r) :
    q = r := by
  cases hlq : identified.lookup q with
  | some p =>
    have hp : place a b identified q = p := place_of_lookup hlq
    have hmem : place a b identified r ∈ a.states := h ▸ hp ▸ hs.mem_states q p hlq
    have hlr := ha.exists_lookup_of_place_mem hmem
    rw [← h, hp] at hlr
    exact hs.injective q r p hlq hlr
  | none =>
    cases hlr : identified.lookup r with
    | some p =>
      have hp : place a b identified r = p := place_of_lookup hlr
      have hmem : place a b identified q ∈ a.states := h.symm ▸ hp ▸ hs.mem_states r p hlr
      rw [ha.exists_lookup_of_place_mem hmem] at hlq
      cases hlq
    | none =>
      rw [place_of_newcomer hlq, place_of_newcomer hlr] at h
      exact (List.idxOf_inj (mem_newcomers hq hlq)).1 (Nat.add_left_cancel h)

theorem place_mem_absorb [Std.LawfulEqOrd σ] (hs : Seam a identified) (hq : q ∈ b.states) :
    place a b identified q ∈ (absorb a b identified).states := by
  refine Ascending.mem_union.2 ?_
  cases hl : identified.lookup q with
  | some p =>
    rw [place_of_lookup hl]
    exact .inl (hs.mem_states q p hl)
  | none =>
    rw [place_of_newcomer hl]
    refine .inr (List.mem_map.2 ⟨_, List.mem_range.2 ?_, rfl⟩)
    exact List.idxOf_lt_length_of_mem (mem_newcomers hq hl)

theorem mem_absorb_of_mem [Std.LawfulEqOrd σ] (hp : p ∈ a.states) :
    p ∈ (absorb a b identified).states := Ascending.mem_union.2 (.inl hp)

variable [Std.LawfulEqOrd σ]

/-- The transitions are those of `a` and the copies of those of `b`. -/
theorem mem_edges_absorb {l : Label σ} :
    ⟨p, l, r⟩ ∈ (absorb a b identified).edges ↔ ⟨p, l, r⟩ ∈ a.edges ∨
      ∃ s t, ⟨s, l, t⟩ ∈ b.edges ∧ p = place a b identified s ∧ r = place a b identified t := by
  unfold absorb
  rw [Ascending.mem_union, Ascending.mem_ofList, List.mem_map]
  refine or_congr_right ⟨?_, ?_⟩
  · intro h
    rcases h with ⟨⟨s, l', t⟩, he, heq⟩
    rcases Edge.mk.inj heq with ⟨rfl, rfl, rfl⟩
    exact ⟨s, t, he, rfl, rfl⟩
  · intro h
    rcases h with ⟨s, t, he, rfl, rfl⟩
    exact ⟨_, he, rfl⟩

/-- The copy of a path. -/
theorem Spells.place {w : List σ} (h : b.Spells p q w) :
    (absorb a b identified).Spells (place a b identified p) (place a b identified q) w :=
  h.simulate _ fun _ _ _ he _ hu =>
    .single (mem_edges_absorb.2 (.inr ⟨_, _, he, rfl, rfl⟩)) hu

/-- A path of the automaton that takes the other one in. -/
theorem Spells.absorb {w : List σ} (h : a.Spells p q w) :
    (absorb a b identified).Spells p q w :=
  h.mono fun _ he => mem_edges_absorb.2 (.inl he)

theorem WellFormed.absorb [Std.TransOrd σ] (ha : a.WellFormed) (hb : b.WellFormed)
    (hs : Seam a identified) : (absorb a b identified).WellFormed where
  start_mem := mem_absorb_of_mem ha.start_mem
  final_mem := mem_absorb_of_mem ha.final_mem
  source_mem p l q he := by
    rcases mem_edges_absorb.1 he with hedge | ⟨s, t, hedge, rfl, -⟩
    · exact mem_absorb_of_mem (ha.source_mem _ _ _ hedge)
    · exact place_mem_absorb hs (hb.source_mem _ _ _ hedge)
  target_mem p l q he := by
    rcases mem_edges_absorb.1 he with hedge | ⟨s, t, hedge, -, rfl⟩
    · exact mem_absorb_of_mem (ha.target_mem _ _ _ hedge)
    · exact place_mem_absorb hs (hb.target_mem _ _ _ hedge)
  states_ascending := Ascending.isAscending_union ha.states_ascending
    (Ascending.isAscending_map_add_range _ _)
  alphabet_ascending := Ascending.isAscending_union ha.alphabet_ascending hb.alphabet_ascending
  edges_ascending := Ascending.isAscending_union ha.edges_ascending (Ascending.isAscending_ofList _)
  letter_mem p c q he := by
    refine Ascending.mem_union.2 ?_
    rcases mem_edges_absorb.1 he with he | ⟨s, t, he, -, -⟩
    · exact .inl (ha.letter_mem _ _ _ he)
    · exact .inr (hb.letter_mem _ _ _ he)
  lt_fresh q hq := by
    rcases Ascending.mem_union.1 hq with hq | hq
    · exact Nat.lt_of_lt_of_le (ha.lt_fresh q hq) (Nat.le_add_right _ _)
    · rcases List.mem_map.1 hq with ⟨i, hi, rfl⟩
      exact Nat.add_lt_add_left (List.mem_range.1 hi) _

end Kleene.Nfa
