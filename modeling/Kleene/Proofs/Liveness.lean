import Kleene.Dfa.Minimal
import Kleene.Proofs.Deterministic

/-!
# Live states

The states that take part in minimization.  No accepted word is lost by leaving out the others:
a word that is accepted from a reachable state goes through live states only, and as soon as one
live state accepts, the start state is live.
-/

namespace Kleene

namespace StateSet

variable {s : StateSet} {p q : State} {bound : Nat} {qs : List State}

@[simp] theorem contains_empty (bound : Nat) (q : State) : (empty bound).contains q = false := by
  unfold contains empty
  by_cases hq : q < bound <;> simp [hq]

theorem lt_of_contains (h : s.contains q = true) : q < s.flags.size := by
  by_cases hq : q < s.flags.size
  · exact hq
  · unfold contains at h
    rw [Array.getElem?_eq_none (Nat.not_lt.1 hq)] at h
    cases h

@[simp] theorem size_flags_insert (s : StateSet) (q : State) :
    (s.insert q).flags.size = s.flags.size := by
  unfold insert
  split
  · rfl
  · exact Array.size_setIfInBounds

theorem contains_insert : (s.insert q).contains p = true ↔
    s.contains p = true ∨ (p = q ∧ q < s.flags.size) := by
  unfold insert
  by_cases hskip : (s.contains q || s.flags.size ≤ q) = true
  · rw [if_pos hskip]
    constructor
    · exact fun h => .inl h
    · -- a state that is skipped is a member already, or beyond the bound
      intro h
      cases h with
      | inl h => exact h
      | inr h =>
        rw [Bool.or_eq_true, decide_eq_true_iff] at hskip
        rw [h.1]
        exact hskip.resolve_right (Nat.not_le.2 h.2)
  · rw [if_neg hskip]
    rw [Bool.or_eq_true, not_or, decide_eq_true_iff, Nat.not_le] at hskip
    unfold contains
    show (s.flags.setIfInBounds q true)[p]?.getD false = true ↔ _
    rw [Array.getElem?_setIfInBounds]
    by_cases hp : p = q
    · rw [hp, if_pos rfl, if_pos hskip.2]
      exact iff_of_true rfl (.inr ⟨rfl, hskip.2⟩)
    · rw [if_neg (Ne.symm hp)]
      exact (or_iff_left fun h => hp h.1).symm

theorem contains_foldl_insert : (qs.foldl insert s).contains p = true ↔
    s.contains p = true ∨ (p ∈ qs ∧ p < s.flags.size) := by
  induction qs generalizing s with
  | nil => simp
  | cons q qs ih =>
    rw [List.foldl_cons, ih, contains_insert, size_flags_insert, List.mem_cons, or_assoc,
      or_and_right]
    by_cases hp : p = q <;> simp [hp]

-- The set made of a list has the states of the list below the bound as its members.
theorem contains_ofList : (ofList bound qs).contains q = true ↔ q ∈ qs ∧ q < bound := by
  have hsize : (empty bound).flags.size = bound := Array.size_replicate
  unfold ofList
  rw [contains_foldl_insert, contains_empty, hsize]
  simp

theorem mem_toList : q ∈ s.toList ↔ s.contains q = true := by
  unfold toList
  rw [List.mem_filter, List.mem_range]
  exact and_iff_right_of_imp lt_of_contains

theorem nodup_toList (s : StateSet) : s.toList.Nodup := List.nodup_range.filter _

end StateSet

/-- Turning all arrows round turns the ways along them round. -/
theorem Reaches.reverse {arrows backward : List Arrow} {p q : State}
    (h : ∀ p q, (p, q) ∈ arrows → (q, p) ∈ backward) (hpq : Reaches arrows p q) :
    Reaches backward q p := by
  induction hpq with
  | refl => exact .refl _
  | tail _ he ih => exact .head (h _ _ he) ih

namespace Dfa

variable {σ : Type} {d : Dfa σ} {p q r : State} {a : σ} {w : List σ}

theorem mem_reachable : q ∈ d.reachable.toList ↔
    Reaches (d.edges.map Edge.ends) d.start q ∧ q < d.stateCount := by
  unfold reachable search
  rw [StateSet.mem_toList, StateSet.contains_ofList, mem_reachFrom_self]
  simp

theorem contains_productive : d.productive.contains q = true ↔
    (∃ f, d.isFinal f = true ∧ Reaches (d.edges.map fun e => (e.target, e.source)) f q) ∧
      q < d.stateCount := by
  unfold productive search
  rw [StateSet.contains_ofList, mem_reachFrom_self]
  simp only [mem_finals]

theorem mem_live : q ∈ d.live ↔
    q ∈ d.reachable.toList ∧ (d.isComplete = true ∨ d.productive.contains q = true) := by
  unfold live
  by_cases hcomplete : d.isComplete = true
  · rw [if_pos hcomplete]
    exact (and_iff_left (.inl hcomplete)).symm
  · rw [if_neg hcomplete, List.mem_filter]
    exact and_congr_right fun _ => (or_iff_right hcomplete).symm

theorem nodup_live (d : Dfa σ) : d.live.Nodup := by
  unfold live
  split
  · exact StateSet.nodup_toList _
  · exact (StateSet.nodup_toList _).filter _

section Words

variable [Ord σ] [DecidableEq σ]

omit [DecidableEq σ] in
theorem WellFormed.start_mem_reachable (h : d.WellFormed) : d.start ∈ d.reachable.toList :=
  mem_reachable.2 ⟨.refl _, h.start_lt⟩

theorem WellFormed.successor_mem_reachable (h : d.WellFormed) (hq : q ∈ d.reachable.toList)
    (hnext : d.successor q a = some r) : r ∈ d.reachable.toList := by
  have he := mem_edges_of_successor hnext
  have harrow : (q, r) ∈ d.edges.map Edge.ends := List.mem_map.2 ⟨_, he, rfl⟩
  exact mem_reachable.2 ⟨(mem_reachable.1 hq).1.tail harrow, h.target_lt _ _ _ he⟩

-- From a state from which a word is accepted an accepting state can be reached.
theorem WellFormed.contains_productive_of_acceptsFrom (h : d.WellFormed)
    (hw : d.acceptsFrom q w = true) : d.productive.contains q = true := by
  induction w generalizing q with
  | nil =>
    rw [acceptsFrom_nil] at hw
    exact contains_productive.2 ⟨⟨q, hw, .refl _⟩, lt_of_isFinal hw⟩
  | cons a w ih =>
    cases hnext : d.successor q a with
    | none =>
      rw [acceptsFrom_cons_of_none hnext] at hw
      cases hw
    | some r =>
      rw [acceptsFrom_cons_of_some hnext] at hw
      have he := mem_edges_of_successor hnext
      have hback : (r, q) ∈ d.edges.map fun e => (e.target, e.source) :=
        List.mem_map.2 ⟨_, he, rfl⟩
      rcases contains_productive.1 (ih hw) with ⟨⟨f, hf, hfr⟩, -⟩
      exact contains_productive.2 ⟨⟨f, hf, hfr.tail hback⟩, h.source_lt _ _ _ he⟩

-- A reachable state from which a word is accepted is live.
theorem WellFormed.mem_live_of_acceptsFrom (h : d.WellFormed) (hq : q ∈ d.reachable.toList)
    (hw : d.acceptsFrom q w = true) : q ∈ d.live :=
  mem_live.2 ⟨hq, .inr (h.contains_productive_of_acceptsFrom hw)⟩

/-- A letter that leads from a live state to one that is not live leads to no accepted word. -/
theorem WellFormed.acceptsFrom_eq_false_of_not_live (h : d.WellFormed) (hq : q ∈ d.live)
    (hnext : d.successor q a = some r) (hr : r ∉ d.live) (w : List σ) :
    d.acceptsFrom r w = false := by
  refine Bool.eq_false_of_not_eq_true fun hw => hr ?_
  exact h.mem_live_of_acceptsFrom (h.successor_mem_reachable (mem_live.1 hq).1 hnext) hw

/-- If a word is accepted, a live state accepts. -/
theorem WellFormed.exists_live_final (h : d.WellFormed) (hq : q ∈ d.reachable.toList)
    (hw : d.acceptsFrom q w = true) : ∃ f ∈ d.live, d.isFinal f = true := by
  induction w generalizing q with
  | nil => exact ⟨q, h.mem_live_of_acceptsFrom hq hw, hw⟩
  | cons a w ih =>
    cases hnext : d.successor q a with
    | none =>
      rw [acceptsFrom_cons_of_none hnext] at hw
      cases hw
    | some r =>
      rw [acceptsFrom_cons_of_some hnext] at hw
      exact ih (h.successor_mem_reachable hq hnext) hw

omit [DecidableEq σ] in
/-- If a live state accepts, the start state is live. -/
theorem WellFormed.start_mem_live (h : d.WellFormed) {f : State} (hf : f ∈ d.live)
    (hfinal : d.isFinal f = true) : d.start ∈ d.live := by
  have hreach := (mem_reachable.1 (mem_live.1 hf).1).1
  have hback : Reaches (d.edges.map fun e => (e.target, e.source)) f d.start := by
    refine hreach.reverse fun p q hpq => ?_
    rcases List.mem_map.1 hpq with ⟨e, he, heq⟩
    rcases Prod.mk.inj heq with ⟨rfl, rfl⟩
    exact List.mem_map.2 ⟨e, he, rfl⟩
  have hproductive := contains_productive.2 ⟨⟨f, hfinal, hback⟩, h.start_lt⟩
  exact mem_live.2 ⟨h.start_mem_reachable, .inr hproductive⟩

end Words

end Dfa

end Kleene
