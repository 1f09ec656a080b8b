import Kleene.Ascending
import Kleene.Automaton.State

/-!
# Reachability

The states that can be reached along a finite list of arrows.  The search is breadth-first:
in each round the arrows that leave the frontier are used up, and their targets are the
next frontier, so a round that finds an arrow shortens the list.  Using arrows up loses
nothing: a path that comes back to the frontier can be cut short (`mem_reachFrom`).
-/

namespace Kleene

abbrev Arrow := State × State

/-- Zero or more arrows lead from the first state to the second. -/
inductive Reaches (arrows : List Arrow) : State → State → Prop
  | refl (p : State) : Reaches arrows p p
  | tail {p q r : State} : Reaches arrows p q → (q, r) ∈ arrows → Reaches arrows p r

def leaving (states : List State) (arrows : List Arrow) : List Arrow :=
  arrows.filter (·.1 ∈ states)

def notLeaving (states : List State) (arrows : List Arrow) : List Arrow :=
  arrows.filter (·.1 ∉ states)

theorem length_leaving_add_length_notLeaving (states : List State) (arrows : List Arrow) :
    (leaving states arrows).length + (notLeaving states arrows).length = arrows.length := by
  simp [leaving, notLeaving, ← List.countP_eq_length_filter,
    List.length_eq_countP_add_countP (fun a : Arrow => decide (a.1 ∈ states)) (l := arrows)]

/-- The states of `found` and all states that one or more arrows lead to from `frontier`. -/
def reachFrom (arrows : List Arrow) (frontier found : List State) : List State :=
  if (leaving frontier arrows).isEmpty then found
  else
    let targets := (leaving frontier arrows).map (·.2)
    reachFrom (notLeaving frontier arrows) targets (Ascending.insertAll targets found)
termination_by arrows.length
decreasing_by
  have := length_leaving_add_length_notLeaving frontier arrows
  have : (leaving frontier arrows).length ≠ 0 := by simp_all
  omega

/-! ## What the search finds -/

theorem mem_leaving {states : List State} {arrows : List Arrow} {p q : State} :
    (p, q) ∈ leaving states arrows ↔ (p, q) ∈ arrows ∧ p ∈ states := by
  simp [leaving]

theorem mem_notLeaving {states : List State} {arrows : List Arrow} {p q : State} :
    (p, q) ∈ notLeaving states arrows ↔ (p, q) ∈ arrows ∧ p ∉ states := by
  simp [notLeaving]

theorem Reaches.mono {arrows more : List Arrow} (h : ∀ e ∈ arrows, e ∈ more) {p q : State}
    (hpq : Reaches arrows p q) : Reaches more p q := by
  induction hpq with
  | refl => exact .refl _
  | tail _ he ih => exact .tail ih (h _ he)

theorem Reaches.head {arrows : List Arrow} {p q r : State} (he : (p, q) ∈ arrows)
    (hqr : Reaches arrows q r) : Reaches arrows p r := by
  induction hqr with
  | refl => exact .tail (.refl _) he
  | tail _ hf ih => exact .tail ih hf

theorem Reaches.trans {arrows : List Arrow} {p q r : State} (hpq : Reaches arrows p q)
    (hqr : Reaches arrows q r) : Reaches arrows p r := by
  induction hqr with
  | refl => exact hpq
  | tail _ hf ih => exact .tail ih hf

/-- `q` can be reached from one of the states by one or more arrows. -/
def ReachedBeyond (arrows : List Arrow) (states : List State) (q : State) : Prop :=
  ∃ p ∈ states, ∃ m, (p, m) ∈ arrows ∧ Reaches arrows m q

/-- After the last arrow that leaves `states`, a path uses only other arrows. -/
theorem reaches_after_leaving {arrows : List Arrow} {states : List State} {p q : State}
    (hpq : Reaches arrows p q) (hp : p ∈ (leaving states arrows).map (·.2)) :
    q ∈ (leaving states arrows).map (·.2) ∨
      ReachedBeyond (notLeaving states arrows) ((leaving states arrows).map (·.2)) q := by
  induction hpq with
  | refl => exact .inl hp
  | @tail m r _ he ih =>
    by_cases hm : m ∈ states
    · exact .inl (List.mem_map.2 ⟨(m, r), mem_leaving.2 ⟨he, hm⟩, rfl⟩)
    · have hmr : (m, r) ∈ notLeaving states arrows := mem_notLeaving.2 ⟨he, hm⟩
      obtain h | ⟨s, hs, t, hst, htm⟩ := ih
      · exact .inr ⟨m, h, r, hmr, .refl _⟩
      · exact .inr ⟨s, hs, t, hst, .tail htm hmr⟩

/-- One round of the search: what can be reached from `states` are the targets of the arrows
that leave them, and what can be reached from these along the other arrows. -/
theorem reachedBeyond_iff_round {arrows : List Arrow} {states : List State} {q : State} :
    ReachedBeyond arrows states q ↔ q ∈ (leaving states arrows).map (·.2) ∨
      ReachedBeyond (notLeaving states arrows) ((leaving states arrows).map (·.2)) q := by
  have hsub : ∀ e ∈ notLeaving states arrows, e ∈ arrows := fun e he =>
    (mem_notLeaving.1 he).1
  have hbeyond : ∀ {m}, m ∈ (leaving states arrows).map (·.2) → Reaches arrows m q →
      ReachedBeyond arrows states q := fun {m} hm hmq => by
    obtain ⟨⟨p, m⟩, he, rfl⟩ := List.mem_map.1 hm
    exact ⟨p, (mem_leaving.1 he).2, m, (mem_leaving.1 he).1, hmq⟩
  constructor
  · rintro ⟨p, hp, m, he, hmq⟩
    exact reaches_after_leaving hmq (List.mem_map.2 ⟨(p, m), mem_leaving.2 ⟨he, hp⟩, rfl⟩)
  · rintro (h | ⟨m, hm, r, he, hrq⟩)
    · exact hbeyond h (.refl _)
    · exact hbeyond hm (Reaches.head (hsub _ he) (hrq.mono hsub))

/-- The search finds exactly what can be reached from the frontier by one or more arrows. -/
theorem mem_reachFrom {arrows : List Arrow} {frontier found : List State} {q : State} :
    q ∈ reachFrom arrows frontier found ↔ q ∈ found ∨ ReachedBeyond arrows frontier q := by
  fun_induction reachFrom arrows frontier found with
  | case1 arrows frontier found h =>
    refine ⟨.inl, fun hq => hq.elim id fun ⟨p, hp, m, he, _⟩ => ?_⟩
    have : (p, m) ∈ leaving frontier arrows := mem_leaving.2 ⟨he, hp⟩
    simp_all
  | case2 arrows frontier found _ targets ih =>
    have hround : ReachedBeyond arrows frontier q ↔ _ := reachedBeyond_iff_round
    rw [ih, Ascending.mem_insertAll, hround, or_assoc, or_left_comm]

theorem reaches_iff_eq_or_reachedBeyond {arrows : List Arrow} {p q : State} :
    Reaches arrows p q ↔ q = p ∨ ReachedBeyond arrows [p] q := by
  constructor
  · intro h
    induction h with
    | refl => exact .inl rfl
    | tail _ he ih =>
      obtain rfl | ⟨s, hs, m, hsm, hmq⟩ := ih
      · exact .inr ⟨_, by simp, _, he, .refl _⟩
      · exact .inr ⟨s, hs, m, hsm, .tail hmq he⟩
  · rintro (rfl | ⟨s, hs, m, hsm, hmq⟩)
    · exact .refl _
    · rw [List.mem_singleton] at hs
      subst hs
      exact .head hsm hmq

theorem mem_reachFrom_self {arrows : List Arrow} {states : List State} {q : State} :
    q ∈ reachFrom arrows states states ↔ ∃ p ∈ states, Reaches arrows p q := by
  rw [mem_reachFrom]
  constructor
  · rintro (h | ⟨p, hp, m, he, hmq⟩)
    · exact ⟨q, h, .refl _⟩
    · exact ⟨p, hp, .head he hmq⟩
  · rintro ⟨p, hp, hpq⟩
    obtain rfl | ⟨s, hs, m, he, hmq⟩ := reaches_iff_eq_or_reachedBeyond.1 hpq
    · exact .inl hp
    · rw [List.mem_singleton] at hs
      exact .inr ⟨p, hp, m, hs ▸ he, hmq⟩

theorem isAscending_reachFrom {arrows : List Arrow} {frontier found : List State}
    (h : Ascending.IsAscending found) :
    Ascending.IsAscending (reachFrom arrows frontier found) := by
  fun_induction reachFrom arrows frontier found with
  | case1 => exact h
  | case2 _ _ _ _ _ ih => exact ih (Ascending.isAscending_insertAll h)

end Kleene
