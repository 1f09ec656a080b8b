import Kleene.Proofs.Alignment
import Kleene.Proofs.CostSquares
import Kleene.Proofs.Simulation

/-!
# The costs in the table

The squares of the table are filled from the transitions, one after the other, so in the end each
number is the least cost of a path.  Such a path passes no state twice and is too short for a sum
to come near the largest number, which is left where there is no path.
-/

namespace Kleene

/-! ## Paths between places -/

namespace Nfa

variable {σ : Type} {n : Nfa σ} {p q : State} {a : σ} {u : List σ} {c : Nat}

/-- A cheapest path has fewer letters than there are states: each of its letters leads to a state
of the next cost. -/
theorem exists_spells_length_lt (hn : n.Wired) (hp : p ∈ n.states) (hu : n.Spells p q u) :
    ∃ v, n.Spells p q v ∧ v.length < n.states.length := by
  obtain ⟨c, -, hc⟩ := exists_cheapest hu
  obtain ⟨v, hv, rfl⟩ := hc.exists_spells
  refine ⟨v, hv, ?_⟩
  choose r hr using fun i : Fin (v.length + 1) => hc.exists_of_le (Nat.le_of_lt_succ i.isLt)
  have hnodup : ((List.finRange (v.length + 1)).map r).Nodup :=
    (List.nodup_finRange _).map fun i j hij =>
      Fin.ext ((hr i).unique (by rw [hij]; exact hr j))
  have hsub : (List.finRange (v.length + 1)).map r ⊆ n.states := by
    intro s hs
    obtain ⟨i, -, rfl⟩ := List.mem_map.1 hs
    obtain ⟨x, hx, -⟩ := (hr i).exists_spells
    exact hn.mem_of_spells hp hx
  have hle := hnodup.length_le_of_subset hsub
  rwa [List.length_map, List.length_finRange] at hle

/-- The costs of the paths between two places. -/
def pathCosts (n : Nfa σ) (i j : Fin n.states.length) : Set Nat :=
  {c | ∃ u, n.Spells n.states[i] n.states[j] u ∧ u.length = c}

/-- The costs of the paths between two places that have a given letter on them. -/
def costsVia (n : Nfa σ) (a : σ) (i j : Fin n.states.length) : Set Nat :=
  {c | ∃ x y, n.Spells n.states[i] n.states[j] (x ++ a :: y) ∧ c = x.length + 1 + y.length}

/-- The costs of single transitions. -/
def arcs (n : Nfa σ) (i j : Fin n.states.length) (c : Nat) : Prop :=
  ∃ l, ⟨n.states[i], l, n.states[j]⟩ ∈ n.edges ∧ c = if l.isEpsilon then 0 else 1

theorem composable_pathCosts (n : Nfa σ) : CostSquare.Composable n.pathCosts := by
  rintro i m j _ _ ⟨u, hu, rfl⟩ ⟨v, hv, rfl⟩
  exact ⟨u ++ v, hu.append hv, List.length_append⟩

theorem arcs.mem_pathCosts {i j : Fin n.states.length} (h : n.arcs i j c) : c ∈ n.pathCosts i j := by
  obtain ⟨l, he, rfl⟩ := h
  cases l with
  | epsilon => exact ⟨[], .of_epsilon he, rfl⟩
  | symbol a => exact ⟨[a], .of_symbol he, rfl⟩

/-- Every path passes places only. -/
theorem within_of_spells (hn : n.Wired) (hnodup : n.states.Nodup) {i j : Fin n.states.length}
    (hu : n.Spells n.states[i] n.states[j] u) :
    CostSquare.Within n.arcs (List.finRange _) i j u.length := by
  generalize hp : n.states[i] = p at hu
  generalize hq : n.states[j] = q at hu
  induction hu generalizing i with
  | nil p =>
    obtain rfl : i = j := Fin.ext ((hnodup.getElem_inj_iff).1 (hp.trans hq.symm))
    exact .refl i
  | @cons p r q l u v he hl _ ih =>
    obtain ⟨m, hm⟩ := List.mem_iff_get.1 (hn.target_mem _ _ _ he)
    have harc : n.arcs i m u.length := by
      refine ⟨l, ?_, ?_⟩
      · rw [hp, show n.states[m] = r from hm]
        exact he
      · cases l with
        | epsilon => rw [Label.mem_language_epsilon.1 hl]; rfl
        | symbol a => rw [Label.mem_language_symbol.1 hl]; rfl
    rw [List.length_append]
    exact .join (List.mem_finRange m) (.arc harc) (ih hm hq)

end Nfa

/-! ## Filling the squares -/

namespace CostTable

variable {σ : Type} {n : Nfa σ} {p q : State} {a : σ}

theorem finIdxOf?_getElem {qs : List State} (hqs : qs.Nodup) (i : Fin qs.length) :
    qs.finIdxOf? qs[i] = some i := by
  rw [List.finIdxOf?_eq_some_iff]
  exact ⟨rfl, fun j hj heq => Fin.ne_of_lt hj (Fin.ext (hqs.getElem_inj_iff.1 heq))⟩

theorem place?_getElem {qs : List State} (hqs : qs.Nodup) (i : Fin qs.length) :
    place? qs qs[i] = .ok i := by
  unfold place?
  rw [finIdxOf?_getElem hqs]

/-- The ends of a transition have places. -/
theorem exists_places (hn : n.Wired) {e : Edge (Label σ)} (he : e ∈ n.edges) :
    ∃ i j : Fin n.states.length, e = ⟨n.states[i], e.label, n.states[j]⟩ := by
  obtain ⟨i, hi⟩ := List.mem_iff_get.1 (hn.source_mem _ _ _ he)
  obtain ⟨j, hj⟩ := List.mem_iff_get.1 (hn.target_mem _ _ _ he)
  refine ⟨i, j, ?_⟩
  rw [show n.states[i] = e.source from hi, show n.states[j] = e.target from hj]

/-- What is known of the square when some of the single transitions are in it. -/
structure Direct (n : Nfa σ) (done : List (Edge (Label σ))) (g : CostSquare n.states.length) :
    Prop where
  sound : CostSquare.Sound n.pathCosts g
  stay : ∀ i, g.get i i ≤ 0
  edges : ∀ i j l, ⟨n.states[i], l, n.states[j]⟩ ∈ done → g.get i j ≤ if l.isEpsilon then 0 else 1

theorem direct_nil (n : Nfa σ) : Direct n [] (.diagonal n.states.length) := by
  obtain ⟨hsound, hstay⟩ := CostSquare.sound_diagonal (S := n.pathCosts) fun i => ⟨[], .nil _, rfl⟩
  exact ⟨hsound, hstay, fun i j l he => by cases he⟩

theorem Direct.covers {g : CostSquare n.states.length} (h : Direct n n.edges g) :
    CostSquare.Covers n.arcs [] g := by
  refine CostSquare.covers_nil h.stay ?_
  rintro i j c ⟨l, he, rfl⟩
  exact h.edges i j l he

theorem Direct.lower {done : List (Edge (Label σ))} {g : CostSquare n.states.length}
    (h : Direct n done g) (hnodup : n.states.Nodup) {i j : Fin n.states.length} {l : Label σ}
    (he : ⟨n.states[i], l, n.states[j]⟩ ∈ n.edges) :
    Direct n (done ++ [⟨n.states[i], l, n.states[j]⟩])
      (g.lower i j (if l.isEpsilon then 0 else 1)) := by
  have harc : n.arcs i j (if l.isEpsilon then 0 else 1) := ⟨l, he, rfl⟩
  have hlower := h.sound.lower fun _ => harc.mem_pathCosts
  refine ⟨hlower.sound, fun i => (hlower.le i i).trans (h.stay i), fun i' j' l' he' => ?_⟩
  rcases List.mem_append.1 he' with he' | he'
  · exact (hlower.le i' j').trans (h.edges i' j' l' he')
  · obtain ⟨hi, rfl, hj⟩ := Edge.mk.inj (List.mem_singleton.1 he')
    obtain rfl : i' = i := Fin.ext (hnodup.getElem_inj_iff.1 hi)
    obtain rfl : j' = j := Fin.ext (hnodup.getElem_inj_iff.1 hj)
    exact CostSquare.get_lower_le _ _ _ _

theorem exists_direct?_eq_ok (hn : n.Wired) (hnodup : n.states.Nodup) :
    ∃ g, direct? n = .ok g ∧ Direct n n.edges g := by
  unfold direct?
  refine exists_foldlM_eq_ok_of_steps (fun done g hdone e he => ?_) (direct_nil n)
  obtain ⟨i, j, hij⟩ := exists_places hn he
  generalize e.label = l at hij
  subst hij
  refine ⟨_, ?_, hdone.lower hnodup he⟩
  simp only [place?_getElem hnodup]
  rfl

/-! ## The squares of letters -/

variable [DecidableEq σ]

/-- The costs of paths with a letter on them; without a square there are none. -/
def squareOf {k : Nat} (squares : AList fun _ : σ => CostSquare k) (a : σ) : CostSquare k :=
  (squares.lookup a).getD (.filled k unreachableCost)

theorem squareOf_insert {k : Nat} (squares : AList fun _ : σ => CostSquare k) (a : σ)
    (g : CostSquare k) (b : σ) :
    squareOf (squares.insert a g) b = if b = a then g else squareOf squares b := by
  unfold squareOf
  split
  · rename_i hba
    rw [hba, AList.lookup_insert]
    rfl
  · rename_i hba
    rw [AList.lookup_insert_ne hba]

/-- What is known of the squares when some of the transitions are in them. -/
structure Crossed (n : Nfa σ) (distance : CostSquare n.states.length)
    (done : List (Edge (Label σ))) (squares : AList fun _ : σ => CostSquare n.states.length) :
    Prop where
  sound : ∀ a, CostSquare.Sound (n.costsVia a) (squareOf squares a)
  edges : ∀ a u v, ⟨n.states[u], .symbol a, n.states[v]⟩ ∈ done → ∀ i j,
    (squareOf squares a).get i j ≤ distance.get i u + 1 + distance.get v j

theorem crossed_nil (n : Nfa σ) (distance : CostSquare n.states.length) :
    Crossed n distance [] ∅ where
  sound a := CostSquare.sound_filled _
  edges a u v he := by cases he

variable {distance : CostSquare n.states.length} {done : List (Edge (Label σ))}
variable {squares : AList fun _ : σ => CostSquare n.states.length}

theorem Crossed.insert (h : Crossed n distance done squares) (hnodup : n.states.Nodup)
    (hdistance : CostSquare.Sound n.pathCosts distance) {u v : Fin n.states.length}
    (he : ⟨n.states[u], .symbol a, n.states[v]⟩ ∈ n.edges) :
    Crossed n distance (done ++ [⟨n.states[u], .symbol a, n.states[v]⟩])
      (squares.insert a (distance.cross u v (squareOf squares a))) := by
  have hvia : ∀ i j, distance.get i u < unreachableCost → distance.get v j < unreachableCost →
      distance.get i u + 1 + distance.get v j ∈ n.costsVia a i j := by
    intro i j hbefore hafter
    obtain ⟨x, hx, hxlength⟩ := (hdistance i u).2 hbefore
    obtain ⟨y, hy, hylength⟩ := (hdistance v j).2 hafter
    rw [← hxlength, ← hylength]
    exact ⟨x, y, hx.append ((Nfa.Spells.of_symbol he).append hy), rfl⟩
  obtain ⟨himproves, hthrough⟩ := CostSquare.cross_spec hvia (h.sound a)
  constructor
  · intro b
    rw [squareOf_insert]
    split
    · rename_i hba
      rw [hba]
      exact himproves.sound
    · exact h.sound b
  · intro b u' v' he' i j
    rw [squareOf_insert]
    rcases List.mem_append.1 he' with he' | he'
    · split
      · rename_i hba
        exact (himproves.le i j).trans (h.edges a u' v' (hba ▸ he') i j)
      · exact h.edges b u' v' he' i j
    · obtain ⟨hu, hlabel, hv⟩ := Edge.mk.inj (List.mem_singleton.1 he')
      obtain rfl : u' = u := Fin.ext (hnodup.getElem_inj_iff.1 hu)
      obtain rfl : v' = v := Fin.ext (hnodup.getElem_inj_iff.1 hv)
      rw [if_pos (Label.symbol.inj hlabel)]
      exact hthrough i j

theorem exists_crossed (hn : n.Wired) (hnodup : n.states.Nodup)
    (hdistance : CostSquare.Sound n.pathCosts distance) :
    ∃ squares, n.edges.foldlM (enter? distance) ∅ = .ok squares ∧
      Crossed n distance n.edges squares := by
  refine exists_foldlM_eq_ok_of_steps (fun done squares hdone e he => ?_) (crossed_nil n distance)
  obtain ⟨u, v, huv⟩ := exists_places hn he
  generalize e.label = l at huv
  subst huv
  cases l with
  | epsilon =>
    refine ⟨squares, rfl, hdone.sound, fun a u' v' he' => ?_⟩
    rcases List.mem_append.1 he' with he' | he'
    · exact hdone.edges a u' v' he'
    · cases (Edge.mk.inj (List.mem_singleton.1 he')).2.1
  | symbol a =>
    refine ⟨_, ?_, hdone.insert hnodup hdistance he⟩
    unfold enter?
    simp only [place?_getElem hnodup]
    rfl

/-! ## The whole table -/

/-- What a filled table has: in each square the least costs of the paths that it is about. -/
structure Filled (n : Nfa σ) (distance : CostSquare n.states.length)
    (squares : AList fun _ : σ => CostSquare n.states.length) : Prop where
  distance : ∀ i j, Minimum (n.pathCosts i j) (finite? (distance.get i j))
  via : ∀ a i j, Minimum (n.costsVia a i j) (finite? ((squareOf squares a).get i j))

variable [Ord σ]

/-- The table is filled without a look beside it, and no sum in it comes up to the largest number. -/
theorem exists_filled (h : n.WellFormed) (hfit : n.fresh ≤ stateLimit) :
    ∃ distance squares, ofNfa? n = .ok ⟨n.states, distance, squares⟩ ∧
      Filled n distance squares := by
  obtain ⟨direct, hdirect, hfilled⟩ := exists_direct?_eq_ok h.toWired h.nodup_states
  obtain ⟨hsound, hcovers⟩ :=
    CostSquare.cheapest_spec n.composable_pathCosts hfilled.sound hfilled.covers
  obtain ⟨squares, hsquares, hcrossed⟩ := exists_crossed h.toWired h.nodup_states hsound
  have hle : ∀ {i j : Fin n.states.length} {u : List σ}, n.Spells n.states[i] n.states[j] u →
      direct.cheapest.get i j ≤ u.length := fun hu =>
    hcovers _ _ _ (Nfa.within_of_spells h.toWired h.nodup_states hu)
  have hshort : ∀ {p q : State} {u : List σ}, p ∈ n.states → n.Spells p q u →
      ∃ v, n.Spells p q v ∧ v.length < stateLimit := by
    intro p q u hp hu
    obtain ⟨v, hv, hlt⟩ := Nfa.exists_spells_length_lt h.toWired hp hu
    exact ⟨v, hv, hlt.trans_le (h.length_states_le.trans hfit)⟩
  have hroom : 2 * stateLimit < unreachableCost := by decide
  refine ⟨direct.cheapest, squares, ?_, fun i j => ?_, fun a i j => ?_⟩
  · unfold ofNfa?
    rw [hdirect]
    show (do
      let squares ← n.edges.foldlM (enter? direct.cheapest) ∅
      return (⟨n.states, direct.cheapest, squares⟩ : CostTable σ)) = _
    rw [hsquares]
    rfl
  · refine (hsound).minimum ?_ ?_
    · rintro c ⟨u, hu, rfl⟩
      exact hle hu
    · rintro c ⟨u, hu, rfl⟩
      obtain ⟨v, hv, hlt⟩ := hshort (List.getElem_mem _) hu
      exact ⟨v.length, ⟨v, hv, rfl⟩, by omega⟩
  · refine (hcrossed.sound a).minimum ?_ ?_
    · -- the letter is read on some transition, which has been entered
      rintro c ⟨x, y, hspells, rfl⟩
      obtain ⟨s, t, hx, he, hy⟩ := Nfa.exists_edge_of_spells hspells
      obtain ⟨u, v, huv⟩ := exists_places h.toWired he
      obtain ⟨rfl, -, rfl⟩ := Edge.mk.inj huv
      exact (hcrossed.edges a u v he i j).trans
        (Nat.add_le_add (Nat.add_le_add_right (hle hx) 1) (hle hy))
    · rintro c ⟨x, y, hspells, rfl⟩
      obtain ⟨s, t, hx, he, hy⟩ := Nfa.exists_edge_of_spells hspells
      obtain ⟨x', hx', hxlt⟩ := hshort (List.getElem_mem _) hx
      obtain ⟨y', hy', hylt⟩ := hshort (h.target_mem _ _ _ he) hy
      exact ⟨_, ⟨x', y', hx'.append ((Nfa.Spells.of_symbol he).append hy'), rfl⟩, by omega⟩

omit [Ord σ] [DecidableEq σ] in
/-- A path with a letter on it costs one more than the letters beside this one. -/
theorem exists_minimum_beside {i j : Fin n.states.length} {o : Option Nat}
    (h : Minimum (n.costsVia a i j) o) : ∃ o', o = o'.map (· + 1) ∧
      Minimum {k | ∃ x y, n.Spells n.states[i] n.states[j] (x ++ a :: y) ∧
        k = x.length + y.length} o' := by
  refine ⟨o.map (· - 1), ?_, ?_, ?_⟩
  · cases o with
    | none => rfl
    | some c =>
      obtain ⟨x, y, -, hc⟩ := h.achieved c rfl
      show some c = some (c - 1 + 1)
      rw [hc, Nat.add_right_comm, Nat.add_sub_cancel]
  · intro k hk
    obtain ⟨c, rfl, rfl⟩ := Option.map_eq_some_iff.1 hk
    obtain ⟨x, y, hspells, hc⟩ := h.achieved c rfl
    exact ⟨x, y, hspells, by omega⟩
  · rintro k ⟨x, y, hspells, rfl⟩
    obtain ⟨c, rfl, hle⟩ := h.bound _ ⟨x, y, hspells, rfl⟩
    exact ⟨c - 1, rfl, by omega⟩

omit [Ord σ] in
/-- The cost of a letter is computed without a number below zero, and it is the least number of
edits. -/
theorem Filled.stepCostAt?_eq_ok (h : Filled n distance squares) (i j : Fin n.states.length)
    (a : σ) : ∃ o, stepCostAt? ⟨n.states, distance, squares⟩ i j a = .ok o ∧
      Minimum {k | n.Aligns n.states[i] n.states[j] [a] k} o := by
  have hvia : ((squares.lookup a).bind fun square => finite? (square.get i j)) =
      finite? ((squareOf squares a).get i j) := by
    unfold squareOf
    cases squares.lookup a with
    | none => exact (if_pos (CostSquare.get_filled _ i j)).symm
    | some square => rfl
  obtain ⟨o, ho, hways⟩ := exists_minimum_beside (h.via a i j)
  refine ⟨_, ?_, Nfa.minimum_aligns_letter (h.distance i j) hways⟩
  unfold stepCostAt?
  dsimp only
  rw [hvia, ho]
  cases finite? (distance.get i j) with
  | none => rfl
  | some plain => cases o <;> rfl

omit [Ord σ] [DecidableEq σ] in
theorem cost_eq_none {t : CostTable σ} (h : ¬(p ∈ t.states ∧ q ∈ t.states)) : t.cost p q = none := by
  unfold cost
  by_cases hp : p ∈ t.states
  · rw [List.finIdxOf?_eq_none_iff.2 fun hq => h ⟨hp, hq⟩]
    cases t.states.finIdxOf? p <;> rfl
  · rw [List.finIdxOf?_eq_none_iff.2 hp]
    rfl

omit [Ord σ] in
theorem stepCost?_eq_ok_none {t : CostTable σ} (h : ¬(p ∈ t.states ∧ q ∈ t.states)) (a : σ) :
    t.stepCost? p q a = .ok none := by
  unfold stepCost?
  by_cases hp : p ∈ t.states
  · rw [List.finIdxOf?_eq_none_iff.2 fun hq => h ⟨hp, hq⟩]
    cases t.states.finIdxOf? p <;> rfl
  · rw [List.finIdxOf?_eq_none_iff.2 hp]
    rfl

/-- The table agrees with the costs that are found by a search. -/
theorem exists_ofNfa?_eq_ok (h : n.WellFormed) (hfit : n.fresh ≤ stateLimit) :
    ∃ t, ofNfa? n = .ok t ∧ ∀ p q, t.cost p q = (PathCosts.ofNfa n).cost p q ∧
      ∀ a, t.stepCost? p q a = .ok ((PathCosts.ofNfa n).stepCost p q a) := by
  obtain ⟨distance, squares, ht, hfilled⟩ := exists_filled h hfit
  refine ⟨_, ht, fun p q => ?_⟩
  by_cases hmem : p ∈ n.states ∧ q ∈ n.states
  · obtain ⟨i, rfl⟩ := List.mem_iff_get.1 hmem.1
    obtain ⟨j, rfl⟩ := List.mem_iff_get.1 hmem.2
    have hi : n.states.finIdxOf? (n.states.get i) = some i := finIdxOf?_getElem h.nodup_states i
    have hj : n.states.finIdxOf? (n.states.get j) = some j := finIdxOf?_getElem h.nodup_states j
    constructor
    · unfold cost
      dsimp only
      rw [hi, hj]
      exact (hfilled.distance i j).unique (PathCosts.minimum_cost hmem.1 hmem.2)
    · intro a
      obtain ⟨o, ho, hmin⟩ := hfilled.stepCostAt?_eq_ok i j a
      unfold stepCost?
      dsimp only
      rw [hi, hj]
      exact ho.trans (congrArg _ (hmin.unique
        (PathCosts.minimum_stepCost h.toWired hmem.1 hmem.2 a)))
  · exact ⟨(cost_eq_none hmem).trans (PathCosts.cost_eq_none hmem).symm, fun a =>
      (stepCost?_eq_ok_none hmem a).trans (congrArg _ (PathCosts.stepCost_eq_none hmem a).symm)⟩

end CostTable

/-! ## What paths cost -/

namespace Nfa

variable {σ : Type} {n : Nfa σ} {p q : State}

theorem exists_spells_iff_exists_walk {P : List σ → Prop} :
    (∃ u, n.Spells p q u ∧ P u) ↔ ∃ es, n.Walk p es q ∧ P (letters es) := by
  constructor
  · rintro ⟨u, hu, hP⟩
    obtain ⟨es, hwalk, rfl⟩ := hu.exists_walk
    exact ⟨es, hwalk, hP⟩
  · rintro ⟨es, hwalk, hP⟩
    exact ⟨_, hwalk.spells, hP⟩

theorem cost_spec (hp : p ∈ n.states) (hq : q ∈ n.states) :
    ((PathCosts.ofNfa n).cost p q = none ↔ ¬∃ es, n.Walk p es q) ∧
      ∀ c, (PathCosts.ofNfa n).cost p q = some c →
        IsLeast {k | ∃ es, n.Walk p es q ∧ (letters es).length = k} c := by
  have hmin := (PathCosts.minimum_cost hp hq).congr fun k =>
    exists_spells_iff_exists_walk (P := fun u => u.length = k)
  refine ⟨?_, fun c hc => ?_⟩
  · rw [hmin.eq_none_iff]
    exact ⟨fun hnone ⟨es, hwalk⟩ => hnone _ ⟨es, hwalk, rfl⟩,
      fun hnone k ⟨es, hwalk, _⟩ => hnone ⟨es, hwalk⟩⟩
  · rw [hc] at hmin
    exact hmin.isLeast

theorem cost_self (hp : p ∈ n.states) : (PathCosts.ofNfa n).cost p p = some 0 := by
  obtain ⟨c, hc, hle⟩ := (PathCosts.minimum_cost hp hp).bound 0 ⟨[], .nil p, rfl⟩
  rw [hc, Nat.le_zero.1 hle]

variable [DecidableEq σ]

theorem stepCost_spec (hn : n.Wired) (hp : p ∈ n.states) (hq : q ∈ n.states) (a : σ) :
    ((PathCosts.ofNfa n).stepCost p q a = none ↔ ¬∃ es, n.Walk p es q) ∧
      ∀ c, (PathCosts.ofNfa n).stepCost p q a = some c →
        IsLeast {k | ∃ es, n.Walk p es q ∧ levenshtein [a] (letters es) = k} c := by
  have hmin := PathCosts.minimum_stepCost hn hp hq a
  refine ⟨?_, fun c hc => ?_⟩
  · rw [hmin.eq_none_iff]
    constructor
    · rintro hnone ⟨es, hwalk⟩
      exact hnone _ ⟨_, hwalk.spells, .singleton a _⟩
    · rintro hnone k ⟨u, hu, -⟩
      obtain ⟨es, hwalk, -⟩ := hu.exists_walk
      exact hnone ⟨es, hwalk⟩
  · rw [hc] at hmin
    have hset : {k | ∃ u, n.Spells p q u ∧ levenshtein [a] u = k} =
        {k | ∃ es, n.Walk p es q ∧ levenshtein [a] (letters es) = k} :=
      Set.ext fun k => exists_spells_iff_exists_walk (P := fun u => levenshtein [a] u = k)
    rw [← hset]
    exact isLeast_levenshtein_spells hmin.isLeast

variable [Ord σ]

/-- The cost between two states is the least number of letters on a path, and the cost of a letter
is the least edit distance of the letter to what a path spells; there is no cost exactly if there
is no path.  The table that is filled in place has these costs too: no place is looked up beside
it, no number below zero is asked for, and the number for no path is not mistaken for a cost. -/
theorem WellFormed.pathCosts_spec (h : n.WellFormed) :
    (∀ p ∈ n.states, ∀ q ∈ n.states,
      ((PathCosts.ofNfa n).cost p q = none ↔ ¬∃ es, n.Walk p es q) ∧
      (∀ c, (PathCosts.ofNfa n).cost p q = some c →
        IsLeast {k | ∃ es, n.Walk p es q ∧ (letters es).length = k} c) ∧
      (PathCosts.ofNfa n).cost p p = some 0 ∧
      ∀ a, ((PathCosts.ofNfa n).stepCost p q a = none ↔ ¬∃ es, n.Walk p es q) ∧
        ∀ c, (PathCosts.ofNfa n).stepCost p q a = some c →
          IsLeast {k | ∃ es, n.Walk p es q ∧ levenshtein [a] (letters es) = k} c) ∧
    (n.fresh ≤ stateLimit → ∃ t, CostTable.ofNfa? n = .ok t ∧ ∀ p q,
      t.cost p q = (PathCosts.ofNfa n).cost p q ∧
        ∀ a, t.stepCost? p q a = .ok ((PathCosts.ofNfa n).stepCost p q a)) := by
  refine ⟨fun p hp q hq => ?_, CostTable.exists_ofNfa?_eq_ok h⟩
  obtain ⟨hnone, hleast⟩ := cost_spec hp hq
  exact ⟨hnone, hleast, cost_self hp, stepCost_spec h.toWired hp hq⟩

/-- Along two cycles that cost nothing one letter is read, and there is no way back. -/
theorem pathCosts_spec_idleCycles : idleCycles.WellFormed ∧ idleCycles.fresh ≤ stateLimit ∧
    (∃ t, CostTable.ofNfa? idleCycles = .ok t ∧ t.cost 0 2 = some 1 ∧ t.cost 2 0 = none ∧
      t.stepCost? 0 2 'a' = .ok (some 0) ∧ t.stepCost? 0 2 'z' = .ok (some 1)) ∧
    (¬∃ es, idleCycles.Walk 2 es 0) ∧
    IsLeast {k | ∃ es, idleCycles.Walk 0 es 2 ∧ levenshtein ['z'] (letters es) = k} 1 := by
  have hfit : idleCycles.fresh ≤ stateLimit := by decide +kernel
  have hback : (PathCosts.ofNfa idleCycles).cost 2 0 = none := by decide +kernel
  have hstep : (PathCosts.ofNfa idleCycles).stepCost 0 2 'z' = some 1 := by decide +kernel
  obtain ⟨hspec, htable⟩ := wellFormed_idleCycles.pathCosts_spec
  obtain ⟨t, ht, hsame⟩ := htable hfit
  refine ⟨wellFormed_idleCycles, hfit, ⟨t, ht, ?_, ?_, ?_, ?_⟩, ?_, ?_⟩
  · exact (hsame 0 2).1.trans (by decide +kernel)
  · exact (hsame 2 0).1.trans hback
  · exact ((hsame 0 2).2 'a').trans (congrArg Except.ok (by decide +kernel))
  · exact ((hsame 0 2).2 'z').trans (congrArg Except.ok hstep)
  · exact (hspec 2 (by decide) 0 (by decide)).1.1 hback
  · exact ((hspec 0 (by decide) 2 (by decide)).2.2.2 'z').2 1 hstep

end Nfa

end Kleene
