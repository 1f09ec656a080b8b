import Mathlib.Data.Nat.Find
import Kleene.Correction.PathCosts
import Kleene.Proofs.Edits
import Kleene.Proofs.WellFormed
import Kleene.Proofs.Paths

/-!
# Costs of paths

A layer of the search holds the states whose cheapest path from the start of the search has one
letter more than those of the layer before.  So the search finds the least number of letters on
a path to each state, and from these numbers follows the least number of edits that turn one
letter into what a path between two places spells.
-/

namespace Kleene

/-- The least number of a set, if there is any. -/
structure Minimum (S : Set Nat) (o : Option Nat) : Prop where
  achieved : ∀ c, o = some c → c ∈ S
  bound : ∀ k ∈ S, ∃ c, o = some c ∧ c ≤ k

namespace Minimum

variable {S T : Set Nat} {o o' : Option Nat} {c : Nat}

theorem isLeast (h : Minimum S (some c)) : IsLeast S c := by
  refine ⟨h.achieved c rfl, fun k hk => ?_⟩
  rcases h.bound k hk with ⟨c', hc', hle⟩
  rw [Option.some.inj hc']
  exact hle

theorem eq_none_iff (h : Minimum S o) : o = none ↔ ∀ k, k ∉ S := by
  constructor
  · intro ho k hk
    rcases h.bound k hk with ⟨c, hc, -⟩
    rw [ho] at hc
    cases hc
  · intro hempty
    cases o with
    | none => rfl
    | some c => exact absurd (h.achieved c rfl) (hempty c)

theorem unique (h : Minimum S o) (h' : Minimum S o') : o = o' := by
  cases o with
  | none => exact (h'.eq_none_iff.2 (h.eq_none_iff.1 rfl)).symm
  | some c =>
    obtain ⟨c', rfl, -⟩ := h'.bound c (h.achieved c rfl)
    rw [IsLeast.unique h.isLeast h'.isLeast]

theorem congr (h : Minimum S o) (hST : ∀ k, k ∈ S ↔ k ∈ T) : Minimum T o where
  achieved c hc := (hST c).1 (h.achieved c hc)
  bound k hk := h.bound k ((hST k).2 hk)

/-- The least sum of two numbers is the sum of the least ones. -/
theorem add (h : Minimum S o) (h' : Minimum T o') :
    Minimum {k | ∃ i ∈ S, ∃ j ∈ T, k = i + j} (do
      let i ← o
      let j ← o'
      return i + j) where
  achieved c hc := by
    rcases Option.bind_eq_some_iff.1 hc with ⟨i, hi, hc⟩
    rcases Option.bind_eq_some_iff.1 hc with ⟨j, hj, hc⟩
    exact ⟨i, h.achieved i hi, j, h'.achieved j hj, (Option.some.inj hc).symm⟩
  bound k hk := by
    rcases hk with ⟨i, hi, j, hj, rfl⟩
    rcases h.bound i hi with ⟨c, hc, hle⟩
    rcases h'.bound j hj with ⟨c', hc', hle'⟩
    rw [hc, hc']
    exact ⟨c + c', rfl, by omega⟩

/-- The least number of a list is that of a set if the list has numbers of the set only, and none
that is above all of them. -/
theorem min? {cs : List Nat} (hmem : ∀ c ∈ cs, c ∈ S) (hle : ∀ k ∈ S, ∃ c ∈ cs, c ≤ k) :
    Minimum S cs.min? where
  achieved c hc := hmem c (List.min?_eq_some_iff.1 hc).1
  bound k hk := by
    obtain ⟨c, hc, hck⟩ := hle k hk
    cases hmin : cs.min? with
    | none => cases List.min?_eq_none_iff.1 hmin ▸ hc
    | some least => exact ⟨least, rfl, ((List.min?_eq_some_iff.1 hmin).2 c hc).trans hck⟩

end Minimum

/-! ## Cheapest paths -/

namespace Nfa

variable {σ : Type} {n : Nfa σ} {p q r s t : State} {a : σ} {u : List σ} {k c c' : Nat}

theorem mem_letterArrows : (p, q) ∈ n.letterArrows ↔ ∃ a, ⟨p, .symbol a, q⟩ ∈ n.edges := by
  unfold letterArrows
  rw [List.mem_filterMap]
  constructor
  · intro h
    rcases h with ⟨⟨p', l, q'⟩, he, h⟩
    cases l with
    | symbol a =>
      cases h
      exact ⟨a, he⟩
    | epsilon => cases h
  · intro h
    rcases h with ⟨a, he⟩
    exact ⟨_, he, rfl⟩

/-- The least number of letters on a path between two states. -/
def Cheapest (n : Nfa σ) (p q : State) (c : Nat) : Prop :=
  IsLeast {k | ∃ u, n.Spells p q u ∧ u.length = k} c

theorem Cheapest.unique (h : n.Cheapest p q c) (h' : n.Cheapest p q c') : c = c' :=
  IsLeast.unique h h'

theorem Cheapest.exists_spells (h : n.Cheapest p q c) : ∃ u, n.Spells p q u ∧ u.length = c := h.1

theorem Cheapest.le_length (h : n.Cheapest p q c) (hu : n.Spells p q u) : c ≤ u.length :=
  h.2 ⟨u, hu, rfl⟩

theorem exists_cheapest (hu : n.Spells p q u) : ∃ c ≤ u.length, n.Cheapest p q c := by
  classical
  have hex : ∃ k, ∃ v, n.Spells p q v ∧ v.length = k := ⟨u.length, u, hu, rfl⟩
  exact ⟨Nat.find hex, Nat.find_min' hex ⟨u, hu, rfl⟩, Nat.find_spec hex,
    fun k hk => Nat.find_min' hex hk⟩

theorem cheapest_zero_iff : n.Cheapest p q 0 ↔ n.Spells p q [] := by
  constructor
  · intro h
    rcases h.exists_spells with ⟨u, hu, hlength⟩
    rwa [List.length_eq_zero_iff.1 hlength] at hu
  · intro h
    exact ⟨⟨[], h, rfl⟩, fun k _ => Nat.zero_le k⟩

-- The last letter on a path is read on a transition behind all others.
theorem exists_last_step (hu : n.Spells p q u) (hlength : u.length = k + 1) :
    ∃ s t v, n.Spells p s v ∧ v.length = k ∧ (s, t) ∈ n.letterArrows ∧ n.Spells t q [] := by
  have hne : u ≠ [] := by
    intro hnil
    rw [hnil] at hlength
    cases hlength
  rw [← List.dropLast_append_getLast hne] at hu
  rcases spells_append_iff.1 hu with ⟨r, hr, hlast⟩
  rcases spells_singleton_iff.1 hlast with ⟨s, t, hs, he, ht⟩
  have hbefore := hr.append hs
  rw [List.append_nil] at hbefore
  have hdrop : u.dropLast.length = k := by
    rw [List.length_dropLast, hlength, Nat.add_sub_cancel]
  exact ⟨s, t, _, hbefore, hdrop, mem_letterArrows.2 ⟨_, he⟩, ht⟩

theorem exists_longer (hu : n.Spells p s u) (hst : (s, t) ∈ n.letterArrows)
    (ht : n.Spells t q []) : ∃ v, n.Spells p q v ∧ v.length = u.length + 1 := by
  rcases mem_letterArrows.1 hst with ⟨a, he⟩
  have hpath := (hu.append (Spells.of_symbol he)).append ht
  rw [List.append_nil] at hpath
  exact ⟨u ++ [a], hpath, List.length_append⟩

-- A cheapest path goes on from a cheapest path that is one letter shorter, and comes to no
-- state that a shorter path comes to.
theorem cheapest_succ_iff : n.Cheapest p q (k + 1) ↔
    (∃ s t, n.Cheapest p s k ∧ (s, t) ∈ n.letterArrows ∧ n.Spells t q []) ∧
      ∀ c ≤ k, ¬ n.Cheapest p q c := by
  constructor
  · intro h
    refine ⟨?_, fun c hc hcheap => ?_⟩
    · rcases h.exists_spells with ⟨u, hu, hlength⟩
      rcases exists_last_step hu hlength with ⟨s, t, v, hv, hk, hst, ht⟩
      refine ⟨s, t, ⟨⟨v, hv, hk⟩, fun m hm => ?_⟩, hst, ht⟩
      -- a shorter path to the transition would make the whole path shorter
      rcases hm with ⟨x, hx, rfl⟩
      rcases exists_longer hx hst ht with ⟨y, hy, hylength⟩
      have := h.le_length hy
      omega
    · have := hcheap.unique h
      omega
  · intro h
    rcases h with ⟨⟨s, t, hs, hst, ht⟩, hnot⟩
    rcases hs.exists_spells with ⟨u, hu, hlength⟩
    rcases exists_longer hu hst ht with ⟨v, hv, hvlength⟩
    refine ⟨⟨v, hv, by omega⟩, fun m hm => ?_⟩
    rcases hm with ⟨x, hx, rfl⟩
    rcases exists_cheapest hx with ⟨c, hle, hc⟩
    by_cases hck : c ≤ k
    · exact absurd hc (hnot c hck)
    · omega

-- A state farther away shows that there is a state at each smaller cost.
theorem Cheapest.exists_of_le (h : n.Cheapest p q c) (hk : k ≤ c) : ∃ r, n.Cheapest p r k := by
  induction c generalizing q with
  | zero =>
    rw [Nat.le_zero.1 hk]
    exact ⟨q, h⟩
  | succ c ih =>
    by_cases hkc : k = c + 1
    · rw [hkc]
      exact ⟨q, h⟩
    · rcases (cheapest_succ_iff.1 h).1 with ⟨s, t, hs, -⟩
      exact ih hs (by omega)

end Nfa

/-! ## The layers -/

section Layers

variable {σ : Type} {n : Nfa σ} {p q : State} {k c : Nat}
variable {steps : List Arrow} {frontier : List State} {row : List (State × Nat)}

theorem lookup_map_pair (qs : List State) (c : Nat) (q : State) :
    (qs.map fun q => (q, c)).lookup q = if q ∈ qs then some c else none := by
  induction qs with
  | nil => rfl
  | cons s qs ih =>
    rw [List.map_cons, List.lookup_cons]
    by_cases hq : q = s
    · rw [hq, beq_self_eq_true, if_pos List.mem_cons_self]
    · rw [beq_false_of_ne hq]
      show (qs.map fun q => (q, c)).lookup q = _
      rw [ih]
      simp only [List.mem_cons, hq, false_or]

/-- What is known when all states of cost `k` are in the frontier. -/
structure Layers (n : Nfa σ) (p : State) (k : Nat) (steps : List Arrow) (frontier : List State)
    (row : List (State × Nat)) : Prop where
  steps : ∀ s t, (s, t) ∈ steps ↔ (s, t) ∈ n.letterArrows ∧ ∀ c < k, ¬ n.Cheapest p s c
  frontier : ∀ q, q ∈ frontier ↔ n.Cheapest p q k
  row : ∀ q c, row.lookup q = some c ↔ c ≤ k ∧ n.Cheapest p q c

theorem layers_start (n : Nfa σ) (p : State) :
    Layers n p 0 n.letterArrows (n.closure p) ((n.closure p).map fun q => (q, 0)) := by
  have hfrontier : ∀ q, q ∈ n.closure p ↔ n.Cheapest p q 0 := fun q => by
    rw [Nfa.mem_closure, Nfa.cheapest_zero_iff, Nfa.spells_nil_iff]
  refine ⟨fun s t => ?_, hfrontier, fun q c => ?_⟩
  · exact (and_iff_left fun c hc => absurd hc (Nat.not_lt_zero c)).symm
  · rw [lookup_map_pair]
    by_cases hq : q ∈ n.closure p
    · rw [if_pos hq, Option.some.injEq]
      constructor
      · intro hc
        rw [← hc]
        exact ⟨Nat.le_refl 0, (hfrontier q).1 hq⟩
      · exact fun h => (Nat.le_zero.1 h.1).symm
    · rw [if_neg hq]
      refine iff_of_false (fun h => (by cases h)) fun h => hq ?_
      rw [hfrontier, ← Nat.le_zero.1 h.1]
      exact h.2

/-- The transitions out of the frontier lead from its states. -/
theorem Layers.mem_leaving (h : Layers n p k steps frontier row) {s t : State} :
    (s, t) ∈ leaving frontier steps ↔ n.Cheapest p s k ∧ (s, t) ∈ n.letterArrows := by
  rw [Kleene.mem_leaving, h.steps, h.frontier]
  constructor
  · exact fun hst => ⟨hst.2, hst.1.1⟩
  · intro hst
    refine ⟨⟨hst.2, fun c hc hcheap => ?_⟩, hst.1⟩
    have := hcheap.unique hst.1
    omega

-- The states that the transitions out of the frontier lead to, as far as they are new, are
-- those of the next cost.
theorem Layers.mem_next (h : Layers n p k steps frontier row) :
    q ∈ (reachFrom n.epsilonArrows (Ascending.ofList ((leaving frontier steps).map (·.2)))
        (Ascending.ofList ((leaving frontier steps).map (·.2)))).filter
          (fun q => (row.lookup q).isNone) ↔ n.Cheapest p q (k + 1) := by
  rw [List.mem_filter, mem_reachFrom_self, Nfa.cheapest_succ_iff, Option.isNone_iff_eq_none,
    Option.eq_none_iff_forall_ne_some]
  refine and_congr ?_ ?_
  · constructor
    · intro hex
      rcases hex with ⟨t, ht, htq⟩
      rw [Ascending.mem_ofList, List.mem_map] at ht
      rcases ht with ⟨⟨s, t⟩, hst, rfl⟩
      rw [h.mem_leaving] at hst
      exact ⟨s, t, hst.1, hst.2, Nfa.spells_nil_iff.2 htq⟩
    · intro hex
      rcases hex with ⟨s, t, hs, hst, htq⟩
      refine ⟨t, ?_, Nfa.spells_nil_iff.1 htq⟩
      rw [Ascending.mem_ofList, List.mem_map]
      exact ⟨(s, t), h.mem_leaving.2 ⟨hs, hst⟩, rfl⟩
  · constructor
    · intro hnone c hc hcheap
      exact hnone c ((h.row q c).2 ⟨hc, hcheap⟩)
    · intro hnot c hc
      have hrow := (h.row q c).1 hc
      exact hnot c hrow.1 hrow.2

theorem Layers.next (h : Layers n p k steps frontier row) {next : List State}
    (hnext : ∀ q, q ∈ next ↔ n.Cheapest p q (k + 1)) :
    Layers n p (k + 1) (notLeaving frontier steps) next
      (row ++ next.map fun q => (q, k + 1)) := by
  refine ⟨fun s t => ?_, hnext, fun q c => ?_⟩
  · rw [mem_notLeaving, h.steps, h.frontier, and_assoc]
    refine and_congr_right fun _ => ?_
    constructor
    · intro hnot c hc
      by_cases hck : c = k
      · rw [hck]
        exact hnot.2
      · exact hnot.1 c (by omega)
    · exact fun hnot => ⟨fun c hc => hnot c (by omega), hnot k (Nat.lt_succ_self k)⟩
  · rw [List.lookup_append, lookup_map_pair, Option.or_eq_some_iff]
    constructor
    · intro hlookup
      cases hlookup with
      | inl hrow =>
        have hold := (h.row q c).1 hrow
        exact ⟨Nat.le_succ_of_le hold.1, hold.2⟩
      | inr hnew =>
        by_cases hq : q ∈ next
        · rw [if_pos hq] at hnew
          rw [← Option.some.inj hnew.2]
          exact ⟨Nat.le_refl _, (hnext q).1 hq⟩
        · rw [if_neg hq] at hnew
          cases hnew.2
    · intro hcheap
      by_cases hc : c = k + 1
      · rw [hc] at hcheap ⊢
        refine .inr ⟨?_, if_pos ((hnext q).2 hcheap.2)⟩
        -- a state has only one least cost
        rw [Option.eq_none_iff_forall_ne_some]
        intro c' hc'
        have hold := (h.row q c').1 hc'
        have := hold.2.unique hcheap.2
        omega
      · exact .inl ((h.row q c).2 ⟨by omega, hcheap.2⟩)

-- When no transition leaves the frontier, all states that can be reached have been found.
theorem Layers.lookup_of_isEmpty (h : Layers n p k steps frontier row)
    (hempty : (leaving frontier steps).isEmpty = true) :
    row.lookup q = some c ↔ n.Cheapest p q c := by
  rw [h.row]
  refine and_iff_right_of_imp fun hc => ?_
  by_cases hck : c ≤ k
  · exact hck
  · -- there would be a state of the next cost, and a transition to it
    rcases hc.exists_of_le (Nat.not_le.1 hck) with ⟨r, hr⟩
    rcases (Nfa.cheapest_succ_iff.1 hr).1 with ⟨s, t, hs, hst, -⟩
    have hleaving := h.mem_leaving.2 ⟨hs, hst⟩
    rw [List.isEmpty_iff.1 hempty] at hleaving
    cases hleaving

theorem Layers.lookup_costLayers (h : Layers n p k steps frontier row) :
    (costLayers n.epsilonArrows steps k frontier row).lookup q = some c ↔
      n.Cheapest p q c := by
  fun_induction costLayers n.epsilonArrows steps k frontier row with
  | case1 steps k frontier row hempty => exact h.lookup_of_isEmpty hempty
  | case2 steps k frontier row _ entered next ih => exact ih (h.next fun q => h.mem_next)

-- The search finds the least number of letters on a path to each state.
theorem lookup_costsFrom : (n.costsFrom p).lookup q = some c ↔ n.Cheapest p q c :=
  (layers_start n p).lookup_costLayers

end Layers

/-! ## The table -/

namespace Nfa

variable {σ : Type} {n : Nfa σ} {p q r : State} {a : σ} {u v w : List σ} {k l : Nat}

/-- So many edits turn the word into one that a path between two states spells. -/
def Aligns (n : Nfa σ) (p q : State) (w : List σ) (k : Nat) : Prop :=
  ∃ u, n.Spells p q u ∧ Edits w u k

theorem aligns_nil_iff : n.Aligns p q [] k ↔ ∃ u, n.Spells p q u ∧ u.length = k := by
  unfold Aligns
  simp only [Edits.nil_iff, eq_comm]

theorem Aligns.append (h : n.Aligns p q v k) (h' : n.Aligns q r w l) :
    n.Aligns p r (v ++ w) (k + l) := by
  rcases h with ⟨x, hx, hk⟩
  rcases h' with ⟨y, hy, hl⟩
  exact ⟨x ++ y, Path.append hx hy, hk.append hl⟩

theorem Wired.mem_of_spells (hn : n.Wired) (hp : p ∈ n.states) (hu : n.Spells p q u) :
    q ∈ n.states := by
  cases hu.eq_or_exists_target with
  | inl h =>
    rw [← h.1]
    exact hp
  | inr h =>
    rcases h with ⟨r, l, he⟩
    exact hn.target_mem r l q he

/-- An alignment of a word in two parts goes through some state between the parts. -/
theorem Aligns.split (h : n.Aligns p r (v ++ w) k) :
    ∃ q i j, n.Aligns p q v i ∧ n.Aligns q r w j ∧ k = i + j := by
  rcases h with ⟨u, hu, hedits⟩
  rcases hedits.split with ⟨x, y, i, j, hxy, hk, hx, hy⟩
  rw [hxy] at hu
  rcases spells_append_iff.1 hu with ⟨q, hpq, hqr⟩
  exact ⟨q, i, j, ⟨x, hpq, hx⟩, ⟨y, hqr, hy⟩, hk⟩

-- A path that spells a letter somewhere has a transition on it there.
theorem exists_edge_of_spells {x y : List σ} (h : n.Spells p q (x ++ a :: y)) :
    ∃ s t, n.Spells p s x ∧ ⟨s, .symbol a, t⟩ ∈ n.edges ∧ n.Spells t q y := by
  rcases spells_append_iff.1 h with ⟨r, hr, hrest⟩
  have hcons : n.Spells r q ([a] ++ y) := hrest
  rcases spells_append_iff.1 hcons with ⟨m, hm, hmq⟩
  rcases spells_singleton_iff.1 hm with ⟨s, t, hs, he, ht⟩
  refine ⟨s, t, ?_, he, ht.append hmq⟩
  have hprefix := hr.append hs
  rwa [List.append_nil] at hprefix

/-- The least number of edits of one letter, from the least number of letters on a path and from the
least number of letters beside this one on a path that has it. -/
theorem minimum_aligns_letter {o o' : Option Nat}
    (hplain : Minimum {k | ∃ u, n.Spells p q u ∧ u.length = k} o)
    (hways : Minimum {k | ∃ x y, n.Spells p q (x ++ a :: y) ∧ k = x.length + y.length} o') :
    Minimum {k | n.Aligns p q [a] k}
      (o.map fun plain => o'.elim (max plain 1) fun way => min way (max plain 1)) := by
  have hreplace : ∀ plain, o = some plain → n.Aligns p q [a] (max plain 1) := by
    -- the letter is replaced, or deleted on a path without letters
    rintro plain rfl
    obtain ⟨u, hu, rfl⟩ := hplain.achieved plain rfl
    exact ⟨u, hu, .singleton a u⟩
  have hkeep : ∀ way, o' = some way → n.Aligns p q [a] way := by
    -- the letter is kept, and the letters around it are inserted
    rintro way rfl
    obtain ⟨x, y, hspells, rfl⟩ := hways.achieved way rfl
    exact ⟨_, hspells, .singleton_keep a x y⟩
  constructor
  · intro c hc
    obtain ⟨plain, ho, rfl⟩ := Option.map_eq_some_iff.1 hc
    cases ho' : o' with
    | none => exact hreplace plain ho
    | some way => exact min_rec' _ (hkeep way ho') (hreplace plain ho)
  · rintro k ⟨u, hu, hedits⟩
    obtain ⟨plain, rfl, hle⟩ := hplain.bound u.length ⟨u, hu, rfl⟩
    refine ⟨_, rfl, ?_⟩
    rcases hedits.of_singleton with hk | ⟨x, y, rfl, rfl⟩
    · cases o' with
      | none => exact (max_le_max_right 1 hle).trans hk
      | some way => exact (min_le_right _ _).trans ((max_le_max_right 1 hle).trans hk)
    · obtain ⟨way, rfl, hway⟩ := hways.bound _ ⟨x, y, hu, rfl⟩
      exact (min_le_left _ _).trans hway

end Nfa

namespace PathCosts

variable {σ : Type} {n : Nfa σ} {p q s t : State} {i j k : Nat} {a : σ}

theorem costAt_ofNfa (hp : n.states[i]? = some p) (hq : n.states[j]? = some q) :
    (ofNfa n).costAt i j = (n.costsFrom p).lookup q := by
  unfold costAt ofNfa
  simp only [List.getElem?_toArray, List.getElem?_map, hp, hq, Option.map_some, Option.getD_some]

theorem minimum_costAt (hp : n.states[i]? = some p) (hq : n.states[j]? = some q) :
    Minimum {k | ∃ u, n.Spells p q u ∧ u.length = k} ((ofNfa n).costAt i j) where
  achieved c hc := by
    rw [costAt_ofNfa hp hq, lookup_costsFrom] at hc
    exact hc.exists_spells
  bound k hk := by
    rcases hk with ⟨u, hu, rfl⟩
    rcases Nfa.exists_cheapest hu with ⟨c, hle, hc⟩
    rw [costAt_ofNfa hp hq]
    exact ⟨c, lookup_costsFrom.2 hc, hle⟩

theorem mem_letterEdges : ⟨p, a, q⟩ ∈ letterEdges n ↔ ⟨p, .symbol a, q⟩ ∈ n.edges := by
  unfold letterEdges
  rw [List.mem_filterMap]
  constructor
  · intro h
    rcases h with ⟨⟨p', l, q'⟩, he, h⟩
    cases l with
    | symbol b =>
      cases h
      exact he
    | epsilon => cases h
  · intro he
    exact ⟨_, he, rfl⟩

-- The least number of letters beside a given transition on a path through it.
theorem minimum_costThrough {i' j' : Nat} (hp : n.states[i]? = some p)
    (hq : n.states[j]? = some q) (hs : n.states[i']? = some s) (ht : n.states[j']? = some t) :
    Minimum {k | ∃ x y, n.Spells p s x ∧ n.Spells t q y ∧ k = x.length + y.length}
      ((ofNfa n).costThrough i j (i', j')) := by
  have hsum := (minimum_costAt hp hs).add (minimum_costAt ht hq)
  have heq : (ofNfa n).costThrough i j (i', j') = (do
      let before ← (ofNfa n).costAt i i'
      let after ← (ofNfa n).costAt j' j
      return before + after) := by
    unfold costThrough
    dsimp only
    cases (ofNfa n).costAt i i' <;> cases (ofNfa n).costAt j' j <;> rfl
  rw [heq]
  refine hsum.congr fun k => ?_
  constructor
  · intro h
    rcases h with ⟨_, ⟨x, hx, rfl⟩, _, ⟨y, hy, rfl⟩, hk⟩
    exact ⟨x, y, hx, hy, hk⟩
  · intro h
    rcases h with ⟨x, y, hx, hy, hk⟩
    exact ⟨_, ⟨x, hx, rfl⟩, _, ⟨y, hy, rfl⟩, hk⟩

theorem foldl_min_eq (cs : List Nat) (b : Nat) :
    cs.foldl min b = cs.min?.elim b fun least => min least b := by
  cases cs with
  | nil => rfl
  | cons c cs =>
    show cs.foldl min (min b c) = min (cs.foldl min c) b
    rw [List.foldl_assoc, Nat.min_comm]

variable [DecidableEq σ]

theorem mem_stepsOn : (i, j) ∈ (ofNfa n).stepsOn a ↔
    ∃ s t, ⟨s, .symbol a, t⟩ ∈ n.edges ∧ i = n.states.idxOf s ∧ j = n.states.idxOf t := by
  unfold stepsOn ofNfa
  simp only [List.mem_map, List.mem_filter, decide_eq_true_eq]
  constructor
  · intro h
    rcases h with ⟨_, ⟨⟨⟨s, b, t⟩, he, rfl⟩, hb⟩, heq⟩
    have hb : b = a := hb
    rcases Prod.mk.inj heq with ⟨hi, hj⟩
    exact ⟨s, t, mem_letterEdges.1 (hb ▸ he), hi.symm, hj.symm⟩
  · intro h
    rcases h with ⟨s, t, he, hi, hj⟩
    exact ⟨_, ⟨⟨_, mem_letterEdges.2 he, rfl⟩, rfl⟩, by rw [hi, hj]; rfl⟩

-- The ways through the transitions on a letter that the table knows.
theorem mem_waysThrough (hn : n.Wired) (hp : n.states[i]? = some p)
    (hq : n.states[j]? = some q) {c : Nat}
    (hc : c ∈ ((ofNfa n).stepsOn a).filterMap ((ofNfa n).costThrough i j)) :
    ∃ x y, n.Spells p q (x ++ a :: y) ∧ c = x.length + y.length := by
  rcases List.mem_filterMap.1 hc with ⟨⟨i', j'⟩, hstep, hthrough⟩
  rcases mem_stepsOn.1 hstep with ⟨s, t, he, rfl, rfl⟩
  have hs := List.getElem?_idxOf (hn.source_mem _ _ _ he)
  have ht := List.getElem?_idxOf (hn.target_mem _ _ _ he)
  rcases (minimum_costThrough hp hq hs ht).achieved c hthrough with ⟨x, y, hx, hy, hk⟩
  exact ⟨x, y, Path.append hx (Path.append (Nfa.Spells.of_symbol he) hy), hk⟩

theorem exists_wayThrough (hn : n.Wired) (hp : n.states[i]? = some p)
    (hq : n.states[j]? = some q) {x y : List σ} (h : n.Spells p q (x ++ a :: y)) :
    ∃ c ∈ ((ofNfa n).stepsOn a).filterMap ((ofNfa n).costThrough i j),
      c ≤ x.length + y.length := by
  rcases Nfa.exists_edge_of_spells h with ⟨s, t, hx, he, hy⟩
  have hs := List.getElem?_idxOf (hn.source_mem _ _ _ he)
  have ht := List.getElem?_idxOf (hn.target_mem _ _ _ he)
  rcases (minimum_costThrough hp hq hs ht).bound _ ⟨x, y, hx, hy, rfl⟩ with ⟨c, hc, hle⟩
  exact ⟨c, List.mem_filterMap.2 ⟨_, mem_stepsOn.2 ⟨s, t, he, rfl, rfl⟩, hc⟩, hle⟩

/-- The cost of a letter between two places is the least number of edits that turn it into
what some path between them spells. -/
theorem minimum_stepCostAt (hn : n.Wired) (hp : n.states[i]? = some p)
    (hq : n.states[j]? = some q) (a : σ) :
    Minimum {k | n.Aligns p q [a] k} ((ofNfa n).stepCostAt ((ofNfa n).stepsOn a) i j) := by
  have hways : Minimum {k | ∃ x y, n.Spells p q (x ++ a :: y) ∧ k = x.length + y.length}
      (((ofNfa n).stepsOn a).filterMap ((ofNfa n).costThrough i j)).min? := by
    refine .min? (fun c hc => mem_waysThrough hn hp hq hc) fun k hk => ?_
    obtain ⟨x, y, hspells, rfl⟩ := hk
    exact exists_wayThrough hn hp hq hspells
  unfold stepCostAt
  simp only [foldl_min_eq]
  exact Nfa.minimum_aligns_letter (minimum_costAt hp hq) hways

/-! ## Costs between states -/

omit [DecidableEq σ] in
theorem place?_of_mem (hp : p ∈ n.states) : (ofNfa n).place? p = some (n.states.idxOf p) := by
  show n.states.toArray.idxOf? p = _
  rw [List.idxOf?_toArray, List.idxOf_eq_getD_idxOf?]
  cases hplace : n.states.idxOf? p with
  | none => exact absurd hp (List.idxOf?_eq_none_iff.1 hplace)
  | some i => rfl

omit [DecidableEq σ] in
theorem place?_eq_none_iff : (ofNfa n).place? p = none ↔ p ∉ n.states := by
  show n.states.toArray.idxOf? p = none ↔ _
  rw [List.idxOf?_toArray, List.idxOf?_eq_none_iff]

omit [DecidableEq σ] in
theorem cost_of_mem (hp : p ∈ n.states) (hq : q ∈ n.states) : (ofNfa n).cost p q =
    (ofNfa n).costAt (n.states.idxOf p) (n.states.idxOf q) := by
  unfold cost
  rw [place?_of_mem hp, place?_of_mem hq]
  rfl

omit [DecidableEq σ] in
/-- The cost between two states is the least number of letters on a path. -/
theorem minimum_cost (hp : p ∈ n.states) (hq : q ∈ n.states) :
    Minimum {k | ∃ u, n.Spells p q u ∧ u.length = k} ((ofNfa n).cost p q) := by
  rw [cost_of_mem hp hq]
  exact minimum_costAt (List.getElem?_idxOf hp) (List.getElem?_idxOf hq)

theorem stepCost_of_mem (hp : p ∈ n.states) (hq : q ∈ n.states) (a : σ) :
    (ofNfa n).stepCost p q a =
      (ofNfa n).stepCostAt ((ofNfa n).stepsOn a) (n.states.idxOf p) (n.states.idxOf q) := by
  unfold stepCost
  rw [place?_of_mem hp, place?_of_mem hq]
  rfl

/-- The cost of a letter between two states is the least number of edits that turn it into what
some path between them spells. -/
theorem minimum_stepCost (hn : n.Wired) (hp : p ∈ n.states) (hq : q ∈ n.states) (a : σ) :
    Minimum {k | n.Aligns p q [a] k} ((ofNfa n).stepCost p q a) := by
  rw [stepCost_of_mem hp hq]
  exact minimum_stepCostAt hn (List.getElem?_idxOf hp) (List.getElem?_idxOf hq) a

/-- What a letter costs between two places is what it costs between their states. -/
theorem stepCost_eq_stepCostAt (hn : n.Wired) (hp : n.states[i]? = some p)
    (hq : n.states[j]? = some q) (a : σ) :
    (ofNfa n).stepCost p q a = (ofNfa n).stepCostAt ((ofNfa n).stepsOn a) i j :=
  (minimum_stepCost hn (List.mem_of_getElem? hp) (List.mem_of_getElem? hq) a).unique
    (minimum_stepCostAt hn hp hq a)

omit [DecidableEq σ] in
theorem cost_eq_none (h : ¬(p ∈ n.states ∧ q ∈ n.states)) : (ofNfa n).cost p q = none := by
  unfold cost
  by_cases hp : p ∈ n.states
  · rw [place?_of_mem hp, place?_eq_none_iff.2 fun hq => h ⟨hp, hq⟩]
    rfl
  · rw [place?_eq_none_iff.2 hp]
    rfl

theorem stepCost_eq_none (h : ¬(p ∈ n.states ∧ q ∈ n.states)) (a : σ) :
    (ofNfa n).stepCost p q a = none := by
  unfold stepCost
  by_cases hp : p ∈ n.states
  · rw [place?_of_mem hp, place?_eq_none_iff.2 fun hq => h ⟨hp, hq⟩]
    rfl
  · rw [place?_eq_none_iff.2 hp]
    rfl

theorem mem_of_stepCost (h : (ofNfa n).stepCost p q a = some k) :
    p ∈ n.states ∧ q ∈ n.states := by
  by_contra hmem
  cases (stepCost_eq_none hmem a).symm.trans h

end PathCosts

end Kleene
