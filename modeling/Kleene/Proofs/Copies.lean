import Kleene.Proofs.Terminals

/-!
# Copying state by state

An automaton is copied into another one step by step: each of its states that is not identified with
a state there gets the next identifier, then its transitions follow in the order in which they are
listed, and last its letters.  Whatever that order is, the steps lead to the same automaton as the
places computed at once, or the identifiers run out in both.
-/

namespace Kleene.Nfa

variable {σ : Type}

/-- An automaton that another one is being copied into, and the places of that one's states. -/
structure Copy (σ : Type) where
  automaton : Nfa σ
  places : List (State × State)

namespace Copy

/-- A state without a place gets the next identifier. -/
def addState? (c : Copy σ) (q : State) : Except Misuse (Copy σ) :=
  match c.places.lookup q with
  | some _ => .ok c
  | none => do
    let (p, n) ← c.automaton.addState?
    return ⟨n, (q, p) :: c.places⟩

def place? (c : Copy σ) (q : State) : Except Misuse State :=
  match c.places.lookup q with
  | some p => .ok p
  | none => .error (.unknownState q)

/-- A transition is copied between the places of its ends. -/
def addEdge? [Ord σ] [DecidableEq σ] (c : Copy σ) (e : Edge (Label σ)) :
    Except Misuse (Copy σ) := do
  let p ← c.place? e.source
  let q ← c.place? e.target
  let (_, n) ← c.automaton.addEdge? ⟨p, e.label, q⟩
  return { c with automaton := n }

def addLetter [Ord σ] (c : Copy σ) (x : σ) : Copy σ :=
  { c with automaton := { c.automaton with alphabet := Ascending.insert x c.automaton.alphabet } }

end Copy

variable [Ord σ] {a b n : Nfa σ} {identified places : List (State × State)} {p q : State}

/-- The states of `b` are copied into `a` first, then its transitions as they are listed, then its
letters. -/
def absorb? [DecidableEq σ] (a b : Nfa σ) (identified : List (State × State))
    (listing : List (Edge (Label σ))) : Except Misuse (Copy σ) := do
  let c ← b.states.foldlM Copy.addState? ⟨a, identified⟩
  let c ← listing.foldlM Copy.addEdge? c
  return b.alphabet.foldl Copy.addLetter c

/-! ## States -/

/-- The automaton with some more states. -/
def grown (n : Nfa σ) (count : Nat) : Nfa σ :=
  { n with
    states := Ascending.union n.states ((List.range count).map (n.fresh + ·))
    fresh := n.fresh + count }

omit [Ord σ] in
theorem mem_grown {count : Nat} : q ∈ (n.grown count).states ↔
    q ∈ n.states ∨ n.fresh ≤ q ∧ q < n.fresh + count := by
  unfold grown
  rw [Ascending.mem_union, List.mem_map]
  refine or_congr_right ⟨?_, ?_⟩
  · rintro ⟨i, hi, rfl⟩
    exact ⟨Nat.le_add_right _ _, Nat.add_lt_add_left (List.mem_range.1 hi) _⟩
  · rintro ⟨hle, hlt⟩
    exact ⟨q - n.fresh, List.mem_range.2 (Nat.sub_lt_left_of_lt_add hle hlt),
      Nat.add_sub_cancel' hle⟩

theorem WellFormed.grown_zero (h : n.WellFormed) : n.grown 0 = n := by
  have hstates : Ascending.union n.states [] = n.states :=
    Ascending.eq_of_mem_iff (Ascending.isAscending_union h.states_ascending .nil)
      h.states_ascending fun q => by simp [Ascending.mem_union]
  show { n with states := Ascending.union n.states [] } = n
  rw [hstates]

theorem WellFormed.grown_addState (h : n.WellFormed) (count : Nat) :
    n.addState.grown count = n.grown (count + 1) := by
  have hfresh : n.fresh + 1 + count = n.fresh + (count + 1) := by
    rw [Nat.add_assoc, Nat.add_comm 1]
  have hstates : (n.addState.grown count).states = (n.grown (count + 1)).states := by
    refine Ascending.eq_of_mem_iff
      (Ascending.isAscending_union h.addState.states_ascending
        (Ascending.isAscending_map_add_range _ _))
      (Ascending.isAscending_union h.states_ascending (Ascending.isAscending_map_add_range _ _))
      fun q => ?_
    rw [mem_grown, mem_grown, mem_addState, ← hfresh, or_comm (a := q = n.fresh), or_assoc]
    refine or_congr_right ⟨?_, ?_⟩
    · rintro (rfl | ⟨hle, hlt⟩)
      · exact ⟨Nat.le_refl _, Nat.lt_add_right _ (Nat.lt_succ_self _)⟩
      · exact ⟨Nat.le_of_succ_le hle, hlt⟩
    · rintro ⟨hle, hlt⟩
      exact (Nat.eq_or_lt_of_le hle).imp Eq.symm fun hlt' => ⟨hlt', hlt⟩
  show ({ n with states := (n.addState.grown count).states, fresh := n.fresh + 1 + count } : Nfa σ) =
    { n with states := (n.grown (count + 1)).states, fresh := n.fresh + (count + 1) }
  rw [hstates, hfresh]

/-- More states keep an automaton well formed. -/
theorem WellFormed.grown (h : n.WellFormed) (count : Nat) : (n.grown count).WellFormed := by
  induction count generalizing n with
  | zero =>
    rw [h.grown_zero]
    exact h
  | succ count ih =>
    rw [← h.grown_addState]
    exact ih h.addState

section Steps

omit [Ord σ]

variable {c : Copy σ}

theorem Copy.addState?_of_placed (hplace : c.places.lookup q = some p) : c.addState? q = .ok c := by
  unfold Copy.addState?
  rw [hplace]

theorem Copy.addState?_of_lt (hplace : c.places.lookup q = none)
    (hroom : c.automaton.fresh < stateLimit) :
    c.addState? q = .ok ⟨c.automaton.addState, (q, c.automaton.fresh) :: c.places⟩ := by
  unfold Copy.addState?
  rw [hplace, addState?_eq_ok_iff.2 ⟨hroom, rfl, rfl⟩]
  rfl

theorem Copy.addState?_of_not_lt (hplace : c.places.lookup q = none)
    (hroom : ¬c.automaton.fresh < stateLimit) : c.addState? q = .error .statesExhausted := by
  unfold Copy.addState?
  rw [hplace, addState?_eq_error hroom]
  rfl

end Steps

theorem lookup_cons_of_ne {r : State} (hr : r ≠ q) :
    ((q, p) :: places).lookup r = places.lookup r := by
  rw [List.lookup_cons, beq_false_of_ne hr]

/-- When `q` has got the next place, the places of the others are what they would be anyway. -/
theorem placement_cons {fresh : State} {rest : List State} {r : State} (hr : r ≠ q) :
    placement (fresh + 1) ((q, fresh) :: places) rest r =
      placement fresh places (q :: rest) r := by
  rw [placement, placement, lookup_cons_of_ne hr, List.idxOf_cons_ne _ hr.symm]
  cases places.lookup r with
  | some p => rfl
  | none =>
    show fresh + 1 + rest.idxOf r = fresh + (rest.idxOf r + 1)
    rw [Nat.add_assoc, Nat.add_comm 1]

/-- The states get the places that can be computed at once, if there are identifiers for all that
need one. -/
theorem WellFormed.foldlM_addState? (h : n.WellFormed) (hfit : n.fresh ≤ stateLimit)
    {states new : List State} (hnodup : states.Nodup)
    (hnew : states.filter (fun q => (places.lookup q).isNone) = new) :
    Supplies (states.foldlM Copy.addState? ⟨n, places⟩) (n.fresh + new.length) fun c =>
      c.automaton = n.grown new.length ∧
        (∀ q p, places.lookup q = some p → c.places.lookup q = some p) ∧
        ∀ q ∈ states, c.places.lookup q = some (placement n.fresh places new q) := by
  induction states generalizing n places new with
  | nil =>
    subst hnew
    exact ⟨fun _ => ⟨_, rfl, h.grown_zero.symm, fun q p hq => hq, List.forall_mem_nil _⟩,
      fun hlt => absurd hfit (Nat.not_le.2 hlt)⟩
  | cons q states ih =>
    obtain ⟨hq, hnodup⟩ := List.nodup_cons.1 hnodup
    cases hplace : places.lookup q with
    | some p =>
      rw [List.filter_cons_of_neg (by simp [hplace])] at hnew
      rw [foldlM_cons_of_ok (Copy.addState?_of_placed hplace)]
      refine (ih h hfit hnodup hnew).imp_left fun hok hlast => ?_
      obtain ⟨c, hc, hautomaton, hkept, hplaces⟩ := hok hlast
      refine ⟨c, hc, hautomaton, hkept, List.forall_mem_cons.2 ⟨?_, hplaces⟩⟩
      rw [hkept q p hplace, placement, hplace]
    | none =>
      have hne : ∀ r ∈ states, r ≠ q := fun r hr heq => hq (heq ▸ hr)
      -- the states behind `q` need the same places whether `q` has one or not
      obtain ⟨rest, hrest, rfl⟩ : ∃ rest,
          states.filter (fun r => (((q, n.fresh) :: places).lookup r).isNone) = rest ∧
            new = q :: rest := by
        refine ⟨_, rfl, ?_⟩
        rw [← hnew, List.filter_cons_of_pos (by simp [hplace])]
        exact congrArg _ (List.filter_congr fun r hr => by rw [lookup_cons_of_ne (hne r hr)])
      have hlength : n.fresh + 1 + rest.length = n.fresh + (q :: rest).length := by
        rw [List.length_cons, Nat.add_assoc, Nat.add_comm 1]
      rw [← hlength]
      by_cases hroom : n.fresh < stateLimit
      · rw [foldlM_cons_of_ok (Copy.addState?_of_lt hplace hroom)]
        refine (ih h.addState hroom hnodup hrest).imp_left fun hok hlast => ?_
        obtain ⟨c, hc, hautomaton, hkept, hplaces⟩ := hok hlast
        refine ⟨c, hc, ?_, fun r p hr => ?_, List.forall_mem_cons.2 ⟨?_, fun r hr => ?_⟩⟩
        · rw [hautomaton, h.grown_addState, List.length_cons]
        · have hrq : r ≠ q := by
            rintro rfl
            rw [hplace] at hr
            cases hr
          exact hkept r p ((lookup_cons_of_ne hrq).trans hr)
        · rw [hkept q n.fresh List.lookup_cons_self, placement, hplace, List.idxOf_cons_self]
          rfl
        · rw [hplaces r hr, ← placement_cons (hne r hr)]
          rfl
      · refine ⟨fun hlast => absurd (Nat.le_trans (Nat.le_add_right _ _) hlast) hroom, fun _ => ?_⟩
        rw [List.foldlM_cons, Copy.addState?_of_not_lt hplace hroom]
        rfl

variable [Std.LawfulEqOrd σ] [Std.TransOrd σ]

/-! ## Transitions and letters -/

theorem WellFormed.foldlM_copyEdge?_eq_ok [DecidableEq σ] (h : n.WellFormed)
    {place : State → State} {es : List (Edge (Label σ))}
    (hplaces : ∀ e ∈ es, places.lookup e.source = some (place e.source) ∧
      places.lookup e.target = some (place e.target))
    (hmem : ∀ e ∈ es, place e.source ∈ n.states ∧ place e.target ∈ n.states) :
    es.foldlM Copy.addEdge? ⟨n, places⟩ =
      .ok ⟨n.addEdges (es.map (Edge.mapStates place)), places⟩ := by
  induction es generalizing n with
  | nil => rfl
  | cons e es ih =>
    obtain ⟨⟨hsource, htarget⟩, hplaces⟩ := List.forall_mem_cons.1 hplaces
    obtain ⟨hends, hmem⟩ := List.forall_mem_cons.1 hmem
    have hadd : n.addEdge? (e.mapStates place) =
        .ok (!n.hasEdge (e.mapStates place), n.addEdges [e.mapStates place]) :=
      addEdge?_eq_ok_iff.2 ⟨hends.1, hends.2, rfl, rfl⟩
    have hstep : Copy.addEdge? ⟨n, places⟩ e = .ok ⟨n.addEdges [e.mapStates place], places⟩ := by
      unfold Copy.addEdge? Copy.place?
      rw [hsource, htarget]
      show (do let (_, m) ← n.addEdge? (e.mapStates place); return (⟨m, places⟩ : Copy σ)) = _
      rw [hadd]
      rfl
    rw [foldlM_cons_of_ok hstep, ih (h.evolves_addEdge? hadd).wellFormed hplaces hmem,
      h.addEdges_append]
    rfl

/-- Letters that join one after the other join all at once. -/
theorem foldl_addLetter (h : Ascending.IsAscending n.alphabet) (letters : List σ) :
    letters.foldl Copy.addLetter ⟨n, places⟩ =
      ⟨{ n with alphabet := Ascending.insertAll letters n.alphabet }, places⟩ := by
  induction letters generalizing n with
  | nil => rfl
  | cons x letters ih =>
    have hascending : Ascending.IsAscending (Ascending.insert x n.alphabet) :=
      Ascending.isAscending_insert h
    show letters.foldl Copy.addLetter
      ⟨{ n with alphabet := Ascending.insert x n.alphabet }, places⟩ = _
    rw [ih hascending]
    show (⟨{ n with alphabet :=
      Ascending.insertAll letters (Ascending.insertAll [x] n.alphabet) }, places⟩ : Copy σ) = _
    rw [Ascending.insertAll_append h]
    rfl

/-! ## The whole copy -/

/-- States, transitions and letters that are added one after the other make the copy. -/
theorem WellFormed.copied_eq_absorb (ha : a.WellFormed) (hb : b.WellFormed)
    {copies : List (Edge (Label σ))}
    (hcopies : ∀ e, e ∈ copies ↔ e ∈ b.edges.map (Edge.mapStates (place a b identified))) :
    ({ (a.grown (b.newcomers identified).length).addEdges copies with
      alphabet := Ascending.insertAll b.alphabet
        (Ascending.insertAll (letters copies) a.alphabet) } : Nfa σ) =
      Nfa.absorb a b identified := by
  have halphabet : Ascending.insertAll b.alphabet (Ascending.insertAll (letters copies) a.alphabet) =
      Ascending.union a.alphabet b.alphabet := by
    refine Ascending.eq_of_mem_iff
      (Ascending.isAscending_insertAll (Ascending.isAscending_insertAll ha.alphabet_ascending))
      (Ascending.isAscending_union ha.alphabet_ascending hb.alphabet_ascending) fun x => ?_
    rw [Ascending.mem_insertAll, Ascending.mem_insertAll, Ascending.mem_union]
    -- a letter on a transition of `b` is in the alphabet of `b` anyway
    have hletter : x ∈ letters copies → x ∈ b.alphabet := by
      rw [mem_letters]
      rintro ⟨p, q, he⟩
      obtain ⟨⟨s, l, t⟩, hedge, heq⟩ := List.mem_map.1 ((hcopies _).1 he)
      obtain ⟨-, rfl, -⟩ := Edge.mk.inj heq
      exact hb.letter_mem _ _ _ hedge
    constructor
    · rintro (hx | hx | hx)
      · exact .inr hx
      · exact .inr (hletter hx)
      · exact .inl hx
    · rintro (hx | hx)
      · exact .inr (.inr hx)
      · exact .inl hx
  have hedges : Ascending.insertAll copies a.edges = Ascending.union a.edges
      (Ascending.ofList (b.edges.map (Edge.mapStates (place a b identified)))) := by
    refine Ascending.eq_of_mem_iff (Ascending.isAscending_insertAll ha.edges_ascending)
      (Ascending.isAscending_union ha.edges_ascending (Ascending.isAscending_ofList _)) fun e => ?_
    rw [Ascending.mem_insertAll, Ascending.mem_union, Ascending.mem_ofList, hcopies, or_comm]
  show ({ Nfa.absorb a b identified with
    alphabet := _
    edges := Ascending.insertAll copies a.edges } : Nfa σ) = _
  rw [halphabet, hedges]
  rfl

/-- Step by step the same automaton is made, with each state of `b` in its place, or the
identifiers are exhausted. -/
theorem WellFormed.absorb?_supplies [DecidableEq σ] (ha : a.WellFormed)
    (hfit : a.fresh ≤ stateLimit) (hb : b.WellFormed) (hs : Seam a identified)
    {listing : List (Edge (Label σ))} (hlisting : ∀ e, e ∈ listing ↔ e ∈ b.edges) :
    Supplies (absorb? a b identified listing) (Nfa.absorb a b identified).fresh fun c =>
      c.automaton = Nfa.absorb a b identified ∧
        ∀ q ∈ b.states, c.places.lookup q = some (place a b identified q) := by
  have hstates := ha.foldlM_addState? hfit hb.states_ascending.nodup
    (show b.states.filter (fun q => (identified.lookup q).isNone) = b.newcomers identified from rfl)
  refine ⟨fun hlast => ?_, fun hlast => ?_⟩
  · obtain ⟨⟨n, places⟩, hc, hn, -, hplaces⟩ := hstates.1 hlast
    obtain rfl : n = a.grown (b.newcomers identified).length := hn
    have hends : ∀ e ∈ listing, e.source ∈ b.states ∧ e.target ∈ b.states := fun e he =>
      ⟨hb.source_mem _ _ _ ((hlisting e).1 he), hb.target_mem _ _ _ ((hlisting e).1 he)⟩
    have hedges : listing.foldlM Copy.addEdge? ⟨a.grown (b.newcomers identified).length, places⟩ =
        .ok ⟨(a.grown (b.newcomers identified).length).addEdges
          (listing.map (Edge.mapStates (place a b identified))), places⟩ :=
      (ha.grown _).foldlM_copyEdge?_eq_ok
        (fun e he => ⟨hplaces _ (hends e he).1, hplaces _ (hends e he).2⟩)
        fun e he => ⟨place_mem_absorb hs (hends e he).1, place_mem_absorb hs (hends e he).2⟩
    have hascending : Ascending.IsAscending ((a.grown (b.newcomers identified).length).addEdges
        (listing.map (Edge.mapStates (place a b identified)))).alphabet :=
      Ascending.isAscending_insertAll ha.alphabet_ascending
    have hcopies : ∀ e, e ∈ listing.map (Edge.mapStates (place a b identified)) ↔
        e ∈ b.edges.map (Edge.mapStates (place a b identified)) := fun e => by
      simp only [List.mem_map, hlisting]
    have hcopied := ha.copied_eq_absorb hb hcopies
    refine ⟨⟨Nfa.absorb a b identified, places⟩, ?_, rfl, hplaces⟩
    unfold absorb?
    rw [hc]
    show (do
      let c ← listing.foldlM Copy.addEdge? ⟨a.grown _, places⟩
      return b.alphabet.foldl Copy.addLetter c) = _
    rw [hedges, ← hcopied]
    exact congrArg Except.ok (foldl_addLetter hascending b.alphabet)
  · unfold absorb?
    rw [hstates.2 hlast]
    rfl

/-! ## Fused automata -/

section Fusing

variable [DecidableEq σ]

/-- Automata in a row, step by step; `listing` is the order in which transitions are found. -/
def chain? (listing : List (Edge (Label σ))) (a b : Nfa σ) : Except Misuse (Nfa σ) := do
  let c ← absorb? a b [(b.start, a.final)] listing
  let final ← c.place? b.final
  return { c.automaton with final := final }

/-- Automata side by side, step by step. -/
def join? (listing : List (Edge (Label σ))) (a b : Nfa σ) : Except Misuse (Nfa σ) := do
  let c ← absorb? a b [(b.start, a.start), (b.final, a.final)] listing
  return c.automaton

variable {listing : List (Edge (Label σ))}

theorem WellFormed.chain?_eq_fit (ha : a.WellFormed) (hfit : a.fresh ≤ stateLimit)
    (hb : b.WellFormed) (hlisting : ∀ e, e ∈ listing ↔ e ∈ b.edges) :
    chain? listing a b = (chain a b).fit := by
  have hseam : Seam a [(b.start, a.final)] := ha.seam_chain
  have hsteps := ha.absorb?_supplies hfit hb hseam hlisting
  unfold chain? fit
  by_cases hlast : (chain a b).fresh ≤ stateLimit
  · obtain ⟨c, hc, hautomaton, hplaces⟩ := hsteps.1 hlast
    have hfinal : c.place? b.final = .ok (place a b [(b.start, a.final)] b.final) := by
      unfold Copy.place?
      rw [hplaces _ hb.final_mem]
    rw [hc, if_pos hlast]
    show (do let final ← c.place? b.final; return { c.automaton with final := final }) = _
    rw [hfinal, hautomaton]
    rfl
  · rw [hsteps.2 (Nat.not_le.1 hlast), if_neg hlast]
    rfl

theorem WellFormed.join?_eq_fit (ha : a.WellFormed) (hfit : a.fresh ≤ stateLimit)
    (hb : b.WellFormed) (hai : a.Isolated) (hbi : b.Isolated)
    (hlisting : ∀ e, e ∈ listing ↔ e ∈ b.edges) : join? listing a b = (join a b).fit := by
  have hsteps := ha.absorb?_supplies hfit hb (ha.seam_join hai hbi) hlisting
  unfold join? fit
  by_cases hlast : (join a b).fresh ≤ stateLimit
  · obtain ⟨c, hc, hautomaton, -⟩ := hsteps.1 hlast
    rw [hc, if_pos hlast]
    exact congrArg Except.ok hautomaton
  · rw [hsteps.2 (Nat.not_le.1 hlast), if_neg hlast]
    rfl

end Fusing

end Kleene.Nfa
