import Kleene.Correction.Alignment
import Kleene.Proofs.PathCosts
import Kleene.Proofs.RegularOperations

/-!
# The distance of a word to an automaton

After each letter a cell holds the least number of edits that turn the word so far into what some
path from the start state to the state of the cell spells.  The cell of the final state after the
whole word is the least edit distance to an accepted word, and since every cell in use knows the
cell it was entered from, an alignment is found by going back.
-/

namespace Kleene

variable {σ : Type} [DecidableEq σ] {n : Nfa σ} {q : State} {w : List σ} {i j k c : Nat} {a : σ}

/-! ## The cheapest way -/

/-- A cell takes one of the ways of least cost, if there is any. -/
structure AlignmentCell.Best (ways : Nat → Option Nat) (is : List Nat) (cell : AlignmentCell) :
    Prop where
  chosen : ∀ c, cell.cost = some c → ∃ i ∈ is, cell.previous = some i ∧ ways i = some c
  least : ∀ i ∈ is, ∀ c, ways i = some c → ∃ c', cell.cost = some c' ∧ c' ≤ c

namespace AlignmentCell

variable {ways : Nat → Option Nat} {is : List Nat} {cell : AlignmentCell}

omit [DecidableEq σ] in
theorem best_unreachable (ways : Nat → Option Nat) : Best ways [] unreachable :=
  ⟨fun c hc => (by cases hc), fun i hi => (by cases hi)⟩

omit [DecidableEq σ] in
/-- A way that is not cheaper changes nothing. -/
theorem Best.keep (h : Best ways is cell)
    (hi : ∀ c, ways i = some c → ∃ c', cell.cost = some c' ∧ c' ≤ c) :
    Best ways (is ++ [i]) cell where
  chosen c hc := by
    rcases h.chosen c hc with ⟨j, hj, hprevious, hway⟩
    exact ⟨j, List.mem_append_left _ hj, hprevious, hway⟩
  least j hj c hc := by
    cases List.mem_append.1 hj with
    | inl hj => exact h.least j hj c hc
    | inr hj =>
      rw [List.mem_singleton.1 hj] at hc
      exact hi c hc

omit [DecidableEq σ] in
/-- A cheaper way is taken. -/
theorem Best.take {d : Nat} (h : Best ways is cell) (hi : ways i = some d)
    (hd : ∀ c, cell.cost = some c → d ≤ c) : Best ways (is ++ [i]) ⟨some d, some i⟩ where
  chosen c hc := ⟨i, List.mem_append_right _ List.mem_cons_self, rfl, hi.trans hc⟩
  least j hj c hc := by
    refine ⟨d, rfl, ?_⟩
    cases List.mem_append.1 hj with
    | inl hj =>
      rcases h.least j hj c hc with ⟨c', hc', hle⟩
      exact (hd c' hc').trans hle
    | inr hj =>
      rw [List.mem_singleton.1 hj, hi] at hc
      exact Nat.le_of_eq (Option.some.inj hc)

omit [DecidableEq σ] in
theorem Best.consider (h : Best ways is cell) (i : Nat) :
    Best ways (is ++ [i]) (cell.consider (i, ways i)) := by
  unfold AlignmentCell.consider
  cases hi : ways i with
  | none =>
    refine h.keep fun c hc => ?_
    rw [hi] at hc
    cases hc
  | some d =>
    cases hbest : cell.cost with
    | none =>
      refine h.take hi fun c hc => ?_
      rw [hbest] at hc
      cases hc
    | some least =>
      show Best ways (is ++ [i]) (if d < least then ⟨some d, some i⟩ else cell)
      by_cases hlt : d < least
      · rw [if_pos hlt]
        refine h.take hi fun c hc => ?_
        rw [hbest] at hc
        have := Option.some.inj hc
        omega
      · rw [if_neg hlt]
        refine h.keep fun c hc => ⟨least, hbest, ?_⟩
        rw [hi] at hc
        have := Option.some.inj hc
        omega

omit [DecidableEq σ] in
theorem best_foldl (ways : Nat → Option Nat) (is : List Nat) :
    Best ways is (is.foldl (fun best i => best.consider (i, ways i)) unreachable) := by
  induction is using List.reverseRecOn with
  | nil => exact best_unreachable ways
  | append_singleton is i ih =>
    rw [List.foldl_append, List.foldl_cons, List.foldl_nil]
    exact ih.consider i

end AlignmentCell

/-! ## Columns -/

namespace AlignmentTable

variable {t : PathCosts σ} {column : Array AlignmentCell}

/-- The cost of a way to a place through place `i` before the last letter. -/
def way (t : PathCosts σ) (column : Array AlignmentCell) (a : σ) (j i : Nat) : Option Nat := do
  let before ← (column[i]?.getD .unreachable).cost
  let step ← t.stepCostAt (t.stepsOn a) i j
  return before + step

theorem cell_nextColumn (t : PathCosts σ) (column : Array AlignmentCell) (a : σ)
    (hj : j < t.states.size) :
    (nextColumn t column a)[j]?.getD .unreachable = (List.range t.states.size).foldl
      (fun best i => best.consider (i, way t column a j i)) .unreachable := by
  unfold nextColumn
  simp only [Array.getElem?_map, Array.getElem?_range, hj, if_true, Option.map_some,
    Option.getD_some]
  rfl

theorem best_nextColumn (t : PathCosts σ) (column : Array AlignmentCell) (a : σ)
    (hj : j < t.states.size) :
    AlignmentCell.Best (way t column a j) (List.range t.states.size)
      ((nextColumn t column a)[j]?.getD .unreachable) := by
  rw [cell_nextColumn t column a hj]
  exact AlignmentCell.best_foldl (way t column a j) _

/-- The cells hold the least numbers of edits from the word to what paths from the start state
spell. -/
def Measures (n : Nfa σ) (w : List σ) (column : Array AlignmentCell) : Prop :=
  ∀ (j : Nat) (q : State), n.states[j]? = some q →
    Minimum {k | n.Aligns n.start q w k} (column[j]?.getD .unreachable).cost

omit [DecidableEq σ] in
theorem lt_size_iff : j < (PathCosts.ofNfa n).states.size ↔ j < n.states.length := Iff.rfl

omit [DecidableEq σ] in
theorem getElem?_firstColumn (t : PathCosts σ) (start : Nat) (hj : j < t.states.size) :
    (firstColumn t start)[j]? = some ⟨t.costAt start j, none⟩ := by
  unfold firstColumn
  simp only [Array.getElem?_map, Array.getElem?_range, hj, if_true, Option.map_some]

omit [DecidableEq σ] in
theorem measures_firstColumn (hn : n.Wired) :
    Measures n [] (firstColumn (PathCosts.ofNfa n) (n.states.idxOf n.start)) := by
  intro j q hq
  have hstart := List.getElem?_idxOf hn.start_mem
  have hj : j < (PathCosts.ofNfa n).states.size :=
    lt_size_iff.2 (List.getElem?_eq_some_iff.1 hq).1
  have hcost : ((firstColumn (PathCosts.ofNfa n) (n.states.idxOf n.start))[j]?.getD
      .unreachable).cost = (PathCosts.ofNfa n).costAt (n.states.idxOf n.start) j := by
    rw [getElem?_firstColumn _ _ hj]
    rfl
  rw [hcost]
  exact (PathCosts.minimum_costAt hstart hq).congr fun k => Nfa.aligns_nil_iff.symm

-- The least number of edits on a way through one place.
theorem Measures.minimum_way (hn : n.Wired) (h : Measures n w column) (a : σ) {p : State}
    (hp : n.states[i]? = some p) (hq : n.states[j]? = some q) :
    Minimum {k | ∃ x ∈ {k | n.Aligns n.start p w k}, ∃ y ∈ {k | n.Aligns p q [a] k}, k = x + y}
      (way (PathCosts.ofNfa n) column a j i) :=
  (h i p hp).add (PathCosts.minimum_stepCostAt hn hp hq a)

theorem Measures.next (hn : n.Wired) (h : Measures n w column) (a : σ) :
    Measures n (w ++ [a]) (nextColumn (PathCosts.ofNfa n) column a) := by
  intro j q hq
  have hj := (List.getElem?_eq_some_iff.1 hq).1
  have hbest := best_nextColumn (PathCosts.ofNfa n) column a (lt_size_iff.2 hj)
  constructor
  · intro c hc
    rcases hbest.chosen c hc with ⟨i, hi, -, hway⟩
    have hi : i < n.states.length := lt_size_iff.1 (List.mem_range.1 hi)
    have hp : n.states[i]? = some n.states[i] := List.getElem?_eq_getElem hi
    rcases (h.minimum_way hn a hp hq).achieved c hway with ⟨x, hx, y, hy, rfl⟩
    exact Nfa.Aligns.append hx hy
  · intro k hk
    -- the state between the word and its last letter has a place
    rcases hk.split with ⟨p, x, y, hx, hy, rfl⟩
    have hmem : p ∈ n.states := by
      rcases hx with ⟨u, hu, -⟩
      exact hn.mem_of_spells hn.start_mem hu
    have hp := List.getElem?_idxOf hmem
    have hi : n.states.idxOf p < n.states.length := List.idxOf_lt_length_of_mem hmem
    rcases (h.minimum_way hn a hp hq).bound _ ⟨x, hx, y, hy, rfl⟩ with ⟨c, hc, hle⟩
    rcases hbest.least _ (List.mem_range.2 (lt_size_iff.2 hi)) c hc with ⟨c', hc', hle'⟩
    exact ⟨c', hc', hle'.trans hle⟩

theorem measures_foldl (hn : n.Wired) (w : List σ) :
    Measures n w (w.foldl (nextColumn (PathCosts.ofNfa n))
      (firstColumn (PathCosts.ofNfa n) (n.states.idxOf n.start))) := by
  induction w using List.reverseRecOn with
  | nil => exact measures_firstColumn hn
  | append_singleton w a ih =>
    rw [List.foldl_append, List.foldl_cons, List.foldl_nil]
    exact ih.next hn a

/-! ## The whole table -/

theorem columnsFrom_concat (t : PathCosts σ) (column : Array AlignmentCell) (w : List σ) (a : σ) :
    columnsFrom t column (w ++ [a]) =
      columnsFrom t column w ++ [(a, nextColumn t (w.foldl (nextColumn t) column) a)] := by
  induction w generalizing column with
  | nil => rfl
  | cons b w ih =>
    show (b, nextColumn t column b) :: columnsFrom t (nextColumn t column b) (w ++ [a]) = _
    rw [ih]
    rfl

theorem getLast?_columnsFrom (t : PathCosts σ) (column : Array AlignmentCell) (w : List σ) :
    ((columnsFrom t column w).getLast?.map Prod.snd).getD column =
      w.foldl (nextColumn t) column := by
  cases w using List.reverseRecOn with
  | nil => rfl
  | append_singleton w a =>
    rw [columnsFrom_concat, List.getLast?_concat, List.foldl_append]
    rfl

theorem lastColumn_ofWord (n : Nfa σ) (w : List σ) : (ofWord n w).lastColumn =
    w.foldl (nextColumn (PathCosts.ofNfa n))
      (firstColumn (PathCosts.ofNfa n) (n.states.idxOf n.start)) :=
  getLast?_columnsFrom _ _ w

-- The distance is the least number of edits that turn the word into an accepted one.
theorem minimum_distance (hn : n.Wired) (w : List σ) :
    Minimum {k | n.Aligns n.start n.final w k} (ofWord n w).distance := by
  unfold distance
  rw [lastColumn_ofWord]
  exact measures_foldl hn w _ _ (List.getElem?_idxOf hn.final_mem)

theorem backtrack_cons {earlier : List (σ × Array AlignmentCell)} {cost : Nat}
    {result : Nat × List (AlignmentStep σ)}
    (hprevious : (column[j]?.getD .unreachable).previous = some i)
    (hstep : t.stepCostAt (t.stepsOn a) i j = some cost)
    (hrest : backtrack t earlier i = some result) :
    backtrack t ((a, column) :: earlier) j =
      some (result.1, result.2 ++ [⟨t.stateAt i, t.stateAt j, a, cost⟩]) := by
  unfold backtrack
  rw [hprevious, Option.bind_eq_bind, Option.bind_some, hstep, Option.bind_eq_bind,
    Option.bind_some, hrest]
  rfl

-- From a cell that can be reached the way back to the first column is found.
theorem exists_backtrack (t : PathCosts σ) (first : Array AlignmentCell) (w : List σ)
    (hj : j < t.states.size)
    (hc : ((w.foldl (nextColumn t) first)[j]?.getD .unreachable).cost = some c) :
    ∃ result, backtrack t (columnsFrom t first w).reverse j = some result := by
  induction w using List.reverseRecOn generalizing j c with
  | nil => exact ⟨_, rfl⟩
  | append_singleton w a ih =>
    rw [List.foldl_append, List.foldl_cons, List.foldl_nil] at hc
    rw [columnsFrom_concat, List.reverse_append, List.reverse_singleton, List.singleton_append]
    have hbest := best_nextColumn t (w.foldl (nextColumn t) first) a hj
    rcases hbest.chosen c hc with ⟨i, hi, hprevious, hway⟩
    -- the way was taken from a cell that can be reached, and its letter has a cost
    rcases Option.bind_eq_some_iff.1 hway with ⟨before, hbefore, hway⟩
    rcases Option.bind_eq_some_iff.1 hway with ⟨step, hstep, -⟩
    rcases ih (List.mem_range.1 hi) hbefore with ⟨result, hresult⟩
    exact ⟨_, backtrack_cons hprevious hstep hresult⟩

-- An alignment is found whenever there is a distance, which is its own.
theorem distance_alignment (hn : n.Wired) (w : List σ) :
    (ofWord n w).alignment.map Alignment.distance = (ofWord n w).distance := by
  unfold alignment
  cases hdistance : (ofWord n w).distance with
  | none => rfl
  | some c =>
    have hcell := hdistance
    unfold distance at hcell
    rw [lastColumn_ofWord] at hcell
    have hfinal : n.states.idxOf n.final < n.states.length :=
      List.idxOf_lt_length_of_mem hn.final_mem
    rcases exists_backtrack (PathCosts.ofNfa n) _ w (lt_size_iff.2 hfinal) hcell
      with ⟨result, hresult⟩
    have hcolumns : backtrack (ofWord n w).costs (ofWord n w).columns.reverse (ofWord n w).final =
        some result := hresult
    rw [hcolumns]
    rfl

end AlignmentTable

/-! ## Accepted words -/

namespace Nfa

theorem minimum_align (hn : n.Wired) (w : List σ) :
    Minimum {k | n.Aligns n.start n.final w k} ((n.align w).map Alignment.distance) := by
  unfold align
  rw [AlignmentTable.distance_alignment hn]
  exact AlignmentTable.minimum_distance hn w

theorem aligns_levenshtein {u : List σ} (hu : n.accepts u = true) :
    n.Aligns n.start n.final w (levenshtein w u) :=
  ⟨u, mem_language.1 hu, (Edits.isLeast_levenshtein w u).1⟩

theorem aligns_zero_iff : n.Aligns n.start n.final w 0 ↔ n.accepts w = true := by
  constructor
  · intro h
    rcases h with ⟨u, hu, hedits⟩
    rw [hedits.eq_of_zero]
    exact mem_language.2 hu
  · exact fun hw => ⟨w, mem_language.1 hw, Edits.self w⟩

/-- The least number of edits is zero exactly if the word is accepted. -/
theorem eq_zero_iff_accepts (h : IsLeast {k | n.Aligns n.start n.final w k} c) :
    c = 0 ↔ n.accepts w = true := by
  rw [← aligns_zero_iff]
  exact ⟨fun hc => hc ▸ h.1, fun hw => Nat.le_zero.1 (h.2 hw)⟩

omit [DecidableEq σ] in
/-- What a word can be turned into depends on the accepted words only. -/
theorem aligns_congr {n' : Nfa σ} (h : n.language = n'.language) :
    n.Aligns n.start n.final w k ↔ n'.Aligns n'.start n'.final w k := by
  show (∃ u, u ∈ n.language ∧ Edits w u k) ↔ ∃ u, u ∈ n'.language ∧ Edits w u k
  rw [h]

/-- The least number of edits is the least edit distance to what some path spells. -/
theorem isLeast_levenshtein_spells {p : State} (h : IsLeast {k | n.Aligns p q w k} c) :
    IsLeast {k | ∃ u, n.Spells p q u ∧ levenshtein w u = k} c := by
  constructor
  · obtain ⟨u, hu, hedits⟩ := h.1
    have hle := (Edits.isLeast_levenshtein w u).2 hedits
    have hge := h.2 ⟨u, hu, (Edits.isLeast_levenshtein w u).1⟩
    exact ⟨u, hu, Nat.le_antisymm hle hge⟩
  · rintro k ⟨u, hu, rfl⟩
    exact h.2 ⟨u, hu, (Edits.isLeast_levenshtein w u).1⟩

theorem isLeast_levenshtein_of_aligns
    (h : IsLeast {k | n.Aligns n.start n.final w k} c) :
    IsLeast {k | ∃ u, n.accepts u = true ∧ levenshtein w u = k} c := by
  simp only [mem_language]
  exact isLeast_levenshtein_spells h

/-- A word has no alignment exactly if no word is accepted; otherwise the distance of its
alignment is the least edit distance to an accepted word, and it is zero exactly if the word
itself is accepted. -/
theorem align_spec [Ord σ] (h : n.WellFormed) (w : List σ) :
    (n.align w = none ↔ ∀ u, n.accepts u = false) ∧
    (∀ al, n.align w = some al →
      IsLeast {k | ∃ u, n.accepts u = true ∧ levenshtein w u = k} al.distance) ∧
    ((∃ al, n.align w = some al ∧ al.distance = 0) ↔ n.accepts w = true) := by
  have hmin := minimum_align h.toWired w
  refine ⟨?_, fun al hal => ?_, ?_, fun hw => ?_⟩
  · rw [← Option.map_eq_none_iff (f := Alignment.distance), hmin.eq_none_iff]
    constructor
    · intro hnone u
      rw [← Bool.not_eq_true]
      exact fun hu => hnone _ (aligns_levenshtein hu)
    · -- an alignment would end in an accepted word
      intro hnone k hk
      rcases hk with ⟨u, hu, -⟩
      have haccepts : n.accepts u = true := mem_language.2 hu
      rw [hnone u] at haccepts
      cases haccepts
  · rw [hal] at hmin
    exact isLeast_levenshtein_of_aligns hmin.isLeast
  · intro hzero
    rcases hzero with ⟨al, hal, hdistance⟩
    rw [hal, Option.map_some, hdistance] at hmin
    exact aligns_zero_iff.1 hmin.isLeast.1
  · rcases hmin.bound 0 (aligns_zero_iff.2 hw) with ⟨c, hc, hle⟩
    rcases Option.map_eq_some_iff.1 hc with ⟨al, hal, hdistance⟩
    exact ⟨al, hal, by omega⟩

/-- The word of two other letters has distance two to the automaton of one letter. -/
theorem align_spec_literal : (literal 'a').WellFormed ∧
    ((literal 'a').align ['b', 'c'] = none ↔ ∀ u, (literal 'a').accepts u = false) ∧
    (∀ al, (literal 'a').align ['b', 'c'] = some al →
      IsLeast {k | ∃ u, (literal 'a').accepts u = true ∧ levenshtein ['b', 'c'] u = k}
        al.distance) ∧
    ((∃ al, (literal 'a').align ['b', 'c'] = some al ∧ al.distance = 0) ↔
      (literal 'a').accepts ['b', 'c'] = true) :=
  ⟨wellFormed_literal 'a', align_spec (wellFormed_literal 'a') ['b', 'c']⟩

end Nfa

end Kleene
