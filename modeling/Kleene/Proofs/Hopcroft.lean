import Kleene.Dfa.Hopcroft
import Kleene.Proofs.Changes
import Kleene.Proofs.Distinguishing

/-!
# Invariants of Hopcroft's loop

The table holds the transitions between live states, so that the loop splits as the refinement does
by the sources of a letter.  What the refinement keeps, the loop keeps at every point: its cells are
a partition of the live states which acceptance respects, the marked cells are those on the stack,
and states with the same right language stay together.  When the stack is empty, as many cells have
been taken off it as there are cells, and the letters respect the partition.
-/

namespace Kleene

/-! ## The table -/

/-- In a list without repetitions a place is found from what stands there. -/
theorem idxOf?_eq_some_iff_getElem? {α : Type} [DecidableEq α] {xs : List α} {a : α} {k : Nat}
    (h : xs.Nodup) : xs.idxOf? a = some k ↔ xs[k]? = some a := by
  rw [List.idxOf?_eq_some_iff, List.getElem?_eq_some_iff]
  apply exists_congr
  intro hk
  apply and_iff_left_of_imp
  intro heq j hj hsame
  exact Nat.ne_of_lt hj ((List.Nodup.getElem_inj_iff h).1 (hsame.trans heq.symm))

namespace Dfa

variable {σ : Type} {d : Dfa σ} {live : StateSet} {t : StateTable (List (Option State))}
variable {e e' : Edge σ} {es : List (Edge σ)} {q r : State} {k : Nat}

/-- The table has a row for each state, with a place for each letter. -/
structure Shaped (d : Dfa σ) (t : StateTable (List (Option State))) : Prop where
  size_eq : t.slots.size = d.stateCount
  length_eq : ∀ q < d.stateCount, (t.get q).length = d.alphabet.length

/-- The transition belongs at a place of the table. -/
structure Fills (d : Dfa σ) (live : StateSet) (q : State) (k : Nat) (e : Edge σ) : Prop where
  source_eq : e.source = q
  letter : d.alphabet[k]? = some e.label
  source_live : live.contains e.source = true
  target_live : live.contains e.target = true

theorem shaped_blank (d : Dfa σ) :
    d.Shaped ⟨Array.replicate d.stateCount (List.replicate d.alphabet.length none)⟩ := by
  refine ⟨Array.size_replicate, fun q hq => ?_⟩
  unfold StateTable.get
  rw [Array.getElem?_replicate, if_pos hq]
  exact List.length_replicate

theorem entry_blank : StateTable.entry
    ⟨Array.replicate d.stateCount (List.replicate d.alphabet.length none)⟩ q k = none := by
  unfold StateTable.entry StateTable.get
  rw [Array.getElem?_replicate]
  split
  · show (List.replicate d.alphabet.length none)[k]?.join = none
    rw [List.getElem?_replicate]
    split
    · rfl
    · rfl
  · rfl

variable [DecidableEq σ]

theorem Shaped.enter (h : d.Shaped t) (e : Edge σ) : d.Shaped (d.enter live t e) := by
  unfold Dfa.enter
  split
  · split
    · refine ⟨(StateTable.size_slots_set _ _ _).trans h.size_eq, fun q hq => ?_⟩
      by_cases heq : q = e.source
      · rw [← heq, StateTable.get_set_self (h.size_eq ▸ hq), List.length_set]
        exact h.length_eq q hq
      · rw [StateTable.get_set_ne heq]
        exact h.length_eq q hq
    · exact h
  · exact h

theorem Shaped.entry_enter (h : d.Shaped t) (hnodup : d.alphabet.Nodup) (hq : q < d.stateCount)
    (he : d.Fills live q k e) : (d.enter live t e).entry q k = some e.target := by
  have hk : k < d.alphabet.length := (List.getElem?_eq_some_iff.1 he.letter).1
  have hplace := (idxOf?_eq_some_iff_getElem? hnodup).2 he.letter
  unfold Dfa.enter
  rw [he.source_live, he.target_live, hplace, he.source_eq]
  show ((t.set q ((t.get q).set k (some e.target))).get q)[k]?.join = _
  rw [StateTable.get_set_self (h.size_eq ▸ hq), List.getElem?_set_self (h.length_eq q hq ▸ hk)]
  rfl

theorem entry_enter_of_not_fills (hnodup : d.alphabet.Nodup) (he : ¬d.Fills live q k e) :
    (d.enter live t e).entry q k = t.entry q k := by
  unfold Dfa.enter
  split
  · rename_i hlive
    rw [Bool.and_eq_true] at hlive
    split
    · rename_i i hplace
      unfold StateTable.entry
      by_cases hsource : e.source = q
      · have hne : i ≠ k := by
          intro hik
          rw [hik, idxOf?_eq_some_iff_getElem? hnodup] at hplace
          exact he ⟨hsource, hplace, hlive.1, hlive.2⟩
        by_cases hq : q < t.slots.size
        · rw [hsource, StateTable.get_set_self hq, List.getElem?_set_ne hne]
        · -- there is no row to change
          rw [hsource, StateTable.set, Array.setIfInBounds_eq_of_size_le (Nat.not_lt.1 hq)]
      · rw [StateTable.get_set_ne (Ne.symm hsource)]
    · rfl
  · rfl

/-- Places that no transition belongs at stay as they are. -/
theorem entry_foldl_enter_of_not_fills (hnodup : d.alphabet.Nodup)
    (hes : ∀ e ∈ es, ¬d.Fills live q k e) :
    (es.foldl (d.enter live) t).entry q k = t.entry q k := by
  induction es generalizing t with
  | nil => rfl
  | cons e es ih =>
    rcases List.forall_mem_cons.1 hes with ⟨he, hrest⟩
    rw [List.foldl_cons, ih hrest, entry_enter_of_not_fills hnodup he]

/-- A transition that belongs at a place stays there, since no other one belongs there. -/
theorem Shaped.entry_foldl_enter (h : d.Shaped t) (hnodup : d.alphabet.Nodup)
    (hq : q < d.stateCount) (he : e ∈ es) (hfills : d.Fills live q k e)
    (honly : ∀ e' ∈ es, d.Fills live q k e' → e' = e) :
    (es.foldl (d.enter live) t).entry q k = some e.target := by
  induction es generalizing t with
  | nil => cases he
  | cons e' es ih =>
    rcases List.forall_mem_cons.1 honly with ⟨-, hrest⟩
    rw [List.foldl_cons]
    by_cases hmem : e ∈ es
    · exact ih (h.enter e') hmem hrest
    · have heq : e = e' := (List.mem_cons.1 he).resolve_right hmem
      have hnone : ∀ f ∈ es, ¬d.Fills live q k f := by
        intro f hf hfills'
        rw [hrest f hf hfills'] at hf
        exact hmem hf
      rw [entry_foldl_enter_of_not_fills hnodup hnone, ← heq]
      exact h.entry_enter hnodup hq hfills

omit [DecidableEq σ] in
/-- A state has one transition on a letter, so at most one belongs at a place. -/
theorem WellFormed.eq_of_fills [Ord σ] (hd : d.WellFormed) (he : e ∈ d.edges)
    (he' : e' ∈ d.edges) (hfills : d.Fills live q k e) (hfills' : d.Fills live q k e') :
    e' = e := by
  rcases e with ⟨p, a, r⟩
  rcases e' with ⟨p', a', r'⟩
  have hp : p' = p := hfills'.source_eq.trans hfills.source_eq.symm
  have ha : a' = a := Option.some.inj (hfills'.letter.symm.trans hfills.letter)
  rw [hp, ha] at he' ⊢
  rw [hd.deterministic _ _ _ _ he' he]

/-- The table has the transitions between live states, and no others. -/
theorem WellFormed.entry_successorTable [Ord σ] [Std.LawfulEqOrd σ] (hd : d.WellFormed) :
    d.successorTable.entry q k = some r ↔
      ∃ a, d.alphabet[k]? = some a ∧ ⟨q, a, r⟩ ∈ d.edges ∧ q ∈ d.live ∧ r ∈ d.live := by
  have hnodup : d.alphabet.Nodup := hd.alphabet_ascending.nodup
  have hcontains : ∀ p, (StateSet.ofList d.stateCount d.live).contains p = true ↔ p ∈ d.live :=
    fun p => StateSet.contains_ofList.trans (and_iff_left_of_imp lt_of_mem_live)
  have hfilled : ∀ e ∈ d.edges, d.Fills (StateSet.ofList d.stateCount d.live) q k e →
      d.successorTable.entry q k = some e.target := by
    intro e he hfills
    have hq : q < d.stateCount := hfills.source_eq ▸ hd.source_lt _ _ _ he
    exact (shaped_blank d).entry_foldl_enter hnodup hq he hfills fun e' he' hfills' =>
      hd.eq_of_fills he he' hfills hfills'
  apply Iff.intro
  · intro hentry
    by_cases hfills : ∃ e ∈ d.edges, d.Fills (StateSet.ofList d.stateCount d.live) q k e
    · rcases hfills with ⟨⟨p, a, r'⟩, he, hf⟩
      rw [hfilled _ he hf] at hentry
      cases hentry
      rcases hf with ⟨rfl, hletter, hsource, htarget⟩
      exact ⟨a, hletter, he, (hcontains _).1 hsource, (hcontains _).1 htarget⟩
    · have hnone : ∀ e ∈ d.edges, ¬d.Fills (StateSet.ofList d.stateCount d.live) q k e :=
        fun e he hf => hfills ⟨e, he, hf⟩
      unfold successorTable at hentry
      rw [entry_foldl_enter_of_not_fills hnodup hnone, entry_blank] at hentry
      cases hentry
  · intro h
    rcases h with ⟨a, hletter, he, hsource, htarget⟩
    exact hfilled _ he ⟨rfl, hletter, (hcontains q).2 hsource, (hcontains r).2 htarget⟩

end Dfa

/-! ## One split -/

namespace Hopcroft

variable {σ : Type} {d : Dfa σ} {h h' : Hopcroft} {leads : State → Bool}
variable {S sources : List State} {a : σ} {i j k : Nat} {p q : State}

/-- Nothing happens, or there is one cell more. -/
theorem split_cases (leads : State → Bool) (h : Hopcroft) (i : Nat) : h.split leads i = h ∨
    ((h.split leads i).cells.size = h.cells.size + 1 ∧
      (h.split leads i).accepting = h.accepting ++ [h.accepting[i]?.getD false]) := by
  unfold split
  rw [List.partition_eq_filter_filter]
  dsimp only
  split
  · exact .inl rfl
  · refine .inr ⟨?_, rfl⟩
    rw [Array.size_push, Array.size_setIfInBounds]

/-- The loop splits a cell as the refinement does by the sources of the letter. -/
theorem toRefinement_split (hw : h.waits.length = h.cells.size)
    (hleads : ∀ q ∈ h.cell i, leads q = decide (q ∈ sources)) :
    (h.split leads i).toRefinement = Refinement.split sources h.toRefinement i := by
  have hinside : (h.cell i).filter leads = (h.cell i).filter (· ∈ sources) :=
    List.filter_congr hleads
  have houtside : (h.cell i).filter (not ∘ leads) = (h.cell i).filter (· ∉ sources) := by
    apply List.filter_congr
    intro q hq
    rw [Function.comp_apply, hleads q hq, decide_not]
  unfold split Refinement.split
  rw [List.partition_eq_filter_filter, hinside, houtside]
  dsimp only
  split
  · rfl
  · rename_i hmixed
    have hi : i < h.waits.length := by
      rw [hw]
      apply Nat.lt_of_not_le
      intro hle
      apply hmixed
      have hnil : h.cell i = [] := by
        unfold Refinement.cell
        rw [Array.getElem?_eq_none hle]
        rfl
      rw [hnil]
      rfl
    split
    · rw [← hw, List.set_append_right _ _ (Nat.le_refl _), Nat.sub_self]
      rfl
    · rw [List.set_append_left _ _ hi]

/-! ## What the loop keeps -/

variable [DecidableEq σ]

/-- What the loop keeps: the invariant of the refinement, cells that have with a state all that
accept the same words, and the right flag at each cell. -/
structure Kept (d : Dfa σ) (S : List State) (h : Hopcroft) : Prop where
  refined : Refinement.Invariant d d.live S h.toRefinement
  whole : Refinement.WholeCells d h.toRefinement
  length_accepting : h.accepting.length = h.cells.size
  accepting : ∀ i, ∀ q ∈ h.cell i, h.accepting[i]? = some (d.isFinal q)

/-- A splitter that has with a state all that accept the same words, all of them live. -/
structure Splitter (d : Dfa σ) (S : List State) : Prop where
  whole : d.Whole S
  mem_live : ∀ q ∈ S, q ∈ d.live

/-- What splitting a cell does to the flags. -/
theorem Kept.accepting_split (hh : Kept d S h) (leads : State → Bool) (i : Nat)
    (heq : (h.split leads i).toRefinement = Refinement.split sources h.toRefinement i) :
    (h.split leads i).accepting.length = (h.split leads i).cells.size ∧
      ∀ j, ∀ q ∈ (h.split leads i).cell j,
        (h.split leads i).accepting[j]? = some (d.isFinal q) := by
  rcases split_cases leads h i with hsame | ⟨hsize, hflags⟩
  · rw [hsame]
    exact ⟨hh.length_accepting, hh.accepting⟩
  · rw [hsize, hflags]
    refine ⟨?_, fun j q hq => ?_⟩
    · rw [List.length_append, hh.length_accepting, List.length_singleton]
    · rw [heq] at hq
      rcases Refinement.split_cases sources i hh.refined.waits with ⟨hsame, -⟩ | hs
      · rw [heq, hsame] at hsize
        exact absurd hsize (Nat.ne_of_lt (Nat.lt_succ_self _))
      · have hi : i < h.accepting.length := hh.length_accepting ▸ hs.lt_size
        by_cases hj : j = i
        · rw [hj, hs.mem_inside] at hq
          rw [hj, List.getElem?_append_left hi]
          exact hh.accepting i q hq.1
        · by_cases hlast : j = h.cells.size
          · rw [hlast, hs.mem_outside] at hq
            rw [hlast, ← hh.length_accepting, List.getElem?_concat_length,
              hh.accepting i q hq.1]
            rfl
          · rw [hs.others j hj hlast] at hq
            have hlt : j < h.accepting.length :=
              hh.length_accepting ▸ (Refinement.cell_of_mem hq).1
            rw [List.getElem?_append_left hlt]
            exact hh.accepting j q hq

theorem kept_start (hfinals : d.live.filter d.isFinal ≠ []) : Kept d [] (start d) where
  refined := Dfa.invariant_firstCells hfinals
  whole := Refinement.whole_firstCells
  length_accepting := by
    unfold start Dfa.firstCells Refinement.start
    split
    · rfl
    · rfl
  accepting i q hq := by
    change q ∈ d.firstCells.cell i at hq
    unfold Dfa.firstCells at hq
    rw [Refinement.mem_cell_start, List.mem_filter, List.mem_filter] at hq
    unfold start
    dsimp only
    rcases hq with ⟨rfl, -, hfinal⟩ | ⟨rfl, hlive, hfinal⟩
    · rw [hfinal]
      split
      · rfl
      · rfl
    · have hne : (d.live.filter (!d.isFinal ·)).isEmpty = false := by
        rw [← Bool.not_eq_true, List.isEmpty_iff]
        exact List.ne_nil_of_mem (List.mem_filter.2 ⟨hlive, hfinal⟩)
      rw [hne]
      rw [Bool.not_eq_true'] at hfinal
      rw [hfinal]
      rfl

theorem Kept.splitter (hh : Kept d S h) (i : Nat) : Splitter d (h.cell i) :=
  ⟨hh.whole i, fun _ hq => hh.refined.mem_live hq⟩

theorem Kept.take (hh : Kept d [] h) {rest : List Nat} (hpending : h.pending = i :: rest) :
    Kept d (h.cell i) (h.take i rest) :=
  ⟨hh.refined.take hpending, hh.whole, hh.length_accepting, hh.accepting⟩

/-! ## Points of a round -/

omit [DecidableEq σ] in
theorem forall₂_range_alphabet (d : Dfa σ) :
    List.Forall₂ (fun k a => d.alphabet[k]? = some a)
      (List.range d.alphabet.length) d.alphabet := by
  rw [List.forall₂_iff_get]
  refine ⟨List.length_range, fun k hk hk' => ?_⟩
  rw [List.get_eq_getElem, List.get_eq_getElem, List.getElem_range]
  exact List.getElem?_eq_getElem hk'

/-- What a round does is done by splits. -/
theorem splitting_foldl_split (hsplits : Splitting d S h h') (hk : k < d.alphabet.length)
    (is : List Nat) : Splitting d S h (is.foldl (Hopcroft.split (leadsInto d S k)) h') := by
  induction is generalizing h' with
  | nil => exact hsplits
  | cons i is ih => exact ih (.split i hsplits hk)

theorem splitting_foldl_splitAll (hsplits : Splitting d S h h') {ks : List Nat}
    (hks : ∀ k ∈ ks, k < d.alphabet.length) :
    Splitting d S h (ks.foldl (splitAll (leadsInto d S)) h') := by
  induction ks generalizing h' with
  | nil => exact hsplits
  | cons k ks ih =>
    rcases List.forall_mem_cons.1 hks with ⟨hk, hrest⟩
    exact ih (splitting_foldl_split hsplits hk _) hrest

theorem splitting_of_round? (hround : h.round? d = some h') :
    ∃ i rest, h.pending = i :: rest ∧ Splitting d (h.cell i) (h.take i rest) h' := by
  unfold Hopcroft.round? at hround
  split at hround
  · cases hround
  · rename_i i rest hpending
    rw [← Option.some.inj hround]
    refine ⟨i, rest, hpending, splitting_foldl_splitAll .refl fun k hk => ?_⟩
    exact List.mem_range.1 hk

/-! ## Splits by the table -/

variable [Ord σ] [Std.TransOrd σ] [Std.LawfulEqOrd σ]

omit [Std.TransOrd σ] in
/-- Of the live states, the sources of a letter are those that the table shows to lead into the
splitter. -/
theorem leadsInto_eq (hd : d.WellFormed) (hS : Splitter d S) (ha : d.alphabet[k]? = some a)
    (hq : q ∈ d.live) :
    leadsInto d S k q = decide (q ∈ Refinement.sources d S a) := by
  rw [Bool.eq_iff_iff, decide_eq_true_eq, Refinement.mem_sources]
  unfold leadsInto
  rw [Option.any_eq_true]
  apply exists_congr
  intro r
  rw [hd.entry_successorTable, StateSet.contains_ofList]
  apply Iff.intro
  · intro hboth
    rcases hboth with ⟨⟨a', ha', he, -, -⟩, hr, -⟩
    rw [ha] at ha'
    cases ha'
    exact ⟨hr, he⟩
  · intro hboth
    rcases hboth with ⟨hr, he⟩
    exact ⟨⟨a, ha, he, hq, hS.mem_live r hr⟩, hr, Dfa.lt_of_mem_live (hS.mem_live r hr)⟩

/-- One split by a letter is one of the refinement, and it keeps everything. -/
theorem Kept.split (hh : Kept d S h) (hd : d.WellFormed) {splitter : List State}
    (hsplitter : Splitter d splitter) (ha : d.alphabet[k]? = some a) (i : Nat) :
    (h.split (leadsInto d splitter k) i).toRefinement
        = Refinement.split (Refinement.sources d splitter a) h.toRefinement i ∧
      Kept d S (h.split (leadsInto d splitter k) i) := by
  have heq := toRefinement_split (i := i) hh.refined.waits fun q hq =>
    leadsInto_eq hd hsplitter ha (hh.refined.mem_live hq)
  rcases hh.accepting_split _ i heq with ⟨hlength, haccepting⟩
  refine ⟨heq, ?_, ?_, hlength, haccepting⟩
  · rw [heq]
    exact (hh.refined.split hd.deterministic _ i).1
  · rw [heq]
    exact hh.refined.whole_split hh.whole
      (hd.whole_sources hsplitter.whole hsplitter.mem_live a) i

/-! ## Several splits -/

/-- Cells are split one after the other by one letter. -/
theorem Kept.splitList (hh : Kept d S h) (hd : d.WellFormed) {splitter : List State}
    (hsplitter : Splitter d splitter) (ha : d.alphabet[k]? = some a) (is : List Nat) :
    (is.foldl (Hopcroft.split (leadsInto d splitter k)) h).toRefinement =
      is.foldl (Refinement.split (Refinement.sources d splitter a)) h.toRefinement ∧
    Kept d S (is.foldl (Hopcroft.split (leadsInto d splitter k)) h) := by
  induction is generalizing h with
  | nil => exact ⟨rfl, hh⟩
  | cons i is ih =>
    rcases hh.split hd hsplitter ha i with ⟨heq, hkept⟩
    rcases ih hkept with ⟨hrest, hresult⟩
    rw [List.foldl_cons, List.foldl_cons, ← heq]
    exact ⟨hrest, hresult⟩

/-- All cells are split by one letter after the other. -/
theorem Kept.splitLetters (hh : Kept d S h) (hd : d.WellFormed) {splitter : List State}
    (hsplitter : Splitter d splitter) {ks : List Nat} {as : List σ}
    (hletters : List.Forall₂ (fun k a => d.alphabet[k]? = some a) ks as) :
    (ks.foldl (splitAll (leadsInto d splitter)) h).toRefinement =
      as.foldl (Refinement.splitAll d splitter) h.toRefinement ∧
    Kept d S (ks.foldl (splitAll (leadsInto d splitter)) h) := by
  induction hletters generalizing h with
  | nil => exact ⟨rfl, hh⟩
  | cons ha _ ih =>
    rcases hh.splitList hd hsplitter ha (List.range h.cells.size) with ⟨heq, hkept⟩
    rcases ih hkept with ⟨hrest, hresult⟩
    rw [List.foldl_cons, List.foldl_cons]
    refine ⟨hrest.trans ?_, hresult⟩
    exact congrArg (List.foldl (Refinement.splitAll d splitter) · _) heq

/-- A round is a round of the refinement. -/
theorem Kept.round? (hh : Kept d [] h) (hd : d.WellFormed) (hround : h.round? d = some h') :
    ∃ i rest, h.pending = i :: rest ∧
      h'.toRefinement = (h.toRefinement.take i rest).splitBy d (h.cell i) ∧ Kept d [] h' := by
  unfold Hopcroft.round? at hround
  split at hround
  · cases hround
  · rename_i i rest hpending
    rcases (hh.take hpending).splitLetters hd (hh.splitter i) (forall₂_range_alphabet d)
      with ⟨heq, hkept⟩
    rw [Option.some.inj hround] at heq hkept
    refine ⟨i, rest, hpending, heq, ?_, hkept.whole, hkept.length_accepting, hkept.accepting⟩
    rw [heq]
    exact ((hh.refined.take hpending).splitBy hd.deterministic).1

/-- Whatever cells are split by whatever letters, everything is kept. -/
theorem Splitting.kept (hsplits : Splitting d S h h') (hd : d.WellFormed) (hS : Splitter d S)
    (hh : Kept d S h) : Kept d S h' := by
  induction hsplits with
  | refl => exact hh
  | split i _ hk ih => exact (ih.split hd hS (List.getElem?_eq_getElem hk) i).2

/-! ## All rounds -/

theorem Rounds.kept (hrounds : Rounds d k h) (hd : d.WellFormed)
    (hfinals : d.live.filter d.isFinal ≠ []) : Kept d [] h := by
  induction hrounds with
  | start => exact kept_start hfinals
  | round? _ hround ih =>
    rcases ih.round? hd hround with ⟨-, -, -, -, hkept⟩
    exact hkept

/-- Every cell has waited once: those that were taken off the stack and those that are on it are as
many as there are cells. -/
theorem Rounds.size_eq (hrounds : Rounds d k h) (hd : d.WellFormed)
    (hfinals : d.live.filter d.isFinal ≠ []) : h.cells.size = k + h.pending.length := by
  induction hrounds with
  | start =>
    unfold Hopcroft.start Dfa.firstCells Refinement.start
    split
    · rfl
    · rfl
  | @round? k h h' hrounds hround ih =>
    have hkept := hrounds.kept hd hfinals
    rcases hkept.round? hd hround with ⟨i, rest, hpending, heq, -⟩
    rcases (hkept.refined.take hpending).splitBy hd.deterministic with ⟨-, hfiner⟩
    have hcount := hfiner.count
    have hlength : h.pending.length = rest.length + 1 := by rw [hpending, List.length_cons]
    rw [← heq] at hcount
    change h'.cells.size + rest.length = h.cells.size + h'.pending.length at hcount
    omega

/-- The refinement makes the same rounds. -/
theorem Rounds.run_eq (hrounds : Rounds d k h) (hd : d.WellFormed)
    (hfinals : d.live.filter d.isFinal ≠ []) (m : Nat) :
    Refinement.run d (k + m) d.firstCells = Refinement.run d m h.toRefinement := by
  induction hrounds generalizing m with
  | start =>
    rw [Nat.zero_add]
    rfl
  | @round? k h h' hrounds hround ih =>
    rcases (hrounds.kept hd hfinals).round? hd hround with ⟨i, rest, hpending, heq, -⟩
    rw [Nat.add_assoc, Nat.add_comm 1 m, ih (m + 1), heq]
    conv => lhs; unfold Refinement.run
    rw [hpending]

/-! ## What every point of the loop has -/

omit [Ord σ] [Std.TransOrd σ] [Std.LawfulEqOrd σ]

/-- The cells are a partition of the live states, flagged by acceptance, in which no two states with
the same right language are apart; the marked cells are those on the stack, once each. -/
structure Sound (d : Dfa σ) (h : Hopcroft) : Prop where
  ne_nil : ∀ c ∈ h.cells.toList, c ≠ []
  eq_of_mem : ∀ q i j, q ∈ h.cell i → q ∈ h.cell j → i = j
  mem_live_iff : ∀ q, q ∈ d.live ↔ ∃ i, q ∈ h.cell i
  length_accepting : h.accepting.length = h.cells.size
  accepting : ∀ i, ∀ q ∈ h.cell i, h.accepting[i]? = some (d.isFinal q)
  length_waits : h.waits.length = h.cells.size
  isWaiting_iff : ∀ i, h.isWaiting i = true ↔ i ∈ h.pending
  pending_nodup : h.pending.Nodup
  lt_of_pending : ∀ i ∈ h.pending, i < h.cells.size
  together : ∀ p ∈ d.live, ∀ q ∈ d.live, (∀ w, d.acceptsFrom p w = d.acceptsFrom q w) →
    ∀ i, p ∈ h.cell i ↔ q ∈ h.cell i

theorem Kept.sound (hh : Kept d S h) : Sound d h where
  ne_nil := hh.refined.ne_nil
  eq_of_mem q i j hi hj := by
    have hnodup : h.cells.toList.flatten.Nodup := hh.refined.perm.nodup_iff.2 (Dfa.nodup_live d)
    have hlt : q < d.stateCount := Dfa.lt_of_mem_live (hh.refined.mem_live hi)
    have hcell : ∀ m, q ∈ h.cell m → (d.cellTable h.cells.toList).get q = some m := by
      intro m hm
      have hget := (Refinement.cell_of_mem hm).2
      rw [← Array.getElem?_toList] at hget
      exact Dfa.get_cellTable hnodup hget hm hlt
    exact Option.some.inj ((hcell i hi).symm.trans (hcell j hj))
  mem_live_iff q := by
    apply Iff.intro
    · intro hq
      rcases List.mem_flatten.1 (hh.refined.perm.mem_iff.2 hq) with ⟨c, hc, hqc⟩
      rcases Refinement.exists_cell_of_mem hc with ⟨i, rfl⟩
      exact ⟨i, hqc⟩
    · intro hq
      rcases hq with ⟨i, hi⟩
      exact hh.refined.mem_live hi
  length_accepting := hh.length_accepting
  accepting := hh.accepting
  length_waits := hh.refined.waits
  isWaiting_iff i := (hh.refined.mem_pending i).symm
  pending_nodup := hh.refined.pending_nodup
  lt_of_pending i hi := hh.refined.waits ▸ Refinement.lt_of_isWaiting
    ((hh.refined.mem_pending i).1 hi)
  together p hp q hq hsame i :=
    ⟨fun h => hh.whole i p q h hq hsame, fun h => hh.whole i q p h hp fun w => (hsame w).symm⟩

/-- A letter leads from all states of a cell into another one, or from none of them. -/
def Stable (d : Dfa σ) (h : Hopcroft) : Prop :=
  ∀ i j a, (∀ p ∈ h.cell i, ∃ q ∈ h.cell j, d.successor p a = some q) ∨
    ∀ p ∈ h.cell i, ∀ q ∈ h.cell j, d.successor p a ≠ some q

variable [Ord σ]

theorem Kept.stable (hh : Kept d [] h) (hd : d.WellFormed) (hpending : h.pending = []) :
    Stable d h := by
  intro i j a
  by_cases hleads : ∃ p ∈ h.cell i, ∃ q ∈ h.cell j, d.successor p a = some q
  · rcases hleads with ⟨p, hp, q, hq, hnext⟩
    left
    intro p' hp'
    have hedge := Dfa.mem_edges_of_successor hnext
    have hsource : p ∈ Refinement.sources d (h.cell j) a :=
      Refinement.mem_sources.2 ⟨q, hq, hedge⟩
    have hsource' := (hh.refined.stable hpending (hd.letter_mem _ _ _ hedge) hp hp').1 hsource
    rcases Refinement.mem_sources.1 hsource' with ⟨q', hq', hedge'⟩
    exact ⟨q', hq', (Dfa.successor_eq_some_iff hd.deterministic).2 hedge'⟩
  · right
    intro p hp q hq hnext
    exact hleads ⟨p, hp, q, hq, hnext⟩

variable [Std.TransOrd σ] [Std.LawfulEqOrd σ]

/-- As long as a cell waits there is another round, and there are no more rounds than live
states. -/
theorem Rounds.exists_end (hrounds : Rounds d k h) (hd : d.WellFormed)
    (hfinals : d.live.filter d.isFinal ≠ []) {n : Nat} (hn : d.live.length ≤ k + n) :
    ∃ k' h', Rounds d k' h' ∧ h'.pending = [] := by
  induction n generalizing k h with
  | zero =>
    have hsize := hrounds.size_eq hd hfinals
    have hle := (hrounds.kept hd hfinals).refined.size_le
    have hzero : h.pending.length = 0 := by omega
    exact ⟨k, h, hrounds, List.length_eq_zero_iff.1 hzero⟩
  | succ n ih =>
    cases hpending : h.pending with
    | nil => exact ⟨k, h, hrounds, hpending⟩
    | cons i rest =>
      have hround : ∃ h', h.round? d = some h' := by
        unfold Hopcroft.round?
        rw [hpending]
        exact ⟨_, rfl⟩
      rcases hround with ⟨h', hround⟩
      exact ih (.round? hrounds hround) (by omega)

/-- At the end the loop has the cells of the minimal automaton. -/
theorem Rounds.cells_eq (hrounds : Rounds d k h) (hd : d.WellFormed)
    (hfinals : d.live.filter d.isFinal ≠ []) (hpending : h.pending = [])
    (hle : k ≤ d.live.length) : h.cells.toList = d.cells := by
  have hrun := hrounds.run_eq hd hfinals (d.live.length - k)
  rw [Nat.add_sub_cancel' hle, Refinement.run_of_pending_eq_nil hpending] at hrun
  show h.toRefinement.cells.toList = (Refinement.run d d.live.length d.firstCells).cells.toList
  rw [hrun]

end Hopcroft

/-- Hopcroft's loop, for an automaton some live state of which accepts: before each round and after
each of its splits the cells and the stack are as they should be, and the refinement makes the same
rounds; the loop comes to an end; and then as many cells have been taken off the stack as there are
cells, which are no more than live states, and the letters respect the cells, which are those of the
minimal automaton. -/
theorem Dfa.WellFormed.hopcroft_spec {σ : Type} [DecidableEq σ] [Ord σ] [Std.TransOrd σ]
    [Std.LawfulEqOrd σ] {d : Dfa σ} (hd : d.WellFormed)
    (hlive : ∃ f ∈ d.live, d.isFinal f = true) :
    (∀ k h, Hopcroft.Rounds d k h → h.Sound d ∧ h.cells.size = k + h.pending.length ∧
      Refinement.run d k d.firstCells = h.toRefinement ∧
      (∀ h', h.round? d = some h' → ∃ i rest, h.pending = i :: rest ∧
        Hopcroft.Splitting d (h.cell i) (h.take i rest) h') ∧
      ∀ i rest h', h.pending = i :: rest →
        Hopcroft.Splitting d (h.cell i) (h.take i rest) h' → h'.Sound d) ∧
    (∃ k h, Hopcroft.Rounds d k h ∧ h.pending = []) ∧
    ∀ k h, Hopcroft.Rounds d k h → h.pending = [] →
      k = h.cells.size ∧ k ≤ d.live.length ∧ h.Stable d ∧ h.cells.toList = d.cells := by
  have hfinals : d.live.filter d.isFinal ≠ [] := by
    rcases hlive with ⟨f, hf, hfinal⟩
    exact List.ne_nil_of_mem (List.mem_filter.2 ⟨hf, hfinal⟩)
  refine ⟨fun k h hrounds => ?_, ?_, fun k h hrounds hpending => ?_⟩
  · have hkept := hrounds.kept hd hfinals
    refine ⟨hkept.sound, hrounds.size_eq hd hfinals, hrounds.run_eq hd hfinals 0,
      fun h' => Hopcroft.splitting_of_round?, ?_⟩
    intro i rest h' hpending hsplits
    exact (hsplits.kept hd (hkept.splitter i) (hkept.take hpending)).sound
  · apply Hopcroft.Rounds.start.exists_end hd hfinals
    exact Nat.le_add_left _ _
  · have hkept := hrounds.kept hd hfinals
    have hsize := hrounds.size_eq hd hfinals
    rw [hpending, List.length_nil, Nat.add_zero] at hsize
    have hle := hkept.refined.size_le
    rw [hsize] at hle
    exact ⟨hsize.symm, hle, hkept.stable hd hpending, hrounds.cells_eq hd hfinals hpending hle⟩

namespace Dfa

/-- Letters are missing at most states, two states accept the same words, and the first splitter
is split itself. -/
def staircase : Dfa Char :=
  ⟨[.plain, .plain, .plain, .accepting, .plain], ['a', 'b'],
    [⟨0, 'a', 1⟩, ⟨0, 'b', 3⟩, ⟨1, 'a', 2⟩, ⟨2, 'a', 3⟩, ⟨3, 'b', 4⟩, ⟨4, 'a', 2⟩], 0⟩

theorem wellFormed_staircase : staircase.WellFormed := wellFormed_of_ofParts
  (show ofParts ⟨[0, 1, 2, 3, 4], [], [⟨0, 'a', 1⟩, ⟨0, 'b', 3⟩, ⟨1, 'a', 2⟩, ⟨2, 'a', 3⟩,
    ⟨3, 'b', 4⟩, ⟨4, 'a', 2⟩], 0, [3]⟩ = .ok staircase from rfl)

theorem hopcroft_spec_staircase :
    staircase.WellFormed ∧ (∃ f ∈ staircase.live, staircase.isFinal f = true) ∧
    ∃ h, Hopcroft.Rounds staircase 4 h ∧ h.Sound staircase ∧ h.pending = [] ∧ h.Stable staircase ∧
      h.cells.toList = [[3], [1, 4], [2], [0]] := by
  have hlive : ∃ f ∈ staircase.live, staircase.isFinal f = true := by decide +kernel
  have hcells : staircase.cells = [[3], [1, 4], [2], [0]] := by decide +kernel
  rcases wellFormed_staircase.hopcroft_spec hlive with ⟨hsound, ⟨k, h, hrounds, hpending⟩, hend⟩
  rcases hend k h hrounds hpending with ⟨hk, -, hstable, heq⟩
  rw [hcells] at heq
  have hfour : k = 4 := by
    rw [hk, ← Array.length_toList, heq]
    rfl
  rw [hfour] at hrounds
  exact ⟨wellFormed_staircase, hlive, h, hrounds, (hsound 4 h hrounds).1, hpending, hstable, heq⟩

end Dfa

end Kleene
