import Mathlib.Data.List.Sublists
import Kleene.Proofs.Deterministic

/-!
# Subset construction

The search numbers every set of states that some word leads to, and draws a transition for
every letter, unless the letter leads to the empty set and the automaton need not be complete.
There are at most as many sets as subsets of the states, so the search comes to an end, and
reading a word from set to set is what the nondeterministic automaton does.
-/

namespace Kleene

variable {σ : Type}

theorem subset_reaches {n : Nfa σ} {p q : State} (hn : n.Wired) (h : Reaches n.epsilonArrows p q)
    (hp : p ∈ n.states) : q ∈ n.states := by
  induction h with
  | refl => exact hp
  | tail _ he _ => exact hn.target_mem _ _ _ (Nfa.mem_epsilonArrows.1 he)

namespace Nfa

variable {n : Nfa σ} {s : List State} {a : σ}

theorem initial_subset (hn : n.Wired) : ∀ q ∈ n.initial, q ∈ n.states := fun _ hq =>
  subset_reaches hn (mem_closure.1 hq) hn.start_mem

variable [DecidableEq σ]

theorem step_subset (hn : n.Wired) : ∀ q ∈ n.step s a, q ∈ n.states := by
  intro q hq
  rcases mem_step.1 hq with ⟨p, -, m, he, hmq⟩
  exact subset_reaches hn hmq (hn.target_mem _ _ _ he)

-- Nothing is reached on a letter that is not in the alphabet.
theorem WellFormed.step_eq_nil [Ord σ] (hn : n.WellFormed) (ha : a ∉ n.alphabet) :
    n.step s a = [] := by
  refine List.eq_nil_iff_forall_not_mem.2 fun q hq => ?_
  rcases mem_step.1 hq with ⟨p, -, m, he, -⟩
  exact ha (hn.letter_mem _ _ _ he)

theorem foldl_step_nil (w : List σ) : w.foldl n.step [] = [] := by
  induction w with
  | nil => rfl
  | cons a w ih =>
    have hstep : n.step [] a = [] := by
      refine List.eq_nil_iff_forall_not_mem.2 fun q hq => ?_
      rcases mem_step.1 hq with ⟨p, hp, -⟩
      cases hp
    rw [List.foldl_cons, hstep]
    exact ih

end Nfa

namespace Subsets

variable {n : Nfa σ} {complete : Bool} {t t' u : Subsets σ} {i : State} {s : List State}
variable {a : σ} {as : List σ}

section Growing

/-- Nothing is lost, every new set is pending, and as many sets are new as pending ones. -/
structure Grows (t t' : Subsets σ) : Prop where
  found : ∀ (k : Nat) (x : List State), t.found[k]? = some x → t'.found[k]? = some x
  edges : ∀ e ∈ t.edges, e ∈ t'.edges
  pending : ∀ x ∈ t.pending, x ∈ t'.pending
  new : ∀ (k : Nat) (x : List State), t'.found[k]? = some x →
    t.found[k]? = some x ∨ (k, x) ∈ t'.pending
  count : t'.found.length + t.pending.length = t.found.length + t'.pending.length

theorem Grows.refl (t : Subsets σ) : Grows t t :=
  ⟨fun _ _ h => h, fun _ h => h, fun _ h => h, fun _ _ h => .inl h, rfl⟩

theorem Grows.trans (h : Grows t t') (h' : Grows t' u) : Grows t u where
  found k x hx := h'.found k x (h.found k x hx)
  edges e he := h'.edges e (h.edges e he)
  pending x hx := h'.pending x (h.pending x hx)
  new k x hx := by
    rcases h'.new k x hx with hx | hx
    · exact (h.new k x hx).imp_right (h'.pending _)
    · exact .inr hx
  count := by
    have hcount := h.count
    have hcount' := h'.count
    omega

theorem grows_visit (i : State) (a : σ) (s : List State) (t : Subsets σ) :
    Grows t (t.visit i a s) := by
  unfold visit
  split
  · exact ⟨fun _ _ h => h, fun _ h => List.mem_cons_of_mem _ h, fun _ h => h,
      fun _ _ h => .inl h, rfl⟩
  · refine ⟨fun k x hx => ?_, fun _ h => List.mem_cons_of_mem _ h,
      fun _ h => List.mem_cons_of_mem _ h, fun k x hx => ?_, ?_⟩
    · exact List.getElem?_append_left (List.getElem?_eq_some_iff.1 hx).1 ▸ hx
    · -- the only set that was not there before is the last one
      by_cases hk : k < t.found.length
      · rw [List.getElem?_append_left hk] at hx
        exact .inl hx
      · have hlt := (List.getElem?_eq_some_iff.1 hx).1
        rw [List.length_append, List.length_singleton] at hlt
        have heq : k = t.found.length := by omega
        rw [heq, List.getElem?_concat_length] at hx
        rw [heq, ← Option.some.inj hx]
        exact .inr List.mem_cons_self
    · simp only [List.length_append, List.length_cons, List.length_nil]
      omega

theorem getElem?_of_idxOf? (h : t.found.idxOf? s = some i) : t.found[i]? = some s := by
  rcases List.idxOf?_eq_some_iff.1 h with ⟨hlt, heq, -⟩
  exact List.getElem?_eq_some_iff.2 ⟨hlt, heq⟩

-- A visit draws the transition to the set, which has a number now.
theorem exists_edge_visit (i : State) (a : σ) (s : List State) (t : Subsets σ) :
    ∃ j, (t.visit i a s).found[j]? = some s ∧ ⟨i, a, j⟩ ∈ (t.visit i a s).edges := by
  unfold visit
  split
  · rename_i j hj
    exact ⟨j, getElem?_of_idxOf? hj, List.mem_cons_self⟩
  · exact ⟨t.found.length, List.getElem?_concat_length, List.mem_cons_self⟩

end Growing

section Searching

variable [Ord σ] [DecidableEq σ]

/-- The numbered sets are different subsets of the states, transitions lead from a set to the set
that their letter leads to, and all sets can be reached along them. -/
structure Sound (n : Nfa σ) (t : Subsets σ) : Prop where
  nodup : t.found.Nodup
  subset : ∀ s ∈ t.found, Ascending.IsAscending s ∧ ∀ q ∈ s, q ∈ n.states
  edge : ∀ i a j, ⟨i, a, j⟩ ∈ t.edges → a ∈ n.alphabet ∧
    ∃ s, t.found[i]? = some s ∧ t.found[j]? = some (n.step s a)
  pending : ∀ i s, (i, s) ∈ t.pending → t.found[i]? = some s
  reached : ∀ i < t.found.length, Reaches (t.edges.map Edge.ends) 0 i

/-- Each letter has been followed from a set, unless it leads to the empty set and that is left
out. -/
def Followed (n : Nfa σ) (complete : Bool) (t : Subsets σ) (i : State) (s : List State)
    (as : List σ) : Prop :=
  ∀ a ∈ as, (complete = false ∧ n.step s a = []) ∨
    ∃ j, t.found[j]? = some (n.step s a) ∧ ⟨i, a, j⟩ ∈ t.edges

omit [Ord σ] in
theorem Followed.mono (h : Followed n complete t i s as) (hg : Grows t t') :
    Followed n complete t' i s as := by
  intro a ha
  rcases h a ha with hnil | ⟨j, hj, he⟩
  · exact .inl hnil
  · exact .inr ⟨j, hg.found _ _ hj, hg.edges _ he⟩

omit [Ord σ] in
theorem Sound.visit (hn : n.Wired) (h : Sound n t) (hs : t.found[i]? = some s)
    (ha : a ∈ n.alphabet) : Sound n (t.visit i a (n.step s a)) := by
  have hgrows := grows_visit i a (n.step s a) t
  unfold Subsets.visit at hgrows ⊢
  cases hidx : t.found.idxOf? (n.step s a) with
  | some j =>
    -- a set that has a number already
    rw [hidx] at hgrows
    have hj := getElem?_of_idxOf? hidx
    refine ⟨h.nodup, h.subset, fun k b l he => ?_, h.pending, fun k hk => ?_⟩
    · rcases List.mem_cons.1 he with he | he
      · rcases Edge.mk.inj he with ⟨rfl, rfl, rfl⟩
        exact ⟨ha, s, hs, hj⟩
      · exact h.edge k b l he
    · exact (h.reached k hk).mono fun _ he => List.mem_cons_of_mem _ he
  | none =>
    rw [hidx] at hgrows
    have hnew : n.step s a ∉ t.found := List.idxOf?_eq_none_iff.1 hidx
    have hlast : (t.found ++ [n.step s a])[t.found.length]? = some (n.step s a) :=
      List.getElem?_concat_length
    refine ⟨?_, fun x hx => ?_, fun k b l he => ?_, fun k x hx => ?_, fun k hk => ?_⟩
    · exact List.nodup_append.2 ⟨h.nodup, List.nodup_singleton _, fun x hx y hy heq =>
        hnew (List.mem_singleton.1 hy ▸ heq ▸ hx)⟩
    · rcases List.mem_append.1 hx with hx | hx
      · exact h.subset x hx
      · rw [List.mem_singleton.1 hx]
        exact ⟨Nfa.isAscending_step, Nfa.step_subset hn⟩
    · rcases List.mem_cons.1 he with he | he
      · rcases Edge.mk.inj he with ⟨rfl, rfl, rfl⟩
        exact ⟨ha, s, hgrows.found _ _ hs, hlast⟩
      · rcases h.edge k b l he with ⟨hb, x, hx, hnext⟩
        exact ⟨hb, x, hgrows.found _ _ hx, hgrows.found _ _ hnext⟩
    · rcases List.mem_cons.1 hx with hx | hx
      · rcases Prod.mk.inj hx with ⟨rfl, rfl⟩
        exact hlast
      · exact hgrows.found _ _ (h.pending k x hx)
    · -- the new transition leads to the new set
      have hbefore : ∀ m < t.found.length,
          Reaches ((⟨i, a, t.found.length⟩ :: t.edges : List (Edge σ)).map Edge.ends) 0 m :=
        fun m hm => (h.reached m hm).mono fun _ he => List.mem_cons_of_mem _ he
      rw [List.length_append, List.length_singleton] at hk
      by_cases hlt : k < t.found.length
      · exact hbefore k hlt
      · have heq : k = t.found.length := by omega
        rw [heq]
        exact (hbefore i (List.getElem?_eq_some_iff.1 hs).1).tail List.mem_cons_self

/-- The empty set is left out unless the automaton is to be complete. -/
def Kept (complete : Bool) (t : Subsets σ) : Prop := complete = false → [] ∉ t.found

omit [Ord σ] [DecidableEq σ] in
theorem Kept.visit (h : Kept complete t) (hs : complete = false → s ≠ []) (i : State) (a : σ) :
    Kept complete (t.visit i a s) := by
  intro hc
  unfold Subsets.visit
  split
  · exact h hc
  · rw [List.mem_append, List.mem_singleton, not_or]
    exact ⟨h hc, (hs hc).symm⟩

omit [Ord σ] in
/-- Looking at a set follows the letters one by one. -/
theorem Sound.follow (hn : n.Wired) (h : Sound n t) (hkept : Kept complete t)
    (hs : t.found[i]? = some s) (has : ∀ a ∈ as, a ∈ n.alphabet) :
    let result := as.foldl (fun t a =>
      if (n.step s a).isEmpty && !complete then t else t.visit i a (n.step s a)) t
    Sound n result ∧ Kept complete result ∧ Grows t result ∧
      Followed n complete result i s as := by
  induction as generalizing t with
  | nil => exact ⟨h, hkept, .refl t, fun a ha => by cases ha⟩
  | cons a as ih =>
    rcases List.forall_mem_cons.1 has with ⟨ha, has⟩
    rw [List.foldl_cons]
    by_cases hskip : ((n.step s a).isEmpty && !complete) = true
    · rw [if_pos hskip]
      rcases ih h hkept hs has with ⟨hsound, hkept, hgrows, hfollowed⟩
      refine ⟨hsound, hkept, hgrows, List.forall_mem_cons.2 ⟨.inl ?_, hfollowed⟩⟩
      rwa [Bool.and_eq_true, List.isEmpty_iff, Bool.not_eq_true', and_comm] at hskip
    · rw [if_neg hskip]
      have hvisit := grows_visit i a (n.step s a) t
      have hnext : complete = false → n.step s a ≠ [] := fun hc hnil =>
        hskip (by rw [hnil, hc]; rfl)
      rcases ih (h.visit hn hs ha) (hkept.visit hnext i a) (hvisit.found _ _ hs) has
        with ⟨hsound, hkept, hgrows, hfollowed⟩
      refine ⟨hsound, hkept, hvisit.trans hgrows, List.forall_mem_cons.2 ⟨.inr ?_, hfollowed⟩⟩
      rcases exists_edge_visit i a (n.step s a) t with ⟨j, hj, he⟩
      exact ⟨j, hgrows.found _ _ hj, hgrows.edges _ he⟩

omit [Ord σ] in
/-- A set that is taken off the stack keeps its number. -/
theorem Sound.take (h : Sound n t) {rest : List (State × List State)}
    (hpending : t.pending = (i, s) :: rest) :
    t.found[i]? = some s ∧ Sound n { t with pending := rest } :=
  ⟨h.pending i s (hpending ▸ List.mem_cons_self),
    { h with pending := fun k x hx => h.pending k x (hpending ▸ List.mem_cons_of_mem _ hx) }⟩

/-- What the search keeps: every set is pending or has been looked at. -/
structure Explored (n : Nfa σ) (complete : Bool) (t : Subsets σ) : Prop where
  sound : Sound n t
  kept : Kept complete t
  initial : t.found[0]? = some n.initial
  followed : ∀ i s, t.found[i]? = some s →
    (i, s) ∈ t.pending ∨ Followed n complete t i s n.alphabet

omit [Ord σ] in
/-- Looking at the next set. -/
theorem Explored.expand (hn : n.Wired) (h : Explored n complete t)
    {rest : List (State × List State)} (hpending : t.pending = (i, s) :: rest) :
    let result := Subsets.expand n complete i s { t with pending := rest }
    Explored n complete result ∧
      result.found.length + t.pending.length =
        t.found.length + (result.pending.length + 1) := by
  rcases h.sound.take hpending with ⟨hs, hsound⟩
  have hkept : Kept complete { t with pending := rest } := h.kept
  rcases hsound.follow hn hkept hs (fun _ ha => ha) with ⟨hsound', hkept', hgrows, hfollowed⟩
  refine ⟨⟨hsound', hkept', hgrows.found _ _ h.initial, fun k x hx => ?_⟩, ?_⟩
  · rcases hgrows.new k x hx with hx | hx
    · rcases h.followed k x hx with hmem | hdone
      · rw [hpending] at hmem
        rcases List.mem_cons.1 hmem with heq | hmem
        · -- the set that was looked at is followed now
          rcases Prod.mk.inj heq with ⟨rfl, rfl⟩
          exact .inr hfollowed
        · exact .inl (hgrows.pending _ hmem)
      · have hbefore : Followed n complete { t with pending := rest } k x n.alphabet := hdone
        exact .inr (hbefore.mono hgrows)
    · exact .inl hx
  · have hcount : (Subsets.expand n complete i s { t with pending := rest }).found.length +
        rest.length = t.found.length +
          (Subsets.expand n complete i s { t with pending := rest }).pending.length := hgrows.count
    have hlength : t.pending.length = rest.length + 1 := by rw [hpending, List.length_cons]
    show (Subsets.expand n complete i s { t with pending := rest }).found.length + _ = _
    omega

omit [DecidableEq σ] in
-- There are at most as many sets as subsets of the states.
theorem Sound.length_le (hn : n.WellFormed) [DecidableEq σ] (h : Sound n t) :
    t.found.length ≤ 2 ^ n.states.length := by
  rw [← List.length_sublists]
  refine h.nodup.length_le_of_subset fun s hs => List.mem_sublists.2 ?_
  -- an ascending set of states is a filter of all states
  rcases h.subset s hs with ⟨hascending, hsub⟩
  have heq : s = n.states.filter (· ∈ s) := by
    refine Ascending.eq_of_mem_iff hascending (hn.states_ascending.filter _) fun q => ?_
    rw [List.mem_filter, decide_eq_true_iff]
    exact ⟨fun hq => ⟨hsub q hq, hq⟩, fun hq => hq.2⟩
  rw [heq]
  exact List.filter_sublist

/-- With as many rounds as there are subsets, no set is left to be looked at. -/
theorem Explored.run (hn : n.WellFormed) (h : Explored n complete t) {rounds : Nat}
    (hrounds : 2 ^ n.states.length + t.pending.length ≤ rounds + t.found.length) :
    Explored n complete (Subsets.run n complete rounds t) ∧
      (Subsets.run n complete rounds t).pending = [] := by
  induction rounds generalizing t with
  | zero =>
    have hle := h.sound.length_le hn
    have hzero : t.pending.length = 0 := by omega
    exact ⟨h, List.length_eq_zero_iff.1 hzero⟩
  | succ rounds ih =>
    unfold Subsets.run
    split
    · rename_i hpending
      exact ⟨h, hpending⟩
    · rename_i i s rest hpending
      rcases h.expand hn.toWired hpending with ⟨hnext, hcount⟩
      refine ih hnext ?_
      omega

-- At first only the start's set is known.
theorem explored_start (hn : n.WellFormed) (complete : Bool) :
    Explored n complete ⟨[n.initial], [(0, n.initial)], []⟩ := by
  refine ⟨⟨List.nodup_singleton _, fun s hs => ?_, fun i a j he => ?_, fun i s hs => ?_,
    fun i hi => ?_⟩, fun _ hmem => ?_, rfl, fun i s hs => ?_⟩
  · rw [List.mem_singleton.1 hs]
    exact ⟨Nfa.isAscending_closure, Nfa.initial_subset hn.toWired⟩
  · cases he
  · rcases Prod.mk.inj (List.mem_singleton.1 hs) with ⟨rfl, rfl⟩
    rfl
  · rw [Nat.lt_one_iff.1 hi]
    exact .refl 0
  · have hstart : n.start ∈ n.initial := Nfa.mem_closure.2 (.refl _)
    rw [← List.mem_singleton.1 hmem] at hstart
    cases hstart
  · have hlt := (List.getElem?_eq_some_iff.1 hs).1
    have hzero : i = 0 := Nat.lt_one_iff.1 hlt
    rw [hzero] at hs ⊢
    rw [← Option.some.inj hs]
    exact .inl List.mem_cons_self

-- At the end every set has been looked at.
theorem explored_all (hn : n.WellFormed) (complete : Bool) :
    Explored n complete (Subsets.all n complete) ∧ (Subsets.all n complete).pending = [] :=
  (explored_start hn complete).run hn (Nat.le_refl _)

/-- The automaton on the sets that have been found. -/
def automaton (n : Nfa σ) (t : Subsets σ) : Dfa σ :=
  { marks := t.found.map n.subsetMark
    alphabet := n.alphabet
    edges := Ascending.ofList t.edges
    start := 0 }

omit [DecidableEq σ] in
theorem stateCount_automaton : (t.automaton n).stateCount = t.found.length := List.length_map _

omit [DecidableEq σ] in
theorem mem_edges_automaton [Std.LawfulEqOrd σ] {e : Edge σ} :
    e ∈ (t.automaton n).edges ↔ e ∈ t.edges := Ascending.mem_ofList

/-- The automaton is well formed all along. -/
theorem Sound.wellFormed_automaton [Std.TransOrd σ] [Std.LawfulEqOrd σ] (hn : n.WellFormed)
    (h : Sound n t) (hpos : 0 < t.found.length) : (t.automaton n).WellFormed where
  start_lt := by rwa [stateCount_automaton]
  source_lt p a q he := by
    rcases h.edge _ _ _ (mem_edges_automaton.1 he) with ⟨-, s, hs, -⟩
    rw [stateCount_automaton]
    exact (List.getElem?_eq_some_iff.1 hs).1
  target_lt p a q he := by
    rcases h.edge _ _ _ (mem_edges_automaton.1 he) with ⟨-, s, -, hnext⟩
    rw [stateCount_automaton]
    exact (List.getElem?_eq_some_iff.1 hnext).1
  letter_mem p a q he := (h.edge _ _ _ (mem_edges_automaton.1 he)).1
  deterministic p a q r he hf := by
    -- a set has only one number
    rcases h.edge _ _ _ (mem_edges_automaton.1 he) with ⟨-, s, hs, hq⟩
    rcases h.edge _ _ _ (mem_edges_automaton.1 hf) with ⟨-, s', hs', hr⟩
    rw [hs] at hs'
    rw [← Option.some.inj hs'] at hr
    have hlt := (List.getElem?_eq_some_iff.1 hq).1
    exact (List.getElem?_inj hlt h.nodup).1 (hq.trans hr.symm)
  alphabet_ascending := hn.alphabet_ascending
  edges_ascending := Ascending.isAscending_ofList _

end Searching

end Subsets

/-! ## The automaton on the sets -/

namespace Nfa

variable [Ord σ] [DecidableEq σ] {n : Nfa σ} {complete : Bool}

theorem getElem?_marks_toDfa {i : State} {s : List State}
    (h : (Subsets.all n complete).found[i]? = some s) :
    (n.toDfa complete).marks[i]? = some (n.subsetMark s) := by
  show ((Subsets.all n complete).found.map n.subsetMark)[i]? = _
  rw [List.getElem?_map, h]
  rfl

-- The set of states with a number.
theorem isFinal_toDfa {i : State} {s : List State}
    (h : (Subsets.all n complete).found[i]? = some s) :
    (n.toDfa complete).isFinal i = n.isAcceptingSet s := by
  unfold Dfa.isFinal
  rw [getElem?_marks_toDfa h]
  unfold subsetMark
  by_cases hs : n.isAcceptingSet s = true
  · rw [if_pos hs, hs]
    rfl
  · rw [if_neg hs, Bool.eq_false_of_not_eq_true hs]
    split <;> rfl

/-- Only the empty set is marked as a trap. -/
theorem isTrap_toDfa_iff {i : State} {s : List State}
    (h : (Subsets.all n complete).found[i]? = some s) :
    (n.toDfa complete).isTrap i = true ↔ s = [] := by
  unfold Dfa.isTrap
  rw [getElem?_marks_toDfa h, decide_eq_true_iff, Option.some.injEq]
  unfold subsetMark
  cases s with
  | nil => exact iff_of_true rfl rfl
  | cons q s =>
    refine iff_of_false ?_ (by simp)
    split <;> simp

variable [Std.TransOrd σ] [Std.LawfulEqOrd σ]

omit [Std.TransOrd σ] in
theorem mem_edges_toDfa {e : Edge σ} :
    e ∈ (n.toDfa complete).edges ↔ e ∈ (Subsets.all n complete).edges := Ascending.mem_ofList

/-- Subset construction makes a well-formed automaton. -/
theorem WellFormed.toDfa (hn : n.WellFormed) (complete : Bool) :
    (n.toDfa complete).WellFormed := by
  have hall := (Subsets.explored_all hn complete).1
  exact hall.sound.wellFormed_automaton hn (List.getElem?_eq_some_iff.1 hall.initial).1

/-- Without a transition the letter leads to the empty set, which has been left out unless the
letter is not in the alphabet. -/
theorem WellFormed.step_eq_nil_of_successor (hn : n.WellFormed) {i : State} {s : List State}
    {a : σ} (hs : (Subsets.all n complete).found[i]? = some s)
    (hnext : (n.toDfa complete).successor i a = none) :
    n.step s a = [] ∧ (a ∈ n.alphabet → complete = false) := by
  have hall := Subsets.explored_all hn complete
  by_cases ha : a ∈ n.alphabet
  · rcases hall.1.followed i s hs with hpending | hfollowed
    · rw [hall.2] at hpending
      cases hpending
    · rcases hfollowed a ha with ⟨hc, hnil⟩ | ⟨j, -, he⟩
      · exact ⟨hnil, fun _ => hc⟩
      · have hsome := (Dfa.successor_eq_some_iff (hn.toDfa complete).deterministic).2
          (mem_edges_toDfa.2 he)
        rw [hnext] at hsome
        cases hsome
  · exact ⟨hn.step_eq_nil ha, fun hmem => absurd hmem ha⟩

omit [Std.TransOrd σ] in
/-- A transition leads to the set that its letter leads to. -/
theorem WellFormed.found_of_successor (hn : n.WellFormed) {i j : State} {s : List State} {a : σ}
    (hs : (Subsets.all n complete).found[i]? = some s)
    (hnext : (n.toDfa complete).successor i a = some j) :
    (Subsets.all n complete).found[j]? = some (n.step s a) := by
  have he := mem_edges_toDfa.1 (Dfa.mem_edges_of_successor hnext)
  rcases (Subsets.explored_all hn complete).1.sound.edge _ _ _ he with ⟨-, s', hs', hj⟩
  rw [hs] at hs'
  rwa [Option.some.inj hs']

-- Reading a word from a numbered set is reading it in the nondeterministic automaton.
theorem WellFormed.acceptsFrom_toDfa (hn : n.WellFormed) {i : State} {s : List State}
    (hs : (Subsets.all n complete).found[i]? = some s) (w : List σ) :
    (n.toDfa complete).acceptsFrom i w = n.isAcceptingSet (w.foldl n.step s) := by
  induction w generalizing i s with
  | nil => exact isFinal_toDfa hs
  | cons a w ih =>
    rw [List.foldl_cons]
    cases hnext : (n.toDfa complete).successor i a with
    | some j =>
      rw [Dfa.acceptsFrom_cons_of_some hnext]
      exact ih (hn.found_of_successor hs hnext)
    | none =>
      rw [Dfa.acceptsFrom_cons_of_none hnext, (hn.step_eq_nil_of_successor hs hnext).1,
        foldl_step_nil]
      rfl

/-- The deterministic automaton accepts the same words. -/
theorem WellFormed.accepts_toDfa (hn : n.WellFormed) (complete : Bool) (w : List σ) :
    (n.toDfa complete).accepts w = n.accepts w :=
  hn.acceptsFrom_toDfa (Subsets.explored_all hn complete).1.initial w

end Nfa

end Kleene
