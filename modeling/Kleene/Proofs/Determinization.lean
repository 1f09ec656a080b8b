import Kleene.Proofs.Changes
import Kleene.Proofs.Runs
import Kleene.Proofs.SubsetConstruction

/-!
# Determinization

The checked form of subset construction builds its automaton state by state while the search goes
on.  The two go hand in hand: at any time the automaton is the one on the sets that have been found,
so a number that is looked up is there, and a transition that is added contradicts no other.  A word
leads to the state of the set that it leads to in the nondeterministic automaton.
-/

namespace Kleene

variable {σ : Type} [Ord σ] [DecidableEq σ] {n : Nfa σ} {complete : Bool}

/-! ## The automaton in the making -/

namespace Draft

variable {t : Subsets σ} {u : Draft σ} {i j : State} {a : σ} {s : List State}

/-- Each set is listed under its number. -/
def Numbered (numbers : List (List State × State)) (found : List (List State)) : Prop :=
  ∀ s i, numbers.lookup s = some i ↔ found[i]? = some s

theorem numbered_nil : Numbered [] [] := fun _ _ => by simp

/-- A set that is new gets the next number. -/
theorem Numbered.cons {numbers : List (List State × State)} {found : List (List State)}
    (h : Numbered numbers found) (hnew : s ∉ found) :
    Numbered ((s, found.length) :: numbers) (found ++ [s]) := by
  intro x (k : Nat)
  by_cases hk : k < found.length
  · -- an older number
    rw [List.getElem?_append_left hk, ← h]
    by_cases hx : x = s
    · have hnone : numbers.lookup s ≠ some k := fun hlookup =>
        hnew (List.mem_of_getElem? ((h _ _).1 hlookup))
      rw [hx, List.lookup_cons_self, Option.some.injEq]
      exact iff_of_false (Nat.ne_of_gt hk) hnone
    · rw [List.lookup_cons, beq_false_of_ne hx]
  · rw [List.getElem?_append_right (Nat.not_lt.1 hk)]
    by_cases hx : x = s
    · rw [hx, List.lookup_cons_self, Option.some.injEq, List.getElem?_singleton]
      have hplace : found.length = k ↔ k - found.length = 0 := by omega
      split
      · exact iff_of_true (hplace.2 ‹_›) rfl
      · exact iff_of_false (mt hplace.1 ‹_›) (by simp)
    · have hnone : numbers.lookup x ≠ some k := fun hlookup =>
        hk (List.getElem?_eq_some_iff.1 ((h _ _).1 hlookup)).1
      rw [List.lookup_cons, beq_false_of_ne hx, List.getElem?_singleton]
      refine iff_of_false hnone ?_
      split
      · exact fun heq => hx (Option.some.inj heq).symm
      · simp

/-- The draft has found the same sets as the search, and its automaton is the one on them. -/
structure Matches (n : Nfa σ) (t : Subsets σ) (u : Draft σ) : Prop where
  found : u.found = t.found
  numbers : Numbered u.numbers t.found
  pending : u.pending = t.pending.map Prod.fst
  dfa : u.dfa = t.automaton n

variable [Std.TransOrd σ] [Std.LawfulEqOrd σ]

omit [DecidableEq σ] in
/-- A transition on a letter of the alphabet is all that drawing it adds. -/
theorem automaton_cons (hn : n.WellFormed) (ha : a ∈ n.alphabet) :
    Subsets.automaton n { t with edges := ⟨i, a, j⟩ :: t.edges } =
      (t.automaton n).addEdges [⟨i, a, j⟩] := by
  unfold Subsets.automaton Dfa.addEdges
  congr 1
  exact (Ascending.insert_eq_self hn.alphabet_ascending ha).symm

omit [DecidableEq σ] [Std.TransOrd σ] [Std.LawfulEqOrd σ] in
theorem automaton_concat (pending : List (State × List State)) :
    Subsets.automaton n { t with found := t.found ++ [s], pending := pending } =
      (t.automaton n).addState (n.subsetMark s) := by
  unfold Subsets.automaton Dfa.addState
  rw [List.map_append]
  rfl

variable [Quotable σ]

/-- A transition to a set that has been found. -/
theorem Matches.visit?_of_found (hn : n.WellFormed) (h : Matches n t u) (ha : a ∈ n.alphabet)
    (hj : t.found[j]? = some s)
    (hadd : (t.automaton n).addEdge? ⟨i, a, j⟩ = .ok ((t.automaton n).addEdges [⟨i, a, j⟩])) :
    ∃ u', u.visit? .unlimited n i a s = .ok u' ∧ Matches n { t with edges := ⟨i, a, j⟩ :: t.edges } u' := by
  refine ⟨{ u with dfa := (t.automaton n).addEdges [⟨i, a, j⟩] }, ?_,
    h.found, h.numbers, h.pending, (automaton_cons hn ha).symm⟩
  unfold Draft.visit?
  rw [(h.numbers _ _).2 hj]
  show (do let dfa ← u.dfa.addEdge? ⟨i, a, j⟩; return { u with dfa := dfa }) = _
  rw [h.dfa, hadd]
  rfl

/-- A transition to a new set, whose state is added first. -/
theorem Matches.visit?_of_not_found (hn : n.WellFormed) (h : Matches n t u) (ha : a ∈ n.alphabet)
    (hnew : s ∉ t.found)
    (hadd : ((t.automaton n).addState (n.subsetMark s)).addEdge? ⟨i, a, t.found.length⟩ =
      .ok (((t.automaton n).addState (n.subsetMark s)).addEdges [⟨i, a, t.found.length⟩])) :
    ∃ u', u.visit? .unlimited n i a s = .ok u' ∧ Matches n
      ⟨t.found ++ [s], (t.found.length, s) :: t.pending, ⟨i, a, t.found.length⟩ :: t.edges⟩ u' := by
  have hcount : u.dfa.stateCount = t.found.length := by rw [h.dfa, Subsets.stateCount_automaton]
  have hlookup : u.numbers.lookup s = none := by
    cases hk : u.numbers.lookup s with
    | none => rfl
    | some k => exact absurd (List.mem_of_getElem? ((h.numbers _ _).1 hk)) hnew
  refine ⟨⟨t.found ++ [s], (s, t.found.length) :: u.numbers, t.found.length :: u.pending,
    ((t.automaton n).addState (n.subsetMark s)).addEdges [⟨i, a, t.found.length⟩]⟩, ?_,
    rfl, h.numbers.cons hnew, congrArg (t.found.length :: ·) h.pending, ?_⟩
  · unfold Draft.visit?
    rw [hlookup]
    show (do
      let dfa ← (u.dfa.addState (n.subsetMark s)).addEdge? ⟨i, a, u.dfa.stateCount⟩
      return (⟨u.found ++ [s], (s, u.dfa.stateCount) :: u.numbers, u.dfa.stateCount :: u.pending,
        dfa⟩ : Draft σ)) = _
    rw [hcount, h.found, h.dfa, hadd]
    rfl
  · rw [← automaton_concat ((t.found.length, s) :: t.pending)]
    exact (automaton_cons hn ha).symm

/-- Following a letter succeeds, and what is found and built still matches. -/
theorem Matches.visit? (hn : n.WellFormed) (hsound : Subsets.Sound n t) (h : Matches n t u)
    (hs : t.found[i]? = some s) (ha : a ∈ n.alphabet) :
    ∃ u', u.visit? .unlimited n i a (n.step s a) = .ok u' ∧
      Matches n (t.visit i a (n.step s a)) u' := by
  have hlt := (List.getElem?_eq_some_iff.1 hs).1
  have hbefore := hsound.wellFormed_automaton hn (Nat.zero_lt_of_lt hlt)
  have hgrows := Subsets.grows_visit i a (n.step s a) t
  have hafter := (hsound.visit hn.toWired hs ha).wellFormed_automaton hn
    (Nat.zero_lt_of_lt (List.getElem?_eq_some_iff.1 (hgrows.found _ _ hs)).1)
  -- a transition that is there leads to the same set, which has only one number
  have hone : ∀ j, ⟨i, a, j⟩ ∈ (t.visit i a (n.step s a)).edges → ∀ r,
      (t.automaton n).successor i a = some r → j = r := fun j hj r hr =>
    hafter.deterministic i a j r (Subsets.mem_edges_automaton.2 hj)
      (Subsets.mem_edges_automaton.2 (hgrows.edges _
        (Subsets.mem_edges_automaton.1 (Dfa.mem_edges_of_successor hr))))
  rw [← Subsets.stateCount_automaton (n := n)] at hlt
  unfold Subsets.visit at hone ⊢
  cases hidx : t.found.idxOf? (n.step s a) with
  | some j =>
    rw [hidx] at hone
    have hj := Subsets.getElem?_of_idxOf? hidx
    have hjlt := (List.getElem?_eq_some_iff.1 hj).1
    rw [← Subsets.stateCount_automaton (n := n)] at hjlt
    exact h.visit?_of_found hn ha hj
      (hbefore.addEdge?_eq_ok hlt hjlt (hone j List.mem_cons_self))
  | none =>
    rw [hidx] at hone
    refine h.visit?_of_not_found hn ha (List.idxOf?_eq_none_iff.1 hidx)
      ((hbefore.addState _).addEdge?_eq_ok ?_ ?_ (hone _ List.mem_cons_self))
    · rw [Dfa.stateCount_addState]
      exact Nat.lt_succ_of_lt hlt
    · rw [Dfa.stateCount_addState, Subsets.stateCount_automaton]
      exact Nat.lt_succ_self _

/-- What following the letters from a set keeps. -/
structure Expands (n : Nfa σ) (i : State) (s : List State) (t : Subsets σ) (u : Draft σ) :
    Prop where
  sound : Subsets.Sound n t
  source : t.found[i]? = some s
  matching : Matches n t u

/-- Looking at a state succeeds: it stands for the set that the search looks at. -/
theorem Matches.expand? (hn : n.WellFormed) (hsound : Subsets.Sound n t) (h : Matches n t u)
    (hs : t.found[i]? = some s) (complete : Bool) :
    ∃ u', expand? .unlimited n complete i u = .ok u' ∧ Matches n (Subsets.expand n complete i s t) u' := by
  unfold Draft.expand?
  rw [h.found, hs]
  have hstep : ∀ t u, Expands n i s t u → ∀ a ∈ n.alphabet, ∃ u',
      (if (n.step s a).isEmpty && !complete then .ok u else u.visit? .unlimited n i a (n.step s a)) = .ok u' ∧
        Expands n i s
          (if (n.step s a).isEmpty && !complete then t else t.visit i a (n.step s a)) u' := by
    intro t u h a ha
    by_cases hskip : ((n.step s a).isEmpty && !complete) = true
    · rw [if_pos hskip, if_pos hskip]
      exact ⟨u, rfl, h⟩
    · rw [if_neg hskip, if_neg hskip]
      obtain ⟨u', hu, hmatches⟩ := h.matching.visit? hn h.sound h.source ha
      exact ⟨u', hu, h.sound.visit hn.toWired h.source ha,
        (Subsets.grows_visit i a (n.step s a) t).found _ _ h.source, hmatches⟩
  obtain ⟨u', hfold, hend⟩ := exists_foldlM_eq_ok hstep ⟨hsound, hs, h⟩
  exact ⟨u', hfold, hend.matching⟩

/-- With as many rounds as there are subsets, the search comes to its end. -/
theorem Matches.run? (hn : n.WellFormed) (hexplored : Subsets.Explored n complete t)
    (h : Matches n t u) {rounds : Nat}
    (hrounds : 2 ^ n.states.length + t.pending.length ≤ rounds + t.found.length) :
    ∃ u', run? .unlimited n complete rounds u = .ok (some u') ∧
      Matches n (Subsets.run n complete rounds t) u' := by
  induction rounds generalizing t u with
  | zero =>
    have hle := hexplored.sound.length_le hn
    have hzero : t.pending.length = 0 := by omega
    have hpending : u.pending = [] := by rw [h.pending, List.length_eq_zero_iff.1 hzero]; rfl
    refine ⟨u, ?_, h⟩
    unfold Draft.run?
    rw [hpending]
    rfl
  | succ rounds ih =>
    unfold Draft.run? Subsets.run
    cases hpending : t.pending with
    | nil =>
      rw [h.pending, hpending]
      exact ⟨u, rfl, h⟩
    | cons next rest =>
      obtain ⟨i, s⟩ := next
      obtain ⟨hs, hsound⟩ := hexplored.sound.take hpending
      have htaken : Matches n { t with pending := rest } { u with pending := rest.map Prod.fst } :=
        ⟨h.found, h.numbers, rfl, h.dfa⟩
      obtain ⟨u', hu, hmatches⟩ := htaken.expand? hn hsound hs complete
      obtain ⟨hnext, hcount⟩ := hexplored.expand hn.toWired hpending
      rw [h.pending, hpending]
      show ∃ u', (do
        let u ← Draft.expand? .unlimited n complete i { u with pending := rest.map Prod.fst }
        Draft.run? .unlimited n complete rounds u) = _ ∧ _
      rw [hu]
      exact ih hnext hmatches (by omega)

end Draft

namespace Nfa

variable [Std.TransOrd σ] [Std.LawfulEqOrd σ]

omit [DecidableEq σ] in
/-- The state for the start's set is marked like any other. -/
theorem WellFormed.setAccepting?_single (hn : n.WellFormed) :
    (Dfa.single n.alphabet).setAccepting? 0 (n.isAcceptingSet n.initial) =
      .ok (Subsets.automaton n ⟨[n.initial], [(0, n.initial)], []⟩) := by
  have hmark : n.subsetMark n.initial = .ofAccepting (n.isAcceptingSet n.initial) := by
    -- the start is in the set, so this is no trap
    have hstart : n.start ∈ n.initial := mem_closure.2 (.refl _)
    have hne : ¬n.initial.isEmpty = true := by
      rw [List.isEmpty_iff]
      exact List.ne_nil_of_mem hstart
    unfold subsetMark Mark.ofAccepting
    rw [if_neg hne]
  have halphabet := Ascending.ofList_eq_self hn.alphabet_ascending
  unfold Subsets.automaton Dfa.single
  rw [halphabet, List.map_singleton, hmark]
  cases n.isAcceptingSet n.initial <;> rfl

/-- The checked form ends, and with what the unchecked one computes. -/
theorem WellFormed.toDfa?_eq_ok [Quotable σ] (hn : n.WellFormed) (complete : Bool) :
    n.toDfa? complete = .ok (some (n.toDfa complete)) := by
  have hstart : Draft.Matches n ⟨[n.initial], [(0, n.initial)], []⟩
      ⟨[n.initial], [(n.initial, 0)], [0],
        Subsets.automaton n ⟨[n.initial], [(0, n.initial)], []⟩⟩ := by
    exact ⟨rfl, Draft.numbered_nil.cons List.not_mem_nil, rfl, rfl⟩
  have hrounds : 2 ^ n.states.length + 1 ≤ Nat.pow 2 n.states.length + 1 := Nat.le_refl _
  obtain ⟨u, hrun, hmatches⟩ := hstart.run? hn (Subsets.explored_start hn complete) hrounds
  unfold toDfa? toDfaWithin?
  rw [hn.setAccepting?_single]
  show (do
    let u ← Draft.run? .unlimited n complete (Nat.pow 2 n.states.length) _
    return u.map Draft.dfa) = _
  rw [hrun]
  exact congrArg (Except.ok ∘ some) hmatches.dfa

/-! ## States and sets of active states -/

omit [Std.TransOrd σ] in
/-- A word that the automaton reads leads to the state of the set of active states. -/
theorem WellFormed.found_of_run (hn : n.WellFormed) {w : List σ} {i : State}
    (h : (n.toDfa complete).run 0 w = some i) :
    (Subsets.all n complete).found[i]? = some (n.active w) := by
  induction w using List.reverseRecOn generalizing i with
  | nil =>
    rw [← Option.some.inj (Dfa.run_nil.symm.trans h)]
    exact (Subsets.explored_all hn complete).1.initial
  | append_singleton w a ih =>
    obtain ⟨j, hj, hnext⟩ := Dfa.run_concat_eq_some_iff.1 h
    unfold active
    rw [List.foldl_append]
    exact hn.found_of_successor (ih hj) hnext

omit [Std.TransOrd σ] in
theorem WellFormed.run_eq_run_iff (hn : n.WellFormed) {u v : List σ} {p q : State}
    (hp : (n.toDfa complete).run 0 u = some p) (hq : (n.toDfa complete).run 0 v = some q) :
    p = q ↔ n.active u = n.active v := by
  have hu := hn.found_of_run hp
  have hv := hn.found_of_run hq
  constructor
  · rintro rfl
    exact Option.some.inj (hu.symm.trans hv)
  · intro hsame
    have hnodup := (Subsets.explored_all hn complete).1.sound.nodup
    rw [← hsame] at hv
    exact (List.getElem?_inj (List.getElem?_eq_some_iff.1 hu).1 hnodup).1 (hu.trans hv.symm)

theorem WellFormed.active_eq_nil_of_run (hn : n.WellFormed) {w : List σ}
    (h : (n.toDfa complete).run 0 w = none) : n.active w = [] := by
  induction w using List.reverseRecOn with
  | nil => cases h
  | append_singleton w a ih =>
    unfold active at ih ⊢
    rw [List.foldl_append]
    cases hw : (n.toDfa complete).run 0 w with
    | none =>
      rw [ih hw]
      exact foldl_step_nil [a]
    | some i =>
      rw [Dfa.run_append, hw] at h
      have hnext : (n.toDfa complete).successor i a = none := by
        rw [← Dfa.run_singleton]
        exact h
      exact (hn.step_eq_nil_of_successor (hn.found_of_run hw) hnext).1

/-- Unless the automaton is to be complete, the words that it cannot read are those after which no
state is active. -/
theorem WellFormed.run_eq_none_iff (hn : n.WellFormed) {w : List σ} :
    (n.toDfa false).run 0 w = none ↔ n.active w = [] := by
  refine ⟨hn.active_eq_nil_of_run, fun hnil => ?_⟩
  cases hw : (n.toDfa false).run 0 w with
  | none => rfl
  | some i =>
    have hfound := hn.found_of_run hw
    rw [hnil] at hfound
    exact absurd (List.mem_of_getElem? hfound) ((Subsets.explored_all hn false).1.kept rfl)

theorem WellFormed.exists_run_toDfa (hn : n.WellFormed) {q : State}
    (hq : q < (n.toDfa complete).stateCount) : ∃ w, (n.toDfa complete).run 0 w = some q := by
  have hall := (Subsets.explored_all hn complete).1
  have hq' : q < (Subsets.all n complete).found.length := by
    rwa [← Subsets.stateCount_automaton (n := n)]
  refine (Dfa.reaches_iff_exists_run (hn.toDfa complete).deterministic).1 ?_
  refine (hall.sound.reached q hq').mono fun e he => ?_
  obtain ⟨edge, hedge, rfl⟩ := List.mem_map.1 he
  exact List.mem_map.2 ⟨edge, mem_edges_toDfa.2 hedge, rfl⟩

theorem WellFormed.isComplete_toDfa (hn : n.WellFormed) : (n.toDfa true).isComplete = true := by
  have hall := (Subsets.explored_all hn true).1
  refine (hn.toDfa true).isComplete_iff.2 fun q hq a ha => ?_
  have hq' : q < (Subsets.all n true).found.length := by
    rwa [← Subsets.stateCount_automaton (n := n)]
  cases hnext : (n.toDfa true).successor q a with
  | some r => exact ⟨r, rfl⟩
  | none =>
    have hfalse := (hn.step_eq_nil_of_successor (List.getElem?_eq_getElem hq') hnext).2 ha
    cases hfalse

omit [Std.TransOrd σ] [Std.LawfulEqOrd σ] in
theorem WellFormed.stateCount_toDfa_le (hn : n.WellFormed) :
    (n.toDfa complete).stateCount ≤ 2 ^ n.states.length := by
  have hall := (Subsets.explored_all hn complete).1
  have hcount : (n.toDfa complete).stateCount = (Subsets.all n complete).found.length :=
    Subsets.stateCount_automaton
  rw [hcount]
  exact hall.sound.length_le hn

/-- The automaton has no more states than there are sets of states, accepts the same words, and its
states, which all are reached, stand for the sets of active states.  It is complete, or else reads a
word unless no state is active after it. -/
theorem WellFormed.toDfa_spec (hn : n.WellFormed) (complete : Bool) :
    (n.toDfa complete).stateCount ≤ 2 ^ n.states.length ∧
    (∀ w, (n.toDfa complete).accepts w = n.accepts w) ∧
    (∀ u v p q, (n.toDfa complete).run (n.toDfa complete).start u = some p →
      (n.toDfa complete).run (n.toDfa complete).start v = some q →
      (p = q ↔ n.active u = n.active v)) ∧
    (n.toDfa complete).start = 0 ∧
    (∀ q < (n.toDfa complete).stateCount, ∃ w, (n.toDfa complete).run 0 w = some q) ∧
    (complete = true → (n.toDfa complete).isComplete = true) ∧
    (complete = false → ∀ w, (n.toDfa complete).run 0 w = none ↔ n.active w = []) := by
  refine ⟨hn.stateCount_toDfa_le, hn.accepts_toDfa complete,
    fun u v p q hp hq => hn.run_eq_run_iff hp hq, rfl, fun q hq => hn.exists_run_toDfa hq, ?_, ?_⟩
  · rintro rfl
    exact hn.isComplete_toDfa
  · rintro rfl w
    exact hn.run_eq_none_iff

/-- A letter after another, any number of times. -/
def pairs : Nfa Char := (concat (literal 'a') (literal 'b')).star

theorem wellFormed_pairs : pairs.WellFormed :=
  wellFormed_star (wellFormed_concat (wellFormed_literal 'a') (wellFormed_literal 'b'))

end Nfa

end Kleene
