import Kleene.Proofs.NfaChanges

/-!
# Simulation and paths

A path is a list of transitions in a row, and it spells the letters on them.  One step of the
simulation goes along exactly the paths that spell one letter, so after any word the simulation has
the states that paths spelling the word lead to.  Letters outside the alphabet are on no path, and
when no state is left no longer path can be.
-/

namespace Kleene.Nfa

variable {σ : Type} {n : Nfa σ} {p q : State} {a : σ} {w : List σ} {s : List State}
variable {es : List (Edge (Label σ))}

/-- The transitions lead one after the other from the first state to the second. -/
inductive Walk (n : Nfa σ) : State → List (Edge (Label σ)) → State → Prop
  | nil (p : State) : Walk n p [] p
  | cons {p r q : State} {l : Label σ} {es : List (Edge (Label σ))} :
      ⟨p, l, r⟩ ∈ n.edges → Walk n r es q → Walk n p (⟨p, l, r⟩ :: es) q

/-! ## Words along paths -/

/-- A path spells the letters on its transitions. -/
theorem Walk.spells (h : n.Walk p es q) : n.Spells p q (letters es) := by
  induction h with
  | nil p => exact .nil p
  | @cons p r q l es he _ ih =>
    cases l with
    | symbol a => exact (Spells.of_symbol he).append ih
    | epsilon => exact (Spells.of_epsilon he).append ih

theorem Spells.exists_walk (h : n.Spells p q w) : ∃ es, n.Walk p es q ∧ letters es = w := by
  induction h with
  | nil p => exact ⟨[], .nil p, rfl⟩
  | @cons p r q l u v he hl _ ih =>
    obtain ⟨es, hwalk, rfl⟩ := ih
    refine ⟨⟨p, l, r⟩ :: es, .cons he hwalk, ?_⟩
    cases l with
    | symbol a =>
      rw [Label.mem_language_symbol.1 hl]
      rfl
    | epsilon =>
      rw [Label.mem_language_epsilon.1 hl]
      rfl

theorem spells_iff_exists_walk : n.Spells p q w ↔ ∃ es, n.Walk p es q ∧ letters es = w := by
  constructor
  · exact Spells.exists_walk
  · rintro ⟨es, hwalk, rfl⟩
    exact hwalk.spells

/-! ## Letter by letter -/

section Reading

variable [DecidableEq σ]

theorem mem_targets {l : Label σ} : q ∈ n.targets p l ↔ ⟨p, l, q⟩ ∈ n.edges := by
  unfold targets
  rw [List.mem_map]
  constructor
  · rintro ⟨⟨p', l', q'⟩, he, rfl⟩
    obtain ⟨hedge, hends⟩ := List.mem_filter.1 he
    simp only [Bool.and_eq_true, decide_eq_true_eq] at hends
    obtain ⟨rfl, rfl⟩ := hends
    exact hedge
  · intro he
    exact ⟨_, List.mem_filter.2 ⟨he, by simp⟩, rfl⟩

variable [Ord σ] [Std.TransOrd σ] [Std.LawfulEqOrd σ]

/-- One letter leads along the paths that spell it. -/
theorem WellFormed.mem_afterLetter (hn : n.WellFormed) :
    q ∈ n.afterLetter p a ↔ n.Spells p q [a] := by
  unfold afterLetter
  rw [spells_singleton_iff]
  by_cases ha : a ∈ n.alphabet
  · rw [if_pos ((Ascending.search_iff_mem hn.alphabet_ascending).2 ha), Ascending.mem_ofList]
    simp only [List.mem_flatMap, mem_closure, mem_targets, spells_nil_iff]
    constructor
    · rintro ⟨t, ⟨s, hs, he⟩, ht⟩
      exact ⟨s, t, hs, he, ht⟩
    · rintro ⟨s, t, hs, he, ht⟩
      exact ⟨t, ⟨s, hs, he⟩, ht⟩
  · -- no transition is on this letter
    rw [if_neg (mt (Ascending.search_iff_mem hn.alphabet_ascending).1 ha)]
    refine iff_of_false List.not_mem_nil ?_
    rintro ⟨s, t, -, he, -⟩
    exact ha (hn.letter_mem _ _ _ he)

theorem WellFormed.mem_afterLetterAll (hn : n.WellFormed) :
    q ∈ n.afterLetterAll s a ↔ ∃ p ∈ s, n.Spells p q [a] := by
  unfold afterLetterAll
  simp only [Ascending.mem_ofList, List.mem_flatMap, hn.mem_afterLetter]

/-- With every state its ε-transitions lead to no others. -/
def Closed (n : Nfa σ) (s : List State) : Prop := ∀ p ∈ s, ∀ q, n.Spells p q [] → q ∈ s

omit [DecidableEq σ] [Ord σ] [Std.TransOrd σ] [Std.LawfulEqOrd σ] in
theorem closed_initial : n.Closed n.initial := by
  intro p hp q hq
  have hstart : n.Spells n.start p [] := spells_nil_iff.2 (mem_closure.1 hp)
  exact mem_closure.2 (spells_nil_iff.1 (hstart.append hq))

theorem WellFormed.closed_afterLetterAll (hn : n.WellFormed) : n.Closed (n.afterLetterAll s a) := by
  intro q hq r hr
  obtain ⟨p, hp, hpq⟩ := hn.mem_afterLetterAll.1 hq
  exact hn.mem_afterLetterAll.2 ⟨p, hp, hpq.append hr⟩

/-- Reading finds exactly the paths to the final state, although it stops when no state is
left. -/
theorem WellFormed.simulateFrom_iff (hn : n.WellFormed) (hs : n.Closed s) :
    n.simulateFrom s w = true ↔ ∃ p ∈ s, n.Spells p n.final w := by
  induction w generalizing s with
  | nil =>
    unfold simulateFrom isAcceptingSet
    rw [decide_eq_true_iff]
    constructor
    · intro hfinal
      exact ⟨n.final, hfinal, .nil _⟩
    · rintro ⟨p, hp, hpath⟩
      exact hs p hp _ hpath
  | cons a w ih =>
    -- a path is cut behind its first letter
    have hcut : (∃ p ∈ s, n.Spells p n.final (a :: w)) ↔
        ∃ q ∈ n.afterLetterAll s a, n.Spells q n.final w := by
      constructor
      · rintro ⟨p, hp, hpath⟩
        obtain ⟨q, hpq, hqw⟩ := spells_append_iff.1 (show n.Spells p n.final ([a] ++ w) from hpath)
        exact ⟨q, hn.mem_afterLetterAll.2 ⟨p, hp, hpq⟩, hqw⟩
      · rintro ⟨q, hq, hqw⟩
        obtain ⟨p, hp, hpq⟩ := hn.mem_afterLetterAll.1 hq
        exact ⟨p, hp, hpq.append hqw⟩
    rw [hcut, simulateFrom]
    split
    · rename_i hempty
      rw [List.isEmpty_iff.1 hempty]
      simp
    · exact ih hn.closed_afterLetterAll

theorem WellFormed.simulate_iff_spells (hn : n.WellFormed) :
    n.simulate w = true ↔ n.Spells n.start n.final w := by
  unfold simulate
  rw [hn.simulateFrom_iff closed_initial]
  constructor
  · rintro ⟨p, hp, hpath⟩
    have hstart : n.Spells n.start p [] := spells_nil_iff.2 (mem_closure.1 hp)
    exact hstart.append hpath
  · intro hpath
    exact ⟨n.start, mem_closure.2 (.refl _), hpath⟩

theorem WellFormed.simulate_eq_accepts (hn : n.WellFormed) (w : List σ) :
    n.simulate w = n.accepts w := by
  rw [Bool.eq_iff_iff, hn.simulate_iff_spells, mem_language, mem_language_iff]

/-- Reading a word, letters outside the alphabet among them, finds out whether some path from the
start to the final state, with any number of ε-transitions, spells it. -/
theorem WellFormed.accepts_iff_exists_walk (hn : n.WellFormed) (w : List σ) :
    n.simulate w = n.accepts w ∧
      (n.accepts w = true ↔ ∃ es, n.Walk n.start es n.final ∧ letters es = w) := by
  refine ⟨hn.simulate_eq_accepts w, ?_⟩
  rw [mem_language, mem_language_iff, spells_iff_exists_walk]

/-- Two states that lead to each other without a letter, and a final state with a loop that needs
no letter either. -/
def idleCycles : Nfa Char :=
  { states := [0, 1, 2], alphabet := ['a', 'b'], start := 0, final := 2, fresh := 3
    edges := [⟨0, .epsilon, 1⟩, ⟨1, .epsilon, 0⟩, ⟨1, .symbol 'a', 2⟩, ⟨2, .epsilon, 2⟩] }

theorem wellFormed_idleCycles : idleCycles.WellFormed := wellFormed_of_ofParts
  (show ofParts ⟨[0, 1, 2], ['b'],
    [⟨0, .epsilon, 1⟩, ⟨1, .epsilon, 0⟩, ⟨1, .symbol 'a', 2⟩, ⟨2, .epsilon, 2⟩], 0, 2⟩ =
      .ok idleCycles from rfl)

/-- One letter is spelled along both cycles; no path spells another one behind it, be it in the
alphabet or not. -/
theorem accepts_iff_exists_walk_idleCycles : idleCycles.WellFormed ∧
    (∃ es, idleCycles.Walk 0 es 2 ∧ letters es = ['a']) ∧
      (¬∃ es, idleCycles.Walk 0 es 2 ∧ letters es = ['a', 'b']) ∧
        idleCycles.simulate ['a', 'z'] = false ∧
          ¬∃ es, idleCycles.Walk 0 es 2 ∧ letters es = ['a', 'z'] :=
  have hspec := wellFormed_idleCycles.accepts_iff_exists_walk
  have hnone : idleCycles.accepts ['a', 'z'] = false := by decide +kernel
  ⟨wellFormed_idleCycles, (hspec ['a']).2.1 (by decide +kernel),
    mt (hspec ['a', 'b']).2.2 (by decide +kernel), (hspec ['a', 'z']).1.trans hnone,
    mt (hspec ['a', 'z']).2.2 (by simp [hnone])⟩

end Reading

end Kleene.Nfa
