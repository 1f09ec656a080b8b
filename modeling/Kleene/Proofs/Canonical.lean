import Mathlib.Data.Fintype.Card
import Kleene.Proofs.Changes
import Kleene.Proofs.Distinguishing
import Kleene.Proofs.Renumbering

/-!
# The smallest automaton

A state of one automaton and one of another are partners if the same words are accepted from
them.  If the other automaton can always follow, every state that is reached has a partner; in a
reduced automaton it has at most one.  So a reduced automaton has no more states than any other
one that follows it, and two reduced automata that follow each other differ in the numbers of
their states only.
-/

namespace Kleene.Dfa

variable {σ : Type} [DecidableEq σ] {d e : Dfa σ} {p q p' q' : State} {a : σ} {w : List σ}

/-- A letter that leads somewhere from a state does so from its partners. -/
def Follows (d e : Dfa σ) : Prop :=
  ∀ p < d.stateCount, ∀ q < e.stateCount, AcceptSame d p e q →
    ∀ a p', d.successor p a = some p' → ∃ q', e.successor q a = some q'

/-- A renumbering of the states that keeps everything else. -/
structure Iso (d e : Dfa σ) where
  toEquiv : Fin d.stateCount ≃ Fin e.stateCount
  alphabet_eq : e.alphabet = d.alphabet
  start_iff : ∀ q, (toEquiv q : State) = e.start ↔ (q : State) = d.start
  isFinal_eq : ∀ q, e.isFinal (toEquiv q) = d.isFinal q
  isTrap_eq : ∀ q, e.isTrap (toEquiv q) = d.isTrap q
  mem_edges_iff : ∀ (p : Fin d.stateCount) (a : σ) (q : Fin d.stateCount),
    ⟨toEquiv p, a, toEquiv q⟩ ∈ e.edges ↔ ⟨(p : State), a, (q : State)⟩ ∈ d.edges

omit [DecidableEq σ] in
/-- Equal automata are isomorphic. -/
theorem nonempty_iso_of_eq (h : e = d) : Nonempty (Iso d e) := by
  subst h
  exact ⟨⟨Equiv.refl _, rfl, fun _ => Iff.rfl, fun _ => rfl, fun _ => rfl, fun _ _ _ => Iff.rfl⟩⟩

/-! ## Automata in which all states are reached -/

section Reached

variable [Ord σ]

/-- A renumbering of all states that respects the marks is an isomorphism. -/
theorem Renumbering.nonempty_iso (f : Renumbering d e) (hd : d.WellFormed) (he : e.WellFormed)
    (hreached : ∀ p < d.stateCount, d.Reached p) (hreached' : ∀ q < e.stateCount, e.Reached q)
    (halphabet : e.alphabet = d.alphabet) (hlanguage : ∀ w, e.accepts w = d.accepts w)
    (htrap : ∀ w p q, d.run d.start w = some p → e.run e.start w = some q →
      e.isTrap q = d.isTrap p) : Nonempty (Iso d e) := by
  refine ⟨⟨(hd.reachedEquiv hreached).trans (f.toEquiv.trans (he.reachedEquiv hreached').symm),
    halphabet, fun q => f.start_iff _, fun q => f.isFinal_eq hlanguage _, fun q => ?_,
    fun p a q => ?_⟩⟩
  · obtain ⟨w, hw⟩ := hreached q q.isLt
    exact htrap w q _ hw ((f.run_iff w (hd.reachedEquiv hreached q)).2 hw)
  · rw [← successor_eq_some_iff he.deterministic, ← successor_eq_some_iff hd.deterministic]
    exact f.successor_iff (hd.reachedEquiv hreached p) (hd.reachedEquiv hreached q)

end Reached

/-! ## Automata that follow each other -/

section Following

variable [Ord σ]

/-- Words that are accepted from a state can be followed from its partners. -/
theorem WellFormed.follows_of_trim (hd : d.WellFormed) (htrim : d.Trim) : Follows d e := by
  intro p hp q hq hsame a p' hnext
  obtain ⟨w, hw⟩ := htrim p' (hd.successor_lt hnext)
  refine exists_successor_of_acceptsFrom (w := w) ?_
  rw [← hsame, acceptsFrom_cons_of_some hnext, hw]

variable [Std.TransOrd σ] [Std.LawfulEqOrd σ]

/-- A complete automaton follows all automata over its alphabet. -/
theorem WellFormed.follows_of_isComplete (hd : d.WellFormed) (he : e.WellFormed)
    (halphabet : e.alphabet = d.alphabet) (hc : e.isComplete = true) : Follows d e := by
  intro p hp q hq hsame a p' hnext
  have ha : a ∈ e.alphabet := halphabet ▸ hd.letter_mem_of_successor hnext
  exact he.exists_successor_of_isComplete hc hq ha

variable (hd : d.WellFormed) (he : e.WellFormed) (hfollows : Follows d e)
  (hlanguage : ∀ w, e.accepts w = d.accepts w)
include hd he hfollows hlanguage

omit [Std.TransOrd σ] [Std.LawfulEqOrd σ] in
/-- A state that a word leads to has a partner that the same word leads to. -/
theorem Follows.exists_run (hrun : d.run d.start w = some p) :
    ∃ q < e.stateCount, e.run e.start w = some q ∧ AcceptSame d p e q := by
  induction w using List.reverseRecOn generalizing p with
  | nil =>
    rw [← Option.some.inj (run_nil.symm.trans hrun)]
    exact ⟨e.start, he.start_lt, run_nil, fun w => (hlanguage w).symm⟩
  | append_singleton w a ih =>
    obtain ⟨m, hm, hnext⟩ := run_concat_eq_some_iff.1 hrun
    obtain ⟨q, hq, hrun', hsame⟩ := ih hm
    obtain ⟨q', hq'⟩ := hfollows m (hd.run_lt hd.start_lt hm) q hq hsame a p hnext
    exact ⟨q', he.successor_lt hq', run_concat_eq_some_iff.2 ⟨q, hrun', hq'⟩,
      hsame.successor hnext hq'⟩

omit [Std.TransOrd σ] [Std.LawfulEqOrd σ] in
theorem Follows.exists_partner (hreduced : d.Reduced) (p : Fin d.stateCount) :
    ∃ q : Fin e.stateCount, AcceptSame d p e q := by
  obtain ⟨w, hw⟩ := hreduced.reached p p.isLt
  obtain ⟨q, hq, -, hsame⟩ := hfollows.exists_run hd he hlanguage hw
  exact ⟨⟨q, hq⟩, hsame⟩

omit [Std.TransOrd σ] [Std.LawfulEqOrd σ] in
/-- A reduced automaton has no more states than one that follows it. -/
theorem Follows.stateCount_le (hreduced : d.Reduced) : d.stateCount ≤ e.stateCount := by
  choose f hf using hfollows.exists_partner hd he hlanguage hreduced
  have hinjective : Function.Injective f := by
    intro p q hpq
    refine Fin.ext (hreduced.separated p p.isLt q q.isLt fun w => ?_)
    rw [hf p w, hf q w, hpq]
  simpa only [Fintype.card_fin] using Fintype.card_le_of_injective f hinjective

omit [Std.TransOrd σ] [Std.LawfulEqOrd σ] in
/-- In a reduced automaton a state has only one partner. -/
theorem Follows.tracks (hreduced : e.Reduced) : Tracks d e := by
  intro u v p hu hv
  obtain ⟨q, hq, hqu, hsame⟩ := hfollows.exists_run hd he hlanguage hu
  obtain ⟨r, hr, hrv, hsame'⟩ := hfollows.exists_run hd he hlanguage hv
  have hqr : q = r := hreduced.separated q hq r hr fun w => (hsame w).symm.trans (hsame' w)
  exact ⟨q, hqu, hqr ▸ hrv⟩

omit [Std.TransOrd σ] [Std.LawfulEqOrd σ] in
/-- Reduced automata that follow each other are isomorphic, if traps are marked alike. -/
theorem Follows.nonempty_iso (hback : Follows e d) (hreduced : d.Reduced) (hreduced' : e.Reduced)
    (halphabet : e.alphabet = d.alphabet)
    (htrap : ∀ p < d.stateCount, ∀ q < e.stateCount, AcceptSame d p e q →
      e.isTrap q = d.isTrap p) : Nonempty (Iso d e) := by
  have hsymm : ∀ w, d.accepts w = e.accepts w := fun w => (hlanguage w).symm
  obtain ⟨f⟩ := (hfollows.tracks hd he hlanguage hreduced').nonempty_renumbering
    (hback.tracks he hd hsymm hreduced)
  refine f.nonempty_iso hd he hreduced.reached hreduced'.reached halphabet hlanguage
    fun w p q hp hq => ?_
  obtain ⟨r, hr, hrun, hsame⟩ := hfollows.exists_run hd he hlanguage hp
  have hrq : r = q := Option.some.inj (hrun.symm.trans hq)
  exact htrap p (hd.run_lt hd.start_lt hp) q (hrq ▸ hr) (hrq ▸ hsame)

end Following

/-! ## Two automata for one language -/

/-- Two states that take turns on a letter, both of them accepting. -/
def turns (alphabet : List Char) : Dfa Char :=
  ⟨[.accepting, .accepting], alphabet, [⟨0, 'a', 1⟩, ⟨1, 'a', 0⟩], 0⟩

/-- One accepting state with a loop. -/
def selfLoop (alphabet : List Char) : Dfa Char := ⟨[.accepting], alphabet, [⟨0, 'a', 0⟩], 0⟩

theorem accepts_selfLoop (alphabet w : List Char) :
    (selfLoop alphabet).accepts w = w.all (· = 'a') := by
  show (selfLoop alphabet).acceptsFrom 0 w = _
  induction w with
  | nil => rfl
  | cons a w ih =>
    by_cases ha : a = 'a'
    · subst ha
      have hnext : (selfLoop alphabet).successor 0 'a' = some 0 := rfl
      rw [acceptsFrom_cons_of_some hnext, ih]
      rfl
    · have hnext : (selfLoop alphabet).successor 0 a = none := by
        simp [selfLoop, successor, edge?, Ne.symm ha]
      rw [acceptsFrom_cons_of_none hnext]
      simp [ha]

theorem accepts_turns (alphabet w : List Char) :
    (turns alphabet).accepts w = (selfLoop alphabet).accepts w := by
  have hfrom : (turns alphabet).acceptsFrom 0 w = w.all (· = 'a') ∧
      (turns alphabet).acceptsFrom 1 w = w.all (· = 'a') := by
    induction w with
    | nil => exact ⟨rfl, rfl⟩
    | cons a w ih =>
      by_cases ha : a = 'a'
      · subst ha
        have hzero : (turns alphabet).successor 0 'a' = some 1 := rfl
        have hone : (turns alphabet).successor 1 'a' = some 0 := rfl
        rw [acceptsFrom_cons_of_some hzero, acceptsFrom_cons_of_some hone]
        exact ih.symm
      · have hzero : (turns alphabet).successor 0 a = none := by
          simp [turns, successor, edge?, Ne.symm ha]
        have hone : (turns alphabet).successor 1 a = none := by
          simp [turns, successor, edge?, Ne.symm ha]
        rw [acceptsFrom_cons_of_none hzero, acceptsFrom_cons_of_none hone]
        simp [ha]
  rw [accepts_selfLoop, ← hfrom.1]
  rfl

theorem wellFormed_selfLoop : (selfLoop ['a']).WellFormed ∧ (selfLoop ['a', 'b']).WellFormed :=
  ⟨wellFormed_of_ofParts (show ofParts ⟨[0], ['a'], [⟨0, 'a', 0⟩], 0, [0]⟩ = .ok _ from rfl),
    wellFormed_of_ofParts (show ofParts ⟨[0], ['a', 'b'], [⟨0, 'a', 0⟩], 0, [0]⟩ = .ok _ from rfl)⟩

theorem wellFormed_turns : (turns ['a']).WellFormed ∧ (turns ['a', 'b']).WellFormed :=
  ⟨wellFormed_of_ofParts (show ofParts ⟨[0, 1], ['a'],
      [⟨0, 'a', 1⟩, ⟨1, 'a', 0⟩], 0, [0, 1]⟩ = .ok _ from rfl),
    wellFormed_of_ofParts (show ofParts ⟨[0, 1], ['a', 'b'],
      [⟨0, 'a', 1⟩, ⟨1, 'a', 0⟩], 0, [0, 1]⟩ = .ok _ from rfl)⟩

/-! ## Minimization -/

section Minimal

variable [Ord σ] [Std.TransOrd σ] [Std.LawfulEqOrd σ]

theorem alphabet_minimize (hd : d.WellFormed) : d.minimize.alphabet = d.alphabet := by
  unfold minimize
  split
  · exact Ascending.ofList_eq_self hd.alphabet_ascending
  · rfl

/-- The smallest automaton is followed by all complete automata over the alphabet if it comes from
a complete one, and by all automata otherwise. -/
theorem WellFormed.follows_minimize (hd : d.WellFormed) (he : e.WellFormed)
    (hc : d.isComplete = true → e.alphabet = d.alphabet ∧ e.isComplete = true) :
    Follows d.minimize e := by
  by_cases hword : ∃ w, d.accepts w = true
  · cases hcomplete : d.isComplete with
    | true =>
      obtain ⟨halphabet, hcomplete'⟩ := hc hcomplete
      exact hd.minimize.follows_of_isComplete he (halphabet.trans (alphabet_minimize hd).symm)
        hcomplete'
    | false => exact hd.minimize.follows_of_trim (hd.trim_minimize hword hcomplete)
  · -- there is no transition to follow
    rw [hd.minimize_eq_single hword]
    exact fun p _ q _ _ a p' hnext => absurd (mem_edges_of_successor hnext) List.not_mem_nil

/-- The smallest automaton accepts the same words, and all its states are reached and told apart by
words; so no complete automaton over the alphabet with the same language is smaller if the given
automaton is complete, and no automaton at all otherwise. -/
theorem WellFormed.minimize_minimal (hd : d.WellFormed) :
    (∀ w, d.minimize.accepts w = d.accepts w) ∧
    (∀ q < d.minimize.stateCount, ∃ w, d.minimize.run d.minimize.start w = some q) ∧
    (∀ p < d.minimize.stateCount, ∀ q < d.minimize.stateCount, p ≠ q →
      ∃ w, d.minimize.acceptsFrom p w ≠ d.minimize.acceptsFrom q w) ∧
    (d.isComplete = true → ∀ e : Dfa σ, e.WellFormed → e.alphabet = d.alphabet →
      e.isComplete = true → (∀ w, e.accepts w = d.accepts w) →
      d.minimize.stateCount ≤ e.stateCount) ∧
    (d.isComplete = false → ∀ e : Dfa σ, e.WellFormed → (∀ w, e.accepts w = d.accepts w) →
      d.minimize.stateCount ≤ e.stateCount) := by
  have hreduced := hd.reduced_minimize
  refine ⟨hd.accepts_minimize, hreduced.reached, fun p hp q hq hne => ?_,
    fun _ e he halphabet hc hlanguage => ?_, fun hc e he hlanguage => ?_⟩
  · by_contra hall
    push Not at hall
    exact hne (hreduced.separated p hp q hq hall)
  · have hfollows := hd.follows_minimize he fun _ => ⟨halphabet, hc⟩
    refine hfollows.stateCount_le hd.minimize he ?_ hreduced
    intro w
    rw [hlanguage, hd.accepts_minimize]
  · have hvacuous : d.isComplete = true → e.alphabet = d.alphabet ∧ e.isComplete = true := by
      intro htrue
      rw [hc] at htrue
      cases htrue
    refine (hd.follows_minimize he hvacuous).stateCount_le hd.minimize he ?_ hreduced
    intro w
    rw [hlanguage, hd.accepts_minimize]

/-- The states that take turns are merged, whether the automaton is complete or not. -/
theorem minimize_minimal_turns :
    (turns ['a']).minimize.stateCount ≤ 1 ∧ (turns ['a', 'b']).minimize.stateCount ≤ 1 :=
  ⟨wellFormed_turns.1.minimize_minimal.2.2.2.1 (by decide) (selfLoop ['a']) wellFormed_selfLoop.1
      rfl (by decide) fun w => (accepts_turns _ w).symm,
    wellFormed_turns.2.minimize_minimal.2.2.2.2 (by decide) (selfLoop ['a', 'b'])
      wellFormed_selfLoop.2 fun w => (accepts_turns _ w).symm⟩

/-- Smallest automata for one language over one alphabet are isomorphic if both are complete or
both can accept from everywhere. -/
theorem WellFormed.nonempty_iso_minimize (hd : d.WellFormed) (he : e.WellFormed)
    (halphabet : e.alphabet = d.alphabet) (hlanguage : ∀ w, e.accepts w = d.accepts w)
    (hword : ∃ w, d.accepts w = true)
    (hkind : (d.minimize.isComplete = true ∧ e.minimize.isComplete = true) ∨
      (d.minimize.Trim ∧ e.minimize.Trim)) : Nonempty (Iso d.minimize e.minimize) := by
  have hword' : ∃ w, e.accepts w = true := by
    obtain ⟨w, hw⟩ := hword
    exact ⟨w, (hlanguage w).trans hw⟩
  have hminimized : ∀ w, e.minimize.accepts w = d.minimize.accepts w := fun w => by
    rw [he.accepts_minimize, hd.accepts_minimize, hlanguage]
  have hletters : e.minimize.alphabet = d.minimize.alphabet := by
    rw [alphabet_minimize he, alphabet_minimize hd, halphabet]
  have hboth : Follows d.minimize e.minimize ∧ Follows e.minimize d.minimize := by
    obtain ⟨hc, hc'⟩ | ⟨htrim, htrim'⟩ := hkind
    · exact ⟨hd.minimize.follows_of_isComplete he.minimize hletters hc',
        he.minimize.follows_of_isComplete hd.minimize hletters.symm hc⟩
    · exact ⟨hd.minimize.follows_of_trim htrim, he.minimize.follows_of_trim htrim'⟩
  refine hboth.1.nonempty_iso hd.minimize he.minimize hminimized hboth.2 hd.reduced_minimize
    he.reduced_minimize hletters fun p hp q hq hsame => ?_
  rw [Bool.eq_iff_iff, hd.isTrap_minimize_iff hword hp, he.isTrap_minimize_iff hword' hq]
  exact forall_congr' fun w => by rw [hsame]

/-- The smallest automaton accepts the same words and is determined, up to the numbers of its
states, by the language, the alphabet and whether the given automaton is complete; and it is its
own smallest automaton. -/
theorem WellFormed.minimize_canonical (hd : d.WellFormed) :
    (∀ w, d.minimize.accepts w = d.accepts w) ∧
    (∀ e : Dfa σ, e.WellFormed → e.alphabet = d.alphabet → e.isComplete = d.isComplete →
      (∀ w, e.accepts w = d.accepts w) → Nonempty (Iso d.minimize e.minimize)) ∧
    Nonempty (Iso d.minimize d.minimize.minimize) := by
  refine ⟨hd.accepts_minimize, ?_⟩
  by_cases hword : ∃ w, d.accepts w = true
  · refine ⟨fun e he halphabet hcomplete hlanguage => ?_, ?_⟩
    · refine hd.nonempty_iso_minimize he halphabet hlanguage hword ?_
      have hword' : ∃ w, e.accepts w = true := by
        obtain ⟨w, hw⟩ := hword
        exact ⟨w, (hlanguage w).trans hw⟩
      cases hc : d.isComplete with
      | true =>
        rw [hc] at hcomplete
        exact .inl ⟨hd.isComplete_minimize hword hc, he.isComplete_minimize hword' hcomplete⟩
      | false =>
        rw [hc] at hcomplete
        exact .inr ⟨hd.trim_minimize hword hc, he.trim_minimize hword' hcomplete⟩
    · have hword' : ∃ w, d.minimize.accepts w = true := by
        obtain ⟨w, hw⟩ := hword
        exact ⟨w, (hd.accepts_minimize w).trans hw⟩
      refine hd.nonempty_iso_minimize hd.minimize (alphabet_minimize hd) hd.accepts_minimize hword
        ?_
      cases hc : d.minimize.isComplete with
      | true => exact .inl ⟨rfl, hd.minimize.isComplete_minimize hword' hc⟩
      | false =>
        -- the given automaton is not complete either
        have hpartial : d.isComplete = false := Bool.eq_false_of_not_eq_true fun htrue => by
          rw [hd.isComplete_minimize hword htrue] at hc
          cases hc
        exact .inr ⟨hd.trim_minimize hword hpartial, hd.minimize.trim_minimize hword' hc⟩
  · -- only the alphabet is left
    refine ⟨fun e he halphabet _ hlanguage => nonempty_iso_of_eq ?_, nonempty_iso_of_eq ?_⟩
    · have hword' : ¬∃ w, e.accepts w = true := by simpa only [hlanguage] using hword
      rw [he.minimize_eq_single hword', hd.minimize_eq_single hword, halphabet]
    · have hword' : ¬∃ w, d.minimize.accepts w = true := by
        simpa only [hd.accepts_minimize] using hword
      rw [hd.minimize.minimize_eq_single hword', alphabet_minimize hd, hd.minimize_eq_single hword]

theorem minimize_canonical_turns :
    Nonempty (Iso (turns ['a']).minimize (selfLoop ['a']).minimize) :=
  wellFormed_turns.1.minimize_canonical.2.1 (selfLoop ['a']) wellFormed_selfLoop.1 rfl (by decide)
    fun w => (accepts_turns _ w).symm

end Minimal

end Kleene.Dfa
