import Kleene.Proofs.PostfixLabels
import Kleene.Proofs.TextLabels
import Kleene.Elimination.Synthesis

/-!
# Synthesized expressions

An expression synthesized from an automaton describes the language of the automaton, in every
order of elimination.  Synthesis only fails for want of identifiers for new terminals.
-/

open Computability

namespace Kleene.Nfa

variable {σ τ α : Type} {n : Nfa σ}

/-! ## Replacing letters -/

theorem languageUnder_mapLetters [Ord τ] [Std.LawfulEqOrd τ] (f : σ → τ)
    (m : Label τ → Language α) :
    (n.mapLetters f).languageUnder m = n.languageUnder fun l => m (l.map f) := by
  ext w
  refine ⟨fun hw => hw.simulate id ?_, fun hw => hw.simulate id ?_⟩
  · intro p l q he u hu
    rcases mem_edges_mapLetters.1 he with ⟨l', hedge, rfl⟩
    exact .single hedge hu
  · intro p l q he u hu
    exact .single (mem_edges_mapLetters.2 ⟨l, he, rfl⟩) hu

-- Letters that mean the words of one letter change no word of the language.
theorem languageUnder_eq_language {m : Label σ → Language σ}
    (h : ∀ l, m l = Label.language l) : n.languageUnder m = n.language := by
  rw [funext h]
  rfl

variable [Ord σ]

theorem requireIsolable_eq (n : Nfa σ) : n.requireIsolable =
    if n.isolate.fresh ≤ stateLimit then .ok () else .error .statesExhausted := by
  unfold requireIsolable isolate? fit
  split <;> rfl

-- A checked form fails exactly if the terminals cannot be isolated for want of identifiers.
theorem requireIsolable_bind {β : Type} (n : Nfa σ) (b : β) :
    (do n.requireIsolable; return b : Except Misuse β) =
      if n.isolate.fresh ≤ stateLimit then .ok b else .error .statesExhausted := by
  rw [requireIsolable_eq]
  split <;> rfl

section Checked

variable [DecidableEq σ]

omit [Ord σ] in
-- No word is accepted if and only if the language is empty.
theorem language_eq_zero_iff : n.language = 0 ↔ ∀ w, n.accepts w = false := by
  constructor
  · intro h w
    rw [← Bool.not_eq_true, mem_language, h]
    exact Language.notMem_zero w
  · intro h
    ext w
    rw [← mem_language, h w]
    exact ⟨fun hw => (by cases hw), fun hw => absurd hw (Language.notMem_zero w)⟩

-- The checked form of a search that finds nothing only if no word is accepted, and otherwise
-- finds what has a property that the automata without words have not.
theorem checked_spec {β : Type} {o : Option β} {Q : β → Prop}
    (hspec : (o = none ∧ n.language = 0) ∨ ∃ x, o = some x ∧ Q x)
    (hQ : ∀ x, Q x → ∃ w, w ∈ n.language) :
    ((do n.requireIsolable; return o : Except Misuse (Option β)) = .error .statesExhausted ↔
      stateLimit < n.isolate.fresh) ∧
    (n.isolate.fresh ≤ stateLimit →
      ((do n.requireIsolable; return o : Except Misuse (Option β)) = .ok none ↔
        ∀ w, n.accepts w = false) ∧
      ((∃ w, n.accepts w = true) →
        ∃ x, (do n.requireIsolable; return o : Except Misuse (Option β)) = .ok (some x) ∧ Q x)) := by
  rw [requireIsolable_bind]
  by_cases hfit : n.isolate.fresh ≤ stateLimit
  · rw [if_pos hfit]
    refine ⟨⟨fun he => (by cases he), fun hlt => absurd hfit (Nat.not_le.2 hlt)⟩, fun _ => ?_⟩
    rcases hspec with ⟨rfl, hzero⟩ | ⟨x, rfl, hx⟩
    · have hnothing := language_eq_zero_iff.1 hzero
      refine ⟨⟨fun _ => hnothing, fun _ => rfl⟩, fun hword => ?_⟩
      rcases hword with ⟨w, hw⟩
      rw [hnothing w] at hw
      cases hw
    · refine ⟨⟨fun he => (by cases he), fun hnothing => ?_⟩, fun _ => ⟨x, rfl, hx⟩⟩
      rcases hQ x hx with ⟨w, hw⟩
      rw [← mem_language, hnothing w] at hw
      cases hw
  · rw [if_neg hfit]
    exact ⟨⟨fun _ => Nat.not_le.1 hfit, fun _ => rfl⟩, fun hle => absurd hle hfit⟩

end Checked

/-! ## Postfix expressions -/

variable [Std.TransOrd σ] [Std.LawfulEqOrd σ] [DecidableEq σ]

omit [Std.TransOrd σ] [DecidableEq σ] in
/-- Letters are expressions of one token. -/
theorem good_annotated (n : Nfa σ) : ∀ e ∈ n.annotated.edges, PostfixCombiner.Good e.label := by
  intro e he
  rcases mem_edges_mapLetters.1 he with ⟨l, -, heq⟩
  rw [heq]
  cases l with
  | symbol a => exact ⟨(Postfix.denotes_literal a).valid, fun hnil => (by cases hnil)⟩
  | epsilon => exact ⟨Postfix.valid_nil, fun _ => rfl⟩

/-- The synthesized expression describes the language, and there is none only if the language
is empty. -/
theorem WellFormed.synthesize (h : n.WellFormed) (order : EliminationOrder) :
    (n.synthesize order = none ∧ n.language = 0) ∨
      ∃ p, n.synthesize order = some p ∧ p.Denotes n.language := by
  have hlanguage : n.annotated.languageUnder PostfixCombiner.meaning = n.language := by
    unfold annotated
    rw [languageUnder_mapLetters]
    exact languageUnder_eq_language fun l => by cases l <;> rfl
  -- letters become labels of the same meaning, so elimination starts from the same language
  have hspec := expression_spec (postfixCombiner_sound σ) order (h.mapLetters _)
    (good_annotated n)
  change (n.annotated.expression _ _ = none ∧ n.annotated.languageUnder _ = 0) ∨
    ∃ l, n.annotated.expression _ _ = some l ∧ _ ∧ n.annotated.languageUnder _ = _ at hspec
  rw [hlanguage] at hspec
  unfold Nfa.synthesize
  rcases hspec with ⟨hnone, hzero⟩ | ⟨l, hsome, hl, heq⟩
  · exact .inl ⟨by rw [hnone]; rfl, hzero⟩
  · refine .inr ⟨l.tokens, by rw [hsome]; rfl, ?_⟩
    rw [heq]
    exact hl.1

omit [Ord σ] [Std.TransOrd σ] [Std.LawfulEqOrd σ] in
-- An expression is empty exactly if the empty word is all it describes.
theorem eq_nil_iff_of_denotes {p : Postfix σ} (h : p.Denotes n.language) :
    p = [] ↔ ∀ w, n.accepts w = true ↔ w = [] := by
  refine ⟨fun hnil w => ?_, fun hall => ?_⟩
  · rw [hnil] at h
    rw [mem_language, ← Postfix.denotes_nil.unique h]
    exact Language.mem_one w
  · by_contra hp
    rcases h.exists_mem_ne_nil hp with ⟨w, hw, hne⟩
    exact hne ((hall w).1 (mem_language.2 hw))

/-- Synthesis fails exactly when no identifiers are left to isolate the terminals with.
Otherwise it finds no expression exactly if no word is accepted, and an expression it finds
becomes an automaton for the same words, with no tokens exactly if these are the empty word. -/
theorem synthesize?_spec (h : n.WellFormed) (order : EliminationOrder) :
    (n.synthesize? order = .error .statesExhausted ↔ stateLimit < n.isolate.fresh) ∧
    (n.isolate.fresh ≤ stateLimit →
      (n.synthesize? order = .ok none ↔ ∀ w, n.accepts w = false) ∧
      ((∃ w, n.accepts w = true) → ∃ p m, n.synthesize? order = .ok (some p) ∧
        p.toNfa = .ok m ∧ (∀ w, m.accepts w = n.accepts w) ∧
        (p = [] ↔ ∀ w, n.accepts w = true ↔ w = []))) := by
  have hchecked := checked_spec (h.synthesize order) fun p hp => hp.exists_mem
  refine ⟨hchecked.1, fun hfit => ⟨(hchecked.2 hfit).1, fun hword => ?_⟩⟩
  rcases (hchecked.2 hfit).2 hword with ⟨p, hsome, hp⟩
  rcases hp.exists_toNfa with ⟨m, hm, -, hlanguage⟩
  exact ⟨p, m, hsome, hm, accepts_eq_of_language_eq hlanguage, eq_nil_iff_of_denotes hp⟩

/-- The automaton of one letter has identifiers to spare. -/
theorem synthesize?_spec_literal : (literal 'a').WellFormed ∧
    (literal 'a').isolate.fresh ≤ stateLimit ∧
    ∃ p m, (literal 'a').synthesize? .heuristic = .ok (some p) ∧ p.toNfa = .ok m ∧
      (∀ w, m.accepts w = (literal 'a').accepts w) ∧
      (p = [] ↔ ∀ w, (literal 'a').accepts w = true ↔ w = []) := by
  have hword : (literal 'a').accepts ['a'] = true := by
    rw [mem_language, language_literal]
    rfl
  have hfit : (literal 'a').isolate.fresh ≤ stateLimit := by decide
  have hspec := synthesize?_spec (wellFormed_literal 'a') .heuristic
  exact ⟨wellFormed_literal 'a', hfit, (hspec.2 hfit).2 ⟨_, hword⟩⟩

/-! ## Texts -/

/-- The synthesized text is read as an expression that describes the language, and there is
none only if the language is empty. -/
theorem WellFormed.synthesizeText {n : Nfa Char} (h : n.WellFormed) (order : EliminationOrder) :
    (n.synthesizeText order = none ∧ n.language = 0) ∨
      ∃ t, n.synthesizeText order = some t ∧
        ∃ p, Postfix.ofText t = .ok p ∧ p.Denotes n.language := by
  have hgood : ∀ e ∈ n.texted.edges, TextCombiner.Good e.label := by
    intro e he
    rcases mem_edges_mapLetters.1 he with ⟨l, -, heq⟩
    rw [heq]
    cases l with
    | symbol c => exact (TextCombiner.good_of_phrase (Phrase.literal c)).1
    | epsilon => trivial
  have hlanguage : n.texted.languageUnder TextCombiner.meaning = n.language := by
    unfold texted
    rw [languageUnder_mapLetters]
    refine languageUnder_eq_language fun l => ?_
    cases l with
    | symbol c => exact (TextCombiner.good_of_phrase (Phrase.literal c)).2
    | epsilon => exact TextCombiner.meaning_epsilon
  have hspec := expression_spec textCombiner_sound order (h.mapLetters _) hgood
  change (n.texted.expression _ _ = none ∧ n.texted.languageUnder _ = 0) ∨
    ∃ l, n.texted.expression _ _ = some l ∧ _ ∧ n.texted.languageUnder _ = _ at hspec
  rw [hlanguage] at hspec
  unfold Nfa.synthesizeText
  rcases hspec with ⟨hnone, hzero⟩ | ⟨l, hsome, hl, heq⟩
  · exact .inl ⟨by rw [hnone]; rfl, hzero⟩
  · rw [heq]
    exact .inr ⟨TextCombiner.textOf l, by rw [hsome]; rfl, TextCombiner.Good.exists_ofText hl⟩

/-- Synthesis of a text fails exactly when no identifiers are left to isolate the terminals with.
Otherwise it finds no text exactly if no word is accepted, and a text it finds is read as an
automaton for the same words, whatever characters they consist of. -/
theorem synthesizeText?_spec {n : Nfa Char} (h : n.WellFormed) (order : EliminationOrder) :
    (n.synthesizeText? order = .error .statesExhausted ↔ stateLimit < n.isolate.fresh) ∧
    (n.isolate.fresh ≤ stateLimit →
      (n.synthesizeText? order = .ok none ↔ ∀ w, n.accepts w = false) ∧
      ((∃ w, n.accepts w = true) → ∃ t m, n.synthesizeText? order = .ok (some t) ∧
        Nfa.ofText t = .ok m ∧ ∀ w, m.accepts w = n.accepts w)) := by
  have hchecked := checked_spec (h.synthesizeText order) fun t ht => by
    rcases ht with ⟨p, -, hp⟩
    exact hp.exists_mem
  refine ⟨hchecked.1, fun hfit => ⟨(hchecked.2 hfit).1, fun hword => ?_⟩⟩
  rcases (hchecked.2 hfit).2 hword with ⟨t, hsome, p, hread, hp⟩
  rcases hp.exists_toNfa with ⟨m, hm, -, hlanguage⟩
  refine ⟨t, m, hsome, ?_, accepts_eq_of_language_eq hlanguage⟩
  unfold Nfa.ofText
  rw [hread]
  exact hm

/-- The automaton of a special character has identifiers to spare. -/
theorem synthesizeText?_spec_literal : (literal '*').WellFormed ∧
    (literal '*').isolate.fresh ≤ stateLimit ∧
    ∃ t m, (literal '*').synthesizeText? .ascending = .ok (some t) ∧ Nfa.ofText t = .ok m ∧
      ∀ w, m.accepts w = (literal '*').accepts w := by
  have hword : (literal '*').accepts ['*'] = true := by
    rw [mem_language, language_literal]
    rfl
  have hfit : (literal '*').isolate.fresh ≤ stateLimit := by decide
  have hspec := synthesizeText?_spec (wellFormed_literal '*') .ascending
  exact ⟨wellFormed_literal '*', hfit, (hspec.2 hfit).2 ⟨_, hword⟩⟩

/-! ## No identifier left -/

/-- A single state, start and final, with the last identifier below the limit. -/
def lastIdentifier : Nfa Char := ⟨[4294967294], [], [], 4294967294, 4294967294, 4294967295⟩

theorem wellFormed_lastIdentifier : lastIdentifier.WellFormed where
  start_mem := by simp [lastIdentifier]
  final_mem := by simp [lastIdentifier]
  source_mem _ _ _ he := by cases he
  target_mem _ _ _ he := by cases he
  states_ascending := List.pairwise_singleton _ _
  alphabet_ascending := .nil
  edges_ascending := .nil
  letter_mem _ _ _ he := by cases he
  lt_fresh q hq := by
    rw [List.mem_singleton.1 hq]
    exact Nat.lt_succ_self _

theorem accepts_lastIdentifier : lastIdentifier.accepts [] = true := by
  rw [mem_language]
  exact .nil _

/-- Synthesis does not succeed on all automata: a new terminal may need one identifier more than
there are. -/
theorem synthesize?_not_total : ¬ ∀ (n : Nfa Char) (order : EliminationOrder), n.WellFormed →
    (n.synthesize? order = .ok none ↔ ∀ w, n.accepts w = false) ∧
    ((∃ w, n.accepts w = true) → ∃ p m, n.synthesize? order = .ok (some p) ∧
      p.toNfa = .ok m ∧ (∀ w, m.accepts w = n.accepts w) ∧
      (p = [] ↔ ∀ w, n.accepts w = true ↔ w = [])) := by
  intro h
  have hfail : lastIdentifier.synthesize? .heuristic = .error .statesExhausted := by
    unfold synthesize?
    rw [requireIsolable_bind, if_neg (by decide)]
  rcases (h _ .heuristic wellFormed_lastIdentifier).2 ⟨[], accepts_lastIdentifier⟩
    with ⟨p, m, hp, -⟩
  rw [hfail] at hp
  cases hp

/-- Synthesis of a text does not succeed on all automata either. -/
theorem synthesizeText?_not_total : ¬ ∀ (n : Nfa Char) (order : EliminationOrder), n.WellFormed →
    (n.synthesizeText? order = .ok none ↔ ∀ w, n.accepts w = false) ∧
    ((∃ w, n.accepts w = true) → ∃ t m, n.synthesizeText? order = .ok (some t) ∧
      Nfa.ofText t = .ok m ∧ ∀ w, m.accepts w = n.accepts w) := by
  intro h
  have hfail : lastIdentifier.synthesizeText? .heuristic = .error .statesExhausted := by
    unfold synthesizeText?
    rw [requireIsolable_bind, if_neg (by decide)]
  rcases (h _ .heuristic wellFormed_lastIdentifier).2 ⟨[], accepts_lastIdentifier⟩
    with ⟨t, m, ht, -⟩
  rw [hfail] at ht
  cases ht

end Kleene.Nfa
