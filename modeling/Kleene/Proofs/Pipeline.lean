import Kleene.Compilation
import Kleene.Proofs.Comparison
import Kleene.Proofs.Correction
import Kleene.Proofs.Minimization
import Kleene.Proofs.Printing
import Kleene.Proofs.SubsetConstruction
import Kleene.Proofs.Synthesis

/-!
# From expressions to automata and back

The automata of an expression and the expression synthesized from one of them describe the same
language, whatever the settings are, and a report on an expression that compiles never fails.
Whether an expression compiles, and how far a word is from being accepted, does not depend on the
settings.
-/

namespace Kleene

variable {s : Settings} {regex : String} {c : Compilation}

namespace Compilation

/-- All automata accept the words that the expression describes. -/
structure Faithful (c : Compilation) : Prop where
  nfa : c.nfa.WellFormed
  expression : c.expression.Denotes c.nfa.language
  dfa : c.dfa.WellFormed
  accepts_dfa : ∀ w, c.dfa.accepts w = c.nfa.accepts w
  minimized : ∀ d, c.minimized = some d → d.WellFormed
  accepts_minimized : ∀ d, c.minimized = some d → ∀ w, d.accepts w = c.nfa.accepts w

theorem ofText_eq_ok {settings : ConversionSettings} (h : ofText settings regex = .ok c) :
    c.expression.toNfa = .ok c.nfa ∧ c.dfa = c.nfa.toDfa settings.complete ∧
      c.minimized = if settings.minimize then some c.dfa.minimize else none := by
  unfold ofText at h
  cases hp : Postfix.ofText regex with
  | error e =>
    rw [hp] at h
    cases h
  | ok p =>
    rw [hp] at h
    change (do let nfa ← p.toNfa; _ : Except RegexError Compilation) = .ok c at h
    cases hn : p.toNfa with
    | error e =>
      rw [hn] at h
      cases h
    | ok n =>
      rw [hn] at h
      cases h
      exact ⟨hn, rfl, rfl⟩

-- Every phrase of the grammar compiles.
theorem exists_compile_of_derives (s : Settings) {ks : List Lexeme.Kind} {p : Postfix Char}
    (h : Derives .choice ks p) (htext : regex.toList = spell ks) :
    ∃ c, s.compile regex = .ok c ∧ c.expression = p := by
  rcases Postfix.Denotes.exists_toNfa h.valid.2 with ⟨n, hn, -, -⟩
  unfold Settings.compile ofText
  rw [h.ofText htext]
  show ∃ c, (do let nfa ← p.toNfa; _ : Except RegexError Compilation) = .ok c ∧ _
  rw [hn]
  exact ⟨_, rfl, rfl⟩

theorem faithful_of_compile (h : s.compile regex = .ok c) : c.Faithful := by
  have hparts := ofText_eq_ok h
  have hnfa := Postfix.denotes_of_toNfa hparts.1
  have hdfa : c.dfa.WellFormed := by
    rw [hparts.2.1]
    exact hnfa.1.toDfa _
  have haccepts : ∀ w, c.dfa.accepts w = c.nfa.accepts w := by
    rw [hparts.2.1]
    exact hnfa.1.accepts_toDfa _
  have hminimized : ∀ d, c.minimized = some d → d = c.dfa.minimize := by
    intro d hd
    rw [hparts.2.2] at hd
    split at hd
    · exact (Option.some.inj hd).symm
    · cases hd
  exact {
    nfa := hnfa.1
    expression := hnfa.2
    dfa := hdfa
    accepts_dfa := haccepts
    minimized := fun d hd => by
      rw [hminimized d hd]
      exact hdfa.minimize
    accepts_minimized := fun d hd w => by
      rw [hminimized d hd, hdfa.accepts_minimize, haccepts] }

namespace Faithful

variable (h : c.Faithful)
include h

theorem isConsistent (word : String) : (c.accepts word).isConsistent = true := by
  show (decide (c.nfa.accepts word.toList = c.dfa.accepts word.toList) &&
    (c.minimized.map (·.accepts word.toList)).all (· = c.nfa.accepts word.toList)) = true
  rw [h.accepts_dfa]
  cases hm : c.minimized with
  | none => simp
  | some d => simp [h.accepts_minimized d hm]

theorem finalDfa : c.finalDfa.WellFormed ∧ ∀ w, c.finalDfa.accepts w = c.nfa.accepts w := by
  unfold Compilation.finalDfa
  cases hm : c.minimized with
  | none => exact ⟨h.dfa, h.accepts_dfa⟩
  | some d => exact ⟨h.minimized d hm, h.accepts_minimized d hm⟩

/-- The automaton to start from accepts the words of the expression. -/
theorem source (fromMinimized : Bool) :
    (c.source fromMinimized).WellFormed ∧ (c.source fromMinimized).language = c.nfa.language := by
  unfold Compilation.source
  cases fromMinimized with
  | false => exact ⟨h.nfa, rfl⟩
  | true =>
    refine ⟨h.finalDfa.1.toNfa, ?_⟩
    ext w
    show w ∈ c.finalDfa.toNfa.language ↔ _
    rw [← Nfa.mem_language, ← Nfa.mem_language, h.finalDfa.1.accepts_toNfa, h.finalDfa.2]

/-- An expression for the compiled language is found, since every expression describes some
word. -/
theorem synthesize (settings : EliminationSettings) :
    ∃ p, c.synthesize settings = some p ∧ p.Denotes c.nfa.language := by
  have hsource := h.source settings.fromMinimized
  unfold Compilation.synthesize
  cases hsource.1.synthesize settings.order with
  | inl hnone =>
    rcases h.expression.exists_mem with ⟨w, hw⟩
    rw [← hsource.2, hnone.2] at hw
    exact absurd hw (Language.notMem_zero w)
  | inr hsome =>
    rw [hsource.2] at hsome
    exact hsome

end Faithful

end Compilation

namespace Settings

-- The report on an expression that compiles: the synthesized expression is present and accepts
-- the same words, and the comparison, if the settings ask for it, finds no difference.
theorem report_of_faithful (hc : s.compile regex = .ok c) (h : c.Faithful) :
    ∃ rep, s.report regex = .ok rep ∧
      (∃ t m, rep.synthesized = some t ∧ Nfa.ofText t = .ok m ∧
        ∀ w, m.accepts w = c.nfa.accepts w) ∧
      rep.equivalent = s.elimination.verifyWordLength.map fun _ => true := by
  rcases h.synthesize s.elimination with ⟨p, hp, hdenotes⟩
  rcases hdenotes.exists_toNfa with ⟨m, hm, -, hlanguage⟩
  rcases hdenotes.print with ⟨t, ht, hread⟩
  rcases h.expression.print with ⟨t', ht', -⟩
  have hsame : ∀ w, m.accepts w = c.nfa.accepts w := Nfa.accepts_eq_of_language_eq hlanguage
  have hagrees : ∀ max, c.nfa.recognizer.agrees m.recognizer max = true := fun max =>
    Recognizer.agrees_of_accepts_eq fun w => (hsame w).symm
  have htext : Nfa.ofText t = .ok m := by
    unfold Nfa.ofText
    rw [hread]
    exact hm
  unfold report
  rw [hc]
  simp only [hp, hm, ht, ht', Except.map, bind, Except.bind, pure, Except.pure]
  refine ⟨_, rfl, ⟨t, m, rfl, htext, hsame⟩, ?_⟩
  cases s.elimination.verifyWordLength with
  | none => rfl
  | some max => exact congrArg some (hagrees max)

/-- For every expression that compiles, under all settings: the automata give the same verdict
on every word, and the report succeeds with a synthesized text that is read as an automaton for
the same words and, if it is compared, found equivalent. -/
theorem report_of_compile (h : s.compile regex = .ok c) :
    (∀ w, c.dfa.accepts w = c.nfa.accepts w) ∧
    (∀ d, c.minimized = some d → ∀ w, d.accepts w = c.nfa.accepts w) ∧
    (∀ word, (c.accepts word).isConsistent = true) ∧
    ∃ rep, s.report regex = .ok rep ∧
      (∃ t m, rep.synthesized = some t ∧ Nfa.ofText t = .ok m ∧
        ∀ w, m.accepts w = c.nfa.accepts w) ∧
      rep.equivalent = s.elimination.verifyWordLength.map fun _ => true := by
  have hc := Compilation.faithful_of_compile h
  exact ⟨hc.accepts_dfa, hc.accepts_minimized, hc.isConsistent, report_of_faithful h hc⟩

/-- The choice between one letter and a repeated one compiles. -/
theorem report_of_compile_choice :
    let s : Settings := { conversion := { complete := true }, elimination := { order := .ascending } }
    ∃ c, s.compile "a|b*" = .ok c ∧
      (∀ w, c.dfa.accepts w = c.nfa.accepts w) ∧
      (∀ d, c.minimized = some d → ∀ w, d.accepts w = c.nfa.accepts w) ∧
      (∀ word, (c.accepts word).isConsistent = true) ∧
      ∃ rep, s.report "a|b*" = .ok rep ∧
        (∃ t m, rep.synthesized = some t ∧ Nfa.ofText t = .ok m ∧
          ∀ w, m.accepts w = c.nfa.accepts w) ∧
        rep.equivalent = s.elimination.verifyWordLength.map fun _ => true := by
  intro s
  have hleft : Derives .row [.literal 'a'] _ := .quantified (.atom (.literal 'a'))
  have hright : Derives .choice [.literal 'b', .operator .star] _ :=
    .row (.quantified (.quantify (.atom (.literal 'b')) rfl))
  have htext : "a|b*".toList = spell ([.literal 'a'] ++ .operator .alternation ::
      [.literal 'b', .operator .star]) := by decide
  rcases Compilation.exists_compile_of_derives s (.alternation hleft hright) htext with ⟨c, hc, -⟩
  exact ⟨c, hc, report_of_compile hc⟩

end Settings

/-! ## Corrected words -/

namespace Compilation

-- Under all settings an expression becomes the same automaton, or fails with the same error.
theorem map_nfa_compile (s : Settings) (regex : String) :
    (s.compile regex).map Compilation.nfa = Nfa.ofText regex := by
  unfold Settings.compile ofText Nfa.ofText
  cases Postfix.ofText regex with
  | error e => rfl
  | ok p =>
    show Except.map nfa (do let nfa ← p.toNfa; _ : Except RegexError Compilation) = p.toNfa
    cases p.toNfa with
    | error e => rfl
    | ok n => rfl

/-- An expression that compiles under some settings compiles under others, to the same automaton
before it is made deterministic. -/
theorem exists_compile (s' : Settings) (h : s.compile regex = .ok c) :
    ∃ c', s'.compile regex = .ok c' ∧ c'.nfa = c.nfa := by
  have hnfa := map_nfa_compile s' regex
  rw [← map_nfa_compile s regex, h] at hnfa
  exact exists_of_map_eq_ok hnfa

/-- The report on a word that has a correction. -/
theorem correct_of_some {settings : CorrectionSettings} {word : String} {fixed : Correction Char}
    (h : (c.source settings.fromMinimized).correct word.toList = some fixed) :
    (c.correct settings word).distance = some fixed.alignment.distance ∧
      (settings.materialize = true →
        (c.correct settings word).correctedAccepts = some (fixed.nfa.accepts word.toList)) := by
  unfold Compilation.correct
  simp only [h]
  refine ⟨trivial, fun hmaterialize => ?_⟩
  rw [if_pos hmaterialize]
  rfl

namespace Faithful

variable (h : c.Faithful)
include h

/-- All verdicts on a word are the same. -/
theorem accepts_eq (word : String) :
    (c.accepts word).nfa = c.nfa.accepts word.toList ∧
      (c.accepts word).dfa = c.nfa.accepts word.toList ∧
      ∀ verdict, (c.accepts word).minimized = some verdict →
        verdict = c.nfa.accepts word.toList := by
  refine ⟨rfl, h.accepts_dfa _, fun verdict hverdict => ?_⟩
  rcases Option.map_eq_some_iff.1 hverdict with ⟨d, hd, rfl⟩
  exact h.accepts_minimized d hd _

/-- A word is corrected at the least number of edits that turn it into a word of the expression,
whatever automaton the correction starts from. -/
theorem correct (settings : CorrectionSettings) (word : String) :
    ∃ k, (c.correct settings word).distance = some k ∧
      IsLeast {k | c.nfa.Aligns c.nfa.start c.nfa.final word.toList k} k ∧
      (settings.materialize = true →
        (c.correct settings word).correctedAccepts = some true) := by
  rcases h.source settings.fromMinimized with ⟨hwellFormed, hlanguage⟩
  have hmin := (Nfa.minimum_align hwellFormed.toWired word.toList).congr
    fun k => Nfa.aligns_congr hlanguage
  -- the expression describes some word, so there is an alignment with it
  rcases h.expression.exists_mem with ⟨u, hu⟩
  rcases hmin.bound _ ⟨u, hu, Edits.levenshtein word.toList u⟩ with ⟨k, hk, -⟩
  rw [hk] at hmin
  rcases Option.map_eq_some_iff.1 hk with ⟨al, hal, rfl⟩
  have hfixed : (c.source settings.fromMinimized).correct word.toList =
      some ⟨(c.source settings.fromMinimized).follow al, al⟩ := by
    unfold Nfa.correct
    rw [hal]
    rfl
  have hreport := correct_of_some hfixed
  rw [Nfa.accepts_of_correct hwellFormed.toWired hfixed] at hreport
  exact ⟨_, hreport.1, hmin.isLeast, hreport.2⟩

end Faithful

end Compilation

namespace Settings

theorem correct_eq_map (s : Settings) (regex word : String) :
    s.correct regex word = (s.compile regex).map fun c => c.correct s.correction word := by
  unfold Settings.correct
  cases s.compile regex <;> rfl

theorem accepts_of_compile (h : s.compile regex = .ok c) (word : String) :
    s.accepts regex word = .ok (c.accepts word) := by
  unfold Settings.accepts
  rw [h]
  rfl

theorem correct_eq_error_iff {e : RegexError} {word : String} :
    s.correct regex word = .error e ↔ Nfa.ofText regex = .error e := by
  rw [correct_eq_map, map_eq_error_iff, ← Compilation.map_nfa_compile s regex, map_eq_error_iff]

/-- Correcting a word gives the same error under all settings, or the same distance, which is zero
exactly if the word is accepted.  A corrected automaton accepts the word. -/
theorem correct_independent (s s' : Settings) (regex word : String) :
    (∀ e, s.correct regex word = .error e ↔ s'.correct regex word = .error e) ∧
    ∀ rep, s.correct regex word = .ok rep → ∃ k rep' verdicts,
      rep.distance = some k ∧ s'.correct regex word = .ok rep' ∧ rep'.distance = some k ∧
      s'.accepts regex word = .ok verdicts ∧
      (verdicts.nfa = true ↔ k = 0) ∧ (verdicts.dfa = true ↔ k = 0) ∧
      (∀ verdict, verdicts.minimized = some verdict → (verdict = true ↔ k = 0)) ∧
      (s.correction.materialize = true → rep.correctedAccepts = some true) := by
  refine ⟨fun e => correct_eq_error_iff.trans correct_eq_error_iff.symm, fun rep hrep => ?_⟩
  rw [correct_eq_map] at hrep
  rcases exists_of_map_eq_ok hrep with ⟨c, hc, rfl⟩
  rcases Compilation.exists_compile s' hc with ⟨c', hc', hnfa⟩
  have h' := Compilation.faithful_of_compile hc'
  rcases (Compilation.faithful_of_compile hc).correct s.correction word
    with ⟨k, hk, hleast, hmaterialize⟩
  rcases h'.correct s'.correction word with ⟨k', hk', hleast', -⟩
  rw [hnfa] at hleast'
  rcases hleast.unique hleast' with rfl
  have hzero : c'.nfa.accepts word.toList = true ↔ k = 0 := by
    rw [hnfa, Nfa.eq_zero_iff_accepts hleast]
  rcases h'.accepts_eq word with ⟨hverdict, hdfa, hminimized⟩
  refine ⟨k, c'.correct s'.correction word, c'.accepts word, hk, ?_, hk',
    accepts_of_compile hc' word, ?_, ?_, fun verdict hm => ?_, hmaterialize⟩
  · rw [correct_eq_map, hc']
    rfl
  · rw [hverdict, hzero]
  · rw [hdfa, hzero]
  · rw [hminimized verdict hm, hzero]

/-- One letter too many, for the automaton of the expression and for the smallest complete one. -/
theorem correct_independent_choice :
    let s' : Settings :=
      { conversion := { complete := true }, correction := { fromMinimized := true } }
    ∃ rep rep', ({} : Settings).correct "a|b*" "ab" = .ok rep ∧
      s'.correct "a|b*" "ab" = .ok rep' ∧ rep.distance = some 1 ∧ rep'.distance = some 1 ∧
      rep.correctedAccepts = some true := by
  intro s'
  have hcorrect : (({} : Settings).correct "a|b*" "ab").map CorrectionReport.distance =
      .ok (some 1) := by decide +kernel
  rcases exists_of_map_eq_ok hcorrect with ⟨rep, hrep, hone⟩
  rcases (correct_independent {} s' "a|b*" "ab").2 rep hrep
    with ⟨k, rep', -, hk, hrep', hk', -, -, -, -, hmaterialize⟩
  rw [← hk, hone] at hk'
  exact ⟨rep, rep', hrep, hrep', hone, hk', hmaterialize rfl⟩

end Settings

end Kleene
