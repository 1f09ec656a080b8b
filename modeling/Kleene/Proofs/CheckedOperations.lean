import Kleene.Proofs.NfaChanges

/-!
# Operations within the limit of identifiers

In its checked form a regular operation fails if it needs more identifiers than there are.  How
far it goes can be told from its operands: it isolates them first, and every state of the second
operand that is not fused with one of the first gets a new identifier.  Within the limit the
operation yields an automaton for the language and the letters that belong to it.
-/

open Computability

namespace Kleene.Nfa

variable {σ : Type} {a b n n' : Nfa σ} {last : State} {L : Language σ} {letters : Set σ}

/-- The automaton, if the identifiers below `last` may be handed out. -/
def within (n : Nfa σ) (last : State) : Except Misuse (Nfa σ) :=
  if last ≤ stateLimit then .ok n else .error .statesExhausted

theorem eq_of_within (h : n.within last = .ok n') : n' = n := by
  unfold within at h
  split at h <;> cases h
  rfl

variable [Ord σ]

/-! ## Identifiers that are handed out -/

section Identifiers

/-- Operands are isolated one after the other, then what they are fused to is checked. -/
theorem fused_eq_within {fuse : Nfa σ → Nfa σ → Nfa σ}
    (hle : a.isolate.fresh ≤ (fuse a.isolate b.isolate).fresh) :
    (do
      let a ← a.isolate?
      let b ← b.isolate?
      (fuse a b).fit) =
        (fuse a.isolate b.isolate).within
          (max b.isolate.fresh (fuse a.isolate b.isolate).fresh) := by
  unfold isolate? fit within
  by_cases ha : a.isolate.fresh ≤ stateLimit
  · rw [if_pos ha]
    by_cases hb : b.isolate.fresh ≤ stateLimit
    · rw [if_pos hb]
      by_cases hf : (fuse a.isolate b.isolate).fresh ≤ stateLimit
      · rw [if_pos (Nat.max_le.2 ⟨hb, hf⟩)]
        exact if_pos hf
      · rw [if_neg fun hmax => hf (Nat.max_le.1 hmax).2]
        exact if_neg hf
    · rw [if_neg hb, if_neg fun hmax => hb (Nat.max_le.1 hmax).1]
      rfl
  · rw [if_neg ha, if_neg fun hmax => ha (Nat.le_trans hle (Nat.max_le.1 hmax).2)]
    rfl

theorem concat?_eq_within : concat? a b =
    (concat a b).within (max b.isolate.fresh (concat a b).fresh) :=
  fused_eq_within (Nat.le_add_right _ _)

theorem union?_eq_within : union? a b =
    (union a b).within (max b.isolate.fresh (union a b).fresh) :=
  fused_eq_within (Nat.le_add_right _ _)

theorem newcomers_chain (h : b.WellFormed) (p : State) :
    b.newcomers [(b.start, p)] = b.states.erase b.start := by
  rw [h.states_ascending.nodup.erase_eq_filter]
  refine List.filter_congr fun q _ => ?_
  rw [List.lookup_singleton]
  cases hq : q == b.start <;> simp [bne, hq]

theorem newcomers_join (h : b.WellFormed) (p q : State) :
    b.newcomers [(b.start, p), (b.final, q)] = (b.states.erase b.start).erase b.final := by
  have hnodup := h.states_ascending.nodup
  rw [(hnodup.erase b.start).erase_eq_filter, hnodup.erase_eq_filter, List.filter_filter]
  refine List.filter_congr fun r _ => ?_
  rw [List.lookup_cons, List.lookup_singleton]
  cases hs : r == b.start <;> cases hf : r == b.final <;> simp [bne, hs, hf]

variable [Std.TransOrd σ] [Std.LawfulEqOrd σ]

/-- All states of the second operand but its start state are new. -/
theorem WellFormed.fresh_concat (hb : b.WellFormed) :
    (concat a b).fresh = a.isolate.fresh + (b.isolate.stateCount - 1) := by
  show a.isolate.fresh + (b.isolate.newcomers [(b.isolate.start, _)]).length = _
  rw [newcomers_chain hb.isolate, List.length_erase_of_mem hb.isolate.start_mem]
  rfl

/-- All states of the second operand but its terminals are new. -/
theorem WellFormed.fresh_union (hb : b.WellFormed) :
    (union a b).fresh = a.isolate.fresh + (b.isolate.stateCount - 2) := by
  have hfinal : b.isolate.final ∈ b.isolate.states.erase b.isolate.start :=
    (List.mem_erase_of_ne hb.isolated_isolate.start_ne_final.symm).2 hb.isolate.final_mem
  show a.isolate.fresh +
    (b.isolate.newcomers [(b.isolate.start, _), (b.isolate.final, _)]).length = _
  rw [newcomers_join hb.isolate, List.length_erase_of_mem hfinal,
    List.length_erase_of_mem hb.isolate.start_mem]
  rfl

end Identifiers

/-! ## Letters -/

theorem alphabet_isolate (n : Nfa σ) : n.isolate.alphabet = n.alphabet := by
  have hstart : n.isolateStart.alphabet = n.alphabet := by
    obtain heq | ⟨heq, -⟩ := isolateStart_eq n <;> rw [heq]
    rfl
  obtain heq | ⟨heq, -⟩ := isolateFinal_eq n.isolateStart
  · exact (congrArg Nfa.alphabet heq).trans hstart
  · exact (congrArg Nfa.alphabet heq).trans hstart

/-- The letters of both operands, in order. -/
theorem alphabet_concat (a b : Nfa σ) :
    (concat a b).alphabet = Ascending.union a.alphabet b.alphabet := by
  show Ascending.union a.isolate.alphabet b.isolate.alphabet = _
  rw [alphabet_isolate, alphabet_isolate]

theorem alphabet_union (a b : Nfa σ) :
    (union a b).alphabet = Ascending.union a.alphabet b.alphabet := by
  show Ascending.union a.isolate.alphabet b.isolate.alphabet = _
  rw [alphabet_isolate, alphabet_isolate]

/-! ## What the operations yield -/

section Yields

variable [DecidableEq σ]

/-- The words that an automaton accepts. -/
def accepted (n : Nfa σ) : Language σ := {w | n.accepts w = true}

omit [Ord σ] in
theorem accepted_eq_language (n : Nfa σ) : n.accepted = n.language := by
  ext w
  exact mem_language

/-- The automaton is well formed and has exactly the given words and, in order, the given
letters. -/
structure Recognizes (n : Nfa σ) (L : Language σ) (letters : Set σ) : Prop where
  wellFormed : n.WellFormed
  accepted_eq : n.accepted = L
  alphabet_ascending : Ascending.IsAscending n.alphabet
  mem_alphabet_iff : ∀ c, c ∈ n.alphabet ↔ c ∈ letters

/-- If all identifiers below `last` may be handed out, there is a result with the given words and
letters, and otherwise they are exhausted. -/
def Yields (x : Except Misuse (Nfa σ)) (last : State) (L : Language σ) (letters : Set σ) : Prop :=
  (last ≤ stateLimit → ∃ n, x = .ok n ∧ n.Recognizes L letters) ∧
    (stateLimit < last → x = .error .statesExhausted)

theorem Recognizes.yields_within (h : n.Recognizes L letters) (last : State) :
    Yields (n.within last) last L letters :=
  ⟨fun hle => ⟨n, if_pos hle, h⟩, fun hlt => if_neg (Nat.not_le.2 hlt)⟩

variable [Std.TransOrd σ] [Std.LawfulEqOrd σ]

omit [Std.TransOrd σ] [Std.LawfulEqOrd σ] in
theorem WellFormed.recognizes (h : n.WellFormed) (hlanguage : n.language = L)
    (hletters : ∀ c, c ∈ n.alphabet ↔ c ∈ letters) : n.Recognizes L letters :=
  ⟨h, (accepted_eq_language n).trans hlanguage, h.alphabet_ascending, hletters⟩

/-- Each regular operation yields an automaton for the language that it stands for, over the
letters of its operands, as long as the identifiers last. -/
theorem WellFormed.operations_yield (ha : a.WellFormed) (hb : b.WellFormed) :
    Yields (concat? a b) (max b.isolate.fresh (a.isolate.fresh + (b.isolate.stateCount - 1)))
      (a.accepted * b.accepted) {c | c ∈ a.alphabet ∨ c ∈ b.alphabet} ∧
    Yields (union? a b) (max b.isolate.fresh (a.isolate.fresh + (b.isolate.stateCount - 2)))
      (a.accepted + b.accepted) {c | c ∈ a.alphabet ∨ c ∈ b.alphabet} ∧
    Yields a.star? (a.fresh + 2) a.accepted∗ {c | c ∈ a.alphabet} ∧
    Yields a.plus? (a.fresh + 2) (a.accepted * a.accepted∗) {c | c ∈ a.alphabet} ∧
    Yields a.opt? a.isolate.fresh (1 + a.accepted) {c | c ∈ a.alphabet} := by
  simp only [accepted_eq_language]
  have hopt : a.opt.alphabet = a.alphabet := alphabet_isolate a
  refine ⟨?_, ?_, ?_, ?_, ?_⟩
  · rw [concat?_eq_within, hb.fresh_concat]
    refine ((wellFormed_concat ha hb).recognizes (language_concat ha hb) fun c => ?_).yields_within _
    rw [alphabet_concat]
    exact Ascending.mem_union
  · rw [union?_eq_within, hb.fresh_union]
    refine ((wellFormed_union ha hb).recognizes (language_union ha hb) fun c => ?_).yields_within _
    rw [alphabet_union]
    exact Ascending.mem_union
  · exact ((wellFormed_star ha).recognizes (language_star ha) fun c => Iff.rfl).yields_within _
  · exact ((wellFormed_plus ha).recognizes (language_plus ha) fun c => Iff.rfl).yields_within _
  · refine ((wellFormed_opt ha).recognizes (language_opt ha) fun c => ?_).yields_within _
    rw [hopt]
    exact Iff.rfl

/-- Start and final state are one, with a loop and a way round over another state. -/
def knot : Nfa Char :=
  { states := [3, 7], alphabet := ['a', 'b', 'c'], start := 3, final := 3, fresh := 8
    edges := [⟨3, .symbol 'a', 3⟩, ⟨3, .symbol 'b', 7⟩, ⟨7, .epsilon, 3⟩] }

/-- Two states with a way to and fro. -/
def swing : Nfa Char :=
  { states := [0, 1], alphabet := ['b', 'd'], start := 0, final := 1, fresh := 2
    edges := [⟨0, .symbol 'b', 1⟩, ⟨1, .symbol 'd', 0⟩] }

theorem wellFormed_knot : knot.WellFormed := wellFormed_of_ofParts
  (show ofParts ⟨[7, 3], ['c'], [⟨3, .symbol 'a', 3⟩, ⟨3, .symbol 'b', 7⟩, ⟨7, .epsilon, 3⟩], 3, 3⟩ =
    .ok knot from rfl)

theorem wellFormed_swing : swing.WellFormed := wellFormed_of_ofParts
  (show ofParts ⟨[0, 1], [], [⟨0, .symbol 'b', 1⟩, ⟨1, .symbol 'd', 0⟩], 0, 1⟩ = .ok swing from rfl)

theorem operations_yield_knot : knot.WellFormed ∧ swing.WellFormed ∧
    (∃ n, concat? knot swing = .ok n ∧
      n.Recognizes (knot.accepted * swing.accepted) {c | c ∈ knot.alphabet ∨ c ∈ swing.alphabet}) ∧
    (∃ n, union? knot swing = .ok n ∧
      n.Recognizes (knot.accepted + swing.accepted) {c | c ∈ knot.alphabet ∨ c ∈ swing.alphabet}) ∧
    (∃ n, knot.star? = .ok n ∧ n.Recognizes knot.accepted∗ {c | c ∈ knot.alphabet}) ∧
    (∃ n, knot.plus? = .ok n ∧
      n.Recognizes (knot.accepted * knot.accepted∗) {c | c ∈ knot.alphabet}) ∧
    ∃ n, knot.opt? = .ok n ∧ n.Recognizes (1 + knot.accepted) {c | c ∈ knot.alphabet} := by
  obtain ⟨hconcat, hunion, hstar, hplus, hopt⟩ := wellFormed_knot.operations_yield wellFormed_swing
  exact ⟨wellFormed_knot, wellFormed_swing, hconcat.1 (by decide), hunion.1 (by decide),
    hstar.1 (by decide), hplus.1 (by decide), hopt.1 (by decide)⟩

end Yields

end Kleene.Nfa
