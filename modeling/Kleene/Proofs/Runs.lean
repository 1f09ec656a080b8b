import Kleene.Proofs.Liveness

/-!
# Runs of deterministic automata

A state can be reached along the transitions exactly if some word leads to it, and an automaton
is complete exactly if every state has a successor on every letter.  From a state two automata
accept the same words after a common word as from the states that the word leads to.
-/

namespace Kleene.Dfa

variable {σ : Type} {d : Dfa σ} {p q r : State} {a : σ} {u v w : List σ}

section Reading

variable [DecidableEq σ]

@[simp] theorem run_nil : d.run q [] = some q := rfl

@[simp] theorem run_singleton : d.run q [a] = d.successor q a := by
  unfold run
  rw [List.foldlM_cons]
  cases d.successor q a <;> rfl

theorem run_append : d.run q (u ++ v) = (d.run q u).bind (d.run · v) := by
  unfold run
  rw [List.foldlM_append]
  rfl

theorem run_append_of_some (h : d.run q u = some r) : d.run q (u ++ v) = d.run r v := by
  rw [run_append, h]
  rfl

theorem run_concat_eq_some_iff :
    d.run q (w ++ [a]) = some r ↔ ∃ p, d.run q w = some p ∧ d.successor p a = some r := by
  rw [run_append, Option.bind_eq_some_iff]
  simp only [run_singleton]

/-- After a common word the rest decides. -/
theorem acceptsFrom_append (h : d.run q u = some r) :
    d.acceptsFrom q (u ++ v) = d.acceptsFrom r v := by
  unfold acceptsFrom
  rw [run_append_of_some h]

theorem exists_run_of_acceptsFrom (h : d.acceptsFrom q (u ++ v) = true) :
    ∃ r, d.run q u = some r := by
  cases hu : d.run q u with
  | some r => exact ⟨r, rfl⟩
  | none =>
    unfold acceptsFrom at h
    rw [run_append, hu] at h
    cases h

theorem exists_successor_of_acceptsFrom (h : d.acceptsFrom q (a :: w) = true) :
    ∃ r, d.successor q a = some r := by
  have hrun : ∃ r, d.run q [a] = some r := exists_run_of_acceptsFrom (v := w) h
  simpa only [run_singleton] using hrun

/-- A state can be reached along the transitions exactly if some word leads to it. -/
theorem reaches_iff_exists_run (hd : d.Deterministic) :
    Reaches (d.edges.map Edge.ends) p q ↔ ∃ w, d.run p w = some q := by
  constructor
  · intro h
    induction h with
    | refl => exact ⟨[], rfl⟩
    | tail _ harrow ih =>
      obtain ⟨w, hw⟩ := ih
      obtain ⟨⟨q, a, r⟩, he, heq⟩ := List.mem_map.1 harrow
      obtain ⟨rfl, rfl⟩ := Prod.mk.inj heq
      exact ⟨w ++ [a], run_concat_eq_some_iff.2 ⟨_, hw, (successor_eq_some_iff hd).2 he⟩⟩
  · rintro ⟨w, hw⟩
    induction w using List.reverseRecOn generalizing q with
    | nil =>
      rw [run_nil] at hw
      rw [Option.some.inj hw]
      exact .refl _
    | append_singleton w a ih =>
      obtain ⟨r, hr, hq⟩ := run_concat_eq_some_iff.1 hw
      exact (ih hr).tail (List.mem_map.2 ⟨_, mem_edges_of_successor hq, rfl⟩)

end Reading

section WellFormed

variable [Ord σ] [DecidableEq σ]

theorem WellFormed.successor_lt (hd : d.WellFormed) (h : d.successor q a = some r) :
    r < d.stateCount := hd.target_lt _ _ _ (mem_edges_of_successor h)

theorem WellFormed.letter_mem_of_successor (hd : d.WellFormed) (h : d.successor q a = some r) :
    a ∈ d.alphabet := hd.letter_mem _ _ _ (mem_edges_of_successor h)

theorem WellFormed.run_lt (hd : d.WellFormed) (hp : p < d.stateCount)
    (h : d.run p w = some q) : q < d.stateCount := by
  induction w using List.reverseRecOn generalizing q with
  | nil =>
    rw [run_nil] at h
    rwa [← Option.some.inj h]
  | append_singleton w a _ =>
    obtain ⟨r, -, hq⟩ := run_concat_eq_some_iff.1 h
    exact hd.successor_lt hq

theorem WellFormed.mem_reachable_iff (hd : d.WellFormed) :
    q ∈ d.reachable.toList ↔ ∃ w, d.run d.start w = some q := by
  rw [mem_reachable, reaches_iff_exists_run hd.deterministic]
  refine and_iff_left_of_imp ?_
  rintro ⟨w, hw⟩
  exact hd.run_lt hd.start_lt hw

theorem WellFormed.letter_mem_of_run (hd : d.WellFormed) (h : d.run p w = some q) :
    ∀ a ∈ w, a ∈ d.alphabet := by
  induction w using List.reverseRecOn generalizing q with
  | nil => simp
  | append_singleton w a ih =>
    obtain ⟨r, hr, hq⟩ := run_concat_eq_some_iff.1 h
    exact List.forall_mem_append.2
      ⟨ih hr, List.forall_mem_singleton.2 (hd.letter_mem_of_successor hq)⟩

/-- A state is productive exactly if some word is accepted from it. -/
theorem WellFormed.contains_productive_iff (hd : d.WellFormed) :
    d.productive.contains q = true ↔ ∃ w, d.acceptsFrom q w = true := by
  constructor
  · intro h
    obtain ⟨⟨f, hf, hback⟩, -⟩ := contains_productive.1 h
    have hway : Reaches (d.edges.map Edge.ends) q f := by
      refine hback.reverse fun p r hpr => ?_
      obtain ⟨e, he, heq⟩ := List.mem_map.1 hpr
      obtain ⟨rfl, rfl⟩ := Prod.mk.inj heq
      exact List.mem_map.2 ⟨e, he, rfl⟩
    obtain ⟨w, hw⟩ := (reaches_iff_exists_run hd.deterministic).1 hway
    refine ⟨w, ?_⟩
    rw [← List.append_nil w, acceptsFrom_append hw, acceptsFrom_nil, hf]
  · rintro ⟨w, hw⟩
    exact hd.contains_productive_of_acceptsFrom hw

/-! ## Completeness -/

omit [DecidableEq σ] in
-- The transitions out of a state carry different letters.
theorem WellFormed.nodup_letters (hd : d.WellFormed) [Std.LawfulEqOrd σ] (q : State) :
    ((d.edges.filter (·.source = q)).map Edge.label).Nodup := by
  refine List.Nodup.map_on ?_ (hd.edges_ascending.nodup.filter _)
  rintro ⟨p, a, r⟩ he ⟨p', b, r'⟩ hf (rfl : a = b)
  obtain ⟨he, hp⟩ := List.mem_filter.1 he
  obtain ⟨hf, hp'⟩ := List.mem_filter.1 hf
  have hsource : p = p' := (of_decide_eq_true hp).trans (of_decide_eq_true hp').symm
  subst hsource
  rw [hd.deterministic _ _ _ _ he hf]

/-- Counting the transitions tells whether every state has a successor on every letter. -/
theorem WellFormed.isComplete_iff [Std.TransOrd σ] [Std.LawfulEqOrd σ] (hd : d.WellFormed) :
    d.isComplete = true ↔ ∀ q < d.stateCount, ∀ a ∈ d.alphabet, ∃ r, d.successor q a = some r := by
  have hletters : ∀ q a, a ∈ (d.edges.filter (·.source = q)).map Edge.label ↔
      ∃ r, d.successor q a = some r := by
    intro q a
    simp only [successor_eq_some_iff hd.deterministic, List.mem_map, List.mem_filter,
      decide_eq_true_eq]
    constructor
    · rintro ⟨⟨p, b, r⟩, ⟨he, rfl⟩, rfl⟩
      exact ⟨r, he⟩
    · rintro ⟨r, he⟩
      exact ⟨_, ⟨he, rfl⟩, rfl⟩
  have hcount : ∀ q, d.edges.countP (·.source = q) = d.alphabet.length ↔
      ∀ a ∈ d.alphabet, ∃ r, d.successor q a = some r := by
    intro q
    have hsub : (d.edges.filter (·.source = q)).map Edge.label ⊆ d.alphabet := by
      intro a ha
      obtain ⟨r, hr⟩ := (hletters q a).1 ha
      exact hd.letter_mem_of_successor hr
    have hlength : d.edges.countP (·.source = q) =
        ((d.edges.filter (·.source = q)).map Edge.label).length := by
      rw [List.countP_eq_length_filter, List.length_map]
    have hperm := (hd.nodup_letters q).subperm hsub
    rw [hlength]
    constructor
    · intro hall a ha
      exact (hletters q a).1 ((hperm.perm_of_length_le hall.ge).mem_iff.2 ha)
    · intro hall
      have hback := hd.alphabet_ascending.nodup.subperm fun a ha => (hletters q a).2 (hall a ha)
      exact Nat.le_antisymm hperm.length_le hback.length_le
  unfold isComplete states
  simp only [List.all_eq_true, List.mem_range, decide_eq_true_eq, hcount]

theorem WellFormed.exists_successor_of_isComplete [Std.TransOrd σ] [Std.LawfulEqOrd σ]
    (hd : d.WellFormed) (hc : d.isComplete = true) (hq : q < d.stateCount) (ha : a ∈ d.alphabet) :
    ∃ r, d.successor q a = some r := hd.isComplete_iff.1 hc q hq a ha

/-- A complete automaton reads exactly the words over its alphabet. -/
theorem WellFormed.exists_run_iff_of_isComplete [Std.TransOrd σ] [Std.LawfulEqOrd σ]
    (hd : d.WellFormed) (hc : d.isComplete = true) :
    (∃ q, d.run d.start w = some q) ↔ ∀ a ∈ w, a ∈ d.alphabet := by
  refine ⟨fun ⟨_, hq⟩ => hd.letter_mem_of_run hq, fun hw => ?_⟩
  induction w using List.reverseRecOn with
  | nil => exact ⟨d.start, run_nil⟩
  | append_singleton w a ih =>
    obtain ⟨hw, ha⟩ := List.forall_mem_append.1 hw
    obtain ⟨p, hp⟩ := ih hw
    obtain ⟨r, hr⟩ := hd.exists_successor_of_isComplete hc (hd.run_lt hd.start_lt hp)
      (ha a (List.mem_singleton_self a))
    exact ⟨r, run_concat_eq_some_iff.2 ⟨p, hp, hr⟩⟩

end WellFormed

end Kleene.Dfa
