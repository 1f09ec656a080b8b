import Kleene.Proofs.Canonical

/-!
# Completion

Completion leads the missing transitions into a new state that nothing leaves again, so the old
states accept what they accepted before and the new one accepts no word.  Minimization before or
after it makes no difference: an automaton that is complete keeps its dead states, which become
one state, and otherwise they are left out and completion puts one state in their place.
-/

namespace Kleene.Dfa

variable {σ : Type} [Ord σ] [DecidableEq σ] {d e : Dfa σ} {p q r : State} {a : σ} {w : List σ}

/-! ## The trap that is added -/

/-- The automaton with a trap to which the missing transitions lead. -/
def withTrap (d : Dfa σ) : Dfa σ :=
  (d.addState .trap).addEdges
    ((d.missing.map fun qa => ⟨qa.1, qa.2, d.stateCount⟩) ++
      d.alphabet.map fun a => ⟨d.stateCount, a, d.stateCount⟩)

theorem complete_eq (d : Dfa σ) :
    d.missing = [] ∧ d.complete = d ∨ d.missing ≠ [] ∧ d.complete = d.withTrap := by
  unfold complete
  cases h : d.missing with
  | nil => exact .inl ⟨rfl, rfl⟩
  | cons qa rest =>
    refine .inr ⟨by simp, ?_⟩
    unfold withTrap
    rw [h]
    rfl

theorem start_complete (d : Dfa σ) : d.complete.start = d.start := by
  obtain ⟨-, heq⟩ | ⟨-, heq⟩ := complete_eq d
  · rw [heq]
  · rw [heq]
    rfl

@[simp] theorem stateCount_withTrap (d : Dfa σ) : d.withTrap.stateCount = d.stateCount + 1 :=
  stateCount_addState d .trap

/-- The old states keep their marks. -/
theorem getElem?_marks_withTrap (hq : q < d.stateCount) : d.withTrap.marks[q]? = d.marks[q]? :=
  List.getElem?_append_left hq

theorem getElem?_marks_withTrap_trap : d.withTrap.marks[d.stateCount]? = some .trap := by
  show (d.marks ++ [Mark.trap])[d.marks.length]? = _
  simp

theorem isFinal_withTrap (hq : q < d.stateCount) : d.withTrap.isFinal q = d.isFinal q := by
  unfold isFinal
  rw [getElem?_marks_withTrap hq]

theorem isTrap_withTrap (hq : q < d.stateCount) : d.withTrap.isTrap q = d.isTrap q := by
  unfold isTrap
  rw [getElem?_marks_withTrap hq]

/-- The old states keep their marks, and the new one, if there is one, is a trap. -/
theorem isTrap_complete_iff (hq : q < d.complete.stateCount) :
    d.complete.isTrap q = true ↔ d.isTrap q = true ∨ q = d.stateCount := by
  obtain ⟨-, heq⟩ | ⟨-, heq⟩ := complete_eq d
  · rw [heq] at hq ⊢
    exact (or_iff_left (Nat.ne_of_lt hq)).symm
  · rw [heq, stateCount_withTrap] at hq
    rw [heq]
    by_cases hold : q < d.stateCount
    · rw [isTrap_withTrap hold]
      exact (or_iff_left (Nat.ne_of_lt hold)).symm
    · have hnew : q = d.stateCount :=
        Nat.le_antisymm (Nat.le_of_lt_succ hq) (Nat.le_of_not_lt hold)
      refine iff_of_true ?_ (.inr hnew)
      unfold isTrap
      rw [hnew, getElem?_marks_withTrap_trap]
      rfl

section Laws

variable [Std.TransOrd σ] [Std.LawfulEqOrd σ]

omit [Std.TransOrd σ] in
/-- A new transition leads into the trap, from where one was missing or from the trap. -/
theorem mem_edges_withTrap : ⟨p, a, q⟩ ∈ d.withTrap.edges ↔ ⟨p, a, q⟩ ∈ d.edges ∨
    (q = d.stateCount ∧ ((p, a) ∈ d.missing ∨ (p = d.stateCount ∧ a ∈ d.alphabet))) := by
  unfold withTrap
  rw [mem_edges_addEdges, List.mem_append, List.mem_map, List.mem_map]
  constructor
  · rintro ((⟨⟨p', a'⟩, hmem, heq⟩ | ⟨a', ha, heq⟩) | he)
    · obtain ⟨rfl, rfl, rfl⟩ := Edge.mk.inj heq
      exact .inr ⟨rfl, .inl hmem⟩
    · obtain ⟨rfl, rfl, rfl⟩ := Edge.mk.inj heq
      exact .inr ⟨rfl, .inr ⟨rfl, ha⟩⟩
    · exact .inl he
  · rintro (he | ⟨rfl, hmem | ⟨rfl, ha⟩⟩)
    · exact .inr he
    · exact .inl (.inl ⟨_, hmem, rfl⟩)
    · exact .inl (.inr ⟨a, ha, rfl⟩)

theorem WellFormed.withTrap (hd : d.WellFormed) (hmissing : d.missing ≠ []) :
    d.withTrap.WellFormed := by
  obtain ⟨hnone, -⟩ | ⟨-, heq⟩ := complete_eq d
  · exact absurd hnone hmissing
  · exact heq ▸ hd.complete

theorem alphabet_withTrap (hd : d.WellFormed) : d.withTrap.alphabet = d.alphabet := by
  refine Ascending.insertAll_eq_self hd.alphabet_ascending fun a ha => ?_
  obtain ⟨⟨p, b, q⟩, he, rfl⟩ := List.mem_map.1 ha
  obtain he | he := List.mem_append.1 he
  · obtain ⟨qa, hmem, heq⟩ := List.mem_map.1 he
    obtain ⟨-, rfl, -⟩ := Edge.mk.inj heq
    exact (mem_missing.1 hmem).2.1
  · obtain ⟨c, hc, heq⟩ := List.mem_map.1 he
    obtain ⟨-, rfl, -⟩ := Edge.mk.inj heq
    exact hc

/-! ## What the states accept -/

section Trap

variable (hd : d.WellFormed) (hmissing : d.missing ≠ [])
include hd hmissing

theorem WellFormed.successor_withTrap_of_some (h : d.successor q a = some r) :
    d.withTrap.successor q a = some r :=
  (successor_eq_some_iff (hd.withTrap hmissing).deterministic).2
    (mem_edges_withTrap.2 (.inl (mem_edges_of_successor h)))

omit [Std.TransOrd σ] hmissing in
/-- Where no transition was, one leads into the trap or, on other letters, still none does. -/
theorem WellFormed.successor_withTrap_of_none (h : d.successor q a = none)
    (hr : d.withTrap.successor q a = some r) : r = d.stateCount := by
  obtain he | ⟨rfl, -⟩ := mem_edges_withTrap.1 (mem_edges_of_successor hr)
  · rw [(successor_eq_some_iff hd.deterministic).2 he] at h
    cases h
  · rfl

omit [Std.TransOrd σ] [Std.LawfulEqOrd σ] hmissing in
theorem WellFormed.successor_trap_eq_none (a : σ) : d.successor d.stateCount a = none := by
  cases h : d.successor d.stateCount a with
  | none => rfl
  | some r => exact absurd (hd.source_lt _ _ _ (mem_edges_of_successor h)) (Nat.lt_irrefl _)

omit [Std.TransOrd σ] hmissing in
/-- The trap accepts no word. -/
theorem WellFormed.acceptsFrom_trap (w : List σ) :
    d.withTrap.acceptsFrom d.stateCount w = false := by
  induction w with
  | nil =>
    rw [acceptsFrom_nil]
    unfold isFinal
    rw [getElem?_marks_withTrap_trap]
    rfl
  | cons a w ih =>
    cases h : d.withTrap.successor d.stateCount a with
    | none => exact acceptsFrom_cons_of_none h
    | some r =>
      rw [acceptsFrom_cons_of_some h,
        hd.successor_withTrap_of_none (hd.successor_trap_eq_none a) h, ih]

theorem WellFormed.acceptsFrom_withTrap (hq : q < d.stateCount) (w : List σ) :
    d.withTrap.acceptsFrom q w = d.acceptsFrom q w := by
  induction w generalizing q with
  | nil => exact isFinal_withTrap hq
  | cons a w ih =>
    cases h : d.successor q a with
    | some r =>
      rw [acceptsFrom_cons_of_some h,
        acceptsFrom_cons_of_some (hd.successor_withTrap_of_some hmissing h),
        ih (hd.successor_lt h)]
    | none =>
      rw [acceptsFrom_cons_of_none h]
      cases h' : d.withTrap.successor q a with
      | none => exact acceptsFrom_cons_of_none h'
      | some r =>
        rw [acceptsFrom_cons_of_some h', hd.successor_withTrap_of_none h h',
          hd.acceptsFrom_trap]

theorem WellFormed.run_withTrap_of_some (h : d.run p w = some q) :
    d.withTrap.run p w = some q := by
  induction w using List.reverseRecOn generalizing q with
  | nil => exact h
  | append_singleton w a ih =>
    obtain ⟨m, hm, hnext⟩ := run_concat_eq_some_iff.1 h
    exact run_concat_eq_some_iff.2 ⟨m, ih hm, hd.successor_withTrap_of_some hmissing hnext⟩

/-- The trap is reached where a letter was missing. -/
theorem WellFormed.reached_withTrap (hreached : ∀ q < d.stateCount, d.Reached q) :
    ∀ q < d.withTrap.stateCount, d.withTrap.Reached q := by
  have hold : ∀ q < d.stateCount, d.withTrap.Reached q := fun q hq =>
    (hreached q hq).imp fun _ hw => hd.run_withTrap_of_some hmissing hw
  intro q hq
  rw [stateCount_withTrap] at hq
  by_cases hlt : q < d.stateCount
  · exact hold q hlt
  · obtain ⟨⟨p, a⟩, hmem⟩ := List.exists_mem_of_ne_nil _ hmissing
    obtain ⟨w, hw⟩ := hold p (mem_missing.1 hmem).1
    have hnew : q = d.stateCount := by omega
    refine ⟨w ++ [a], run_concat_eq_some_iff.2 ⟨p, hw, ?_⟩⟩
    exact (successor_eq_some_iff (hd.withTrap hmissing).deterministic).2
      (mem_edges_withTrap.2 (.inr ⟨hnew, .inl hmem⟩))

/-- A word leads where it led before, or into the trap if it led nowhere. -/
theorem WellFormed.run_withTrap_cases (h : d.withTrap.run d.start w = some q) :
    d.run d.start w = some q ∨ (d.run d.start w = none ∧ q = d.stateCount) := by
  induction w using List.reverseRecOn generalizing q with
  | nil => exact .inl h
  | append_singleton w a ih =>
    obtain ⟨p, hp, hnext⟩ := run_concat_eq_some_iff.1 h
    obtain hold | ⟨hnone, rfl⟩ := ih hp
    · rw [run_append_of_some hold, run_singleton]
      cases hr : d.successor p a with
      | some r =>
        rw [hd.successor_withTrap_of_some hmissing hr] at hnext
        exact .inl hnext
      | none => exact .inr ⟨rfl, hd.successor_withTrap_of_none hr hnext⟩
    · rw [run_append, hnone]
      exact .inr ⟨rfl, hd.successor_withTrap_of_none (hd.successor_trap_eq_none a) hnext⟩

end Trap

/-! ## Complete automata -/

theorem WellFormed.isComplete_iff_missing (hd : d.WellFormed) :
    d.isComplete = true ↔ d.missing = [] := by
  rw [hd.isComplete_iff, List.eq_nil_iff_forall_not_mem]
  constructor
  · rintro hall ⟨q, a⟩ hmem
    obtain ⟨hq, ha, hnone⟩ := mem_missing.1 hmem
    obtain ⟨r, hr⟩ := hall q hq a ha
    rw [hnone] at hr
    cases hr
  · intro hnone q hq a ha
    cases h : d.successor q a with
    | some r => exact ⟨r, rfl⟩
    | none => exact absurd (mem_missing.2 ⟨hq, ha, h⟩) (hnone (q, a))

theorem WellFormed.complete_eq_self (hd : d.WellFormed) (hc : d.isComplete = true) :
    d.complete = d := by
  obtain ⟨-, heq⟩ | ⟨hmissing, -⟩ := complete_eq d
  · exact heq
  · exact absurd (hd.isComplete_iff_missing.1 hc) hmissing

/-- Completion makes an automaton complete. -/
theorem WellFormed.isComplete_complete (hd : d.WellFormed) : d.complete.isComplete = true := by
  obtain ⟨hmissing, heq⟩ | ⟨hmissing, heq⟩ := complete_eq d
  · rw [heq]
    exact hd.isComplete_iff_missing.2 hmissing
  · rw [heq]
    have hdeterministic := (hd.withTrap hmissing).deterministic
    refine (hd.withTrap hmissing).isComplete_iff.2 fun q hq a ha => ?_
    rw [alphabet_withTrap hd] at ha
    rw [stateCount_withTrap] at hq
    cases h : d.successor q a with
    | some r => exact ⟨r, hd.successor_withTrap_of_some hmissing h⟩
    | none =>
      refine ⟨d.stateCount, (successor_eq_some_iff hdeterministic).2 ?_⟩
      refine mem_edges_withTrap.2 (.inr ⟨rfl, ?_⟩)
      by_cases hold : q < d.stateCount
      · exact .inl (mem_missing.2 ⟨hold, ha, h⟩)
      · have hnew : q = d.stateCount := by omega
        exact .inr ⟨hnew, ha⟩

theorem WellFormed.alphabet_complete (hd : d.WellFormed) : d.complete.alphabet = d.alphabet := by
  obtain ⟨-, heq⟩ | ⟨-, heq⟩ := complete_eq d
  · rw [heq]
  · rw [heq, alphabet_withTrap hd]

theorem WellFormed.acceptsFrom_complete (hd : d.WellFormed) (hq : q < d.stateCount)
    (w : List σ) : d.complete.acceptsFrom q w = d.acceptsFrom q w := by
  obtain ⟨-, heq⟩ | ⟨hmissing, heq⟩ := complete_eq d
  · rw [heq]
  · rw [heq, hd.acceptsFrom_withTrap hmissing hq]

/-- Completion changes no verdict. -/
theorem WellFormed.accepts_complete (hd : d.WellFormed) (w : List σ) :
    d.complete.accepts w = d.accepts w := by
  show d.complete.acceptsFrom d.complete.start w = d.acceptsFrom d.start w
  rw [start_complete, hd.acceptsFrom_complete hd.start_lt]

theorem WellFormed.reached_complete (hd : d.WellFormed)
    (hreached : ∀ q < d.stateCount, d.Reached q) :
    ∀ q < d.complete.stateCount, d.complete.Reached q := by
  obtain ⟨-, heq⟩ | ⟨hmissing, heq⟩ := complete_eq d
  · rwa [heq]
  · rw [heq]
    exact hd.reached_withTrap hmissing hreached

/-- After completion the words over the alphabet that led nowhere lead into the trap, and all
others where they led before. -/
theorem WellFormed.run_complete_eq_some_iff (hd : d.WellFormed) :
    d.complete.run d.complete.start w = some q ↔ d.run d.start w = some q ∨
      (d.run d.start w = none ∧ q = d.stateCount ∧ ∀ a ∈ w, a ∈ d.alphabet) := by
  have hcases : ∀ r, d.complete.run d.start w = some r →
      d.run d.start w = some r ∨ (d.run d.start w = none ∧ r = d.stateCount) := by
    intro r hr
    obtain ⟨-, heq⟩ | ⟨hmissing, heq⟩ := complete_eq d
    · rw [heq] at hr
      exact .inl hr
    · rw [heq] at hr
      exact hd.run_withTrap_cases hmissing hr
  have hreads := hd.complete.exists_run_iff_of_isComplete hd.isComplete_complete (w := w)
  rw [start_complete, hd.alphabet_complete] at hreads
  rw [start_complete]
  constructor
  · intro hq
    exact (hcases q hq).imp_right fun h => ⟨h.1, h.2, hreads.1 ⟨q, hq⟩⟩
  · rintro (hq | ⟨hnone, rfl, hw⟩)
    · -- the word is over the alphabet, so it leads somewhere, and that is where it led before
      obtain ⟨r, hr⟩ := hreads.2 (hd.letter_mem_of_run hq)
      obtain hold | ⟨hnone, -⟩ := hcases r hr
      · rw [hr, ← hold, hq]
      · rw [hnone] at hq
        cases hq
    · obtain ⟨r, hr⟩ := hreads.2 hw
      obtain hold | ⟨-, rfl⟩ := hcases r hr
      · rw [hnone] at hold
        cases hold
      · exact hr

/-! ## Completion and minimization -/

/-- The mark of a trap is on exactly the states from which no word is accepted. -/
def MarksTraps (d : Dfa σ) : Prop :=
  ∀ q < d.stateCount, d.isTrap q = true ↔ ∀ w, d.acceptsFrom q w = false

theorem MarksTraps.withTrap (h : d.MarksTraps) (hd : d.WellFormed) (hmissing : d.missing ≠ []) :
    d.withTrap.MarksTraps := by
  intro q hq
  rw [stateCount_withTrap] at hq
  by_cases hold : q < d.stateCount
  · rw [isTrap_withTrap hold, h q hold]
    exact forall_congr' fun w => by rw [hd.acceptsFrom_withTrap hmissing hold]
  · have hnew : q = d.stateCount := by omega
    rw [hnew]
    refine iff_of_true ?_ (hd.acceptsFrom_trap)
    unfold isTrap
    rw [getElem?_marks_withTrap_trap]
    rfl

/-- If some word is accepted from every state, only the trap accepts none. -/
theorem WellFormed.eq_trap_of_acceptsFrom (hd : d.WellFormed) (hmissing : d.missing ≠ [])
    (htrim : d.Trim) (hq : q < d.stateCount + 1) (hnone : ∀ w, d.withTrap.acceptsFrom q w = false) :
    q = d.stateCount := by
  by_cases hold : q < d.stateCount
  · obtain ⟨w, hw⟩ := htrim q hold
    rw [← hd.acceptsFrom_withTrap hmissing hold, hnone w] at hw
    cases hw
  · exact Nat.le_antisymm (Nat.le_of_lt_succ hq) (Nat.le_of_not_lt hold)

/-- If some word is accepted from every state, the trap is different from all of them. -/
theorem Reduced.withTrap (h : d.Reduced) (hd : d.WellFormed) (hmissing : d.missing ≠ [])
    (htrim : d.Trim) : d.withTrap.Reduced := by
  constructor
  · exact hd.reached_withTrap hmissing h.reached
  · intro p hp q hq hsame
    rw [stateCount_withTrap] at hp hq
    by_cases hold : p < d.stateCount ∧ q < d.stateCount
    · refine h.separated p hold.1 q hold.2 fun w => ?_
      rw [← hd.acceptsFrom_withTrap hmissing hold.1, ← hd.acceptsFrom_withTrap hmissing hold.2]
      exact hsame w
    · -- one of the two is the trap, so that neither accepts a word
      have hnone : ∀ w, d.withTrap.acceptsFrom p w = false := by
        intro w
        have hnew : p = d.stateCount ∨ q = d.stateCount := by omega
        obtain rfl | rfl := hnew
        · exact hd.acceptsFrom_trap w
        · exact (hsame w).trans (hd.acceptsFrom_trap w)
      have hnone' : ∀ w, d.withTrap.acceptsFrom q w = false := fun w =>
        (hsame w).symm.trans (hnone w)
      rw [hd.eq_trap_of_acceptsFrom hmissing htrim hp hnone,
        hd.eq_trap_of_acceptsFrom hmissing htrim hq hnone']

/-- Complete automata in which no state could be left out or merged are isomorphic if they have
the same language and letters and both mark their traps. -/
theorem Reduced.nonempty_iso_of_isComplete (h : d.Reduced) (h' : e.Reduced) (hd : d.WellFormed)
    (he : e.WellFormed) (hc : d.isComplete = true) (hc' : e.isComplete = true)
    (halphabet : e.alphabet = d.alphabet) (hlanguage : ∀ w, e.accepts w = d.accepts w)
    (hmarks : d.MarksTraps) (hmarks' : e.MarksTraps) : Nonempty (Iso d e) := by
  have hforth : Follows d e := hd.follows_of_isComplete he halphabet hc'
  have hback : Follows e d := he.follows_of_isComplete hd halphabet.symm hc
  refine hforth.nonempty_iso hd he hlanguage hback h h' halphabet fun p hp q hq hsame => ?_
  rw [Bool.eq_iff_iff, hmarks p hp, hmarks' q hq]
  exact forall_congr' fun w => by rw [hsame]

theorem WellFormed.marksTraps_minimize (hd : d.WellFormed) (hword : ∃ w, d.accepts w = true) :
    d.minimize.MarksTraps := fun _ hq => hd.isTrap_minimize_iff hword hq

/-- Completion and minimization can change places; both ways the accepted words stay the same. -/
theorem WellFormed.nonempty_iso_complete_minimize (hd : d.WellFormed)
    (hword : ∃ w, d.accepts w = true) :
    (∀ w, d.complete.minimize.accepts w = d.accepts w ∧
      d.minimize.complete.accepts w = d.accepts w) ∧
    Nonempty (Iso d.complete.minimize d.minimize.complete) := by
  have haccepts : ∀ w, d.complete.minimize.accepts w = d.accepts w ∧
      d.minimize.complete.accepts w = d.accepts w := fun w =>
    ⟨(hd.complete.accepts_minimize w).trans (hd.accepts_complete w),
      (hd.minimize.accepts_complete w).trans (hd.accepts_minimize w)⟩
  refine ⟨haccepts, ?_⟩
  cases hc : d.isComplete with
  | true =>
    -- there is nothing to complete, neither before nor afterwards
    refine nonempty_iso_of_eq ?_
    rw [hd.complete_eq_self hc, hd.minimize.complete_eq_self (hd.isComplete_minimize hword hc)]
  | false =>
    have hword' : ∃ w, d.complete.accepts w = true := by
      obtain ⟨w, hw⟩ := hword
      exact ⟨w, (hd.accepts_complete w).trans hw⟩
    have htrim := hd.trim_minimize hword hc
    have hlanguage : ∀ w, d.minimize.complete.accepts w = d.complete.minimize.accepts w := fun w =>
      (haccepts w).2.trans (haccepts w).1.symm
    have halphabet : d.minimize.complete.alphabet = d.complete.minimize.alphabet := by
      rw [hd.minimize.alphabet_complete, alphabet_minimize hd, alphabet_minimize hd.complete,
        hd.alphabet_complete]
    have hside : d.minimize.complete.Reduced ∧ d.minimize.complete.MarksTraps := by
      obtain ⟨-, heq⟩ | ⟨hmissing, heq⟩ := complete_eq d.minimize
      · rw [heq]
        exact ⟨hd.reduced_minimize, hd.marksTraps_minimize hword⟩
      · rw [heq]
        exact ⟨hd.reduced_minimize.withTrap hd.minimize hmissing htrim,
          (hd.marksTraps_minimize hword).withTrap hd.minimize hmissing⟩
    exact hd.complete.reduced_minimize.nonempty_iso_of_isComplete hside.1 hd.complete.minimize
      hd.minimize.complete (hd.complete.isComplete_minimize hword' hd.isComplete_complete)
      hd.minimize.isComplete_complete halphabet hlanguage (hd.complete.marksTraps_minimize hword')
      hside.2

/-- A letter leads to acceptance and another one to a dead state; a third one is on no
transition, and one state is unreachable. -/
def deadEnd : Dfa Char :=
  ⟨[.plain, .accepting, .plain, .plain], ['a', 'b', 'c'],
    [⟨0, 'a', 1⟩, ⟨0, 'b', 2⟩, ⟨2, 'a', 2⟩, ⟨3, 'a', 1⟩], 0⟩

theorem nonempty_iso_complete_minimize_deadEnd :
    deadEnd.WellFormed ∧ (∃ w, deadEnd.accepts w = true) ∧
      deadEnd.minimize.complete.accepts ['b', 'a'] = false ∧
      Nonempty (Iso deadEnd.complete.minimize deadEnd.minimize.complete) :=
  have hd : deadEnd.WellFormed := wellFormed_of_ofParts
    (show ofParts ⟨[0, 1, 2, 3], ['a', 'b', 'c'],
      [⟨0, 'a', 1⟩, ⟨0, 'b', 2⟩, ⟨2, 'a', 2⟩, ⟨3, 'a', 1⟩], 0, [1]⟩ = .ok deadEnd from rfl)
  have hword : ∃ w, deadEnd.accepts w = true := ⟨['a'], by decide⟩
  have hlaws := hd.nonempty_iso_complete_minimize hword
  ⟨hd, hword, (hlaws.1 ['b', 'a']).2.trans (by decide), hlaws.2⟩

end Laws

end Kleene.Dfa
