import Kleene.Proofs.CheckedOperations
import Kleene.Proofs.ContainerElimination
import Kleene.Proofs.Synthesis

/-!
# Terminals that stay isolated

Isolation adds a state only where a terminal is not set apart yet.  So it leaves alone what is
isolated already, and one isolation is as good as two.  The automaton of a single letter and
whatever a regular operation yields are isolated from the start, however entangled the terminals
of the operands are.
-/

namespace Kleene.Nfa

variable {σ : Type} {a b n : Nfa σ}

/-- How many of the two terminals an isolation has to add. -/
def missingTerminals (n : Nfa σ) : Nat :=
  (if n.start = n.final || !(n.incoming n.start).isEmpty then 1 else 0) +
    (if !(n.outgoing n.final).isEmpty then 1 else 0)

theorem isolated_iff : n.Isolated ↔ n.start ≠ n.final ∧ (n.incoming n.start).isEmpty = true ∧
    (n.outgoing n.final).isEmpty = true := by
  rw [isEmpty_incoming, isEmpty_outgoing]
  exact ⟨fun h => ⟨h.start_ne_final, h.not_into_start, h.not_out_of_final⟩,
    fun ⟨hne, hinto, hout⟩ => ⟨hne, hinto, hout⟩⟩

variable [Ord σ]

/-! ## What isolation leaves alone -/

theorem Isolated.isolate_eq_self (h : n.Isolated) : n.isolate = n := by
  obtain ⟨hne, hinto, hout⟩ := isolated_iff.1 h
  have hstart : n.isolateStart = n := by simp [isolateStart, hne, hinto]
  have hfinal : n.isolateFinal = n := by simp [isolateFinal, hout]
  rw [isolate, hstart, hfinal]

theorem Isolated.isolate?_eq_self (h : n.Isolated) (hfit : n.fresh ≤ stateLimit) :
    n.isolate? = .ok n := by
  rw [isolate?, h.isolate_eq_self, fit, if_pos hfit]

section Isolation

variable [Std.LawfulEqOrd σ]

theorem WellFormed.fresh_isolate_eq (h : n.WellFormed) :
    n.isolate.fresh = n.fresh + n.missingTerminals := by
  rw [h.fresh_isolate, missingTerminals, Nat.add_assoc]

omit [Std.LawfulEqOrd σ] in
theorem WellFormed.stateCount_addState (h : n.WellFormed) :
    n.addState.stateCount = n.stateCount + 1 :=
  (Ascending.perm_insert h.fresh_notMem).length_eq

variable [Std.TransOrd σ]

/-- Every identifier that isolation hands out becomes one more state. -/
theorem WellFormed.stateCount_isolate (h : n.WellFormed) :
    n.isolate.stateCount = n.stateCount + n.missingTerminals := by
  have hstart : n.isolateStart.stateCount + n.fresh = n.stateCount + n.isolateStart.fresh := by
    obtain he | ⟨he, -⟩ := isolateStart_eq n <;> rw [he]
    show n.addState.stateCount + n.fresh = n.stateCount + (n.fresh + 1)
    rw [h.stateCount_addState]
    omega
  have hfinal : n.isolate.stateCount + n.isolateStart.fresh =
      n.isolateStart.stateCount + n.isolate.fresh := by
    obtain he | ⟨he, -⟩ := isolateFinal_eq n.isolateStart <;> rw [Nfa.isolate, he]
    show n.isolateStart.addState.stateCount + _ = _ + (n.isolateStart.fresh + 1)
    rw [h.isolateStart.stateCount_addState]
    omega
  rw [h.fresh_isolate_eq] at hfinal
  omega

end Isolation

/-! ## Results that are isolated -/

section Results

omit [Ord σ] in
theorem isolated_literal (c : σ) : (literal c).Isolated where
  start_ne_final := Nat.zero_ne_one
  not_into_start := by simp [literal]
  not_out_of_final := by simp [literal]

variable [Std.LawfulEqOrd σ]

theorem WellFormed.isolated_chain (ha : a.WellFormed) (hb : b.WellFormed) (hai : a.Isolated)
    (hbi : b.Isolated) : (chain a b).Isolated := by
  -- the final state of `b` is a newcomer, because only the start state is placed on `a`
  have hfinal : (chain a b).final ∉ a.states := fun hmem =>
    hbi.start_ne_final (ha.eq_start_of_place_mem_chain hmem).symm
  refine ⟨fun he => hfinal (he ▸ ha.start_mem), fun p l he => ?_, fun l q he => ?_⟩
  · rcases mem_edges_absorb.1 he with hedge | ⟨s, t, hedge, -, ht⟩
    · exact hai.not_into_start _ _ hedge
    · have hmem : place a b [(b.start, a.final)] t ∈ a.states := ht ▸ ha.start_mem
      exact hbi.not_into_start _ _ (ha.eq_start_of_place_mem_chain hmem ▸ hedge)
  · rcases mem_edges_absorb.1 he with hedge | ⟨s, t, hedge, hs, -⟩
    · exact hfinal (ha.source_mem _ _ _ hedge)
    · have hsource : b.final = s := ha.place_injective ha.seam_chain hb.final_mem hs
      exact hbi.not_out_of_final _ _ (hsource ▸ hedge)

theorem WellFormed.isolated_join (ha : a.WellFormed) (hb : b.WellFormed) (hai : a.Isolated)
    (hbi : b.Isolated) : (join a b).Isolated := by
  have hseam : Seam a [(b.start, a.start), (b.final, a.final)] := ha.seam_join hai hbi
  refine ⟨hai.start_ne_final, fun p l he => ?_, fun l q he => ?_⟩
  · rcases mem_edges_absorb.1 he with hedge | ⟨s, t, hedge, -, ht⟩
    · exact hai.not_into_start _ _ hedge
    · have htarget : b.start = t :=
        ha.place_injective hseam hb.start_mem ((place_start_join hbi).trans ht)
      exact hbi.not_into_start _ _ (htarget ▸ hedge)
  · rcases mem_edges_absorb.1 he with hedge | ⟨s, t, hedge, hs, -⟩
    · exact hai.not_out_of_final _ _ hedge
    · have hsource : b.final = s :=
        ha.place_injective hseam hb.final_mem ((place_final_join hbi).trans hs)
      exact hbi.not_out_of_final _ _ (hsource ▸ hedge)

theorem WellFormed.isolated_loop (h : n.WellFormed) {bypass : List (Edge (Label σ))}
    (hb : ∀ e ∈ bypass, e = epsilonEdge n.fresh (n.fresh + 1)) : (n.loop bypass).Isolated := by
  have hne : n.fresh ≠ n.fresh + 1 := (Nat.succ_ne_self _).symm
  have hstart : n.fresh ≠ n.start := fun he => h.fresh_notMem (he ▸ h.start_mem)
  refine ⟨hne, fun p l he => ?_, h.not_out_of_loop hb⟩
  rcases mem_edges_loop.1 he with he | he | he | he | he
  · exact hstart (Edge.mk.inj he).2.2
  · exact hstart (Edge.mk.inj he).2.2
  · exact hne (Edge.mk.inj he).2.2
  · exact hne (Edge.mk.inj (hb _ he)).2.2
  · exact h.fresh_notMem (h.target_mem _ _ _ he)

theorem WellFormed.isolated_star (h : n.WellFormed) : n.star.Isolated := h.isolated_loop (by simp)

theorem WellFormed.isolated_plus (h : n.WellFormed) : n.plus.Isolated := h.isolated_loop (by simp)

-- The way past an isolated automaton leads out of its start state and into its final state.
theorem Isolated.addEdges_bypass (h : n.Isolated) :
    (n.addEdges [epsilonEdge n.start n.final]).Isolated := by
  refine ⟨h.start_ne_final, fun p l he => ?_, fun l q he => ?_⟩
  · rcases mem_addEdges.1 he with he | he
    · exact h.start_ne_final (Edge.mk.inj (List.mem_singleton.1 he)).2.2
    · exact h.not_into_start _ _ he
  · rcases mem_addEdges.1 he with he | he
    · exact h.start_ne_final (Edge.mk.inj (List.mem_singleton.1 he)).1.symm
    · exact h.not_out_of_final _ _ he

variable [Std.TransOrd σ]

theorem WellFormed.isolated_concat (ha : a.WellFormed) (hb : b.WellFormed) :
    (concat a b).Isolated :=
  ha.isolate.isolated_chain hb.isolate ha.isolated_isolate hb.isolated_isolate

theorem WellFormed.isolated_union (ha : a.WellFormed) (hb : b.WellFormed) :
    (union a b).Isolated :=
  ha.isolate.isolated_join hb.isolate ha.isolated_isolate hb.isolated_isolate

theorem WellFormed.isolated_opt (h : n.WellFormed) : n.opt.Isolated :=
  h.isolated_isolate.addEdges_bypass

end Results

/-! ## Within the limit -/

/-- A well-formed automaton with isolated terminals, which isolation does not change. -/
structure Settled (n : Nfa σ) : Prop where
  wellFormed : n.WellFormed
  isolated : n.Isolated
  isolate?_eq : n.isolate? = .ok n

/-- If all identifiers below `last` may be handed out, there is a result with the property, and
otherwise they are exhausted. -/
def Supplies {α : Type} (x : Except Misuse α) (last : State) (property : α → Prop) : Prop :=
  (last ≤ stateLimit → ∃ y, x = .ok y ∧ property y) ∧
    (stateLimit < last → x = .error .statesExhausted)

omit [Ord σ] in
theorem supplies_within {property : Nfa σ → Prop} {last : State} (hle : n.fresh ≤ last)
    (h : n.fresh ≤ stateLimit → property n) : Supplies (n.within last) last property :=
  ⟨fun hlast => ⟨n, if_pos hlast, h (Nat.le_trans hle hlast)⟩,
    fun hlast => if_neg (Nat.not_le.2 hlast)⟩

theorem WellFormed.settled (h : n.WellFormed) (hi : n.Isolated) (hfit : n.fresh ≤ stateLimit) :
    n.Settled := ⟨h, hi, hi.isolate?_eq_self hfit⟩

section Settlement

variable [Std.TransOrd σ] [Std.LawfulEqOrd σ] [DecidableEq σ]

/-- Isolation isolates the terminals and keeps the accepted words, and a second isolation changes
nothing; nor does it change a single letter or the result of a regular operation. -/
theorem WellFormed.terminals_settled (ha : a.WellFormed) (hb : b.WellFormed) (c : σ) :
    Supplies a.isolate? (a.fresh + a.missingTerminals)
      (fun m => m.Settled ∧ m.accepted = a.accepted) ∧
    (literal c).Settled ∧
    Supplies (concat? a b)
      (max (b.fresh + b.missingTerminals)
        (a.fresh + a.missingTerminals + (b.stateCount + b.missingTerminals - 1))) Settled ∧
    Supplies (union? a b)
      (max (b.fresh + b.missingTerminals)
        (a.fresh + a.missingTerminals + (b.stateCount + b.missingTerminals - 2))) Settled ∧
    Supplies a.star? (a.fresh + 2) Settled ∧
    Supplies a.plus? (a.fresh + 2) Settled ∧
    Supplies a.opt? (a.fresh + a.missingTerminals) Settled := by
  rw [← ha.fresh_isolate_eq, ← hb.fresh_isolate_eq, ← hb.stateCount_isolate]
  refine ⟨?_, ?_, ?_, ?_, ?_, ?_, ?_⟩
  · refine supplies_within (Nat.le_refl _) fun hfit => ?_
    refine ⟨ha.isolate.settled ha.isolated_isolate hfit, ?_⟩
    rw [accepted_eq_language, accepted_eq_language, ha.language_isolate]
  · exact (wellFormed_literal c).settled (isolated_literal c)
      (show 2 ≤ stateLimit by decide)
  · rw [concat?_eq_within, hb.fresh_concat]
    exact supplies_within (hb.fresh_concat ▸ Nat.le_max_right _ _)
      ((wellFormed_concat ha hb).settled (ha.isolated_concat hb))
  · rw [union?_eq_within, hb.fresh_union]
    exact supplies_within (hb.fresh_union ▸ Nat.le_max_right _ _)
      ((wellFormed_union ha hb).settled (ha.isolated_union hb))
  · exact supplies_within (Nat.le_refl _) ((wellFormed_star ha).settled ha.isolated_star)
  · exact supplies_within (Nat.le_refl _) ((wellFormed_plus ha).settled ha.isolated_plus)
  · exact supplies_within (Nat.le_refl _) ((wellFormed_opt ha).settled ha.isolated_opt)

theorem terminals_settled_knot : knot.WellFormed ∧ swing.WellFormed ∧
    (∃ n, knot.isolate? = .ok n ∧ n.Settled ∧ n.accepted = knot.accepted) ∧
    (literal 'a').Settled ∧
    (∃ n, concat? knot swing = .ok n ∧ n.Settled) ∧
    (∃ n, union? knot swing = .ok n ∧ n.Settled) ∧
    (∃ n, knot.star? = .ok n ∧ n.Settled) ∧
    (∃ n, knot.plus? = .ok n ∧ n.Settled) ∧
    ∃ n, knot.opt? = .ok n ∧ n.Settled := by
  obtain ⟨hisolate, hliteral, hconcat, hunion, hstar, hplus, hopt⟩ :=
    wellFormed_knot.terminals_settled wellFormed_swing 'a'
  exact ⟨wellFormed_knot, wellFormed_swing, hisolate.1 (by decide), hliteral,
    hconcat.1 (by decide), hunion.1 (by decide), hstar.1 (by decide), hplus.1 (by decide),
    hopt.1 (by decide)⟩

end Settlement

/-- Not all automata can be isolated: a new terminal may need one identifier more than there
are. -/
theorem isolate?_not_total : ¬ ∀ n : Nfa Char, n.WellFormed →
    ∃ m, n.isolate? = .ok m ∧ m.Isolated ∧ m.accepted = n.accepted := by
  intro h
  have hfail : lastIdentifier.isolate? = .error .statesExhausted := by
    rw [isolate?, fit, if_neg (by decide)]
  obtain ⟨m, hm, -⟩ := h _ wellFormed_lastIdentifier
  rw [hfail] at hm
  cases hm

end Kleene.Nfa
