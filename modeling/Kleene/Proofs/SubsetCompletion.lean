import Kleene.Proofs.CheckedMinimization
import Kleene.Proofs.Completion
import Kleene.Proofs.Determinization

/-!
# The empty set and the trap

Subset construction can follow all letters, and then the empty set is found like any other set; or
it can leave the empty set out, and completion adds a trap to the automaton afterwards.  The states
are numbered differently, and there is an additional state exactly if some letter leads nowhere.
Both automata read all words over the alphabet, and in both two words lead to one state exactly if
the same states are active after them, so the automata are isomorphic.
-/

namespace Kleene

/-! ## Completion that cannot fail -/

namespace Dfa

variable {σ : Type} [Ord σ] [DecidableEq σ] [Quotable σ] {d : Dfa σ}
variable [Std.TransOrd σ] [Std.LawfulEqOrd σ]

omit [Quotable σ] [Std.TransOrd σ] in
/-- Before its transitions are added, the trap is there already. -/
theorem WellFormed.partOf_withTrap (hd : d.WellFormed) : PartOf (d.addState .trap) d.withTrap :=
  ⟨hd.addState .trap, rfl, fun _ he => mem_edges_addEdges.2 (.inr he)⟩

/-- No transition to the trap contradicts another, so all of them can be added. -/
theorem WellFormed.complete?_eq_ok (hd : d.WellFormed) : d.complete? = .ok d.complete := by
  unfold complete? completeWithin?
  obtain ⟨hnone, heq⟩ | ⟨hmissing, heq⟩ := complete_eq d
  · rw [heq, hnone]
    rfl
  · have hne : ¬d.missing.isEmpty = true := by
      rwa [List.isEmpty_iff]
    rw [heq, if_neg hne]
    exact hd.partOf_withTrap.foldlM_addEdge?_eq_ok (hd.withTrap hmissing) fun e he =>
      mem_edges_addEdges.2 (.inl he)

end Dfa

/-! ## Two ways to one automaton -/

namespace Nfa

variable {σ : Type} [Ord σ] [DecidableEq σ] {n : Nfa σ} {w : List σ} {q : State}
variable [Std.TransOrd σ] [Std.LawfulEqOrd σ]

/-- If the empty set is followed, all words over the alphabet are read. -/
theorem WellFormed.keyedBy_toDfa (hn : n.WellFormed) :
    (n.toDfa true).KeyedBy (fun w => ∀ a ∈ w, a ∈ n.alphabet) n.active where
  exists_run_iff _ := (hn.toDfa true).exists_run_iff_of_isComplete hn.isComplete_toDfa
  eq_iff _ _ _ _ hp hq := hn.run_eq_run_iff hp hq

/-- The trap that completion adds stands for the empty set. -/
theorem WellFormed.run_complete_toDfa_eq_some_iff (hn : n.WellFormed) :
    (n.toDfa false).complete.run (n.toDfa false).complete.start w = some q ↔
      (n.toDfa false).run 0 w = some q ∨
        (n.active w = [] ∧ q = (n.toDfa false).stateCount ∧ ∀ a ∈ w, a ∈ n.alphabet) := by
  rw [(hn.toDfa false).run_complete_eq_some_iff, ← hn.run_eq_none_iff]
  exact Iff.rfl

theorem WellFormed.active_ne_nil_of_run (hn : n.WellFormed)
    (h : (n.toDfa false).run 0 w = some q) : n.active w ≠ [] := fun hnil => by
  rw [hn.run_eq_none_iff.2 hnil] at h
  cases h

theorem WellFormed.keyedBy_complete_toDfa (hn : n.WellFormed) :
    (n.toDfa false).complete.KeyedBy (fun w => ∀ a ∈ w, a ∈ n.alphabet) n.active where
  exists_run_iff w := by
    have hd := hn.toDfa false
    have hreads := hd.complete.exists_run_iff_of_isComplete hd.isComplete_complete (w := w)
    rwa [hd.alphabet_complete] at hreads
  eq_iff u v p q hp hq := by
    have hlt : ∀ {w r}, (n.toDfa false).run 0 w = some r → r < (n.toDfa false).stateCount :=
      fun hr => (hn.toDfa false).run_lt (hn.toDfa false).start_lt hr
    obtain hu | ⟨hu, rfl, -⟩ := hn.run_complete_toDfa_eq_some_iff.1 hp
    · obtain hv | ⟨hv, rfl, -⟩ := hn.run_complete_toDfa_eq_some_iff.1 hq
      · exact hn.run_eq_run_iff hu hv
      · rw [hv]
        exact iff_of_false (Nat.ne_of_lt (hlt hu)) (hn.active_ne_nil_of_run hu)
    · rw [hu]
      obtain hv | ⟨hv, rfl, -⟩ := hn.run_complete_toDfa_eq_some_iff.1 hq
      · exact iff_of_false (Nat.ne_of_gt (hlt hv)) (hn.active_ne_nil_of_run hv).symm
      · exact iff_of_true rfl hv.symm

/-! ## Traps -/

omit [Std.TransOrd σ] in
/-- A trap is where no state is active, whether the empty set was followed or not. -/
theorem WellFormed.isTrap_toDfa_of_run (hn : n.WellFormed) {complete : Bool}
    (h : (n.toDfa complete).run 0 w = some q) :
    (n.toDfa complete).isTrap q = true ↔ n.active w = [] := isTrap_toDfa_iff (hn.found_of_run h)

theorem WellFormed.isTrap_complete_toDfa_of_run (hn : n.WellFormed)
    (h : (n.toDfa false).complete.run (n.toDfa false).complete.start w = some q) :
    (n.toDfa false).complete.isTrap q = true ↔ n.active w = [] := by
  have hd := hn.toDfa false
  rw [Dfa.isTrap_complete_iff (hd.complete.run_lt hd.complete.start_lt h)]
  obtain hold | ⟨hnil, rfl, -⟩ := hn.run_complete_toDfa_eq_some_iff.1 h
  · rw [hn.isTrap_toDfa_of_run hold]
    exact or_iff_left (Nat.ne_of_lt (hd.run_lt hd.start_lt hold))
  · exact iff_of_true (.inr rfl) hnil

/-! ## The isomorphism -/

/-- Following the empty set makes the same automaton, up to the numbers of the states, as leaving it
out and completing the automaton afterwards.  No step on either way can fail. -/
theorem WellFormed.nonempty_iso_toDfa_complete [Quotable σ] (hn : n.WellFormed) :
    n.toDfa? true = .ok (some (n.toDfa true)) ∧
      n.toDfa? false = .ok (some (n.toDfa false)) ∧
        (n.toDfa false).complete? = .ok (n.toDfa false).complete ∧
          Nonempty (Dfa.Iso (n.toDfa true) (n.toDfa false).complete) := by
  have hd := hn.toDfa false
  refine ⟨hn.toDfa?_eq_ok true, hn.toDfa?_eq_ok false, hd.complete?_eq_ok, ?_⟩
  obtain ⟨f⟩ := hn.keyedBy_toDfa.nonempty_renumbering hn.keyedBy_complete_toDfa
  refine f.nonempty_iso (hn.toDfa true) hd.complete (fun p hp => hn.exists_run_toDfa hp)
    (hd.reached_complete fun q hq => hn.exists_run_toDfa hq) hd.alphabet_complete (fun w => ?_)
    fun w p q hp hq => ?_
  · rw [hd.accepts_complete, hn.accepts_toDfa, hn.accepts_toDfa]
  · rw [Bool.eq_iff_iff, hn.isTrap_complete_toDfa_of_run hq, hn.isTrap_toDfa_of_run hp]

/-- After a letter that cannot be the next one, no state is active. -/
theorem nonempty_iso_toDfa_complete_pairs : pairs.WellFormed ∧
    pairs.toDfa? true = .ok (some (pairs.toDfa true)) ∧
      pairs.toDfa? false = .ok (some (pairs.toDfa false)) ∧
        (pairs.toDfa false).complete? = .ok (pairs.toDfa false).complete ∧
          Nonempty (Dfa.Iso (pairs.toDfa true) (pairs.toDfa false).complete) :=
  ⟨wellFormed_pairs, wellFormed_pairs.nonempty_iso_toDfa_complete⟩

end Nfa

end Kleene
