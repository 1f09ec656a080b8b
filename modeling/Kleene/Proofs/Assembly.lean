import Kleene.Proofs.SubsetCompletion

/-!
# Changes that make up all others

Whatever is done to a deterministic automaton, and however it is made from others, it starts with
states and no transition, and then it gets states, marks and transitions one by one, and a
transition only where none was on the letter.  So what these changes keep holds of all automata that
can be built.
-/

namespace Kleene.Dfa

variable {σ : Type} [Ord σ] [DecidableEq σ] [Quotable σ] {P : Dfa σ → Prop} {d d' m : Dfa σ}
variable {e : Edge σ} {n : Nfa σ} {complete : Bool}

/-- What holds of all automata without transitions, and what new states, other marks and new
transitions keep. -/
structure KeptByChanges (P : Dfa σ → Prop) : Prop where
  bare : ∀ marks alphabet start, start < marks.length →
    P ⟨marks, Ascending.ofList alphabet, [], start⟩
  addState : ∀ d mark, P d → P (d.addState mark)
  setAccepting? : ∀ d q accepting d', P d → d.setAccepting? q accepting = .ok d' → P d'
  addEdge : ∀ d e, P d → d.successor e.source e.label = none → e.source < d.stateCount →
    e.target < d.stateCount → P (d.addEdges [e])

namespace KeptByChanges

variable (hP : KeptByChanges P)
include hP

theorem of_addEdge? (h : P d) (hadd : d.addEdge? e = .ok d') : P d' := by
  obtain ⟨-, rfl⟩ | ⟨hnone, hs, ht, rfl⟩ := addEdge?_cases hadd
  · exact h
  · exact hP.addEdge d e h hnone hs ht

/-! ## Descriptions -/

theorem of_ofParts {parts : Parts σ} (hparts : ofParts parts = .ok d) : P d := by
  obtain ⟨start, hstart, hfold⟩ := foldlM_of_ofParts hparts
  refine (of_foldlM_eq_ok (P := fun d => P d ∧
    d.stateCount = (Ascending.ofList parts.states).length) (fun d e d' h hadd => ?_) ?_ hfold).1
  · obtain rfl | ⟨s, hs, t, ht, hnone, rfl⟩ := addDescribed_cases hadd
    · exact h
    · exact ⟨hP.addEdge d _ h.1 hnone (h.2 ▸ hs) (h.2 ▸ ht), h.2⟩
  · refine ⟨hP.bare _ _ _ ?_, List.length_map _⟩
    rwa [List.length_map]

/-! ## Completion -/

theorem of_complete? (h : P d) (hcomplete : d.complete? = .ok d') : P d' := by
  unfold complete? completeWithin? at hcomplete
  split at hcomplete
  · cases hcomplete
    exact h
  · exact of_foldlM_eq_ok (fun _ _ _ h hadd => hP.of_addEdge? h hadd) (hP.addState d .trap h)
      hcomplete

/-! ## Subset construction -/

theorem of_visit? {source : State} {a : σ} {s : List State} {t t' : Draft σ} (h : P t.dfa)
    (hvisit : t.visit? .unlimited n source a s = .ok t') : P t'.dfa := by
  unfold Draft.visit? at hvisit
  split at hvisit
  · obtain ⟨dfa, hadd, heq⟩ := exists_of_bind_eq_ok hvisit
    cases heq
    exact hP.of_addEdge? h hadd
  · obtain ⟨grown, hgrown, hvisit⟩ := exists_of_bind_eq_ok hvisit
    obtain ⟨dfa, hadd, heq⟩ := exists_of_bind_eq_ok hvisit
    cases hgrown
    cases heq
    exact hP.of_addEdge? (hP.addState _ _ h) hadd

theorem of_expand? {i : State} {t t' : Draft σ} (h : P t.dfa)
    (hexpand : t.expand? .unlimited n complete i = .ok t') : P t'.dfa := by
  unfold Draft.expand? at hexpand
  split at hexpand
  · cases hexpand
  · refine of_foldlM_eq_ok (P := fun t => P t.dfa) (fun t a t' h hstep => ?_) h hexpand
    dsimp only at hstep
    split at hstep
    · cases hstep
      exact h
    · exact hP.of_visit? h hstep

theorem of_run? {rounds : Nat} {t t' : Draft σ} (h : P t.dfa)
    (hrun : Draft.run? .unlimited n complete rounds t = .ok (some t')) : P t'.dfa := by
  induction rounds generalizing t with
  | zero =>
    unfold Draft.run? at hrun
    split at hrun
    · cases hrun
      exact h
    · cases hrun
  | succ rounds ih =>
    unfold Draft.run? at hrun
    cases hpending : t.pending with
    | nil =>
      rw [hpending] at hrun
      cases hrun
      exact h
    | cons i rest =>
      rw [hpending] at hrun
      obtain ⟨u, hexpand, hrun⟩ := exists_of_bind_eq_ok hrun
      have htaken : P ({ t with pending := rest } : Draft σ).dfa := h
      exact ih (hP.of_expand? htaken hexpand) hrun

theorem of_toDfa? (htoDfa : n.toDfa? complete = .ok (some d)) : P d := by
  unfold Nfa.toDfa? Nfa.toDfaWithin? at htoDfa
  obtain ⟨first, hfirst, htoDfa⟩ := exists_of_bind_eq_ok htoDfa
  obtain ⟨t, hrun, ht⟩ := exists_of_bind_eq_ok htoDfa
  cases t with
  | none => cases ht
  | some t =>
    cases ht
    have hbare : P (single n.alphabet) := hP.bare [.plain] n.alphabet 0 Nat.one_pos
    have hstart : P first := hP.setAccepting? _ _ _ _ hbare hfirst
    exact hP.of_run? (t := ⟨_, _, _, first⟩) hstart hrun

/-! ## Minimization -/

theorem of_addLetter? {table : StateTable (Option Nat)} {leader : State} {i : Nat} {a : σ}
    (h : P m) (hadd : d.addLetter? table leader i m a = .ok d') : P d' := by
  unfold addLetter? at hadd
  split at hadd
  · cases hadd
    exact h
  · obtain ⟨j, -, hadd⟩ := exists_of_bind_eq_ok hadd
    cases j with
    | none =>
      cases hadd
      exact h
    | some j => exact hP.of_addEdge? h hadd

theorem of_addCell? {table : StateTable (Option Nat)} {cell : List State × Nat} (h : P m)
    (hadd : d.addCell? table m cell = .ok d') : P d' := by
  unfold addCell? at hadd
  split at hadd
  · cases hadd
  · exact of_foldlM_eq_ok (fun _ _ _ h hstep => hP.of_addLetter? h hstep) h hadd

variable [Std.TransOrd σ] [Std.LawfulEqOrd σ]

theorem of_quotient? {cells : List (List State)} (halphabet : Ascending.IsAscending d.alphabet)
    (hquotient : d.quotient? cells = .ok d') : P d' := by
  unfold quotient? at hquotient
  obtain ⟨table, -, hquotient⟩ := exists_of_bind_eq_ok hquotient
  obtain ⟨start, -, hquotient⟩ := exists_of_bind_eq_ok hquotient
  obtain ⟨hstart, hfold⟩ := requireState_bind_eq_ok_iff.1 hquotient
  refine of_foldlM_eq_ok (fun _ _ _ h hstep => hP.of_addCell? h hstep) ?_ hfold
  have hbare := hP.bare (d.quotient cells).marks d.alphabet (start.getD 0) hstart
  rwa [Ascending.ofList_eq_self halphabet] at hbare

theorem of_minimize? (halphabet : Ascending.IsAscending d.alphabet)
    (hminimize : d.minimize? = .ok (some d')) : P d' := by
  unfold minimize? at hminimize
  obtain ⟨-, -, hminimize⟩ := exists_of_bind_eq_ok hminimize
  split at hminimize
  · cases hminimize
    exact hP.bare [.plain] d.alphabet 0 Nat.one_pos
  · obtain ⟨r, -, hminimize⟩ := exists_of_bind_eq_ok hminimize
    cases r with
    | none => cases hminimize
    | some r =>
      change some <$> d.quotient? r.cells.toList = _ at hminimize
      cases hquotient : d.quotient? r.cells.toList with
      | error e =>
        rw [hquotient] at hminimize
        cases hminimize
      | ok q =>
        rw [hquotient] at hminimize
        cases hminimize
        exact hP.of_quotient? halphabet hquotient

/-! ## All automata that can be built -/

theorem of_built (h : Built d) : P d := by
  induction h with
  | single alphabet => exact hP.bare [.plain] alphabet 0 Nat.one_pos
  | ofParts hparts => exact hP.of_ofParts hparts
  | addState accepting _ ih => exact hP.addState _ _ ih
  | setAccepting? _ hset ih => exact hP.setAccepting? _ _ _ _ ih hset
  | addEdge? _ hadd ih => exact hP.of_addEdge? ih hadd
  | complete hd ih => exact hP.of_complete? ih hd.wellFormed.complete?_eq_ok
  | minimize hd _ =>
    exact hP.of_minimize? hd.wellFormed.alphabet_ascending hd.wellFormed.minimize?_eq_ok
  | toDfa complete hn => exact hP.of_toDfa? (hn.toDfa?_eq_ok complete)

end KeptByChanges

end Kleene.Dfa
