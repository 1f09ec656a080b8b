import Kleene.Proofs.Changes

/-!
# Limits

Within limits, a change gives what it gives without them if there is room for that, and fails
otherwise.  An automaton never gets smaller while it is built, so what there is no room for on the
way there is no room for in the end, and a run of changes fails within limits exactly if its result
does not fit.
-/

namespace Kleene

/-! ## Results within limits -/

section Results

variable {ε α β ι : Type} {P : α → Prop} {Q : β → Prop} {x x' : Except ε α}

/-- Where the first computation has a result, the second one has the same if that has the property,
and fails otherwise. -/
def Restricts (P : α → Prop) (x x' : Except ε α) : Prop :=
  ∀ a, x = .ok a → (P a → x' = .ok a) ∧ (¬ P a → ∃ e, x' = .error e)

theorem Restricts.ok {a : α} (h : P a) : Restricts P (.ok a : Except ε α) (.ok a) := by
  rintro _ ⟨⟩
  exact ⟨fun _ => rfl, fun hnot => absurd h hnot⟩

theorem restricts_self (h : ∀ a, x = .ok a → P a) : Restricts P x x := fun a hx =>
  ⟨fun _ => hx, fun hnot => absurd (h a hx) hnot⟩

/-- A last step without the property fails, even if the first one fails already. -/
theorem Restricts.bind {f f' : α → Except ε β} (h : Restricts P x x')
    (hnext : ∀ a, P a → Restricts Q (f a) (f' a)) (hback : ∀ a b, f a = .ok b → Q b → P a) :
    Restricts Q (x >>= f) (x' >>= f') := by
  intro b hb
  obtain ⟨a, hx, hf⟩ := exists_of_bind_eq_ok hb
  by_cases ha : P a
  · rw [(h a hx).1 ha]
    exact hnext a ha b hf
  · obtain ⟨e, he⟩ := (h a hx).2 ha
    rw [he]
    exact ⟨fun hQ => absurd (hback a b hf hQ) ha, fun _ => ⟨e, rfl⟩⟩

/-- What a fold ends with it had from its start, if no step adds it. -/
theorem of_foldlM_eq_ok_back {f : α → ι → Except ε α} {xs : List ι} {a b : α}
    (hback : ∀ a x b, f a x = .ok b → P b → P a) (h : xs.foldlM f a = .ok b) (hb : P b) : P a := by
  by_contra ha
  have hlost : ∀ a x b, ¬ P a → f a x = .ok b → ¬ P b := fun a x b ha hx hb =>
    ha (hback a x b hx hb)
  exact of_foldlM_eq_ok hlost ha h hb

theorem Restricts.foldlM {f f' : α → ι → Except ε α} {xs : List ι} {a : α}
    (hstep : ∀ a, P a → ∀ x ∈ xs, Restricts P (f a x) (f' a x))
    (hback : ∀ a x b, f a x = .ok b → P b → P a) (ha : P a) :
    Restricts P (xs.foldlM f a) (xs.foldlM f' a) := by
  induction xs generalizing a with
  | nil => exact .ok ha
  | cons x xs ih =>
    rw [List.foldlM_cons, List.foldlM_cons]
    exact (hstep a ha x List.mem_cons_self).bind
      (fun b hb => ih (fun b hb y hy => hstep b hb y (List.mem_cons_of_mem x hy)) hb)
      fun b c => of_foldlM_eq_ok_back hback

end Results

/-! ## The size of an automaton -/

namespace Dfa

variable {σ : Type} {d d' d'' : Dfa σ} {e : Edge σ} {room : Room}

theorem fits_limited_iff {edges : Nat} :
    d.Fits (.limited edges) ↔ d.stateCount ≤ stateLimit ∧ d.edges.length ≤ edges := Iff.rfl

/-- The first automaton has no more states and no more transitions. -/
structure NoLarger (d d' : Dfa σ) : Prop where
  stateCount_le : d.stateCount ≤ d'.stateCount
  length_edges_le : d.edges.length ≤ d'.edges.length

theorem NoLarger.refl (d : Dfa σ) : NoLarger d d := ⟨Nat.le_refl _, Nat.le_refl _⟩

theorem NoLarger.trans (h : NoLarger d d') (h' : NoLarger d' d'') : NoLarger d d'' :=
  ⟨Nat.le_trans h.stateCount_le h'.stateCount_le,
    Nat.le_trans h.length_edges_le h'.length_edges_le⟩

theorem NoLarger.fits (h : NoLarger d d') (hfits : d'.Fits room) : d.Fits room := by
  cases room with
  | unlimited => trivial
  | limited edges =>
    exact ⟨Nat.le_trans h.stateCount_le hfits.1, Nat.le_trans h.length_edges_le hfits.2⟩

theorem noLarger_addState (d : Dfa σ) (mark : Mark) : NoLarger d (d.addState mark) :=
  ⟨by rw [stateCount_addState]; exact Nat.le_succ _, Nat.le_refl _⟩

/-- A state can be added if there is a number for it. -/
theorem restricts_addState? (h : d.Fits room) (mark : Mark) :
    Restricts (fun x => x.2.Fits room) (d.addState? .unlimited mark) (d.addState? room mark) := by
  cases room with
  | unlimited => exact restricts_self fun _ _ => trivial
  | limited edges =>
    rintro _ ⟨⟩
    have hfits : (d.addState mark).Fits (.limited edges) ↔ d.stateCount < stateLimit := by
      rw [fits_limited_iff, stateCount_addState]
      exact and_iff_left h.2
    have hstep : d.addState? (.limited edges) mark = if d.stateCount < stateLimit then
        .ok (d.stateCount, d.addState mark) else .error (.stateOutOfRange d.stateCount) := by
      show (do let q ← State.ofIndex d.stateCount; return (q, d.addState mark)) = _
      unfold State.ofIndex
      split <;> rfl
    rw [hstep]
    exact ⟨fun hgrown => if_pos (hfits.1 hgrown), fun hgrown => ⟨_, if_neg (mt hfits.2 hgrown)⟩⟩

section Edges

variable [Ord σ] [DecidableEq σ] [Quotable σ]

omit [DecidableEq σ] [Quotable σ] in
theorem noLarger_addEdges (d : Dfa σ) (es : List (Edge σ)) : NoLarger d (d.addEdges es) :=
  ⟨Nat.le_refl _, Ascending.le_length_insertAll _ _⟩

theorem noLarger_of_addEdge? (h : d.addEdge? e = .ok d') : NoLarger d d' := by
  obtain ⟨-, rfl⟩ | ⟨-, -, -, rfl⟩ := addEdge?_cases h
  · exact .refl _
  · exact noLarger_addEdges d [e]

theorem stateCount_of_addEdge? (h : d.addEdge? e = .ok d') : d'.stateCount = d.stateCount := by
  obtain ⟨-, rfl⟩ | ⟨-, -, -, rfl⟩ := addEdge?_cases h <;> rfl

/-- A transition can be added if there is a place for it. -/
theorem restricts_addEdge? (h : d.Fits room) (e : Edge σ) :
    Restricts (Fits room) (d.addEdge? e) (d.addEdgeWithin? room e) := by
  cases room with
  | unlimited => exact restricts_self fun _ _ => trivial
  | limited edges =>
    intro new hnew
    have hfits : new.Fits (.limited edges) ↔ new.edges.length ≤ edges := by
      rw [fits_limited_iff, stateCount_of_addEdge? hnew]
      exact and_iff_right h.1
    have hstep : d.addEdgeWithin? (.limited edges) e =
        if new.edges.length ≤ edges then .ok new else .error .outOfBounds := by
      show (do
        let new ← d.addEdge? e
        if new.edges.length ≤ edges then return new else throw Misuse.outOfBounds) = _
      rw [hnew]
      rfl
    rw [hstep]
    exact ⟨fun hn => if_pos (hfits.1 hn), fun hn => ⟨_, if_neg (mt hfits.2 hn)⟩⟩

theorem restricts_addEdges? (h : d.Fits room) (es : List (Edge σ)) :
    Restricts (Fits room) (es.foldlM addEdge? d) (es.foldlM (addEdgeWithin? room) d) :=
  Restricts.foldlM (fun _ h e _ => restricts_addEdge? h e)
    (fun _ _ _ hadd hnew => (noLarger_of_addEdge? hadd).fits hnew) h

/-- Completion fails within limits exactly if the trap or a transition is too much. -/
theorem restricts_complete? (h : d.Fits room) :
    Restricts (Fits room) d.complete? (d.completeWithin? room) := by
  unfold complete? completeWithin?
  split
  · exact .ok h
  · exact (restricts_addState? h .trap).bind (fun x hx => restricts_addEdges? hx _) fun x new =>
      of_foldlM_eq_ok_back fun _ _ _ hadd hnew => (noLarger_of_addEdge? hadd).fits hnew

end Edges

end Dfa

end Kleene
