import Kleene.Proofs.Deterministic

/-!
# Changes of deterministic automata

New states, new marks and new transitions that contradict no other keep an automaton well formed,
and so do the checked changes, the reading of a description and completion.
-/

namespace Kleene

/-! ## Folding with failures -/

section Folding

variable {ε α β γ : Type} {f : β → α → Except ε β} {b b' : β} {c : γ} {xs : List α}

/-- If every step succeeds from related values and keeps them related, so does the whole fold. -/
theorem exists_foldlM_eq_ok {g : γ → α → γ} {R : γ → β → Prop}
    (hstep : ∀ c b, R c b → ∀ x ∈ xs, ∃ b', f b x = .ok b' ∧ R (g c x) b') (h : R c b) :
    ∃ b', xs.foldlM f b = .ok b' ∧ R (xs.foldl g c) b' := by
  induction xs generalizing b c with
  | nil => exact ⟨b, rfl, h⟩
  | cons x xs ih =>
    obtain ⟨b', hx, hnext⟩ := hstep c b h x List.mem_cons_self
    rw [List.foldlM_cons, hx, List.foldl_cons]
    exact ih (fun c b h y hy => hstep c b h y (List.mem_cons_of_mem _ hy)) hnext

/-- If every step succeeds and adds to what is known of the steps so far, so does the whole fold. -/
theorem exists_foldlM_eq_ok_of_steps {P : List α → β → Prop}
    (hstep : ∀ done b, P done b → ∀ x ∈ xs, ∃ b', f b x = .ok b' ∧ P (done ++ [x]) b')
    (h : P [] b) : ∃ b', xs.foldlM f b = .ok b' ∧ P xs b' := by
  have hdone : ∀ done ys : List α, ys.foldl (fun done x => done ++ [x]) done = done ++ ys := by
    intro done ys
    induction ys generalizing done with
    | nil => exact (List.append_nil done).symm
    | cons y ys ih => rw [List.foldl_cons, ih, List.append_assoc, List.singleton_append]
  obtain ⟨b', hfold, hP⟩ := exists_foldlM_eq_ok hstep h
  rw [hdone, List.nil_append] at hP
  exact ⟨b', hfold, hP⟩

/-- If every step succeeds with the value of `g`, so does the whole fold.  The steps may rely on
what the steps before them keep. -/
theorem foldlM_eq_ok_foldl {g : β → α → β} {P : β → Prop}
    (hstep : ∀ b, P b → ∀ x ∈ xs, f b x = .ok (g b x) ∧ P (g b x)) (hb : P b) :
    xs.foldlM f b = .ok (xs.foldl g b) ∧ P (xs.foldl g b) := by
  obtain ⟨b', hfold, rfl, hb'⟩ := exists_foldlM_eq_ok (f := f) (R := fun c b => b = c ∧ P c)
    (fun c b h x hx => ⟨g c x, h.1 ▸ (hstep c h.2 x hx).1, rfl, (hstep c h.2 x hx).2⟩) ⟨rfl, hb⟩
  exact ⟨hfold, hb'⟩

/-- What all steps that succeed keep, a fold that succeeds keeps. -/
theorem of_foldlM_eq_ok {P : β → Prop} (hstep : ∀ b x b', P b → f b x = .ok b' → P b')
    (hb : P b) (h : xs.foldlM f b = .ok b') : P b' := by
  induction xs generalizing b with
  | nil =>
    cases h
    exact hb
  | cons x xs ih =>
    rw [List.foldlM_cons] at h
    cases hx : f b x with
    | error e =>
      rw [hx] at h
      cases h
    | ok c =>
      rw [hx] at h
      exact ih (hstep b x c hb hx) h

/-- What succeeds has succeeded in its first step. -/
theorem exists_of_bind_eq_ok {x : Except ε α} {k : α → Except ε β} {y : β}
    (h : x >>= k = .ok y) : ∃ a, x = .ok a ∧ k a = .ok y := by
  cases x with
  | error e => cases h
  | ok a => exact ⟨a, rfl, h⟩

theorem forM_eq_ok {f : α → Except ε Unit} (h : ∀ x ∈ xs, f x = .ok ()) : xs.forM f = .ok () := by
  induction xs with
  | nil => rfl
  | cons x xs ih =>
    obtain ⟨hx, hxs⟩ := List.forall_mem_cons.1 h
    show (do f x; xs.forM f) = _
    rw [hx]
    exact ih hxs

end Folding

namespace Dfa

variable {σ : Type} [Ord σ] {d d' : Dfa σ} {p q r : State} {a : σ} {e : Edge σ} {es : List (Edge σ)}

/-! ## Marks and states -/

/-- Other marks, or more of them, keep an automaton well formed. -/
theorem WellFormed.withMarks (hd : d.WellFormed) {marks : List Mark}
    (hle : d.stateCount ≤ marks.length) : ({ d with marks := marks } : Dfa σ).WellFormed where
  start_lt := Nat.lt_of_lt_of_le hd.start_lt hle
  source_lt p a q he := Nat.lt_of_lt_of_le (hd.source_lt p a q he) hle
  target_lt p a q he := Nat.lt_of_lt_of_le (hd.target_lt p a q he) hle
  letter_mem := hd.letter_mem
  deterministic := hd.deterministic
  alphabet_ascending := hd.alphabet_ascending
  edges_ascending := hd.edges_ascending

omit [Ord σ] in
@[simp] theorem stateCount_addState (d : Dfa σ) (mark : Mark) :
    (d.addState mark).stateCount = d.stateCount + 1 := List.length_append

theorem WellFormed.addState (hd : d.WellFormed) (mark : Mark) : (d.addState mark).WellFormed :=
  hd.withMarks (by simp [stateCount])

omit [Ord σ] in
theorem requireState_eq_ok_iff : d.requireState q = .ok () ↔ q < d.stateCount := by
  unfold requireState
  split <;> simp_all

omit [Ord σ] in
/-- What needs a state succeeds if the state is there. -/
theorem requireState_bind_eq_ok_iff {α : Type} {x : Except Misuse α} {y : α} :
    (do d.requireState q; x) = .ok y ↔ q < d.stateCount ∧ x = .ok y := by
  by_cases hq : q < d.stateCount
  · rw [requireState_eq_ok_iff.2 hq]
    exact (and_iff_right hq).symm
  · have hfails : d.requireState q = .error .outOfBounds := if_neg hq
    rw [hfails]
    exact iff_of_false (fun h => by cases h) fun h => hq h.1

theorem WellFormed.of_setAccepting? (hd : d.WellFormed) {accepting : Bool}
    (h : d.setAccepting? q accepting = .ok d') : d'.WellFormed := by
  have hset : ∀ mark, ({ d with marks := d.marks.set q mark } : Dfa σ).WellFormed := fun mark =>
    hd.withMarks (by simp [stateCount])
  unfold setAccepting? at h
  obtain ⟨-, h⟩ := requireState_bind_eq_ok_iff.1 h
  split at h
  · cases h
    exact hset _
  · split at h
    · cases h
      exact hset _
    · cases h
      exact hd

/-! ## Transitions -/

section Edges

variable [Std.LawfulEqOrd σ]

theorem mem_edges_addEdges : e ∈ (d.addEdges es).edges ↔ e ∈ es ∨ e ∈ d.edges :=
  Ascending.mem_insertAll

variable [Std.TransOrd σ]

/-- New transitions between states keep an automaton well formed if none contradicts another. -/
theorem WellFormed.addEdges (hd : d.WellFormed)
    (hends : ∀ p a q, ⟨p, a, q⟩ ∈ es → p < d.stateCount ∧ q < d.stateCount)
    (hone : ∀ p a q r, ⟨p, a, q⟩ ∈ es → ⟨p, a, r⟩ ∈ es ∨ ⟨p, a, r⟩ ∈ d.edges → q = r) :
    (d.addEdges es).WellFormed where
  start_lt := hd.start_lt
  source_lt p a q he := (mem_edges_addEdges.1 he).elim (hends p a q · |>.1) (hd.source_lt p a q)
  target_lt p a q he := (mem_edges_addEdges.1 he).elim (hends p a q · |>.2) (hd.target_lt p a q)
  letter_mem p a q he := by
    refine Ascending.mem_insertAll.2 ((mem_edges_addEdges.1 he).imp (fun he => ?_)
      (hd.letter_mem p a q))
    exact List.mem_map.2 ⟨_, he, rfl⟩
  deterministic p a q r he hf := by
    obtain he | he := mem_edges_addEdges.1 he
    · exact hone p a q r he (mem_edges_addEdges.1 hf)
    · obtain hf | hf := mem_edges_addEdges.1 hf
      · exact (hone p a r q hf (.inr he)).symm
      · exact hd.deterministic p a q r he hf
  alphabet_ascending := Ascending.isAscending_insertAll hd.alphabet_ascending
  edges_ascending := Ascending.isAscending_insertAll hd.edges_ascending

/-- Adding transitions twice is adding all of them at once. -/
theorem WellFormed.addEdges_append (hd : d.WellFormed) {fs : List (Edge σ)} :
    (d.addEdges es).addEdges fs = d.addEdges (es ++ fs) := by
  unfold Dfa.addEdges
  congr 1
  · rw [List.map_append, Ascending.insertAll_append hd.alphabet_ascending]
  · exact Ascending.insertAll_append hd.edges_ascending

variable [DecidableEq σ]

theorem WellFormed.addEdge (hd : d.WellFormed) (hs : p < d.stateCount) (ht : q < d.stateCount)
    (hone : ∀ r, d.successor p a = some r → q = r) : (d.addEdges [⟨p, a, q⟩]).WellFormed := by
  have hcases : ∀ p' a' q', (⟨p', a', q'⟩ : Edge σ) ∈ [⟨p, a, q⟩] → p' = p ∧ a' = a ∧ q' = q :=
    fun p' a' q' he => Edge.mk.inj (List.mem_singleton.1 he)
  refine hd.addEdges (fun p' a' q' he => ?_) fun p' a' q' r he hf => ?_
  · obtain ⟨rfl, -, rfl⟩ := hcases p' a' q' he
    exact ⟨hs, ht⟩
  · obtain ⟨rfl, rfl, rfl⟩ := hcases p' a' q' he
    obtain hf | hf := hf
    · exact (hcases _ _ _ hf).2.2.symm
    · exact hone r ((successor_eq_some_iff hd.deterministic).2 hf)

/-- Adding a transition that is there changes nothing. -/
theorem WellFormed.addEdge_eq_self (hd : d.WellFormed) (h : d.successor p a = some q) :
    d.addEdges [⟨p, a, q⟩] = d := by
  have he := mem_edges_of_successor h
  show ({ d with
    alphabet := Ascending.insert a d.alphabet
    edges := Ascending.insert ⟨p, a, q⟩ d.edges } : Dfa σ) = d
  rw [Ascending.insert_eq_self hd.alphabet_ascending (hd.letter_mem _ _ _ he),
    Ascending.insert_eq_self hd.edges_ascending he]

variable [Quotable σ]

/-- A transition between states that contradicts no other can be added. -/
theorem WellFormed.addEdge?_eq_ok (hd : d.WellFormed) (hs : p < d.stateCount)
    (ht : q < d.stateCount) (hone : ∀ r, d.successor p a = some r → q = r) :
    d.addEdge? ⟨p, a, q⟩ = .ok (d.addEdges [⟨p, a, q⟩]) := by
  unfold addEdge?
  cases hr : d.successor p a with
  | some r =>
    have hqr := hone r hr
    subst hqr
    rw [hd.addEdge_eq_self hr]
    exact if_pos rfl
  | none =>
    exact requireState_bind_eq_ok_iff.2 ⟨hs, requireState_bind_eq_ok_iff.2 ⟨ht, rfl⟩⟩

omit [Std.LawfulEqOrd σ] [Std.TransOrd σ] in
/-- A transition that is accepted was there already, or it is new and between states. -/
theorem addEdge?_cases (h : d.addEdge? e = .ok d') :
    (d.successor e.source e.label = some e.target ∧ d' = d) ∨
      (d.successor e.source e.label = none ∧ e.source < d.stateCount ∧ e.target < d.stateCount ∧
        d' = d.addEdges [e]) := by
  unfold addEdge? at h
  cases hr : d.successor e.source e.label with
  | some r =>
    rw [hr] at h
    change (if r = e.target then _ else _) = _ at h
    split at h
    · rename_i heq
      cases h
      exact .inl ⟨congrArg some heq, rfl⟩
    · cases h
  | none =>
    rw [hr] at h
    obtain ⟨hs, h⟩ := requireState_bind_eq_ok_iff.1 h
    obtain ⟨ht, h⟩ := requireState_bind_eq_ok_iff.1 h
    cases h
    exact .inr ⟨rfl, hs, ht, rfl⟩

theorem WellFormed.of_addEdge? (hd : d.WellFormed) (h : d.addEdge? e = .ok d') :
    d'.WellFormed := by
  obtain ⟨-, rfl⟩ | ⟨hnone, hs, ht, rfl⟩ := addEdge?_cases h
  · exact hd
  · refine hd.addEdge hs ht fun r hr => ?_
    rw [hnone] at hr
    cases hr

/-! ## Descriptions -/

variable {parts : Parts σ}

omit [Ord σ] [Std.LawfulEqOrd σ] [Std.TransOrd σ] [DecidableEq σ] [Quotable σ] in
theorem lt_of_number? {i : Nat} (h : parts.number? q = some i) :
    i < (Ascending.ofList parts.states).length := (List.idxOf?_eq_some_iff.1 h).1

omit [Std.LawfulEqOrd σ] [Std.TransOrd σ] in
/-- A described transition that is accepted was there already, or it is new and between described
states. -/
theorem addDescribed_cases (h : addDescribed parts d e = .ok d') : d' = d ∨
    ∃ s < (Ascending.ofList parts.states).length, ∃ t < (Ascending.ofList parts.states).length,
      d.successor s e.label = none ∧ d' = d.addEdges [⟨s, e.label, t⟩] := by
  unfold addDescribed at h
  cases hs : parts.number? e.source with
  | none =>
    rw [hs] at h
    cases h
  | some s =>
    cases ht : parts.number? e.target with
    | none =>
      rw [hs, ht] at h
      cases h
    | some t =>
      rw [hs, ht] at h
      dsimp only at h
      cases hr : d.successor s e.label with
      | some r =>
        rw [hr] at h
        change (if r = t then _ else _) = _ at h
        split at h
        · cases h
          exact .inl rfl
        · cases h
      | none =>
        rw [hr] at h
        cases h
        exact .inr ⟨s, lt_of_number? hs, t, lt_of_number? ht, hr, rfl⟩

theorem WellFormed.of_addDescribed (hd : d.WellFormed)
    (hcount : d.stateCount = (Ascending.ofList parts.states).length)
    (h : addDescribed parts d e = .ok d') :
    d'.WellFormed ∧ d'.stateCount = (Ascending.ofList parts.states).length := by
  obtain rfl | ⟨s, hs, t, ht, hnone, rfl⟩ := addDescribed_cases h
  · exact ⟨hd, hcount⟩
  · refine ⟨hd.addEdge (hcount ▸ hs) (hcount ▸ ht) fun r hr => ?_, hcount⟩
    rw [hnone] at hr
    cases hr

omit [Std.LawfulEqOrd σ] [Std.TransOrd σ] in
/-- A description that is accepted is read transition by transition. -/
theorem foldlM_of_ofParts (h : ofParts parts = .ok d) :
    ∃ start < (Ascending.ofList parts.states).length,
      parts.transitions.foldlM (addDescribed parts)
        ⟨(Ascending.ofList parts.states).map fun q => Mark.ofAccepting (q ∈ parts.finals),
          Ascending.ofList parts.alphabet, [], start⟩ = .ok d := by
  unfold ofParts at h
  cases hs : parts.number? parts.start with
  | none =>
    rw [hs] at h
    cases h
  | some s =>
    rw [hs] at h
    dsimp only at h
    split at h
    · cases h
    · exact ⟨s, lt_of_number? hs, h⟩

/-- The automaton that a description stands for is well formed. -/
theorem wellFormed_of_ofParts (h : ofParts parts = .ok d) : d.WellFormed := by
  obtain ⟨start, hstart, h⟩ := foldlM_of_ofParts h
  refine (of_foldlM_eq_ok (P := fun d => d.WellFormed ∧
    d.stateCount = (Ascending.ofList parts.states).length)
    (fun d e d' hd hstep => hd.1.of_addDescribed hd.2 hstep) ?_ h).1
  -- the states come first, and no transition
  refine ⟨wellFormed_of_no_edges ?_ (Ascending.isAscending_ofList _), List.length_map _⟩
  rwa [List.length_map]

/-! ## Completion -/

omit [Ord σ] [Std.LawfulEqOrd σ] [Std.TransOrd σ] [Quotable σ] in
theorem mem_missing : (p, a) ∈ d.missing ↔
    p < d.stateCount ∧ a ∈ d.alphabet ∧ d.successor p a = none := by
  unfold missing states
  simp only [List.mem_flatMap, List.mem_range, List.mem_map, List.mem_filter, Prod.mk.injEq,
    Option.isNone_iff_eq_none]
  constructor
  · rintro ⟨q, hq, b, ⟨hb, hnone⟩, rfl, rfl⟩
    exact ⟨hq, hb, hnone⟩
  · rintro ⟨hp, ha, hnone⟩
    exact ⟨p, hp, a, ⟨ha, hnone⟩, rfl, rfl⟩

omit [Quotable σ] in
/-- A trap for the missing transitions keeps an automaton well formed. -/
theorem WellFormed.complete (hd : d.WellFormed) : d.complete.WellFormed := by
  unfold Dfa.complete
  split
  · exact hd
  · -- a new transition leads into the trap, from where one was missing or from the trap itself
    have hnew : ∀ p a q, (⟨p, a, q⟩ : Edge σ) ∈
        ((d.missing.map fun qa => ⟨qa.1, qa.2, d.stateCount⟩) ++
          d.alphabet.map fun a => ⟨d.stateCount, a, d.stateCount⟩) →
        q = d.stateCount ∧ (p = d.stateCount ∨ (p < d.stateCount ∧ d.successor p a = none)) := by
      intro p a q he
      obtain he | he := List.mem_append.1 he
      · obtain ⟨⟨p', b⟩, hmem, heq⟩ := List.mem_map.1 he
        obtain ⟨rfl, rfl, rfl⟩ := Edge.mk.inj heq
        obtain ⟨hlt, -, hnone⟩ := mem_missing.1 hmem
        exact ⟨rfl, .inr ⟨hlt, hnone⟩⟩
      · obtain ⟨b, -, heq⟩ := List.mem_map.1 he
        obtain ⟨rfl, rfl, rfl⟩ := Edge.mk.inj heq
        exact ⟨rfl, .inl rfl⟩
    refine (hd.addState .trap).addEdges (fun p a q he => ?_) fun p a q r he hf => ?_
    · rw [stateCount_addState]
      obtain ⟨rfl, hp⟩ := hnew p a q he
      have hle : p ≤ d.stateCount := hp.elim Nat.le_of_eq fun h => Nat.le_of_lt h.1
      omega
    · obtain ⟨rfl, hp⟩ := hnew p a q he
      obtain hf | hf := hf
      · exact (hnew p a r hf).1.symm
      · have hold : ⟨p, a, r⟩ ∈ d.edges := hf
        obtain rfl | ⟨-, hnone⟩ := hp
        · exact absurd (hd.source_lt _ _ _ hold) (Nat.lt_irrefl _)
        · rw [(successor_eq_some_iff hd.deterministic).2 hold] at hnone
          cases hnone

end Edges

end Dfa

end Kleene
