import Mathlib.Data.Fintype.BigOperators
import Kleene.Proofs.Determinization
import Kleene.Proofs.Evaluation
import Kleene.Proofs.Limits

/-!
# Subset construction within limits

A search that comes to its end does so within limits as well, unless the automaton outgrows its room
on the way; then it fails.  A small automaton may have more reachable subsets than there are numbers
for states: to know whether a given letter from the end was an `a`, all letters behind it have to be
kept in mind.
-/

namespace Kleene

variable {σ : Type} [Ord σ] [DecidableEq σ] {n : Nfa σ} {complete : Bool} {room : Room}

/-! ## The search -/

namespace Draft

variable [Quotable σ] {t t' : Draft σ} {i : State} {a : σ} {s : List State}

/-- Whether the automaton, as far as it is built, has room. -/
def Fits (room : Room) (t : Draft σ) : Prop := t.dfa.Fits room

theorem noLarger_of_visit? (h : t.visit? .unlimited n i a s = .ok t') : t.dfa.NoLarger t'.dfa := by
  unfold visit? at h
  split at h
  · obtain ⟨d, hadd, heq⟩ := exists_of_bind_eq_ok h
    cases heq
    exact Dfa.noLarger_of_addEdge? hadd
  · obtain ⟨grown, hgrown, h⟩ := exists_of_bind_eq_ok h
    obtain ⟨d, hadd, heq⟩ := exists_of_bind_eq_ok h
    cases hgrown
    cases heq
    exact (Dfa.noLarger_addState _ _).trans (Dfa.noLarger_of_addEdge? hadd)

theorem restricts_visit? (h : t.Fits room) (n : Nfa σ) (i : State) (a : σ) (s : List State) :
    Restricts (Fits room) (t.visit? .unlimited n i a s) (t.visit? room n i a s) := by
  unfold visit?
  cases t.numbers.lookup s with
  | some j =>
    refine (Dfa.restricts_addEdge? h _).bind (fun d hd => Restricts.ok hd) ?_
    rintro d _ ⟨⟩ hd
    exact hd
  | none =>
    refine (Dfa.restricts_addState? h _).bind (fun x hx => ?_) ?_
    · refine (Dfa.restricts_addEdge? hx _).bind (fun d hd => Restricts.ok hd) ?_
      rintro d _ ⟨⟩ hd
      exact hd
    · intro x t' hnext hd
      obtain ⟨d, hadd, heq⟩ := exists_of_bind_eq_ok hnext
      cases heq
      exact (Dfa.noLarger_of_addEdge? hadd).fits hd

/-- Following one letter, unless it leads nowhere and the empty set is left out. -/
theorem noLarger_of_follow? {skip : Bool}
    (h : (if skip then .ok t else t.visit? .unlimited n i a s) = .ok t') :
    t.dfa.NoLarger t'.dfa := by
  split at h
  · cases h
    exact .refl _
  · exact noLarger_of_visit? h

theorem noLarger_of_expand? (h : t.expand? .unlimited n complete i = .ok t') :
    t.dfa.NoLarger t'.dfa := by
  unfold expand? at h
  split at h
  · cases h
  · exact of_foldlM_eq_ok (P := fun u => t.dfa.NoLarger u.dfa)
      (fun u a u' hu hstep => hu.trans (noLarger_of_follow? hstep)) (.refl _) h

theorem restricts_expand? (h : t.Fits room) (n : Nfa σ) (complete : Bool) (i : State) :
    Restricts (Fits room) (t.expand? .unlimited n complete i) (t.expand? room n complete i) := by
  unfold expand?
  cases t.found[i]? with
  | none => exact restricts_self fun _ herror => by cases herror
  | some s =>
    refine Restricts.foldlM (fun t ht a _ => ?_)
      (fun _ _ _ hstep hfits => (noLarger_of_follow? hstep).fits hfits) h
    dsimp only
    split
    · exact .ok ht
    · exact restricts_visit? ht n i a _

theorem noLarger_of_run? {rounds : Nat} (h : run? .unlimited n complete rounds t = .ok (some t')) :
    t.dfa.NoLarger t'.dfa := by
  induction rounds generalizing t with
  | zero =>
    unfold run? at h
    split at h <;> cases h
    exact .refl _
  | succ rounds ih =>
    unfold run? at h
    split at h
    · cases h
      exact .refl _
    · obtain ⟨u, hexpand, hrun⟩ := exists_of_bind_eq_ok h
      have htaken := noLarger_of_expand? hexpand
      exact htaken.trans (ih hrun)

/-- A search that comes to its end does so within limits, too, if what it ends with fits, and fails
otherwise. -/
theorem run?_eq_of_run? {rounds : Nat} (ht : t.Fits room)
    (h : run? .unlimited n complete rounds t = .ok (some t')) :
    (t'.Fits room → run? room n complete rounds t = .ok (some t')) ∧
    (¬ t'.Fits room → ∃ misuse, run? room n complete rounds t = .error misuse) := by
  induction rounds generalizing t with
  | zero =>
    unfold run? at h ⊢
    split at h <;> cases h
    rename_i hpending
    rw [if_pos hpending]
    exact ⟨fun _ => rfl, fun hnot => absurd ht hnot⟩
  | succ rounds ih =>
    unfold run? at h ⊢
    cases hpending : t.pending with
    | nil =>
      rw [hpending] at h
      cases h
      exact ⟨fun _ => rfl, fun hnot => absurd ht hnot⟩
    | cons i rest =>
      rw [hpending] at h
      obtain ⟨u, hexpand, hrun⟩ := exists_of_bind_eq_ok h
      have htaken : Fits room { t with pending := rest } := ht
      obtain ⟨hfits, hover⟩ := restricts_expand? htaken n complete i u hexpand
      show (_ → (expand? room n complete i { t with pending := rest } >>=
        run? room n complete rounds) = _) ∧ (_ → ∃ misuse,
          (expand? room n complete i { t with pending := rest } >>=
            run? room n complete rounds) = _)
      by_cases hu : u.Fits room
      · rw [hfits hu]
        exact ih hu hrun
      · obtain ⟨misuse, hmisuse⟩ := hover hu
        rw [hmisuse]
        exact ⟨fun ht' => absurd ((noLarger_of_run? hrun).fits ht') hu, fun _ => ⟨misuse, rfl⟩⟩

end Draft

/-! ## Determinization -/

/-- The draft that the search starts from. -/
def Draft.start (n : Nfa σ) : Draft σ :=
  ⟨[n.initial], [(n.initial, 0)], [0], Subsets.automaton n ⟨[n.initial], [(0, n.initial)], []⟩⟩

omit [DecidableEq σ] in
/-- There is always room for the start. -/
theorem Draft.fits_start (n : Nfa σ) (room : Room) : (Draft.start n).Fits room := by
  have hlimit : 1 ≤ stateLimit := by decide
  cases room with
  | unlimited => trivial
  | limited edges => exact ⟨hlimit, Nat.zero_le edges⟩

namespace Nfa

variable [Std.TransOrd σ] [Std.LawfulEqOrd σ] [Quotable σ]

theorem WellFormed.toDfaWithin?_eq_map (hn : n.WellFormed) (room : Room) (complete : Bool) :
    n.toDfaWithin? room complete =
      (Draft.run? room n complete (2 ^ n.states.length) (.start n)).map (Option.map Draft.dfa) := by
  unfold toDfaWithin?
  rw [hn.setAccepting?_single]
  show (Draft.run? room n complete (2 ^ n.states.length) (.start n) >>= fun t =>
    .ok (t.map Draft.dfa)) = _
  cases Draft.run? room n complete (2 ^ n.states.length) (.start n) <;> rfl

/-- Determinizing fails within limits exactly if the automaton does not fit. -/
theorem WellFormed.toDfaWithin?_eq (hn : n.WellFormed) (room : Room) (complete : Bool) :
    ((n.toDfa complete).Fits room →
      n.toDfaWithin? room complete = .ok (some (n.toDfa complete))) ∧
    (¬ (n.toDfa complete).Fits room →
      ∃ misuse, n.toDfaWithin? room complete = .error misuse) := by
  have hend : n.toDfaWithin? .unlimited complete = .ok (some (n.toDfa complete)) :=
    hn.toDfa?_eq_ok complete
  rw [hn.toDfaWithin?_eq_map] at hend ⊢
  obtain ⟨u, hrun, hu⟩ := exists_of_map_eq_ok hend
  obtain ⟨t, rfl, hdfa⟩ := Option.map_eq_some_iff.1 hu
  obtain ⟨hfits, hover⟩ := Draft.run?_eq_of_run? (Draft.fits_start n room) hrun
  rw [← hdfa]
  refine ⟨fun h => ?_, fun h => ?_⟩
  · rw [hfits h]
    rfl
  · obtain ⟨misuse, hmisuse⟩ := hover h
    exact ⟨misuse, congrArg (Except.map (Option.map Draft.dfa)) hmisuse⟩

/-- Determinizing comes to its end, and fails exactly if the automaton outgrows its room.  The
automaton has no more states than there are sets of states, accepts the same words, and its states,
which all are reached, stand for the sets of active states.  It is complete, or else reads a word
unless no state is active after it. -/
theorem WellFormed.toDfaWithin?_spec (hn : n.WellFormed) (complete : Bool) :
    (∀ room,
      ((n.toDfa complete).Fits room →
        n.toDfaWithin? room complete = .ok (some (n.toDfa complete))) ∧
      (¬ (n.toDfa complete).Fits room →
        ∃ misuse, n.toDfaWithin? room complete = .error misuse)) ∧
    (n.toDfa complete).stateCount ≤ 2 ^ n.states.length ∧
    (∀ w, (n.toDfa complete).accepts w = n.accepts w) ∧
    (∀ u v p q, (n.toDfa complete).run (n.toDfa complete).start u = some p →
      (n.toDfa complete).run (n.toDfa complete).start v = some q →
      (p = q ↔ n.active u = n.active v)) ∧
    (n.toDfa complete).start = 0 ∧
    (∀ q < (n.toDfa complete).stateCount, ∃ w, (n.toDfa complete).run 0 w = some q) ∧
    (complete = true → (n.toDfa complete).isComplete = true) ∧
    (complete = false → ∀ w, (n.toDfa complete).run 0 w = none ↔ n.active w = []) :=
  ⟨fun room => hn.toDfaWithin?_eq room complete, hn.toDfa_spec complete⟩

/-- Eight transitions need eight places. -/
theorem toDfaWithin?_spec_pairs :
    pairs.toDfaWithin? (.limited 8) true = .ok (some (pairs.toDfa true)) ∧
    (∃ misuse, pairs.toDfaWithin? (.limited 7) true = .error misuse) ∧
    (pairs.toDfa true).isComplete = true ∧
    ∀ w, (pairs.toDfa false).run 0 w = none ↔ pairs.active w = [] := by
  have hstates : (pairs.toDfa true).stateCount = 4 := by decide +kernel
  have hedges : (pairs.toDfa true).edges.length = 8 := by decide +kernel
  have hfits : (pairs.toDfa true).Fits (.limited 8) := ⟨hstates ▸ by decide, hedges ▸ Nat.le_refl 8⟩
  have hover : ¬ (pairs.toDfa true).Fits (.limited 7) := fun h =>
    absurd h.2 (by rw [hedges]; decide)
  obtain ⟨hroom, -, -, -, -, -, hcomplete, -⟩ := wellFormed_pairs.toDfaWithin?_spec true
  obtain ⟨-, -, -, -, -, -, -, hread⟩ := wellFormed_pairs.toDfaWithin?_spec false
  exact ⟨(hroom _).1 hfits, (hroom _).2 hover, hcomplete rfl, hread rfl⟩

end Nfa

/-! ## An automaton with many subsets -/

namespace Nfa

def letterOf (b : Bool) : Char := if b then 'a' else 'b'

/-- A loop on either letter, and from there a chain that only an `a` leads into. -/
def lookbackEdges (k : Nat) : List (Edge (Label Char)) :=
  ([true, false].map fun b => ⟨0, .symbol (letterOf b), 0⟩) ++
    (List.range k).flatMap fun i =>
      ([true, false].filter fun b => b || 0 < i).map fun b => ⟨i, .symbol (letterOf b), i + 1⟩

/-- Accepts the words of two letters whose `k`-th letter from the end is an `a`; no transition carries
an idle letter. -/
def lookback (idle : List Char) (k : Nat) : Nfa Char :=
  (ofCount idle (k + 1) 0 k).addEdges (lookbackEdges k)

variable {idle : List Char} {k i : Nat} {e : Edge (Label Char)} {p q : State} {bs : List Bool}

theorem letterOf_injective : Function.Injective letterOf := by decide

theorem mem_lookbackEdges : e ∈ lookbackEdges k ↔
    (∃ b, e = ⟨0, .symbol (letterOf b), 0⟩) ∨
      ∃ i < k, ∃ b, (b = true ∨ 0 < i) ∧ e = ⟨i, .symbol (letterOf b), i + 1⟩ := by
  have hbool : ∀ b, b ∈ [true, false] := by decide
  unfold lookbackEdges
  simp only [List.mem_append, List.mem_flatMap, List.mem_range, List.mem_map, List.mem_filter,
    Bool.or_eq_true, decide_eq_true_eq, hbool, true_and, @eq_comm _ _ e]

theorem mem_edges_lookback : e ∈ (lookback idle k).edges ↔ e ∈ lookbackEdges k :=
  mem_addEdges.trans (or_iff_left List.not_mem_nil)

theorem wellFormed_lookback (idle : List Char) (k : Nat) : (lookback idle k).WellFormed := by
  have hbare : (ofCount idle (k + 1) 0 k).WellFormed :=
    wellFormed_ofCount (Nat.succ_pos k) (Nat.lt_succ_self k)
  refine hbare.addEdges fun p l q he => ?_
  show p ∈ List.range (k + 1) ∧ q ∈ List.range (k + 1)
  rw [List.mem_range, List.mem_range]
  obtain ⟨b, he⟩ | ⟨i, hi, b, -, he⟩ := mem_lookbackEdges.1 he
  · obtain ⟨rfl, -, rfl⟩ := Edge.mk.inj he
    exact ⟨Nat.succ_pos k, Nat.succ_pos k⟩
  · obtain ⟨rfl, -, rfl⟩ := Edge.mk.inj he
    exact ⟨Nat.lt_succ_of_lt hi, Nat.succ_lt_succ hi⟩

/-- There are no ε-transitions to follow. -/
theorem reaches_lookback_iff : Reaches (lookback idle k).epsilonArrows p q ↔ p = q := by
  constructor
  · intro h
    cases h with
    | refl => rfl
    | tail _ harrow =>
      obtain ⟨b, he⟩ | ⟨i, -, b, -, he⟩ :=
        mem_lookbackEdges.1 (mem_edges_lookback.1 (mem_epsilonArrows.1 harrow)) <;>
      cases (Edge.mk.inj he).2.1
  · rintro rfl
    exact .refl p

theorem mem_initial_lookback : q ∈ (lookback idle k).initial ↔ q = 0 :=
  mem_closure.trans (reaches_lookback_iff.trans eq_comm)

theorem mem_step_lookback {s : List State} {a : Char} :
    q ∈ (lookback idle k).step s a ↔ ∃ p ∈ s, ⟨p, .symbol a, q⟩ ∈ lookbackEdges k := by
  simp only [mem_step, reaches_lookback_iff, mem_edges_lookback, exists_eq_right]

/-- A step moves along the chain, and only an `a` leads into it. -/
theorem succ_mem_step_lookback_iff {s : List State} {b : Bool} (hi : i < k) :
    i + 1 ∈ (lookback idle k).step s (letterOf b) ↔ i ∈ s ∧ (b = true ∨ 0 < i) := by
  rw [mem_step_lookback]
  constructor
  · rintro ⟨p, hp, he⟩
    obtain ⟨c, he⟩ | ⟨j, -, c, hc, he⟩ := mem_lookbackEdges.1 he
    · exact absurd (Edge.mk.inj he).2.2 (Nat.succ_ne_zero i)
    · obtain ⟨rfl, hletter, hsucc⟩ := Edge.mk.inj he
      obtain rfl := Nat.succ.inj hsucc
      obtain rfl := letterOf_injective (Label.symbol.inj hletter)
      exact ⟨hp, hc⟩
  · rintro ⟨hp, hb⟩
    exact ⟨i, hp, mem_lookbackEdges.2 (.inr ⟨i, hi, b, hb, rfl⟩)⟩

/-- The start is active after every word. -/
theorem start_mem_active_lookback : 0 ∈ (lookback idle k).active (bs.map letterOf).reverse := by
  induction bs with
  | nil => exact mem_initial_lookback.2 rfl
  | cons b bs ih =>
    rw [List.map_cons, List.reverse_cons, active_concat, mem_step_lookback]
    exact ⟨0, ih, mem_lookbackEdges.2 (.inl ⟨b, rfl⟩)⟩

/-- The states of the chain that are active tell where the last letters were an `a`. -/
theorem succ_mem_active_lookback_iff (hi : i < k) :
    i + 1 ∈ (lookback idle k).active (bs.map letterOf).reverse ↔ bs[i]? = some true := by
  induction bs generalizing i with
  | nil => exact iff_of_false (fun h => Nat.succ_ne_zero i (mem_initial_lookback.1 h)) (by simp)
  | cons b bs ih =>
    rw [List.map_cons, List.reverse_cons, active_concat, succ_mem_step_lookback_iff hi]
    cases i with
    | zero => simp [start_mem_active_lookback]
    | succ i => simp [ih (Nat.lt_of_succ_lt hi)]

/-- The word that the letters of a choice make, the first one last. -/
def choiceWord (f : Fin k → Bool) : List Char := ((List.ofFn f).map letterOf).reverse

theorem succ_mem_active_choiceWord_iff {f : Fin k → Bool} (i : Fin k) :
    i.val + 1 ∈ (lookback idle k).active (choiceWord f) ↔ f i = true := by
  unfold choiceWord
  rw [succ_mem_active_lookback_iff i.isLt, List.getElem?_ofFn, dif_pos i.isLt, Option.some.injEq]

theorem eq_of_active_choiceWord {f g : Fin k → Bool}
    (h : (lookback idle k).active (choiceWord f) = (lookback idle k).active (choiceWord g)) : f = g := by
  funext i
  rw [Bool.eq_iff_iff, ← succ_mem_active_choiceWord_iff i, h, succ_mem_active_choiceWord_iff i]

theorem exists_run_choiceWord (f : Fin k → Bool) (complete : Bool) :
    ∃ q, ((lookback idle k).toDfa complete).run 0 (choiceWord f) = some q := by
  cases hrun : ((lookback idle k).toDfa complete).run 0 (choiceWord f) with
  | some q => exact ⟨q, rfl⟩
  | none =>
    have hstart : 0 ∈ (lookback idle k).active (choiceWord f) := start_mem_active_lookback
    rw [(wellFormed_lookback idle k).active_eq_nil_of_run hrun] at hstart
    cases hstart

/-- Any two of the words of length `k` over the two letters lead to different states. -/
theorem two_pow_le_stateCount_toDfa_lookback (idle : List Char) (k : Nat) (complete : Bool) :
    2 ^ k ≤ ((lookback idle k).toDfa complete).stateCount := by
  have hn := wellFormed_lookback idle k
  have hd := hn.toDfa complete
  choose state hstate using fun f : Fin k → Bool => exists_run_choiceWord f complete
  let place : (Fin k → Bool) → Fin ((lookback idle k).toDfa complete).stateCount := fun f =>
    ⟨state f, hd.run_lt hd.start_lt (hstate f)⟩
  have hinjective : Function.Injective place := fun f g hfg =>
    eq_of_active_choiceWord ((hn.run_eq_run_iff (hstate f) (hstate g)).1 (congrArg Fin.val hfg))
  have hcard := Fintype.card_le_of_injective place hinjective
  rwa [Fintype.card_fun, Fintype.card_bool, Fintype.card_fin, Fintype.card_fin] at hcard

/-- There are more states than numbers, so no room is enough. -/
theorem exists_toDfaWithin?_lookback_eq_error (idle : List Char) (edges : Nat) (complete : Bool) :
    ∃ misuse, (lookback idle 32).toDfaWithin? (.limited edges) complete = .error misuse := by
  have hcount := two_pow_le_stateCount_toDfa_lookback idle 32 complete
  have hlimit : stateLimit < 2 ^ 32 := by decide
  refine ((wellFormed_lookback idle 32).toDfaWithin?_eq (.limited edges) complete).2 fun hfits => ?_
  exact Nat.not_lt.2 (Nat.le_trans hcount hfits.1) hlimit

/-- Not all automata can be determinized within limits: it fails for the 32nd letter from the end. -/
theorem toDfaWithin?_not_total : ¬ ∀ n : Nfa Char, n.WellFormed → ∀ complete,
    ∃ edges d, n.toDfaWithin? (.limited edges) complete = .ok (some d) := by
  intro htotal
  obtain ⟨edges, d, hok⟩ := htotal (lookback [] 32) (wellFormed_lookback [] 32) false
  obtain ⟨misuse, herror⟩ := exists_toDfaWithin?_lookback_eq_error [] edges false
  rw [herror] at hok
  cases hok

end Nfa

end Kleene
