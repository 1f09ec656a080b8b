import Kleene.Proofs.Chains
import Kleene.Proofs.NfaChanges

/-!
# Corrected automata

The steps of an alignment connect, and their costs add up to its distance.  A step that costs
nothing is there already, and one that costs something becomes a transition.  So the corrected
automaton accepts the word, and a word that is accepted already changes nothing.
-/

namespace Kleene

variable {σ : Type} {n : Nfa σ} {p q r : State} {w : List σ}

/-! ## Steps that connect -/

namespace Nfa

/-- The steps connect from the first state to the second one and read the word, each at the cost of
edits that turn its letter into what some path between its states spells. -/
inductive Leads (n : Nfa σ) (p : State) : State → List σ → List (AlignmentStep σ) → Prop
  | nil : Leads n p p [] []
  | snoc {q r : State} {w : List σ} {steps : List (AlignmentStep σ)} {a : σ} {c : Nat} :
      Leads n p q w steps → n.Aligns q r [a] c → Leads n p r (w ++ [a]) (steps ++ [⟨q, r, a, c⟩])

/-- The alignment leads from the start to the final state along the word, at its distance. -/
structure AlignedBy (n : Nfa σ) (w : List σ) (al : Alignment σ) : Prop where
  entry : n.Aligns n.start al.entry [] al.entryCost
  steps : n.Leads al.entry n.final w al.steps
  distance : al.distance = al.entryCost + (al.steps.map AlignmentStep.cost).sum

/-- Without edits the word itself is spelled. -/
theorem Aligns.spells_of_zero (h : n.Aligns p q w 0) : n.Spells p q w := by
  rcases h with ⟨u, hu, hedits⟩
  rw [hedits.eq_of_zero]
  exact hu

variable {m : Nfa σ} {steps : List (AlignmentStep σ)}

/-- An automaton with the transitions of another one, and with those that steps of the other one
lack, spells what the steps read. -/
theorem Leads.spells (h : n.Leads p q w steps) (hedges : ∀ e ∈ n.edges, e ∈ m.edges)
    (hsteps : ∀ s ∈ steps, 0 < s.cost → ⟨s.source, .symbol s.symbol, s.target⟩ ∈ m.edges) :
    m.Spells p q w := by
  induction h with
  | nil => exact .nil p
  | @snoc q r w steps a c _ hstep ih =>
    rcases List.forall_mem_append.1 hsteps with ⟨hsteps, hlast⟩
    refine (ih hsteps).append ?_
    rcases Nat.eq_zero_or_pos c with hzero | hpos
    · rw [hzero] at hstep
      exact hstep.spells_of_zero.mono hedges
    · exact Spells.of_symbol (hlast _ List.mem_cons_self hpos)

/-- Steps that connect lead from states to states. -/
theorem Leads.forall_mem (h : n.Leads p q w steps)
    (hn : n.Wired) (hp : p ∈ n.states) :
    q ∈ n.states ∧ ∀ s ∈ steps, s.source ∈ n.states ∧ s.target ∈ n.states := by
  induction h with
  | nil => exact ⟨hp, fun s hs => by cases hs⟩
  | @snoc q r w steps a c _ hstep ih =>
    obtain ⟨u, hu, -⟩ := hstep
    have hr := hn.mem_of_spells ih.1 hu
    refine ⟨hr, List.forall_mem_append.2 ⟨ih.2, fun s hs => ?_⟩⟩
    rw [List.mem_singleton.1 hs]
    exact ⟨ih.1, hr⟩

end Nfa

/-! ## The steps of an alignment -/

namespace Nfa

variable [DecidableEq σ]

theorem ChainTo.leads (hn : n.Wired) {al : Alignment σ} (h : n.ChainTo w q al) :
    n.Leads al.entry q w al.steps := by
  obtain ⟨d, p, e, steps⟩ := al
  induction steps using List.reverseRecOn generalizing w q d with
  | nil =>
    obtain ⟨rfl, rfl, -, -⟩ := chainTo_nil_iff.1 h
    exact .nil
  | append_singleton steps s ih =>
    obtain ⟨d', hchain, hcost, rfl, rfl, -⟩ := chainTo_concat_iff.1 h
    obtain ⟨hsource, htarget⟩ := PathCosts.mem_of_stepCost hcost
    exact (ih d' hchain).snoc
      ((PathCosts.minimum_stepCost hn hsource htarget s.symbol).achieved _ hcost)

theorem alignedBy_of_align (hn : n.Wired) {al : Alignment σ} (h : n.align w = some al) :
    n.AlignedBy w al :=
  have hchain := chainTo_of_align hn h
  ⟨aligns_nil_iff.2 hchain.entryCost.exists_spells, hchain.leads hn, hchain.distance⟩

/-- The alignment of an accepted word has distance zero. -/
theorem distance_eq_zero (hn : n.Wired) {al : Alignment σ} (h : n.align w = some al)
    (hw : n.accepts w = true) : al.distance = 0 := by
  have hmin := minimum_align hn w
  rw [h] at hmin
  exact (eq_zero_iff_accepts hmin.isLeast).2 hw

end Nfa

/-! ## Transitions along an alignment -/

namespace Nfa

variable {al : Alignment σ}

theorem mem_alignmentEdges {e : Edge (Label σ)} : e ∈ n.alignmentEdges al ↔
    (0 < al.entryCost ∧ e = ⟨n.start, .epsilon, al.entry⟩) ∨
      ∃ s ∈ al.steps, 0 < s.cost ∧ e = ⟨s.source, .symbol s.symbol, s.target⟩ := by
  unfold alignmentEdges
  rw [List.mem_append, List.mem_map]
  refine or_congr ?_ ⟨fun h => ?_, fun h => ?_⟩
  · by_cases hpos : 0 < al.entryCost
    · rw [if_pos hpos, List.mem_singleton, and_iff_right hpos]
    · rw [if_neg hpos]
      exact iff_of_false List.not_mem_nil fun h => hpos h.1
  · rcases h with ⟨s, hs, rfl⟩
    rcases List.mem_filter.1 hs with ⟨hs, hpos⟩
    exact ⟨s, hs, of_decide_eq_true hpos, rfl⟩
  · rcases h with ⟨s, hs, hpos, rfl⟩
    exact ⟨s, List.mem_filter.2 ⟨hs, decide_eq_true hpos⟩, rfl⟩

theorem length_alignmentEdges_le (n : Nfa σ) (al : Alignment σ) :
    (n.alignmentEdges al).length ≤ 1 + al.steps.countP (0 < ·.cost) := by
  unfold alignmentEdges
  rw [List.length_append, List.length_map, List.countP_eq_length_filter]
  split
  · exact Nat.le_refl _
  · exact Nat.add_le_add_right (Nat.zero_le 1) _

variable [Ord σ]

theorem transitionCount_follow_le (n : Nfa σ) (al : Alignment σ) :
    (n.follow al).transitionCount ≤ n.transitionCount + 1 + al.steps.countP (0 < ·.cost) := by
  have hinsert := Ascending.length_insertAll_le (n.alignmentEdges al) n.edges
  have hedges := n.length_alignmentEdges_le al
  show (Ascending.insertAll (n.alignmentEdges al) n.edges).length ≤
    n.edges.length + 1 + al.steps.countP (0 < ·.cost)
  omega

/-- An alignment without costs changes nothing. -/
theorem AlignedBy.follow_eq_self (h : n.AlignedBy w al) (hzero : al.distance = 0) :
    n.follow al = n := by
  have hsum := h.distance
  have hedges : n.alignmentEdges al = [] := by
    rw [List.eq_nil_iff_forall_not_mem]
    intro e he
    rcases mem_alignmentEdges.1 he with ⟨hpos, -⟩ | ⟨s, hs, hpos, -⟩
    · omega
    · have hsteps : 0 < (al.steps.map AlignmentStep.cost).sum :=
        List.sum_pos_iff_exists_pos_nat.2 ⟨s.cost, List.mem_map.2 ⟨s, hs, rfl⟩, hpos⟩
      omega
  unfold follow
  rw [hedges]
  rfl

theorem correct_eq_some [DecidableEq σ] {c : Correction σ} (h : n.correct w = some c) :
    n.align w = some c.alignment ∧ c.nfa = n.follow c.alignment := by
  rcases Option.map_eq_some_iff.1 h with ⟨al, hal, rfl⟩
  exact ⟨hal, rfl⟩

variable [Std.LawfulEqOrd σ]

theorem mem_follow {e : Edge (Label σ)} :
    e ∈ (n.follow al).edges ↔ e ∈ n.alignmentEdges al ∨ e ∈ n.edges := mem_addEdges

variable [DecidableEq σ]

theorem accepts_follow (al : Alignment σ) {u : List σ} (hu : n.accepts u = true) :
    (n.follow al).accepts u = true := by
  rw [mem_language, mem_language_iff] at hu ⊢
  exact hu.mono fun e he => mem_follow.2 (.inr he)

/-- The automaton with the transitions along an alignment accepts the aligned word. -/
theorem AlignedBy.accepts_follow (h : n.AlignedBy w al) : (n.follow al).accepts w = true := by
  rw [mem_language, mem_language_iff]
  have hentry : (n.follow al).Spells n.start al.entry [] := by
    rcases Nat.eq_zero_or_pos al.entryCost with hzero | hpos
    · have hentry := h.entry
      rw [hzero] at hentry
      exact hentry.spells_of_zero.mono fun e he => mem_follow.2 (.inr he)
    · exact .of_epsilon (mem_follow.2 (.inl (mem_alignmentEdges.2 (.inl ⟨hpos, rfl⟩))))
  refine hentry.append (h.steps.spells (fun e he => mem_follow.2 (.inr he)) fun s hs hpos => ?_)
  exact mem_follow.2 (.inl (mem_alignmentEdges.2 (.inr ⟨s, hs, hpos, rfl⟩)))

theorem accepts_of_correct (hn : n.Wired) {c : Correction σ} (h : n.correct w = some c) :
    c.nfa.accepts w = true := by
  rcases correct_eq_some h with ⟨hal, hnfa⟩
  rw [hnfa]
  exact (alignedBy_of_align hn hal).accepts_follow

/-- An alignment between states can be followed. -/
theorem WellFormed.follow?_eq_ok [Std.TransOrd σ] (h : n.WellFormed)
    (hends : ∀ e ∈ n.alignmentEdges al, e.source ∈ n.states ∧ e.target ∈ n.states) :
    n.follow? al = .ok (n.follow al) := h.foldlM_addEdge?_eq_ok hends

/-- The alignment of a word with the automaton itself can be followed. -/
theorem WellFormed.follow?_of_align [Std.TransOrd σ] (h : n.WellFormed) (hal : n.align w = some al) :
    n.follow? al = .ok (n.follow al) := by
  have haligned := alignedBy_of_align h.toWired hal
  obtain ⟨u, hentry, -⟩ := haligned.entry
  have hmem := h.mem_of_spells h.start_mem hentry
  -- all states along the steps are reached from the entry
  have hsteps := haligned.steps.forall_mem h.toWired hmem
  refine h.follow?_eq_ok fun e he => ?_
  obtain ⟨-, rfl⟩ | ⟨s, hs, -, rfl⟩ := mem_alignmentEdges.1 he
  · exact ⟨h.start_mem, hmem⟩
  · exact hsteps.2 s hs

/-- The corrected automaton accepts the word and all words that were accepted before.  It has the
same states and terminals and all transitions; new are at most the ε-transition to the entry and
one transition for each step that costs something.  If the word was accepted before, nothing
changes.  Added one by one, the transitions make the same automaton, and none of them is refused. -/
theorem correct_spec (h : n.WellFormed) {c : Correction σ} (hc : n.correct w = some c) :
    c.nfa.accepts w = true ∧ (∀ u, n.accepts u = true → c.nfa.accepts u = true) ∧
    (c.nfa.states = n.states ∧ c.nfa.start = n.start ∧ c.nfa.final = n.final) ∧
    (∀ e ∈ n.edges, e ∈ c.nfa.edges) ∧
    (∀ e ∈ c.nfa.edges, e ∉ n.edges → e = ⟨n.start, .epsilon, c.alignment.entry⟩ ∨
      ∃ s ∈ c.alignment.steps, 0 < s.cost ∧ e = ⟨s.source, .symbol s.symbol, s.target⟩) ∧
    c.nfa.transitionCount ≤ n.transitionCount + 1 + c.alignment.steps.countP (0 < ·.cost) ∧
    (n.accepts w = true → c.nfa = n) ∧
    ∀ [Std.TransOrd σ], n.follow? c.alignment = .ok c.nfa := by
  have hword := accepts_of_correct h.toWired hc
  rcases correct_eq_some hc with ⟨hal, hnfa⟩
  have haligned := alignedBy_of_align h.toWired hal
  rw [hnfa] at hword ⊢
  refine ⟨hword, fun u => accepts_follow c.alignment, ⟨rfl, rfl, rfl⟩,
    fun e he => mem_follow.2 (.inr he), fun e he hnew => ?_, n.transitionCount_follow_le _,
    fun hw => haligned.follow_eq_self (distance_eq_zero h.toWired hal hw), h.follow?_of_align hal⟩
  rcases mem_alignmentEdges.1 ((mem_follow.1 he).resolve_right hnew) with ⟨-, hentry⟩ | hstep
  · exact .inl hentry
  · exact .inr hstep

/-- The automaton of one letter gets a loop and a second transition for two other letters. -/
theorem correct_spec_literal : ∃ c, (literal 'a').correct ['b', 'c'] = some c ∧
    c.nfa.edges = [⟨0, .symbol 'b', 0⟩, ⟨0, .symbol 'a', 1⟩, ⟨0, .symbol 'c', 1⟩] ∧
    c.nfa.accepts ['b', 'c'] = true ∧
    (∀ u, (literal 'a').accepts u = true → c.nfa.accepts u = true) ∧
    (c.nfa.states = [0, 1] ∧ c.nfa.start = 0 ∧ c.nfa.final = 1) := by
  have hcorrect : ((literal 'a').correct ['b', 'c']).map (·.nfa.edges) =
      some [⟨0, .symbol 'b', 0⟩, ⟨0, .symbol 'a', 1⟩, ⟨0, .symbol 'c', 1⟩] := by decide +kernel
  rcases Option.map_eq_some_iff.1 hcorrect with ⟨c, hc, hedges⟩
  rcases correct_spec (wellFormed_literal 'a') hc with ⟨hword, hmore, hsame, -⟩
  exact ⟨c, hc, hedges, hword, hmore, hsame⟩

end Nfa

end Kleene
