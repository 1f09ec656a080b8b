import Kleene.Dfa.GraphSearch
import Kleene.Proofs.Evaluation
import Kleene.Proofs.Runs
import Kleene.Proofs.Snapshots

/-!
# Useful states

One search answers both which states the start leads to and which states lead to an accepting one;
it begins with one root or with several and follows the transitions or turns them round.  A node is
found when it is put on the stack, and of a node that is found and not on the stack any more all
neighbours are found.  So no node is put there twice, which ends the search, and at the end what is
found has no way out.
-/

namespace Kleene

/-! ## Sets that count right -/

namespace StateSet

variable {s t : StateSet} {p q : State} {bound : Nat} {qs : List State}

/-- The number that is kept with the set and the number of flags that are not set are all flags. -/
def Counted (s : StateSet) : Prop := s.size + s.unset = s.flags.size

theorem counted_empty (bound : Nat) : (empty bound).Counted := by
  unfold Counted unset empty
  simp

theorem insert_of_le (hq : s.flags.size ≤ q) : s.insert q = s := by
  unfold insert
  rw [decide_eq_true hq, Bool.or_true, if_pos rfl]

theorem size_insert (hq : q < s.flags.size) (hnew : s.contains q = false) :
    (s.insert q).size = s.size + 1 := by
  rw [insert_of_not_contains hq hnew]

theorem Counted.insert (h : s.Counted) (q : State) : (s.insert q).Counted := by
  by_cases hq : q < s.flags.size
  · cases hnew : s.contains q with
    | true => rwa [insert_of_contains hnew]
    | false =>
      have hunset := unset_insert hq hnew
      unfold Counted at h ⊢
      rw [size_flags_insert, size_insert hq hnew]
      omega
  · rwa [insert_of_le (Nat.not_lt.1 hq)]

theorem counted_ofList (bound : Nat) (qs : List State) : (ofList bound qs).Counted := by
  have hfold : ∀ s : StateSet, s.Counted → (qs.foldl insert s).Counted := by
    induction qs with
    | nil => exact fun _ => id
    | cons q qs ih => exact fun s hs => ih _ (hs.insert q)
  exact hfold _ (counted_empty bound)

theorem size_flags_ofList (bound : Nat) (qs : List State) :
    (ofList bound qs).flags.size = bound := by
  have hfold : ∀ s : StateSet, (qs.foldl insert s).flags.size = s.flags.size := by
    induction qs with
    | nil => exact fun _ => rfl
    | cons q qs ih => exact fun s => (ih _).trans (size_flags_insert s q)
  exact (hfold _).trans Array.size_replicate

theorem toList_flags (s : StateSet) :
    s.flags.toList = (List.range s.flags.size).map s.contains := by
  refine List.ext_getElem (by simp) fun i hi _ => ?_
  have hlt : i < s.flags.size := by rwa [Array.length_toList] at hi
  simp [contains, hlt]

theorem Counted.size_eq (h : s.Counted) : s.size = s.toList.length := by
  have hsplit := List.length_eq_countP_add_countP (l := List.range s.flags.size) s.contains
  have hunset : s.unset = (List.range s.flags.size).countP fun q => ¬s.contains q = true := by
    unfold unset
    rw [← Array.count_toList, toList_flags, List.count, List.countP_map]
    refine List.countP_congr fun q _ => ?_
    simp
  unfold Counted at h
  unfold toList
  rw [← List.countP_eq_length_filter]
  rw [List.length_range] at hsplit
  omega

theorem isAscending_toList (s : StateSet) : Ascending.IsAscending s.toList :=
  (Ascending.isAscending_range _).filter _

theorem Counted.eq_of_contains_iff (hs : s.Counted) (ht : t.Counted)
    (hbound : s.flags.size = t.flags.size)
    (h : ∀ q, s.contains q = true ↔ t.contains q = true) : s = t := by
  have hcontains : s.contains = t.contains := funext fun q => Bool.eq_iff_iff.2 (h q)
  have hflags : s.flags = t.flags := by
    apply Array.toList_inj.1
    rw [toList_flags, toList_flags, hbound, hcontains]
  have hsize : s.size = t.size := by
    unfold Counted unset at hs ht
    rw [hflags] at hs
    omega
  exact congrArg₂ StateSet.mk hflags hsize

end StateSet

/-! ## Visits -/

namespace Sweep

variable {t t' t'' : Sweep} {p q : State} {qs qs' : List State}

/-- What some nodes change if they are visited one after the other. -/
structure Visits (qs : List State) (t t' : Sweep) : Prop where
  size_flags_eq : t'.found.flags.size = t.found.flags.size
  contains_iff : ∀ p, t'.found.contains p = true ↔ t.found.contains p = true ∨ p ∈ qs
  mem_stack_iff : ∀ p, p ∈ t'.stack ↔ p ∈ t.stack ∨ (p ∈ qs ∧ ¬t.found.contains p = true)
  counted : t.found.Counted → t'.found.Counted
  /-- The stack grows as the set does. -/
  height_eq : t'.stack.length + t.found.size = t.stack.length + t'.found.size

theorem visits_visit (hq : q < t.found.flags.size) : Visits [q] t (t.visit q) := by
  cases hnew : t.found.contains q with
  | true =>
    rw [visit, if_pos hnew]
    refine ⟨rfl, fun p => ?_, fun p => ?_, id, rfl⟩
    · rw [List.mem_singleton, iff_self_or]
      rintro rfl
      exact hnew
    · rw [List.mem_singleton, iff_self_or]
      rintro ⟨rfl, hfalse⟩
      exact absurd hnew hfalse
  | false =>
    rw [visit, hnew, if_neg Bool.false_ne_true]
    refine ⟨StateSet.size_flags_insert _ _, fun p => ?_, fun p => ?_, fun h => h.insert q, ?_⟩
    · rw [List.mem_singleton]
      exact StateSet.contains_insert.trans (or_congr_right (and_iff_left hq))
    · show p ∈ q :: t.stack ↔ _
      rw [List.mem_cons, List.mem_singleton, or_comm]
      refine or_congr_right (and_iff_left_of_imp ?_).symm
      rintro rfl
      exact Bool.eq_false_iff.1 hnew
    · show t.stack.length + 1 + t.found.size = t.stack.length + (t.found.insert q).size
      rw [StateSet.size_insert hq hnew]
      omega

theorem Visits.trans (h : Visits qs t t') (h' : Visits qs' t' t'') :
    Visits (qs ++ qs') t t'' where
  size_flags_eq := h'.size_flags_eq.trans h.size_flags_eq
  contains_iff p := by rw [h'.contains_iff, h.contains_iff, List.mem_append, or_assoc]
  mem_stack_iff p := by
    rw [h'.mem_stack_iff, h.mem_stack_iff, h.contains_iff, List.mem_append]
    tauto
  counted := h'.counted ∘ h.counted
  height_eq := by
    have hfirst := h.height_eq
    have hrest := h'.height_eq
    omega

/-- Nodes of the graph can be visited. -/
theorem exists_visits (hqs : ∀ q ∈ qs, q < t.found.flags.size) :
    ∃ t', qs.foldlM visit? t = .ok t' ∧ Visits qs t t' := by
  induction qs generalizing t with
  | nil => exact ⟨t, rfl, rfl, by simp, by simp, id, rfl⟩
  | cons q qs ih =>
    obtain ⟨hq, hqs⟩ := List.forall_mem_cons.1 hqs
    have hfirst := visits_visit hq
    have hvisit : t.visit? q = .ok (t.visit q) := by
      rw [visit?_eq, if_neg (Nat.not_le.2 hq)]
    obtain ⟨t', hrest, hvisits⟩ := ih fun r hr => hfirst.size_flags_eq ▸ hqs r hr
    exact ⟨t', (foldlM_cons_of_ok hvisit).trans hrest, hfirst.trans hvisits⟩

/-- Of a node that is found and not on the stack all neighbours are found. -/
structure Explored (arrows : List Arrow) (t : Sweep) : Prop where
  found_of_mem : ∀ p ∈ t.stack, t.found.contains p = true
  looked : ∀ p, t.found.contains p = true →
    p ∈ t.stack ∨ ∀ q, (p, q) ∈ arrows → t.found.contains q = true

/-- One round keeps it: the neighbours of the node that is taken off the stack are visited. -/
theorem Explored.of_visits {arrows : List Arrow} {rest : List State} {found : StateSet}
    (h : Explored arrows ⟨q :: rest, found⟩) (hqs : ∀ p, p ∈ qs ↔ (q, p) ∈ arrows)
    (hvisits : Visits qs ⟨rest, found⟩ t) : Explored arrows t where
  found_of_mem p hp := (hvisits.contains_iff p).2 <|
    ((hvisits.mem_stack_iff p).1 hp).imp (fun hrest => h.found_of_mem p (.tail q hrest)) And.left
  looked p hp := by
    rw [hvisits.mem_stack_iff]
    by_cases hold : found.contains p = true
    · obtain hstack | hlooked := h.looked p hold
      · obtain rfl | hrest := List.mem_cons.1 hstack
        · exact .inr fun r hr => (hvisits.contains_iff r).2 (.inr ((hqs r).2 hr))
        · exact .inl (.inl hrest)
      · exact .inr fun r hr => (hvisits.contains_iff r).2 (.inl (hlooked r hr))
    · exact .inl (.inr ⟨((hvisits.contains_iff p).1 hp).resolve_left hold, hold⟩)

end Sweep

/-! ## The search -/

namespace Multigraph

variable {σ : Type} {g : Multigraph σ} {d : Dfa σ} {direction : Direction} {arrows : List Arrow}
  {roots : List State} {t : Sweep}

/-- The search ends without a look past the nodes of the graph, and it has found what can be reached
from the nodes that were found before.  Every node that was on the stack or is found is taken off
the stack once. -/
theorem exists_explore? (hneighbors : ∀ p q, q ∈ g.neighbors direction p ↔ (p, q) ∈ arrows)
    (hbound : ∀ p q, (p, q) ∈ arrows → q < t.found.flags.size) (h : t.Explored arrows)
    (hcounted : t.found.Counted) :
    ∃ s, g.explore? direction t = .ok s ∧ s.flags.size = t.found.flags.size ∧ s.Counted ∧
      (∀ q, s.contains q = true ↔ ∃ p, t.found.contains p = true ∧ Reaches arrows p q) ∧
      ∃ k, g.Rounds direction k t ⟨[], s⟩ ∧ k + t.found.size = t.stack.length + s.size := by
  fun_induction explore? g direction t with
  | case1 found =>
    refine ⟨found, rfl, rfl, hcounted, fun q => ?_, 0, .refl _, rfl⟩
    refine ⟨fun hq => ⟨q, hq, .refl q⟩, ?_⟩
    rintro ⟨p, hp, hpq⟩
    induction hpq with
    | refl => exact hp
    | tail _ harrow ih => exact (h.looked _ ih).resolve_left List.not_mem_nil _ harrow
  | case2 q rest found e hround =>
    obtain ⟨t', hok, -⟩ := Sweep.exists_visits (t := ⟨rest, found⟩) fun r hr =>
      hbound q r ((hneighbors q r).1 hr)
    rw [hok] at hround
    cases hround
  | case3 q rest found t hround ih =>
    obtain ⟨t', hok, hvisits⟩ := Sweep.exists_visits (t := ⟨rest, found⟩) fun r hr =>
      hbound q r ((hneighbors q r).1 hr)
    cases hround.symm.trans hok
    have hsize := hvisits.size_flags_eq
    obtain ⟨s, hs, hflags, hcount, hmem, k, hrounds, hk⟩ :=
      ih (fun p r hr => hsize ▸ hbound p r hr) (h.of_visits (hneighbors q) hvisits)
        (hvisits.counted hcounted)
    refine ⟨s, hs, hflags.trans hsize, hcount, fun r => ?_, k + 1, .next hround hrounds, ?_⟩
    · rw [hmem]
      constructor
      · rintro ⟨p, hp, hpr⟩
        obtain hold | hnew := (hvisits.contains_iff p).1 hp
        · exact ⟨p, hold, hpr⟩
        · exact ⟨q, h.found_of_mem q List.mem_cons_self, .head ((hneighbors q p).1 hnew) hpr⟩
      · rintro ⟨p, hp, hpr⟩
        exact ⟨p, (hvisits.contains_iff p).2 (.inl hp), hpr⟩
    · have hheight := hvisits.height_eq
      simp only [List.length_cons] at hheight ⊢
      omega

/-- Before the first round exactly the roots are found, and all of them are on the stack. -/
theorem exists_search? (hneighbors : ∀ p q, q ∈ g.neighbors direction p ↔ (p, q) ∈ arrows)
    (hbound : ∀ p q, (p, q) ∈ arrows → q < g.stateCount) (hroots : ∀ q ∈ roots, q < g.stateCount) :
    ∃ t s, g.seed? roots = .ok t ∧ g.search? direction roots = .ok s ∧
      g.Rounds direction s.size t ⟨[], s⟩ ∧ s.flags.size = g.stateCount ∧ s.Counted ∧
      ∀ q, s.contains q = true ↔ ∃ p ∈ roots, Reaches arrows p q := by
  have hempty : (StateSet.empty g.stateCount).flags.size = g.stateCount := Array.size_replicate
  obtain ⟨t, ht, hvisits⟩ := Sweep.exists_visits (t := ⟨[], .empty g.stateCount⟩)
    fun q (hq : q ∈ roots) => hempty.symm ▸ hroots q hq
  have hsize : t.found.flags.size = g.stateCount := hvisits.size_flags_eq.trans hempty
  have hfound : ∀ p, t.found.contains p = true ↔ p ∈ roots := fun p => by
    rw [hvisits.contains_iff]
    simp
  have hstack : ∀ p, p ∈ t.stack ↔ p ∈ roots := fun p => by
    rw [hvisits.mem_stack_iff]
    simp
  have hexplored : t.Explored arrows :=
    ⟨fun p hp => (hfound p).2 ((hstack p).1 hp), fun p hp => .inl ((hstack p).2 ((hfound p).1 hp))⟩
  obtain ⟨s, hs, hflags, hcounted, hmem, k, hrounds, hk⟩ := exists_explore? hneighbors
    (fun p q hpq => hsize ▸ hbound p q hpq) hexplored
    (hvisits.counted (StateSet.counted_empty _))
  have hheight : t.stack.length + 0 = 0 + t.found.size := hvisits.height_eq
  have hkeq : k = s.size := by omega
  refine ⟨t, s, ht, ?_, hkeq ▸ hrounds, hflags.trans hsize, hcounted, fun q => ?_⟩
  · show (roots.foldlM Sweep.visit? _ >>= fun t => g.explore? direction t) = .ok s
    rw [ht]
    exact hs
  · rw [hmem]
    simp only [hfound]

end Multigraph

/-! ## In the graph of an automaton -/

namespace Dfa

variable {σ : Type} {d : Dfa σ} {p q : State}

/-- The steps that a search makes in a direction. -/
def arrows (d : Dfa σ) : Direction → List Arrow
  | .outgoing => d.edges.map Edge.ends
  | .incoming => d.edges.map fun e => (e.target, e.source)

variable [Ord σ]

theorem WellFormed.arrows_lt (hd : d.WellFormed) {direction : Direction}
    (h : (p, q) ∈ d.arrows direction) : q < d.stateCount := by
  cases direction with
  | outgoing =>
    obtain ⟨e, he, heq⟩ := List.mem_map.1 h
    obtain ⟨rfl, rfl⟩ := Prod.mk.inj heq
    exact hd.target_lt _ _ _ he
  | incoming =>
    obtain ⟨e, he, heq⟩ := List.mem_map.1 h
    obtain ⟨rfl, rfl⟩ := Prod.mk.inj heq
    exact hd.source_lt _ _ _ he

theorem WellFormed.contains_search (hd : d.WellFormed) {direction : Direction}
    {roots : List State} (hroots : ∀ q ∈ roots, q < d.stateCount) :
    (d.search (d.arrows direction) roots).contains q = true ↔
      ∃ p ∈ roots, Reaches (d.arrows direction) p q := by
  unfold search
  rw [StateSet.contains_ofList, mem_reachFrom_self]
  refine and_iff_left_of_imp ?_
  rintro ⟨p, hp, hpq⟩
  cases hpq with
  | refl => exact hroots _ hp
  | tail _ harrow => exact hd.arrows_lt harrow

theorem WellFormed.contains_productive_iff_exists_run [DecidableEq σ] (hd : d.WellFormed) :
    d.productive.contains q = true ↔ ∃ w f, d.run q w = some f ∧ d.isFinal f = true := by
  rw [hd.contains_productive_iff]
  refine exists_congr fun w => ?_
  unfold acceptsFrom
  cases d.run q w <;> simp

end Dfa

namespace Multigraph

variable {σ : Type} {g : Multigraph σ} {d : Dfa σ} {roots : List State} {p q : State}

theorem Represents.mem_neighbors (h : g.Represents d) (direction : Direction) :
    q ∈ g.neighbors direction p ↔ (p, q) ∈ d.arrows direction := by
  cases direction <;> simp [neighbors, Dfa.arrows, Edge.ends, h.edges.mem_iff, and_assoc]

theorem Represents.finals_eq (h : g.Represents d) : g.finals = d.finals := by
  unfold finals Dfa.finals Dfa.states
  rw [h.stateCount_eq]
  exact List.filter_congr fun q _ => h.isFinal_eq q

variable [Ord σ]

/-- The search on the stack gives the set that is found in rounds over the list of transitions. -/
theorem Represents.search?_eq (h : g.Represents d) (hd : d.WellFormed) (direction : Direction)
    (hroots : ∀ q ∈ roots, q < d.stateCount) :
    ∃ t, g.seed? roots = .ok t ∧
      g.search? direction roots = .ok (d.search (d.arrows direction) roots) ∧
      g.Rounds direction (d.search (d.arrows direction) roots).size t
        ⟨[], d.search (d.arrows direction) roots⟩ := by
  obtain ⟨t, s, ht, hs, hrounds, hflags, hcounted, hmem⟩ :=
    exists_search? (fun _ _ => h.mem_neighbors direction)
      (fun p q hpq => h.stateCount_eq ▸ hd.arrows_lt hpq)
      (fun q hq => h.stateCount_eq ▸ hroots q hq)
  have heq : s = d.search (d.arrows direction) roots := by
    refine hcounted.eq_of_contains_iff (StateSet.counted_ofList _ _) ?_ fun q => ?_
    · exact (hflags.trans h.stateCount_eq).trans (StateSet.size_flags_ofList _ _).symm
    · rw [hmem, hd.contains_search hroots]
  exact ⟨t, ht, heq ▸ hs, heq ▸ hrounds⟩

/-- Both searches take every state that they find off the stack once and then end, without a look
past the states there are.  One finds the states that some word leads to from the start, the other
those from which some word leads to an accepting state, and both sets count what they list, in
order. -/
theorem Represents.usefulStates_spec [DecidableEq σ] (h : g.Represents d) (hd : d.WellFormed) :
    (g.reachable? = .ok d.reachable ∧ ∃ t, g.seed? [g.start] = .ok t ∧
      g.Rounds .outgoing d.reachable.size t ⟨[], d.reachable⟩) ∧
    (g.productive? = .ok d.productive ∧ ∃ t, g.seed? g.finals = .ok t ∧
      g.Rounds .incoming d.productive.size t ⟨[], d.productive⟩) ∧
    (∀ q, d.reachable.contains q = true ↔ ∃ w, d.run d.start w = some q) ∧
    (∀ q, d.productive.contains q = true ↔ ∃ w f, d.run q w = some f ∧ d.isFinal f = true) ∧
    ∀ s ∈ [d.reachable, d.productive], s.size = s.toList.length ∧
      Ascending.IsAscending s.toList ∧ ∀ q, q ∈ s.toList ↔ s.contains q = true := by
  have hstart : ∀ q ∈ [d.start], q < d.stateCount := List.forall_mem_singleton.2 hd.start_lt
  have hfinals : ∀ q ∈ d.finals, q < d.stateCount := fun q hq =>
    Dfa.lt_of_isFinal (Dfa.mem_finals.1 hq)
  obtain ⟨t, ht, hreachable, hrounds⟩ := h.search?_eq hd .outgoing hstart
  obtain ⟨t', ht', hproductive, hrounds'⟩ := h.search?_eq hd .incoming hfinals
  refine ⟨⟨?_, t, h.start ▸ ht, hrounds⟩, ⟨?_, t', h.finals_eq ▸ ht', hrounds'⟩, fun q => ?_,
    fun _ => hd.contains_productive_iff_exists_run, fun s hs => ?_⟩
  · unfold reachable?
    rw [h.start]
    exact hreachable
  · unfold productive?
    rw [h.finals_eq]
    exact hproductive
  · rw [← StateSet.mem_toList, hd.mem_reachable_iff]
  · have hcounted : s.Counted := by
      obtain rfl | rfl := List.mem_pair.1 hs
      · exact StateSet.counted_ofList _ _
      · exact StateSet.counted_ofList _ _
    exact ⟨hcounted.size_eq, s.isAscending_toList, fun q => StateSet.mem_toList⟩

end Multigraph

namespace Dfa

/-- A state that nothing leads to, and one that leads nowhere, beside a cycle. -/
def lopsided : Dfa Char :=
  { marks := [.plain, .accepting, .plain, .plain]
    alphabet := ['a', 'b']
    edges := [⟨0, 'a', 1⟩, ⟨1, 'b', 0⟩, ⟨1, 'a', 3⟩, ⟨2, 'a', 1⟩]
    start := 0 }

theorem wellFormed_lopsided : lopsided.WellFormed := wellFormed_of_ofParts
  (show ofParts ⟨[0, 1, 2, 3], [], [⟨0, 'a', 1⟩, ⟨1, 'b', 0⟩, ⟨1, 'a', 3⟩, ⟨2, 'a', 1⟩], 0, [1]⟩ =
    .ok lopsided from rfl)

/-- The graph with the transitions in the order in which they were added, the last one first. -/
theorem represents_lopsided : Multigraph.Represents
    ⟨lopsided.marks.map Mark.flags, lopsided.alphabet, lopsided.edges.reverse, 0⟩ lopsided :=
  ⟨rfl, rfl, List.reverse_perm _, rfl⟩

theorem usefulStates_spec_lopsided : ∃ g : Multigraph Char, g.Represents lopsided ∧
    (∃ s, g.reachable? = .ok s ∧ s.toList = [0, 1, 3] ∧ s.size = 3) ∧
    (∃ s, g.productive? = .ok s ∧ s.toList = [0, 1, 2] ∧ s.size = 3) ∧
      ¬∃ w, lopsided.run lopsided.start w = some 2 := by
  have hspec := represents_lopsided.usefulStates_spec wellFormed_lopsided
  obtain ⟨⟨hreachable, -⟩, ⟨hproductive, -⟩, hreach, -, -⟩ := hspec
  refine ⟨_, represents_lopsided, ⟨_, hreachable, ?_, ?_⟩, ⟨_, hproductive, ?_, ?_⟩,
    mt (hreach 2).2 ?_⟩
  all_goals decide +kernel

end Dfa

end Kleene
