import Kleene.Proofs.Isolation
import Kleene.Elimination.Order

/-!
# Elimination keeps the language

Labels mean languages, and a combiner is sound if the labels it makes mean what they stand for:
a path through a state means a way in, any number of loops and a way out, and a choice means the
sum of its labels.  With a sound combiner neither ripping out a state nor merging transitions
changes what the paths between the remaining states spell, so that the label on the last
transition means the language of the automaton.
-/

open Computability

namespace Kleene

variable {σ α : Type}

theorem mem_sum_map {β : Type} {m : β → Language α} {ls : List β} {w : List α} :
    w ∈ (ls.map m).sum ↔ ∃ l ∈ ls, w ∈ m l := by
  induction ls with
  | nil => simp
  | cons l ls ih =>
    rw [List.map_cons, List.sum_cons, Language.mem_add, ih]
    simp

/-- The labels that a combiner makes of good labels are good and mean what they stand for. -/
structure Combiner.Sound (c : Combiner σ) (good : Label σ → Prop) (m : Label σ → Language α) :
    Prop where
  good_epsilon : good .epsilon
  meaning_epsilon : m .epsilon = 1
  good_path : ∀ pre loops post, good pre → (∀ a ∈ loops, good (.symbol a)) → good post →
    good (c.path pre loops post)
  meaning_path : ∀ pre loops post, good pre → (∀ a ∈ loops, good (.symbol a)) → good post →
    m (c.path pre loops post) = m pre * (loops.map fun a => m (.symbol a)).sum∗ * m post
  good_parallel : ∀ ls, ls ≠ [] → (∀ l ∈ ls, good l) → good (c.parallel ls)
  meaning_parallel : ∀ ls, ls ≠ [] → (∀ l ∈ ls, good l) → m (c.parallel ls) = (ls.map m).sum

namespace Nfa

variable {c : Combiner σ} {good : Label σ → Prop} {m : Label σ → Language α}
variable {n : Nfa σ} {p q r : State} {l : Label σ} {w : List α}

/-! ## Ripping out one state -/

section Rip

theorem mem_loopLetters {a : σ} : a ∈ n.loopLetters q ↔ ⟨q, .symbol a, q⟩ ∈ n.edges := by
  unfold loopLetters
  rw [mem_letters]
  simp only [List.mem_filter, Bool.and_eq_true, decide_eq_true_eq]
  refine ⟨fun h => ?_, fun h => ⟨q, q, h, rfl, rfl⟩⟩
  rcases h with ⟨p, r, he, rfl, rfl⟩
  exact he

theorem mem_entering : ⟨p, l, r⟩ ∈ n.entering q ↔ ⟨p, l, q⟩ ∈ n.edges ∧ r = q ∧ p ≠ q := by
  unfold entering incoming
  simp only [List.mem_filter, decide_eq_true_eq, Edge.isLoop, Bool.not_eq_true',
    decide_eq_false_iff_not]
  refine ⟨fun h => ?_, fun h => ?_⟩
  · rcases h with ⟨⟨he, rfl⟩, hne⟩
    exact ⟨he, rfl, hne⟩
  · rcases h with ⟨he, rfl, hne⟩
    exact ⟨⟨he, rfl⟩, hne⟩

theorem mem_leavingEdges : ⟨p, l, r⟩ ∈ n.leavingEdges q ↔ ⟨q, l, r⟩ ∈ n.edges ∧ p = q ∧ r ≠ q := by
  unfold leavingEdges outgoing
  simp only [List.mem_filter, decide_eq_true_eq, Edge.isLoop, Bool.not_eq_true',
    decide_eq_false_iff_not]
  refine ⟨fun h => ?_, fun h => ?_⟩
  · rcases h with ⟨⟨he, rfl⟩, hne⟩
    exact ⟨he, rfl, fun hr => hne hr.symm⟩
  · rcases h with ⟨he, rfl, hne⟩
    exact ⟨⟨he, rfl⟩, fun hr => hne hr.symm⟩

variable [Ord σ] [Std.LawfulEqOrd σ]

-- The transitions after a state is ripped out: those that do not touch it, and one for every
-- way in and every way out.
theorem mem_edges_rip : ⟨p, l, r⟩ ∈ (n.rip c q).edges ↔ p ≠ q ∧ r ≠ q ∧ (⟨p, l, r⟩ ∈ n.edges ∨
    ∃ pre post, ⟨p, pre, q⟩ ∈ n.edges ∧ ⟨q, post, r⟩ ∈ n.edges ∧
      l = c.path pre (n.loopLetters q) post) := by
  unfold rip reroute
  rw [mem_addEdges, List.mem_flatMap]
  refine ⟨fun h => ?_, fun h => ?_⟩
  · rcases h with ⟨⟨s, pre, t⟩, hin, hmap⟩ | h
    · rcases List.mem_map.1 hmap with ⟨⟨t', post, r'⟩, hout, heq⟩
      rcases mem_entering.1 hin with ⟨hin, -, hs⟩
      rcases mem_leavingEdges.1 hout with ⟨hout, -, hr⟩
      rcases Edge.mk.inj heq with ⟨rfl, rfl, rfl⟩
      exact ⟨hs, hr, .inr ⟨pre, post, hin, hout, rfl⟩⟩
    · rcases List.mem_filter.1 h with ⟨he, hne⟩
      rw [Bool.and_eq_true, decide_eq_true_eq, decide_eq_true_eq] at hne
      exact ⟨hne.1, hne.2, .inl he⟩
  · rcases h with ⟨hp, hr, he | ⟨pre, post, hin, hout, rfl⟩⟩
    · refine .inr (List.mem_filter.2 ⟨he, ?_⟩)
      rw [Bool.and_eq_true, decide_eq_true_eq, decide_eq_true_eq]
      exact ⟨hp, hr⟩
    · refine .inl ⟨⟨p, pre, q⟩, mem_entering.2 ⟨hin, rfl, hp⟩, ?_⟩
      exact List.mem_map.2 ⟨⟨q, post, r⟩, mem_leavingEdges.2 ⟨hout, rfl, hr⟩, rfl⟩

omit [Ord σ] [Std.LawfulEqOrd σ] in
-- Loops with letters are paths from a state to itself.
theorem path_loops {x : List α} (hx : x ∈ ((n.loopLetters q).map fun a => m (.symbol a)).sum∗) :
    Path m n.edges q q x := by
  rcases hx with ⟨S, rfl, hS⟩
  induction S with
  | nil => exact .nil q
  | cons y S ih =>
    rcases List.forall_mem_cons.1 hS with ⟨hy, hS⟩
    rcases mem_sum_map.1 hy with ⟨a, ha, hya⟩
    exact .cons (mem_loopLetters.1 ha) hya (ih hS)

/-- A path through the ripped state, seen from this state on: loops, a way out and a path that
does not touch it. -/
def Leaves (c : Combiner σ) (m : Label σ → Language α) (n : Nfa σ) (q r : State) (w : List α) :
    Prop :=
  ∃ x y z post s, w = x ++ (y ++ z) ∧
    x ∈ ((n.loopLetters q).map fun a => m (.symbol a)).sum∗ ∧
    ⟨q, post, s⟩ ∈ n.edges ∧ s ≠ q ∧ y ∈ m post ∧ Path m (n.rip c q).edges s r z

omit [Std.LawfulEqOrd σ] in
theorem leaves_loop (hε : m .epsilon = 1) (he : ⟨q, l, q⟩ ∈ n.edges)
    {u v : List α} (hu : u ∈ m l) (hv : Leaves c m n q r v) : Leaves c m n q r (u ++ v) := by
  rcases hv with ⟨x, y, z, post, s, rfl, ⟨S, rfl, hS⟩, hs, hne, hy, hz⟩
  cases l with
  | epsilon =>
    rw [hε, Language.mem_one] at hu
    rw [hu]
    exact ⟨S.flatten, y, z, post, s, rfl, ⟨S, rfl, hS⟩, hs, hne, hy, hz⟩
  | symbol a =>
    have hua : u ∈ ((n.loopLetters q).map fun a => m (.symbol a)).sum :=
      mem_sum_map.2 ⟨a, mem_loopLetters.2 he, hu⟩
    refine ⟨u ++ S.flatten, y, z, post, s, by rw [List.append_assoc], ?_, hs, hne, hy, hz⟩
    exact ⟨u :: S, rfl, List.forall_mem_cons.2 ⟨hua, hS⟩⟩

-- Between other states, ripping out a state changes no word that is spelled, as long as each new
-- label means a way in, loops and a way out.
theorem path_rip_iff_of_meaning (hε : m .epsilon = 1)
    (hlabel : ∀ s pre post t, s ≠ q → t ≠ q → ⟨s, pre, q⟩ ∈ n.edges → ⟨q, post, t⟩ ∈ n.edges →
      m (c.path pre (n.loopLetters q) post) =
        m pre * ((n.loopLetters q).map fun a => m (.symbol a)).sum∗ * m post)
    (hp : p ≠ q) (hr : r ≠ q) : Path m (n.rip c q).edges p r w ↔ Path m n.edges p r w := by
  refine ⟨fun hw => hw.simulate id ?_, fun hw => ?_⟩
  · -- a new transition stands for a way in, loops and a way out
    intro s l t he u hu
    rcases mem_edges_rip.1 he with ⟨hs, ht, he | ⟨pre, post, hin, hout, rfl⟩⟩
    · exact .single he hu
    · rw [hlabel s pre post t hs ht hin hout] at hu
      rcases Language.mem_mul.1 hu with ⟨_, hxy, z, hz, rfl⟩
      rcases Language.mem_mul.1 hxy with ⟨x, hx, y, hy, rfl⟩
      exact ((Path.single hin hx).append (path_loops hy)).append (Path.single hout hz)
  · -- from the ripped state on, the path is kept as loops and a way out until it is entered
    have key := hw.backward
      (R := fun p w => (p ≠ q → Path m (n.rip c q).edges p r w) ∧ (p = q → Leaves c m n q r w))
      ⟨fun _ => .nil r, fun h => absurd h hr⟩ ?_
    · exact key.1 hp
    · intro s l t he u hu v _ ih
      by_cases hs : s = q <;> by_cases ht : t = q
      · -- a loop of the ripped state is one more round
        subst hs
        subst ht
        exact ⟨fun h => absurd rfl h, fun _ => leaves_loop hε he hu (ih.2 rfl)⟩
      · subst hs
        refine ⟨fun h => absurd rfl h, fun _ => ?_⟩
        exact ⟨[], u, v, l, t, rfl, Language.nil_mem_kstar _, he, ht, hu, ih.1 ht⟩
      · -- the way in completes a new transition
        subst ht
        refine ⟨fun _ => ?_, fun h => absurd h hs⟩
        rcases ih.2 rfl with ⟨x, y, z, post, s', rfl, hx, hout, hne, hy, hz⟩
        have hedge : ⟨s, c.path l (n.loopLetters t) post, s'⟩ ∈ (n.rip c t).edges :=
          mem_edges_rip.2 ⟨hs, hne, .inr ⟨l, post, he, hout, rfl⟩⟩
        have hword : u ++ x ++ y ∈ m (c.path l (n.loopLetters t) post) := by
          rw [hlabel s l post s' hs hne he hout]
          exact Language.append_mem_mul (Language.append_mem_mul hu hx) hy
        have h := Path.cons hedge hword hz
        simpa only [List.append_assoc] using h
      · refine ⟨fun _ => ?_, fun h => absurd h hs⟩
        exact .cons (mem_edges_rip.2 ⟨hs, ht, .inl he⟩) hu (ih.1 ht)

-- With a sound combiner each new label means that.
theorem path_rip_iff (hc : c.Sound good m) (hg : ∀ e ∈ n.edges, good e.label)
    (hp : p ≠ q) (hr : r ≠ q) : Path m (n.rip c q).edges p r w ↔ Path m n.edges p r w :=
  path_rip_iff_of_meaning hc.meaning_epsilon (fun _ pre post _ _ _ hin hout =>
    hc.meaning_path pre _ post (hg _ hin) (fun _ ha => hg _ (mem_loopLetters.1 ha)) (hg _ hout))
    hp hr

theorem good_rip (hc : c.Sound good m) (hg : ∀ e ∈ n.edges, good e.label) :
    ∀ e ∈ (n.rip c q).edges, good e.label := by
  intro e he
  rcases mem_edges_rip.1 he with ⟨-, -, he | ⟨pre, post, hin, hout, heq⟩⟩
  · exact hg _ he
  · rw [heq]
    exact hc.good_path _ _ _ (hg _ hin) (fun a ha => hg _ (mem_loopLetters.1 ha)) (hg _ hout)

theorem wired_rip (h : n.Wired) (hs : q ≠ n.start) (hf : q ≠ n.final) : (n.rip c q).Wired where
  start_mem := List.mem_filter.2 ⟨h.start_mem, decide_eq_true hs.symm⟩
  final_mem := List.mem_filter.2 ⟨h.final_mem, decide_eq_true hf.symm⟩
  source_mem p l r he := by
    rcases mem_edges_rip.1 he with ⟨hp, -, he | ⟨pre, post, hin, -, -⟩⟩
    · exact List.mem_filter.2 ⟨h.source_mem _ _ _ he, decide_eq_true hp⟩
    · exact List.mem_filter.2 ⟨h.source_mem _ _ _ hin, decide_eq_true hp⟩
  target_mem p l r he := by
    rcases mem_edges_rip.1 he with ⟨-, hr, he | ⟨pre, post, -, hout, -⟩⟩
    · exact List.mem_filter.2 ⟨h.target_mem _ _ _ he, decide_eq_true hr⟩
    · exact List.mem_filter.2 ⟨h.target_mem _ _ _ hout, decide_eq_true hr⟩

theorem isolated_rip (h : n.Isolated) : (n.rip c q).Isolated where
  start_ne_final := h.start_ne_final
  not_into_start p l he := by
    rcases mem_edges_rip.1 he with ⟨-, -, he | ⟨pre, post, -, hout, -⟩⟩
    · exact h.not_into_start _ _ he
    · exact h.not_into_start _ _ hout
  not_out_of_final l r he := by
    rcases mem_edges_rip.1 he with ⟨-, -, he | ⟨pre, post, hin, -, -⟩⟩
    · exact h.not_out_of_final _ _ he
    · exact h.not_out_of_final _ _ hin

end Rip

/-! ## Merging parallel transitions -/

section Merge

theorem mem_labelsBetween : l ∈ n.labelsBetween p q ↔ ⟨p, l, q⟩ ∈ n.edges := by
  unfold labelsBetween
  rw [List.mem_map]
  simp only [List.mem_filter, Bool.and_eq_true, decide_eq_true_eq]
  refine ⟨fun h => ?_, fun h => ⟨_, ⟨h, rfl, rfl⟩, rfl⟩⟩
  rcases h with ⟨e, ⟨he, rfl, rfl⟩, rfl⟩
  exact he

theorem mem_joinedPairs : (p, q) ∈ n.joinedPairs ↔ ∃ l, ⟨p, l, q⟩ ∈ n.edges := by
  unfold joinedPairs
  rw [List.mem_eraseDups, List.mem_map]
  refine ⟨fun h => ?_, fun h => ?_⟩
  · rcases h with ⟨e, he, heq⟩
    rcases Prod.mk.inj heq with ⟨rfl, rfl⟩
    exact ⟨e.label, he⟩
  · rcases h with ⟨l, he⟩
    exact ⟨_, he, rfl⟩

theorem good_mergedLabel (hc : c.Sound good m) (hg : ∀ e ∈ n.edges, good e.label)
    (he : ⟨p, l, q⟩ ∈ n.edges) : good (n.mergedLabel c p q) := by
  have hall : ∀ l ∈ n.labelsBetween p q, good l := fun l hl => hg _ (mem_labelsBetween.1 hl)
  have hne : n.labelsBetween p q ≠ [] := List.ne_nil_of_mem (mem_labelsBetween.2 he)
  unfold mergedLabel
  split
  · rename_i l' heq
    exact hall l' (heq ▸ List.mem_singleton.2 rfl)
  · exact hc.good_parallel _ hne hall

-- A merged transition spells what one of the transitions spells that it stands for.
theorem mem_mergedLabel (hc : c.Sound good m) (hg : ∀ e ∈ n.edges, good e.label)
    (he : ⟨p, l, q⟩ ∈ n.edges) :
    w ∈ m (n.mergedLabel c p q) ↔ ∃ l, ⟨p, l, q⟩ ∈ n.edges ∧ w ∈ m l := by
  have hall : ∀ l ∈ n.labelsBetween p q, good l := fun l hl => hg _ (mem_labelsBetween.1 hl)
  have hne : n.labelsBetween p q ≠ [] := List.ne_nil_of_mem (mem_labelsBetween.2 he)
  have hsum : m (n.mergedLabel c p q) = ((n.labelsBetween p q).map m).sum := by
    unfold mergedLabel
    split
    · rename_i l' heq
      rw [heq, List.map_singleton, List.sum_singleton]
    · exact hc.meaning_parallel _ hne hall
  rw [hsum, mem_sum_map]
  simp only [mem_labelsBetween]

variable [Ord σ]

theorem mem_edges_unionEdges : ⟨p, l, q⟩ ∈ (n.unionEdges c).edges ↔
    (∃ l, ⟨p, l, q⟩ ∈ n.edges) ∧ l = n.mergedLabel c p q := by
  unfold unionEdges
  rw [List.mem_map]
  refine ⟨fun h => ?_, fun h => ?_⟩
  · rcases h with ⟨⟨s, t⟩, hst, heq⟩
    rcases Edge.mk.inj heq with ⟨rfl, rfl, rfl⟩
    exact ⟨mem_joinedPairs.1 hst, rfl⟩
  · rcases h with ⟨he, rfl⟩
    exact ⟨(p, q), mem_joinedPairs.2 he, rfl⟩

-- Merging parallel transitions changes no word that is spelled.
theorem path_unionEdges_iff (hc : c.Sound good m) (hg : ∀ e ∈ n.edges, good e.label) :
    Path m (n.unionEdges c).edges p q w ↔ Path m n.edges p q w := by
  refine ⟨fun hw => hw.simulate id ?_, fun hw => hw.simulate id ?_⟩
  · intro s l t he u hu
    rcases mem_edges_unionEdges.1 he with ⟨⟨l', hedge⟩, rfl⟩
    rcases (mem_mergedLabel hc hg hedge).1 hu with ⟨l, hl, hu⟩
    exact .single hl hu
  · intro s l t he u hu
    refine .single (mem_edges_unionEdges.2 ⟨⟨l, he⟩, rfl⟩) ?_
    exact (mem_mergedLabel hc hg he).2 ⟨l, he, hu⟩

theorem good_unionEdges (hc : c.Sound good m) (hg : ∀ e ∈ n.edges, good e.label) :
    ∀ e ∈ (n.unionEdges c).edges, good e.label := by
  intro e he
  rcases mem_edges_unionEdges.1 he with ⟨⟨l, he⟩, heq⟩
  rw [heq]
  exact good_mergedLabel hc hg he

theorem wired_unionEdges (h : n.Wired) : (n.unionEdges c).Wired where
  start_mem := h.start_mem
  final_mem := h.final_mem
  source_mem p l q he := by
    rcases mem_edges_unionEdges.1 he with ⟨⟨l, he⟩, -⟩
    exact h.source_mem _ _ _ he
  target_mem p l q he := by
    rcases mem_edges_unionEdges.1 he with ⟨⟨l, he⟩, -⟩
    exact h.target_mem _ _ _ he

theorem isolated_unionEdges (h : n.Isolated) : (n.unionEdges c).Isolated where
  start_ne_final := h.start_ne_final
  not_into_start p l he := by
    rcases mem_edges_unionEdges.1 he with ⟨⟨l, he⟩, -⟩
    exact h.not_into_start _ _ he
  not_out_of_final l q he := by
    rcases mem_edges_unionEdges.1 he with ⟨⟨l, he⟩, -⟩
    exact h.not_out_of_final _ _ he

theorem nodup_eraseDups {β : Type} [BEq β] [LawfulBEq β] (xs : List β) : xs.eraseDups.Nodup := by
  induction hlength : xs.length using Nat.strong_induction_on generalizing xs with
  | _ k ih =>
    cases xs with
    | nil => exact List.nodup_nil
    | cons x xs =>
      rw [List.eraseDups_cons, List.nodup_cons, List.mem_eraseDups]
      constructor
      · intro h
        simpa using (List.mem_filter.1 h).2
      · -- the rest of the list is shorter, however many copies are left out
        have hle := List.length_filter_le (fun y => !y == x) xs
        rw [List.length_cons] at hlength
        exact ih _ (by omega) _ rfl

/-- No two transitions are parallel. -/
def NoParallels (n : Nfa σ) : Prop := (n.edges.map Edge.ends).Nodup

theorem noParallels_unionEdges : (n.unionEdges c).NoParallels := by
  have h : (n.unionEdges c).edges.map Edge.ends = n.joinedPairs := by
    unfold unionEdges
    rw [List.map_map]
    exact List.map_id _
  unfold NoParallels
  rw [h]
  exact nodup_eraseDups _

end Merge

/-! ## Elimination -/

section Eliminate

/-- What every round of an elimination keeps. -/
structure Eliminable (good : Label σ → Prop) (n : Nfa σ) : Prop where
  wired : n.Wired
  isolated : n.Isolated
  good : ∀ e ∈ n.edges, good e.label
  noParallels : n.NoParallels

theorem mem_innerStates : q ∈ n.innerStates ↔ q ∈ n.states ∧ q ≠ n.start ∧ q ≠ n.final := by
  unfold innerStates
  rw [List.mem_filter, Bool.and_eq_true, decide_eq_true_eq, decide_eq_true_eq]

theorem innerStates_eq_nil {order : EliminationOrder} (h : n.nextInner? c order = none) :
    n.innerStates = [] := by
  cases order with
  | ascending => exact List.head?_eq_none_iff.1 h
  | heuristic =>
    unfold nextInner? at h
    generalize n.innerStates = qs at h
    cases qs with
    | nil => rfl
    | cons q qs =>
      -- a list with an element has a least one
      simp only [firstMin?] at h
      split at h
      · cases h
      · split at h <;> cases h

variable [Ord σ] [Std.LawfulEqOrd σ]

/-- One round keeps what the next one needs. -/
theorem Eliminable.ripAndMerge (hc : c.Sound good m) (h : Eliminable good n)
    (hq : q ∈ n.innerStates) : Eliminable good (n.ripAndMerge c q) where
  wired := wired_unionEdges
    (wired_rip h.wired (mem_innerStates.1 hq).2.1 (mem_innerStates.1 hq).2.2)
  isolated := isolated_unionEdges (isolated_rip h.isolated)
  good := good_unionEdges hc (good_rip hc h.good)
  noParallels := noParallels_unionEdges

-- One round changes no word of the language.
theorem Eliminable.languageUnder_ripAndMerge (hc : c.Sound good m) (h : Eliminable good n)
    (hq : q ∈ n.innerStates) : (n.ripAndMerge c q).languageUnder m = n.languageUnder m := by
  ext w
  rcases mem_innerStates.1 hq with ⟨-, hs, hf⟩
  have hmerge := path_unionEdges_iff (p := n.start) (q := n.final) (w := w) hc
    (good_rip (q := q) hc h.good)
  exact hmerge.trans (path_rip_iff hc h.good hs.symm hf.symm)

/-- All rounds together change no word of the language, and leave no inner state. -/
theorem Eliminable.ripAll (hc : c.Sound good m) (order : EliminationOrder)
    (h : Eliminable good n) :
    Eliminable good (n.ripAll c order) ∧ (n.ripAll c order).innerStates = [] ∧
      (n.ripAll c order).languageUnder m = n.languageUnder m := by
  fun_induction Nfa.ripAll c order n with
  | case1 n hnext => exact ⟨h, innerStates_eq_nil hnext, rfl⟩
  | case2 n q hnext ih =>
    have hq := mem_innerStates_of_nextInner? hnext
    rcases ih (h.ripAndMerge hc hq) with ⟨hrest, hinner, hlanguage⟩
    exact ⟨hrest, hinner, hlanguage.trans (h.languageUnder_ripAndMerge hc hq)⟩

omit [Ord σ] [Std.LawfulEqOrd σ] in
-- Without inner states all transitions lead from the start to the final state.
theorem Eliminable.ends_eq (h : Eliminable good n) (hinner : n.innerStates = [])
    (he : ⟨p, l, q⟩ ∈ n.edges) : p = n.start ∧ q = n.final := by
  have hterminal : ∀ r ∈ n.states, r = n.start ∨ r = n.final := by
    intro r hr
    by_cases hs : r = n.start
    · exact .inl hs
    · by_cases hf : r = n.final
      · exact .inr hf
      · have hmem : r ∈ n.innerStates := mem_innerStates.2 ⟨hr, hs, hf⟩
        rw [hinner] at hmem
        cases hmem
  have hp : p ≠ n.final := fun hp => h.isolated.not_out_of_final _ _ (hp ▸ he)
  have hq : q ≠ n.start := fun hq => h.isolated.not_into_start _ _ (hq ▸ he)
  exact ⟨(hterminal p (h.wired.source_mem _ _ _ he)).resolve_right hp,
    (hterminal q (h.wired.target_mem _ _ _ he)).resolve_left hq⟩

omit [Ord σ] [Std.LawfulEqOrd σ] in
-- Without inner states there is at most one transition.
theorem Eliminable.edges_eq (h : Eliminable good n) (hinner : n.innerStates = []) :
    n.edges = [] ∨ ∃ l, n.edges = [⟨n.start, l, n.final⟩] := by
  have hends : ∀ e ∈ n.edges, e.source = n.start ∧ e.target = n.final := fun e he =>
    h.ends_eq hinner he
  have hnodup := h.noParallels
  unfold NoParallels at hnodup
  generalize n.edges = edges at hends hnodup
  match edges, hends, hnodup with
  | [], _, _ => exact .inl rfl
  | [e], hends, _ =>
    rcases hends e List.mem_cons_self with ⟨hs, hf⟩
    exact .inr ⟨e.label, by rw [← hs, ← hf]⟩
  | e :: f :: _, hends, hnodup =>
    -- two transitions with the same ends would be parallel
    have he := hends e List.mem_cons_self
    have hf := hends f (List.mem_cons_of_mem _ List.mem_cons_self)
    have heq : e.ends = f.ends := by
      unfold Edge.ends
      rw [he.1, he.2, hf.1, hf.2]
    simp [heq] at hnodup

theorem eliminable_prepared [Std.TransOrd σ] (hc : c.Sound good m) (h : n.WellFormed)
    (hg : ∀ e ∈ n.edges, good e.label) : Eliminable good (n.prepared c) where
  wired := wired_unionEdges h.isolate.toWired
  isolated := isolated_unionEdges h.isolated_isolate
  good := good_unionEdges hc (good_isolate hc.good_epsilon hg)
  noParallels := noParallels_unionEdges

theorem languageUnder_prepared [Std.TransOrd σ] (hc : c.Sound good m) (h : n.WellFormed)
    (hg : ∀ e ∈ n.edges, good e.label) :
    (n.prepared c).languageUnder m = n.languageUnder m := by
  rw [← h.languageUnder_isolate hc.meaning_epsilon]
  ext w
  exact path_unionEdges_iff hc (good_isolate hc.good_epsilon hg)

/-- With a sound combiner, the label that elimination ends with means the language of the
automaton, and there is none only if the language is empty. -/
theorem expression_spec [Std.TransOrd σ] (hc : c.Sound good m) (order : EliminationOrder)
    (h : n.WellFormed) (hg : ∀ e ∈ n.edges, good e.label) :
    (n.expression c order = none ∧ n.languageUnder m = 0) ∨
      ∃ l, n.expression c order = some l ∧ good l ∧ n.languageUnder m = m l := by
  rcases (eliminable_prepared hc h hg).ripAll hc order with ⟨hlast, hinner, hlanguage⟩
  rw [languageUnder_prepared hc h hg] at hlanguage
  rw [← hlanguage]
  unfold expression eliminate
  generalize (n.prepared c).ripAll c order = last at hlast hinner ⊢
  have hne := hlast.isolated.start_ne_final
  rcases hlast.edges_eq hinner with hedges | ⟨l, hedges⟩
  · refine .inl ⟨by simp [renumber, labelsBetween, hedges], ?_⟩
    ext w
    refine ⟨fun hw => ?_, fun hw => absurd hw (Language.notMem_zero w)⟩
    have hstart : ∀ l r, ⟨last.start, l, r⟩ ∉ last.edges := by simp [hedges]
    exact absurd (Path.eq_of_no_edges hstart hw).1 hne
  · have hedge : ⟨last.start, l, last.final⟩ ∈ last.edges := by
      rw [hedges]
      exact List.mem_singleton.2 rfl
    refine .inr ⟨l, ?_, hlast.good _ hedge, ?_⟩
    · simp [renumber, labelsBetween, hedges, Ascending.insert, Edge.mapStates]
    · ext w
      refine ⟨fun hw => ?_, fun hw => .single hedge hw⟩
      rcases Path.eq_or_exists_edge hw with ⟨heq, -⟩ | ⟨l', r, u, v, he, hu, rfl, hv⟩
      · exact absurd heq hne
      · -- the only transition leads to the final state, where the path ends
        rw [hedges, List.mem_singleton] at he
        rcases Edge.mk.inj he with ⟨-, rfl, rfl⟩
        rcases Path.eq_of_no_edges hlast.isolated.not_out_of_final hv with ⟨-, rfl⟩
        rwa [List.append_nil]

end Eliminate

end Nfa

end Kleene
