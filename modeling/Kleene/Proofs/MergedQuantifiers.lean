import Kleene.Proofs.Reductions
import Mathlib.Data.List.Chain

/-!
# Merged quantifiers

A quantifier looks at the last token of its operand only, and if that is a quantifier the two become
one.  That is enough: no label starts with a quantifier, so none gets behind another one where
labels are joined, and a quantifier that gives way to a merged one stood behind none itself.
Whatever is ripped out and merged in whatever order, no two quantifiers ever stand side by side in a
label.
-/

open Computability

namespace Kleene

variable {σ : Type}

namespace Token

def isQuantifier : Token σ → Bool
  | literal _ => false
  | operator op => op.isQuantifier

end Token

namespace Postfix

variable {p q : Postfix σ} {ps : List (Postfix σ)} {x : Token σ} {op : Operator}

/-- Some quantifier stands right behind another one: it is applied to what is quantified already. -/
def NestsQuantifiers (p : Postfix σ) : Prop :=
  ∃ front inner outer rest, inner.isQuantifier = true ∧ outer.isQuantifier = true ∧
    p = front ++ .operator inner :: .operator outer :: rest

/-- One of the tokens is no quantifier. -/
def Apart (x y : Token σ) : Prop := x.isQuantifier = false ∨ y.isQuantifier = false

/-- No quantifier stands first or right behind another one. -/
structure Collapsed (p : Postfix σ) : Prop where
  not_first : ∀ x ∈ p.head?, x.isQuantifier = false
  apart : p.IsChain Apart

theorem Collapsed.not_nestsQuantifiers (h : p.Collapsed) : ¬p.NestsQuantifiers := by
  rintro ⟨front, inner, outer, rest, hinner, houter, hp⟩
  rcases List.isChain_iff_forall_rel_of_append_cons_cons.1 h.apart hp with hno | hno
  · exact absurd hinner (Bool.eq_false_iff.1 hno)
  · exact absurd houter (Bool.eq_false_iff.1 hno)

/-! ## Joining -/

theorem collapsed_nil : Collapsed ([] : Postfix σ) := ⟨nofun, .nil⟩

theorem collapsed_singleton (h : x.isQuantifier = false) : Collapsed [x] where
  not_first _ hy := Option.some.inj hy ▸ h
  apart := List.isChain_singleton x

theorem Collapsed.append (hp : p.Collapsed) (hq : q.Collapsed) : Collapsed (p ++ q) where
  not_first x hx := by
    cases p with
    | nil => exact hq.not_first x hx
    | cons y p => exact hp.not_first x hx
  apart := hp.apart.append hq.apart fun _ _ y hy => .inr (hq.not_first y hy)

theorem Collapsed.flatten (h : ∀ p ∈ ps, p.Collapsed) : Collapsed ps.flatten := by
  induction ps with
  | nil => exact collapsed_nil
  | cons p ps ih =>
    obtain ⟨hp, hps⟩ := List.forall_mem_cons.1 h
    exact hp.append (ih hps)

theorem collapsed_replicate (h : op.isQuantifier = false) (k : Nat) :
    Collapsed (List.replicate k (.operator op) : Postfix σ) := by
  rw [← List.flatten_replicate_singleton]
  exact .flatten fun p hp => List.eq_of_mem_replicate hp ▸ collapsed_singleton h

/-! ## Applying quantifiers -/

/-- Any two quantifiers merge, and nothing else does. -/
theorem isSome_collapse? (inner outer : Operator) :
    (inner.collapse? outer).isSome = (inner.isQuantifier && outer.isQuantifier) := by
  cases inner <;> cases outer <;> rfl

/-- Behind a token that is no quantifier there is room for one. -/
theorem Collapsed.append_singleton (h : p.Collapsed) (hp : p ≠ [])
    (hlast : ∀ y ∈ p.getLast?, y.isQuantifier = false) (x : Token σ) : Collapsed (p ++ [x]) where
  not_first y hy := by
    rw [List.head?_append_of_ne_nil p hp] at hy
    exact h.not_first y hy
  apart := h.apart.append (List.isChain_singleton x) fun y hy _ _ => .inl (hlast y hy)

/-- What a quantifier stands behind does not end with one. -/
theorem Collapsed.of_append_singleton (h : Collapsed (p ++ [x])) (hx : x.isQuantifier = true) :
    p.Collapsed ∧ p ≠ [] ∧ ∀ y ∈ p.getLast?, y.isQuantifier = false := by
  have hp : p ≠ [] := by
    rintro rfl
    rw [h.not_first x rfl] at hx
    cases hx
  obtain ⟨hchain, -, hends⟩ := List.isChain_append.1 h.apart
  refine ⟨⟨fun y hy => h.not_first y ?_, hchain⟩, hp, fun y hy => ?_⟩
  · rwa [List.head?_append_of_ne_nil p hp]
  · exact (hends y hy x rfl).resolve_right (ne_false_of_eq_true hx)

/-- A quantifier is put behind the tokens, or merges with the one they end with. -/
theorem Collapsed.absorbQuantifier (h : p.Collapsed) (hp : p ≠ []) (hop : op.isQuantifier = true) :
    Collapsed ((absorbQuantifier op p).1 ++ [.operator (absorbQuantifier op p).2]) := by
  unfold Postfix.absorbQuantifier
  cases hmerged : p.topOperator?.bind (Operator.collapse? · op) with
  | none =>
    -- a quantifier at the end would have merged
    refine h.append_singleton hp (fun y hy => Bool.eq_false_of_not_eq_true fun hquantifier => ?_) _
    cases y with
    | literal a => cases hquantifier
    | operator inner =>
      have htop : p.topOperator? = some inner := by
        unfold topOperator?
        rw [hy]
        rfl
      have hsome := isSome_collapse? inner op
      rw [htop, Option.bind_some] at hmerged
      rw [hmerged, hop, show inner.isQuantifier = true from hquantifier] at hsome
      cases hsome
  | some merged =>
    obtain ⟨inner, htop, hcollapse⟩ := Option.bind_eq_some_iff.1 hmerged
    have hboth := isSome_collapse? inner op
    rw [hcollapse, hop, Bool.and_true] at hboth
    rw [topOperator?_eq_some htop] at h
    -- the merged quantifier stands where the one at the end stood
    obtain ⟨hrest, hne, hlast⟩ := h.of_append_singleton hboth.symm
    exact hrest.append_singleton hne hlast _

/-- Applying an operator never puts a quantifier behind a quantifier. -/
theorem collapsed_apply (op : Operator) (h : ∀ p ∈ ps, p.Collapsed) :
    Collapsed (apply op ps) := by
  have hrow : ∀ p ∈ nonempty op ps, p.Collapsed := fun p hp => h p (mem_nonempty.1 hp).1
  cases hop : op.isQuantifier with
  | false =>
    rw [apply_of_not_isQuantifier hop]
    exact (Collapsed.flatten hrow).append (collapsed_replicate hop _)
  | true =>
    have harity : op.arity = 1 := of_decide_eq_true hop
    unfold apply
    simp only [if_pos harity]
    split
    · exact collapsed_nil
    · rename_i hempty
      obtain ⟨p, hp⟩ := List.exists_mem_of_ne_nil _ fun hnil => hempty (List.isEmpty_iff.2 hnil)
      have hne : (nonempty op ps).flatten ≠ [] :=
        List.flatten_ne_nil_iff.2 ⟨p, hp, (mem_nonempty.1 hp).2⟩
      exact (Collapsed.flatten hrow).absorbQuantifier hne hop

end Postfix

/-! ## Labels -/

namespace PostfixCombiner

open Postfix

variable {pre post : Label (Annotated σ)} {loops : List (Annotated σ)}
  {ls : List (Label (Annotated σ))}

theorem collapsed_loopChoice (h : ∀ a ∈ loops, a.tokens.Collapsed) :
    (loopChoice loops).Collapsed := by
  unfold loopChoice
  refine List.foldlRecOn loops _ collapsed_nil fun choice hchoice a ha => ?_
  exact collapsed_apply _ (List.forall_mem_cons.2 ⟨h a ha, List.forall_mem_singleton.2 hchoice⟩)

theorem collapsed_choice (h : ∀ l ∈ ls, l.tokens.Collapsed) : (choice ls).Collapsed := by
  unfold choice
  refine List.foldlRecOn ls _ collapsed_nil fun union hunion l hl => ?_
  split
  · exact hunion
  · exact collapsed_apply _ (List.forall_mem_cons.2 ⟨hunion, List.forall_mem_singleton.2 (h l hl)⟩)

theorem collapsed_path [DecidableEq σ] (hpre : pre.tokens.Collapsed)
    (hloops : ∀ a ∈ loops, a.tokens.Collapsed) (hpost : post.tokens.Collapsed) :
    (path pre loops post).tokens.Collapsed := by
  have hrepeat : ∀ op, (apply op [loopChoice loops]).Collapsed := fun op =>
    collapsed_apply op (List.forall_mem_singleton.2 (collapsed_loopChoice hloops))
  unfold path
  simp only
  split
  · rw [tokens_ofTokens]
    exact collapsed_apply _ (by simp [hrepeat, hpost])
  · split
    · rw [tokens_ofTokens]
      exact collapsed_apply _ (by simp [hpre, hrepeat])
    · rw [tokens_ofTokens]
      exact collapsed_apply _ (by simp [hpre, hrepeat, hpost])

theorem collapsed_parallel (h : ∀ l ∈ ls, l.tokens.Collapsed) :
    (parallel ls).tokens.Collapsed := by
  have hchoice := collapsed_choice h
  unfold parallel
  split
  · rw [tokens_ofTokens]
    exact collapsed_apply _ (List.forall_mem_singleton.2 hchoice)
  · rwa [tokens_ofTokens]

end PostfixCombiner

/-- A property that the labels of a combiner keep; what the labels mean does not matter. -/
theorem Combiner.sound_of_closed {c : Combiner σ} {good : Label σ → Prop} (hε : good .epsilon)
    (hpath : ∀ pre loops post, good pre → (∀ a ∈ loops, good (.symbol a)) → good post →
      good (c.path pre loops post))
    (hparallel : ∀ ls, ls ≠ [] → (∀ l ∈ ls, good l) → good (c.parallel ls)) :
    c.Sound good fun _ => (1 : Language Unit) where
  good_epsilon := hε
  meaning_epsilon := rfl
  good_path := hpath
  meaning_path pre loops post _ _ _ :=
    (Nfa.sound_const_one c).meaning_path pre loops post trivial (fun _ _ => trivial) trivial
  good_parallel := hparallel
  meaning_parallel ls hne _ := (Nfa.sound_const_one c).meaning_parallel ls hne fun _ _ => trivial

/-- The expression of the label is collapsed. -/
def PostfixCombiner.Neat (l : Label (Annotated σ)) : Prop := l.tokens.Collapsed

theorem postfixCombiner_neat (σ : Type) [DecidableEq σ] :
    (postfixCombiner σ).Sound PostfixCombiner.Neat fun _ => (1 : Language Unit) :=
  Combiner.sound_of_closed Postfix.collapsed_nil
    (fun _ _ _ => PostfixCombiner.collapsed_path) fun _ _ => PostfixCombiner.collapsed_parallel

namespace Nfa

/-! ## Runs -/

section Runs

variable {α : Type} [Ord σ] [Std.LawfulEqOrd σ] {c : Combiner σ} {good : Label σ → Prop}
  {m : Label σ → Language α} {n n' : Nfa σ} {rs : List Reduction}

/-- What a sound combiner keeps, all rips and merges keep. -/
theorem good_reduce? (hc : c.Sound good m) (hg : ∀ e ∈ n.edges, good e.label)
    (h : n.reduce? c rs = .ok n') : ∀ e ∈ n'.edges, good e.label :=
  of_foldlM_eq_ok (P := fun n' : Nfa σ => ∀ e ∈ n'.edges, good e.label)
    (fun _ _ _ hgood hx => (languageUnder_perform? hc hgood hx).1) hg h

end Runs

variable [Ord σ] [Std.TransOrd σ] [Std.LawfulEqOrd σ] [DecidableEq σ] {n : Nfa σ}

omit [Std.TransOrd σ] [DecidableEq σ] in
/-- Letters are no quantifiers. -/
theorem neat_annotated (n : Nfa σ) : ∀ e ∈ n.annotated.edges, PostfixCombiner.Neat e.label := by
  intro e he
  obtain ⟨l, -, heq⟩ := mem_edges_mapLetters.1 he
  rw [heq]
  cases l with
  | symbol a => exact Postfix.collapsed_singleton rfl
  | epsilon => exact Postfix.collapsed_nil

theorem WellFormed.collapsed_of_synthesize (h : n.WellFormed) {order : EliminationOrder}
    {p : Postfix σ} (hp : n.synthesize order = some p) : p.Collapsed := by
  unfold Nfa.synthesize at hp
  obtain ⟨l, hl, rfl⟩ := Option.map_eq_some_iff.1 hp
  have hwell : n.annotated.WellFormed := h.mapLetters _
  obtain ⟨hnone, -⟩ | ⟨l', hsome, hcollapsed, -⟩ :=
    expression_spec (postfixCombiner_neat σ) order hwell (neat_annotated n)
  · rw [hl] at hnone
    cases hnone
  · rwa [Option.some.inj (hl.symm.trans hsome)]

/-- No synthesized expression applies a quantifier to a quantifier, and neither does any label that
rips and merges in any order make on the way, whether the terminals have been isolated or not. -/
theorem WellFormed.synthesize_collapsed (h : n.WellFormed) :
    (∀ order p, n.synthesize? order = .ok (some p) → ¬p.NestsQuantifiers) ∧
    ∀ m, (m = n.annotated ∨ m = n.annotated.isolate) → ∀ rs m',
      m.reduce? (postfixCombiner σ) rs = .ok m' →
        ∀ e ∈ m'.edges, ¬e.label.tokens.NestsQuantifiers := by
  constructor
  · intro order p hp
    unfold synthesize? at hp
    rw [requireIsolable_bind] at hp
    split at hp
    · exact (h.collapsed_of_synthesize (Except.ok.inj hp)).not_nestsQuantifiers
    · cases hp
  · intro m hm rs m' hm' e he
    have hsound := postfixCombiner_neat σ
    have hlabels : ∀ e ∈ m.edges, PostfixCombiner.Neat e.label := by
      obtain rfl | rfl := hm
      · exact neat_annotated n
      · exact good_isolate hsound.good_epsilon (neat_annotated n)
    exact (good_reduce? hsound hlabels hm' e he).not_nestsQuantifiers

/-- A loop around a loop around a letter, with all states ripped out. -/
theorem synthesize_collapsed_star : (literal 'a').star.star.WellFormed ∧
    (∃ p, (literal 'a').star.star.synthesize? .heuristic = .ok (some p) ∧ ¬p.NestsQuantifiers) ∧
    ∃ m, (literal 'a').star.star.annotated.isolate.reduce? (postfixCombiner Char)
        [.rip 0, .rip 1, .merge, .rip 2, .merge, .rip 3, .merge] = .ok m ∧
      ∀ e ∈ m.edges, ¬e.label.tokens.NestsQuantifiers := by
  have hwell : (literal 'a').star.star.WellFormed :=
    wellFormed_star (wellFormed_star (wellFormed_literal 'a'))
  have hspec := hwell.synthesize_collapsed
  refine ⟨hwell, ?_, ?_⟩
  · have hfit : (literal 'a').star.star.isolate.fresh ≤ stateLimit := by decide +kernel
    have hnil : [] ∈ (literal 'a').star.star.language := by
      rw [language_star (wellFormed_star (wellFormed_literal 'a'))]
      exact Language.nil_mem_kstar _
    obtain ⟨-, hzero⟩ | ⟨p, hp, -⟩ := hwell.synthesize .heuristic
    · rw [hzero] at hnil
      exact absurd hnil (Language.notMem_zero [])
    · have hchecked : (literal 'a').star.star.synthesize? .heuristic = .ok (some p) := by
        unfold synthesize?
        rw [requireIsolable_bind, if_pos hfit, hp]
      exact ⟨p, hchecked, hspec.1 .heuristic p hchecked⟩
  · have hreduce : ∃ m, (literal 'a').star.star.annotated.isolate.reduce? (postfixCombiner Char)
        [.rip 0, .rip 1, .merge, .rip 2, .merge, .rip 3, .merge] = .ok m :=
      exists_reduce?_iff.2 (by decide +kernel)
    obtain ⟨m, hm⟩ := hreduce
    exact ⟨m, hm, hspec.2 _ (.inr rfl) _ m hm⟩

end Nfa

end Kleene
