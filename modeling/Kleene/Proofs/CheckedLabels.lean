import Kleene.Proofs.PostfixLabels

/-!
# Labels without misuse

The combiner of postfix expressions applies operators only to operands that they take: a binary
operator to any number of them, and a quantifier to one.  So the checks never fail, whatever the
labels are, and for labels that are expressions the checked form returns the label that means what
it should.
-/

open Computability

namespace Kleene

variable {σ : Type}

namespace Postfix

theorem length_nonempty (op : Operator) (ps : List (Postfix σ)) :
    (nonempty op ps).length = ps.countP (!·.isEmpty) := by
  unfold nonempty
  rw [← List.countP_eq_length_filter, (arranged_perm op ps).countP_eq]

/-- An operator can be applied if it takes operands, and not too many of those that are given have
tokens. -/
theorem checkedApply_eq_ok_iff {op : Operator} {ps : List (Postfix σ)} {r : Postfix σ} :
    checkedApply op ps = .ok r ↔
      (op.arity ≠ 0 ∧ (op.arity = 1 → ps.countP (!·.isEmpty) ≤ 1)) ∧ r = apply op ps := by
  unfold checkedApply
  rw [length_nonempty]
  by_cases harity : op.arity = 0
  · rw [if_pos harity]
    exact iff_of_false (fun h => by cases h) fun h => h.1.1 harity
  · rw [if_neg harity]
    by_cases hmany : op.arity = 1 ∧ 1 < ps.countP (!·.isEmpty)
    · rw [if_pos hmany]
      exact iff_of_false (fun h => by cases h) fun h => Nat.not_lt.2 (h.1.2 hmany.1) hmany.2
    · rw [if_neg hmany, Except.ok.injEq, eq_comm]
      refine (and_iff_right ⟨harity, fun hone => ?_⟩).symm
      exact Nat.not_lt.1 fun hlt => hmany ⟨hone, hlt⟩

theorem checkedApply_eq_ok {op : Operator} {ps : List (Postfix σ)} (harity : op.arity ≠ 0)
    (hcount : op.arity = 1 → ps.length ≤ 1) : checkedApply op ps = .ok (apply op ps) :=
  checkedApply_eq_ok_iff.2
    ⟨⟨harity, fun hone => List.countP_le_length.trans (hcount hone)⟩, rfl⟩

theorem checkedApply_concat (ps : List (Postfix σ)) :
    checkedApply .concat ps = .ok (apply .concat ps) :=
  checkedApply_eq_ok (by decide) (by simp [Operator.arity])

theorem checkedApply_alternation (ps : List (Postfix σ)) :
    checkedApply .alternation ps = .ok (apply .alternation ps) :=
  checkedApply_eq_ok (by decide) (by simp [Operator.arity])

/-- A quantifier can be applied to any one expression. -/
theorem checkedApply_quantifier (op : Operator) (h : op.isQuantifier = true) (p : Postfix σ) :
    checkedApply op [p] = .ok (apply op [p]) := by
  have harity : op.arity = 1 := of_decide_eq_true h
  exact checkedApply_eq_ok (by omega) fun _ => Nat.le_refl 1

end Postfix

namespace PostfixCombiner

open Postfix

theorem loopChoice?_eq_ok (loops : List (Annotated σ)) :
    loopChoice? loops = .ok (loopChoice loops) := by
  unfold loopChoice? loopChoice
  simp only [checkedApply_alternation]
  exact List.foldlM_pure

theorem choice?_eq_ok (ls : List (Label (Annotated σ))) : choice? ls = .ok (choice ls) := by
  have hround : ∀ union (l : Label (Annotated σ)),
      (if l.tokens.isEmpty then .ok union else checkedApply .alternation [union, l.tokens]) =
        (.ok (if l.tokens.isEmpty then union else apply .alternation [union, l.tokens]) :
          Except Misuse (Postfix σ)) := by
    intro union l
    rw [checkedApply_alternation]
    split <;> rfl
  unfold choice? choice
  simp only [hround]
  exact List.foldlM_pure

/-- No check fails when a path becomes one label. -/
theorem path?_eq_ok [DecidableEq σ] (pre : Label (Annotated σ)) (loops : List (Annotated σ))
    (post : Label (Annotated σ)) : path? pre loops post = .ok (path pre loops post) := by
  unfold path? path
  rw [loopChoice?_eq_ok]
  simp only [checkedApply_concat, checkedApply_quantifier .plus rfl,
    checkedApply_quantifier .star rfl]
  show (if _ then _ else if _ then _ else _) = _
  split
  · rfl
  · split <;> rfl

/-- No check fails when parallel labels become one. -/
theorem parallel?_eq_ok (ls : List (Label (Annotated σ))) : parallel? ls = .ok (parallel ls) := by
  unfold parallel? parallel
  rw [choice?_eq_ok]
  simp only [checkedApply_quantifier .optional rfl]
  show (if _ then _ else _) = _
  split <;> rfl

theorem Good.eq_epsilon_or {l : Label (Annotated σ)} (h : Good l) :
    l = .epsilon ∨ (l.tokens ≠ [] ∧ l.tokens.Valid) := by
  by_cases hnil : l.tokens = []
  · exact .inl (h.2 hnil)
  · exact .inr ⟨hnil, h.1⟩

/-- For labels whose tokens are expressions, or none at all, no check fails, and the combined labels
are ε or expressions: a path means the way in, any number of rounds of any loops, and the way out;
parallel labels mean what any of them means. -/
theorem path_parallel_spec [DecidableEq σ] :
    (∀ (pre : Label (Annotated σ)) (loops : List (Annotated σ)) (post : Label (Annotated σ)),
      pre.tokens.Valid → (∀ a ∈ loops, a.tokens.Valid) → post.tokens.Valid →
        ∃ l, path? pre loops post = .ok l ∧ (l = .epsilon ∨ (l.tokens ≠ [] ∧ l.tokens.Valid)) ∧
          meaning l =
            meaning pre * (loops.map fun a => meaning (.symbol a)).sum∗ * meaning post) ∧
    ∀ ls : List (Label (Annotated σ)), ls ≠ [] → (∀ l ∈ ls, l.tokens.Valid) →
      ∃ l, parallel? ls = .ok l ∧ (l = .epsilon ∨ (l.tokens ≠ [] ∧ l.tokens.Valid)) ∧
        meaning l = (ls.map meaning).sum := by
  constructor
  · intro pre loops post hpre hloops hpost
    obtain ⟨hgood, hmeaning⟩ := path_spec hpre hloops hpost
    exact ⟨_, path?_eq_ok pre loops post, hgood.eq_epsilon_or, hmeaning⟩
  · intro ls hne hls
    obtain ⟨hgood, hmeaning⟩ := parallel_spec hne hls
    exact ⟨_, parallel?_eq_ok ls, hgood.eq_epsilon_or, hmeaning⟩

/-- A way in that is one more round of the only loop with letters, and parallel labels of which one
is an expression without tokens. -/
theorem path_parallel_spec_plus :
    (∃ l : Label (Annotated Char),
      path? (.symbol (.literal 'a')) [.literal 'a', .expression []] (.symbol (.literal 'b')) =
        .ok l ∧ meaning l = {['a']} * ({['a']} + 1)∗ * {['b']}) ∧
    ∃ l : Label (Annotated Char),
      parallel? [.symbol (.expression []), .symbol (.literal 'a'), .symbol (.literal 'b')] =
        .ok l ∧ meaning l = 1 + ({['a']} + {['b']}) := by
  have hletter : ∀ c : Char, Valid [.literal c] := fun c => (denotes_literal c).valid
  constructor
  · obtain ⟨l, hl, -, hmeaning⟩ := path_parallel_spec.1 (.symbol (.literal 'a'))
      [.literal 'a', .expression []] (.symbol (.literal 'b')) (hletter 'a')
      (List.forall_mem_cons.2 ⟨hletter 'a', List.forall_mem_singleton.2 valid_nil⟩) (hletter 'b')
    refine ⟨l, hl, hmeaning.trans ?_⟩
    rw [List.map_cons, List.map_singleton, List.sum_cons, List.sum_singleton]
    rfl
  · obtain ⟨l, hl, -, hmeaning⟩ := path_parallel_spec.2
      [.symbol (.expression []), .symbol (.literal 'a'), .symbol (.literal 'b')]
      (List.cons_ne_nil _ _)
      (List.forall_mem_cons.2 ⟨valid_nil, List.forall_mem_cons.2
        ⟨hletter 'a', List.forall_mem_singleton.2 (hletter 'b')⟩⟩)
    refine ⟨l, hl, hmeaning.trans ?_⟩
    rw [List.map_cons, List.map_cons, List.map_singleton, List.sum_cons, List.sum_cons,
      List.sum_singleton]
    rfl

end PostfixCombiner

end Kleene
