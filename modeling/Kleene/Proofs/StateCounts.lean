import Kleene.Proofs.ExpressionTrees

/-!
# The states of an expression

The automaton of an expression has the states from 0 on, without a gap.  How many there are can be
told from the tokens alone: a literal brings two states, a concatenation fuses one state of each
operand and an alternation two, an iteration adds two, and an option none.  So the tokens also tell
whether there are identifiers for all states.
-/

namespace Kleene

namespace Postfix

variable {σ : Type}

def occurrences (op : Operator) (p : Postfix σ) : Nat := p.countP fun x => x.operator? = some op

/-- Two states for a literal, less what is fused, and two more for an iteration. -/
def stateBalance (p : Postfix σ) : Int :=
  2 * p.literalCount - p.occurrences .concat - 2 * p.occurrences .alternation +
    2 * (p.occurrences .star + p.occurrences .plus)

@[simp] theorem stateBalance_append (p q : Postfix σ) :
    stateBalance (p ++ q) = p.stateBalance + q.stateBalance := by
  simp only [stateBalance, literalCount, occurrences, List.countP_append]
  omega

/-- What an operator changes in the number of states. -/
@[simp] theorem stateBalance_operator (op : Operator) : stateBalance [(.operator op : Token σ)] =
    match op with
    | .concat => -1
    | .alternation => -2
    | .star | .plus => 2
    | .optional | .groupOpen | .groupClose => 0 := by
  cases op <;> rfl

end Postfix

namespace Expression

variable {σ : Type} [Ord σ]

theorem mem_alphabet_fold [Std.LawfulEqOrd σ] (e : Expression σ) {c : σ} :
    c ∈ (e.fold (Nfa.algebra σ)).alphabet ↔ .literal c ∈ e.postorder := by
  induction e with
  | literal a => simp [fold, Nfa.algebra, Nfa.literal, postorder]
  | concat e f ihe ihf =>
    show c ∈ (Nfa.concat _ _).alphabet ↔ _
    rw [Nfa.alphabet_concat, Ascending.mem_union, ihe, ihf]
    simp [postorder]
  | alternation e f ihe ihf =>
    show c ∈ (Nfa.union _ _).alphabet ↔ _
    rw [Nfa.alphabet_union, Ascending.mem_union, ihe, ihf]
    simp [postorder]
  | star e ih | plus e ih =>
    show c ∈ (e.fold (Nfa.algebra σ)).alphabet ↔ _
    rw [ih]
    simp [postorder]
  | optional e ih =>
    show c ∈ (e.fold (Nfa.algebra σ)).isolate.alphabet ↔ _
    rw [Nfa.alphabet_isolate, ih]
    simp [postorder]

variable [Std.TransOrd σ] [Std.LawfulEqOrd σ]

theorem compact_fold (e : Expression σ) : (e.fold (Nfa.algebra σ)).Compact := by
  induction e with
  | literal a => exact Nfa.compact_literal a
  | concat e f ihe ihf => exact ihe.concat ihf
  | alternation e f ihe ihf => exact ihe.union ihf
  | star e ih => exact ih.star
  | plus e ih => exact ih.plus
  | optional e ih => exact ih.opt

theorem stateCount_fold (e : Expression σ) :
    ((e.fold (Nfa.algebra σ)).stateCount : Int) = e.postorder.stateBalance := by
  induction e with
  | literal a => rfl
  | concat e f ihe ihf =>
    have hcount : (fold (Nfa.algebra σ) (.concat e f)).stateCount = _ :=
      e.compact_fold.stateCount_concat f.compact_fold
    have htwo := f.compact_fold.two_le_stateCount
    simp only [postorder, Postfix.stateBalance_append, Postfix.stateBalance_operator]
    omega
  | alternation e f ihe ihf =>
    have hcount : (fold (Nfa.algebra σ) (.alternation e f)).stateCount = _ :=
      e.compact_fold.stateCount_union f.compact_fold
    have htwo := f.compact_fold.two_le_stateCount
    simp only [postorder, Postfix.stateBalance_append, Postfix.stateBalance_operator]
    omega
  | star e ih =>
    have hcount : (fold (Nfa.algebra σ) (.star e)).stateCount = _ := e.compact_fold.stateCount_star
    simp only [postorder, Postfix.stateBalance_append, Postfix.stateBalance_operator]
    omega
  | plus e ih =>
    have hcount : (fold (Nfa.algebra σ) (.plus e)).stateCount = _ := e.compact_fold.stateCount_plus
    simp only [postorder, Postfix.stateBalance_append, Postfix.stateBalance_operator]
    omega
  | optional e ih =>
    have hcount : (fold (Nfa.algebra σ) (.optional e)).stateCount = _ :=
      e.compact_fold.stateCount_opt
    simp only [postorder, Postfix.stateBalance_append, Postfix.stateBalance_operator]
    omega

end Expression

namespace Postfix

variable {σ : Type} [Ord σ] [Std.TransOrd σ] [Std.LawfulEqOrd σ] {p : Postfix σ} {n : Nfa σ}

/-- The automaton of an expression has the states below the number that its tokens tell, and its
letters are the literals of the expression, in order.  If there are identifiers for so many states,
the construction within the limit yields it too. -/
theorem toNfa_states (hp : p ≠ []) (h : p.toNfa = .ok n) :
    (∃ count : Nat, (count : Int) = p.stateBalance ∧ n.states = List.range count ∧
      n.fresh = count) ∧
    (Ascending.IsAscending n.alphabet ∧ ∀ c, c ∈ n.alphabet ↔ .literal c ∈ p) ∧
    p.toNfaWithin? =
      if p.stateBalance ≤ stateLimit then .ok n else .error (.inl .statesExhausted) := by
  have hwithin := toNfaWithin?_of_toNfa h
  obtain ⟨e, rfl, rfl⟩ := (evaluate_eq_ok_iff_exists_tree hp).1 h
  have hcompact := e.compact_fold
  have hlimit : e.postorder.stateBalance ≤ stateLimit ↔
      (e.fold (Nfa.algebra σ)).fresh ≤ stateLimit := by
    rw [← e.stateCount_fold, hcompact.stateCount_eq]
    exact Int.ofNat_le
  refine ⟨⟨(e.fold (Nfa.algebra σ)).stateCount, e.stateCount_fold, ?_, hcompact.stateCount_eq.symm⟩,
    ⟨hcompact.wellFormed.alphabet_ascending, fun c => e.mem_alphabet_fold⟩, ?_⟩
  · rw [hcompact.stateCount_eq]
    exact hcompact.states_eq
  · rw [hwithin]
    simp only [hlimit]

/-- The tokens of `((a(b|c))*a+)?`: four literals, two concatenations, one alternation and two
iterations. -/
def nestedIterations : Postfix Char :=
  [.literal 'a', .literal 'b', .literal 'c', .operator .alternation, .operator .concat,
    .operator .star, .literal 'a', .operator .plus, .operator .concat, .operator .optional]

theorem toNfa_states_nestedIterations : nestedIterations ≠ [] ∧
    ∃ n, nestedIterations.toNfa = .ok n ∧ n.states = List.range 8 ∧
      (∀ c, c ∈ n.alphabet ↔ .literal c ∈ nestedIterations) ∧
      nestedIterations.toNfaWithin? = .ok n := by
  have hnonempty : nestedIterations ≠ [] := by decide
  obtain ⟨n, hn⟩ : ∃ n, nestedIterations.toNfa = .ok n := ⟨_, rfl⟩
  obtain ⟨⟨count, hcount, hstates, -⟩, ⟨-, hletters⟩, hwithin⟩ := toNfa_states hnonempty hn
  have hbalance : nestedIterations.stateBalance = 8 := by decide
  rw [hbalance] at hcount
  have hcount : count = 8 := by omega
  rw [hbalance, if_pos (by decide)] at hwithin
  exact ⟨hnonempty, n, hn, hcount ▸ hstates, hletters, hwithin⟩

end Postfix

end Kleene
