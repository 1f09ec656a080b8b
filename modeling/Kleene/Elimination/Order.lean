import Kleene.Nfa.Algebra
import Kleene.Elimination.Rip
import Kleene.Saturating

/-!
# Elimination of states

All states but the start and the final state are ripped out one after the other, until a
single transition from start to final carries a label for the whole language.  The order of
elimination decides the shape of that label.
-/

namespace Kleene

inductive EliminationOrder where
  /-- The one whose removal makes the labels grow least. -/
  | heuristic
  /-- The one with the smallest identifier. -/
  | ascending
  deriving DecidableEq, Repr

namespace Nfa

variable {σ : Type}

/-- How much the labels grow when `q` is ripped out: every entering label is copied once per
leaving transition, and every leaving label once per entering transition.  The products and
their sum stop at the largest number. -/
def ripCost (c : Combiner σ) (n : Nfa σ) (q : State) : Nat :=
  let weigh := fun edges : List (Edge (Label σ)) => edges.foldr (fun e total => c.weight e.label + total) 0
  saturatingAdd (saturatingMul (weigh (n.entering q)) (n.leavingEdges q).length)
    (saturatingMul (weigh (n.leavingEdges q)) (n.entering q).length)

def innerStates (n : Nfa σ) : List State := n.states.filter fun q => q ≠ n.start && q ≠ n.final

/-- The first element with the least value. -/
def firstMin? (value : State → Nat) : List State → Option State
  | [] => none
  | q :: qs =>
    match firstMin? value qs with
    | none => some q
    | some r => if value q ≤ value r then some q else some r

def nextInner? (c : Combiner σ) (order : EliminationOrder) (n : Nfa σ) : Option State :=
  match order with
  | .ascending => n.innerStates.head?
  | .heuristic => firstMin? (n.ripCost c) n.innerStates

theorem mem_of_firstMin?_eq_some {value : State → Nat} {qs : List State} {r : State}
    (h : firstMin? value qs = some r) : r ∈ qs := by
  induction qs generalizing r with
  | nil => simp [firstMin?] at h
  | cons q qs ih =>
    simp only [firstMin?] at h
    split at h
    · simp_all
    · rename_i s hs
      have := ih hs
      split at h <;> simp_all

theorem mem_innerStates_of_nextInner? {c : Combiner σ} {order : EliminationOrder} {n : Nfa σ}
    {q : State} (h : n.nextInner? c order = some q) : q ∈ n.innerStates := by
  cases order with
  | ascending => exact List.mem_of_head? h
  | heuristic => exact mem_of_firstMin?_eq_some h

def ripAndMerge [Ord σ] (c : Combiner σ) (n : Nfa σ) (q : State) : Nfa σ := (n.rip c q).unionEdges c

theorem length_states_ripAndMerge_lt [Ord σ] {c : Combiner σ} {n : Nfa σ} {q : State}
    (h : q ∈ n.states) : (n.ripAndMerge c q).states.length < n.states.length := by
  have : (n.ripAndMerge c q).states = n.states.filter (· ≠ q) := rfl
  rw [this]
  exact List.length_filter_lt_length_iff_exists.2 ⟨q, h, by simp⟩

def ripAll [Ord σ] (c : Combiner σ) (order : EliminationOrder) (n : Nfa σ) : Nfa σ :=
  match _h : n.nextInner? c order with
  | none => n
  | some q => ripAll c order (n.ripAndMerge c q)
termination_by n.states.length
decreasing_by
  exact length_states_ripAndMerge_lt (List.mem_filter.1 (mem_innerStates_of_nextInner? _h)).1

/-- The automaton before the first state is ripped out: with isolated terminals and without
parallel transitions. -/
def prepared [Ord σ] (c : Combiner σ) (n : Nfa σ) : Nfa σ := n.isolate.unionEdges c

/-- The automaton with only its start state 0, its final state 1 and at most one transition,
from 0 to 1. -/
def eliminate [Ord σ] (c : Combiner σ) (order : EliminationOrder) (n : Nfa σ) : Nfa σ :=
  ((n.prepared c).ripAll c order).renumber

/-- The label for the whole language, or nothing if no word is accepted. -/
def expression [Ord σ] (c : Combiner σ) (order : EliminationOrder) (n : Nfa σ) : Option (Label σ) :=
  let m := n.eliminate c order
  (m.labelsBetween m.start m.final).head?

/-- Fails if the terminals cannot be isolated for want of identifiers. -/
def requireIsolable [Ord σ] (n : Nfa σ) : Except Misuse Unit := n.isolate?.map fun _ => ()

/-! ## Checked forms -/

/-- `ripAll`, checking of every state whether it may be ripped out. -/
def ripAll? [Ord σ] (c : Combiner σ) (order : EliminationOrder) (n : Nfa σ) :
    Except Misuse (Nfa σ) :=
  match _h : n.nextInner? c order with
  | none => .ok n
  | some q => do
    n.requireInner q
    ripAll? c order (n.ripAndMerge c q)
termination_by n.states.length
decreasing_by
  exact length_states_ripAndMerge_lt (List.mem_filter.1 (mem_innerStates_of_nextInner? _h)).1

def eliminate? [Ord σ] (c : Combiner σ) (order : EliminationOrder) (n : Nfa σ) :
    Except Misuse (Nfa σ) := do
  let isolated ← n.isolate?
  let last ← (isolated.unionEdges c).ripAll? c order
  return last.renumber

def expression? [Ord σ] (c : Combiner σ) (order : EliminationOrder) (n : Nfa σ) :
    Except Misuse (Option (Label σ)) := do
  let m ← n.eliminate? c order
  return (m.labelsBetween m.start m.final).head?

end Nfa

end Kleene
