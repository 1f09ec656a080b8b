import Kleene.Automaton.StateSet
import Kleene.Dfa.Multigraph

/-!
# Searching the graph

A search goes from some nodes along the transitions of the graph or against them.  A node is put on
the stack when it is put into the set of the nodes that are found, so it is put there once.
-/

namespace Kleene

inductive Direction where
  | outgoing
  | incoming
  deriving DecidableEq, Repr

/-- What a search has: the nodes that are found, and on the stack those of them that were not looked
at yet. -/
structure Sweep where
  stack : List State
  found : StateSet
  deriving DecidableEq, Repr

namespace Sweep

def visit? (t : Sweep) (q : State) : Except Misuse Sweep := do
  let (isNew, found) ← t.found.insert? q
  return ⟨if isNew then q :: t.stack else t.stack, found⟩

/-- The visit of a node that the graph has. -/
def visit (t : Sweep) (q : State) : Sweep :=
  if t.found.contains q then t else ⟨q :: t.stack, t.found.insert q⟩

theorem visit?_eq (t : Sweep) (q : State) :
    t.visit? q = if t.found.flags.size ≤ q then .error .outOfBounds else .ok (t.visit q) := by
  unfold visit? StateSet.insert? visit
  split
  · rfl
  · cases hq : t.found.contains q with
    | true => rw [StateSet.insert_of_contains hq]; rfl
    | false => rfl

/-- Twice the number of nodes that are not found, and the height of the stack. -/
def weight (t : Sweep) : Nat := 2 * t.found.unset + t.stack.length

/-- Every visit that makes the stack longer uses up a node. -/
theorem weight_visit_le {t : Sweep} {q : State} (hq : q < t.found.flags.size) :
    (t.visit q).weight ≤ t.weight := by
  unfold visit weight
  split
  · exact Nat.le_refl _
  · rename_i hnew
    have hunset := StateSet.unset_insert hq (eq_false_of_ne_true hnew)
    simp only [List.length_cons]
    omega

theorem weight_foldlM_visit?_le {qs : List State} {t t' : Sweep}
    (h : qs.foldlM visit? t = .ok t') : t'.weight ≤ t.weight := by
  induction qs generalizing t with
  | nil =>
    cases h
    exact Nat.le_refl _
  | cons q qs ih =>
    rw [List.foldlM_cons, visit?_eq] at h
    split at h
    · cases h
    · rename_i hq
      exact Nat.le_trans (ih h) (weight_visit_le (Nat.not_le.1 hq))

end Sweep

namespace Multigraph

variable {σ : Type}

/-- The accepting nodes in ascending order. -/
def finals (g : Multigraph σ) : List State := (List.range g.stateCount).filter g.isFinal

/-- The other ends of the transitions that leave a node, or of those that enter it, the end of the
transition that was added last first. -/
def neighbors (g : Multigraph σ) (direction : Direction) (q : State) : List State :=
  match direction with
  | .outgoing => (g.edges.filter (·.source = q)).map Edge.target
  | .incoming => (g.edges.filter (·.target = q)).map Edge.source

/-- Looks at the nodes on the stack until none is left. -/
def explore? (g : Multigraph σ) (direction : Direction) (t : Sweep) : Except Misuse StateSet :=
  match t with
  | ⟨[], found⟩ => .ok found
  | ⟨q :: rest, found⟩ =>
    match _hround : (g.neighbors direction q).foldlM Sweep.visit? ⟨rest, found⟩ with
    | .error e => .error e
    | .ok t => g.explore? direction t
termination_by t.weight
decreasing_by
  exact Nat.lt_of_le_of_lt (Sweep.weight_foldlM_visit?_le _hround) (Nat.lt_succ_self _)

/-- The search before the first look at a node. -/
def seed? (g : Multigraph σ) (roots : List State) : Except Misuse Sweep :=
  roots.foldlM Sweep.visit? ⟨[], .empty g.stateCount⟩

def search? (g : Multigraph σ) (direction : Direction) (roots : List State) :
    Except Misuse StateSet := do
  let t ← g.seed? roots
  g.explore? direction t

/-- The nodes that the start leads to. -/
def reachable? (g : Multigraph σ) : Except Misuse StateSet := g.search? .outgoing [g.start]

/-- The nodes that lead to an accepting one. -/
def productive? (g : Multigraph σ) : Except Misuse StateSet := g.search? .incoming g.finals

/-- What the search has after some number of nodes taken off the stack. -/
inductive Rounds (g : Multigraph σ) (direction : Direction) : Nat → Sweep → Sweep → Prop
  | refl (t : Sweep) : Rounds g direction 0 t t
  | next {k : Nat} {q : State} {rest : List State} {found : StateSet} {t t' : Sweep} :
      (g.neighbors direction q).foldlM Sweep.visit? ⟨rest, found⟩ = .ok t →
        Rounds g direction k t t' → Rounds g direction (k + 1) ⟨q :: rest, found⟩ t'

end Multigraph

end Kleene
