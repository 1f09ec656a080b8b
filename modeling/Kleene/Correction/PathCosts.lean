import Kleene.Nfa.Simulation

/-!
# Costs of paths

A path through an automaton costs the number of letters on it; ε-transitions are free.  The
costs of the cheapest paths between all states are computed once and kept in a table, row by
row.  From them follows what it costs to read one letter of an input on the way from one
state to another: a letter that is on the path is free and every further letter on it is an
insertion; without it the first letter is a substitution, and an empty path deletes the
letter.
-/

namespace Kleene

/-- The cheapest ways from one state, found layer by layer: `row` lists the states found so
far with their costs, `frontier` the ones of the present cost, and `steps` the transitions
on letters from states that were in no frontier yet. -/
def costLayers (free : List Arrow) (steps : List Arrow) (cost : Nat) (frontier : List State)
    (row : List (State × Nat)) : List (State × Nat) :=
  if (leaving frontier steps).isEmpty then row
  else
    let entered := Ascending.ofList ((leaving frontier steps).map (·.2))
    let next := (reachFrom free entered entered).filter fun q => (row.lookup q).isNone
    costLayers free (notLeaving frontier steps) (cost + 1) next
      (row ++ next.map fun q => (q, cost + 1))
termination_by steps.length
decreasing_by
  have := length_leaving_add_length_notLeaving frontier steps
  have : (leaving frontier steps).length ≠ 0 := by simp_all
  omega

namespace Nfa

variable {σ : Type}

def letterArrows (n : Nfa σ) : List Arrow :=
  n.edges.filterMap fun e => if e.label.isEpsilon then none else some e.ends

/-- The states that can be reached from `p`, with the costs of the cheapest paths. -/
def costsFrom (n : Nfa σ) (p : State) : List (State × Nat) :=
  costLayers n.epsilonArrows n.letterArrows 0 (n.closure p) ((n.closure p).map fun q => (q, 0))

end Nfa

structure PathCosts (σ : Type) where
  /-- The states, ascending; the table speaks of them by their places. -/
  states : Array State
  rows : Array (Array (Option Nat))
  /-- The transitions on letters, between places. -/
  steps : List (Edge σ)
  deriving DecidableEq, Repr

namespace PathCosts

variable {σ : Type}

def letterEdges (n : Nfa σ) : List (Edge σ) :=
  n.edges.filterMap fun e => e.label.symbol?.map fun a => ⟨e.source, a, e.target⟩

def ofNfa (n : Nfa σ) : PathCosts σ where
  states := n.states.toArray
  rows := (n.states.map fun p =>
    let row := n.costsFrom p
    (n.states.map fun q => row.lookup q).toArray).toArray
  steps := (letterEdges n).map (Edge.mapStates n.states.idxOf)

def place? (t : PathCosts σ) (q : State) : Option Nat := t.states.idxOf? q

def stateAt (t : PathCosts σ) (i : Nat) : State := t.states[i]?.getD 0

def costAt (t : PathCosts σ) (i j : Nat) : Option Nat := (t.rows[i]?.getD #[])[j]?.getD none

def stepsOn [DecidableEq σ] (t : PathCosts σ) (a : σ) : List (Nat × Nat) :=
  (t.steps.filter (·.label = a)).map Edge.ends

/-- The cost of the cheapest path between two places through a given transition, the
transition itself not counted. -/
def costThrough (t : PathCosts σ) (i j : Nat) (step : Nat × Nat) : Option Nat :=
  match t.costAt i step.1, t.costAt step.2 j with
  | some before, some after => some (before + after)
  | _, _ => none

/-- The cost of reading a letter between two places, given the transitions on it. -/
def stepCostAt (t : PathCosts σ) (steps : List (Nat × Nat)) (i j : Nat) : Option Nat :=
  (t.costAt i j).map fun plain =>
    (steps.filterMap (t.costThrough i j)).foldl min (max plain 1)

def cost (t : PathCosts σ) (p q : State) : Option Nat := do
  let i ← t.place? p
  let j ← t.place? q
  t.costAt i j

def stepCost [DecidableEq σ] (t : PathCosts σ) (p q : State) (a : σ) : Option Nat := do
  let i ← t.place? p
  let j ← t.place? q
  t.stepCostAt (t.stepsOn a) i j

end PathCosts

end Kleene
