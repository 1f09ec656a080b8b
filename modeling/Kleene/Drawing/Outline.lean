import Kleene.Dfa.Multigraph
import Kleene.Drawing.Snapshot
import Kleene.Nfa.Graph

/-!
# Outlines

What an automaton shows of itself to whoever draws or copies it.  Parallel transitions come in
bundles.  A container keeps them so and only has to put the bundles in order; the graph of a
deterministic automaton sorts its transitions and bundles runs of parallel ones.
-/

namespace Kleene

structure Outline (ℓ : Type) where
  states : List State
  start : State
  isFinal : State → Bool
  /-- The labels of the transitions from one state to another. -/
  bundles : List (Arrow × List ℓ)

namespace Outline

variable {ℓ : Type}

/-- A bundle for each run of parallel transitions. -/
def bundled : List (Edge ℓ) → List (Arrow × List ℓ)
  | [] => []
  | e :: es =>
    match bundled es with
    | [] => [(e.ends, [e.label])]
    | (a, ls) :: bs =>
      if a = e.ends then (a, e.label :: ls) :: bs else (e.ends, [e.label]) :: (a, ls) :: bs

/-- A copy in which the labels are texts, bundle by bundle. -/
def capture (o : Outline ℓ) (text : ℓ → String) : Snapshot where
  states := o.states
  start := o.start
  finals := o.states.filter o.isFinal
  transitions := o.bundles.flatMap fun b => b.2.map fun l => (b.1.1, text l, b.1.2)

end Outline

/-- The bundles are the arrows of the container, by source and target. -/
def NfaGraph.outline {C : GraphMap} {σ : Type} (g : NfaGraph C σ) : Outline (Label σ) where
  states := g.states
  start := g.start
  isFinal q := q = g.final
  bundles := (C.arrows g.graph).mergeSort fun x y =>
    x.1.1 < y.1.1 ∨ (x.1.1 = y.1.1 ∧ x.1.2 ≤ y.1.2)

/-- The bundles are found in the transitions by source, target and letter. -/
def Multigraph.outline {σ : Type} [Ord σ] (g : Multigraph σ) : Outline σ where
  states := List.range g.stateCount
  start := g.start
  isFinal := g.isFinal
  bundles := Outline.bundled (Ascending.sort g.transitions)

end Kleene
