import Kleene.Drawing.View

/-!
# Snapshots

A copy of the structure of an automaton in which the labels are texts.
-/

namespace Kleene

structure Snapshot where
  states : List State
  start : State
  finals : List State
  transitions : List (State × String × State)
  deriving DecidableEq, Repr

namespace View

variable {ℓ : Type}

def snapshotWith (v : View ℓ) (text : ℓ → String) : Snapshot :=
  ⟨v.states, v.start, v.finals, v.edges.map fun e => (e.source, text e.label, e.target)⟩

def snapshot [ToString ℓ] (v : View ℓ) : Snapshot := v.snapshotWith toString

end View

end Kleene
