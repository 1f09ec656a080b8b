import Kleene.Drawing.View
import Kleene.Text.Quoted

/-!
# Drawings in the DOT format

An automaton as a directed graph in the DOT language.  A point leads to the start state,
accepting states have a double circle, and parallel transitions share one arrow.
-/

namespace Kleene.View

variable {ℓ : Type}

def dotHeader : List String :=
  [ "digraph finite_state_machine \x7b",
    "fontname=\"Helvetica,Arial,sans-serif\"",
    "node [fontname=\"Helvetica,Arial,sans-serif\"]",
    "edge [fontname=\"Helvetica,Arial,sans-serif\"]",
    "rankdir=LR;",
    "node [shape=point,label=\"\"]START" ]

/-- The transitions, those between the same states together. -/
def arrows (v : View ℓ) : List (List (Edge ℓ)) := v.edges.splitBy fun e f => e.ends = f.ends

def arrowLine (text : ℓ → String) : List (Edge ℓ) → String
  | [] => ""
  | e :: es =>
    let label := ", ".intercalate ((e :: es).map fun e => text e.label)
    toString e.source ++ " -> " ++ toString e.target ++ " [ label=" ++ quoted label ++ " ];"

def dotWith (v : View ℓ) (text : ℓ → String) : String :=
  let lines := dotHeader
    ++ [ "node [shape = doublecircle]; " ++ " ".intercalate (v.finals.map toString) ++ ";",
      "node [shape = circle];",
      "START -> " ++ toString v.start ++ ";" ]
    ++ v.arrows.map (arrowLine text)
    ++ ["\x7d"]
  String.join (lines.map (· ++ "\n"))

def dot [ToString ℓ] (v : View ℓ) : String := v.dotWith toString

end Kleene.View
