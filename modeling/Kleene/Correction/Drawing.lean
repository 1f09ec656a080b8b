import Kleene.Correction.Alignment
import Kleene.Text.Quoted

/-!
# The alignment table as text

One line per state, one column per letter, and a column before the first letter.  `>` marks
the start state and `*` the final state.  A cell shows its cost and the state it was entered
from; a dash stands for a state that cannot be reached.
-/

namespace Kleene.AlignmentTable

variable {σ : Type} [DecidableEq σ]

def rightAligned (width : Nat) (s : String) : String :=
  String.ofList (List.replicate (width - s.length) ' ') ++ s

def cellText (t : AlignmentTable σ) (c : AlignmentCell) : String :=
  match c.cost, c.previous with
  | none, _ => "-"
  | some cost, none => toString cost
  | some cost, some i => toString cost ++ "," ++ toString (t.costs.stateAt i)

def columnsText (cells : List String) : String := String.join (cells.map (rightAligned 8))

/-- The line above the states: ε and the letters. -/
def headerLine [Quotable σ] (t : AlignmentTable σ) : String :=
  rightAligned 6 "" ++ " " ++ columnsText ("ε" :: t.columns.map fun c => quoted c.1)

def stateLine (t : AlignmentTable σ) (i : Nat) : String :=
  let startMark := if i = t.start then ">" else " "
  let finalMark := if i = t.final then "*" else " "
  let cells := (t.first :: t.columns.map Prod.snd).map fun column =>
    t.cellText (column[i]?.getD .unreachable)
  startMark ++ finalMark ++ toString (t.costs.stateAt i) ++ " " ++ columnsText cells

def text [Quotable σ] (t : AlignmentTable σ) : String :=
  "\n".intercalate (t.headerLine :: (List.range t.costs.states.size).map t.stateLine)

end Kleene.AlignmentTable
