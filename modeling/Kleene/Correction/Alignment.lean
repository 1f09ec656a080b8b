import Kleene.Correction.PathCosts

/-!
# Alignment

The distance of a word to an automaton is the least number of substitutions, insertions and
deletions of letters that turn the word into an accepted one.  It is computed column by
column: after each letter, every state has the least cost of being there and the state from
which it was entered.  Going back from the final state gives an alignment of the word with
the automaton, and writing the alignment into the automaton makes it accept the word.
-/

namespace Kleene

/-- One letter of an aligned word: reading it leads from one state to another. -/
structure AlignmentStep (σ : Type) where
  source : State
  target : State
  symbol : σ
  cost : Nat
  deriving DecidableEq, Repr

structure Alignment (σ : Type) where
  distance : Nat
  /-- The state before the first letter. -/
  entry : State
  entryCost : Nat
  steps : List (AlignmentStep σ)
  deriving DecidableEq, Repr

/-- What is known of a state after a part of the word. -/
structure AlignmentCell where
  cost : Option Nat
  /-- The place of the state before the last letter. -/
  previous : Option Nat
  deriving DecidableEq, Repr

namespace AlignmentCell

def unreachable : AlignmentCell := ⟨none, none⟩

/-- Takes another way to the state into account: it has to cost less than the best one so
far. -/
def consider (best : AlignmentCell) (way : Nat × Option Nat) : AlignmentCell :=
  match way.2, best.cost with
  | none, _ => best
  | some cost, none => ⟨some cost, some way.1⟩
  | some cost, some least => if cost < least then ⟨some cost, some way.1⟩ else best

end AlignmentCell

/-- The costs of all states after each letter of a word. -/
structure AlignmentTable (σ : Type) where
  costs : PathCosts σ
  start : Nat
  final : Nat
  first : Array AlignmentCell
  /-- The letters of the word, each with the cells after it. -/
  columns : List (σ × Array AlignmentCell)
  deriving DecidableEq, Repr

namespace AlignmentTable

variable {σ : Type} [DecidableEq σ]

/-- The cells before the first letter: the costs of the paths from the start state. -/
def firstColumn (t : PathCosts σ) (start : Nat) : Array AlignmentCell :=
  (Array.range t.states.size).map fun j => ⟨t.costAt start j, none⟩

/-- The cell of one state after one more letter: the cheapest way from any state, and of
equally cheap ways the one from the first state. -/
def nextCell (t : PathCosts σ) (steps : List (Nat × Nat)) (column : Array AlignmentCell)
    (j : Nat) : AlignmentCell :=
  (List.range t.states.size).foldl
    (fun best i =>
      let way : Option Nat := do
        let before ← (column[i]?.getD .unreachable).cost
        let step ← t.stepCostAt steps i j
        return before + step
      best.consider (i, way))
    .unreachable

def nextColumn (t : PathCosts σ) (column : Array AlignmentCell) (a : σ) : Array AlignmentCell :=
  let steps := t.stepsOn a
  (Array.range t.states.size).map (nextCell t steps column)

def columnsFrom (t : PathCosts σ) (column : Array AlignmentCell) :
    List σ → List (σ × Array AlignmentCell)
  | [] => []
  | a :: w =>
    let next := nextColumn t column a
    (a, next) :: columnsFrom t next w

def ofWord (n : Nfa σ) (w : List σ) : AlignmentTable σ :=
  let costs := PathCosts.ofNfa n
  let start := n.states.idxOf n.start
  let first := firstColumn costs start
  ⟨costs, start, n.states.idxOf n.final, first, columnsFrom costs first w⟩

def lastColumn (t : AlignmentTable σ) : Array AlignmentCell :=
  (t.columns.getLast?.map Prod.snd).getD t.first

def distance (t : AlignmentTable σ) : Option Nat :=
  (t.lastColumn[t.final]?.getD .unreachable).cost

/-- Goes back from place `j` after the given columns, last column first: the place before
the first letter, and the steps. -/
def backtrack (t : PathCosts σ) :
    List (σ × Array AlignmentCell) → Nat → Option (Nat × List (AlignmentStep σ))
  | [], j => some (j, [])
  | (a, column) :: earlier, j => do
    let i ← (column[j]?.getD .unreachable).previous
    let cost ← t.stepCostAt (t.stepsOn a) i j
    let (entry, steps) ← backtrack t earlier i
    return (entry, steps ++ [⟨t.stateAt i, t.stateAt j, a, cost⟩])

def alignment (t : AlignmentTable σ) : Option (Alignment σ) := do
  let distance ← t.distance
  let (entry, steps) ← backtrack t.costs t.columns.reverse t.final
  return ⟨distance, t.costs.stateAt entry, (t.costs.costAt t.start entry).getD 0, steps⟩

end AlignmentTable

structure Correction (σ : Type) where
  nfa : Nfa σ
  alignment : Alignment σ
  deriving DecidableEq, Repr

namespace Nfa

variable {σ : Type}

/-- The transitions along an alignment that the automaton may lack: those that cost
something. -/
def alignmentEdges (n : Nfa σ) (al : Alignment σ) : List (Edge (Label σ)) :=
  (if 0 < al.entryCost then [⟨n.start, .epsilon, al.entry⟩] else [])
    ++ (al.steps.filter (0 < ·.cost)).map fun s => ⟨s.source, .symbol s.symbol, s.target⟩

def follow [Ord σ] (n : Nfa σ) (al : Alignment σ) : Nfa σ := n.addEdges (n.alignmentEdges al)

variable [DecidableEq σ]

/-- The transitions along any alignment, added one by one; their ends have to be states. -/
def follow? [Ord σ] (n : Nfa σ) (al : Alignment σ) : Except Misuse (Nfa σ) :=
  (n.alignmentEdges al).foldlM (fun n e => Prod.snd <$> n.addEdge? e) n

/-- An alignment of a word with the automaton, of least cost. -/
def align (n : Nfa σ) (w : List σ) : Option (Alignment σ) := (AlignmentTable.ofWord n w).alignment

def correct [Ord σ] (n : Nfa σ) (w : List σ) : Option (Correction σ) :=
  (n.align w).map fun al => ⟨n.follow al, al⟩

end Nfa

end Kleene
