import Mathlib.Data.List.AList
import Kleene.Nfa.Basic
import Kleene.Saturating

/-!
# The table of path costs

The costs of the cheapest paths between all states, in a square of numbers that is filled in place.
The largest number stands for a path that is not there, and sums stop at it.  For every letter on
a transition a second square has the costs of the cheapest paths with such a transition on them,
and from both squares follows what it costs to read a letter on the way from one state to another.
-/

namespace Kleene

/-- The largest number, which stands for the cost of a path that is not there. -/
def unreachableCost : Nat := largestNumber

def finite? (cost : Nat) : Option Nat := if cost = unreachableCost then none else some cost

/-- The number below; there is none below zero. -/
def predecessor? : Nat → Except Misuse Nat
  | 0 => .error .outOfBounds
  | k + 1 => .ok k

/-- A number for each pair of places. -/
structure CostSquare (k : Nat) where
  rows : Vector (Vector Nat k) k
  deriving DecidableEq, Repr

namespace CostSquare

variable {k : Nat}

def filled (k cost : Nat) : CostSquare k := ⟨Vector.replicate k (Vector.replicate k cost)⟩

def get (g : CostSquare k) (i j : Fin k) : Nat := g.rows[i][j]

def set (g : CostSquare k) (i j : Fin k) (cost : Nat) : CostSquare k :=
  ⟨g.rows.set i (g.rows[i].set j cost)⟩

/-- Puts a cost in place of one that is higher. -/
def lower (g : CostSquare k) (i j : Fin k) (cost : Nat) : CostSquare k :=
  if cost < g.get i j then g.set i j cost else g

/-- Only the costs of paths that stay where they are. -/
def diagonal (k : Nat) : CostSquare k :=
  (List.finRange k).foldl (fun g i => g.set i i 0) (filled k unreachableCost)

/-! ## All pairs of places -/

/-- Takes the way from `i` to `j` through `m` into account. -/
def relax (m i : Fin k) (g : CostSquare k) (j : Fin k) : CostSquare k :=
  g.lower i j (saturatingAdd (g.get i m) (g.get m j))

/-- Takes the ways from `i` through `m` into account, if there is a path to `m`. -/
def relaxRow (m : Fin k) (g : CostSquare k) (i : Fin k) : CostSquare k :=
  if g.get i m = unreachableCost then g else (List.finRange k).foldl (relax m i) g

def relaxThrough (g : CostSquare k) (m : Fin k) : CostSquare k :=
  (List.finRange k).foldl (relaxRow m) g

/-- The costs of the cheapest paths from the costs of single transitions, place by place. -/
def cheapest (g : CostSquare k) : CostSquare k := (List.finRange k).foldl relaxThrough g

/-! ## Paths with a given transition -/

/-- Takes the ways from `p` over a transition on a letter, from `u` to `v`, into account, if there is
a path to `u`. -/
def crossRow (distance : CostSquare k) (u v : Fin k) (g : CostSquare k) (p : Fin k) : CostSquare k :=
  let before := distance.get p u
  if before = unreachableCost then g
  else (List.finRange k).foldl
    (fun g q => g.lower p q (saturatingAdd (saturatingAdd before 1) (distance.get v q))) g

def cross (distance : CostSquare k) (u v : Fin k) (g : CostSquare k) : CostSquare k :=
  (List.finRange k).foldl (crossRow distance u v) g

end CostSquare

structure CostTable (σ : Type) where
  /-- The states; the squares speak of them by their places. -/
  states : List State
  distance : CostSquare states.length
  /-- For each letter on a transition, the costs of paths with such a transition on them. -/
  viaSymbol : AList fun _ : σ => CostSquare states.length

namespace CostTable

variable {σ : Type}

/-- The place of what has to be a state. -/
def place? (states : List State) (q : State) : Except Misuse (Fin states.length) :=
  match states.finIdxOf? q with
  | some i => .ok i
  | none => .error .outOfBounds

/-- The cheapest single transition between any two states. -/
def direct? (n : Nfa σ) : Except Misuse (CostSquare n.states.length) :=
  n.edges.foldlM (fun g e => do
    let i ← place? n.states e.source
    let j ← place? n.states e.target
    return g.lower i j (if e.label.isEpsilon then 0 else 1)) (.diagonal n.states.length)

def cost (t : CostTable σ) (p q : State) : Option Nat := do
  let i ← t.states.finIdxOf? p
  let j ← t.states.finIdxOf? q
  finite? (t.distance.get i j)

variable [DecidableEq σ]

/-- Enters a transition into the squares; one on a new letter gets a new square. -/
def enter? {states : List State} (distance : CostSquare states.length)
    (squares : AList fun _ : σ => CostSquare states.length) (e : Edge (Label σ)) :
    Except Misuse (AList fun _ : σ => CostSquare states.length) :=
  match e.label with
  | .epsilon => return squares
  | .symbol a => do
    let u ← place? states e.source
    let v ← place? states e.target
    let square := (squares.lookup a).getD (.filled states.length unreachableCost)
    return squares.insert a (distance.cross u v square)

def ofNfa? (n : Nfa σ) : Except Misuse (CostTable σ) := do
  let direct ← direct? n
  let viaSymbol ← n.edges.foldlM (enter? direct.cheapest) ∅
  return ⟨n.states, direct.cheapest, viaSymbol⟩

/-- The cost of reading a letter between two places: with the letter on the path each further letter
is inserted, otherwise the first letter is a substitution, or the letter is deleted. -/
def stepCostAt? (t : CostTable σ) (i j : Fin t.states.length) (a : σ) :
    Except Misuse (Option Nat) :=
  match finite? (t.distance.get i j) with
  | none => return none
  | some plain =>
    match (t.viaSymbol.lookup a).bind fun square => finite? (square.get i j) with
    | none => return some (max plain 1)
    | some via => do
      let matching ← predecessor? via
      return some (min matching (max plain 1))

def stepCost? (t : CostTable σ) (p q : State) (a : σ) : Except Misuse (Option Nat) :=
  match t.states.finIdxOf? p, t.states.finIdxOf? q with
  | some i, some j => t.stepCostAt? i j a
  | _, _ => return none

end CostTable

end Kleene
