import Kleene.Dfa.Search

/-!
# Minimization

The live states are sorted into cells, at first the accepting states and the others.  As
long as a cell has members that a letter leads into some cell and members that it does not,
it is split.  A cell that may split others waits on a stack as a splitter; of the two halves
of a split cell that does not wait, the smaller one is put there, which is enough.  At the
end each cell is a state of the minimal automaton.
-/

namespace Kleene

structure Refinement where
  /-- The cells; each lists its states in ascending order. -/
  cells : Array (List State)
  /-- The cells that wait as splitters, the next one first. -/
  pending : List Nat
  waits : List Bool
  deriving DecidableEq, Repr

namespace Refinement

/-- The partition into accepting and other states; all cells wait, the last one first. -/
def start (finals others : List State) : Refinement :=
  if others.isEmpty then ⟨#[finals], [0], [true]⟩ else ⟨#[finals, others], [1, 0], [true, true]⟩

def cell (r : Refinement) (i : Nat) : List State := r.cells[i]?.getD []

def isWaiting (r : Refinement) (i : Nat) : Bool := r.waits[i]?.getD false

/-- Splits a cell into its members among `sources`, which keep its place, and the others,
which become the last cell. -/
def split (sources : List State) (r : Refinement) (i : Nat) : Refinement :=
  let inside := (r.cell i).filter (· ∈ sources)
  let outside := (r.cell i).filter (· ∉ sources)
  if inside.isEmpty || outside.isEmpty then r
  else
    let cells := (r.cells.setIfInBounds i inside).push outside
    if r.isWaiting i || outside.length < inside.length then
      ⟨cells, r.cells.size :: r.pending, r.waits ++ [true]⟩
    else
      ⟨cells, i :: r.pending, r.waits.set i true ++ [false]⟩

variable {σ : Type}

/-- The states that a letter leads into `splitter`. -/
def sources [DecidableEq σ] (d : Dfa σ) (splitter : List State) (a : σ) : List State :=
  (d.edges.filter fun e => e.label = a && e.target ∈ splitter).map Edge.source

def splitAll [DecidableEq σ] (d : Dfa σ) (splitter : List State) (r : Refinement) (a : σ) :
    Refinement :=
  (List.range r.cells.size).foldl (split (sources d splitter a)) r

def take (r : Refinement) (i : Nat) (rest : List Nat) : Refinement :=
  { r with pending := rest, waits := r.waits.set i false }

/-- Splits all cells by each letter in turn; the splitter stays as it was before. -/
def splitBy [DecidableEq σ] (d : Dfa σ) (splitter : List State) (r : Refinement) : Refinement :=
  d.alphabet.foldl (splitAll d splitter) r

/-- Refines with at most `rounds` splitters. -/
def run [DecidableEq σ] (d : Dfa σ) : (rounds : Nat) → Refinement → Refinement
  | 0, r => r
  | rounds + 1, r =>
    match r.pending with
    | [] => r
    | i :: rest => run d rounds ((r.take i rest).splitBy d (r.cell i))

end Refinement

namespace Dfa

variable {σ : Type}

/-- The states that take part: the reachable ones, and of an automaton that is not complete
only those from which an accepting state can be reached. -/
def live (d : Dfa σ) : List State :=
  if d.isComplete then d.reachable.toList else d.reachable.toList.filter d.productive.contains

/-- The coarsest partition of the live states that the letters respect.  Each cell is a
splitter once, so there are no more rounds than live states. -/
def cells [DecidableEq σ] (d : Dfa σ) : List (List State) :=
  let start := Refinement.start (d.live.filter d.isFinal) (d.live.filter (!d.isFinal ·))
  (start.run d d.live.length).cells.toList

def cellTable (d : Dfa σ) (cells : List (List State)) : StateTable (Option Nat) :=
  cells.zipIdx.foldl (fun t cell => cell.1.foldl (fun t q => t.set q (some cell.2)) t)
    (StateTable.empty d.stateCount)

/-- The automaton on the cells of a partition.  The first member of a cell speaks for all. -/
def quotient [Ord σ] [DecidableEq σ] (d : Dfa σ) (cells : List (List State)) : Dfa σ :=
  let table := d.cellTable cells
  let leader := fun cell : List State => cell.headD 0
  let next := fun cell a => (d.successor (leader cell) a).bind table.get
  { marks := cells.zipIdx.map fun (cell, i) =>
      if d.isFinal (leader cell) then .accepting
      else if d.alphabet.all fun a => next cell a = some i then .trap
      else .plain
    alphabet := d.alphabet
    edges := Ascending.ofList <| cells.zipIdx.flatMap fun (cell, i) =>
      d.alphabet.filterMap fun a => (next cell a).map fun j => ⟨i, a, j⟩
    start := (table.get d.start).getD 0 }

/-- The smallest automaton for the language: complete if the automaton is complete, and
without states that cannot reach an accepting state otherwise.  If no word is accepted, it
is a single state without transitions. -/
def minimize [Ord σ] [DecidableEq σ] (d : Dfa σ) : Dfa σ :=
  if (d.live.filter d.isFinal).isEmpty then single d.alphabet else d.quotient d.cells

end Dfa

/-! ## Checked form

The same steps, but every place that is looked up has to be there, every transition of the result
is added by itself and must not contradict another, and the result is `none` if a cell still waits
after the last round. -/

namespace Refinement

variable {σ : Type}

/-- The cell at a place, where its flag has to stand too; its members have to be states. -/
def cell? (d : Dfa σ) (r : Refinement) (i : Nat) : Except Misuse (List State) :=
  match r.cells[i]?, r.waits[i]? with
  | some c, some _ => if c.all (· < d.stateCount) then .ok c else .error .outOfBounds
  | _, _ => .error .outOfBounds

def split? (d : Dfa σ) (sources : List State) (r : Refinement) (i : Nat) :
    Except Misuse Refinement := do
  let _ ← r.cell? d i
  return split sources r i

variable [DecidableEq σ]

def splitAll? (d : Dfa σ) (splitter : List State) (r : Refinement) (a : σ) :
    Except Misuse Refinement :=
  (List.range r.cells.size).foldlM (split? d (sources d splitter a)) r

def splitBy? (d : Dfa σ) (splitter : List State) (r : Refinement) : Except Misuse Refinement :=
  d.alphabet.foldlM (splitAll? d splitter) r

/-- Refines until no cell waits, unless that takes more rounds. -/
def run? (d : Dfa σ) : (rounds : Nat) → Refinement → Except Misuse (Option Refinement)
  | 0, r => .ok (if r.pending.isEmpty then some r else none)
  | rounds + 1, r =>
    match r.pending with
    | [] => .ok (some r)
    | i :: rest => do
      let splitter ← r.cell? d i
      let r ← splitBy? d splitter (r.take i rest)
      run? d rounds r

end Refinement

namespace Dfa

variable {σ : Type}

/-- The live states, sorted into accepting and other ones. -/
def firstCells (d : Dfa σ) : Refinement :=
  .start (d.live.filter d.isFinal) (d.live.filter (!d.isFinal ·))

/-- The start state and the ends of all transitions have to be states. -/
def requireEnds (d : Dfa σ) : Except Misuse Unit := do
  d.requireState d.start
  d.edges.forM fun e => do
    d.requireState e.source
    d.requireState e.target

def cellTable? (d : Dfa σ) (cells : List (List State)) :
    Except Misuse (StateTable (Option Nat)) :=
  cells.zipIdx.foldlM
    (fun t cell => cell.1.foldlM (fun t q => t.set? q (some cell.2)) t)
    (StateTable.empty d.stateCount)

variable [Ord σ] [DecidableEq σ] [Quotable σ]

/-- The transition of a cell on a letter, if its first member has one into a cell. -/
def addLetter? (d : Dfa σ) (table : StateTable (Option Nat)) (leader : State) (i : Nat)
    (m : Dfa σ) (a : σ) : Except Misuse (Dfa σ) :=
  match d.successor leader a with
  | none => .ok m
  | some r => do
    match ← table.get? r with
    | none => return m
    | some j => m.addEdge? ⟨i, a, j⟩

/-- The transitions of a cell, which must not be empty. -/
def addCell? (d : Dfa σ) (table : StateTable (Option Nat)) (m : Dfa σ)
    (cell : List State × Nat) : Except Misuse (Dfa σ) :=
  match cell.1 with
  | [] => .error .outOfBounds
  | leader :: _ => d.alphabet.foldlM (d.addLetter? table leader cell.2) m

def quotient? (d : Dfa σ) (cells : List (List State)) : Except Misuse (Dfa σ) := do
  let table ← d.cellTable? cells
  let start ← table.get? d.start
  let m : Dfa σ := ⟨(d.quotient cells).marks, d.alphabet, [], start.getD 0⟩
  m.requireState m.start
  cells.zipIdx.foldlM (d.addCell? table) m

def minimize? (d : Dfa σ) : Except Misuse (Option (Dfa σ)) := do
  d.requireEnds
  if (d.live.filter d.isFinal).isEmpty then return some (single d.alphabet)
  else
    match ← d.firstCells.run? d d.live.length with
    | none => return none
    | some r => some <$> d.quotient? r.cells.toList

end Dfa

end Kleene
