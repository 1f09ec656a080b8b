import Kleene.Dfa.Minimal

/-!
# The loop of Hopcroft's refinement

Where letters lead is looked up in a table that has a row for each state and a place in it for each
letter.  The loop takes a cell off the stack, keeps its members as the splitter, and splits all
cells there are by each letter in turn.  Beside each cell stands whether its states accept.
-/

namespace Kleene

/-! ## Where letters lead -/

namespace Dfa

variable {σ : Type} [DecidableEq σ]

/-- The table with one more transition, if it connects live states. -/
def enter (d : Dfa σ) (live : StateSet) (t : StateTable (List (Option State))) (e : Edge σ) :
    StateTable (List (Option State)) :=
  if live.contains e.source && live.contains e.target then
    match d.alphabet.idxOf? e.label with
    | some k => t.set e.source ((t.get e.source).set k (some e.target))
    | none => t
  else t

/-- For each live state the live states to which letters lead from it, in the order of the
alphabet. -/
def successorTable (d : Dfa σ) : StateTable (List (Option State)) :=
  d.edges.foldl (d.enter (StateSet.ofList d.stateCount d.live))
    ⟨Array.replicate d.stateCount (List.replicate d.alphabet.length none)⟩

end Dfa

/-- The state to which a letter leads, which is given by its place in the alphabet. -/
def StateTable.entry (t : StateTable (List (Option State))) (q : State) (k : Nat) : Option State :=
  (t.get q)[k]?.join

/-! ## The loop -/

structure Hopcroft extends Refinement where
  /-- Whether the states of each cell accept. -/
  accepting : List Bool
  deriving DecidableEq, Repr

namespace Hopcroft

def start {σ : Type} (d : Dfa σ) : Hopcroft where
  toRefinement := d.firstCells
  accepting := if (d.live.filter (!d.isFinal ·)).isEmpty then [true] else [true, false]

/-- Splits a cell into the states that the letter leads into the splitter and the others, unless
one of both is empty. -/
def split (leads : State → Bool) (h : Hopcroft) (i : Nat) : Hopcroft :=
  let (inside, outside) := (h.cell i).partition leads
  if inside.isEmpty || outside.isEmpty then h
  else
    let added := h.cells.size
    let chosen := if h.isWaiting i || outside.length < inside.length then added else i
    { cells := (h.cells.setIfInBounds i inside).push outside
      pending := chosen :: h.pending
      waits := (h.waits ++ [false]).set chosen true
      accepting := h.accepting ++ [h.accepting[i]?.getD false] }

/-- Splits the cells there are by the letter at a place of the alphabet; the new cells are not split
by the same letter again. -/
def splitAll (leads : Nat → State → Bool) (h : Hopcroft) (k : Nat) : Hopcroft :=
  (List.range h.cells.size).foldl (split (leads k)) h

def take (h : Hopcroft) (i : Nat) (rest : List Nat) : Hopcroft :=
  { h with pending := rest, waits := h.waits.set i false }

variable {σ : Type} [DecidableEq σ]

/-- Whether the letter at a place of the alphabet leads from a state into the splitter, of which a
set is made. -/
def leadsInto (d : Dfa σ) (splitter : List State) (k : Nat) (q : State) : Bool :=
  let members := StateSet.ofList d.stateCount splitter
  (d.successorTable.entry q k).any members.contains

/-- One round of the loop, unless no cell waits.  The splitter stays as it was before. -/
def round? (d : Dfa σ) (h : Hopcroft) : Option Hopcroft :=
  match h.pending with
  | [] => none
  | i :: rest =>
    some ((List.range d.alphabet.length).foldl (splitAll (leadsInto d (h.cell i))) (h.take i rest))

/-- What the loop has after some number of rounds. -/
inductive Rounds (d : Dfa σ) : Nat → Hopcroft → Prop
  | start : Rounds d 0 (start d)
  | round? {k : Nat} {h h' : Hopcroft} : Rounds d k h → h.round? d = some h' → Rounds d (k + 1) h'

/-- What a round has after some splits by letters of the alphabet. -/
inductive Splitting (d : Dfa σ) (splitter : List State) (h : Hopcroft) : Hopcroft → Prop
  | refl : Splitting d splitter h h
  | split {h' : Hopcroft} {k : Nat} (i : Nat) : Splitting d splitter h h' →
      k < d.alphabet.length → Splitting d splitter h (h'.split (leadsInto d splitter k) i)

end Hopcroft

end Kleene
