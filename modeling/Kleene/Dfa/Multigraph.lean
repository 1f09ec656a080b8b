import Kleene.Dfa.Basic

/-!
# The graph under an automaton

A deterministic automaton is kept in a graph that could hold more than automata.  A node has two
flags, which could both be set, and nothing keeps two transitions from going out of one state on one
letter, or from being the same.  It is up to the few functions that make and change the graph that
this never happens.
-/

namespace Kleene

structure Flags where
  accepting : Bool
  trap : Bool
  deriving DecidableEq, Repr

def Mark.flags : Mark → Flags
  | .plain => ⟨false, false⟩
  | .accepting => ⟨true, false⟩
  | .trap => ⟨false, true⟩

structure Multigraph (σ : Type) where
  nodes : List Flags
  alphabet : List σ
  /-- The transitions, with all repetitions, the one that was added last first. -/
  edges : List (Edge σ)
  start : State
  deriving DecidableEq, Repr

namespace Multigraph

variable {σ : Type}

def stateCount (g : Multigraph σ) : Nat := g.nodes.length

def isFinal (g : Multigraph σ) (q : State) : Bool := g.nodes[q]?.elim false Flags.accepting

/-- The transitions by source, letter and target, with all repetitions. -/
def transitions [Ord σ] (g : Multigraph σ) : List (Edge σ) :=
  g.edges.mergeSort fun e f => ((compare e.source f.source).then
    ((compare e.label f.label).then (compare e.target f.target))).isLE

/-- Nodes without transitions, none of them a trap. -/
def ofAccepting? [Ord σ] (alphabet : List σ) (accepting : List Bool) (start : State) :
    Except Misuse (Multigraph σ) :=
  if start < accepting.length then
    .ok ⟨accepting.map (⟨·, false⟩), Ascending.ofList alphabet, [], start⟩
  else .error .outOfBounds

def addState (g : Multigraph σ) (accepting : Bool) : Multigraph σ :=
  { g with nodes := g.nodes ++ [⟨accepting, false⟩] }

def setAccepting? (g : Multigraph σ) (q : State) (accepting : Bool) :
    Except Misuse (Multigraph σ) :=
  match g.nodes[q]? with
  | none => .error .outOfBounds
  | some f => .ok { g with nodes := g.nodes.set q ⟨accepting, !accepting && f.trap⟩ }

def markTrap? (g : Multigraph σ) (q : State) : Except Misuse (Multigraph σ) :=
  if q < g.stateCount then .ok { g with nodes := g.nodes.set q ⟨false, true⟩ }
  else .error .outOfBounds

/-- The target of the first transition that is found. -/
def successor [DecidableEq σ] (g : Multigraph σ) (q : State) (a : σ) : Option State :=
  (g.edges.find? fun e => e.source = q && e.label = a).map Edge.target

def addEdge? [Ord σ] [DecidableEq σ] [Quotable σ] (g : Multigraph σ) (e : Edge σ) :
    Except Misuse (Multigraph σ) :=
  match g.successor e.source e.label with
  | some q =>
    if q = e.target then .ok g else .error (.conflict e.source (quoted e.label) q e.target)
  | none =>
    if e.source < g.stateCount ∧ e.target < g.stateCount then
      .ok { g with alphabet := Ascending.insert e.label g.alphabet, edges := e :: g.edges }
    else .error .outOfBounds

/-- The pairs of a node and a letter without a transition. -/
def missing [DecidableEq σ] (g : Multigraph σ) : List (State × σ) :=
  (List.range g.stateCount).flatMap fun q =>
    (g.alphabet.filter fun a => (g.successor q a).isNone).map fun a => (q, a)

/-- If any transition is missing, a trap is added to which the missing ones lead.  Which ones are
missing is found out before. -/
def complete? [Ord σ] [DecidableEq σ] [Quotable σ] (g : Multigraph σ) :
    Except Misuse (Multigraph σ) :=
  if g.missing.isEmpty then .ok g
  else do
    let trap := g.stateCount
    let marked ← (g.addState false).markTrap? trap
    let new : List (Edge σ) :=
      (g.missing.map fun qa => ⟨qa.1, qa.2, trap⟩) ++ g.alphabet.map fun a => ⟨trap, a, trap⟩
    new.foldlM addEdge? marked

/-- Whether every node has as many transitions as there are letters, repetitions counted. -/
def isComplete (g : Multigraph σ) : Bool :=
  (List.range g.stateCount).all fun q => g.edges.countP (·.source = q) = g.alphabet.length

end Multigraph

end Kleene
