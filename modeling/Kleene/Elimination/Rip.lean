import Kleene.Nfa.Basic
import Kleene.Elimination.Combiner

/-!
# Ripping out a state

A state is removed, and every path that led through it is replaced by a transition from the
state before it to the state after it.  Parallel transitions can be merged into one.
-/

namespace Kleene.Nfa

variable {σ : Type}

/-- The letters on the loops of `q`, ascending; ε-loops do not count. -/
def loopLetters (n : Nfa σ) (q : State) : List σ :=
  letters (n.edges.filter fun e => e.source = q && e.target = q)

/-- The transitions into `q` from other states. -/
def entering (n : Nfa σ) (q : State) : List (Edge (Label σ)) :=
  (n.incoming q).filter (!·.isLoop)

def leavingEdges (n : Nfa σ) (q : State) : List (Edge (Label σ)) :=
  (n.outgoing q).filter (!·.isLoop)

def removeState (n : Nfa σ) (q : State) : Nfa σ :=
  { n with
    states := n.states.filter (· ≠ q)
    edges := n.edges.filter fun e => e.source ≠ q && e.target ≠ q }

/-- The automaton without `q`, with one transition for every pair of a transition into `q`
and a transition out of it; `label` makes its label from both and from the loops of `q`. -/
def reroute [Ord σ] (label : Label σ → List σ → Label σ → Label σ) (n : Nfa σ) (q : State) : Nfa σ :=
  (n.removeState q).addEdges <|
    (n.entering q).flatMap fun e =>
      (n.leavingEdges q).map fun f =>
        ⟨e.source, label e.label (n.loopLetters q) f.label, f.target⟩

def rip [Ord σ] (c : Combiner σ) (n : Nfa σ) (q : State) : Nfa σ := n.reroute c.path q

/-- Whether no path through `q` has to combine two letters: `q` has no loop on a letter, and
letters stand either only on its entering or only on its leaving transitions. -/
def isSafe (n : Nfa σ) (q : State) : Bool :=
  (n.loopLetters q).isEmpty &&
    ((n.entering q).all (·.label.isEpsilon) || (n.leavingEdges q).all (·.label.isEpsilon))

/-- The one letter, if any, on a path of two labels of which at least one is ε. -/
def eitherLabel (pre : Label σ) (_ : List σ) (post : Label σ) : Label σ :=
  if pre.isEpsilon then post else pre

/-- The automaton with `q` ripped out, if that needs no combined labels. -/
def safeRip [Ord σ] (n : Nfa σ) (q : State) : Option (Nfa σ) :=
  if n.isSafe q then some (n.reroute eitherLabel q) else none

/-- Fails for the start state, for the final state and for what is no state. -/
def requireInner (n : Nfa σ) (q : State) : Except Misuse Unit :=
  if q = n.start || q = n.final then .error (.terminalState q) else n.requireState q

def rip? [Ord σ] (c : Combiner σ) (n : Nfa σ) (q : State) : Except Misuse (Nfa σ) := do
  n.requireInner q
  return n.rip c q

def safeRip? [Ord σ] (n : Nfa σ) (q : State) : Except Misuse (Option (Nfa σ)) := do
  n.requireInner q
  return n.safeRip q

/-- The transitions that take the place of the paths through `q`. -/
def rerouted (label : Label σ → List σ → Label σ → Label σ) (n : Nfa σ) (q : State) :
    List (Edge (Label σ)) :=
  (n.entering q).flatMap fun e =>
    (n.leavingEdges q).map fun f => ⟨e.source, label e.label (n.loopLetters q) f.label, f.target⟩

/-- Rips out `q` step by step, checking every transition that is added: whether `q` has been ripped
out, and the automaton afterwards.  In safe mode this is given up, before anything is changed, if
letters would have to be combined. -/
def attemptRip? [Ord σ] [DecidableEq σ] (c : Combiner σ) (safe : Bool) (n : Nfa σ) (q : State) :
    Except Misuse (Bool × Nfa σ) := do
  n.requireInner q
  let joins := (n.entering q).any (!·.label.isEpsilon) &&
    (n.leavingEdges q).any (!·.label.isEpsilon)
  if safe && (!(n.loopLetters q).isEmpty || joins) then return (false, n)
  let label := if safe then eitherLabel else c.path
  let n' ← (n.rerouted label q).foldlM (fun m e => Prod.snd <$> m.addEdge? e) (n.removeState q)
  return (true, n')

def joinedPairs (n : Nfa σ) : List (State × State) := (n.edges.map Edge.ends).eraseDups

/-- The one label for all transitions from `p` to `q`: a single label stays as it is. -/
def mergedLabel (c : Combiner σ) (n : Nfa σ) (p q : State) : Label σ :=
  match n.labelsBetween p q with
  | [l] => l
  | ls => c.parallel ls

/-- The automaton with parallel transitions merged; the letters of the merged labels join the
alphabet. -/
def unionEdges [Ord σ] (c : Combiner σ) (n : Nfa σ) : Nfa σ :=
  let merged := n.joinedPairs.map fun pq => ⟨pq.1, n.mergedLabel c pq.1 pq.2, pq.2⟩
  { n with
    alphabet := Ascending.insertAll (letters merged) n.alphabet
    edges := merged }

end Kleene.Nfa
