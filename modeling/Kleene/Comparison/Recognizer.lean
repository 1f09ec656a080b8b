import Kleene.Dfa.Basic
import Kleene.Nfa.Simulation

/-!
# Recognizers

What automata of both kinds have in common: reading letter by letter, they are in a set of
active states, and that set says whether the word read so far is accepted.
-/

namespace Kleene

structure Recognizer (σ : Type) where
  alphabet : List σ
  initial : List State
  step : List State → σ → List State
  /-- Whether the word that led to these active states is accepted. -/
  isAccepting : List State → Bool

namespace Recognizer

variable {σ : Type}

def active (r : Recognizer σ) (w : List σ) : List State := w.foldl r.step r.initial

def accepts (r : Recognizer σ) (w : List σ) : Bool := r.isAccepting (r.active w)

end Recognizer

def Nfa.recognizer {σ : Type} [DecidableEq σ] (n : Nfa σ) : Recognizer σ where
  alphabet := n.alphabet
  initial := n.initial
  step := n.step
  isAccepting := n.isAcceptingSet

/-- A deterministic automaton as a recognizer; it has one active state, or none after a
missing transition. -/
def Dfa.recognizer {σ : Type} [DecidableEq σ] (d : Dfa σ) : Recognizer σ where
  alphabet := d.alphabet
  initial := [d.start]
  step s a := s.filterMap fun q => d.successor q a
  isAccepting s := s.any d.isFinal

end Kleene
