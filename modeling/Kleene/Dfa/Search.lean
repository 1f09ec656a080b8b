import Kleene.Automaton.Reach
import Kleene.Automaton.StateSet
import Kleene.Dfa.Basic

/-!
# Useful states

The states that some word leads to from the start, and the states from which some word
leads to an accepting state.
-/

namespace Kleene.Dfa

variable {σ : Type}

/-- The states that can be reached from `roots` along the arrows, and the roots. -/
def search (d : Dfa σ) (arrows : List Arrow) (roots : List State) : StateSet :=
  StateSet.ofList d.stateCount (reachFrom arrows roots roots)

def reachable (d : Dfa σ) : StateSet := d.search (d.edges.map Edge.ends) [d.start]

/-- The states from which an accepting state can be reached. -/
def productive (d : Dfa σ) : StateSet :=
  d.search (d.edges.map fun e => (e.target, e.source)) d.finals

end Kleene.Dfa
