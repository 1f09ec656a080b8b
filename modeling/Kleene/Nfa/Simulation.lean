import Kleene.Automaton.Reach
import Kleene.Nfa.Basic

/-!
# Simulation

An automaton reads a word by keeping the set of the states it can be in.  Between letters
the set is closed under ε-transitions.
-/

namespace Kleene.Nfa

variable {σ : Type}

def epsilonArrows (n : Nfa σ) : List Arrow :=
  n.edges.filterMap fun e => if e.label.isEpsilon then some e.ends else none

/-- The states that one or more ε-transitions lead to from `q`; `q` is among them exactly if
it lies on a cycle of ε-transitions. -/
def properClosure (n : Nfa σ) (q : State) : List State := reachFrom n.epsilonArrows [q] []

/-- The states that ε-transitions lead to from `q`, and `q`. -/
def closure (n : Nfa σ) (q : State) : List State := reachFrom n.epsilonArrows [q] [q]

def closureAll (n : Nfa σ) (s : List State) : List State := reachFrom n.epsilonArrows s s

section Reading

variable [DecidableEq σ]

def targets (n : Nfa σ) (q : State) (l : Label σ) : List State :=
  (n.edges.filter fun e => e.source = q && e.label = l).map Edge.target

def move (n : Nfa σ) (s : List State) (a : σ) : List State :=
  Ascending.ofList ((n.edges.filter fun e => e.label = .symbol a && e.source ∈ s).map Edge.target)

/-- The closed set after reading `a` in a closed set. -/
def step (n : Nfa σ) (s : List State) (a : σ) : List State := n.closureAll (n.move s a)

/-- The states that paths spelling the one letter `a` lead to from `q`. -/
def nextStates (n : Nfa σ) (q : State) (a : σ) : List State := n.step (n.closure q) a

def initial (n : Nfa σ) : List State := n.closure n.start

def active (n : Nfa σ) (w : List σ) : List State := w.foldl n.step n.initial

def isAcceptingSet (n : Nfa σ) (s : List State) : Bool := n.final ∈ s

def accepts (n : Nfa σ) (w : List σ) : Bool := n.isAcceptingSet (n.active w)

end Reading

/-! ## Letter by letter

The same reading with a closure for each state on its own.  A letter is looked up in the alphabet
first, and reading stops when no state is left. -/

section Reading

variable [Ord σ] [DecidableEq σ]

/-- The states that paths spelling the one letter `a` lead to from `q`, if `a` is in the
alphabet. -/
def afterLetter (n : Nfa σ) (q : State) (a : σ) : List State :=
  if Ascending.search a n.alphabet then
    Ascending.ofList
      (((n.closure q).flatMap fun p => n.targets p (.symbol a)).flatMap n.closure)
  else []

def afterLetterAll (n : Nfa σ) (s : List State) (a : σ) : List State :=
  Ascending.ofList (s.flatMap fun q => n.afterLetter q a)

def simulateFrom (n : Nfa σ) : List State → List σ → Bool
  | s, [] => n.isAcceptingSet s
  | s, a :: w =>
    if (n.afterLetterAll s a).isEmpty then false else simulateFrom n (n.afterLetterAll s a) w

def simulate (n : Nfa σ) (w : List σ) : Bool := n.simulateFrom n.initial w

end Reading

/-! ## What the sets hold -/

theorem mem_epsilonArrows {n : Nfa σ} {p q : State} :
    (p, q) ∈ n.epsilonArrows ↔ ⟨p, .epsilon, q⟩ ∈ n.edges := by
  simp only [epsilonArrows, List.mem_filterMap]
  constructor
  · rintro ⟨⟨p', l, q'⟩, he, h⟩
    cases l with
    | symbol a => cases h
    | epsilon =>
      cases h
      exact he
  · intro he
    exact ⟨_, he, rfl⟩

theorem mem_closure {n : Nfa σ} {p q : State} :
    q ∈ n.closure p ↔ Reaches n.epsilonArrows p q := by
  rw [closure, mem_reachFrom_self]
  simp

theorem mem_properClosure {n : Nfa σ} {p q : State} :
    q ∈ n.properClosure p ↔ ReachedBeyond n.epsilonArrows [p] q := by
  rw [properClosure, mem_reachFrom]
  simp

theorem mem_closureAll {n : Nfa σ} {s : List State} {q : State} :
    q ∈ n.closureAll s ↔ ∃ p ∈ s, Reaches n.epsilonArrows p q := mem_reachFrom_self

theorem isAscending_closure {n : Nfa σ} {p : State} : Ascending.IsAscending (n.closure p) :=
  isAscending_reachFrom (List.pairwise_singleton _ _)

section Reading

variable [DecidableEq σ]

theorem mem_move {n : Nfa σ} {s : List State} {a : σ} {q : State} :
    q ∈ n.move s a ↔ ∃ p ∈ s, ⟨p, .symbol a, q⟩ ∈ n.edges := by
  simp only [move, Ascending.mem_ofList, List.mem_map, List.mem_filter]
  constructor
  · rintro ⟨⟨p, l, r⟩, ⟨he, h⟩, rfl⟩
    simp only [Bool.and_eq_true, decide_eq_true_eq] at h
    obtain ⟨rfl, hp⟩ := h
    exact ⟨p, hp, he⟩
  · rintro ⟨p, hp, he⟩
    exact ⟨_, ⟨he, by simp [hp]⟩, rfl⟩

theorem mem_step {n : Nfa σ} {s : List State} {a : σ} {q : State} :
    q ∈ n.step s a ↔
      ∃ p ∈ s, ∃ m, ⟨p, .symbol a, m⟩ ∈ n.edges ∧ Reaches n.epsilonArrows m q := by
  simp only [step, mem_closureAll, mem_move]
  constructor
  · rintro ⟨m, ⟨p, hp, he⟩, hmq⟩
    exact ⟨p, hp, m, he, hmq⟩
  · rintro ⟨p, hp, m, he, hmq⟩
    exact ⟨m, ⟨p, hp, he⟩, hmq⟩

theorem isAscending_step {n : Nfa σ} {s : List State} {a : σ} :
    Ascending.IsAscending (n.step s a) :=
  isAscending_reachFrom (Ascending.isAscending_ofList _)

theorem isAscending_foldl_step {n : Nfa σ} {s : List State} (hs : Ascending.IsAscending s)
    (w : List σ) : Ascending.IsAscending (w.foldl n.step s) := by
  induction w generalizing s with
  | nil => exact hs
  | cons a w ih => exact ih isAscending_step

theorem isAscending_active {n : Nfa σ} {w : List σ} : Ascending.IsAscending (n.active w) :=
  isAscending_foldl_step isAscending_closure w

theorem active_concat {n : Nfa σ} {w : List σ} {a : σ} :
    n.active (w ++ [a]) = n.step (n.active w) a := by
  unfold active
  rw [List.foldl_append]
  rfl

end Reading

end Kleene.Nfa
