import Mathlib.Computability.Language
import Kleene.Nfa.Simulation

/-!
# Paths and the words they spell

A label means a language, and a path spells a word piece by piece: each edge on it adds a word
of the language of its label.  The labels of an automaton mean single letters or the empty
word, and its language is what the paths from the start to the final state spell.  The main
statement is `mem_language`: reading a word with sets of states finds exactly these words.
-/

namespace Kleene

variable {ℓ ℓ' α σ : Type}

/-- A path between two states that spells a word. -/
inductive Path (meaning : ℓ → Language α) (edges : List (Edge ℓ)) :
    State → State → List α → Prop
  | nil (p : State) : Path meaning edges p p []
  | cons {p r q : State} {l : ℓ} {u v : List α} : ⟨p, l, r⟩ ∈ edges → u ∈ meaning l →
      Path meaning edges r q v → Path meaning edges p q (u ++ v)

namespace Path

variable {m : ℓ → Language α} {m' : ℓ' → Language α}
variable {edges : List (Edge ℓ)} {edges' : List (Edge ℓ')} {p q r : State} {u v w : List α}

/-- An edge is a path. -/
theorem single {l : ℓ} (he : ⟨p, l, q⟩ ∈ edges) (hu : u ∈ m l) : Path m edges p q u := by
  have hq : Path m edges q q [] := .nil q
  have h := Path.cons he hu hq
  rwa [List.append_nil] at h

theorem append (hu : Path m edges p q u) (hv : Path m edges q r v) :
    Path m edges p r (u ++ v) := by
  induction hu with
  | nil => exact hv
  | cons he hl _ ih =>
    rw [List.append_assoc]
    exact .cons he hl (ih hv)

/-- If every edge can be imitated by a path elsewhere, so can every path. -/
theorem simulate (f : State → State)
    (h : ∀ p l r, ⟨p, l, r⟩ ∈ edges → ∀ u ∈ m l, Path m' edges' (f p) (f r) u)
    (hw : Path m edges p q w) : Path m' edges' (f p) (f q) w := by
  induction hw with
  | nil p => exact .nil _
  | cons he hl _ ih => exact (h _ _ _ he _ hl).append ih

theorem mono {more : List (Edge ℓ)} (h : ∀ e ∈ edges, e ∈ more) (hw : Path m edges p q w) :
    Path m more p q w :=
  hw.simulate id fun _ _ _ he _ hu => .single (h _ he) hu

/-- A property of the last state that every edge hands back to its source holds of all states
from which there is a path. -/
theorem backward {R : State → List α → Prop} (hnil : R q [])
    (hcons : ∀ p l r, ⟨p, l, r⟩ ∈ edges → ∀ u ∈ m l, ∀ v, Path m edges r q v → R r v →
      R p (u ++ v))
    (hw : Path m edges p q w) : R p w := by
  induction hw with
  | nil p => exact hnil
  | cons he hl hv ih => exact hcons _ _ _ he _ hl _ hv (ih hnil hcons)

/-- A path that leaves a state starts with an edge out of it. -/
theorem eq_or_exists_edge (hw : Path m edges p q w) :
    (p = q ∧ w = []) ∨ ∃ l r u v, (⟨p, l, r⟩ : Edge ℓ) ∈ edges ∧ u ∈ m l ∧ w = u ++ v ∧
      Path m edges r q v := by
  cases hw with
  | nil => exact .inl ⟨rfl, rfl⟩
  | cons he hl hv => exact .inr ⟨_, _, _, _, he, hl, rfl, hv⟩

/-- From a state without edges out of it no other state is reached. -/
theorem eq_of_no_edges (hp : ∀ l r, (⟨p, l, r⟩ : Edge ℓ) ∉ edges) (hw : Path m edges p q w) :
    p = q ∧ w = [] := by
  rcases hw.eq_or_exists_edge with h | ⟨l, r, _, _, he, _⟩
  · exact h
  · exact absurd he (hp l r)

/-- A path ends where it started or in the target of an edge. -/
theorem eq_or_exists_target (hw : Path m edges p q w) :
    (p = q ∧ w = []) ∨ ∃ r l, (⟨r, l, q⟩ : Edge ℓ) ∈ edges := by
  induction hw with
  | nil p => exact .inl ⟨rfl, rfl⟩
  | @cons p r q l u v he hl hv ih =>
    rcases ih with ⟨rfl, rfl⟩ | h
    · exact .inr ⟨_, _, he⟩
    · exact .inr h

end Path

/-! ## The labels of automata -/

/-- A letter means the word of this one letter, and ε the empty word. -/
def Label.language : Label σ → Language σ
  | .symbol a => {[a]}
  | .epsilon => 1

@[simp] theorem Label.mem_language_symbol {a : σ} {w : List σ} :
    w ∈ (Label.symbol a).language ↔ w = [a] := Iff.rfl

@[simp] theorem Label.mem_language_epsilon {w : List σ} :
    w ∈ (Label.epsilon : Label σ).language ↔ w = [] := Iff.rfl

namespace Nfa

variable {n : Nfa σ} {p q r : State} {a : σ} {u v w : List σ}

/-- Some path of the automaton from one state to another spells the word. -/
abbrev Spells (n : Nfa σ) (p q : State) (w : List σ) : Prop := Path Label.language n.edges p q w

/-- The words that paths from the start to the final state spell when labels mean languages
over another alphabet. -/
def languageUnder (m : Label σ → Language α) (n : Nfa σ) : Language α :=
  {w | Path m n.edges n.start n.final w}

/-- The words that paths from the start to the final state spell. -/
def language (n : Nfa σ) : Language σ := n.languageUnder Label.language

theorem mem_languageUnder_iff {m : Label σ → Language α} {x : List α} :
    x ∈ n.languageUnder m ↔ Path m n.edges n.start n.final x := Iff.rfl

theorem mem_language_iff : w ∈ n.language ↔ n.Spells n.start n.final w := Iff.rfl

theorem Spells.of_symbol (he : ⟨p, .symbol a, q⟩ ∈ n.edges) : n.Spells p q [a] :=
  Path.single he (by simp)

theorem Spells.of_epsilon (he : ⟨p, .epsilon, q⟩ ∈ n.edges) : n.Spells p q [] :=
  Path.single he (by simp)

/-- A path that spells two words in a row can be cut between them, because no edge spells more
than one letter. -/
theorem spells_append_iff : n.Spells p q (u ++ v) ↔ ∃ r, n.Spells p r u ∧ n.Spells r q v := by
  constructor
  · intro h
    generalize hw : u ++ v = w at h
    induction h generalizing u with
    | nil p =>
      rcases List.append_eq_nil_iff.1 hw with ⟨rfl, rfl⟩
      exact ⟨p, .nil p, .nil p⟩
    | @cons p r q l x y he hl hy ih =>
      cases l with
      | epsilon =>
        rw [Label.mem_language_epsilon] at hl
        subst hl
        rcases ih hw with ⟨m, hm, hmq⟩
        exact ⟨m, (Spells.of_epsilon he).append hm, hmq⟩
      | symbol a =>
        rw [Label.mem_language_symbol] at hl
        subst hl
        cases u with
        | nil =>
          -- the cut is before the edge
          rw [List.nil_append] at hw
          exact ⟨p, .nil p, hw ▸ (Spells.of_symbol he).append hy⟩
        | cons b u =>
          rcases List.cons.inj hw with ⟨rfl, hrest⟩
          rcases ih hrest with ⟨m, hm, hmq⟩
          exact ⟨m, (Spells.of_symbol he).append hm, hmq⟩
  · intro h
    rcases h with ⟨r, hu, hv⟩
    exact hu.append hv

/-- The empty word is spelled along ε-transitions. -/
theorem spells_nil_iff : n.Spells p q [] ↔ Reaches n.epsilonArrows p q := by
  constructor
  · intro h
    generalize hw : ([] : List σ) = w at h
    induction h with
    | nil p => exact .refl p
    | @cons p r q l x y he hl hy ih =>
      rcases List.append_eq_nil_iff.1 hw.symm with ⟨rfl, rfl⟩
      cases l with
      | epsilon => exact .head (mem_epsilonArrows.2 he) (ih rfl)
      | symbol a => simp at hl
  · intro h
    induction h with
    | refl => exact .nil _
    | tail _ he ih => exact ih.append (Spells.of_epsilon (mem_epsilonArrows.1 he))

/-- One letter is spelled by one transition on it, with ε-transitions before and after. -/
theorem spells_singleton_iff : n.Spells p q [a] ↔
    ∃ s t, n.Spells p s [] ∧ ⟨s, .symbol a, t⟩ ∈ n.edges ∧ n.Spells t q [] := by
  constructor
  · intro h
    generalize hw : [a] = w at h
    induction h with
    | nil p => cases hw
    | @cons p r q l x y he hl hy ih =>
      cases l with
      | epsilon =>
        rw [Label.mem_language_epsilon] at hl
        subst hl
        rcases ih hw with ⟨s, t, hs, hst, ht⟩
        exact ⟨s, t, (Spells.of_epsilon he).append hs, hst, ht⟩
      | symbol b =>
        rw [Label.mem_language_symbol] at hl
        subst hl
        rcases List.cons.inj hw with ⟨rfl, rfl⟩
        exact ⟨p, r, .nil p, he, hy⟩
  · intro h
    rcases h with ⟨s, t, hs, he, ht⟩
    exact hs.append ((Spells.of_symbol he).append ht)

variable [DecidableEq σ]

-- The states an automaton can be in after a word are those that the word leads to.
theorem mem_active : q ∈ n.active w ↔ n.Spells n.start q w := by
  induction w using List.reverseRecOn generalizing q with
  | nil =>
    rw [spells_nil_iff]
    exact mem_closure
  | append_singleton w a ih =>
    rw [active, List.foldl_append, ← active, List.foldl_cons, List.foldl_nil, mem_step,
      spells_append_iff]
    constructor
    · intro h
      rcases h with ⟨p, hp, m, he, hmq⟩
      refine ⟨p, ih.1 hp, spells_singleton_iff.2 ⟨p, m, .nil p, he, spells_nil_iff.2 hmq⟩⟩
    · intro h
      rcases h with ⟨r, hr, hrq⟩
      rcases spells_singleton_iff.1 hrq with ⟨s, t, hs, he, ht⟩
      have hstart : n.Spells n.start s w := by
        rw [← List.append_nil w]
        exact hr.append hs
      exact ⟨s, ih.2 hstart, t, he, spells_nil_iff.1 ht⟩

/-- An automaton accepts the words of its language and no others. -/
theorem mem_language : n.accepts w = true ↔ w ∈ n.language := by
  rw [accepts, isAcceptingSet, decide_eq_true_iff, mem_active, mem_language_iff]

theorem accepts_eq_of_language_eq {n' : Nfa σ} (h : n.language = n'.language) (w : List σ) :
    n.accepts w = n'.accepts w := by
  rw [Bool.eq_iff_iff, mem_language, mem_language, h]

end Nfa

end Kleene
