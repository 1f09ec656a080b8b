import Kleene.Comparison.Recognizer
import Kleene.Comparison.Words
import Kleene.Text.Quoted

/-!
# Comparing languages

Two recognizers are compared on all words up to a given length.  The words are tried
shortest first and in the order of the letters, and a word is not continued if another one
before it led to the same active states, because the continuations of that one come first.
-/

namespace Kleene

/-- A word and the active states of two recognizers after it. -/
structure Probe (σ : Type) where
  /-- The word, last letter first. -/
  reversed : List σ
  active : List State × List State

namespace Probe

variable {σ : Type}

def word (p : Probe σ) : List σ := p.reversed.reverse

def extend (a b : Recognizer σ) (p : Probe σ) (c : σ) : Probe σ :=
  ⟨c :: p.reversed, (a.step p.active.1 c, b.step p.active.2 c)⟩

/-- Keeps of each pair of active states the first probe, unless the pair is known already;
gives the probes that are kept and all known pairs. -/
def prune (known : List (List State × List State)) :
    List (Probe σ) → List (Probe σ) × List (List State × List State)
  | [] => ([], known)
  | p :: ps =>
    if p.active ∈ known then prune known ps
    else
      let (kept, known) := prune (p.active :: known) ps
      (p :: kept, known)

/-- The first word on the level, or with at most `depth` letters more, whose verdicts meet
`wanted`. -/
def search (a b : Recognizer σ) (alphabet : List σ) (wanted : Bool → Bool → Bool) :
    (depth : Nat) → (known : List (List State × List State)) → List (Probe σ) → Option (List σ)
  | depth, known, level =>
    match level.find? fun p => wanted (a.isAccepting p.active.1) (b.isAccepting p.active.2) with
    | some p => some p.word
    | none =>
      match depth, level with
      | 0, _ | _, [] => none
      | depth + 1, level =>
        let (next, known) := prune known (level.flatMap fun p => alphabet.map (p.extend a b))
        search a b alphabet wanted depth known next

end Probe

namespace Recognizer

variable {σ : Type}

/-- The first word of at most `max` letters on which the verdicts of two recognizers meet
`wanted`. -/
def firstWord [Ord σ] [DecidableEq σ] (a b : Recognizer σ) (max : Nat)
    (wanted : Bool → Bool → Bool) : Option (List σ) :=
  let active := (a.initial, b.initial)
  Probe.search a b (mergedAlphabet a.alphabet b.alphabet) wanted max [active] [⟨[], active⟩]

def difference [Ord σ] [DecidableEq σ] (a b : Recognizer σ) (max : Nat) : Option (List σ) :=
  a.firstWord b max (· != ·)

def agrees [Ord σ] [DecidableEq σ] (a b : Recognizer σ) (max : Nat) : Bool :=
  (a.difference b max).isNone

end Recognizer

inductive Disagreement (σ : Type) where
  | onlyOne (word : List σ) (first : Bool)
  /-- The first of two recognizers accepts the word, although the second one, which should
  accept no less, does not. -/
  | onlyFirst (word : List σ)
  | unexpected (word : List σ) (accepted : Bool)
  deriving DecidableEq, Repr

namespace Disagreement

variable {σ : Type} [Quotable σ]

def witnessText (word : List σ) (accepting rejecting : String) : String :=
  quoted word ++ " is accepted by automaton `" ++ accepting
    ++ "` but not by automaton `" ++ rejecting ++ "`. Thus "

def message : Disagreement σ → String
  | onlyOne w true => witnessText w "a" "b" ++ "their languages are not equal."
  | onlyOne w false => witnessText w "b" "a" ++ "their languages are not equal."
  | onlyFirst w =>
    witnessText w "a" "b" ++ "the language of `a` is not a subset of `b`."
  | unexpected w accepted =>
    "assertion `left == right` failed: Unexpected verdict for " ++ quoted w
      ++ "\n  left: " ++ toString accepted ++ "\n right: " ++ toString (!accepted)

end Disagreement

namespace Recognizer

variable {σ : Type} [Ord σ] [DecidableEq σ]

/-- Fails if the two differ on a word of at most `max` letters. -/
def requireSame (a b : Recognizer σ) (max : Nat) : Except (Disagreement σ) Unit :=
  match a.difference b max with
  | some w => .error (.onlyOne w (a.accepts w))
  | none => .ok ()

def requireSubset (a b : Recognizer σ) (max : Nat) : Except (Disagreement σ) Unit :=
  match a.firstWord b max (fun x y => x && !y) with
  | some w => .error (.onlyFirst w)
  | none => .ok ()

def requireLanguage (a : Recognizer σ) (max : Nat) (expected : List σ → Bool) :
    Except (Disagreement σ) Unit :=
  let wrong := fun w => a.accepts w != expected w
  match (List.range (max + 1)).findSome? fun n => (wordsOfLength a.alphabet n).find? wrong with
  | some w => .error (.unexpected w (a.accepts w))
  | none => .ok ()

end Recognizer

end Kleene
