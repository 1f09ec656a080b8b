/-!
# Words

The words over an alphabet, shortest first, and in the order of the alphabet within one
length.
-/

namespace Kleene

variable {σ : Type}

def wordsOfLength (alphabet : List σ) : Nat → List (List σ)
  | 0 => [[]]
  | n + 1 => alphabet.flatMap fun a => (wordsOfLength alphabet n).map (a :: ·)

def wordsUpTo (alphabet : List σ) (max : Nat) : List (List σ) :=
  (List.range (max + 1)).flatMap (wordsOfLength alphabet)

/-- Two lists in one, always taking the smaller of the two first letters; of equal ones the
first list's goes first. -/
def interleave [Ord σ] : List σ → List σ → List σ
  | [], bs => bs
  | as, [] => as
  | a :: as, b :: bs =>
    if (compare a b).isLE then a :: interleave as (b :: bs) else b :: interleave (a :: as) bs
termination_by as bs => as.length + bs.length

/-- A list with every run of equal letters made into one. -/
def withoutRuns [DecidableEq σ] : List σ → List σ
  | [] => []
  | [a] => [a]
  | a :: b :: rest => if a = b then withoutRuns (b :: rest) else a :: withoutRuns (b :: rest)

def mergedAlphabet [Ord σ] [DecidableEq σ] (as bs : List σ) : List σ :=
  withoutRuns (interleave as bs)

end Kleene
