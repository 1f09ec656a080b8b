/-!
# Numbers with a largest one

Sums and products of the numbers of 64 bits; where one would be larger than all of them, it stops
at the largest.
-/

namespace Kleene

def largestNumber : Nat := 0xffffffffffffffff

def saturatingAdd (a b : Nat) : Nat := min (a + b) largestNumber

def saturatingMul (a b : Nat) : Nat := min (a * b) largestNumber

theorem saturatingAdd_le (a b : Nat) : saturatingAdd a b ≤ a + b := Nat.min_le_left _ _

end Kleene
