/-!
# States

A state is a number.  Identifiers are handed out from below one fixed limit, so an
automaton can run out of them; everything that can go wrong on a well-typed call that its
caller had to rule out is listed in `Misuse`.
-/

namespace Kleene

abbrev State := Nat

/-- Every identifier of a state lies below this limit. -/
def stateLimit : Nat := 0xffffffff

end Kleene
