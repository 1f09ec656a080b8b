import Kleene.Regex.Error

/-!
# Lexemes

The smallest pieces of the text of an expression: literals, operators and parentheses.  A
backslash makes the character after it a literal.  An opening parenthesis may carry a group
prefix, `?` and one character, or `?<`, a name and `>`; prefixes have no meaning of their
own and belong to the parenthesis.
-/

namespace Kleene

inductive Lexeme.Kind where
  | literal (c : Char)
  | opening
  | closing
  | operator (op : Operator)
  deriving DecidableEq, Repr

/-- A lexeme and where it starts, in bytes. -/
structure Lexeme where
  kind : Lexeme.Kind
  position : Nat
  deriving DecidableEq, Repr

namespace Lexeme

def byteCount (cs : List Char) : Nat := cs.foldr (fun c n => c.utf8Size + n) 0

/-- The number of characters of the group prefix that follows an opening parenthesis.  A
name ends at the first `>`; without one, the prefix is `?<` alone. -/
def groupPrefixLength : List Char → Nat
  | '?' :: '<' :: '=' :: _ => 3
  | '?' :: '<' :: '!' :: _ => 3
  | '?' :: '<' :: rest => if '>' ∈ rest then rest.idxOf '>' + 3 else 2
  | '?' :: _ :: _ => 2
  | _ => 0

/-- The lexeme that a single character is when it is neither a backslash nor an opening
parenthesis. -/
def kindOfChar : Char → Kind
  | ')' => .closing
  | '|' => .operator .alternation
  | '*' => .operator .star
  | '+' => .operator .plus
  | '?' => .operator .optional
  | c => .literal c

def scanFrom (position : Nat) : List Char → Except RegexError (List Lexeme)
  | [] => .ok []
  | ['\\'] => .error (.danglingEscape position)
  | '\\' :: c :: rest =>
    (scanFrom (position + byteCount ['\\', c]) rest).map (⟨.literal c, position⟩ :: ·)
  | '(' :: rest =>
    let n := groupPrefixLength rest
    (scanFrom (position + byteCount ('(' :: rest.take n)) (rest.drop n)).map
      (⟨.opening, position⟩ :: ·)
  | c :: rest =>
    (scanFrom (position + byteCount [c]) rest).map (⟨kindOfChar c, position⟩ :: ·)
termination_by cs => cs.length

def scan (text : String) : Except RegexError (List Lexeme) := scanFrom 0 text.toList

end Lexeme

end Kleene
