import Kleene.Proofs.TextLabels
import Kleene.Regex.Thompson

/-!
# Escaped texts

With a backslash before each special character every character of a text is a literal, and nothing
else is written.  So an escaped text is read as its characters in a row, joined to the right by
concatenations that are not written, and the text itself is the only word that it describes.
-/

open Computability

namespace Kleene

variable {σ : Type}

namespace Postfix

/-- The letters of a word in a row, joined to the right. -/
def ofWord : List σ → Postfix σ
  | [] => []
  | [a] => [.literal a]
  | a :: b :: w => [.literal a] ++ (ofWord (b :: w) ++ [.operator .concat])

theorem ofWord_ne_nil (a : σ) (w : List σ) : ofWord (a :: w) ≠ [] := by
  cases w <;> simp [ofWord]

/-- A letter in front of a word. -/
theorem singleton_mul_singleton (a : σ) (w : List σ) :
    ({[a]} : Language σ) * {w} = {a :: w} := by
  ext v
  rw [Language.mem_mul]
  constructor
  · rintro ⟨_, rfl, _, rfl, rfl⟩
    exact rfl
  · rintro rfl
    exact ⟨[a], rfl, w, rfl, rfl⟩

theorem denotes_ofWord (w : List σ) : (ofWord w).Denotes {w} := by
  induction w with
  | nil => exact denotes_nil
  | cons a w ih =>
    cases w with
    | nil => exact denotes_literal a
    | cons b w =>
      have hjoined := denotes_binary .concat (· * ·) (fun _ _ _ => rfl)
        ⟨List.cons_ne_nil _ _, (denotes_literal a).valid⟩ ⟨ofWord_ne_nil b w, ih.valid⟩
      rwa [(denotes_literal a).language_eq, ih.language_eq, singleton_mul_singleton] at hjoined

end Postfix

/-! ## Reading escaped texts -/

/-- Escaping a text spells its characters as literals. -/
theorem escapeChars_eq_spell (cs : List Char) : escapeChars cs = spell (cs.map .literal) := by
  induction cs with
  | nil => rfl
  | cons c cs ih =>
    have hsplit : escapeChars ([c] ++ cs) = escapeChars [c] ++ escapeChars cs :=
      List.flatMap_append
    rw [List.map_cons, spell_cons, ← ih]
    exact hsplit

/-- Literals in a row are a row. -/
theorem derives_ofWord (c : Char) (cs : List Char) :
    Derives .row ((c :: cs).map .literal) (Postfix.ofWord (c :: cs)) := by
  induction cs generalizing c with
  | nil => exact .quantified (.atom (.literal c))
  | cons d cs ih => exact .concat (.atom (.literal c)) (ih d)

/-- An escaped text is read as its characters in a row. -/
theorem Postfix.ofText_escape (text : String) :
    ofText (escape text) = .ok (ofWord text.toList) := by
  have hspell : (escape text).toList = spell (text.toList.map .literal) := by
    rw [← escapeChars_eq_spell]
    exact String.toList_ofList
  generalize text.toList = cs at hspell ⊢
  cases cs with
  | nil =>
    have hempty : escape text = "" := String.toList_eq_nil_iff.1 hspell
    rw [hempty]
    exact TextCombiner.ofText_empty
  | cons c cs => exact (Derives.row (derives_ofWord c cs)).ofText hspell

example : Postfix.ofText (escape "a*(") = .ok [.literal 'a', .literal '*', .literal '(',
    .operator .concat, .operator .concat] := by decide +kernel

-- The automaton for an escaped text accepts the characters of the text, and no other word.
theorem Nfa.exists_ofText_escape (text : String) :
    ∃ n, Nfa.ofText (escape text) = .ok n ∧ ∀ w, n.accepts w = true ↔ w = text.toList := by
  obtain ⟨n, hn, -, hlanguage⟩ := (Postfix.denotes_ofWord text.toList).exists_toNfa
  refine ⟨n, ?_, fun w => ?_⟩
  · unfold Nfa.ofText
    rw [Postfix.ofText_escape]
    exact hn
  · rw [mem_language, hlanguage]
    exact Set.mem_singleton_iff

end Kleene
