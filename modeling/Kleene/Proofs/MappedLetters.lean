import Kleene.Proofs.Simulation

/-!
# Automata with replaced letters

Letters are replaced on the transitions and in the alphabet, and different letters may become the
same one, so that transitions coincide and a word can come from many.  The paths are those of the
automaton before with their letters replaced, one by one, and therefore exactly the images of the
accepted words are accepted.
-/

namespace Kleene.Nfa

variable {σ τ : Type} {n : Nfa σ} {p q : State} {v : List σ} {w : List τ} {f : σ → τ}

/-! ## Paths -/

/-- The letters of transitions are replaced one by one. -/
theorem letters_map (f : σ → τ) (es : List (Edge (Label σ))) :
    letters (es.map (Edge.mapLabel (Label.map f))) = (letters es).map f := by
  unfold letters
  rw [List.filterMap_map, List.map_filterMap]
  refine List.filterMap_congr fun e _ => ?_
  rcases e with ⟨p, _ | _, q⟩ <;> rfl

section Paths

variable [Ord τ] [Std.LawfulEqOrd τ]

theorem Walk.mapLetters {es : List (Edge (Label σ))} (h : n.Walk p es q) (f : σ → τ) :
    (n.mapLetters f).Walk p (es.map (Edge.mapLabel (Label.map f))) q := by
  induction h with
  | nil p => exact .nil p
  | cons he _ ih => exact .cons (mem_edges_mapLetters.2 ⟨_, he, rfl⟩) ih

-- Every transition comes from one that carries some letter that is replaced by its letter; which
-- one is taken does not matter to the rest of the path.
theorem Walk.exists_of_mapLetters {es : List (Edge (Label τ))} (h : (n.mapLetters f).Walk p es q) :
    ∃ fs, n.Walk p fs q ∧ fs.map (Edge.mapLabel (Label.map f)) = es := by
  induction h with
  | nil p => exact ⟨[], .nil p, rfl⟩
  | @cons p r q l es he _ ih =>
    obtain ⟨fs, hwalk, rfl⟩ := ih
    obtain ⟨l, hedge, rfl⟩ := mem_edges_mapLetters.1 he
    exact ⟨⟨p, l, r⟩ :: fs, .cons hedge hwalk, rfl⟩

/-- The paths spell the images of what they spelled before. -/
theorem spells_mapLetters_iff :
    (n.mapLetters f).Spells p q w ↔ ∃ v, n.Spells p q v ∧ v.map f = w := by
  simp only [spells_iff_exists_walk]
  constructor
  · rintro ⟨es, hwalk, rfl⟩
    obtain ⟨fs, hbefore, rfl⟩ := hwalk.exists_of_mapLetters
    exact ⟨letters fs, ⟨fs, hbefore, rfl⟩, (letters_map f fs).symm⟩
  · rintro ⟨v, ⟨fs, hwalk, rfl⟩, rfl⟩
    exact ⟨_, hwalk.mapLetters f, letters_map f fs⟩

end Paths

/-! ## Accepted words -/

section Accepted

variable [Ord σ] [DecidableEq σ] [Std.TransOrd σ] [Std.LawfulEqOrd σ]
variable [Ord τ] [DecidableEq τ] [Std.TransOrd τ] [Std.LawfulEqOrd τ]

/-- Exactly the images of the accepted words are accepted, and the letters are the images of the
letters. -/
theorem WellFormed.mapLetters_accepts (h : n.WellFormed) (f : σ → τ) :
    (n.mapLetters f).WellFormed ∧
    (∀ b, b ∈ (n.mapLetters f).alphabet ↔ ∃ a ∈ n.alphabet, f a = b) ∧
    ∀ w, (n.mapLetters f).simulate w = (n.mapLetters f).accepts w ∧
      ((n.mapLetters f).simulate w = true ↔ ∃ v, n.simulate v = true ∧ v.map f = w) := by
  have hmap := h.mapLetters f
  refine ⟨hmap, fun b => ?_, fun w => ⟨hmap.simulate_eq_accepts w, ?_⟩⟩
  · exact Ascending.mem_ofList.trans List.mem_map
  · simp only [hmap.simulate_iff_spells, h.simulate_iff_spells]
    exact spells_mapLetters_iff

end Accepted

/-- Two letters lead there, on one way each, and a third one back. -/
def parallels : Nfa Char :=
  { states := [2, 5], alphabet := ['a', 'b', 'c', 'd'], start := 2, final := 5, fresh := 6
    edges := [⟨2, .symbol 'a', 5⟩, ⟨2, .symbol 'b', 5⟩, ⟨5, .symbol 'c', 2⟩] }

theorem wellFormed_parallels : parallels.WellFormed := wellFormed_of_ofParts
  (show ofParts ⟨[5, 2], ['d'],
    [⟨2, .symbol 'b', 5⟩, ⟨2, .symbol 'a', 5⟩, ⟨5, .symbol 'c', 2⟩], 2, 5⟩ = .ok parallels from rfl)

/-- Two of the letters become one. -/
def merged (c : Char) : Char := if c = 'b' then 'a' else c

theorem mapLetters_accepts_parallels : parallels.WellFormed ∧
    (parallels.mapLetters merged).edges = [⟨2, .symbol 'a', 5⟩, ⟨5, .symbol 'c', 2⟩] ∧
    (parallels.mapLetters merged).simulate ['a', 'c', 'a'] = true ∧
    ∃ v, parallels.simulate v = true ∧ v.map merged = ['a', 'c', 'a'] := by
  obtain ⟨-, -, hwords⟩ := wellFormed_parallels.mapLetters_accepts merged
  obtain ⟨hsimulate, himage⟩ := hwords ['a', 'c', 'a']
  have haccepts : (parallels.mapLetters merged).simulate ['a', 'c', 'a'] = true :=
    hsimulate.trans (by decide +kernel)
  exact ⟨wellFormed_parallels, by decide, haccepts, himage.1 haccepts⟩

end Kleene.Nfa
