import Kleene.Comparison.Difference

/-!
# Comparing languages

Every probe of the search holds the active states of both recognizers after its word, so a word
that is found has the wanted verdicts.
-/

namespace Kleene

variable {σ : Type} {a b : Recognizer σ} {p : Probe σ} {w : List σ}
variable {known : List (List State × List State)} {ps : List (Probe σ)}

theorem Recognizer.active_concat (r : Recognizer σ) (w : List σ) (c : σ) :
    r.active (w ++ [c]) = r.step (r.active w) c := by
  unfold Recognizer.active
  rw [List.foldl_append, List.foldl_cons, List.foldl_nil]

namespace Probe

/-- The active states are those after the word. -/
def Follows (a b : Recognizer σ) (p : Probe σ) : Prop := p.active = (a.active p.word, b.active p.word)

theorem Follows.extend (h : p.Follows a b) (c : σ) : (p.extend a b c).Follows a b := by
  have hword : (p.extend a b c).word = p.word ++ [c] := List.reverse_cons
  unfold Follows at h ⊢
  rw [hword, Recognizer.active_concat, Recognizer.active_concat]
  show (a.step p.active.1 c, b.step p.active.2 c) = _
  rw [h]

-- Pruning keeps some of the probes.
theorem mem_of_mem_prune (h : p ∈ (prune known ps).1) : p ∈ ps := by
  induction ps generalizing known with
  | nil => cases h
  | cons q ps ih =>
    unfold prune at h
    by_cases hknown : q.active ∈ known
    · rw [if_pos hknown] at h
      exact List.mem_cons_of_mem _ (ih h)
    · rw [if_neg hknown] at h
      cases List.mem_cons.1 h with
      | inl h => exact List.mem_cons.2 (.inl h)
      | inr h => exact List.mem_cons_of_mem _ (ih h)

variable {wanted : Bool → Bool → Bool}

theorem wanted_of_find? (hps : ∀ p ∈ ps, p.Follows a b)
    (h : ps.find? (fun p => wanted (a.isAccepting p.active.1) (b.isAccepting p.active.2)) = some p) :
    wanted (a.accepts p.word) (b.accepts p.word) = true := by
  have hwanted := List.find?_some h
  rw [hps p (List.mem_of_find?_eq_some h)] at hwanted
  exact hwanted

-- A word that the search finds has the wanted verdicts.
theorem wanted_of_search {alphabet : List σ} {depth : Nat}
    (hps : ∀ p ∈ ps, p.Follows a b) (h : search a b alphabet wanted depth known ps = some w) :
    wanted (a.accepts w) (b.accepts w) = true := by
  induction depth generalizing known ps with
  | zero =>
    unfold search at h
    split at h
    · rename_i p hfind
      rw [← Option.some.inj h]
      exact wanted_of_find? hps hfind
    · cases h
  | succ depth ih =>
    unfold search at h
    split at h
    · rename_i p hfind
      rw [← Option.some.inj h]
      exact wanted_of_find? hps hfind
    · cases ps with
      | nil => cases h
      | cons q ps =>
        refine ih (fun p hp => ?_) h
        rcases List.mem_flatMap.1 (mem_of_mem_prune hp) with ⟨s, hs, hp⟩
        rcases List.mem_map.1 hp with ⟨c, -, rfl⟩
        exact (hps s hs).extend c

end Probe

namespace Recognizer

variable [Ord σ] [DecidableEq σ] {max : Nat}

theorem wanted_of_firstWord {wanted : Bool → Bool → Bool}
    (h : a.firstWord b max wanted = some w) : wanted (a.accepts w) (b.accepts w) = true := by
  refine Probe.wanted_of_search (fun p hp => ?_) h
  rw [List.mem_singleton.1 hp]
  rfl

/-- Recognizers that accept the same words agree up to every length. -/
theorem agrees_of_accepts_eq (h : ∀ w, a.accepts w = b.accepts w) : a.agrees b max = true := by
  unfold agrees
  cases hdiff : a.difference b max with
  | none => rfl
  | some w =>
    have hwanted := wanted_of_firstWord hdiff
    rw [h w, bne_self_eq_false] at hwanted
    cases hwanted

end Recognizer

end Kleene
