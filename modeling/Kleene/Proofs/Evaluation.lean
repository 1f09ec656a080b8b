import Kleene.Proofs.RegularOperations
import Kleene.Regex.Thompson

/-!
# Values of expressions

Two algebras whose operations respect a relation give every expression related values, or fail
on it with the same error.  Nothing else about an algebra matters to the evaluation, so a fact
about all values is proved operation by operation.  The value that describes an expression best
is its language.
-/

open Computability

namespace Kleene

variable {σ α β : Type}

section Results

variable {ε : Type} {f : α → β} {r : Except ε α}

theorem map_eq_error_iff {e : ε} : r.map f = .error e ↔ r = .error e := by
  cases r with
  | error e' => exact ⟨fun h => congrArg _ (Except.error.inj h), congrArg (Except.map f)⟩
  | ok a => exact ⟨fun h => (by cases h), fun h => (by cases h)⟩

theorem exists_of_map_eq_ok {b : β} (h : r.map f = .ok b) : ∃ a, r = .ok a ∧ f a = b := by
  cases r with
  | error e => cases h
  | ok a => exact ⟨a, rfl, Except.ok.inj h⟩

end Results

section Folding

variable {ε : Type} {f : β → α → Except ε β} {b b' : β} {x : α} {xs ys : List α}

theorem foldlM_cons_of_ok (h : f b x = .ok b') : (x :: xs).foldlM f b = xs.foldlM f b' := by
  rw [List.foldlM_cons, h]
  rfl

theorem exists_of_foldlM_cons {c : β} (h : (x :: xs).foldlM f b = .ok c) :
    ∃ b', f b x = .ok b' ∧ xs.foldlM f b' = .ok c := by
  rw [List.foldlM_cons] at h
  cases hx : f b x with
  | error e =>
    rw [hx] at h
    cases h
  | ok b' =>
    rw [hx] at h
    exact ⟨b', rfl, h⟩

theorem foldlM_singleton_of_ok (h : f b x = .ok b') : [x].foldlM f b = .ok b' :=
  foldlM_cons_of_ok h

theorem foldlM_append_of_ok (h : xs.foldlM f b = .ok b') :
    (xs ++ ys).foldlM f b = ys.foldlM f b' := by
  rw [List.foldlM_append, h]
  rfl

theorem exists_of_foldlM_append {c : β} (h : (xs ++ ys).foldlM f b = .ok c) :
    ∃ b', xs.foldlM f b = .ok b' ∧ ys.foldlM f b' = .ok c := by
  cases hxs : xs.foldlM f b with
  | error e =>
    rw [List.foldlM_append, hxs] at h
    cases h
  | ok b' =>
    rw [foldlM_append_of_ok hxs] at h
    exact ⟨b', rfl, h⟩

/-- A map that the steps commute with is one that the fold commutes with. -/
theorem foldlM_map_eq_ok {γ : Type} {k : γ → α → Except ε γ} {g : β → γ}
    (hstep : ∀ b x b', f b x = .ok b' → k (g b) x = .ok (g b')) (h : xs.foldlM f b = .ok b') :
    xs.foldlM k (g b) = .ok (g b') := by
  induction xs generalizing b with
  | nil =>
    cases h
    rfl
  | cons x xs ih =>
    obtain ⟨c, hx, hrest⟩ := exists_of_foldlM_cons h
    rw [foldlM_cons_of_ok (hstep b x c hx), ih hrest]

-- A fold fails at the first element that it fails at.
theorem foldlM_eq_error_iff {e : ε} : xs.foldlM f b = .error e ↔
    ∃ front x rest b', xs = front ++ x :: rest ∧ front.foldlM f b = .ok b' ∧ f b' x = .error e := by
  constructor
  · intro h
    induction xs generalizing b with
    | nil => cases h
    | cons x xs ih =>
      cases hx : f b x with
      | error e' =>
        rw [List.foldlM_cons, hx] at h
        cases h
        exact ⟨[], x, xs, b, rfl, rfl, hx⟩
      | ok b₁ =>
        rw [foldlM_cons_of_ok hx] at h
        obtain ⟨front, y, rest, b', rfl, hfront, hy⟩ := ih h
        exact ⟨x :: front, y, rest, b', rfl, by rw [foldlM_cons_of_ok hx, hfront], hy⟩
  · rintro ⟨front, x, rest, b', rfl, hfront, hx⟩
    rw [foldlM_append_of_ok hfront, List.foldlM_cons, hx]
    rfl

end Folding

/-- The operations of two algebras take related values to related values. -/
structure Algebra.Related (A : Algebra σ α) (B : Algebra σ β) (R : α → β → Prop) : Prop where
  literal : ∀ a, R (A.literal a) (B.literal a)
  concat : ∀ x y x' y', R x x' → R y y' → R (A.concat x y) (B.concat x' y')
  alternation : ∀ x y x' y', R x x' → R y y' → R (A.alternation x y) (B.alternation x' y')
  star : ∀ x x', R x x' → R (A.star x) (B.star x')
  plus : ∀ x x', R x x' → R (A.plus x) (B.plus x')
  optional : ∀ x x', R x x' → R (A.optional x) (B.optional x')

/-- Both results are values, and related, or both are the same error. -/
inductive SameResult {ε : Type} (R : α → β → Prop) : Except ε α → Except ε β → Prop
  | ok {x : α} {y : β} : R x y → SameResult R (.ok x) (.ok y)
  | error (e : ε) : SameResult R (.error e) (.error e)

theorem SameResult.eq {ε α : Type} {x y : Except ε α} (h : SameResult Eq x y) : x = y := by
  cases h with
  | ok hab => rw [hab]
  | error e => rfl

theorem SameResult.bind {ε γ δ : Type} {R : α → β → Prop} {S : γ → δ → Prop} {x : Except ε α}
    {y : Except ε β} {f : α → Except ε γ} {k : β → Except ε δ} (h : SameResult R x y)
    (hnext : ∀ a b, R a b → SameResult S (f a) (k b)) : SameResult S (x >>= f) (y >>= k) := by
  cases h with
  | ok hab => exact hnext _ _ hab
  | error e => exact .error e

theorem SameResult.map {ε γ δ : Type} {R : α → β → Prop} {S : γ → δ → Prop} {x : Except ε α}
    {y : Except ε β} {f : α → γ} {k : β → δ} (h : SameResult R x y)
    (hmap : ∀ a b, R a b → S (f a) (k b)) : SameResult S (f <$> x) (k <$> y) := by
  cases h with
  | ok hab => exact .ok (hmap _ _ hab)
  | error e => exact .error e

/-- What is known of one result is known of both. -/
theorem SameResult.and {ε : Type} {R : α → β → Prop} {P : β → Prop} {x : Except ε α}
    {y : Except ε β} (h : SameResult R x y) (hy : ∀ b, y = .ok b → P b) :
    SameResult (fun a b => R a b ∧ P b) x y := by
  cases h with
  | ok hab => exact .ok ⟨hab, hy _ rfl⟩
  | error e => exact .error e

theorem SameResult.exists_of_ok {ε : Type} {R : α → β → Prop} {x : Except ε α} {y : Except ε β}
    {a : α} (h : SameResult R x y) (hx : x = .ok a) : ∃ b, y = .ok b ∧ R a b := by
  cases h with
  | ok hab =>
    cases hx
    exact ⟨_, rfl, hab⟩
  | error e => cases hx

theorem SameResult.exists_of_eq_ok {ε : Type} {R : α → β → Prop} {x : Except ε α} {y : Except ε β}
    {b : β} (h : SameResult R x y) (hy : y = .ok b) : ∃ a, x = .ok a ∧ R a b := by
  cases h with
  | ok hab =>
    cases hy
    exact ⟨_, rfl, hab⟩
  | error e => cases hy

/-- If every step keeps results related, so does the whole fold. -/
theorem SameResult.foldlM {ε ι : Type} {R : α → β → Prop} {f : α → ι → Except ε α}
    {k : β → ι → Except ε β} {xs : List ι}
    (hstep : ∀ a b, R a b → ∀ x ∈ xs, SameResult R (f a x) (k b x)) {a : α} {b : β} (h : R a b) :
    SameResult R (xs.foldlM f a) (xs.foldlM k b) := by
  induction xs generalizing a b with
  | nil => exact .ok h
  | cons x xs ih =>
    rw [List.foldlM_cons, List.foldlM_cons]
    exact (hstep a b h x List.mem_cons_self).bind fun a' b' h' =>
      ih (fun a b h y hy => hstep a b h y (List.mem_cons_of_mem x hy)) h'

namespace Postfix

variable {A : Algebra σ α} {B : Algebra σ β} {R : α → β → Prop}

theorem push_related (h : A.Related B R) {s : List α} {t : List β} (hst : List.Forall₂ R s t)
    (x : Token σ) : SameResult (List.Forall₂ R) (push A s x) (push B t x) := by
  cases x with
  | literal a => exact .ok (.cons (h.literal a) hst)
  | operator op =>
    -- the operands are the topmost values of both stacks, or both stacks are too low
    cases hst with
    | nil => cases op <;> exact .error _
    | cons hy hst =>
      cases hst with
      | nil =>
        cases op with
        | star => exact .ok (.cons (h.star _ _ hy) .nil)
        | plus => exact .ok (.cons (h.plus _ _ hy) .nil)
        | optional => exact .ok (.cons (h.optional _ _ hy) .nil)
        | _ => exact .error _
      | cons hx hst =>
        cases op with
        | concat => exact .ok (.cons (h.concat _ _ _ _ hx hy) hst)
        | alternation => exact .ok (.cons (h.alternation _ _ _ _ hx hy) hst)
        | star => exact .ok (.cons (h.star _ _ hy) (.cons hx hst))
        | plus => exact .ok (.cons (h.plus _ _ hy) (.cons hx hst))
        | optional => exact .ok (.cons (h.optional _ _ hy) (.cons hx hst))
        | _ => exact .error _

theorem foldlM_push_related (h : A.Related B R) (p : Postfix σ) {s : List α} {t : List β}
    (hst : List.Forall₂ R s t) :
    SameResult (List.Forall₂ R) (p.foldlM (push A) s) (p.foldlM (push B) t) :=
  SameResult.foldlM (fun _ _ hst x _ => push_related h hst x) hst

theorem evaluate_of_ne_nil {p : Postfix σ} (hp : p ≠ []) (A : Algebra σ α) :
    p.evaluate A = match p.foldlM (push A) [] with
      | .ok [value] => .ok value
      | .ok values => .error (.danglingOperands values.length)
      | .error e => .error e := by
  unfold evaluate
  exact if_neg (by rwa [List.isEmpty_iff])

-- Related algebras give an expression related values, or fail on it with the same error.
theorem evaluate_related (h : A.Related B R) {p : Postfix σ}
    (hp : p = [] → R A.empty B.empty) : SameResult R (p.evaluate A) (p.evaluate B) := by
  by_cases hnil : p = []
  · rw [hnil]
    exact .ok (hp hnil)
  · rw [evaluate_of_ne_nil hnil, evaluate_of_ne_nil hnil]
    have hstacks := foldlM_push_related h p .nil
    generalize p.foldlM (push A) [] = r at hstacks ⊢
    generalize p.foldlM (push B) [] = r' at hstacks ⊢
    cases hstacks with
    | error e => exact .error e
    | ok hst =>
      -- one value is left, or as many on one side as on the other
      cases hst with
      | nil => exact .error _
      | cons hx hrest =>
        cases hrest with
        | nil => exact .ok hx
        | cons hy hrest =>
          simp only [List.length_cons, hrest.length_eq]
          exact .error _

/-- If an expression has a value in one of two related algebras, it has one in the other. -/
theorem exists_evaluate_of_related (h : A.Related B R) {p : Postfix σ} {y : β}
    (hp : p = [] → R A.empty B.empty) (hy : p.evaluate B = .ok y) :
    ∃ x, p.evaluate A = .ok x ∧ R x y := by
  have hrel := evaluate_related h hp
  rw [hy] at hrel
  generalize p.evaluate A = r at hrel ⊢
  cases hrel with
  | ok hxy => exact ⟨_, rfl, hxy⟩

/-! ## Expressions in a row -/

-- Values further down on the stack stay where they are.
theorem push_append {s t : List α} {x : Token σ} (h : push A s x = .ok t) (rest : List α) :
    push A (s ++ rest) x = .ok (t ++ rest) := by
  cases x with
  | literal a =>
    cases h
    rfl
  | operator op =>
    match s, op with
    | _ :: _, .star | _ :: _, .plus | _ :: _, .optional =>
      cases h
      rfl
    | _ :: _ :: _, .concat | _ :: _ :: _, .alternation =>
      cases h
      rfl
    | [], .concat | [], .alternation | [_], .concat | [_], .alternation => cases h
    | [], .star | [], .plus | [], .optional | _, .groupOpen | _, .groupClose => cases h

theorem foldlM_push_append {p : Postfix σ} {s t : List α} (h : p.foldlM (push A) s = .ok t)
    (rest : List α) : p.foldlM (push A) (s ++ rest) = .ok (t ++ rest) :=
  foldlM_map_eq_ok (g := (· ++ rest)) (fun _ _ _ hx => push_append hx rest) h

/-- An expression with a value puts this one value on the stack. -/
theorem evaluate_eq_ok_iff {p : Postfix σ} {x : α} (hp : p ≠ []) :
    p.evaluate A = .ok x ↔ p.foldlM (push A) [] = .ok [x] := by
  rw [evaluate_of_ne_nil hp]
  split
  · rename_i y heq
    rw [heq, Except.ok.injEq, Except.ok.injEq, List.cons.injEq]
    simp
  · rename_i s hs heq
    rw [heq]
    refine ⟨fun h => (by cases h), fun h => ?_⟩
    rw [Except.ok.inj h] at hs
    exact absurd rfl (hs x)
  · rename_i e heq
    rw [heq]
    exact ⟨fun h => (by cases h), fun h => (by cases h)⟩

theorem foldlM_push_of_evaluate {p : Postfix σ} {x : α} (hp : p ≠ [])
    (h : p.evaluate A = .ok x) (s : List α) : p.foldlM (push A) s = .ok (x :: s) :=
  foldlM_push_append ((evaluate_eq_ok_iff hp).1 h) s

/-! ## Languages -/

end Postfix

/-- Expressions as languages. -/
def languageAlgebra (σ : Type) : Algebra σ (Language σ) where
  empty := 1
  literal a := {[a]}
  concat x y := x * y
  alternation x y := x + y
  star x := x∗
  plus x := x * x∗
  optional x := 1 + x

namespace Postfix

/-- The expression describes the language. -/
def Denotes (p : Postfix σ) (L : Language σ) : Prop := p.evaluate (languageAlgebra σ) = .ok L

theorem Denotes.unique {p : Postfix σ} {L M : Language σ} (hL : p.Denotes L)
    (hM : p.Denotes M) : L = M := Except.ok.inj (hL.symm.trans hM)

theorem denotes_nil : Denotes ([] : Postfix σ) 1 := rfl

theorem denotes_literal (a : σ) : Denotes [.literal a] {[a]} := rfl

theorem languageAlgebra_related_self : (languageAlgebra σ).Related (languageAlgebra σ)
    fun L _ => ∃ w ∈ L, w ≠ [] where
  literal a := ⟨[a], rfl, List.cons_ne_nil _ _⟩
  concat L M _ _ hL hM := by
    rcases hL with ⟨u, hu, hne⟩
    rcases hM with ⟨v, hv, -⟩
    exact ⟨u ++ v, Language.append_mem_mul hu hv, List.append_ne_nil_of_left_ne_nil hne v⟩
  alternation L M _ _ hL _ := by
    rcases hL with ⟨u, hu, hne⟩
    exact ⟨u, .inl hu, hne⟩
  star L _ hL := by
    rcases hL with ⟨u, hu, hne⟩
    exact ⟨u, ⟨[u], by simp, by simpa using hu⟩, hne⟩
  plus L _ hL := by
    rcases hL with ⟨u, hu, hne⟩
    have h := Language.append_mem_mul hu (Language.nil_mem_kstar L)
    exact ⟨u ++ [], h, List.append_ne_nil_of_left_ne_nil hne []⟩
  optional L _ hL := by
    rcases hL with ⟨u, hu, hne⟩
    exact ⟨u, .inr hu, hne⟩

/-- An expression with tokens describes some word other than the empty one. -/
theorem Denotes.exists_mem_ne_nil {p : Postfix σ} {L : Language σ} (h : p.Denotes L)
    (hp : p ≠ []) : ∃ w ∈ L, w ≠ [] := by
  rcases exists_evaluate_of_related languageAlgebra_related_self (fun hnil => absurd hnil hp) h
    with ⟨M, hM, hw⟩
  rw [h.unique hM]
  exact hw

/-- Every expression describes some word. -/
theorem Denotes.exists_mem {p : Postfix σ} {L : Language σ} (h : p.Denotes L) : ∃ w, w ∈ L := by
  by_cases hp : p = []
  · rw [hp] at h
    exact ⟨[], denotes_nil.unique h ▸ Language.nil_mem_one⟩
  · rcases h.exists_mem_ne_nil hp with ⟨w, hw, -⟩
    exact ⟨w, hw⟩

variable [Ord σ] [Std.TransOrd σ] [Std.LawfulEqOrd σ]

-- The constructions of automata do what the operations on languages do.
theorem nfaAlgebra_related : (Nfa.algebra σ).Related (languageAlgebra σ)
    fun n L => n.WellFormed ∧ n.language = L where
  literal a := ⟨Nfa.wellFormed_literal a, Nfa.language_literal a⟩
  concat a b _ _ ha hb := ⟨Nfa.wellFormed_concat ha.1 hb.1, by
    rw [← ha.2, ← hb.2]
    exact Nfa.language_concat ha.1 hb.1⟩
  alternation a b _ _ ha hb := ⟨Nfa.wellFormed_union ha.1 hb.1, by
    rw [← ha.2, ← hb.2]
    exact Nfa.language_union ha.1 hb.1⟩
  star n _ h := ⟨Nfa.wellFormed_star h.1, by
    rw [← h.2]
    exact Nfa.language_star h.1⟩
  plus n _ h := ⟨Nfa.wellFormed_plus h.1, by
    rw [← h.2]
    exact Nfa.language_plus h.1⟩
  optional n _ h := ⟨Nfa.wellFormed_opt h.1, by
    rw [← h.2]
    exact Nfa.language_opt h.1⟩

/-- An expression that describes a language becomes a well-formed automaton for it. -/
theorem Denotes.exists_toNfa {p : Postfix σ} {L : Language σ} (h : p.Denotes L) :
    ∃ n, p.toNfa = .ok n ∧ n.WellFormed ∧ n.language = L :=
  exists_evaluate_of_related nfaAlgebra_related
    (fun _ => ⟨Nfa.wellFormed_emptyWord [], Nfa.language_emptyWord []⟩) h

/-- An expression that becomes an automaton describes the language of the automaton. -/
theorem denotes_of_toNfa {p : Postfix σ} {n : Nfa σ} (h : p.toNfa = .ok n) :
    n.WellFormed ∧ p.Denotes n.language := by
  have hrel : SameResult _ p.toNfa (p.evaluate (languageAlgebra σ)) :=
    evaluate_related nfaAlgebra_related
      fun _ => ⟨Nfa.wellFormed_emptyWord [], Nfa.language_emptyWord []⟩
  rw [h] at hrel
  unfold Denotes
  generalize p.evaluate (languageAlgebra σ) = r at hrel ⊢
  cases hrel with
  | ok hxy => exact ⟨hxy.1, congrArg _ hxy.2.symm⟩

end Postfix

end Kleene
