import Kleene.Proofs.Evaluation
import Kleene.Proofs.Terminals

/-!
# Automata of expressions

The automaton of an expression has the states from 0 on, without a gap, and its terminals stay
isolated all the way up, so no operation has to add a state of its own.  What an operation takes is
never larger than what it yields.  So there are identifiers for every automaton on the way if there
are some for the last one, and an expression becomes an automaton within the limit of identifiers
exactly if its automaton lies within the limit.
-/

namespace Kleene

namespace Ascending

theorem insert_range (k : Nat) : insert k (List.range k) = List.range (k + 1) := by
  refine eq_of_mem_iff (isAscending_insert (isAscending_range k)) (isAscending_range _) fun q => ?_
  rw [mem_insert, List.mem_range, List.mem_range, Nat.lt_succ_iff_lt_or_eq, or_comm]

theorem union_range (b k : Nat) :
    union (List.range b) ((List.range k).map (b + ·)) = List.range (b + k) := by
  refine eq_of_mem_iff (isAscending_union (isAscending_range b) (isAscending_map_add_range b k))
    (isAscending_range _) fun q => ?_
  rw [mem_union, List.range_add, List.mem_append]

end Ascending

namespace Nfa

variable {σ : Type} [Ord σ] {a b n : Nfa σ}

/-- The terminals are isolated and the states are those from 0 on, without a gap. -/
structure Compact (n : Nfa σ) : Prop where
  wellFormed : n.WellFormed
  isolated : n.Isolated
  states_eq : n.states = List.range n.fresh

theorem Compact.stateCount_eq (h : n.Compact) : n.stateCount = n.fresh := by
  rw [stateCount, h.states_eq, List.length_range]

/-- The terminals are two states. -/
theorem Compact.two_le_stateCount (h : n.Compact) : 2 ≤ n.stateCount := by
  have hnodup : [n.start, n.final].Nodup := by simp [h.isolated.start_ne_final]
  have hsubset : [n.start, n.final] ⊆ n.states := by
    simp [h.wellFormed.start_mem, h.wellFormed.final_mem]
  exact (hnodup.subperm hsubset).length_le

theorem compact_literal (c : σ) : (literal c).Compact where
  wellFormed := wellFormed_literal c
  isolated := isolated_literal c
  states_eq := rfl

-- Newcomers get the places right behind the states that are there.
theorem states_absorb {identified : List (State × State)} (h : a.states = List.range a.fresh) :
    (absorb a b identified).states = List.range (absorb a b identified).fresh := by
  show Ascending.union a.states _ = List.range (a.fresh + _)
  rw [h, Ascending.union_range]

theorem states_loop {bypass : List (Edge (Label σ))} (h : n.states = List.range n.fresh) :
    (n.loop bypass).states = List.range (n.loop bypass).fresh := by
  show Ascending.insert (n.fresh + 1) (Ascending.insert n.fresh n.states) = List.range (n.fresh + 2)
  rw [h, Ascending.insert_range, Ascending.insert_range]

variable [Std.LawfulEqOrd σ] [Std.TransOrd σ]

theorem Compact.concat (ha : a.Compact) (hb : b.Compact) : (concat a b).Compact where
  wellFormed := wellFormed_concat ha.wellFormed hb.wellFormed
  isolated := ha.wellFormed.isolated_concat hb.wellFormed
  states_eq := states_absorb (by rw [ha.isolated.isolate_eq_self, ha.states_eq])

theorem Compact.union (ha : a.Compact) (hb : b.Compact) : (union a b).Compact where
  wellFormed := wellFormed_union ha.wellFormed hb.wellFormed
  isolated := ha.wellFormed.isolated_union hb.wellFormed
  states_eq := states_absorb (by rw [ha.isolated.isolate_eq_self, ha.states_eq])

theorem Compact.star (h : n.Compact) : n.star.Compact where
  wellFormed := wellFormed_star h.wellFormed
  isolated := h.wellFormed.isolated_star
  states_eq := states_loop h.states_eq

theorem Compact.plus (h : n.Compact) : n.plus.Compact where
  wellFormed := wellFormed_plus h.wellFormed
  isolated := h.wellFormed.isolated_plus
  states_eq := states_loop h.states_eq

theorem Compact.opt (h : n.Compact) : n.opt.Compact where
  wellFormed := wellFormed_opt h.wellFormed
  isolated := h.wellFormed.isolated_opt
  states_eq := by
    show n.isolate.states = List.range n.isolate.fresh
    rw [h.isolated.isolate_eq_self, h.states_eq]

/-- One state of `b` is fused with one of `a`. -/
theorem Compact.stateCount_concat (ha : a.Compact) (hb : b.Compact) :
    (Nfa.concat a b).stateCount = a.stateCount + (b.stateCount - 1) := by
  rw [(ha.concat hb).stateCount_eq, hb.wellFormed.fresh_concat, ha.isolated.isolate_eq_self,
    hb.isolated.isolate_eq_self, ha.stateCount_eq]

/-- Two states of `b` are fused with two of `a`. -/
theorem Compact.stateCount_union (ha : a.Compact) (hb : b.Compact) :
    (Nfa.union a b).stateCount = a.stateCount + (b.stateCount - 2) := by
  rw [(ha.union hb).stateCount_eq, hb.wellFormed.fresh_union, ha.isolated.isolate_eq_self,
    hb.isolated.isolate_eq_self, ha.stateCount_eq]

theorem Compact.stateCount_star (h : n.Compact) : n.star.stateCount = n.stateCount + 2 := by
  rw [h.star.stateCount_eq, h.stateCount_eq]
  rfl

theorem Compact.stateCount_plus (h : n.Compact) : n.plus.stateCount = n.stateCount + 2 := by
  rw [h.plus.stateCount_eq, h.stateCount_eq]
  rfl

omit [Std.LawfulEqOrd σ] [Std.TransOrd σ] in
theorem Compact.stateCount_opt (h : n.Compact) : n.opt.stateCount = n.stateCount := by
  show n.isolate.stateCount = n.stateCount
  rw [h.isolated.isolate_eq_self]

/-! ## Checked constructions -/

omit [Ord σ] [Std.LawfulEqOrd σ] [Std.TransOrd σ] in
/-- A check that a later one covers makes no difference. -/
theorem fit_bind_eq_fit {f : Nfa σ → Except Misuse (Nfa σ)} (hf : f a = b.fit)
    (hle : a.fresh ≤ b.fresh) : (a.fit >>= f) = b.fit := by
  unfold fit at hf ⊢
  by_cases ha : a.fresh ≤ stateLimit
  · rw [if_pos ha]
    exact hf
  · rw [if_neg ha, if_neg fun hb => ha (Nat.le_trans hle hb)]
    rfl

/-- An operand is no larger than the automaton that it becomes a part of. -/
theorem Compact.fresh_le_concat (ha : a.Compact) (hb : b.Compact) :
    a.fresh ≤ (Nfa.concat a b).fresh ∧ b.fresh ≤ (Nfa.concat a b).fresh := by
  have htwo := ha.two_le_stateCount
  have hle : a.stateCount ≤ (Nfa.concat a b).stateCount ∧
      b.stateCount ≤ (Nfa.concat a b).stateCount := by
    rw [ha.stateCount_concat hb]
    omega
  rwa [ha.stateCount_eq, hb.stateCount_eq, (ha.concat hb).stateCount_eq] at hle

theorem Compact.fresh_le_union (ha : a.Compact) (hb : b.Compact) :
    a.fresh ≤ (Nfa.union a b).fresh ∧ b.fresh ≤ (Nfa.union a b).fresh := by
  have htwo := ha.two_le_stateCount
  have htwo' := hb.two_le_stateCount
  have hle : a.stateCount ≤ (Nfa.union a b).stateCount ∧
      b.stateCount ≤ (Nfa.union a b).stateCount := by
    rw [ha.stateCount_union hb]
    omega
  rwa [ha.stateCount_eq, hb.stateCount_eq, (ha.union hb).stateCount_eq] at hle

omit [Std.LawfulEqOrd σ] [Std.TransOrd σ] in
theorem Compact.fresh_le_opt (h : n.Compact) : n.fresh ≤ n.opt.fresh := by
  show n.fresh ≤ n.isolate.fresh
  rw [h.isolated.isolate_eq_self]

/-- The check of what the operands are fused to is the only one that counts. -/
theorem Compact.concat?_eq_fit (ha : a.Compact) (hb : b.Compact) :
    concat? a b = (Nfa.concat a b).fit := by
  rw [concat?_eq_within, hb.isolated.isolate_eq_self, Nat.max_eq_right (ha.fresh_le_concat hb).2]
  rfl

theorem Compact.union?_eq_fit (ha : a.Compact) (hb : b.Compact) :
    union? a b = (Nfa.union a b).fit := by
  rw [union?_eq_within, hb.isolated.isolate_eq_self, Nat.max_eq_right (ha.fresh_le_union hb).2]
  rfl

-- A construction in its checked form is the construction followed by one check.
theorem algebra_related : (Nfa.algebra σ).Related (Nfa.algebra? σ)
    fun n x => n.Compact ∧ n.fit = x where
  literal a := ⟨compact_literal a, if_pos (show 2 ≤ stateLimit by decide)⟩
  concat a b _ _ := by
    rintro ⟨ha, rfl⟩ ⟨hb, rfl⟩
    have hle := ha.fresh_le_concat hb
    have hchecked := ha.concat?_eq_fit hb
    exact ⟨ha.concat hb, (fit_bind_eq_fit (fit_bind_eq_fit hchecked hle.2) hle.1).symm⟩
  alternation a b _ _ := by
    rintro ⟨ha, rfl⟩ ⟨hb, rfl⟩
    have hle := ha.fresh_le_union hb
    have hchecked := ha.union?_eq_fit hb
    exact ⟨ha.union hb, (fit_bind_eq_fit (fit_bind_eq_fit hchecked hle.2) hle.1).symm⟩
  star n _ := by
    rintro ⟨h, rfl⟩
    have hchecked : n.star? = n.star.fit := rfl
    exact ⟨h.star, (fit_bind_eq_fit hchecked (Nat.le_add_right n.fresh 2)).symm⟩
  plus n _ := by
    rintro ⟨h, rfl⟩
    have hchecked : n.plus? = n.plus.fit := rfl
    exact ⟨h.plus, (fit_bind_eq_fit hchecked (Nat.le_add_right n.fresh 2)).symm⟩
  optional n _ := by
    rintro ⟨h, rfl⟩
    have hchecked : n.opt? = n.opt.fit := rfl
    exact ⟨h.opt, (fit_bind_eq_fit hchecked h.fresh_le_opt).symm⟩

end Nfa

namespace Postfix

variable {σ : Type} [Ord σ] {s t : List (Nfa σ)} {x : Token σ} {p : Postfix σ} {n : Nfa σ}

/-! ## Stacks of automata -/

/-- There are identifiers for the states of each of the automata. -/
def AllFit (s : List (Nfa σ)) : Prop := ∀ n ∈ s, n.fresh ≤ stateLimit

instance : Decidable (AllFit s) := List.decidableBAll _ s

omit [Ord σ] in
theorem allFit_cons : AllFit (n :: s) ↔ n.fresh ≤ stateLimit ∧ AllFit s := List.forall_mem_cons

omit [Ord σ] in
/-- A smaller automaton may take the place of the topmost one. -/
theorem AllFit.of_top {m : Nfa σ} (h : AllFit (m :: s)) (hle : n.fresh ≤ m.fresh) :
    AllFit (n :: s) :=
  allFit_cons.2 ⟨Nat.le_trans hle (allFit_cons.1 h).1, (allFit_cons.1 h).2⟩

/-- The automata, if they all fit. -/
def fitAll (s : List (Nfa σ)) : Except Misuse (List (Nfa σ)) :=
  if AllFit s then .ok s else .error .statesExhausted

omit [Ord σ] in
theorem mapM_fit (s : List (Nfa σ)) : (s.map Nfa.fit).mapM id = fitAll s := by
  induction s with
  | nil => exact (if_pos nofun).symm
  | cons n s ih =>
    rw [List.map_cons, List.mapM_cons, ih, id_eq, Nfa.fit, fitAll, fitAll]
    by_cases hn : n.fresh ≤ stateLimit
    · by_cases hs : AllFit s
      · rw [if_pos hn, if_pos hs, if_pos (allFit_cons.2 ⟨hn, hs⟩)]
        rfl
      · rw [if_pos hn, if_neg hs, if_neg fun h => hs (allFit_cons.1 h).2]
        rfl
    · rw [if_neg hn, if_neg fun h => hn (allFit_cons.1 h).1]
      rfl

variable [Std.TransOrd σ] [Std.LawfulEqOrd σ]

/-- Checked constructions on checked automata are the constructions, followed by a check of what
they leave. -/
theorem push_fit (hs : ∀ n ∈ s, n.Compact) (x : Token σ) :
    (∃ t, push (Nfa.algebra σ) s x = .ok t ∧ (∀ n ∈ t, n.Compact) ∧
      push (Nfa.algebra? σ) (s.map Nfa.fit) x = .ok (t.map Nfa.fit)) ∨
    ∃ e, push (Nfa.algebra σ) s x = .error e ∧
      push (Nfa.algebra? σ) (s.map Nfa.fit) x = .error e := by
  have hstack : List.Forall₂ (fun n y => n.Compact ∧ n.fit = y) s (s.map Nfa.fit) :=
    List.forall₂_map_right_iff.2 (List.forall₂_same.2 fun n hn => ⟨hs n hn, rfl⟩)
  have hrelated := push_related Nfa.algebra_related hstack x
  generalize push (Nfa.algebra σ) s x = r at hrelated ⊢
  generalize push (Nfa.algebra? σ) (s.map Nfa.fit) x = r' at hrelated ⊢
  cases hrelated with
  | error e => exact .inr ⟨e, rfl, rfl⟩
  | ok hst =>
    rename_i t t'
    obtain ⟨ht, hresults⟩ := (List.forall₂_and_left t t').1 hst
    rw [← List.forall₂_map_left_iff, List.forall₂_eq_eq_eq] at hresults
    exact .inl ⟨t, rfl, ht, congrArg Except.ok hresults.symm⟩

theorem compact_of_push (hs : ∀ n ∈ s, n.Compact) (h : push (Nfa.algebra σ) s x = .ok t) :
    ∀ n ∈ t, n.Compact := by
  obtain ⟨u, hu, hcompact, -⟩ | ⟨e, he, -⟩ := push_fit hs x
  · rw [hu] at h
    cases h
    exact hcompact
  · rw [he] at h
    cases h

/-- A token is taken, and what it leaves is checked, or its operands are missing. -/
theorem pushWithin?_eq (hs : ∀ n ∈ s, n.Compact) (hfit : AllFit s) (x : Token σ) :
    pushWithin? s x =
      (push (Nfa.algebra σ) s x).mapError .inr >>= fun t => (fitAll t).mapError .inl := by
  have hchecked : s.map .ok = s.map Nfa.fit :=
    List.map_congr_left fun n hn => (if_pos (hfit n hn)).symm
  rw [pushWithin?, hchecked]
  obtain ⟨t, ht, -, ht'⟩ | ⟨e, he, he'⟩ := push_fit hs x
  · rw [ht, ht']
    exact congrArg (Except.mapError Sum.inl) (mapM_fit t)
  · rw [he, he']
    rfl

theorem pushWithin?_of_ok (hs : ∀ n ∈ s, n.Compact) (hfit : AllFit s)
    (h : push (Nfa.algebra σ) s x = .ok t) : pushWithin? s x = (fitAll t).mapError .inl := by
  rw [pushWithin?_eq hs hfit, h]
  rfl

/-- What an operator takes off the stack is no larger than what it puts there. -/
theorem allFit_of_push (hs : ∀ n ∈ s, n.Compact) (h : push (Nfa.algebra σ) s x = .ok t)
    (ht : AllFit t) : AllFit s := by
  cases x with
  | literal a =>
    cases h
    exact (allFit_cons.1 ht).2
  | operator op =>
    match s, op with
    | n :: _, .star | n :: _, .plus =>
      cases h
      exact ht.of_top (Nat.le_add_right n.fresh 2)
    | n :: _, .optional =>
      cases h
      exact ht.of_top (hs n List.mem_cons_self).fresh_le_opt
    | b :: a :: _, .concat =>
      cases h
      obtain ⟨hb, ha, -⟩ : b.Compact ∧ a.Compact ∧ _ := by simpa using hs
      obtain ⟨hlea, hleb⟩ := ha.fresh_le_concat hb
      exact allFit_cons.2 ⟨(allFit_cons.1 (ht.of_top hleb)).1, ht.of_top hlea⟩
    | b :: a :: _, .alternation =>
      cases h
      obtain ⟨hb, ha, -⟩ : b.Compact ∧ a.Compact ∧ _ := by simpa using hs
      obtain ⟨hlea, hleb⟩ := ha.fresh_le_union hb
      exact allFit_cons.2 ⟨(allFit_cons.1 (ht.of_top hleb)).1, ht.of_top hlea⟩
    | [], .concat | [], .alternation | [_], .concat | [_], .alternation => cases h
    | [], .star | [], .plus | [], .optional | _, .groupOpen | _, .groupClose => cases h

/-- The tokens leave the same stack within the limit, if there are identifiers for it. -/
theorem foldlM_pushWithin?_of_ok (hs : ∀ n ∈ s, n.Compact) (hfit : AllFit s)
    (h : p.foldlM (push (Nfa.algebra σ)) s = .ok t) :
    p.foldlM pushWithin? s = (fitAll t).mapError .inl := by
  induction p generalizing s with
  | nil =>
    cases h
    rw [fitAll, if_pos hfit]
    rfl
  | cons x p ih =>
    obtain ⟨u, hx, hrest⟩ := exists_of_foldlM_cons h
    have hcompact := compact_of_push hs hx
    have hstep := pushWithin?_of_ok hs hfit hx
    by_cases hu : AllFit u
    · rw [fitAll, if_pos hu] at hstep
      rw [foldlM_cons_of_ok hstep]
      exact ih hcompact hu hrest
    · -- a stack that does not fit leads to none that fits
      have hlost : ∀ v x w, ((∀ n ∈ v, n.Compact) ∧ ¬ AllFit v) →
          push (Nfa.algebra σ) v x = .ok w → (∀ n ∈ w, n.Compact) ∧ ¬ AllFit w :=
        fun v x w hv hw => ⟨compact_of_push hv.1 hw, mt (allFit_of_push hv.1 hw) hv.2⟩
      have ht : ¬ AllFit t := (of_foldlM_eq_ok hlost ⟨hcompact, hu⟩ hrest).2
      rw [fitAll, if_neg hu] at hstep
      rw [List.foldlM_cons, hstep, fitAll, if_neg ht]
      rfl

/-- Within the limit the tokens leave the same stack or the same error, unless the identifiers run
out before. -/
theorem foldlM_pushWithin?_eq_or (hs : ∀ n ∈ s, n.Compact) (hfit : AllFit s) (p : Postfix σ) :
    p.foldlM pushWithin? s = (p.foldlM (push (Nfa.algebra σ)) s).mapError .inr ∨
      p.foldlM pushWithin? s = .error (.inl .statesExhausted) := by
  induction p generalizing s with
  | nil => exact .inl rfl
  | cons x p ih =>
    cases hx : push (Nfa.algebra σ) s x with
    | error e =>
      rw [List.foldlM_cons, List.foldlM_cons, pushWithin?_eq hs hfit, hx]
      exact .inl rfl
    | ok u =>
      have hstep := pushWithin?_of_ok hs hfit hx
      by_cases hu : AllFit u
      · rw [fitAll, if_pos hu] at hstep
        rw [foldlM_cons_of_ok hstep, foldlM_cons_of_ok hx]
        exact ih (compact_of_push hs hx) hu
      · rw [fitAll, if_neg hu] at hstep
        rw [List.foldlM_cons, hstep]
        exact .inr rfl

/-! ## Expressions -/

/-- An expression becomes the same automaton within the limit, if there are identifiers for its
states. -/
theorem toNfaWithin?_of_toNfa (h : p.toNfa = .ok n) : p.toNfaWithin? =
    if n.fresh ≤ stateLimit then .ok n else .error (.inl .statesExhausted) := by
  by_cases hnil : p = []
  · subst hnil
    cases h
    exact (if_pos (show 1 ≤ stateLimit by decide)).symm
  · have hrun := foldlM_pushWithin?_of_ok (List.forall_mem_nil _) (List.forall_mem_nil _)
      ((evaluate_eq_ok_iff hnil).1 h)
    rw [toNfaWithin?, if_neg (by rwa [List.isEmpty_iff]), hrun, fitAll]
    have hone : AllFit [n] ↔ n.fresh ≤ stateLimit := by simp [AllFit]
    by_cases hn : n.fresh ≤ stateLimit
    · rw [if_pos (hone.2 hn), if_pos hn]
      rfl
    · rw [if_neg (mt hone.1 hn), if_neg hn]
      rfl

/-- Otherwise it has the same error, unless the identifiers run out before that is found. -/
theorem toNfaWithin?_eq_or (p : Postfix σ) : p.toNfaWithin? = p.toNfa.mapError .inr ∨
    p.toNfaWithin? = .error (.inl .statesExhausted) := by
  by_cases hnil : p = []
  · subst hnil
    exact .inl rfl
  · rw [toNfaWithin?, if_neg (by rwa [List.isEmpty_iff]), toNfa, evaluate_of_ne_nil hnil]
    obtain hrun | hrun := foldlM_pushWithin?_eq_or (List.forall_mem_nil _) (List.forall_mem_nil _) p
    · rw [hrun]
      rcases p.foldlM (push (Nfa.algebra σ)) [] with e | _ | ⟨n, _ | ⟨m, t⟩⟩ <;> exact .inl rfl
    · rw [hrun]
      exact .inr rfl

end Postfix

theorem Nfa.ofTextWithin?_of_ofText {text : String} {n : Nfa Char} (h : ofText text = .ok n) :
    ofTextWithin? text =
      if n.fresh ≤ stateLimit then .ok n else .error (.inl .statesExhausted) := by
  obtain ⟨p, hp, hn⟩ := exists_of_bind_eq_ok h
  rw [ofTextWithin?, hp]
  exact Postfix.toNfaWithin?_of_toNfa hn

theorem Nfa.ofTextWithin?_eq_or (text : String) :
    ofTextWithin? text = (ofText text).mapError .inr ∨
      ofTextWithin? text = .error (.inl .statesExhausted) := by
  unfold ofTextWithin? ofText
  cases Postfix.ofText text with
  | error e => exact .inl rfl
  | ok p => exact p.toNfaWithin?_eq_or

end Kleene
