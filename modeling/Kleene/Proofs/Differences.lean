import Kleene.Proofs.Comparison
import Kleene.Proofs.Runs
import Kleene.Proofs.Simulation
import Kleene.Proofs.Words

/-!
# First differences

The search for a word with given verdicts goes through the words level by level and drops a word if
an earlier one led to the same active states.  Whatever follows a dropped word, the earlier word
followed by the same letters has the same verdicts, so the earliest word is never lost and the
search finds what trying all words in order would find.  For two automata, each of either kind, that
is the earliest word on which they differ.
-/

namespace Kleene

variable {σ : Type} {a b : Recognizer σ} {p q : Probe σ} {u v w : List σ} {c : σ}
variable {alphabet : List σ} {wanted : Bool → Bool → Bool} {depth k : Nat}
variable {known : List (List State × List State)} {ps level : List (Probe σ)}

/-- Words that lead to the same active states have the same verdict, whatever follows. -/
theorem Recognizer.accepts_append_congr (h : a.active u = a.active v) (w : List σ) :
    a.accepts (u ++ w) = a.accepts (v ++ w) := by
  unfold Recognizer.active at h
  unfold Recognizer.accepts Recognizer.active
  rw [List.foldl_append, List.foldl_append, h]

namespace Probe

theorem word_extend : (p.extend a b c).word = p.word ++ [c] := List.reverse_cons

/-! ## Pruning -/

/-- A probe is kept unless its active states are known or an earlier probe has the same. -/
theorem prune_cases (known : List (List State × List State)) (h : p ∈ ps) :
    p ∈ (prune known ps).1 ∨ p.active ∈ known ∨
      ∃ xs ys, ps = xs ++ p :: ys ∧ ∃ q ∈ xs, q.active = p.active := by
  induction ps generalizing known with
  | nil => cases h
  | cons r ps ih =>
    -- what is known or earlier for the rest is so for the whole
    have hrest : ∀ {known'}, (∀ s ∈ known', s ∈ known ∨ s = r.active) → p ∈ ps →
        p ∈ (prune known' ps).1 ∨ p.active ∈ known ∨
          ∃ xs ys, r :: ps = xs ++ p :: ys ∧ ∃ q ∈ xs, q.active = p.active := by
      intro known' hknown' hp
      obtain hkept | hknown | ⟨xs, ys, rfl, q, hq, hactive⟩ := ih known' hp
      · exact .inl hkept
      · obtain hknown | hr := hknown' _ hknown
        · exact .inr (.inl hknown)
        · obtain ⟨xs, ys, rfl⟩ := List.append_of_mem hp
          exact .inr (.inr ⟨r :: xs, ys, rfl, r, List.mem_cons_self, hr.symm⟩)
      · exact .inr (.inr ⟨r :: xs, ys, rfl, q, List.mem_cons_of_mem _ hq, hactive⟩)
    unfold prune
    by_cases hr : r.active ∈ known
    · rw [if_pos hr]
      obtain rfl | hp := List.mem_cons.1 h
      · exact .inr (.inl hr)
      · exact hrest (fun s hs => .inl hs) hp
    · rw [if_neg hr]
      obtain rfl | hp := List.mem_cons.1 h
      · exact .inl List.mem_cons_self
      · have hnew : ∀ s ∈ r.active :: known, s ∈ known ∨ s = r.active := fun s hs =>
          (List.mem_cons.1 hs).symm
        exact (hrest hnew hp).imp_left (List.mem_cons_of_mem r)

theorem prune_sublist : (prune known ps).1.Sublist ps := by
  induction ps generalizing known with
  | nil => exact .refl _
  | cons r ps ih =>
    unfold prune
    by_cases hr : r.active ∈ known
    · rw [if_pos hr]
      exact ih.cons r
    · rw [if_neg hr]
      exact ih.cons_cons r

/-- What is known after pruning was known before or belongs to a probe. -/
theorem mem_known_of_mem_prune {s : List State × List State} (h : s ∈ (prune known ps).2) :
    s ∈ known ∨ ∃ p ∈ ps, p.active = s := by
  induction ps generalizing known with
  | nil => exact .inl h
  | cons r ps ih =>
    unfold prune at h
    by_cases hr : r.active ∈ known
    · rw [if_pos hr] at h
      obtain hs | ⟨p, hp, hs⟩ := ih h
      · exact .inl hs
      · exact .inr ⟨p, List.mem_cons_of_mem r hp, hs⟩
    · rw [if_neg hr] at h
      obtain hs | ⟨p, hp, hs⟩ := ih h
      · obtain rfl | hs := List.mem_cons.1 hs
        · exact .inr ⟨r, List.mem_cons_self, rfl⟩
        · exact .inl hs
      · exact .inr ⟨p, List.mem_cons_of_mem r hp, hs⟩

/-! ## Levels -/

/-- What the search holds after `k` letters: words of this length in order, and active states that
some word of at most this length leads to. -/
structure Level [Ord σ] (a b : Recognizer σ) (alphabet : List σ) (k : Nat)
    (known : List (List State × List State)) (level : List (Probe σ)) : Prop where
  follows : ∀ p ∈ level, p.Follows a b
  length_eq : ∀ p ∈ level, p.word.length = k
  letter_mem : ∀ p ∈ level, ∀ c ∈ p.word, c ∈ alphabet
  ordered : level.Pairwise fun p q => LetterBefore p.word q.word
  known_led : ∀ s ∈ known, ∃ w : List σ,
    w.length ≤ k ∧ (∀ c ∈ w, c ∈ alphabet) ∧ s = (a.active w, b.active w)

variable [Ord σ]

theorem level_zero (a b : Recognizer σ) (alphabet : List σ) :
    Level a b alphabet 0 [(a.initial, b.initial)] [⟨[], a.initial, b.initial⟩] where
  follows p hp := by
    rw [List.mem_singleton.1 hp]
    rfl
  length_eq p hp := by
    rw [List.mem_singleton.1 hp]
    rfl
  letter_mem p hp c hc := by
    rw [List.mem_singleton.1 hp] at hc
    cases hc
  ordered := List.pairwise_singleton _ _
  known_led s hs := ⟨[], Nat.le_refl 0, List.forall_mem_nil _, List.mem_singleton.1 hs⟩

/-- The probes with one letter more. -/
def extensions (a b : Recognizer σ) (alphabet : List σ) (level : List (Probe σ)) : List (Probe σ) :=
  level.flatMap fun p => alphabet.map (p.extend a b)

omit [Ord σ] in
theorem mem_extensions : q ∈ extensions a b alphabet level ↔
    ∃ p ∈ level, ∃ c ∈ alphabet, q = p.extend a b c := by
  unfold extensions
  simp only [List.mem_flatMap, List.mem_map, eq_comm]

/-- All words with one letter more are a level, before any of them is dropped. -/
theorem Level.extend (h : Level a b alphabet k known level)
    (halphabet : Ascending.IsAscending alphabet) :
    Level a b alphabet (k + 1) known (extensions a b alphabet level) where
  follows q hq := by
    obtain ⟨p, hp, c, -, rfl⟩ := mem_extensions.1 hq
    exact (h.follows p hp).extend c
  length_eq q hq := by
    obtain ⟨p, hp, c, -, rfl⟩ := mem_extensions.1 hq
    rw [word_extend, List.length_append, h.length_eq p hp, List.length_singleton]
  letter_mem q hq := by
    obtain ⟨p, hp, c, hc, rfl⟩ := mem_extensions.1 hq
    rw [word_extend]
    exact List.forall_mem_append.2 ⟨h.letter_mem p hp, List.forall_mem_singleton.2 hc⟩
  ordered := by
    refine List.pairwise_flatMap.2 ⟨fun p _ => ?_, h.ordered.imp_of_mem ?_⟩
    · -- the same word with two letters in order
      refine List.pairwise_map.2 (List.Pairwise.imp (fun {c d} hcd => ?_) halphabet)
      rw [word_extend, word_extend]
      exact LetterBefore.append_left (.rel hcd) p.word
    · -- two words in order, whatever letters follow
      intro p q hp hq hpq r hr s hs
      obtain ⟨c, -, rfl⟩ := List.mem_map.1 hr
      obtain ⟨d, -, rfl⟩ := List.mem_map.1 hs
      rw [word_extend, word_extend]
      exact hpq.append ((h.length_eq p hp).trans (h.length_eq q hq).symm)
  known_led s hs := by
    obtain ⟨w, hw, hletters, heq⟩ := h.known_led s hs
    exact ⟨w, Nat.le_succ_of_le hw, hletters, heq⟩

theorem Level.prune (h : Level a b alphabet k known level) :
    Level a b alphabet k (prune known level).2 (prune known level).1 where
  follows p hp := h.follows p (mem_of_mem_prune hp)
  length_eq p hp := h.length_eq p (mem_of_mem_prune hp)
  letter_mem p hp := h.letter_mem p (mem_of_mem_prune hp)
  ordered := h.ordered.sublist prune_sublist
  known_led s hs := by
    obtain hs | ⟨p, hp, rfl⟩ := mem_known_of_mem_prune hs
    · exact h.known_led s hs
    · exact ⟨p.word, (h.length_eq p hp).le, h.letter_mem p hp, h.follows p hp⟩

theorem Level.next (h : Level a b alphabet k known level)
    (halphabet : Ascending.IsAscending alphabet) :
    Level a b alphabet (k + 1) (Probe.prune known (extensions a b alphabet level)).2
      (Probe.prune known (extensions a b alphabet level)).1 := (h.extend halphabet).prune

/-! ## The search -/

/-- The words whose verdicts the search looks for. -/
def Wanted (a b : Recognizer σ) (wanted : Bool → Bool → Bool) (w : List σ) : Prop :=
  wanted (a.accepts w) (b.accepts w) = true

omit [Ord σ] in
theorem Wanted.of_active_eq (h : Wanted a b wanted (u ++ w))
    (hactive : (a.active v, b.active v) = (a.active u, b.active u)) :
    Wanted a b wanted (v ++ w) := by
  obtain ⟨ha, hb⟩ := Prod.mk.inj hactive
  unfold Wanted
  rw [Recognizer.accepts_append_congr ha, Recognizer.accepts_append_congr hb]
  exact h

/-- The search finds only words within its depth. -/
theorem Level.of_search (h : Level a b alphabet k known level)
    (halphabet : Ascending.IsAscending alphabet)
    (hsearch : search a b alphabet wanted depth known level = some w) :
    w.length ≤ k + depth ∧ ∀ c ∈ w, c ∈ alphabet := by
  induction depth generalizing k known level with
  | zero =>
    unfold search at hsearch
    split at hsearch
    · rename_i p hfind
      have hp := List.mem_of_find?_eq_some hfind
      rw [← Option.some.inj hsearch]
      exact ⟨(h.length_eq p hp).le, h.letter_mem p hp⟩
    · cases hsearch
  | succ depth ih =>
    unfold search at hsearch
    split at hsearch
    · rename_i p hfind
      have hp := List.mem_of_find?_eq_some hfind
      rw [← Option.some.inj hsearch, h.length_eq p hp]
      exact ⟨Nat.le_add_right k _, h.letter_mem p hp⟩
    · cases level with
      | nil => cases hsearch
      | cons p level =>
        obtain ⟨hlength, hletters⟩ := ih (h.next halphabet) hsearch
        exact ⟨by omega, hletters⟩

variable [Std.OrientedOrd σ]

/-- On its own level the earliest wanted word is the first that is wanted. -/
theorem Level.find?_eq (h : Level a b alphabet k known level) (hp : p ∈ level)
    (hwanted : Wanted a b wanted p.word)
    (hfirst : ∀ v, Earlier v p.word → (∀ c ∈ v, c ∈ alphabet) → ¬Wanted a b wanted v) :
    (level.find? fun q => wanted (a.isAccepting q.active.1) (b.isAccepting q.active.2)) =
      some p := by
  have hasymm : Std.Asymm fun p q : Probe σ => LetterBefore p.word q.word :=
    ⟨fun p q => Std.Asymm.asymm (r := LetterBefore) p.word q.word⟩
  have hp' : wanted (a.isAccepting p.active.1) (b.isAccepting p.active.2) = true := by
    rw [h.follows p hp]
    exact hwanted
  cases hfind : level.find? fun q =>
    wanted (a.isAccepting q.active.1) (b.isAccepting q.active.2) with
  | none => exact absurd hp' (List.find?_eq_none.1 hfind p hp)
  | some q =>
    have hq := List.mem_of_find?_eq_some hfind
    obtain rfl | hbefore := ((find?_eq_some_iff_of_pairwise h.ordered).1 hfind).2 p hp hp'
    · rfl
    · have hlength := (h.length_eq q hq).trans (h.length_eq p hp).symm
      have hearlier : Earlier q.word p.word := earlier_iff.2 (.inr ⟨hlength, hbefore⟩)
      exact absurd (wanted_of_find? h.follows hfind) (hfirst _ hearlier (h.letter_mem q hq))

omit [Std.OrientedOrd σ] in
/-- On a level of shorter words no word is wanted. -/
theorem Level.find?_eq_none (h : Level a b alphabet k known level) (hk : k < w.length)
    (hfirst : ∀ v, Earlier v w → (∀ c ∈ v, c ∈ alphabet) → ¬Wanted a b wanted v) :
    level.find? (fun q => wanted (a.isAccepting q.active.1) (b.isAccepting q.active.2)) = none := by
  cases hfind : level.find? fun q =>
    wanted (a.isAccepting q.active.1) (b.isAccepting q.active.2) with
  | none => rfl
  | some q =>
    have hq := List.mem_of_find?_eq_some hfind
    have hearlier : Earlier q.word w := earlier_iff.2 (.inl (by rwa [h.length_eq q hq]))
    exact absurd (wanted_of_find? h.follows hfind) (hfirst _ hearlier (h.letter_mem q hq))

omit [Std.OrientedOrd σ] in
/-- No beginning of the earliest wanted word is dropped: the word that it would be dropped for leads
to an earlier wanted one. -/
theorem Level.mem_prune (h : Level a b alphabet (k + 1) known level) (hp : p ∈ level)
    (hknown : ∀ s ∈ known, ∃ v : List σ,
      v.length ≤ k ∧ (∀ c ∈ v, c ∈ alphabet) ∧ s = (a.active v, b.active v))
    (hw : ∀ c ∈ w, c ∈ alphabet) (hwanted : Wanted a b wanted (p.word ++ w))
    (hfirst : ∀ v, Earlier v (p.word ++ w) → (∀ c ∈ v, c ∈ alphabet) → ¬Wanted a b wanted v) :
    p ∈ (Probe.prune known level).1 := by
  obtain hkept | hmem | ⟨xs, ys, rfl, q, hq, hactive⟩ := prune_cases known hp
  · exact hkept
  · -- a shorter word
    obtain ⟨v, hv, hletters, hactive⟩ := hknown _ hmem
    refine absurd (hwanted.of_active_eq ?_) (hfirst (v ++ w) ?_ ?_)
    · rw [← hactive, h.follows p hp]
    · refine earlier_iff.2 (.inl ?_)
      rw [List.length_append, List.length_append, h.length_eq p hp]
      omega
    · exact List.forall_mem_append.2 ⟨hletters, hw⟩
  · -- a word of the same length before it
    have hq' : q ∈ xs ++ p :: ys := List.mem_append_left _ hq
    have hlength := (h.length_eq q hq').trans (h.length_eq p hp).symm
    have hbefore : LetterBefore q.word p.word :=
      (List.pairwise_append.1 h.ordered).2.2 q hq p List.mem_cons_self
    refine absurd (hwanted.of_active_eq ?_) (hfirst (q.word ++ w) ?_ ?_)
    · rw [← h.follows q hq', hactive, h.follows p hp]
    · refine earlier_iff.2 (.inr ⟨?_, hbefore.append hlength⟩)
      rw [List.length_append, List.length_append, hlength]
    · exact List.forall_mem_append.2 ⟨h.letter_mem q hq', hw⟩

/-- The search finds the earliest wanted word if it has a beginning of it on its level. -/
theorem Level.search_eq_some (h : Level a b alphabet k known level)
    (halphabet : Ascending.IsAscending alphabet) (hp : p ∈ level) (hdepth : w.length ≤ depth)
    (hw : ∀ c ∈ w, c ∈ alphabet) (hwanted : Wanted a b wanted (p.word ++ w))
    (hfirst : ∀ v, Earlier v (p.word ++ w) → (∀ c ∈ v, c ∈ alphabet) → ¬Wanted a b wanted v) :
    search a b alphabet wanted depth known level = some (p.word ++ w) := by
  induction w generalizing depth k known level p with
  | nil =>
    rw [List.append_nil] at hwanted hfirst ⊢
    unfold search
    rw [h.find?_eq hp hwanted hfirst]
  | cons c w ih =>
    obtain ⟨depth, rfl⟩ := Nat.exists_eq_add_of_le' (Nat.lt_of_lt_of_le (Nat.succ_pos _) hdepth)
    obtain ⟨hc, hw⟩ := List.forall_mem_cons.1 hw
    have hlonger : k < (p.word ++ c :: w).length := by
      rw [List.length_append, h.length_eq p hp, List.length_cons]
      omega
    -- one letter moves from the rest to the probe
    have hword : p.word ++ c :: w = (p.extend a b c).word ++ w := by
      rw [word_extend, List.append_assoc, List.singleton_append]
    have hextension : p.extend a b c ∈ extensions a b alphabet level :=
      mem_extensions.2 ⟨p, hp, c, hc, rfl⟩
    have hnone := h.find?_eq_none hlonger hfirst
    rw [hword] at hwanted hfirst ⊢
    have hkept := (h.extend halphabet).mem_prune hextension h.known_led hw hwanted hfirst
    unfold search
    rw [hnone]
    cases level with
    | nil => cases hp
    | cons q level =>
      exact ih (h.next halphabet) hkept (Nat.le_of_succ_le_succ hdepth) hw hwanted hfirst

end Probe

namespace Recognizer

variable [Ord σ] [Std.TransOrd σ] [Std.LawfulEqOrd σ] [DecidableEq σ]

/-- Dropping words changes nothing: the search finds what trying all words over both alphabets in
order would find. -/
theorem firstWord_eq_find? (ha : Ascending.IsAscending a.alphabet)
    (hb : Ascending.IsAscending b.alphabet) (max : Nat) (wanted : Bool → Bool → Bool) :
    a.firstWord b max wanted = (wordsUpTo (mergedAlphabet a.alphabet b.alphabet) max).find?
      fun w => wanted (a.accepts w) (b.accepts w) := by
  have halphabet := isAscending_mergedAlphabet ha hb
  have hlevel := Probe.level_zero a b (mergedAlphabet a.alphabet b.alphabet)
  cases hfind : (wordsUpTo (mergedAlphabet a.alphabet b.alphabet) max).find?
      fun w => wanted (a.accepts w) (b.accepts w) with
  | none =>
    cases hsearch : a.firstWord b max wanted with
    | none => rfl
    | some w =>
      obtain ⟨hlength, hletters⟩ := hlevel.of_search halphabet hsearch
      rw [Nat.zero_add] at hlength
      exact absurd (wanted_of_firstWord hsearch)
        (List.find?_eq_none.1 hfind w (mem_wordsUpTo.2 ⟨hlength, hletters⟩))
  | some w =>
    obtain ⟨⟨hw, hwanted⟩, hleast⟩ :=
      (find?_eq_some_iff_of_pairwise (pairwise_wordsUpTo halphabet max)).1 hfind
    obtain ⟨hlength, hletters⟩ := mem_wordsUpTo.1 hw
    refine hlevel.search_eq_some halphabet List.mem_cons_self hlength hletters hwanted ?_
    intro v hearlier hv hwanted'
    have hshort : v.length ≤ max := by
      obtain hlt | ⟨heq, -⟩ := earlier_iff.1 hearlier
      · exact hlt.le.trans hlength
      · exact heq.le.trans hlength
    obtain rfl | hlater := hleast v (mem_wordsUpTo.2 ⟨hshort, hv⟩) hwanted'
    · exact Std.Asymm.asymm _ _ hearlier hearlier
    · exact Std.Asymm.asymm _ _ hearlier hlater

end Recognizer

/-! ## Automata of both kinds -/

theorem Nfa.mem_labels_of_spells {n : Nfa σ} {p q : State} (h : n.Spells p q w) (hc : c ∈ w) :
    ∃ r s, ⟨r, .symbol c, s⟩ ∈ n.edges := by
  induction h with
  | nil => cases hc
  | @cons p r q l u v he hu _ ih =>
    obtain hc | hc := List.mem_append.1 hc
    · cases l with
      | symbol d =>
        rw [Label.mem_language_symbol.1 hu] at hc
        rw [List.mem_singleton.1 hc]
        exact ⟨p, r, he⟩
      | epsilon =>
        rw [Label.mem_language_epsilon.1 hu] at hc
        cases hc
    · exact ih hc

section Deterministic

variable [DecidableEq σ]

/-- The one active state, if no transition was missing. -/
theorem Dfa.active_recognizer (d : Dfa σ) (w : List σ) :
    d.recognizer.active w = (d.run d.start w).toList := by
  induction w using List.reverseRecOn with
  | nil => rfl
  | append_singleton w c ih =>
    rw [Recognizer.active_concat, ih, Dfa.run_append]
    cases d.run d.start w with
    | none => rfl
    | some q =>
      rw [Option.bind_some, Dfa.run_singleton]
      show [q].filterMap (d.successor · c) = _
      cases hq : d.successor q c <;> simp [hq]

theorem Dfa.accepts_recognizer (d : Dfa σ) (w : List σ) : d.recognizer.accepts w = d.accepts w := by
  unfold Recognizer.accepts Dfa.accepts
  rw [Dfa.active_recognizer]
  cases d.run d.start w with
  | none => rfl
  | some q => exact Bool.or_false _

end Deterministic

namespace Recognizer

variable [Ord σ] [Std.TransOrd σ] [Std.LawfulEqOrd σ] [DecidableEq σ]
variable {max : Nat} {r : Recognizer σ} {A B : List σ → Bool}

/-- What a recognizer does with every word, be its letters in the alphabet or not. -/
structure Reads (r : Recognizer σ) (A : List σ → Bool) : Prop where
  alphabet_ascending : Ascending.IsAscending r.alphabet
  accepts_eq : ∀ w, r.accepts w = A w
  letter_mem : ∀ w, A w = true → ∀ c ∈ w, c ∈ r.alphabet

/-- The recognizer of an automaton of either kind, with the verdicts of that automaton. -/
inductive Of : Recognizer σ → (List σ → Bool) → Prop
  | nfa {n : Nfa σ} (hn : n.WellFormed) : Of n.recognizer n.simulate
  | dfa {d : Dfa σ} (hd : d.WellFormed) : Of d.recognizer d.accepts

theorem Of.reads (h : r.Of A) : r.Reads A := by
  cases h with
  | @nfa n hn =>
    refine ⟨hn.alphabet_ascending, fun w => (hn.simulate_eq_accepts w).symm, ?_⟩
    intro w hw c hc
    have hpath : n.Spells n.start n.final w := hn.simulate_iff_spells.1 hw
    obtain ⟨p, q, he⟩ := Nfa.mem_labels_of_spells hpath hc
    exact hn.letter_mem p c q he
  | @dfa d hd =>
    refine ⟨hd.alphabet_ascending, d.accepts_recognizer, fun w hw => ?_⟩
    obtain ⟨q, hq⟩ := Dfa.exists_run_of_acceptsFrom (v := []) (by rwa [List.append_nil])
    exact hd.letter_mem_of_run hq

omit [Std.TransOrd σ] [Std.LawfulEqOrd σ] in
/-- A word that either accepts has its letters in one of the two alphabets. -/
theorem Reads.letters_of_wanted (ha : a.Reads A) (hb : b.Reads B)
    (hwanted : wanted false false = false) (w : List σ) (hw : wanted (A w) (B w) = true) :
    ∀ c ∈ w, c ∈ mergedAlphabet a.alphabet b.alphabet := by
  intro c hc
  rw [mem_mergedAlphabet]
  cases hA : A w with
  | true => exact .inl (ha.letter_mem w hA c hc)
  | false =>
    cases hB : B w with
    | true => exact .inr (hb.letter_mem w hB c hc)
    | false =>
      rw [hA, hB, hwanted] at hw
      cases hw

/-- Words with letters outside both alphabets need not be tried if two rejections are not wanted. -/
theorem Reads.firstWord_eq_some_iff (ha : a.Reads A) (hb : b.Reads B) (max : Nat)
    (wanted : Bool → Bool → Bool) (hwanted : wanted false false = false) :
    a.firstWord b max wanted = some w ↔
      IsFirst max (fun v => wanted (A v) (B v) = true) w := by
  rw [firstWord_eq_find? ha.alphabet_ascending hb.alphabet_ascending]
  simp only [ha.accepts_eq, hb.accepts_eq]
  exact find?_wordsUpTo_eq_some_iff
    (isAscending_mergedAlphabet ha.alphabet_ascending hb.alphabet_ascending)
    (ha.letters_of_wanted hb hwanted)

theorem Reads.firstWord_eq_none_iff (ha : a.Reads A) (hb : b.Reads B) (max : Nat)
    (wanted : Bool → Bool → Bool) (hwanted : wanted false false = false) :
    a.firstWord b max wanted = none ↔
      ∀ w : List σ, w.length ≤ max → ¬wanted (A w) (B w) = true := by
  rw [firstWord_eq_find? ha.alphabet_ascending hb.alphabet_ascending]
  simp only [ha.accepts_eq, hb.accepts_eq]
  exact find?_wordsUpTo_eq_none_iff (ha.letters_of_wanted hb hwanted)

/-- Between automata of any two kinds the search finds the earliest difference, over all words up to
the bound and not only those over the two alphabets; and a language is refused as part of another
exactly if a word up to the bound shows that it is not. -/
theorem Of.difference_spec (ha : a.Of A) (hb : b.Of B) (max : Nat) :
    (∀ w, a.difference b max = some w ↔ IsFirst max (fun v => A v ≠ B v) w) ∧
      (a.difference b max = none ↔ ∀ w : List σ, w.length ≤ max → A w = B w) ∧
      ((∃ e, a.requireSubset b max = .error e) ↔
        ∃ w : List σ, w.length ≤ max ∧ A w = true ∧ B w = false) := by
  have ha := ha.reads
  have hb := hb.reads
  refine ⟨fun w => ?_, ?_, ?_⟩
  · unfold difference
    have hsome := ha.firstWord_eq_some_iff hb max (· != ·) (w := w) rfl
    simpa only [bne_iff_ne] using hsome
  · unfold difference
    have hnone := ha.firstWord_eq_none_iff hb max (· != ·) rfl
    simpa only [bne_iff_ne, not_not] using hnone
  · have hnone := ha.firstWord_eq_none_iff hb max (fun x y => x && !y) rfl
    unfold requireSubset
    cases hfirst : a.firstWord b max fun x y => x && !y with
    | none =>
      refine iff_of_false (fun ⟨_, h⟩ => by cases h) ?_
      rintro ⟨w, hw, hA, hB⟩
      exact hnone.1 hfirst w hw (by simp [hA, hB])
    | some w =>
      refine iff_of_true ⟨_, rfl⟩ ?_
      have hw := (ha.firstWord_eq_some_iff hb max _ rfl).1 hfirst
      obtain ⟨hA, hB⟩ := (Bool.and_eq_true _ _).mp hw.holds
      exact ⟨w, hw.length_le, hA, (Bool.not_eq_true' _).mp hB⟩

/-- Accepts `a`, and `ca` too. -/
def afterDetour : Dfa Char :=
  ⟨[.plain, .accepting, .plain], ['a', 'c'], [⟨0, 'a', 1⟩, ⟨0, 'c', 2⟩, ⟨2, 'a', 1⟩], 0⟩

theorem wellFormed_afterDetour : afterDetour.WellFormed := Dfa.wellFormed_of_ofParts
  (show Dfa.ofParts ⟨[0, 1, 2], ['c', 'a'], [⟨0, 'a', 1⟩, ⟨0, 'c', 2⟩, ⟨2, 'a', 1⟩], 0, [1]⟩ =
    .ok afterDetour from rfl)

/-- The two agree on all words of one letter; the first difference has a letter that one of them
does not know. -/
theorem difference_spec_afterDetour :
    (Nfa.literal 'a').WellFormed ∧ afterDetour.WellFormed ∧
      (∀ w : List Char, w.length ≤ 1 → (Nfa.literal 'a').simulate w = afterDetour.accepts w) ∧
      IsFirst 2 (fun w => (Nfa.literal 'a').simulate w ≠ afterDetour.accepts w) ['c', 'a'] ∧
      ∃ w : List Char, w.length ≤ 2 ∧ afterDetour.accepts w = true ∧
        (Nfa.literal 'a').simulate w = false :=
  have hn := Nfa.wellFormed_literal 'a'
  have hd := wellFormed_afterDetour
  ⟨hn, hd, (Of.difference_spec (.nfa hn) (.dfa hd) 1).2.1.1 (by decide +kernel),
    ((Of.difference_spec (.nfa hn) (.dfa hd) 2).1 _).1 (by decide +kernel),
    (Of.difference_spec (.dfa hd) (.nfa hn) 2).2.2.1 ⟨.onlyFirst ['c', 'a'], by decide +kernel⟩⟩

end Recognizer

end Kleene
