import Kleene.Proofs.Derivations
import Kleene.Proofs.Reading
import Kleene.Proofs.Thompson

/-!
# What is read as an expression

The reader checks parentheses only, but the evaluation counts operands.  Each place where the
lexemes lack an operand leaves one literal too few for the binary operators, and nothing makes up
for it.  So the lexemes of a text that becomes an automaton are a phrase of the grammar, or they are
parentheses around nothing, which stand for the empty word.
-/

open Computability

namespace Kleene

open Lexeme (Kind)

/-! ## Counting operands -/

/-- Whether the token takes two operands. -/
def Token.isBinary {σ : Type} : Token σ → Bool
  | literal _ => false
  | operator op => op.arity = 2

namespace Postfix

variable {σ α : Type} {A : Algebra σ α}

-- A literal puts a value on the stack, and a binary operator takes one off.
theorem length_push {s t : List α} {x : Token σ} (h : push A s x = .ok t) :
    t.length + [x].countP Token.isBinary = s.length + [x].countP Token.isLiteral := by
  cases x with
  | literal a =>
    cases h
    rfl
  | operator op =>
    match s, op with
    | _ :: _, .star | _ :: _, .plus | _ :: _, .optional =>
      cases h
      rfl
    | _ :: _ :: _, .concat | _ :: _ :: _, .alternation =>
      cases h
      rfl
    | [], .concat | [], .alternation | [_], .concat | [_], .alternation => cases h
    | [], .star | [], .plus | [], .optional | _, .groupOpen | _, .groupClose => cases h

theorem length_foldlM_push {p : Postfix σ} {s t : List α} (h : p.foldlM (push A) s = .ok t) :
    t.length + p.countP Token.isBinary = s.length + p.countP Token.isLiteral := by
  induction p generalizing s with
  | nil =>
    cases h
    rfl
  | cons x p ih =>
    rcases exists_of_foldlM_cons h with ⟨s', hs, hrest⟩
    have hx := length_push hs
    have hp := ih hrest
    rw [← List.singleton_append, List.countP_append, List.countP_append]
    omega

/-- An expression with a value has one literal more than binary operators. -/
theorem countP_isLiteral_of_evaluate {p : Postfix σ} {x : α} (hp : p ≠ [])
    (h : p.evaluate A = .ok x) : p.countP Token.isLiteral = p.countP Token.isBinary + 1 := by
  have hlength := length_foldlM_push ((evaluate_eq_ok_iff hp).1 h)
  rw [List.length_singleton, List.length_nil] at hlength
  omega

end Postfix

/-- Whether an operand has to stand before the lexeme. -/
def Lexeme.Kind.needsOperand : Kind → Bool
  | .literal _ => false
  | .opening => false
  | .closing => true
  | .operator _ => true

/-- How many operands are missing in front of the lexemes and at the end. -/
def missing : Bool → List Kind → Nat
  | a, [] => if a then 0 else 1
  | a, k :: ks => (if k.needsOperand && !a then 1 else 0) + missing k.endsOperand ks

theorem countP_added {k : Kind} (hk : k.Written) (a : Bool) :
    (k.added a).countP Token.isLiteral + (if k.needsOperand && !a then 1 else 0) +
        (if a then 1 else 0) =
      (k.added a).countP Token.isBinary + if k.endsOperand then 1 else 0 := by
  cases k with
  | literal c => cases a <;> rfl
  | opening => cases a <;> rfl
  | closing => cases a <;> rfl
  | operator op =>
    rcases hk op rfl with rfl | hop
    · cases a <;> rfl
    · cases op <;> cases hop <;> cases a <;> rfl

-- Each missing operand is one literal less than the binary operators need.
theorem countP_addedTokens {ks : List Kind} (hks : ∀ k ∈ ks, k.Written) (a : Bool) :
    (addedTokens a ks).countP Token.isLiteral + missing a ks + (if a then 1 else 0) =
      (addedTokens a ks).countP Token.isBinary + 1 := by
  induction ks generalizing a with
  | nil => cases a <;> rfl
  | cons k ks ih =>
    rcases List.forall_mem_cons.1 hks with ⟨hk, hks⟩
    have hfirst := countP_added hk a
    have hrest := ih hks k.endsOperand
    rw [addedTokens, missing, List.countP_append, List.countP_append]
    omega

/-- Lexemes that are read as tokens with a value lack no operand. -/
theorem missing_eq_zero {σ : Type} {A : Algebra Char σ} {ls : List Lexeme} {p : Postfix Char}
    {x : σ} (hls : ∀ l ∈ ls, l.kind.Written) (hread : Postfix.ofLexemes ls = .ok p) (hp : p ≠ [])
    (h : p.evaluate A = .ok x) : missing false (ls.map Lexeme.kind) = 0 := by
  have hperm := Postfix.perm_of_ofLexemes hls hread
  have hvalue := Postfix.countP_isLiteral_of_evaluate hp h
  rw [hperm.countP_eq, hperm.countP_eq] at hvalue
  have hcount := countP_addedTokens (List.forall_mem_map.2 hls) false
  simp only [Bool.false_eq_true, if_false] at hcount
  omega

/-! ## Phrases from lexemes -/

/-- An operand in front of a phrase. -/
def Derivation.cons (q : Derivation .quantified) : Derivation .choice → Derivation .choice
  | .row t => .row (.concat q t)
  | .alternation t t' => .alternation (.concat q t) t'

theorem Derivation.lexemes_cons (q : Derivation .quantified) (t : Derivation .choice) :
    (q.cons t).lexemes = q.lexemes ++ t.lexemes := by
  cases t with
  | row t => rfl
  | alternation t t' => exact List.append_assoc _ _ _

/-- The lexemes end here, or close the innermost of the open parentheses; what follows the closed
group goes on with it. -/
def Closes : Nat → List Kind → Prop
  | 0, ks => ks = []
  | d + 1, ks => ∃ ks', ks = .closing :: ks' ∧ ∀ q : Derivation .quantified,
      ∃ (t : Derivation .choice) (rest : List Kind),
        q.lexemes ++ ks' = t.lexemes ++ rest ∧ Closes d rest

/-- The lexemes start with a phrase, up to their end or to the next open parenthesis that they
close. -/
def Starts (d : Nat) (ks : List Kind) : Prop :=
  ∃ (t : Derivation .choice) (rest : List Kind), ks = t.lexemes ++ rest ∧ Closes d rest

/-- The lexemes go on with any operand in front of them. -/
def GoesOn (d : Nat) (ks : List Kind) : Prop :=
  ∀ q : Derivation .quantified, Starts d (q.lexemes ++ ks)

variable {d : Nat} {ks : List Kind}

theorem closes_succ : Closes (d + 1) ks ↔ ∃ ks', ks = .closing :: ks' ∧ GoesOn d ks' := Iff.rfl

theorem Starts.goesOn (h : Starts d ks) : GoesOn d ks := by
  intro q
  rcases h with ⟨t, rest, rfl, hrest⟩
  exact ⟨q.cons t, rest, by rw [Derivation.lexemes_cons, List.append_assoc], hrest⟩

theorem goesOn_nil : GoesOn 0 [] := fun q => ⟨.row (.quantified q), [], rfl, rfl⟩

theorem GoesOn.literal (h : GoesOn d ks) (c : Char) : Starts d (.literal c :: ks) :=
  h (.atom (.literal c))

theorem Starts.opening (h : Starts (d + 1) ks) : Starts d (.opening :: ks) := by
  rcases h with ⟨t, rest, rfl, hrest⟩
  rcases closes_succ.1 hrest with ⟨ks', rfl, hks'⟩
  have hgroup := hks' (.atom (.group t))
  have hlexemes : (Derivation.atom (.group t)).lexemes ++ ks' =
      .opening :: (t.lexemes ++ .closing :: ks') :=
    congrArg (List.cons Kind.opening) (List.append_assoc t.lexemes [.closing] ks')
  rwa [hlexemes] at hgroup

theorem GoesOn.closing (h : GoesOn d ks) : GoesOn (d + 1) (.closing :: ks) :=
  fun q => ⟨.row (.quantified q), _, rfl, closes_succ.2 ⟨ks, rfl, h⟩⟩

theorem GoesOn.quantifier (h : GoesOn d ks) {op : Operator} (hop : op.isQuantifier = true) :
    GoesOn d (.operator op :: ks) := by
  intro q
  have hq := h (.quantify q op hop)
  rwa [Derivation.lexemes, List.append_assoc] at hq

theorem Starts.alternation (h : Starts d ks) : GoesOn d (.operator .alternation :: ks) := by
  intro q
  rcases h with ⟨t, rest, rfl, hrest⟩
  exact ⟨.alternation (.quantified q) t, rest,
    (List.append_assoc q.lexemes (.operator .alternation :: t.lexemes) rest).symm, hrest⟩

/-- A phrase may stand behind an operand and where an operand is needed. -/
theorem Starts.anywhere (h : Starts d ks) (a : Bool) :
    if a then GoesOn d ks else Starts d ks := by
  cases a with
  | false => exact h
  | true => exact h.goesOn

/-- Lexemes whose parentheses match and that lack no operand form a phrase. -/
theorem starts_of_matched (hks : ∀ k ∈ ks, k.Written) {a : Bool} (hm : Matched d ks)
    (h : missing a ks = 0) : if a then GoesOn d ks else Starts d ks := by
  induction ks generalizing a d with
  | nil =>
    cases a with
    | false => cases h
    | true =>
      rcases hm with rfl
      exact goesOn_nil
  | cons k ks ih =>
    rcases List.forall_mem_cons.1 hks with ⟨hk, hks⟩
    rcases hm with ⟨hclosing, hm⟩
    rcases Nat.add_eq_zero_iff.1 h with ⟨hneeds, hrest⟩
    have hih := ih hks hm hrest
    cases k with
    | literal c => exact (GoesOn.literal hih c).anywhere a
    | opening => exact (Starts.opening hih).anywhere a
    | closing =>
      cases a with
      | false => cases hneeds
      | true =>
        rcases Nat.exists_eq_succ_of_ne_zero (hclosing rfl) with ⟨d', rfl⟩
        exact hih.closing
    | operator op =>
      cases a with
      | false => cases hneeds
      | true =>
        rcases hk op rfl with rfl | hop
        · exact hih.alternation
        · rw [Kind.endsOperand, hop] at hih
          exact hih.quantifier hop

/-! ## Parentheses around nothing -/

-- Behind an operand, only closing parentheses add nothing.
theorem eq_replicate_closing (hm : Matched d ks) (h : addedTokens true ks = []) :
    ks = List.replicate d .closing := by
  induction ks generalizing d with
  | nil =>
    rcases hm with rfl
    rfl
  | cons k ks ih =>
    rcases hm with ⟨hclosing, hm⟩
    cases k with
    | literal c => cases h
    | opening => cases h
    | operator op => cases h
    | closing =>
      rcases Nat.exists_eq_succ_of_ne_zero (hclosing rfl) with ⟨d', rfl⟩
      rw [ih hm h]
      rfl

theorem eq_replicate_opening (hm : Matched d ks) (h : addedTokens false ks = []) :
    ∃ k, ks = List.replicate k .opening ++ List.replicate (k + d) .closing := by
  induction ks generalizing d with
  | nil =>
    rcases hm with rfl
    exact ⟨0, rfl⟩
  | cons k ks ih =>
    rcases hm with ⟨hclosing, hm⟩
    cases k with
    | literal c => cases h
    | operator op => cases h
    | opening =>
      rcases ih hm h with ⟨k, hk⟩
      refine ⟨k + 1, ?_⟩
      rw [hk, Nat.succ_add_eq_add_succ k d]
      rfl
    | closing =>
      rcases Nat.exists_eq_succ_of_ne_zero (hclosing rfl) with ⟨d', rfl⟩
      refine ⟨0, ?_⟩
      rw [eq_replicate_closing hm h, Nat.zero_add]
      rfl

theorem matched_replicate_closing (d : Nat) : Matched d (List.replicate d .closing) := by
  induction d with
  | zero => rfl
  | succ d ih => exact ⟨fun _ => Nat.succ_ne_zero d, ih⟩

theorem addedTokens_replicate_closing (a : Bool) (d : Nat) :
    addedTokens a (List.replicate d .closing) = [] := by
  induction d generalizing a with
  | zero => rfl
  | succ d ih => exact ih true

/-- Parentheses around nothing match and add no tokens. -/
theorem replicate_spec (n d : Nat) :
    Matched d (List.replicate n .opening ++ List.replicate (n + d) .closing) ∧
      addedTokens false (List.replicate n .opening ++ List.replicate (n + d) .closing) = [] := by
  induction n generalizing d with
  | zero =>
    rw [Nat.zero_add]
    exact ⟨matched_replicate_closing d, addedTokens_replicate_closing false d⟩
  | succ n ih =>
    rcases ih (d + 1) with ⟨hm, hadded⟩
    rw [Nat.succ_add_eq_add_succ n d]
    exact ⟨⟨fun h => (by cases h), hm⟩, hadded⟩

/-- Lexemes that are read as tokens with a value are a phrase. -/
theorem Derivation.exists_of_evaluate {σ : Type} {A : Algebra Char σ} {ls : List Lexeme}
    {p : Postfix Char} {x : σ} (hls : ∀ l ∈ ls, l.kind.Written)
    (hread : Postfix.ofLexemes ls = .ok p) (hp : p ≠ []) (h : p.evaluate A = .ok x) :
    ∃ t : Derivation .choice, t.lexemes = ls.map Lexeme.kind := by
  have hm := (Postfix.exists_ofLexemes_iff hls).1 ⟨p, hread⟩
  have hmissing := missing_eq_zero hls hread hp h
  rcases starts_of_matched (List.forall_mem_map.2 hls) hm hmissing with ⟨t, rest, ht, rfl⟩
  exact ⟨t, by rw [ht, List.append_nil]⟩

/-! ## Sentences -/

/-- What stands for an expression: parentheses around nothing, for the empty word, or a phrase of
the grammar. -/
inductive Sentence
  | hollow (depth : Nat)
  | phrase (t : Derivation .choice)

namespace Sentence

def lexemes : Sentence → List Kind
  | hollow depth => List.replicate depth .opening ++ List.replicate depth .closing
  | phrase t => t.lexemes

def language : Sentence → Language Char
  | hollow _ => 1
  | phrase t => t.language

end Sentence

/-- A phrase contains a literal. -/
theorem Derivation.exists_literal_mem {level : Level} (t : Derivation level) :
    ∃ c, Kind.literal c ∈ t.lexemes := by
  induction t with
  | literal c => exact ⟨c, List.mem_singleton_self _⟩
  | group t ih =>
    rcases ih with ⟨c, hc⟩
    exact ⟨c, List.mem_cons_of_mem _ (List.mem_append_left _ hc)⟩
  | atom t ih | quantified t ih | row t ih => exact ih
  | quantify t op h ih | concat t t' ih ih' | alternation t t' ih ih' =>
    rcases ih with ⟨c, hc⟩
    exact ⟨c, List.mem_append_left _ hc⟩

namespace Sentence

theorem not_literal_mem_hollow (depth : Nat) (c : Char) :
    Kind.literal c ∉ (hollow depth).lexemes := by
  intro h
  rcases List.mem_append.1 h with h | h
  · cases List.eq_of_mem_replicate h
  · cases List.eq_of_mem_replicate h

/-- Lexemes are one sentence at most. -/
theorem lexemes_injective {s s' : Sentence} (h : s.lexemes = s'.lexemes) : s = s' := by
  cases s with
  | hollow d =>
    cases s' with
    | hollow d' =>
      have hlength := congrArg List.length h
      simp only [lexemes, List.length_append, List.length_replicate] at hlength
      exact congrArg hollow (by omega)
    | phrase t =>
      rcases t.exists_literal_mem with ⟨c, hc⟩
      have hmem : Kind.literal c ∈ (hollow d).lexemes := by rwa [h]
      exact absurd hmem (not_literal_mem_hollow d c)
  | phrase t =>
    cases s' with
    | hollow d =>
      rcases t.exists_literal_mem with ⟨c, hc⟩
      have hmem : Kind.literal c ∈ (hollow d).lexemes := by rwa [← h]
      exact absurd hmem (not_literal_mem_hollow d c)
    | phrase t' => exact congrArg phrase (Derivation.lexemes_injective h)

/-- The lexemes of a sentence are read, and what is read describes its language. -/
theorem exists_ofLexemes (s : Sentence) {ls : List Lexeme} (hls : ∀ l ∈ ls, l.kind.Written)
    (h : s.lexemes = ls.map Lexeme.kind) :
    ∃ p, Postfix.ofLexemes ls = .ok p ∧ p.Denotes s.language := by
  cases s with
  | hollow d =>
    rcases replicate_spec d 0 with ⟨hm, hadded⟩
    rw [Nat.add_zero, show _ ++ _ = ls.map Lexeme.kind from h] at hm hadded
    rcases (Postfix.exists_ofLexemes_iff hls).2 hm with ⟨p, hp⟩
    have hperm := Postfix.perm_of_ofLexemes hls hp
    rw [hadded] at hperm
    rw [hperm.eq_nil] at hp
    exact ⟨[], hp, Postfix.denotes_nil⟩
  | phrase t =>
    have hd := t.derives
    rw [show t.lexemes = ls.map Lexeme.kind from h] at hd
    exact ⟨t.tokens, hd.ofLexemes, t.denotes⟩

/-- Lexemes that are read as an expression with a value are a sentence. -/
theorem exists_of_evaluate {σ : Type} {A : Algebra Char σ} {ls : List Lexeme} {p : Postfix Char}
    {x : σ} (hls : ∀ l ∈ ls, l.kind.Written) (hread : Postfix.ofLexemes ls = .ok p)
    (h : p.evaluate A = .ok x) : ∃ s : Sentence, s.lexemes = ls.map Lexeme.kind := by
  by_cases hp : p = []
  · have hperm := Postfix.perm_of_ofLexemes hls hread
    rw [hp] at hperm
    have hm := (Postfix.exists_ofLexemes_iff hls).1 ⟨p, hread⟩
    rcases eq_replicate_opening hm hperm.symm.eq_nil with ⟨k, hk⟩
    exact ⟨hollow k, hk.symm⟩
  · rcases Derivation.exists_of_evaluate hls hread hp h with ⟨t, ht⟩
    exact ⟨phrase t, ht⟩

end Sentence

/-! ## Texts -/

namespace Nfa

theorem ofText_eq_ok_iff {text : String} {n : Nfa Char} : ofText text = .ok n ↔
    ∃ ls p, Lexeme.scan text = .ok ls ∧ Postfix.ofLexemes ls = .ok p ∧ p.toNfa = .ok n := by
  unfold ofText Postfix.ofText
  cases Lexeme.scan text with
  | error e => exact ⟨fun h => (by cases h), fun ⟨_, _, h, _⟩ => (by cases h)⟩
  | ok ls =>
    show (Postfix.ofLexemes ls >>= Postfix.toNfa) = .ok n ↔ _
    cases hp : Postfix.ofLexemes ls with
    | error e =>
      refine ⟨fun h => (by cases h), fun ⟨_, _, h, hp', _⟩ => ?_⟩
      rw [← Except.ok.inj h, hp] at hp'
      cases hp'
    | ok p =>
      refine ⟨fun h => ⟨ls, p, rfl, hp, h⟩, fun ⟨_, _, h, hp', hn⟩ => ?_⟩
      rw [← Except.ok.inj h, hp] at hp'
      rw [← Except.ok.inj hp'] at hn
      exact hn

-- The texts that become automata, and the words that the automata accept: the lexemes are a
-- sentence, and they are so in one way only.  Within the limit of identifiers a text has the same
-- result, unless they run out.
theorem ofText_spec (text : String) :
    ((∃ n, ofText text = .ok n) ↔ ∃ (ls : List Lexeme) (s : Sentence),
      Lexeme.scan text = .ok ls ∧ s.lexemes = ls.map Lexeme.kind) ∧
    (∀ (n : Nfa Char) (ls : List Lexeme) (s : Sentence), ofText text = .ok n →
      Lexeme.scan text = .ok ls → s.lexemes = ls.map Lexeme.kind →
      ∀ w, n.accepts w = true ↔ w ∈ s.language) ∧
    (∀ s s' : Sentence, s.lexemes = s'.lexemes → s = s') ∧
    (∀ n, ofText text = .ok n → ofTextWithin? text =
      if n.fresh ≤ stateLimit then .ok n else .error (.inl .statesExhausted)) ∧
    ∀ e, ofText text = .error e → ofTextWithin? text = .error (.inr e) ∨
      ofTextWithin? text = .error (.inl .statesExhausted) := by
  refine ⟨⟨fun h => ?_, fun h => ?_⟩, fun n ls s hn hscan hs w => ?_,
    fun s s' => Sentence.lexemes_injective, fun n => ofTextWithin?_of_ofText, fun e he => ?_⟩
  · rcases h with ⟨n, hn⟩
    rcases ofText_eq_ok_iff.1 hn with ⟨ls, p, hscan, hread, hp⟩
    rcases Sentence.exists_of_evaluate (Lexeme.written_of_scanFrom hscan) hread hp with ⟨s, hs⟩
    exact ⟨ls, s, hscan, hs⟩
  · rcases h with ⟨ls, s, hscan, hs⟩
    rcases s.exists_ofLexemes (Lexeme.written_of_scanFrom hscan) hs with ⟨p, hread, hp⟩
    rcases hp.exists_toNfa with ⟨n, hn, -, -⟩
    exact ⟨n, ofText_eq_ok_iff.2 ⟨ls, p, hscan, hread, hn⟩⟩
  · rcases s.exists_ofLexemes (Lexeme.written_of_scanFrom hscan) hs with ⟨p, hread, hp⟩
    rcases ofText_eq_ok_iff.1 hn with ⟨ls', p', hscan', hread', hn⟩
    rw [hscan] at hscan'
    rcases Except.ok.inj hscan' with rfl
    rw [hread] at hread'
    rcases Except.ok.inj hread' with rfl
    rw [mem_language, (Postfix.denotes_of_toNfa hn).2.unique hp]
  · have hor := ofTextWithin?_eq_or text
    rwa [he] at hor

/-- A group with a prefix, a letter that is a special character, and a quantifier. -/
theorem ofText_spec_group : ∃ n, ofText "(?:a|\\*)+" = .ok n := by
  let a : Derivation .row := .quantified (.atom (.literal 'a'))
  let star : Derivation .row := .quantified (.atom (.literal '*'))
  let group : Derivation .atom := .group (.alternation a (.row star))
  refine (ofText_spec "(?:a|\\*)+").1.2 ⟨[⟨.opening, 0⟩, ⟨.literal 'a', 3⟩,
    ⟨.operator .alternation, 4⟩, ⟨.literal '*', 5⟩, ⟨.closing, 7⟩, ⟨.operator .plus, 8⟩],
    .phrase (.row (.quantified (.quantify (.atom group) .plus rfl))), ?_, rfl⟩
  decide +kernel

end Nfa

end Kleene
