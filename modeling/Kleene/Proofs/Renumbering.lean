import Kleene.Proofs.Runs

/-!
# Renumbering

One automaton tracks another if words that lead to one state of the other lead to one state of it.
Two automata that track each other differ, where words lead, in the numbers of the states only: the
same words lead to corresponding states, so the start states correspond, and so do the
transitions.
-/

namespace Kleene.Dfa

variable {σ : Type} [DecidableEq σ] {d e : Dfa σ} {p q : State} {a : σ} {w : List σ}

/-- Some word leads to the state. -/
def Reached (d : Dfa σ) (q : State) : Prop := ∃ w, d.run d.start w = some q

/-- If all states are reached, the reached states are those with a number. -/
def WellFormed.reachedEquiv [Ord σ] (hd : d.WellFormed)
    (hreached : ∀ q < d.stateCount, d.Reached q) : Fin d.stateCount ≃ {q // d.Reached q} :=
  Fin.equivSubtype.trans
    (Equiv.subtypeEquivRight fun q => ⟨hreached q, fun ⟨_, hw⟩ => hd.run_lt hd.start_lt hw⟩)

/-- Words that lead to one state of the first automaton lead to one state of the second. -/
def Tracks (d e : Dfa σ) : Prop :=
  ∀ u v p, d.run d.start u = some p → d.run d.start v = some p →
    ∃ q, e.run e.start u = some q ∧ e.run e.start v = some q

/-- A correspondence between the states that words lead to, which the same words lead to. -/
structure Renumbering (d e : Dfa σ) where
  toEquiv : {p // d.Reached p} ≃ {q // e.Reached q}
  run_iff : ∀ w p, e.run e.start w = some (toEquiv p : State) ↔ d.run d.start w = some (p : State)

/-! ## Automata that track each other -/

/-- The words that lead to a state all lead to one state of an automaton that tracks it. -/
theorem Tracks.exists_run (h : Tracks d e) (hp : d.Reached p) :
    ∃ q, ∀ w, d.run d.start w = some p → e.run e.start w = some q := by
  obtain ⟨u, hu⟩ := hp
  obtain ⟨q, hq, -⟩ := h u u p hu hu
  refine ⟨q, fun w hw => ?_⟩
  obtain ⟨r, hr, hwr⟩ := h u w p hu hw
  rw [hwr, ← hr, hq]

theorem Tracks.nonempty_renumbering (h : Tracks d e) (hback : Tracks e d) :
    Nonempty (Renumbering d e) := by
  choose f hf using fun p : {p // d.Reached p} => h.exists_run p.2
  choose g hg using fun q : {q // e.Reached q} => hback.exists_run q.2
  have hreached : ∀ p, e.Reached (f p) := fun p => p.2.imp (hf p)
  have hreached' : ∀ q, d.Reached (g q) := fun q => q.2.imp (hg q)
  -- some word leads to both states, there and back
  have hleft : ∀ p, g ⟨f p, hreached p⟩ = p := by
    intro p
    obtain ⟨w, hw⟩ := p.2
    have hback := hg ⟨f p, hreached p⟩ w (hf p w hw)
    exact Option.some.inj (hback.symm.trans hw)
  have hright : ∀ q, f ⟨g q, hreached' q⟩ = q := by
    intro q
    obtain ⟨w, hw⟩ := q.2
    have hforth := hf ⟨g q, hreached' q⟩ w (hg q w hw)
    exact Option.some.inj (hforth.symm.trans hw)
  let partner : {p // d.Reached p} ≃ {q // e.Reached q} :=
    { toFun := fun p => ⟨f p, hreached p⟩
      invFun := fun q => ⟨g q, hreached' q⟩
      left_inv := fun p => Subtype.ext (hleft p)
      right_inv := fun q => Subtype.ext (hright q) }
  refine ⟨⟨partner, fun w p => ⟨fun hw => ?_, hf p w⟩⟩⟩
  rw [← hleft p]
  exact hg ⟨f p, hreached p⟩ w hw

/-- Exactly the words with the property are read, and two of them lead to one state exactly if they
have the same key. -/
structure KeyedBy {κ : Type} (d : Dfa σ) (reads : List σ → Prop) (key : List σ → κ) : Prop where
  exists_run_iff : ∀ w, (∃ q, d.run d.start w = some q) ↔ reads w
  eq_iff : ∀ u v p q, d.run d.start u = some p → d.run d.start v = some q →
    (p = q ↔ key u = key v)

section Keys

variable {κ : Type} {reads : List σ → Prop} {key : List σ → κ}

theorem KeyedBy.tracks (hd : d.KeyedBy reads key) (he : e.KeyedBy reads key) : Tracks d e := by
  intro u v p hu hv
  obtain ⟨q, hq⟩ := (he.exists_run_iff u).2 ((hd.exists_run_iff u).1 ⟨p, hu⟩)
  obtain ⟨r, hr⟩ := (he.exists_run_iff v).2 ((hd.exists_run_iff v).1 ⟨p, hv⟩)
  have hqr : q = r := (he.eq_iff u v q r hq hr).2 ((hd.eq_iff u v p p hu hv).1 rfl)
  exact ⟨q, hq, hqr ▸ hr⟩

/-- Automata that read the same words differ in the numbers of the states if the same keys tell
these words apart in both. -/
theorem KeyedBy.nonempty_renumbering (hd : d.KeyedBy reads key) (he : e.KeyedBy reads key) :
    Nonempty (Renumbering d e) := (hd.tracks he).nonempty_renumbering (he.tracks hd)

end Keys

/-! ## What corresponds -/

namespace Renumbering

variable (f : Renumbering d e)

theorem start_iff (p : {p // d.Reached p}) :
    (f.toEquiv p : State) = e.start ↔ (p : State) = d.start := by
  have hnil := f.run_iff [] p
  rw [run_nil, run_nil, Option.some.injEq, Option.some.injEq] at hnil
  exact eq_comm.trans (hnil.trans eq_comm)

theorem successor_iff (p q : {p // d.Reached p}) :
    e.successor (f.toEquiv p) a = some (f.toEquiv q : State) ↔
      d.successor p a = some (q : State) := by
  obtain ⟨w, hw⟩ := p.2
  have hw' := (f.run_iff w p).2 hw
  have hlonger := f.run_iff (w ++ [a]) q
  rwa [run_append_of_some hw, run_append_of_some hw', run_singleton, run_singleton] at hlonger

/-- Where the languages are one, accepting states correspond. -/
theorem isFinal_eq (hlanguage : ∀ w, e.accepts w = d.accepts w) (p : {p // d.Reached p}) :
    e.isFinal (f.toEquiv p) = d.isFinal p := by
  obtain ⟨w, hw⟩ := p.2
  have hverdict := hlanguage w
  unfold accepts at hverdict
  rwa [hw, (f.run_iff w p).2 hw] at hverdict

end Renumbering

end Kleene.Dfa
