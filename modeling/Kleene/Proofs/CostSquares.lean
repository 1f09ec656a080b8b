import Kleene.Correction.CostTable
import Kleene.Proofs.PathCosts

/-!
# Squares that are filled in place

The numbers in a square only ever get lower, and each one below the largest number is the cost of
some path.  When the ways through a place have been taken into account, no number is above the cost
of a path that passes only places up to this one, whatever the loops have changed in between.  What
a path is does not matter here: costs only have to add up when paths are put behind each other.
-/

namespace Kleene

/-! ## Sums with a largest number -/

section Saturation

variable {c d : Nat}

theorem of_saturatingAdd_lt (h : saturatingAdd c d < unreachableCost) :
    saturatingAdd c d = c + d ∧ c < unreachableCost ∧ d < unreachableCost := by
  unfold saturatingAdd unreachableCost at h ⊢
  omega

theorem finite?_eq_some_iff : finite? c = some d ↔ c ≠ unreachableCost ∧ c = d := by
  unfold finite?
  split <;> simp_all

end Saturation

namespace CostSquare

variable {k c d : Nat} {g g' g'' : CostSquare k} {i j m u v : Fin k}

/-! ## Reading and writing -/

theorem get_filled (c : Nat) (i j : Fin k) : (filled k c).get i j = c := by
  simp only [filled, get, Fin.getElem_fin, Vector.getElem_replicate]

theorem get_set (g : CostSquare k) (i j : Fin k) (c : Nat) (i' j' : Fin k) :
    (g.set i j c).get i' j' = if i = i' ∧ j = j' then c else g.get i' j' := by
  simp only [set, get, Fin.getElem_fin, Vector.getElem_set, Fin.ext_iff]
  by_cases hi : i.val = i'.val
  · obtain rfl := Fin.ext hi
    simp only [if_true, true_and, Vector.getElem_set]
  · simp only [hi, if_false, false_and]

/-- A square is below another one if no number in it is higher. -/
instance : Preorder (CostSquare k) := Preorder.lift get

theorem set_le (hc : c ≤ g.get i j) : g.set i j c ≤ g := by
  intro i' j'
  rw [get_set]
  split
  · rename_i heq
    rwa [← heq.1, ← heq.2]
  · exact Nat.le_refl _

theorem get_lower_le (g : CostSquare k) (i j : Fin k) (c : Nat) : (g.lower i j c).get i j ≤ c := by
  unfold lower
  split
  · rw [get_set, if_pos ⟨rfl, rfl⟩]
  · rename_i hlt
    exact Nat.not_lt.1 hlt

/-! ## Soundness -/

/-- No number is above the largest one, and those below it are costs of paths. -/
def Sound (S : Fin k → Fin k → Set Nat) (g : CostSquare k) : Prop :=
  ∀ i j, g.get i j ≤ unreachableCost ∧ (g.get i j < unreachableCost → g.get i j ∈ S i j)

variable {S : Fin k → Fin k → Set Nat}

theorem sound_filled (S : Fin k → Fin k → Set Nat) : Sound S (filled k unreachableCost) := by
  intro i j
  rw [get_filled]
  exact ⟨Nat.le_refl _, fun h => absurd h (Nat.lt_irrefl _)⟩

theorem Sound.set (h : Sound S g) (hle : c ≤ unreachableCost)
    (hc : c < unreachableCost → c ∈ S i j) : Sound S (g.set i j c) := by
  intro i' j'
  rw [get_set]
  split
  · rename_i heq
    rw [← heq.1, ← heq.2]
    exact ⟨hle, hc⟩
  · exact h i' j'

/-- The second square is sound and below the first one. -/
structure Improves (S : Fin k → Fin k → Set Nat) (g g' : CostSquare k) : Prop where
  le : g' ≤ g
  sound : Sound S g'

theorem Sound.improves (h : Sound S g) : Improves S g g := ⟨le_refl g, h⟩

theorem Improves.trans (h : Improves S g g') (h' : Improves S g' g'') : Improves S g g'' :=
  ⟨h'.le.trans h.le, h'.sound⟩

theorem Sound.lower (h : Sound S g) (hc : c < unreachableCost → c ∈ S i j) :
    Improves S g (g.lower i j c) := by
  unfold CostSquare.lower
  split
  · rename_i hlt
    exact ⟨set_le (Nat.le_of_lt hlt), h.set (Nat.le_of_lt (hlt.trans_le (h i j).1)) hc⟩
  · exact h.improves

/-- A loop in which each pass improves the square does so as a whole.  What a pass has brought about
and lower numbers cannot undo holds in the end. -/
theorem Sound.foldl {α : Type} {f : CostSquare k → α → CostSquare k} {l : List α}
    {Q : α → CostSquare k → Prop} (hkeep : ∀ x g g', g' ≤ g → Q x g → Q x g')
    (hstep : ∀ g', Improves S g g' → ∀ x ∈ l, Improves S g' (f g' x) ∧ Q x (f g' x))
    (h : Sound S g) : Improves S g (l.foldl f g) ∧ ∀ x ∈ l, Q x (l.foldl f g) := by
  induction l using List.reverseRecOn with
  | nil => exact ⟨h.improves, fun x hx => by cases hx⟩
  | append_singleton l x ih =>
    obtain ⟨himproves, hdone⟩ := ih fun g' hg' y hy => hstep g' hg' y (List.mem_append_left _ hy)
    obtain ⟨hlast, hx⟩ := hstep _ himproves x (List.mem_append_right _ List.mem_cons_self)
    rw [List.foldl_append, List.foldl_cons, List.foldl_nil]
    refine ⟨himproves.trans hlast, List.forall_mem_append.2 ⟨fun y hy => ?_, ?_⟩⟩
    · exact hkeep y _ _ hlast.le (hdone y hy)
    · exact List.forall_mem_singleton.2 hx

/-- A loop over one row that puts new costs in place of higher ones. -/
theorem Sound.foldl_lower {cost : CostSquare k → Fin k → Nat} {bound : Fin k → Nat} (h : Sound S g)
    (hcost : ∀ g', Improves S g g' → ∀ j, cost g' j < unreachableCost → cost g' j ∈ S i j)
    (hbound : ∀ g', Improves S g g' → ∀ j, cost g' j ≤ bound j) :
    Improves S g ((List.finRange k).foldl (fun g j => g.lower i j (cost g j)) g) ∧
      ∀ j, ((List.finRange k).foldl (fun g j => g.lower i j (cost g j)) g).get i j ≤ bound j := by
  obtain ⟨himproves, hdone⟩ := h.foldl (l := List.finRange k) (Q := fun j g' => g'.get i j ≤ bound j)
    (fun j g g' hle hj => (hle i j).trans hj) fun g' hg' j _ =>
      ⟨hg'.sound.lower (hcost g' hg' j), (get_lower_le _ _ _ _).trans (hbound g' hg' j)⟩
  exact ⟨himproves, fun j => hdone j (List.mem_finRange j)⟩

/-- A loop over all rows, each of which comes to be low enough. -/
theorem Sound.foldl_rows {f : CostSquare k → Fin k → CostSquare k} {bound : Fin k → Fin k → Nat}
    (h : Sound S g)
    (hrow : ∀ g', Improves S g g' → ∀ i,
      Improves S g' (f g' i) ∧ ∀ j, (f g' i).get i j ≤ bound i j) :
    Improves S g ((List.finRange k).foldl f g) ∧
      ∀ i j, ((List.finRange k).foldl f g).get i j ≤ bound i j := by
  obtain ⟨himproves, hdone⟩ := h.foldl (l := List.finRange k)
    (Q := fun i g' => ∀ j, g'.get i j ≤ bound i j)
    (fun i g g' hle hi j => (hle i j).trans (hi j)) fun g' hg' i _ => hrow g' hg' i
  exact ⟨himproves, fun i j => hdone i (List.mem_finRange i) j⟩

/-- If each number is a lower bound of the costs of paths, and some path has a cost below the
largest number if there is a path at all, then the finite numbers are the least costs. -/
theorem Sound.minimum (h : Sound S g) (hle : ∀ c ∈ S i j, g.get i j ≤ c)
    (hfit : ∀ c ∈ S i j, ∃ c' ∈ S i j, c' < unreachableCost) :
    Minimum (S i j) (finite? (g.get i j)) := by
  constructor
  · intro c hc
    obtain ⟨hne, rfl⟩ := finite?_eq_some_iff.1 hc
    exact (h i j).2 (Nat.lt_of_le_of_ne (h i j).1 hne)
  · intro c hc
    obtain ⟨c', hc', hlt⟩ := hfit c hc
    have hne : g.get i j ≠ unreachableCost := Nat.ne_of_lt ((hle c' hc').trans_lt hlt)
    exact ⟨_, finite?_eq_some_iff.2 ⟨hne, rfl⟩, hle c hc⟩

/-- Staying costs nothing. -/
theorem sound_diagonal (hrefl : ∀ i, 0 ∈ S i i) :
    Sound S (diagonal k) ∧ ∀ i, (diagonal k).get i i ≤ 0 := by
  obtain ⟨himproves, hdone⟩ := Sound.foldl (f := fun g i => g.set i i 0) (l := List.finRange k)
    (Q := fun i g => g.get i i ≤ 0) (fun i g g' hle hi => (hle i i).trans hi)
    (fun g' hg' i _ => ⟨⟨set_le (Nat.zero_le _), hg'.sound.set (Nat.zero_le _) fun _ => hrefl i⟩, by
      rw [get_set, if_pos ⟨rfl, rfl⟩]⟩) (sound_filled S)
  exact ⟨himproves.sound, fun i => hdone i (List.mem_finRange i)⟩

/-! ## Ways through places -/

/-- The costs of paths add up when the paths are put behind each other. -/
def Composable (S : Fin k → Fin k → Set Nat) : Prop :=
  ∀ i m j c d, c ∈ S i m → d ∈ S m j → c + d ∈ S i j

/-- All ways through a place from one row are taken into account. -/
theorem relaxRow_spec (hS : Composable S) (h : Sound S g) (m i : Fin k) :
    Improves S g (g.relaxRow m i) ∧
      ∀ j, (g.relaxRow m i).get i j ≤ g.get i m + g.get m j := by
  unfold relaxRow
  split
  · rename_i hnone
    refine ⟨h.improves, fun j => ?_⟩
    rw [hnone]
    exact (h i j).1.trans (Nat.le_add_right _ _)
  · refine h.foldl_lower (fun g' hg' j hlt => ?_) fun g' hg' j => ?_
    · obtain ⟨hsum, hbefore, hafter⟩ := of_saturatingAdd_lt hlt
      rw [hsum]
      exact hS i m j _ _ ((hg'.sound i m).2 hbefore) ((hg'.sound m j).2 hafter)
    · -- the numbers may have become lower since the loop began
      exact (saturatingAdd_le _ _).trans (Nat.add_le_add (hg'.le i m) (hg'.le m j))

/-- All ways through a place are taken into account. -/
theorem relaxThrough_spec (hS : Composable S) (h : Sound S g) (m : Fin k) :
    Improves S g (g.relaxThrough m) ∧
      ∀ i j, (g.relaxThrough m).get i j ≤ g.get i m + g.get m j := by
  refine h.foldl_rows fun g' hg' i => ?_
  obtain ⟨hrow, hthrough⟩ := relaxRow_spec hS hg'.sound m i
  exact ⟨hrow, fun j => (hthrough j).trans (Nat.add_le_add (hg'.le i m) (hg'.le m j))⟩

/-- The costs of paths that pass only given places between their ends. -/
inductive Within (arc : Fin k → Fin k → Nat → Prop) (done : List (Fin k)) :
    Fin k → Fin k → Nat → Prop
  | refl (i : Fin k) : Within arc done i i 0
  | arc {i j : Fin k} {c : Nat} : arc i j c → Within arc done i j c
  | join {i m j : Fin k} {c d : Nat} : m ∈ done → Within arc done i m c →
      Within arc done m j d → Within arc done i j (c + d)

variable {arc : Fin k → Fin k → Nat → Prop} {done : List (Fin k)}

/-- A path that may pass one more place does not pass it, or it leads there and goes on without
passing it again; what it does in between can be left out. -/
theorem Within.cases_concat (h : Within arc (done ++ [m]) i j c) : Within arc done i j c ∨
    ∃ a b, Within arc done i m a ∧ Within arc done m j b ∧ a + b ≤ c := by
  induction h with
  | refl i => exact .inl (.refl i)
  | arc h => exact .inl (.arc h)
  | @join i l j c d hl _ _ ihc ihd =>
    rcases List.mem_append.1 hl with hl | hl
    · rcases ihc with hc | ⟨a, b, ha, hb, hab⟩
      · rcases ihd with hd | ⟨a', b', ha', hb', hab'⟩
        · exact .inl (.join hl hc hd)
        · exact .inr ⟨c + a', b', .join hl hc ha', hb', by omega⟩
      · rcases ihd with hd | ⟨a', b', ha', hb', hab'⟩
        · exact .inr ⟨a, b + d, ha, .join hl hb hd, by omega⟩
        · exact .inr ⟨a, b', ha, hb', by omega⟩
    · -- the two parts meet in the new place
      obtain rfl := List.mem_singleton.1 hl
      have hbefore : ∃ a, Within arc done i l a ∧ a ≤ c := by
        rcases ihc with hc | ⟨a, b, ha, -, hab⟩
        · exact ⟨c, hc, Nat.le_refl c⟩
        · exact ⟨a, ha, by omega⟩
      have hafter : ∃ b, Within arc done l j b ∧ b ≤ d := by
        rcases ihd with hd | ⟨a, b, -, hb, hab⟩
        · exact ⟨d, hd, Nat.le_refl d⟩
        · exact ⟨b, hb, by omega⟩
      obtain ⟨a, ha, hac⟩ := hbefore
      obtain ⟨b, hb, hbd⟩ := hafter
      exact .inr ⟨a, b, ha, hb, Nat.add_le_add hac hbd⟩

/-- No number is above the cost of a path that passes only given places. -/
def Covers (arc : Fin k → Fin k → Nat → Prop) (done : List (Fin k)) (g : CostSquare k) : Prop :=
  ∀ i j c, Within arc done i j c → g.get i j ≤ c

theorem covers_nil (hrefl : ∀ i, g.get i i ≤ 0) (harc : ∀ i j c, arc i j c → g.get i j ≤ c) :
    Covers arc [] g := by
  intro i j c h
  cases h with
  | refl => exact hrefl i
  | arc h => exact harc i j c h
  | join hm => cases hm

/-- One more place may be passed when the ways through it have been taken into account. -/
theorem Covers.concat (h : Covers arc done g) (hle : g' ≤ g)
    (hm : ∀ i j, g'.get i j ≤ g.get i m + g.get m j) : Covers arc (done ++ [m]) g' := by
  intro i j c hc
  rcases hc.cases_concat with hc | ⟨a, b, ha, hb, hab⟩
  · exact (hle i j).trans (h i j c hc)
  · exact (hm i j).trans ((Nat.add_le_add (h i m a ha) (h m j b hb)).trans hab)

/-- Place by place the square comes to cover all paths. -/
theorem cheapest_spec (hS : Composable S) (h : Sound S g) (hg : Covers arc [] g) :
    Sound S g.cheapest ∧ Covers arc (List.finRange k) g.cheapest := by
  unfold cheapest
  generalize List.finRange k = done
  induction done using List.reverseRecOn with
  | nil => exact ⟨h, hg⟩
  | append_singleton done m ih =>
    obtain ⟨hsound, hcovers⟩ := ih
    obtain ⟨himproves, hm⟩ := relaxThrough_spec hS hsound m
    rw [List.foldl_append, List.foldl_cons, List.foldl_nil]
    exact ⟨himproves.sound, hcovers.concat himproves.le hm⟩

/-! ## Ways over a transition -/

section Crossing

variable {distance : CostSquare k}
variable (hS : ∀ i j, distance.get i u < unreachableCost → distance.get v j < unreachableCost →
  distance.get i u + 1 + distance.get v j ∈ S i j)
include hS

theorem crossRow_spec (h : Sound S g) (i : Fin k) : Improves S g (distance.crossRow u v g i) ∧
    ∀ j, (distance.crossRow u v g i).get i j ≤ distance.get i u + 1 + distance.get v j := by
  unfold crossRow
  dsimp only
  split
  · rename_i hnone
    refine ⟨h.improves, fun j => ?_⟩
    rw [hnone, Nat.add_assoc]
    exact (h i j).1.trans (Nat.le_add_right _ _)
  · refine h.foldl_lower (fun g' _ j hlt => ?_) fun g' _ j => ?_
    · obtain ⟨hsum, hcrossed, hafter⟩ := of_saturatingAdd_lt hlt
      obtain ⟨hstep, hbefore, -⟩ := of_saturatingAdd_lt hcrossed
      rw [hsum, hstep]
      exact hS i j hbefore hafter
    · exact (saturatingAdd_le _ _).trans (Nat.add_le_add_right (saturatingAdd_le _ _) _)

theorem cross_spec (h : Sound S g) : Improves S g (distance.cross u v g) ∧
    ∀ i j, (distance.cross u v g).get i j ≤ distance.get i u + 1 + distance.get v j :=
  h.foldl_rows fun _ hg' i => crossRow_spec hS hg'.sound i

end Crossing

end CostSquare

end Kleene
