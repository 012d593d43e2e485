import Mathlib.Algebra.Order.BigOperators.Group.Finset
import Mathlib.Algebra.Order.Field.Basic
import Mathlib.Tactic.Linarith

/-!
Facets of unit cells, seen from a direction.

A facet of a unit cell faces a direction when it is the end of the cell, on
its axis, that the direction points to. If one goes along the direction from
a point inside of such a facet and comes to a point inside of another, the
centre of the other one is further along the direction
(`Facet.dot_center_lt`). So the centres say which facet is in front, in any
number of dimensions.

The argument looks at one axis at a time. The cell of the second point is not
behind the one of the first, and the centre is further along wherever one of
the facets ends on the axis (`Along.mul_center`).
-/

namespace Facets

section

variable {K : Type*} [Zero K] [One K] [LT K] [DecidableLT K]

/-- The end of the unit interval that the direction points to. -/
def side (d : K) : K := if 0 < d then 1 else 0

theorem side_of_pos {d : K} (h : 0 < d) : side d = 1 := if_pos h

theorem side_of_not_pos {d : K} (h : ¬0 < d) : side d = 0 := if_neg h

end

variable {ι K : Type*} [Field K] [LinearOrder K]

/-- What a facet is on one axis: the coordinate `x` of a point inside, and
`c` of the centre. Either the facet ends there, or it spans the cell. -/
def Along (d : K) (ends : Bool) (m : ℤ) (x c : K) : Prop :=
  if ends then d ≠ 0 ∧ x = m + side d ∧ c = x else m < x ∧ x < m + 1 ∧ c = m + 1 / 2

/-- A facet of a unit cell, by its axis. -/
structure Facet (ι : Type*) where
  cell : ι → ℤ
  axis : ι

namespace Facet

variable [DecidableEq ι]

def center (f : Facet ι) (d : ι → K) (i : ι) : K :=
  f.cell i + if i = f.axis then side (d i) else 1 / 2

/-- The point is inside of the facet that faces the direction. -/
def Interior (f : Facet ι) (d x : ι → K) : Prop :=
  d f.axis ≠ 0 ∧ x f.axis = f.cell f.axis + side (d f.axis) ∧
    ∀ i, i ≠ f.axis → f.cell i < x i ∧ x i < f.cell i + 1

theorem Interior.along {f : Facet ι} {d x : ι → K} (h : f.Interior d x) (i : ι) :
    Along (d i) (i = f.axis) (f.cell i) (x i) (f.center d i) := by
  obtain ⟨hd, haxis, hspan⟩ := h
  by_cases hi : i = f.axis
  · subst hi
    simp [Along, center, hd, haxis]
  · obtain ⟨hlo, hhi⟩ := hspan i hi
    simp [Along, center, hi, hlo, hhi]

end Facet

variable [IsStrictOrderedRing K] {d x x' c c' δ : K} {m m' : ℤ} {ends ends' : Bool}

namespace Along

/-- The same axis, looked at from its other end. -/
theorem neg (h : Along d ends m x c) : Along (-d) ends (-m - 1) (-x) (-c) := by
  cases ends with
  | false =>
      obtain ⟨hlo, hhi, rfl⟩ := h
      refine ⟨?_, ?_, ?_⟩
      · push_cast
        linarith
      · push_cast
        linarith
      · push_cast
        linarith
  | true =>
      obtain ⟨hd, rfl, rfl⟩ := h
      refine ⟨neg_ne_zero.mpr hd, ?_, rfl⟩
      push_cast
      rcases lt_or_gt_of_ne hd with hneg | hpos
      · rw [side_of_not_pos hneg.not_gt, side_of_pos (neg_pos.mpr hneg)]
        linarith
      · rw [side_of_pos hpos, side_of_not_pos (neg_neg_of_pos hpos).not_gt]
        linarith

/-- Further along an axis comes no cell that is before. -/
theorem center_le (h : Along d ends m x c) (h' : Along d ends' m' x' c') (hd : 0 < d)
    (hx : x < x') : c ≤ c' ∧ ((ends || ends') = true → c < c') := by
  have hcell {a b : ℤ} (hab : (a : K) < b + 1) : (a : K) ≤ b := by
    exact_mod_cast Int.lt_add_one_iff.mp (by exact_mod_cast hab)
  cases ends with
  | false =>
      obtain ⟨hlo, hhi, rfl⟩ := h
      cases ends' with
      | false =>
          obtain ⟨hlo', hhi', rfl⟩ := h'
          have hm : (m : K) ≤ m' := hcell (by linarith)
          refine ⟨?_, nofun⟩
          linarith
      | true =>
          obtain ⟨-, rfl, rfl⟩ := h'
          rw [side_of_pos hd] at hx ⊢
          have hm : (m : K) ≤ m' := hcell (by linarith)
          have hlt : (m : K) + 1 / 2 < m' + 1 := by linarith
          exact ⟨hlt.le, fun _ => hlt⟩
  | true =>
      obtain ⟨-, rfl, rfl⟩ := h
      cases ends' with
      | false =>
          obtain ⟨hlo', hhi', rfl⟩ := h'
          rw [side_of_pos hd] at hx ⊢
          have hm : ((m + 1 : ℤ) : K) ≤ m' := hcell (by push_cast; linarith)
          push_cast at hm
          have hlt : (m : K) + 1 < m' + 1 / 2 := by linarith
          exact ⟨hlt.le, fun _ => hlt⟩
      | true =>
          obtain ⟨-, rfl, rfl⟩ := h'
          exact ⟨hx.le, fun _ => hx⟩

/-- The two directions of an axis. -/
theorem mul_center (h : Along d ends m x c) (h' : Along d ends' m' x' c') (hδ : 0 < δ)
    (hx : x' = x + δ * d) :
    d * c ≤ d * c' ∧ ((ends || ends') = true → d * c < d * c') := by
  rcases lt_trichotomy d 0 with hneg | rfl | hpos
  · have hlt : -x < -x' := by
      have hmul : δ * d < 0 := mul_neg_of_pos_of_neg hδ hneg
      linarith
    obtain ⟨hle, hstrict⟩ := h.neg.center_le h'.neg (neg_pos.mpr hneg) hlt
    refine ⟨mul_le_mul_of_nonpos_left (neg_le_neg_iff.mp hle) hneg.le, fun hends => ?_⟩
    exact mul_lt_mul_of_neg_left (neg_lt_neg_iff.mp (hstrict hends)) hneg
  · refine ⟨by rw [zero_mul, zero_mul], fun hends => ?_⟩
    rcases Bool.or_eq_true_iff.mp hends with rfl | rfl
    · exact absurd rfl h.1
    · exact absurd rfl h'.1
  · have hlt : x < x' := by
      have hmul : 0 < δ * d := mul_pos hδ hpos
      linarith
    obtain ⟨hle, hstrict⟩ := h.center_le h' hpos hlt
    exact ⟨mul_le_mul_of_nonneg_left hle hpos.le,
      fun hends => mul_lt_mul_of_pos_left (hstrict hends) hpos⟩

end Along

/-- **The facet in front.** Of two facets that a ray meets on their inside,
the second has its centre further along the ray. -/
theorem Facet.dot_center_lt [Fintype ι] [DecidableEq ι] {f f' : Facet ι} {d x x' : ι → K}
    (h : f.Interior d x) (h' : f'.Interior d x') (hδ : 0 < δ) (hx : ∀ i, x' i = x i + δ * d i) :
    ∑ i, d i * f.center d i < ∑ i, d i * f'.center d i := by
  apply Finset.sum_lt_sum
  · intro i _
    exact ((h.along i).mul_center (h'.along i) hδ (hx i)).1
  · refine ⟨f.axis, Finset.mem_univ _, ?_⟩
    apply ((h.along f.axis).mul_center (h'.along f.axis) hδ (hx f.axis)).2
    simp

end Facets
