import Mathlib.Algebra.Order.Field.Basic
import Mathlib.Order.Interval.Set.Basic
import Mathlib.Tactic.Linarith

/-!
A point that moves along one axis, and the slab between two bounds.

The point starts at `0` and is at `t * v` at time `t`; the slab reaches from
`lo` to `hi`. Seen in the direction of the motion, the point has `gap` to go
until it touches the slab and `rest` until it has left it, so with a speed
that is not zero it is in the slab exactly between `enter` and `leave`
(`times_eq_Icc`). A point that moves along two axes is in both slabs from
the later of the two entries to the earlier of the two exits.
-/

namespace Slab

variable {𝕜 : Type*} [Field 𝕜] [LinearOrder 𝕜]

def gap (lo hi v : 𝕜) : 𝕜 := if 0 ≤ v then lo else -hi

def rest (lo hi v : 𝕜) : 𝕜 := if 0 ≤ v then hi else -lo

/-- The bound that the point comes to. -/
def face (lo hi v : 𝕜) : 𝕜 := if 0 ≤ v then lo else hi

def enter (lo hi v : 𝕜) : 𝕜 := gap lo hi v / |v|

def leave (lo hi v : 𝕜) : 𝕜 := rest lo hi v / |v|

/-- The point is in the slab, and did not enter it just now. -/
def Within (lo hi v t : 𝕜) : Prop :=
  gap lo hi v < t * |v| ∧ t * |v| ≤ rest lo hi v ∧ (v = 0 → 0 < rest lo hi v)

/-- The point is not in the slab and does not come closer to it. -/
def Leaves (lo hi v : 𝕜) : Prop := (hi ≤ 0 ∧ 0 ≤ v) ∨ (0 ≤ lo ∧ v ≤ 0)

/-- The point starts in the slab, and not on a bound when it does not move. -/
def Level (lo hi v : 𝕜) : Prop := (lo ≤ 0 ∧ 0 ≤ hi) ∧ (v = 0 → lo < 0 ∧ 0 < hi)

/-- One step ago the point was not yet past the bound that it came to. -/
def Recent (lo hi v : 𝕜) : Prop := v ≠ 0 ∧ -|v| ≤ gap lo hi v

/-- The axis may be turned around; then the two bounds change places. -/
def turn (s : Bool) (v : 𝕜) : 𝕜 := if s then -v else v

def turnLo (s : Bool) (lo hi : 𝕜) : 𝕜 := if s then -hi else lo

def turnHi (s : Bool) (lo hi : 𝕜) : 𝕜 := if s then -lo else hi

/-- The times at which the point is in the slab. -/
def times (lo hi v : 𝕜) : Set 𝕜 := {t | lo ≤ t * v ∧ t * v ≤ hi}

variable {lo hi v t : 𝕜}

theorem gap_of_nonneg (hv : 0 ≤ v) : gap lo hi v = lo := if_pos hv

theorem gap_of_neg (hv : v < 0) : gap lo hi v = -hi := if_neg hv.not_ge

theorem rest_of_nonneg (hv : 0 ≤ v) : rest lo hi v = hi := if_pos hv

theorem rest_of_neg (hv : v < 0) : rest lo hi v = -lo := if_neg hv.not_ge

theorem face_of_nonneg (hv : 0 ≤ v) : face lo hi v = lo := if_pos hv

theorem face_of_neg (hv : v < 0) : face lo hi v = hi := if_neg hv.not_ge

theorem abs_turn (s : Bool) (v : 𝕜) : |turn s v| = |v| := by
  cases s with
  | false => rfl
  | true => exact abs_neg v

theorem level_zero_iff : Level lo hi (0 : 𝕜) ↔ lo < 0 ∧ 0 < hi :=
  ⟨fun h => h.2 rfl, fun h => ⟨⟨h.1.le, h.2.le⟩, fun _ => h⟩⟩

theorem Leaves.not_between (h : Leaves lo hi v) : ¬(lo < 0 ∧ 0 < hi) := by
  rintro ⟨hlo, hhi⟩
  rcases h with ⟨hle, -⟩ | ⟨hle, -⟩
  · exact hle.not_gt hhi
  · exact hle.not_gt hlo

variable [IsStrictOrderedRing 𝕜]

theorem gap_lt_rest (h : lo < hi) : gap lo hi v < rest lo hi v := by
  rcases le_or_gt 0 v with hv | hv
  · rwa [gap_of_nonneg hv, rest_of_nonneg hv]
  · rw [gap_of_neg hv, rest_of_neg hv]
    exact neg_lt_neg h

theorem enter_lt_leave (h : lo < hi) (hv : v ≠ 0) : enter lo hi v < leave lo hi v :=
  div_lt_div_of_pos_right (gap_lt_rest h) (abs_pos.mpr hv)

theorem enter_of_pos (hv : 0 < v) : enter lo hi v = lo / v := by
  rw [enter, gap_of_nonneg hv.le, abs_of_pos hv]

theorem enter_of_neg (hv : v < 0) : enter lo hi v = hi / v := by
  rw [enter, gap_of_neg hv, abs_of_neg hv, neg_div_neg_eq]

theorem leave_of_pos (hv : 0 < v) : leave lo hi v = hi / v := by
  rw [leave, rest_of_nonneg hv.le, abs_of_pos hv]

theorem leave_of_neg (hv : v < 0) : leave lo hi v = lo / v := by
  rw [leave, rest_of_neg hv, abs_of_neg hv, neg_div_neg_eq]

theorem mul_abs_eq_gap_iff (hv : v ≠ 0) : t * |v| = gap lo hi v ↔ t = enter lo hi v :=
  (eq_div_iff (abs_ne_zero.mpr hv)).symm

theorem mul_eq_face (ht : t * |v| = gap lo hi v) : t * v = face lo hi v := by
  rcases le_or_gt 0 v with hv | hv
  · rw [gap_of_nonneg hv, abs_of_nonneg hv] at ht
    rw [face_of_nonneg hv, ht]
  · rw [gap_of_neg hv, abs_of_neg hv] at ht
    rw [face_of_neg hv]
    linarith

theorem leave_nonneg_iff (hv : v ≠ 0) : 0 ≤ leave lo hi v ↔ 0 ≤ rest lo hi v := by
  rw [leave, le_div_iff₀ (abs_pos.mpr hv), zero_mul]

theorem within_iff (hv : v ≠ 0) : Within lo hi v t ↔ enter lo hi v < t ∧ t ≤ leave lo hi v := by
  rw [enter, leave, div_lt_iff₀ (abs_pos.mpr hv), le_div_iff₀ (abs_pos.mpr hv), Within]
  simp [hv]

theorem within_zero_iff : Within lo hi 0 t ↔ lo < 0 ∧ 0 < hi := by
  rw [Within, gap_of_nonneg le_rfl, rest_of_nonneg le_rfl, abs_zero, mul_zero]
  exact ⟨fun h => ⟨h.1, h.2.2 rfl⟩, fun h => ⟨h.1, h.2.le, fun _ => h.2⟩⟩

theorem times_eq_Icc (hv : v ≠ 0) : times lo hi v = Set.Icc (enter lo hi v) (leave lo hi v) := by
  ext t
  rcases lt_or_gt_of_ne hv with hneg | hpos
  · rw [enter_of_neg hneg, leave_of_neg hneg, Set.mem_Icc, div_le_iff_of_neg hneg,
      le_div_iff_of_neg hneg]
    exact and_comm
  · rw [enter_of_pos hpos, leave_of_pos hpos, Set.mem_Icc, div_le_iff₀ hpos, le_div_iff₀ hpos]
    exact Iff.rfl

theorem isLeast_enter (h : lo < hi) (hv : v ≠ 0) : IsLeast (times lo hi v) (enter lo hi v) := by
  rw [times_eq_Icc hv]
  exact isLeast_Icc (enter_lt_leave h hv).le

/-- The point touches a bound when it enters. -/
theorem enter_mul (lo hi : 𝕜) (hv : v ≠ 0) : enter lo hi v * v = lo ∨ enter lo hi v * v = hi := by
  rcases lt_or_gt_of_ne hv with hneg | hpos
  · right
    rw [enter_of_neg hneg, div_mul_cancel₀ _ hv]
  · left
    rw [enter_of_pos hpos, div_mul_cancel₀ _ hv]

/-- The point ends inside when the motion reaches the near bound, but not
the far one. -/
theorem between_iff : (lo < v ∧ v < hi) ↔ gap lo hi v < |v| ∧ |v| < rest lo hi v := by
  rcases le_or_gt 0 v with hv | hv
  · rw [gap_of_nonneg hv, rest_of_nonneg hv, abs_of_nonneg hv]
  · rw [gap_of_neg hv, rest_of_neg hv, abs_of_neg hv, neg_lt_neg_iff, neg_lt_neg_iff]
    exact and_comm

/-- The point starts inside, whatever its direction. -/
theorem zero_between_iff (v : 𝕜) : (lo < 0 ∧ 0 < hi) ↔ gap lo hi v < 0 ∧ 0 < rest lo hi v := by
  rcases le_or_gt 0 v with hv | hv
  · rw [gap_of_nonneg hv, rest_of_nonneg hv]
  · rw [gap_of_neg hv, rest_of_neg hv, neg_lt_zero, neg_pos]
    exact and_comm

theorem level_of_moving (hv : v ≠ 0) :
    Level lo hi v ↔ gap lo hi v ≤ 0 ∧ 0 ≤ rest lo hi v := by
  rw [Level, and_iff_left fun h => absurd h hv]
  rcases le_or_gt 0 v with hv | hv
  · rw [gap_of_nonneg hv, rest_of_nonneg hv]
  · rw [gap_of_neg hv, rest_of_neg hv, neg_nonpos, neg_nonneg]
    exact and_comm

theorem recent_iff (hv : v ≠ 0) : Recent lo hi v ↔ -1 ≤ enter lo hi v := by
  rw [Recent, enter, le_div_iff₀ (abs_pos.mpr hv), neg_one_mul, and_iff_right hv]

theorem Leaves.rest_nonpos (h : Leaves lo hi v) (hv : v ≠ 0) : rest lo hi v ≤ 0 := by
  rcases h with ⟨hhi, hv'⟩ | ⟨hlo, hv'⟩
  · rwa [rest_of_nonneg hv']
  · rw [rest_of_neg (lt_of_le_of_ne hv' hv)]
    exact neg_nonpos.mpr hlo

theorem leaves_mul_iff {e : 𝕜} (he : 0 < e) : Leaves lo hi (v * e) ↔ Leaves lo hi v := by
  have hnonpos : v * e ≤ 0 ↔ v ≤ 0 := by rw [← not_lt, mul_pos_iff_of_pos_right he, not_lt]
  rw [Leaves, mul_nonneg_iff_of_pos_right he, hnonpos, Leaves]

/-! Turning an axis around changes no time. -/

theorem turn_ne_zero (s : Bool) : turn s v ≠ 0 ↔ v ≠ 0 := by
  rw [← abs_ne_zero, abs_turn, abs_ne_zero]

theorem gap_turn (s : Bool) (hv : v ≠ 0) :
    gap (turnLo s lo hi) (turnHi s lo hi) (turn s v) = gap lo hi v := by
  cases s with
  | false => rfl
  | true =>
      simp only [turnLo, turnHi, turn, if_true]
      rcases lt_or_gt_of_ne hv with hneg | hpos
      · rw [gap_of_nonneg (neg_nonneg.mpr hneg.le), gap_of_neg hneg]
      · rw [gap_of_neg (neg_neg_of_pos hpos), gap_of_nonneg hpos.le, neg_neg]

theorem rest_turn (s : Bool) (hv : v ≠ 0) :
    rest (turnLo s lo hi) (turnHi s lo hi) (turn s v) = rest lo hi v := by
  cases s with
  | false => rfl
  | true =>
      simp only [turnLo, turnHi, turn, if_true]
      rcases lt_or_gt_of_ne hv with hneg | hpos
      · rw [rest_of_nonneg (neg_nonneg.mpr hneg.le), rest_of_neg hneg]
      · rw [rest_of_neg (neg_neg_of_pos hpos), rest_of_nonneg hpos.le, neg_neg]

theorem face_turn (s : Bool) (hv : v ≠ 0) :
    face (turnLo s lo hi) (turnHi s lo hi) (turn s v) = turn s (face lo hi v) := by
  cases s with
  | false => rfl
  | true =>
      simp only [turnLo, turnHi, turn, if_true]
      rcases lt_or_gt_of_ne hv with hneg | hpos
      · rw [face_of_nonneg (neg_nonneg.mpr hneg.le), face_of_neg hneg]
      · rw [face_of_neg (neg_neg_of_pos hpos), face_of_nonneg hpos.le]

theorem within_turn (s : Bool) :
    (Within (turnLo s lo hi) (turnHi s lo hi) (turn s v) t ∧
      0 ≤ rest (turnLo s lo hi) (turnHi s lo hi) (turn s v)) ↔
      Within lo hi v t ∧ 0 ≤ rest lo hi v := by
  rcases eq_or_ne v 0 with rfl | hv
  · cases s with
    | false => exact Iff.rfl
    | true =>
        simp only [turnLo, turnHi, turn, if_true, neg_zero, within_zero_iff,
          rest_of_nonneg le_rfl, neg_lt_zero, neg_pos, neg_nonneg]
        constructor
        · exact fun h => ⟨h.1.symm, h.1.1.le⟩
        · exact fun h => ⟨h.1.symm, h.1.1.le⟩
  · have hturn := (turn_ne_zero s).mpr hv
    simp only [Within, gap_turn s hv, rest_turn s hv, abs_turn, hv, hturn, false_implies]

end Slab
