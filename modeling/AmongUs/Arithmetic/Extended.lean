import Mathlib.Algebra.Order.Field.Basic

/-!
An ordered field with the two infinities and the not-a-number of IEEE
arithmetic, for programs whose float arithmetic is read as exact.

Every operation on two finite numbers is the one of the field, except the
division by zero. There is one zero, and a quotient by it is the infinity of
the numerator's sign, so `0 / 0` is not a number. A comparison with
not-a-number is false, and `max` and `min` are those of the C++ standard
library, which give the first argument when the comparison is false.
-/

inductive Extended (𝕜 : Type*) where
  | fin (x : 𝕜)
  | posInf
  | negInf
  | nan
  deriving DecidableEq

namespace Extended

variable {𝕜 : Type*}

section Order

variable [LinearOrder 𝕜]

protected def lt : Extended 𝕜 → Extended 𝕜 → Prop
  | nan, _ | _, nan => False
  | fin x, fin y => x < y
  | posInf, _ | _, negInf => False
  | negInf, _ | _, posInf => True

instance : LT (Extended 𝕜) := ⟨Extended.lt⟩

instance : LE (Extended 𝕜) := ⟨fun x y => x < y ∨ x = y ∧ x ≠ nan⟩

instance : DecidableLT (Extended 𝕜)
  | fin x, fin y => inferInstanceAs (Decidable (x < y))
  | nan, nan | nan, fin _ | nan, posInf | nan, negInf
  | fin _, nan | posInf, nan | negInf, nan
  | posInf, fin _ | posInf, posInf | posInf, negInf
  | fin _, negInf | negInf, negInf => .isFalse id
  | negInf, fin _ | negInf, posInf | fin _, posInf => .isTrue trivial

instance : DecidableLE (Extended 𝕜) := fun x y =>
  inferInstanceAs (Decidable (x < y ∨ x = y ∧ x ≠ nan))

instance : Max (Extended 𝕜) := ⟨fun x y => if x < y then y else x⟩

instance : Min (Extended 𝕜) := ⟨fun x y => if y < x then y else x⟩

@[simp] theorem fin_lt_fin {x y : 𝕜} : fin x < fin y ↔ x < y := Iff.rfl

@[simp] theorem fin_le_fin {x y : 𝕜} : fin x ≤ fin y ↔ x ≤ y := by
  rw [le_iff_lt_or_eq]
  exact or_congr Iff.rfl (by simp)

@[simp] theorem negInf_lt_fin (x : 𝕜) : negInf < fin x := trivial

@[simp] theorem fin_lt_posInf (x : 𝕜) : fin x < posInf := trivial

@[simp] theorem negInf_lt_posInf : (negInf : Extended 𝕜) < posInf := trivial

@[simp] theorem not_posInf_lt (x : Extended 𝕜) : ¬posInf < x := by
  cases x <;> exact id

@[simp] theorem not_lt_negInf (x : Extended 𝕜) : ¬x < negInf := by
  cases x <;> exact id

@[simp] theorem not_nan_lt (x : Extended 𝕜) : ¬nan < x := by
  cases x <;> exact id

@[simp] theorem not_lt_nan (x : Extended 𝕜) : ¬x < nan := by
  cases x <;> exact id

protected theorem lt_asymm {x y : Extended 𝕜} (h : x < y) : ¬y < x := by
  cases x <;> cases y <;> simp at h ⊢
  exact h.le

protected theorem lt_trichotomy {x y : Extended 𝕜} (hx : x ≠ nan) (hy : y ≠ nan) :
    x < y ∨ x = y ∨ y < x := by
  cases x <;> cases y <;> simp at hx hy ⊢
  exact trichotomous_of (· < ·) _ _

theorem max_def (x y : Extended 𝕜) : max x y = if x < y then y else x := rfl

theorem min_def (x y : Extended 𝕜) : min x y = if y < x then y else x := rfl

@[simp] theorem max_fin_fin (x y : 𝕜) : max (fin x) (fin y) = fin (max x y) := by
  rw [max_def]
  split
  · next hlt => rw [max_eq_right (fin_lt_fin.mp hlt).le]
  · next hle => rw [max_eq_left (not_lt.mp fun hlt => hle (fin_lt_fin.mpr hlt))]

@[simp] theorem min_fin_fin (x y : 𝕜) : min (fin x) (fin y) = fin (min x y) := by
  rw [min_def]
  split
  · next hlt => rw [min_eq_right (fin_lt_fin.mp hlt).le]
  · next hle => rw [min_eq_left (not_lt.mp fun hlt => hle (fin_lt_fin.mpr hlt))]

@[simp] theorem max_negInf_fin (x : 𝕜) : max negInf (fin x) = fin x := if_pos (negInf_lt_fin x)

@[simp] theorem min_posInf_fin (x : 𝕜) : min posInf (fin x) = fin x := if_pos (fin_lt_posInf x)

protected theorem max_comm {x y : Extended 𝕜} (hx : x ≠ nan) (hy : y ≠ nan) :
    max x y = max y x := by
  rw [max_def, max_def]
  rcases Extended.lt_trichotomy hx hy with hlt | rfl | hgt
  · rw [if_pos hlt, if_neg (Extended.lt_asymm hlt)]
  · rfl
  · rw [if_neg (Extended.lt_asymm hgt), if_pos hgt]

protected theorem min_comm {x y : Extended 𝕜} (hx : x ≠ nan) (hy : y ≠ nan) :
    min x y = min y x := by
  rw [min_def, min_def]
  rcases Extended.lt_trichotomy hx hy with hlt | rfl | hgt
  · rw [if_neg (Extended.lt_asymm hlt), if_pos hlt]
  · rfl
  · rw [if_pos hgt, if_neg (Extended.lt_asymm hgt)]

end Order

section Arithmetic

variable [Field 𝕜]

instance : One (Extended 𝕜) := ⟨fin 1⟩

protected def neg : Extended 𝕜 → Extended 𝕜
  | fin x => fin (-x)
  | posInf => negInf
  | negInf => posInf
  | nan => nan

instance : Neg (Extended 𝕜) := ⟨Extended.neg⟩

protected def add : Extended 𝕜 → Extended 𝕜 → Extended 𝕜
  | nan, _ | _, nan => nan
  | fin x, fin y => fin (x + y)
  | fin _, y => y
  | x, fin _ => x
  | posInf, posInf => posInf
  | negInf, negInf => negInf
  | posInf, negInf | negInf, posInf => nan

instance : Add (Extended 𝕜) := ⟨Extended.add⟩

instance : Sub (Extended 𝕜) := ⟨fun x y => x + -y⟩

theorem one_def : (1 : Extended 𝕜) = fin 1 := rfl

@[simp] theorem fin_add_fin (x y : 𝕜) : fin x + fin y = fin (x + y) := rfl

@[simp] theorem fin_sub_fin (x y : 𝕜) : fin x - fin y = fin (x - y) :=
  congrArg fin (sub_eq_add_neg x y).symm

variable [LinearOrder 𝕜]

/-- The infinity of the sign of a number. -/
def infOf (x : 𝕜) : Extended 𝕜 :=
  if 0 < x then posInf else if x < 0 then negInf else nan

protected def mul : Extended 𝕜 → Extended 𝕜 → Extended 𝕜
  | nan, _ | _, nan => nan
  | fin x, fin y => fin (x * y)
  | fin x, posInf | posInf, fin x => infOf x
  | fin x, negInf | negInf, fin x => infOf (-x)
  | posInf, posInf | negInf, negInf => posInf
  | posInf, negInf | negInf, posInf => negInf

instance : Mul (Extended 𝕜) := ⟨Extended.mul⟩

protected def div : Extended 𝕜 → Extended 𝕜 → Extended 𝕜
  | nan, _ | _, nan => nan
  | fin x, fin y => if y = 0 then infOf x else fin (x / y)
  | fin _, posInf | fin _, negInf => fin 0
  | posInf, fin y => if y < 0 then negInf else posInf
  | negInf, fin y => if y < 0 then posInf else negInf
  | posInf, posInf | posInf, negInf | negInf, posInf | negInf, negInf => nan

instance : Div (Extended 𝕜) := ⟨Extended.div⟩

protected def abs : Extended 𝕜 → Extended 𝕜
  | fin x => fin |x|
  | posInf | negInf => posInf
  | nan => nan

@[simp] theorem fin_mul_fin (x y : 𝕜) : fin x * fin y = fin (x * y) := rfl

@[simp] theorem fin_mul_posInf (x : 𝕜) : fin x * posInf = infOf x := rfl

theorem fin_div_fin {y : 𝕜} (x : 𝕜) (hy : y ≠ 0) : fin x / fin y = fin (x / y) := if_neg hy

theorem fin_div_zero (x : 𝕜) : fin x / fin 0 = infOf x := if_pos rfl

theorem infOf_of_pos {x : 𝕜} (hx : 0 < x) : infOf x = posInf := if_pos hx

theorem infOf_of_neg {x : 𝕜} (hx : x < 0) : infOf x = negInf := by
  rw [infOf, if_neg hx.not_gt, if_pos hx]

theorem infOf_ne_fin (x y : 𝕜) : infOf x ≠ fin y := by
  unfold infOf
  split_ifs <;> simp

@[simp] theorem infOf_zero : infOf (0 : 𝕜) = nan := by simp [infOf]

end Arithmetic

end Extended
