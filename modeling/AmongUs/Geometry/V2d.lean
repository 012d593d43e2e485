import AmongUs.Arithmetic.Extended
import Mathlib.Algebra.Field.Rat
import Mathlib.Algebra.Order.Ring.Rat

/-!
The vectors of the pixel game engine (`olc::v2d_generic`), with the
operators that the map and the collision code use. All of them work
component by component, also the product of two vectors and the quotient of
a number by a vector.

A float is a rational number or one of the values that a division by zero
gives (`VF2d`); an `int32_t` is an integer (`VI2d`).
-/

namespace AmongUs

@[ext]
structure V2d (α : Type*) where
  x : α
  y : α
  deriving DecidableEq, Repr

abbrev VI2d := V2d ℤ

abbrev VF2d := V2d (Extended ℚ)

namespace V2d

variable {α β : Type*}

instance [Add α] : Add (V2d α) := ⟨fun v w => ⟨v.x + w.x, v.y + w.y⟩⟩

instance [Sub α] : Sub (V2d α) := ⟨fun v w => ⟨v.x - w.x, v.y - w.y⟩⟩

instance [Mul α] : Mul (V2d α) := ⟨fun v w => ⟨v.x * w.x, v.y * w.y⟩⟩

instance [Mul α] : HMul (V2d α) α (V2d α) := ⟨fun v a => ⟨v.x * a, v.y * a⟩⟩

instance [Mul α] : HMul α (V2d α) (V2d α) := ⟨fun a v => ⟨a * v.x, a * v.y⟩⟩

instance [Div α] : HDiv (V2d α) α (V2d α) := ⟨fun v a => ⟨v.x / a, v.y / a⟩⟩

instance [Div α] : HDiv α (V2d α) (V2d α) := ⟨fun a v => ⟨a / v.x, a / v.y⟩⟩

def map (f : α → β) (v : V2d α) : V2d β := ⟨f v.x, f v.y⟩

/-- The exact floats. -/
def fin (v : V2d ℚ) : VF2d := v.map .fin

/-- The conversion of `vi2d` to `vf2d`. -/
def toFloat (v : VI2d) : VF2d := fin (v.map (↑))

/-- The conversion of `vf2d` to `vi2d`, which drops the fractional parts.
For a value that is no number the C++ conversion is undefined. -/
def toInt (v : VF2d) : VI2d :=
  v.map fun
    | .fin q => q.num.tdiv q.den
    | _ => 0

/-- The two axes exchanged. -/
def swap (v : V2d α) : V2d α := ⟨v.y, v.x⟩

@[simp] theorem add_x [Add α] (v w : V2d α) : (v + w).x = v.x + w.x := rfl

@[simp] theorem add_y [Add α] (v w : V2d α) : (v + w).y = v.y + w.y := rfl

@[simp] theorem sub_x [Sub α] (v w : V2d α) : (v - w).x = v.x - w.x := rfl

@[simp] theorem sub_y [Sub α] (v w : V2d α) : (v - w).y = v.y - w.y := rfl

@[simp] theorem mul_x [Mul α] (v w : V2d α) : (v * w).x = v.x * w.x := rfl

@[simp] theorem mul_y [Mul α] (v w : V2d α) : (v * w).y = v.y * w.y := rfl

@[simp] theorem mul_scalar_x [Mul α] (v : V2d α) (a : α) : (v * a).x = v.x * a := rfl

@[simp] theorem mul_scalar_y [Mul α] (v : V2d α) (a : α) : (v * a).y = v.y * a := rfl

@[simp] theorem div_scalar_x [Div α] (v : V2d α) (a : α) : (v / a).x = v.x / a := rfl

@[simp] theorem div_scalar_y [Div α] (v : V2d α) (a : α) : (v / a).y = v.y / a := rfl

@[simp] theorem scalar_div_x [Div α] (a : α) (v : V2d α) : (a / v).x = a / v.x := rfl

@[simp] theorem scalar_div_y [Div α] (a : α) (v : V2d α) : (a / v).y = a / v.y := rfl

@[simp] theorem fin_x (v : V2d ℚ) : (fin v).x = .fin v.x := rfl

@[simp] theorem fin_y (v : V2d ℚ) : (fin v).y = .fin v.y := rfl

@[simp] theorem fin_inj {v w : V2d ℚ} : fin v = fin w ↔ v = w := by
  simp [V2d.ext_iff]

theorem add_left_cancel {u v w : V2d ℚ} (h : u + v = u + w) : v = w :=
  V2d.ext (add_right_injective u.x (congrArg x h)) (add_right_injective u.y (congrArg y h))

theorem mul_right_cancel {v w : V2d ℚ} {a : ℚ} (ha : a ≠ 0) (h : v * a = w * a) : v = w :=
  V2d.ext (mul_right_cancel₀ ha (congrArg x h)) (mul_right_cancel₀ ha (congrArg y h))

theorem fin_add (v w : V2d ℚ) : fin v + fin w = fin (v + w) := rfl

theorem fin_sub (v w : V2d ℚ) : fin v - fin w = fin (v - w) := by
  ext <;> simp

theorem fin_mul_scalar (v : V2d ℚ) (a : ℚ) : fin v * (.fin a : Extended ℚ) = fin (v * a) := rfl

theorem fin_div_scalar {a : ℚ} (v : V2d ℚ) (ha : a ≠ 0) :
    fin v / (.fin a : Extended ℚ) = fin (v / a) := by
  ext <;> simp [Extended.fin_div_fin _ ha]

@[simp] theorem swap_x (v : V2d α) : v.swap.x = v.y := rfl

@[simp] theorem swap_y (v : V2d α) : v.swap.y = v.x := rfl

end V2d

end AmongUs
