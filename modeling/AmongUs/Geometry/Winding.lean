import Mathlib.Algebra.Ring.Prod
import Mathlib.Tactic.Ring

/-!
The winding of three points of the plane.

The area of a triangle is signed (and twice the usual one), and three
consecutive corners of a parallelogram have the area of its two edges,
wherever the parallelogram lies. So the sign of three projected corners of a
solid with parallel edges depends on the edges only, and it is the opposite
one where one of the edges is taken backwards.
-/

namespace Winding

variable {R : Type*} [CommRing R]

def cross (u v : R × R) : R := u.1 * v.2 - u.2 * v.1

/-- Twice the signed area of a triangle. -/
def area (a b c : R × R) : R := cross (b - a) (c - a)

theorem cross_neg_left (u v : R × R) : cross (-u) v = -cross u v := by
  simp only [cross, Prod.fst_neg, Prod.snd_neg]
  ring

/-- Three corners of a parallelogram, the second one between the others. -/
theorem area_corner {a b c u v : R × R} (ha : a = b + v) (hc : c = b + u) :
    area a b c = cross u v := by
  subst ha hc
  simp only [area, cross, Prod.fst_sub, Prod.snd_sub, Prod.fst_add, Prod.snd_add]
  ring

end Winding
