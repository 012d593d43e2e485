import AmongUs.Geometry.V2d
import Mathlib.Tactic.Linarith

/-!
The world of cells (`olc::World`).

The cells are one row-major vector, and every coordinate outside it is
answered with the same extra cell (`nullCell`). `GetCell` returns a
reference, so besides reading a cell (`getCell`) a caller can write to it
(`modifyCell`). Two coordinates of the map never share a cell, since the
index tells the row from the column (`index_inj`).
-/

namespace AmongUs

inductive Face where
  | floor | north | east | south | west | top
  deriving DecidableEq, Repr

@[ext]
structure SCell where
  wall : Bool := false
  id : Face → VI2d := fun _ => ⟨0, 0⟩

structure World where
  size : VI2d
  vCells : List SCell
  nullCell : SCell
  length_eq : vCells.length = (size.x * size.y).toNat

namespace World

def create (w h : ℤ) : World where
  size := ⟨w, h⟩
  vCells := List.replicate (w * h).toNat {}
  nullCell := {}
  length_eq := List.length_replicate

variable (w : World) {u v : VI2d}

def InRange (v : VI2d) : Prop := 0 ≤ v.x ∧ v.x < w.size.x ∧ 0 ≤ v.y ∧ v.y < w.size.y

instance (v : VI2d) : Decidable (w.InRange v) :=
  inferInstanceAs (Decidable (0 ≤ v.x ∧ v.x < w.size.x ∧ 0 ≤ v.y ∧ v.y < w.size.y))

def index (v : VI2d) : ℕ := (v.y * w.size.x + v.x).toNat

/-- The coordinates of the map, row by row. -/
def cells : List VI2d :=
  (List.range w.size.y.toNat).flatMap fun (y : ℕ) =>
    (List.range w.size.x.toNat).map fun (x : ℕ) => ⟨x, y⟩

/-- The cell that `GetCell` refers to. -/
def getCell (v : VI2d) : SCell :=
  if w.InRange v then w.vCells.getD (w.index v) w.nullCell else w.nullCell

/-- A write through the reference that `GetCell` returns. -/
def modifyCell (v : VI2d) (f : SCell → SCell) : World :=
  if w.InRange v then
    { w with
      vCells := w.vCells.modify (w.index v) f
      length_eq := by rw [List.length_modify, w.length_eq] }
  else { w with nullCell := f w.nullCell }

@[simp] theorem modifyCell_size (v : VI2d) (f : SCell → SCell) :
    (w.modifyCell v f).size = w.size := by
  unfold modifyCell
  split <;> rfl

variable {w}

@[simp] theorem inRange_modifyCell {f : SCell → SCell} :
    (w.modifyCell u f).InRange v ↔ w.InRange v := by
  unfold InRange
  rw [modifyCell_size]

theorem InRange.index_nonneg (h : w.InRange v) : 0 ≤ v.y * w.size.x + v.x :=
  have ⟨hx, hlt, hy, _⟩ := h
  add_nonneg (mul_nonneg hy (hx.trans hlt.le)) hx

/-- The index is one of the vector. -/
theorem InRange.index_lt (h : w.InRange v) : w.index v < w.vCells.length := by
  have hnonneg := h.index_nonneg
  obtain ⟨hx, hlt, hy, hlt'⟩ := h
  have hmul : v.y * w.size.x + v.x < w.size.x * w.size.y := by nlinarith
  rw [w.length_eq, index]
  omega

theorem index_inj (hu : w.InRange u) (hv : w.InRange v) (h : w.index u = w.index v) : u = v := by
  have hsum : u.y * w.size.x + u.x = v.y * w.size.x + v.x := by
    have hnu := hu.index_nonneg
    have hnv := hv.index_nonneg
    unfold index at h
    omega
  obtain ⟨hux, hux', -, -⟩ := hu
  obtain ⟨hvx, hvx', -, -⟩ := hv
  have hx : u.x = v.x := by
    have hmod := congrArg (· % w.size.x) hsum
    simpa [Int.emod_eq_of_lt hux hux', Int.emod_eq_of_lt hvx hvx'] using hmod
  have hpos : w.size.x ≠ 0 := by omega
  have hy : u.y = v.y := mul_right_cancel₀ hpos (by omega)
  exact V2d.ext hx hy

theorem getCell_modifyCell_self (f : SCell → SCell) :
    (w.modifyCell v f).getCell v = f (w.getCell v) := by
  by_cases hv : w.InRange v
  · have hlt := hv.index_lt
    rw [getCell, if_pos (inRange_modifyCell.mpr hv), getCell, if_pos hv, index, modifyCell_size]
    simp only [modifyCell, if_pos hv]
    rw [← index, List.getD_eq_getElem?_getD, List.getD_eq_getElem?_getD,
      List.getElem?_modify_eq, List.getElem?_eq_getElem hlt]
    rfl
  · rw [getCell, if_neg (mt inRange_modifyCell.mp hv), getCell, if_neg hv]
    simp [modifyCell, hv]

/-- A write to a cell of the map leaves the others. -/
theorem getCell_modifyCell_of_ne (f : SCell → SCell) (hu : w.InRange u) (h : u ≠ v) :
    (w.modifyCell u f).getCell v = w.getCell v := by
  by_cases hv : w.InRange v
  · rw [getCell, if_pos (inRange_modifyCell.mpr hv), getCell, if_pos hv, index, modifyCell_size]
    simp only [modifyCell, if_pos hu]
    rw [← index, List.getD_eq_getElem?_getD, List.getD_eq_getElem?_getD,
      List.getElem?_modify_ne _ _ fun hindex => h (index_inj hu hv hindex)]
  · rw [getCell, if_neg (mt inRange_modifyCell.mp hv), getCell, if_neg hv]
    simp [modifyCell, hu]

theorem mem_cells : v ∈ w.cells ↔ w.InRange v := by
  simp only [cells, InRange, List.mem_flatMap, List.mem_map, List.mem_range, V2d.ext_iff]
  constructor
  · rintro ⟨y, hy, x, hx, heqx, heqy⟩
    omega
  · rintro ⟨hx, hx', hy, hy'⟩
    exact ⟨v.y.toNat, by omega, v.x.toNat, by omega, by omega, by omega⟩

/-- Writing the same cell to a list of coordinates. -/
theorem foldl_modifyCell_size (c : SCell) (vs : List VI2d) :
    (vs.foldl (fun w v => w.modifyCell v fun _ => c) w).size = w.size := by
  induction vs generalizing w with
  | nil => rfl
  | cons u vs ih =>
      rw [List.foldl_cons, ih, modifyCell_size]

theorem getCell_foldl_modifyCell {c : SCell} {vs : List VI2d} (hvs : ∀ u ∈ vs, w.InRange u)
    (hv : v ∈ vs ∨ w.getCell v = c) :
    (vs.foldl (fun w v => w.modifyCell v fun _ => c) w).getCell v = c := by
  induction vs generalizing w with
  | nil => exact hv.resolve_left List.not_mem_nil
  | cons u vs ih =>
      refine ih (fun u' hu' => inRange_modifyCell.mpr (hvs u' (List.mem_cons_of_mem u hu'))) ?_
      by_cases h : u = v
      · subst h
        exact Or.inr (getCell_modifyCell_self _)
      · rw [getCell_modifyCell_of_ne _ (hvs u List.mem_cons_self) h]
        exact hv.imp_left fun hv => List.mem_of_ne_of_mem (Ne.symm h) hv

theorem getCell_create (a b : ℤ) (v : VI2d) : (create a b).getCell v = {} := by
  unfold getCell create
  dsimp only
  split
  · rw [List.getD_eq_getElem?_getD, List.getElem?_replicate]
    split <;> rfl
  · rfl

theorem wall_create {a b : ℤ} : ((create a b).getCell v).wall = false := by
  rw [getCell_create]

/-- A new world with a wall on one of its cells. -/
theorem wall_modifyCell_create_iff {a b : ℤ} (hu : (create a b).InRange u) :
    (((create a b).modifyCell u fun c => { c with wall := true }).getCell v).wall ↔ v = u := by
  by_cases h : u = v
  · subst h
    rw [getCell_modifyCell_self]
    exact iff_of_true rfl rfl
  · rw [getCell_modifyCell_of_ne _ hu h, wall_create]
    exact iff_of_false Bool.false_ne_true (Ne.symm h)

end World

end AmongUs
