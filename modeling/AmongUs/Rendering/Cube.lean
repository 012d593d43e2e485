import AmongUs.Geometry.Winding
import AmongUs.Map.LoadMap
import Mathlib.Data.Fin.VecNotation
import Mathlib.Tactic.Abel
import Mathlib.Tactic.FinCases
import Mathlib.Tactic.Positivity

/-!
The cubes of the picture, and the faces of them that are drawn.

`CreateCube` places a cube on its cell, turns it by two angles and projects
it; a face is visible where three of its projected corners wind the right
way. The sine and the cosine of an angle are two numbers here, which need
not belong to any angle, and the floats are exact.

All cubes have the same three edges in the picture, whatever their cell, and
a visible face is a matter of two edges (`visibleFaces_iff`).
That is why `RenderGameFg` can ask one cube for the faces of all of them
(`renderQuads_eq`).
-/

namespace AmongUs

/-- The cross product of the pixel game engine. -/
def V2d.cross {α : Type*} [Mul α] [Sub α] (v w : V2d α) : α := v.x * w.y - v.y * w.x

@[ext]
structure Vec3d where
  x : ℚ
  y : ℚ
  z : ℚ
  deriving DecidableEq

/-- What `std::sin` and `std::cos` give for an angle. -/
structure Angle where
  sin : ℚ
  cos : ℚ

structure SQuad where
  points : Fin 4 → Vec3d
  tile : V2d ℚ

namespace Rendering

/-- How the cubes are seen. -/
structure View where
  fAngle : Angle
  fPitch : Angle
  fScale : ℚ
  vCamera : Vec3d
  /-- `ScreenWidth` and `ScreenHeight`. -/
  screen : VI2d

def unitCube (fScale : ℚ) : Fin 8 → Vec3d :=
  ![⟨0, 0, 0⟩, ⟨fScale, 0, 0⟩, ⟨fScale, -fScale, 0⟩, ⟨0, -fScale, 0⟩,
    ⟨0, 0, fScale⟩, ⟨fScale, 0, fScale⟩, ⟨fScale, -fScale, fScale⟩, ⟨0, -fScale, fScale⟩]

def translate (w : View) (vCell : V2d ℚ) (v : Vec3d) : Vec3d where
  x := v.x + (vCell.x * w.fScale - w.vCamera.x)
  y := v.y + -w.vCamera.y
  z := v.z + (vCell.y * w.fScale - w.vCamera.z)

def rotateY (a : Angle) (v : Vec3d) : Vec3d where
  x := v.x * a.cos + v.z * a.sin
  y := v.y
  z := v.x * -a.sin + v.z * a.cos

def rotateX (a : Angle) (v : Vec3d) : Vec3d where
  x := v.x
  y := v.y * a.cos - v.z * a.sin
  z := v.y * a.sin + v.z * a.cos

/-- The orthographic projection, centered on the screen. -/
def project (screen : VI2d) (v : Vec3d) : Vec3d where
  x := v.x + screen.x * (1 / 2)
  y := v.y + screen.y * (1 / 2)
  z := v.z

def createCube (w : View) (vCell : V2d ℚ) (i : Fin 8) : Vec3d :=
  project w.screen (rotateX w.fPitch (rotateY w.fAngle (translate w vCell (unitCube w.fScale i))))

def checkNormal (cube : Fin 8 → Vec3d) (v1 v2 v3 : Fin 8) : Bool :=
  let a : V2d ℚ := ⟨(cube v1).x, (cube v1).y⟩
  let b : V2d ℚ := ⟨(cube v2).x, (cube v2).y⟩
  let c : V2d ℚ := ⟨(cube v3).x, (cube v3).y⟩
  (b - a).cross (c - a) > 0

/-- `bVisible` after the call. -/
def calculateVisibleFaces (cube : Fin 8 → Vec3d) : Face → Bool
  | .floor => checkNormal cube 4 0 1
  | .south => checkNormal cube 3 0 1
  | .north => checkNormal cube 6 5 4
  | .east => checkNormal cube 7 4 0
  | .west => checkNormal cube 2 1 5
  | .top => checkNormal cube 7 3 2

/-- The flags of the cube of a cell. -/
def visibleFaces (w : View) (vCell : V2d ℚ) : Face → Bool :=
  calculateVisibleFaces (createCube w vCell)

def makeFace (projCube : Fin 8 → Vec3d) (cell : SCell) (v1 v2 v3 v4 : Fin 8) (f : Face) : SQuad where
  points := ![projCube v1, projCube v2, projCube v3, projCube v4]
  tile := (cell.id f).map (↑)

/-- The corners of the cube that `GetFaceQuads` gives to `MakeFace`. -/
def faceCorners : Face → Fin 4 → Fin 8
  | .floor => ![4, 0, 1, 5]
  | .south => ![3, 0, 1, 2]
  | .north => ![6, 5, 4, 7]
  | .east => ![7, 4, 0, 3]
  | .west => ![2, 1, 5, 6]
  | .top => ![7, 3, 2, 6]

/-- What `GetFaceQuads` adds to `render`. -/
def getFaceQuads (world : World) (bVisible : Face → Bool) (w : View) (vCell : V2d ℚ) :
    List SQuad :=
  let projCube := createCube w vCell
  let cell := world.getCell (V2d.fin vCell).toInt
  if !cell.wall then
    if bVisible .floor then [makeFace projCube cell 4 0 1 5 .floor] else []
  else
    (if bVisible .south then [makeFace projCube cell 3 0 1 2 .south] else []) ++
    (if bVisible .north then [makeFace projCube cell 6 5 4 7 .north] else []) ++
    (if bVisible .east then [makeFace projCube cell 7 4 0 3 .east] else []) ++
    (if bVisible .west then [makeFace projCube cell 2 1 5 6 .west] else []) ++
    (if bVisible .top then [makeFace projCube cell 7 3 2 6 .top] else [])

/-- The view of a frame: the camera is above the player. -/
def frameView (vCharPos : V2d ℚ) (fCameraAngle fCameraPitch : Angle) (fCameraZoom : ℚ)
    (screen : VI2d) : View where
  fAngle := fCameraAngle
  fPitch := fCameraPitch
  fScale := fCameraZoom
  vCamera :=
    let vCameraPos := vCharPos * fCameraZoom
    ⟨vCameraPos.x, 0, vCameraPos.y⟩
  screen := screen

/-- The first two steps of the rendering: the faces are culled with one dummy
cube, and the quads of all cells are collected. -/
def renderQuads (world : World) (vCharPos : V2d ℚ) (fCameraAngle fCameraPitch : Angle)
    (fCameraZoom : ℚ) (screen : VI2d) : List SQuad :=
  let w := frameView vCharPos fCameraAngle fCameraPitch fCameraZoom screen
  let bVisible := visibleFaces w ⟨0, 0⟩
  world.cells.flatMap fun c => getFaceQuads world bVisible w (c.map (↑))

/-! ### The edges in the picture -/

def edgeX (w : View) : ℚ × ℚ := (w.fScale * w.fAngle.cos, w.fScale * w.fAngle.sin * w.fPitch.sin)

def edgeY (w : View) : ℚ × ℚ := (0, -w.fScale * w.fPitch.cos)

def edgeZ (w : View) : ℚ × ℚ := (w.fScale * w.fAngle.sin, -w.fScale * w.fAngle.cos * w.fPitch.sin)

/-- A corner, seen from the first one. -/
def corner (w : View) : Fin 8 → ℚ × ℚ :=
  ![0, edgeX w, edgeX w + edgeY w, edgeY w, edgeZ w, edgeX w + edgeZ w,
    edgeX w + edgeY w + edgeZ w, edgeY w + edgeZ w]

/-- A point on the screen. -/
def onScreen (v : Vec3d) : ℚ × ℚ := (v.x, v.y)

/-- Where a point of the cube is on the screen, seen from its first corner. -/
def flatten (w : View) (v : Vec3d) : ℚ × ℚ :=
  (v.x * w.fAngle.cos + v.z * w.fAngle.sin,
    v.y * w.fPitch.cos + (v.x * w.fAngle.sin - v.z * w.fAngle.cos) * w.fPitch.sin)

theorem flatten_unitCube (w : View) (i : Fin 8) :
    flatten w (unitCube w.fScale i) = corner w i := by
  fin_cases i <;> ext <;> simp [flatten, unitCube, corner, edgeX, edgeY, edgeZ] <;> ring

/-- The cell, the camera and the screen move all corners alike. -/
theorem onScreen_createCube (w : View) (vCell : V2d ℚ) (i : Fin 8) :
    onScreen (createCube w vCell i) = onScreen (createCube w vCell 0) + corner w i := by
  rw [← flatten_unitCube]
  ext
  · simp only [onScreen, createCube, project, rotateX, rotateY, translate, flatten, Prod.fst_add,
      unitCube, Matrix.cons_val_zero]
    ring
  · simp only [onScreen, createCube, project, rotateX, rotateY, translate, flatten, Prod.snd_add,
      unitCube, Matrix.cons_val_zero]
    ring

theorem checkNormal_iff {cube : Fin 8 → Vec3d} {v1 v2 v3 : Fin 8} :
    checkNormal cube v1 v2 v3 = true ↔
      0 < Winding.area (onScreen (cube v1)) (onScreen (cube v2)) (onScreen (cube v3)) :=
  decide_eq_true_iff

/-- The winding of three corners that follow one another on a face. -/
theorem checkNormal_createCube (w : View) (vCell : V2d ℚ) {v1 v2 v3 : Fin 8} {u v : ℚ × ℚ}
    (h1 : corner w v1 = corner w v2 + v) (h3 : corner w v3 = corner w v2 + u) :
    checkNormal (createCube w vCell) v1 v2 v3 = true ↔ 0 < Winding.cross u v := by
  rw [checkNormal_iff, onScreen_createCube w vCell v1, onScreen_createCube w vCell v2,
    onScreen_createCube w vCell v3, h1, h3, ← add_assoc, ← add_assoc]
  rw [Winding.area_corner rfl rfl]

/-- The two edges that decide about a face, as a number. -/
def normal (w : View) : Face → ℚ
  | .floor => Winding.cross (edgeX w) (edgeZ w)
  | .south => Winding.cross (edgeX w) (edgeY w)
  | .north => -Winding.cross (edgeX w) (edgeY w)
  | .east => -Winding.cross (edgeZ w) (edgeY w)
  | .west => Winding.cross (edgeZ w) (edgeY w)
  | .top => Winding.cross (edgeX w) (edgeZ w)

/-- **The faces of a cube.** Whether a face is visible depends on the edges
of the picture, and not on the cell. -/
theorem visibleFaces_iff (w : View) (vCell : V2d ℚ) (f : Face) :
    visibleFaces w vCell f = true ↔ 0 < normal w f := by
  cases f with
  | floor =>
      apply checkNormal_createCube w vCell (u := edgeX w) (v := edgeZ w)
      · exact (zero_add _).symm
      · exact (zero_add _).symm
  | south =>
      apply checkNormal_createCube w vCell (u := edgeX w) (v := edgeY w)
      · exact (zero_add _).symm
      · exact (zero_add _).symm
  | north =>
      rw [normal, ← Winding.cross_neg_left]
      apply checkNormal_createCube w vCell (u := -edgeX w) (v := edgeY w)
      · show edgeX w + edgeY w + edgeZ w = edgeX w + edgeZ w + edgeY w
        abel
      · show edgeZ w = edgeX w + edgeZ w + -edgeX w
        abel
  | east =>
      rw [normal, ← Winding.cross_neg_left]
      apply checkNormal_createCube w vCell (u := -edgeZ w) (v := edgeY w)
      · show edgeY w + edgeZ w = edgeZ w + edgeY w
        abel
      · show 0 = edgeZ w + -edgeZ w
        abel
  | west =>
      apply checkNormal_createCube w vCell (u := edgeZ w) (v := edgeY w)
      · rfl
      · rfl
  | top =>
      apply checkNormal_createCube w vCell (u := edgeX w) (v := edgeZ w)
      · rfl
      · show edgeX w + edgeY w = edgeY w + edgeX w
        abel

theorem visibleFaces_eq (w : View) (c c' : V2d ℚ) :
    visibleFaces w c = visibleFaces w c' := by
  funext f
  rw [Bool.eq_iff_iff, visibleFaces_iff, visibleFaces_iff]

/-- Of two faces that wind oppositely at most one is visible. -/
theorem not_visible_both {w : View} {f g : Face} (h : normal w f = -normal w g)
    (vCell : V2d ℚ) :
    ¬(visibleFaces w vCell f = true ∧
      visibleFaces w vCell g = true) := by
  rw [visibleFaces_iff, visibleFaces_iff, h]
  rintro ⟨hf, hg⟩
  exact lt_asymm hg (neg_pos.mp hf)

/-- **Culling with one cube.** The flags of the cube of the first cell are
those of every other cell; of two opposite walls at most one is visible; and
the floor is visible exactly when the top is. -/
theorem culling_valid (w : View) (vCell : V2d ℚ) :
    visibleFaces w ⟨0, 0⟩ = visibleFaces w vCell ∧
    ¬(visibleFaces w vCell .north = true ∧ visibleFaces w vCell .south = true) ∧
    ¬(visibleFaces w vCell .east = true ∧ visibleFaces w vCell .west = true) ∧
    visibleFaces w vCell .floor = visibleFaces w vCell .top := by
  refine ⟨visibleFaces_eq w _ _, not_visible_both rfl _, not_visible_both rfl _, ?_⟩
  rw [Bool.eq_iff_iff, visibleFaces_iff, visibleFaces_iff]
  rfl

/-- The quads are those that every cell would have drawn with its own cube. -/
theorem renderQuads_eq (world : World) (vCharPos : V2d ℚ) (fCameraAngle fCameraPitch : Angle)
    (fCameraZoom : ℚ) (screen : VI2d) :
    let w := frameView vCharPos fCameraAngle fCameraPitch fCameraZoom screen
    renderQuads world vCharPos fCameraAngle fCameraPitch fCameraZoom screen =
      world.cells.flatMap fun c =>
        getFaceQuads world (visibleFaces w (c.map (↑))) w (c.map (↑)) := by
  intro w
  refine List.flatMap_congr fun c _ => ?_
  rw [visibleFaces_eq w ⟨0, 0⟩ (c.map (↑))]

theorem length_ite_singleton {α : Type*} (b : Bool) (a : α) :
    (if b then [a] else []).length = b.toNat := by
  cases b <;> rfl

theorem toNat_add_toNat_le {a b : Bool} (h : ¬(a = true ∧ b = true)) :
    a.toNat + b.toNat ≤ 1 := by
  cases a <;> cases b <;> simp at h ⊢

/-- A cell is drawn with its floor, or with at most three faces of its wall. -/
theorem length_getFaceQuads_le (world : World) (w : View) (vCell c : V2d ℚ) :
    (getFaceQuads world (visibleFaces w vCell) w c).length ≤ 3 := by
  have hns := toNat_add_toNat_le (not_visible_both (w := w) (f := .north) (g := .south) rfl vCell)
  have hew := toNat_add_toNat_le (not_visible_both (w := w) (f := .east) (g := .west) rfl vCell)
  have hfloor := Bool.toNat_le (visibleFaces w vCell .floor)
  have htop := Bool.toNat_le (visibleFaces w vCell .top)
  dsimp only [getFaceQuads]
  split
  · rw [length_ite_singleton]
    omega
  · simp only [List.length_append, length_ite_singleton]
    omega

theorem filter_cons_eq {α : Type*} (q : α → Bool) (a : α) (as : List α) :
    (a :: as).filter q = (if q a then [a] else []) ++ as.filter q := by
  by_cases h : q a
  · rw [List.filter_cons_of_pos h, if_pos h]
    rfl
  · rw [List.filter_cons_of_neg h, if_neg h]
    rfl

/-- The tiles of the quads are those of the faces that `LoadMap` decides
about. -/
theorem map_tile_getFaceQuads (world : World) (bVisible : Face → Bool) (w : View)
    (vCell : V2d ℚ) :
    (getFaceQuads world bVisible w vCell).map SQuad.tile =
      (AmongUs.getFaceQuads bVisible (world.getCell (V2d.fin vCell).toInt)).map
        fun quad => quad.2.map (↑) := by
  have hface (f : Face) (q : SQuad) (cell : SCell) (hq : q.tile = (cell.id f).map (↑)) :
      (if bVisible f then [q] else []).map SQuad.tile =
        ((if bVisible f then [f] else []).map fun f => (f, cell.id f)).map
          fun quad => quad.2.map (↑) := by
    split
    · rw [List.map_singleton, hq]
      rfl
    · rfl
  unfold getFaceQuads AmongUs.getFaceQuads drawnFaces
  dsimp only
  generalize world.getCell (V2d.fin vCell).toInt = cell
  cases hwall : cell.wall with
  | false =>
      simp only [Bool.not_false, if_true, filter_cons_eq, List.filter_nil, List.append_nil]
      exact hface .floor _ cell rfl
  | true =>
      simp only [Bool.not_true, Bool.false_eq_true, if_false, filter_cons_eq, List.filter_nil,
        List.append_nil, List.map_append, ← List.append_assoc]
      rw [hface .south _ cell rfl, hface .north _ cell rfl, hface .east _ cell rfl,
        hface .west _ cell rfl, hface .top _ cell rfl]

/-- Seen under true angles and at some scale, the floors and the tops are
visible exactly when the sine of the pitch is negative. -/
theorem top_visible_iff (w : View) (vCell : V2d ℚ) (hscale : w.fScale ≠ 0)
    (hangle : w.fAngle.sin ^ 2 + w.fAngle.cos ^ 2 = 1) :
    visibleFaces w vCell .top = true ↔ w.fPitch.sin < 0 := by
  have hnormal : normal w .top = -w.fPitch.sin * w.fScale ^ 2 := by
    calc normal w .top
        = -w.fPitch.sin * w.fScale ^ 2 * (w.fAngle.sin ^ 2 + w.fAngle.cos ^ 2) := by
          simp only [normal, Winding.cross, edgeX, edgeZ]
          ring
      _ = -w.fPitch.sin * w.fScale ^ 2 := by rw [hangle, mul_one]
  rw [visibleFaces_iff, hnormal, mul_pos_iff_of_pos_right (by positivity)]
  exact neg_pos

end Rendering

end AmongUs
