import AmongUs.Geometry.Facets
import AmongUs.Rendering.Cube
import AmongUs.Sorting.SortedFold
import Mathlib.Algebra.BigOperators.Fin
import Mathlib.Tactic.LinearCombination

/-!
The order in which the quads are drawn.

`RenderGameFg` sorts the quads by the mean depth of their corners and draws
them one over the other. Every quad is a facet of a unit cell that faces the
viewer: a floor is the top of a cell below the map. The corners go to the
screen by a rotation, so two points that meet on the screen differ along the
direction of the viewer, and then the mean depths are in the order of the
two points (`Facet.dot_center_lt`). Whatever the sort makes of ties, at every
point of the screen the quad that is drawn last is the nearest one
(`seen_nearest`).
-/

namespace AmongUs.Rendering

open Facets SortedFold

/-- The mean depth of the corners. -/
def depth (q : SQuad) : ℚ :=
  ((q.points 0).z + (q.points 1).z + (q.points 2).z + (q.points 3).z) * (1 / 4)

/-- The corners on the screen. -/
def corners (q : SQuad) (i : Fin 4) : V2d ℚ := ⟨(q.points i).x, (q.points i).y⟩

def diagonals (pos : Fin 4 → V2d ℚ) : V2d ℚ × V2d ℚ := (pos 2 - pos 0, pos 3 - pos 1)

/-- The comparison of the sort. -/
def Farther (q1 q2 : SQuad) : Prop := depth q1 < depth q2

/-- A point of the parallelogram. -/
def pointOf (q : SQuad) (s t : ℚ) : Vec3d where
  x := (q.points 0).x + s * ((q.points 1).x - (q.points 0).x) +
    t * ((q.points 3).x - (q.points 0).x)
  y := (q.points 0).y + s * ((q.points 1).y - (q.points 0).y) +
    t * ((q.points 3).y - (q.points 0).y)
  z := (q.points 0).z + s * ((q.points 1).z - (q.points 0).z) +
    t * ((q.points 3).z - (q.points 0).z)

/-- The quad covers this point of the screen, on its inside, at the depth `z`. -/
def CoversAt (q : SQuad) (p : ℚ × ℚ) (z : ℚ) : Prop :=
  ∃ s t, (0 < s ∧ s < 1) ∧ (0 < t ∧ t < 1) ∧
    onScreen (pointOf q s t) = p ∧ (pointOf q s t).z = z

def Covers (q : SQuad) (p : ℚ × ℚ) : Prop := ∃ z, CoversAt q p z

/-- The numbers are the sine and the cosine of an angle. -/
def IsAngle (a : Angle) : Prop := a.sin ^ 2 + a.cos ^ 2 = 1

/-- The direction from the map to the viewer; the coordinates are the one
along a row, the height, and the one along a column. -/
def toViewer (w : View) : Fin 3 → ℚ :=
  ![-(w.fAngle.sin * w.fPitch.cos), -w.fPitch.sin, w.fAngle.cos * w.fPitch.cos]

/-- A point over the map in the picture. -/
def place (w : View) (v : Fin 3 → ℚ) : Vec3d :=
  project w.screen (rotateX w.fPitch (rotateY w.fAngle
    ⟨v 0 * w.fScale - w.vCamera.x, -(v 1 * w.fScale) - w.vCamera.y,
      v 2 * w.fScale - w.vCamera.z⟩))

/-- A point of the face, over its cell. -/
def inFace (c : VI2d) (s t : ℚ) : Face → Fin 3 → ℚ
  | .floor => ![c.x + t, 0, c.y + 1 - s]
  | .south => ![c.x + t, 1 - s, c.y]
  | .north => ![c.x + 1 - t, 1 - s, c.y + 1]
  | .east => ![c.x, 1 - s, c.y + 1 - t]
  | .west => ![c.x + 1, 1 - s, c.y + t]
  | .top => ![c.x + t, 1, c.y + 1 - s]

/-- The floor is the top of a cell below the map. -/
def facetOf (c : VI2d) : Face → Facet (Fin 3)
  | .floor => ⟨![c.x, -1, c.y], 1⟩
  | .south => ⟨![c.x, 0, c.y], 2⟩
  | .north => ⟨![c.x, 0, c.y], 2⟩
  | .east => ⟨![c.x, 0, c.y], 0⟩
  | .west => ⟨![c.x, 0, c.y], 0⟩
  | .top => ⟨![c.x, 0, c.y], 1⟩

/-- The quad is the one of a visible face of a cell. -/
def IsFace (w : View) (c : VI2d) (f : Face) (q : SQuad) : Prop :=
  0 < normal w f ∧ ∀ i, q.points i = createCube w (c.map (↑)) (faceCorners f i)

variable {w : View} {c c' : VI2d} {f f' : Face} {q q' : SQuad}

/-! ### Quads and facets -/

theorem pointOf_eq_place (h : IsFace w c f q) (s t : ℚ) :
    pointOf q s t = place w (inFace c s t f) := by
  obtain ⟨-, hpoints⟩ := h
  cases f <;> ext <;>
    simp [pointOf, hpoints, faceCorners, place, inFace, createCube, project, rotateX, rotateY,
      translate, unitCube, V2d.map] <;> ring

theorem depth_eq_place (h : IsFace w c f q) :
    depth q = (place w (inFace c (1 / 2) (1 / 2) f)).z := by
  obtain ⟨-, hpoints⟩ := h
  cases f <;>
    simp [depth, hpoints, faceCorners, place, inFace, createCube, project, rotateX, rotateY,
      translate, unitCube, V2d.map] <;> ring

/-- The component of the direction that says whether a face looks to the
viewer. -/
def facing (w : View) : Face → ℚ
  | .floor => toViewer w 1
  | .south => -toViewer w 2
  | .north => toViewer w 2
  | .east => -toViewer w 0
  | .west => toViewer w 0
  | .top => toViewer w 1

theorem normal_eq (ha : IsAngle w.fAngle) (f : Face) :
    normal w f = w.fScale ^ 2 * facing w f := by
  rw [IsAngle] at ha
  cases f <;> simp only [normal, Winding.cross, edgeX, edgeY, edgeZ, facing, toViewer,
    Matrix.cons_val_zero, Matrix.cons_val_one, Matrix.cons_val]
  · linear_combination -w.fScale ^ 2 * w.fPitch.sin * ha
  · ring
  · ring
  · ring
  · ring
  · linear_combination -w.fScale ^ 2 * w.fPitch.sin * ha

theorem facing_pos (ha : IsAngle w.fAngle) (h : IsFace w c f q) : 0 < facing w f := by
  have hnormal := h.1
  rw [normal_eq ha] at hnormal
  exact pos_of_mul_pos_right hnormal (sq_nonneg _)

/-- The end of the cell that the face is on. -/
theorem side_facing (h : 0 < facing w f) :
    toViewer w (facetOf c f).axis ≠ 0 ∧
      side (toViewer w (facetOf c f).axis) =
        match f with
        | .south | .east => 0
        | _ => 1 := by
  cases f with
  | floor | north | west | top => exact ⟨ne_of_gt h, side_of_pos h⟩
  | south | east =>
      have hneg := neg_pos.mp h
      exact ⟨ne_of_lt hneg, side_of_not_pos hneg.not_gt⟩

/-- The points of a visible face are inside of its facet. -/
theorem interior_inFace (h : 0 < facing w f) {s t : ℚ} (hs : 0 < s ∧ s < 1) (ht : 0 < t ∧ t < 1) :
    (facetOf c f).Interior (toViewer w) (inFace c s t f) := by
  obtain ⟨hne, hside⟩ := side_facing (c := c) h
  refine ⟨hne, ?_, fun i hi => ?_⟩
  · rw [hside]
    cases f <;> simp [facetOf, inFace]
  · cases f <;> fin_cases i <;> simp [facetOf, inFace] at hi ⊢ <;> constructor <;> linarith

theorem center_facetOf (h : 0 < facing w f) :
    (facetOf c f).center (toViewer w) = inFace c (1 / 2) (1 / 2) f := by
  obtain ⟨-, hside⟩ := side_facing (c := c) h
  ext i
  rw [Facet.center]
  split
  · next hi =>
      subst hi
      rw [hside]
      cases f <;> simp [facetOf, inFace]
  · next hi =>
      cases f <;> fin_cases i <;> simp [facetOf, inFace] at hi ⊢ <;> ring

/-! ### Depths -/

theorem place_z (w : View) (v : Fin 3 → ℚ) :
    (place w v).z = (place w 0).z + w.fScale * ∑ i, toViewer w i * v i := by
  simp only [place, project, rotateX, rotateY, toViewer, Fin.sum_univ_three, Pi.zero_apply,
    Matrix.cons_val_zero, Matrix.cons_val_one, Matrix.cons_val]
  ring

/-- What the two rotations bring onto the axis of the depth. -/
theorem eq_mul_of_rotated {s c sp cp u0 u1 u2 : ℚ} (ha : s ^ 2 + c ^ 2 = 1)
    (hp : sp ^ 2 + cp ^ 2 = 1) (hx : u0 * c + u2 * s = 0)
    (hy : u1 * cp + (u2 * c - u0 * s) * sp = 0) :
    let m := (u2 * c - u0 * s) * cp - u1 * sp
    u0 = m * -(s * cp) ∧ u1 = m * -sp ∧ u2 = m * (c * cp) := by
  intro m
  refine ⟨?_, ?_, ?_⟩
  · linear_combination -u0 * ha + s * (u2 * c - u0 * s) * hp + c * hx - s * sp * hy
  · linear_combination -u1 * hp + cp * hy
  · linear_combination -u2 * ha - c * (u2 * c - u0 * s) * hp + s * hx + c * sp * hy

/-- Points that meet on the screen differ along the direction of the viewer. -/
theorem eq_add_of_onScreen (ha : IsAngle w.fAngle) (hp : IsAngle w.fPitch)
    (hscale : w.fScale ≠ 0) {v v' : Fin 3 → ℚ}
    (h : onScreen (place w v) = onScreen (place w v')) (i : Fin 3) :
    v' i = v i + ((place w v').z - (place w v).z) / w.fScale * toViewer w i := by
  obtain ⟨hx, hy⟩ := Prod.mk.inj h
  simp only [place, project, rotateX, rotateY] at hx hy
  have hx' : (v' 0 - v 0) * w.fAngle.cos + (v' 2 - v 2) * w.fAngle.sin = 0 := by
    apply mul_left_cancel₀ hscale
    linear_combination -hx
  have hy' : (v' 1 - v 1) * w.fPitch.cos +
      ((v' 2 - v 2) * w.fAngle.cos - (v' 0 - v 0) * w.fAngle.sin) * w.fPitch.sin = 0 := by
    apply mul_left_cancel₀ hscale
    linear_combination hy
  have hz : ((place w v').z - (place w v).z) / w.fScale =
      ((v' 2 - v 2) * w.fAngle.cos - (v' 0 - v 0) * w.fAngle.sin) * w.fPitch.cos -
        (v' 1 - v 1) * w.fPitch.sin := by
    rw [div_eq_iff hscale]
    simp only [place, project, rotateX, rotateY]
    ring
  obtain ⟨h0, h1, h2⟩ := eq_mul_of_rotated ha hp hx' hy'
  rw [hz]
  fin_cases i
  · exact sub_eq_iff_eq_add'.mp h0
  · exact sub_eq_iff_eq_add'.mp h1
  · exact sub_eq_iff_eq_add'.mp h2

/-- Of two quads that cover a point of the screen, the nearer one there has
the greater depth. -/
theorem depth_lt (ha : IsAngle w.fAngle) (hp : IsAngle w.fPitch) (hscale : 0 < w.fScale)
    (h : IsFace w c f q) (h' : IsFace w c' f' q') {p : ℚ × ℚ} {z z' : ℚ} (hq : CoversAt q p z)
    (hq' : CoversAt q' p z') (hz : z < z') : depth q < depth q' := by
  obtain ⟨s, t, hs, ht, hpoint, rfl⟩ := hq
  obtain ⟨s', t', hs', ht', hpoint', rfl⟩ := hq'
  rw [pointOf_eq_place h, pointOf_eq_place h'] at hz
  rw [pointOf_eq_place h] at hpoint
  rw [pointOf_eq_place h', ← hpoint] at hpoint'
  have hfacing := facing_pos ha h
  have hfacing' := facing_pos ha h'
  have hcenter := Facet.dot_center_lt (interior_inFace (c := c) hfacing hs ht)
    (interior_inFace (c := c') hfacing' hs' ht') (div_pos (sub_pos.mpr hz) hscale)
    (eq_add_of_onScreen ha hp hscale.ne' hpoint'.symm)
  rw [center_facetOf hfacing, center_facetOf hfacing'] at hcenter
  rw [depth_eq_place h, depth_eq_place h', place_z w (inFace c _ _ f), place_z w (inFace c' _ _ f')]
  exact add_lt_add_right (mul_lt_mul_of_pos_left hcenter hscale) _

/-! ### The picture -/

/-- A quad of a cube is the one of a visible face, wherever the cube is. -/
theorem exists_face_of_mem {world : World} {vCell : V2d ℚ}
    (hq : q ∈ getFaceQuads world (visibleFaces w vCell) w vCell) :
    ∃ f, 0 < normal w f ∧ ∀ i, q.points i = createCube w vCell (faceCorners f i) := by
  have hface (f : Face) {v1 v2 v3 v4 : Fin 8} (hcorners : faceCorners f = ![v1, v2, v3, v4])
      {cell : SCell} (hmem : q ∈ if visibleFaces w vCell f then
        [makeFace (createCube w vCell) cell v1 v2 v3 v4 f] else []) :
      ∃ f, 0 < normal w f ∧ ∀ i, q.points i = createCube w vCell (faceCorners f i) := by
    obtain ⟨hvisible, hmem⟩ := List.mem_ite_nil_right.mp hmem
    refine ⟨f, (visibleFaces_iff w _ f).mp hvisible, fun i => ?_⟩
    rw [List.mem_singleton.mp hmem, hcorners]
    fin_cases i <;> rfl
  unfold getFaceQuads at hq
  dsimp only at hq
  generalize world.getCell (V2d.fin vCell).toInt = cell at hq
  cases hwall : cell.wall with
  | false =>
      rw [hwall, Bool.not_false, if_pos rfl] at hq
      exact hface .floor rfl hq
  | true =>
      rw [hwall, Bool.not_true, if_neg Bool.false_ne_true] at hq
      simp only [List.mem_append] at hq
      rcases hq with (((hq | hq) | hq) | hq) | hq
      · exact hface .south rfl hq
      · exact hface .north rfl hq
      · exact hface .east rfl hq
      · exact hface .west rfl hq
      · exact hface .top rfl hq

section

variable {world : World} {vCharPos : V2d ℚ} {fCameraAngle fCameraPitch : Angle} {fCameraZoom : ℚ}
  {screen : VI2d} {quads : List SQuad} {p : ℚ × ℚ} {z z' : ℚ}

theorem isFace_of_sorted (hsort : IsSort Farther
    (renderQuads world vCharPos fCameraAngle fCameraPitch fCameraZoom screen) quads)
    (hq : q ∈ quads) :
    ∃ c f, IsFace (frameView vCharPos fCameraAngle fCameraPitch fCameraZoom screen) c f q := by
  rw [hsort.1.mem_iff, renderQuads_eq] at hq
  obtain ⟨c, -, hq⟩ := List.mem_flatMap.mp hq
  exact ⟨c, exists_face_of_mem hq⟩

/-- A quad that is not farther than another one is nowhere behind it. -/
theorem le_of_not_farther (ha : IsAngle fCameraAngle) (hp : IsAngle fCameraPitch)
    (hzoom : 0 < fCameraZoom) (hsort : IsSort Farther
      (renderQuads world vCharPos fCameraAngle fCameraPitch fCameraZoom screen) quads)
    (hq : q ∈ quads) (hq' : q' ∈ quads) (h : ¬Farther q q') (hcovers : CoversAt q p z)
    (hcovers' : CoversAt q' p z') : z' ≤ z := by
  obtain ⟨c, f, hface⟩ := isFace_of_sorted hsort hq
  obtain ⟨c', f', hface'⟩ := isFace_of_sorted hsort hq'
  by_contra hlt
  exact h (depth_lt ha hp hzoom hface hface' hcovers hcovers' (not_le.mp hlt))

/-- **What is seen is what is nearest.** The quads are drawn in the order of
the sort. At every point of the screen the last quad that covers it is, of
all quads that cover it, the one nearest to the viewer. -/
theorem seen_nearest (ha : IsAngle fCameraAngle) (hp : IsAngle fCameraPitch)
    (hzoom : 0 < fCameraZoom) (hsort : IsSort Farther
      (renderQuads world vCharPos fCameraAngle fCameraPitch fCameraZoom screen) quads)
    {pre post : List SQuad} (hquads : quads = pre ++ q :: post) (hseen : CoversAt q p z)
    (hpost : ∀ q' ∈ post, ¬Covers q' p) :
    ∀ q' ∈ quads, ∀ z', CoversAt q' p z' → z' ≤ z := by
  intro q' hq' z' hcovers
  have hq : q ∈ quads := by simp [hquads]
  apply le_of_not_farther ha hp hzoom hsort hq hq' _ hseen hcovers
  have hsorted := hsort.2
  rw [hquads] at hq' hsorted
  rcases List.mem_append.mp hq' with hq' | hq'
  · exact (List.pairwise_append.mp hsorted).2.2 q' hq' q List.mem_cons_self
  rcases List.mem_cons.mp hq' with rfl | hq'
  · exact lt_irrefl _
  · exact absurd ⟨z', hcovers⟩ (hpost q' hq')

end

/-- A cell of floor, where the player is, and a block between it and the
viewer. -/
def blockView : View := frameView ⟨1 / 2, 1 / 2⟩ ⟨0, 1⟩ ⟨-3 / 5, 4 / 5⟩ 16 ⟨640, 480⟩

def blockWorld : World := (World.create 1 2).modifyCell ⟨0, 1⟩ fun c => { c with wall := true }

/-- A face of a cell that has the first tile everywhere. -/
def blockQuad (c : VI2d) (f : Face) : SQuad where
  points i := createCube blockView (c.map (↑)) (faceCorners f i)
  tile := ⟨0, 0⟩

theorem renderQuads_blockView :
    renderQuads blockWorld ⟨1 / 2, 1 / 2⟩ ⟨0, 1⟩ ⟨-3 / 5, 4 / 5⟩ 16 ⟨640, 480⟩ =
      [blockQuad ⟨0, 0⟩ .floor, blockQuad ⟨0, 1⟩ .north, blockQuad ⟨0, 1⟩ .top] := by
  have hvisible : [Face.floor, .south, .north, .east, .west, .top].map
      (visibleFaces blockView ⟨0, 0⟩) = [true, false, true, false, false, true] := by
    decide +kernel
  obtain ⟨hfloor, hsouth, hnorth, heast, hwest, htop⟩ :
      visibleFaces blockView ⟨0, 0⟩ .floor = true ∧ visibleFaces blockView ⟨0, 0⟩ .south = false ∧
      visibleFaces blockView ⟨0, 0⟩ .north = true ∧ visibleFaces blockView ⟨0, 0⟩ .east = false ∧
      visibleFaces blockView ⟨0, 0⟩ .west = false ∧ visibleFaces blockView ⟨0, 0⟩ .top = true := by
    simpa using hvisible
  have hcells : blockWorld.cells = [⟨0, 0⟩, ⟨0, 1⟩] := by decide
  have hfree : blockWorld.getCell ⟨0, 0⟩ = {} := by
    rw [blockWorld, World.getCell_modifyCell_of_ne _ (by decide) (by decide), World.getCell_create]
  have hblock : blockWorld.getCell ⟨0, 1⟩ = { wall := true } := by
    rw [blockWorld, World.getCell_modifyCell_self, World.getCell_create]
  have hcell (c : VI2d) : (V2d.fin (c.map (↑))).toInt = c := by
    ext <;> simp [V2d.fin, V2d.toInt, V2d.map]
  have hquad (c : VI2d) (cell : SCell) (f : Face) {v1 v2 v3 v4 : Fin 8}
      (hcorners : faceCorners f = ![v1, v2, v3, v4]) (hid : cell.id f = ⟨0, 0⟩) :
      makeFace (createCube blockView (c.map (↑))) cell v1 v2 v3 v4 f = blockQuad c f := by
    rw [makeFace, blockQuad, hid, hcorners]
    apply congrArg₂ SQuad.mk
    · funext i
      fin_cases i <;> rfl
    · ext <;> simp [V2d.map]
  rw [renderQuads, hcells]
  rw [← blockView, List.flatMap_cons, List.flatMap_singleton]
  unfold getFaceQuads
  dsimp only
  rw [hcell, hcell, hfree, hblock, hfloor, hsouth, hnorth, heast, hwest, htop]
  simp only [Bool.not_false, Bool.not_true, if_true, Bool.false_eq_true, if_false, List.nil_append,
    List.append_nil, List.singleton_append]
  rw [hquad ⟨0, 0⟩ _ .floor rfl rfl, hquad ⟨0, 1⟩ _ .north rfl rfl, hquad ⟨0, 1⟩ _ .top rfl rfl]

/-- The floor is hidden by the top of the block. -/
theorem seen_nearest_block :
    CoversAt (blockQuad ⟨0, 0⟩ .floor) (320, 1192 / 5) (-32 / 15) ∧
      CoversAt (blockQuad ⟨0, 1⟩ .top) (320, 1192 / 5) (368 / 15) ∧
      ∀ q' ∈ [blockQuad ⟨0, 0⟩ .floor, blockQuad ⟨0, 1⟩ .top, blockQuad ⟨0, 1⟩ .north],
        ∀ z', CoversAt q' (320, 1192 / 5) z' → z' ≤ 368 / 15 := by
  have hfloor : CoversAt (blockQuad ⟨0, 0⟩ .floor) (320, 1192 / 5) (-32 / 15) :=
    ⟨2 / 3, 1 / 2, by norm_num, by norm_num, by decide +kernel, by decide +kernel⟩
  have htop : CoversAt (blockQuad ⟨0, 1⟩ .top) (320, 1192 / 5) (368 / 15) :=
    ⟨1 / 3, 1 / 2, by norm_num, by norm_num, by decide +kernel, by decide +kernel⟩
  have hnorth : ¬Covers (blockQuad ⟨0, 1⟩ .north) (320, 1192 / 5) := by
    rintro ⟨z, s, t, hs, -, hpoint, -⟩
    have hy : (pointOf (blockQuad ⟨0, 1⟩ .north) s t).y = 240 + 72 / 5 - 64 / 5 * (1 - s) := by
      simp [pointOf, blockQuad, faceCorners, createCube, project, rotateX, rotateY, translate,
        unitCube, blockView, frameView, V2d.map]
      ring
    have hmeets : (pointOf (blockQuad ⟨0, 1⟩ .north) s t).y = 1192 / 5 :=
      congrArg Prod.snd hpoint
    linarith
  have hfarther : ¬Farther (blockQuad ⟨0, 1⟩ .top) (blockQuad ⟨0, 0⟩ .floor) ∧
      ¬Farther (blockQuad ⟨0, 1⟩ .north) (blockQuad ⟨0, 0⟩ .floor) ∧
      ¬Farther (blockQuad ⟨0, 1⟩ .north) (blockQuad ⟨0, 1⟩ .top) := by
    unfold Farther
    decide +kernel
  have hsort : IsSort Farther
      (renderQuads blockWorld ⟨1 / 2, 1 / 2⟩ ⟨0, 1⟩ ⟨-3 / 5, 4 / 5⟩ 16 ⟨640, 480⟩)
      [blockQuad ⟨0, 0⟩ .floor, blockQuad ⟨0, 1⟩ .top, blockQuad ⟨0, 1⟩ .north] := by
    rw [renderQuads_blockView]
    exact ⟨.cons _ (.swap _ _ _), by simpa using ⟨⟨hfarther.1, hfarther.2.1⟩, hfarther.2.2⟩⟩
  have hquads : [blockQuad ⟨0, 0⟩ .floor, blockQuad ⟨0, 1⟩ .top, blockQuad ⟨0, 1⟩ .north] =
      [blockQuad ⟨0, 0⟩ .floor] ++ blockQuad ⟨0, 1⟩ .top :: [blockQuad ⟨0, 1⟩ .north] := rfl
  exact ⟨hfloor, htop, seen_nearest (by norm_num [IsAngle]) (by norm_num [IsAngle]) (by norm_num)
    hsort hquads htop (by simpa using hnorth)⟩

end AmongUs.Rendering
