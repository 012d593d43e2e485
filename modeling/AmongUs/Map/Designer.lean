import AmongUs.Map.LoadMap
import AmongUs.Transition.Machine

/-!
The map designer (`MapDesigner`).

The designer edits two copies of the map: the cells it shows (`world`) and
the entries it saves (`mapDict`). A frame first fixes the key of the entry,
then paints faces, then moves the cursor and at last toggles the wall under
the cursor. The camera and the drawing do not touch the map and are left
out, and so is the loading of a saved map.

Painting keeps the copies in step (`loadedCell_paint`). Toggling does not
always: the entry is reset while the cell keeps its tiles, and the entry is
the one of the cell that the cursor was on before it moved.
-/

namespace AmongUs

open Transition

/-- The keys that the edits look at. -/
inductive Key where
  | tab | k1 | k2 | k3 | k4 | k5 | k6 | left | right | up | down | space
  deriving DecidableEq

/-- What the user does in a frame. -/
structure Input where
  bHeld : Key → Bool
  bPressed : Key → Bool
  mousePressed : Bool
  vMouse : VI2d

structure MapDesigner where
  world : World
  mapDict : MapDict
  vCursor : VI2d
  vTileCursor : VI2d

namespace MapDesigner

def onUserCreate : MapDesigner where
  world := (World.create mapSize.x mapSize.y).reset
  mapDict := { mapSize := some mapSize, cells := ∅ }
  vCursor := ⟨0, 0⟩
  vTileCursor := ⟨0, 0⟩

/-- The key that paints a face. -/
def paintKey : Face → Key
  | .north => .k1
  | .east => .k2
  | .south => .k3
  | .west => .k4
  | .floor => .k5
  | .top => .k6

/-- The faces in the order of their keys. -/
def paintOrder : List Face := [.north, .east, .south, .west, .floor, .top]

def setTile (f : Face) (tile : VI2d) (c : SCell) : SCell :=
  { c with id := Function.update c.id f tile }

def setEntryTile (f : Face) (tile : VI2d) (e : Entry) : Entry :=
  { e with face := Function.update e.face f (some tile) }

/-- Applies the selected tile to a face. -/
def paint (cursorId : String) (s : MapDesigner) (f : Face) : MapDesigner :=
  let vSpriteTileSelect := s.vTileCursor * vTileSize
  { s with
    world := s.world.modifyCell s.vCursor (setTile f vSpriteTileSelect)
    mapDict := s.mapDict.modify cursorId (setEntryTile f vSpriteTileSelect) }

def paintFaces (cursorId : String) (i : Input) (s : MapDesigner) : MapDesigner :=
  paintOrder.foldl (fun s f => if i.bPressed (paintKey f) then paint cursorId s f else s) s

/-- The arrow keys move the cursor, which stays on the map. -/
def moveCursor (i : Input) (size : VI2d) (v : VI2d) : VI2d :=
  let x := if i.bPressed .left then v.x - 1 else v.x
  let x := if i.bPressed .right then x + 1 else x
  let y := if i.bPressed .up then v.y - 1 else v.y
  let y := if i.bPressed .down then y + 1 else y
  let x := if x < 0 then 0 else x
  let y := if y < 0 then 0 else y
  let x := if size.x ≤ x then size.x - 1 else x
  let y := if size.y ≤ y then size.y - 1 else y
  ⟨x, y⟩

/-- The entry of a new wall, on all faces with the first tile. -/
def wallEntry : Entry where
  type := some 1
  face _ := some ⟨0, 0⟩

/-- Places a block, or takes it away. -/
def toggle (cursorId : String) (s : MapDesigner) : MapDesigner :=
  let world := s.world.modifyCell s.vCursor fun c => { c with wall := !c.wall }
  { s with
    world
    mapDict :=
      if (world.getCell s.vCursor).wall then s.mapDict.modify cursorId fun _ => wallEntry
      else s.mapDict.erase cursorId }

def onUserUpdate (s : MapDesigner) (i : Input) : MapDesigner :=
  let cursorId := cellId s.vCursor
  if i.bHeld .tab then
    if i.mousePressed then
      { s with vTileCursor := ⟨i.vMouse.x.tdiv vTileSize.x, i.vMouse.y.tdiv vTileSize.y⟩ }
    else s
  else
    let s := paintFaces cursorId i s
    let s := { s with vCursor := moveCursor i s.world.size s.vCursor }
    if i.bPressed .space then toggle cursorId s else s

/-- The designer, with any input in every frame. -/
def machine : Machine MapDesigner Input Unit Unit where
  enabled _ _ := true
  step s i := .ok (onUserUpdate s i, ())

variable {s : MapDesigner} {i : Input} {u v : VI2d} {f : Face} {d : MapDict}

/-- What holds of the designer whatever the user does. -/
structure Editing (s : MapDesigner) : Prop where
  size : s.world.size = mapSize
  cursor : InMap s.vCursor
  keyed : s.mapDict.Keyed

/-- The loader makes the cells that are shown. -/
def InStep (s : MapDesigner) : Prop :=
  ∀ v, InMap v → SameDrawn (loadedCell s.mapDict v) (s.world.getCell v)

theorem loadedCell_modify_self {g : Entry → Entry} :
    loadedCell (d.modify (cellId v) g) v = (g (d.cells[cellId v]?.getD {})).write floorCell := by
  rw [loadedCell, MapDict.cells_modify_self]

theorem loadedCell_modify_of_ne {g : Entry → Entry} (hu : InMap u) (hv : InMap v) (h : u ≠ v) :
    loadedCell (d.modify (cellId u) g) v = loadedCell d v := by
  rw [loadedCell, MapDict.cells_modify_of_ne (mt (cellId_inj hu hv) h), loadedCell]

theorem loadedCell_erase_self : loadedCell (d.erase (cellId v)) v = floorCell := by
  rw [loadedCell, MapDict.cells_erase_self]

theorem loadedCell_erase_of_ne (hu : InMap u) (hv : InMap v) (h : u ≠ v) :
    loadedCell (d.erase (cellId u)) v = loadedCell d v := by
  rw [loadedCell, MapDict.cells_erase_of_ne (mt (cellId_inj hu hv) h), loadedCell]

/-! ### Painting -/

@[simp] theorem setTile_wall (tile : VI2d) (c : SCell) : (setTile f tile c).wall = c.wall := rfl

@[simp] theorem setTile_id (tile : VI2d) (c : SCell) (g : Face) :
    (setTile f tile c).id g = if g = f then tile else c.id g := Function.update_apply ..

theorem write_setEntryTile (e : Entry) (c : SCell) (tile : VI2d) :
    (setEntryTile f tile e).write c = setTile f tile (e.write c) := by
  ext g
  · rfl
  all_goals
    by_cases h : g = f
    · simp [h, setEntryTile, Entry.write]
    · simp [h, setEntryTile, Entry.write]

/-- A painted entry loads as the painted cell. -/
theorem loadedCell_paint (d : MapDict) (v : VI2d) (tile : VI2d) :
    loadedCell (d.modify (cellId v) (setEntryTile f tile)) v = setTile f tile (loadedCell d v) := by
  rw [loadedCell_modify_self, write_setEntryTile, loadedCell]
  cases d.cells[cellId v]? with
  | none => rfl
  | some e => rfl

theorem sameDrawn_setTile {c c' : SCell} (h : SameDrawn c c') (tile : VI2d) :
    SameDrawn (setTile f tile c) (setTile f tile c') := by
  rw [sameDrawn_iff] at h ⊢
  refine ⟨h.1, fun g hg => ?_⟩
  rw [setTile_id, setTile_id]
  split
  · rfl
  · exact h.2 g hg

@[simp] theorem paint_vCursor (cursorId : String) : (paint cursorId s f).vCursor = s.vCursor := rfl

@[simp] theorem paint_vTileCursor (cursorId : String) :
    (paint cursorId s f).vTileCursor = s.vTileCursor := rfl

@[simp] theorem getCell_paint (cursorId : String) : (paint cursorId s f).world.getCell s.vCursor =
    setTile f (s.vTileCursor * vTileSize) (s.world.getCell s.vCursor) :=
  World.getCell_modifyCell_self _

theorem Editing.inRange (h : Editing s) : s.world.InRange s.vCursor :=
  (inRange_iff_inMap h.size).mpr h.cursor

theorem Editing.paint (h : Editing s) : Editing (paint (cellId s.vCursor) s f) where
  size := (World.modifyCell_size ..).trans h.size
  cursor := h.cursor
  keyed := h.keyed.modify h.cursor

theorem InStep.paint (hs : Editing s) (h : InStep s) : InStep (paint (cellId s.vCursor) s f) := by
  intro v hv
  unfold MapDesigner.paint
  by_cases huv : s.vCursor = v
  · subst huv
    rw [loadedCell_paint, World.getCell_modifyCell_self]
    exact sameDrawn_setTile (h _ hv) _
  · rw [loadedCell_modify_of_ne hs.cursor hv huv, World.getCell_modifyCell_of_ne _ hs.inRange huv]
    exact h v hv

/-- The tile of a face under the cursor after the painting. -/
def paintedTile (s : MapDesigner) (i : Input) (f : Face) : VI2d :=
  if i.bPressed (paintKey f) then s.vTileCursor * vTileSize else (s.world.getCell s.vCursor).id f

/-- Painting keeps the copies in step, and paints the cell under the cursor. -/
structure Painted (s : MapDesigner) (i : Input) (fs : List Face) (t : MapDesigner) : Prop where
  editing : Editing t
  inStep : InStep t
  cursor : t.vCursor = s.vCursor
  wall : (t.world.getCell s.vCursor).wall = (s.world.getCell s.vCursor).wall
  tile : ∀ f, (t.world.getCell s.vCursor).id f =
    if f ∈ fs then paintedTile s i f else (s.world.getCell s.vCursor).id f

theorem painted (fs : List Face) (hs : Editing s) (h : InStep s) :
    Painted s i fs (fs.foldl
      (fun t f => if i.bPressed (paintKey f) then paint (cellId s.vCursor) t f else t) s) := by
  induction fs generalizing s with
  | nil => exact ⟨hs, h, rfl, rfl, fun f => by rw [if_neg List.not_mem_nil]; rfl⟩
  | cons f fs ih =>
      rw [List.foldl_cons]
      by_cases hf : i.bPressed (paintKey f)
      · rw [if_pos hf]
        obtain ⟨hediting, hstep, hcursor, hwall, htile⟩ := ih hs.paint (h.paint hs)
        simp only [paint_vCursor, getCell_paint, setTile_wall] at hwall htile
        refine ⟨hediting, hstep, hcursor, hwall, fun g => (htile g).trans ?_⟩
        simp only [paintedTile, paint_vCursor, paint_vTileCursor, getCell_paint, setTile_id]
        by_cases hg : g = f
        · subst hg
          simp [hf]
        · simp [hg]
      · rw [if_neg hf]
        obtain ⟨hediting, hstep, hcursor, hwall, htile⟩ := ih hs h
        refine ⟨hediting, hstep, hcursor, hwall, fun g => (htile g).trans ?_⟩
        by_cases hg : g = f
        · subst hg
          simp [paintedTile, hf]
        · simp [hg]

theorem painted_faces (hs : Editing s) (h : InStep s) :
    Painted s i paintOrder (paintFaces (cellId s.vCursor) i s) := painted paintOrder hs h

theorem mem_paintOrder (f : Face) : f ∈ paintOrder := by
  cases f <;> decide

/-! ### Moving and toggling -/

theorem clamp_bounds {n : ℤ} (hn : 0 < n) (x : ℤ) :
    let y := if x < 0 then 0 else x
    0 ≤ (if n ≤ y then n - 1 else y) ∧ (if n ≤ y then n - 1 else y) < n := by
  intro y
  have hy : 0 ≤ y := by
    simp only [y]
    split
    · exact le_rfl
    · omega
  split
  · omega
  · omega

theorem inMap_moveCursor (i : Input) (v : VI2d) : InMap (moveCursor i mapSize v) := by
  have hx : 0 < mapSize.x := by decide
  have hy : 0 < mapSize.y := by decide
  exact ⟨(clamp_bounds hx _).1, (clamp_bounds hx _).2, (clamp_bounds hy _).1,
    (clamp_bounds hy _).2⟩

theorem getCell_toggle (cursorId : String) : (toggle cursorId s).world.getCell s.vCursor =
    { s.world.getCell s.vCursor with wall := !(s.world.getCell s.vCursor).wall } :=
  World.getCell_modifyCell_self _

theorem mapDict_toggle (cursorId : String) : (toggle cursorId s).mapDict =
    if !(s.world.getCell s.vCursor).wall then s.mapDict.modify cursorId fun _ => wallEntry
    else s.mapDict.erase cursorId := by
  rw [toggle, World.getCell_modifyCell_self]

theorem getCell_toggle_of_ne (hs : Editing s) (cursorId : String) (h : s.vCursor ≠ v) :
    (toggle cursorId s).world.getCell v = s.world.getCell v :=
  World.getCell_modifyCell_of_ne _ hs.inRange h

theorem Editing.toggle (hs : Editing s) (hu : InMap u) : Editing (toggle (cellId u) s) where
  size := (World.modifyCell_size ..).trans hs.size
  cursor := hs.cursor
  keyed := by
    rw [mapDict_toggle]
    split
    · exact hs.keyed.modify hu
    · exact hs.keyed.erase

/-- An entry that is toggled loads with the default tiles. -/
theorem loadedCell_toggle_self (s : MapDesigner) (v : VI2d) :
    (loadedCell (toggle (cellId v) s).mapDict v).wall = !(s.world.getCell s.vCursor).wall ∧
      ∀ f ∈ drawnFaces (!(s.world.getCell s.vCursor).wall),
        (loadedCell (toggle (cellId v) s).mapDict v).id f = floorCell.id f := by
  rw [mapDict_toggle]
  cases (s.world.getCell s.vCursor).wall with
  | false =>
      rw [Bool.not_false, if_pos rfl, loadedCell_modify_self]
      refine ⟨rfl, fun f hf => ?_⟩
      cases f with
      | floor => exact absurd hf (by decide)
      | north | east | south | west | top => rfl
  | true =>
      rw [Bool.not_true, if_neg Bool.false_ne_true, loadedCell_erase_self]
      exact ⟨rfl, fun _ _ => rfl⟩

theorem loadedCell_toggle_of_ne (hu : InMap u) (hv : InMap v) (h : u ≠ v) :
    loadedCell (toggle (cellId u) s).mapDict v = loadedCell s.mapDict v := by
  rw [mapDict_toggle]
  split
  · exact loadedCell_modify_of_ne hu hv h
  · exact loadedCell_erase_of_ne hu hv h

/-- Under a cursor that has not moved, toggling is in step when the cell has
the default tiles on the faces that it now shows. -/
theorem inStep_toggle_iff (hs : Editing s) (h : InStep s) :
    InStep (toggle (cellId s.vCursor) s) ↔
      ∀ f ∈ drawnFaces (!(s.world.getCell s.vCursor).wall),
        (s.world.getCell s.vCursor).id f = floorCell.id f := by
  obtain ⟨hwall, htile⟩ := loadedCell_toggle_self s s.vCursor
  have hcursor : SameDrawn (loadedCell (toggle (cellId s.vCursor) s).mapDict s.vCursor)
      ((toggle (cellId s.vCursor) s).world.getCell s.vCursor) ↔
        ∀ f ∈ drawnFaces (!(s.world.getCell s.vCursor).wall),
          (s.world.getCell s.vCursor).id f = floorCell.id f := by
    rw [sameDrawn_iff, getCell_toggle, hwall]
    constructor
    · rintro ⟨-, hid⟩ f hf
      rw [← htile f hf, hid f hf]
    · intro hid
      exact ⟨rfl, fun f hf => (htile f hf).trans (hid f hf).symm⟩
  constructor
  · exact fun hstep => hcursor.mp (hstep _ hs.cursor)
  · intro hid v hv
    by_cases hne : s.vCursor = v
    · exact hne ▸ hcursor.mpr hid
    · rw [loadedCell_toggle_of_ne hs.cursor hv hne, getCell_toggle_of_ne hs _ hne]
      exact h v hv

/-- Under a cursor that has moved, it is never in step. -/
theorem not_inStep_toggle (hs : Editing s) (h : InStep s) (hu : InMap u) (hne : u ≠ s.vCursor) :
    ¬InStep (toggle (cellId u) s) := by
  intro hstep
  have hbefore := (h _ hs.cursor).1
  have hafter := (hstep _ hs.cursor).1
  rw [loadedCell_toggle_of_ne hu hs.cursor hne, getCell_toggle] at hafter
  exact Bool.not_ne_self _ (hafter.symm.trans hbefore)

/-! ### A frame -/

/-- A frame that toggles a wall leaves the cursor where it was and finds the
default tiles on the faces that the cell then shows. -/
def KeepsInStep (s : MapDesigner) (i : Input) : Prop :=
  i.bHeld .tab = false → i.bPressed .space = true →
    moveCursor i s.world.size s.vCursor = s.vCursor ∧
      ∀ f ∈ drawnFaces (!(s.world.getCell s.vCursor).wall), paintedTile s i f = floorCell.id f

theorem onUserUpdate_of_tab (htab : i.bHeld .tab = true) :
    (onUserUpdate s i).world = s.world ∧ (onUserUpdate s i).mapDict = s.mapDict ∧
      (onUserUpdate s i).vCursor = s.vCursor := by
  unfold onUserUpdate
  rw [if_pos htab]
  split
  · exact ⟨rfl, rfl, rfl⟩
  · exact ⟨rfl, rfl, rfl⟩

/-- The state in which a frame comes to the space key. -/
theorem exists_moved (hs : Editing s) (h : InStep s) (htab : i.bHeld .tab = false) :
    ∃ t, onUserUpdate s i = (if i.bPressed .space then toggle (cellId s.vCursor) t else t) ∧
      Editing t ∧ InStep t ∧ t.vCursor = moveCursor i s.world.size s.vCursor ∧
      (t.world.getCell s.vCursor).wall = (s.world.getCell s.vCursor).wall ∧
      ∀ f, (t.world.getCell s.vCursor).id f = paintedTile s i f := by
  obtain ⟨hediting, hstep, hcursor, hwall, htile⟩ := painted_faces (i := i) hs h
  have hsize : (paintFaces (cellId s.vCursor) i s).world.size = s.world.size :=
    hediting.size.trans hs.size.symm
  let moved := moveCursor i (paintFaces (cellId s.vCursor) i s).world.size
    (paintFaces (cellId s.vCursor) i s).vCursor
  have hmoved : moved = moveCursor i s.world.size s.vCursor :=
    congrArg₂ (moveCursor i) hsize hcursor
  refine ⟨{ paintFaces (cellId s.vCursor) i s with vCursor := moved }, ?_,
    ⟨hediting.size, ?_, hediting.keyed⟩, hstep, hmoved, hwall,
    fun f => (htile f).trans (if_pos (mem_paintOrder f))⟩
  · unfold onUserUpdate
    rw [if_neg (by rw [htab]; exact Bool.false_ne_true)]
  · rw [hmoved, hs.size]
    exact inMap_moveCursor i s.vCursor

theorem Editing.onUserUpdate (hs : Editing s) (h : InStep s) : Editing (onUserUpdate s i) := by
  cases htab : i.bHeld .tab with
  | true =>
      obtain ⟨hworld, hdict, hcursor⟩ := onUserUpdate_of_tab (s := s) htab
      exact ⟨hworld ▸ hs.size, hcursor ▸ hs.cursor, hdict ▸ hs.keyed⟩
  | false =>
      obtain ⟨t, heq, ht, -⟩ := exists_moved hs h htab
      rw [heq]
      split
      · exact ht.toggle hs.cursor
      · exact ht

theorem inStep_onUserUpdate_iff (hs : Editing s) (h : InStep s) :
    InStep (onUserUpdate s i) ↔ KeepsInStep s i := by
  cases htab : i.bHeld .tab with
  | true =>
      obtain ⟨hworld, hdict, -⟩ := onUserUpdate_of_tab (s := s) htab
      refine iff_of_true ?_ fun hno => nomatch htab.symm.trans hno
      intro v hv
      rw [hworld, hdict]
      exact h v hv
  | false =>
      obtain ⟨t, heq, ht, hstep, hcursor, hwall, htile⟩ := exists_moved hs h htab
      rw [heq]
      cases hspace : i.bPressed .space with
      | false =>
          rw [if_neg Bool.false_ne_true]
          exact iff_of_true hstep fun _ hno => nomatch hspace.symm.trans hno
      | true =>
          rw [if_pos rfl]
          by_cases hmoved : moveCursor i s.world.size s.vCursor = s.vCursor
          · rw [hmoved] at hcursor
            have hiff := inStep_toggle_iff ht hstep
            rw [hcursor] at hiff
            simp only [hwall, htile] at hiff
            rw [hiff]
            exact ⟨fun hid _ _ => ⟨hmoved, hid⟩, fun hkeeps => (hkeeps htab hspace).2⟩
          · refine iff_of_false ?_ fun hkeeps => hmoved (hkeeps htab hspace).1
            exact not_inStep_toggle ht hstep hs.cursor fun heq => hmoved (heq.trans hcursor).symm

/-! ### Whole runs -/

/-- The saved map, loaded by a client, gives every cell as it is shown. -/
def LoadsAsShown (s : MapDesigner) : Prop :=
  ∀ w : World, w.size = mapSize → ∃ w', loadMap w s.mapDict = some w' ∧
    ∀ v, InMap v → SameDrawn (w'.getCell v) (s.world.getCell v)

theorem loadsAsShown_iff (hs : Editing s) : LoadsAsShown s ↔ InStep s := by
  constructor
  · intro hloads v hv
    obtain ⟨w', hload, hsame⟩ := hloads (World.create mapSize.x mapSize.y) rfl
    obtain ⟨w'', hload', hcells⟩ :=
      exists_loadMap (w := World.create mapSize.x mapSize.y) rfl hs.keyed
    obtain rfl : w' = w'' := Option.some_inj.mp (hload.symm.trans hload')
    rw [← hcells v hv]
    exact hsame v hv
  · intro hstep w hsize
    obtain ⟨w', hload, hcells⟩ := exists_loadMap hsize hs.keyed
    refine ⟨w', hload, fun v hv => ?_⟩
    rw [hcells v hv]
    exact hstep v hv

theorem onUserCreate_world : onUserCreate.world = (World.create mapSize.x mapSize.y).reset := by
  rw [onUserCreate]

theorem cells_onUserCreate (key : String) : onUserCreate.mapDict.cells[key]? = none :=
  Std.TreeMap.getElem?_emptyc

theorem editing_onUserCreate : Editing onUserCreate where
  size := reset_size
  cursor := by decide
  keyed key e he := nomatch (cells_onUserCreate key).symm.trans he

theorem getCell_onUserCreate (hv : InMap v) : onUserCreate.world.getCell v = floorCell := by
  have hrange : (World.create mapSize.x mapSize.y).InRange v := (inRange_iff_inMap rfl).mpr hv
  rw [onUserCreate_world, getCell_reset hrange]

theorem inStep_onUserCreate : InStep onUserCreate := by
  intro v hv
  rw [getCell_onUserCreate hv, loadedCell, cells_onUserCreate]
  exact ⟨rfl, fun _ => rfl⟩

theorem takes_iff {e : Event MapDesigner Input Unit} :
    machine.Takes e ↔ e.dst = onUserUpdate e.src e.act := by
  constructor
  · rintro ⟨-, hstep⟩
    exact (Prod.mk.inj (Except.ok.inj hstep)).1.symm
  · intro heq
    exact ⟨rfl, congrArg (fun t => Except.ok (t, ())) heq.symm⟩

/-- In a run of the designer the saved map always loads as it is shown,
exactly when no frame toggles a wall under a cursor that moves in the same
frame, or one that then shows painted faces. -/
theorem designer_loads_iff {tr : List (Event MapDesigner Input Unit)}
    (h : machine.Run onUserCreate tr s) :
    (∀ m ∈ Machine.visited onUserCreate tr, LoadsAsShown m) ↔
      ∀ e ∈ tr, KeepsInStep e.src e.act := by
  have hinitial := (loadsAsShown_iff editing_onUserCreate).mpr inStep_onUserCreate
  apply h.visited_iff (J := Editing) hinitial editing_onUserCreate
  · intro e htakes hloads hs _
    rw [takes_iff.mp htakes]
    exact hs.onUserUpdate ((loadsAsShown_iff hs).mp hloads)
  · intro e htakes hloads hs
    have hstep := (loadsAsShown_iff hs).mp hloads
    rw [takes_iff.mp htakes, loadsAsShown_iff (hs.onUserUpdate hstep)]
    exact inStep_onUserUpdate_iff hs hstep

/-- A frame in which some keys are pressed. -/
def press (ks : List Key) : Input where
  bHeld _ := false
  bPressed k := k ∈ ks
  mousePressed := false
  vMouse := ⟨0, 0⟩

theorem run_frame (s : MapDesigner) (i : Input) :
    machine.Run s [⟨s, i, (), onUserUpdate s i⟩] (onUserUpdate s i) :=
  .snoc (e := ⟨s, i, (), onUserUpdate s i⟩) .nil (takes_iff.mpr rfl)

theorem keepsInStep_space : KeepsInStep onUserCreate (press [.space]) := by
  intro _ _
  refine ⟨?_, fun f _ => ?_⟩
  · rw [editing_onUserCreate.size]
    decide
  · have hpress : ¬(press [.space]).bPressed (paintKey f) = true := by cases f <;> decide
    rw [paintedTile, if_neg hpress, getCell_onUserCreate editing_onUserCreate.cursor]

/-- A new wall on an unpainted cell. -/
theorem designer_loads_wall : LoadsAsShown (onUserUpdate onUserCreate (press [.space])) := by
  have hrun := run_frame onUserCreate (press [.space])
  refine (designer_loads_iff hrun).mpr ?_ _ hrun.end_mem_visited
  intro e he
  rw [List.mem_singleton.mp he]
  exact keepsInStep_space

/-- With the cursor moved in the same frame, the wall is saved for the cell
that the cursor was on. -/
theorem moved_wall_not_loaded :
    ¬∀ tr s, machine.Run onUserCreate tr s → LoadsAsShown s := by
  intro hall
  have hs := editing_onUserCreate
  have hloads := hall _ _ (run_frame onUserCreate (press [.right, .space]))
  rw [loadsAsShown_iff (hs.onUserUpdate inStep_onUserCreate),
    inStep_onUserUpdate_iff hs inStep_onUserCreate] at hloads
  have hmove := (hloads rfl rfl).1
  rw [hs.size] at hmove
  exact absurd hmove (by decide)

end MapDesigner

end AmongUs
