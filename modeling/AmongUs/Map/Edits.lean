import AmongUs.Map.Designer

/-!
The edits of a frame of the designer, one by one.

Each edit writes to one cell of the world and under one key of the saved
map, and together they are all that a frame does to the two
(`onUserUpdate_edits`). The key was fixed at the start of the frame. It is
the one of the cell that the faces are painted on, and of the cell that
SPACE works on if the cursor has not moved in between
(`touchesOneCell_iff`).
-/

namespace AmongUs

namespace MapDesigner

inductive EditKind
  | face (f : Face) (tile : VI2d)
  | block

structure Edit where
  key : String
  cell : VI2d
  kind : EditKind

/-- What the edit does to the world and to the saved map. -/
def Edit.perform (maps : World × MapDict) (e : Edit) : World × MapDict :=
  match e.kind with
  | .face f tile =>
      (maps.1.modifyCell e.cell (setTile f tile), maps.2.modify e.key (setEntryTile f tile))
  | .block =>
      let world := maps.1.modifyCell e.cell fun c => { c with wall := !c.wall }
      (world, if (world.getCell e.cell).wall then maps.2.modify e.key fun _ => wallEntry
        else maps.2.erase e.key)

/-- The faces of the list that are painted. -/
def faceEdits (s : MapDesigner) (i : Input) (fs : List Face) : List Edit :=
  (fs.filter fun f => i.bPressed (paintKey f)).map fun f =>
    { key := cellId s.vCursor, cell := s.vCursor, kind := .face f (s.vTileCursor * vTileSize) }

/-- SPACE, pressed with the cursor on its new cell. -/
def blockEdits (s : MapDesigner) (i : Input) : List Edit :=
  if i.bPressed .space then
    [{ key := cellId s.vCursor, cell := moveCursor i s.world.size s.vCursor, kind := .block }]
  else []

def edits (s : MapDesigner) (i : Input) : List Edit :=
  if i.bHeld .tab then [] else faceEdits s i paintOrder ++ blockEdits s i

/-- The maps of a designer. -/
def maps (s : MapDesigner) : World × MapDict := (s.world, s.mapDict)

/-- What holds in every state. -/
structure OnMap (s : MapDesigner) : Prop where
  size : s.world.size = mapSize
  cursor : InMap s.vCursor

/-- Every edit of the frame is under the key that is loaded into the cell it
changes, and nothing else is changed in either map. -/
structure TouchesOneCell (s : MapDesigner) (i : Input) : Prop where
  performs : (onUserUpdate s i).maps = (edits s i).foldl Edit.perform s.maps
  decodes : ∀ e ∈ edits s i, ∃ n, stoi e.key = some n ∧ cellOf n = e.cell
  cells : ∀ v, (∀ e ∈ edits s i, e.cell ≠ v) →
    (onUserUpdate s i).world.getCell v = s.world.getCell v
  entries : ∀ key, (∀ e ∈ edits s i, e.key ≠ key) →
    (onUserUpdate s i).mapDict.cells[key]? = s.mapDict.cells[key]?
  mapSize : (onUserUpdate s i).mapDict.mapSize = s.mapDict.mapSize

/-- SPACE finds the cursor where it was at the start of the frame. -/
def BlocksUnderKey (s : MapDesigner) (i : Input) : Prop :=
  i.bHeld .tab = false → i.bPressed .space = true →
    moveCursor i s.world.size s.vCursor = s.vCursor

variable {s : MapDesigner} {i : Input} {v : VI2d} {m : World × MapDict} {e : Edit} {es : List Edit}

/-! ### One edit -/

theorem perform_size : (e.perform m).1.size = m.1.size := by
  unfold Edit.perform
  split
  · exact World.modifyCell_size ..
  · exact World.modifyCell_size ..

theorem perform_mapSize : (e.perform m).2.mapSize = m.2.mapSize := by
  unfold Edit.perform
  split
  · rfl
  · dsimp only
    split <;> rfl

theorem getCell_perform (hin : m.1.InRange e.cell) (h : e.cell ≠ v) :
    (e.perform m).1.getCell v = m.1.getCell v := by
  unfold Edit.perform
  split
  · exact World.getCell_modifyCell_of_ne _ hin h
  · exact World.getCell_modifyCell_of_ne _ hin h

theorem cells_perform {key : String} (h : e.key ≠ key) :
    (e.perform m).2.cells[key]? = m.2.cells[key]? := by
  unfold Edit.perform
  split
  · exact MapDict.cells_modify_of_ne h
  · dsimp only
    split
    · exact MapDict.cells_modify_of_ne h
    · exact MapDict.cells_erase_of_ne h

/-! ### All edits of a frame -/

theorem foldl_perform_size (es : List Edit) (m : World × MapDict) :
    (es.foldl Edit.perform m).1.size = m.1.size := by
  induction es generalizing m with
  | nil => rfl
  | cons e es ih => exact (ih _).trans perform_size

theorem foldl_perform_mapSize (es : List Edit) (m : World × MapDict) :
    (es.foldl Edit.perform m).2.mapSize = m.2.mapSize := by
  induction es generalizing m with
  | nil => rfl
  | cons e es ih => exact (ih _).trans perform_mapSize

theorem getCell_foldl_perform (hin : ∀ e ∈ es, m.1.InRange e.cell) (h : ∀ e ∈ es, e.cell ≠ v) :
    (es.foldl Edit.perform m).1.getCell v = m.1.getCell v := by
  induction es generalizing m with
  | nil => rfl
  | cons e es ih =>
      obtain ⟨he, hin⟩ := List.forall_mem_cons.mp hin
      obtain ⟨hne, h⟩ := List.forall_mem_cons.mp h
      refine (ih (fun e' he' => ?_) h).trans (getCell_perform he hne)
      rw [World.InRange, perform_size]
      exact hin e' he'

theorem cells_foldl_perform {key : String} (h : ∀ e ∈ es, e.key ≠ key) :
    (es.foldl Edit.perform m).2.cells[key]? = m.2.cells[key]? := by
  induction es generalizing m with
  | nil => rfl
  | cons e es ih =>
      obtain ⟨hne, h⟩ := List.forall_mem_cons.mp h
      exact (ih h).trans (cells_perform hne)

theorem paint_edits (fs : List Face) (s : MapDesigner) (i : Input) :
    let t := fs.foldl
      (fun t f => if i.bPressed (paintKey f) then paint (cellId s.vCursor) t f else t) s
    t.maps = (faceEdits s i fs).foldl Edit.perform s.maps ∧ t.vCursor = s.vCursor := by
  induction fs generalizing s with
  | nil => exact ⟨rfl, rfl⟩
  | cons f fs ih =>
      by_cases hf : i.bPressed (paintKey f)
      · have hcons : faceEdits s i (f :: fs) =
            { key := cellId s.vCursor, cell := s.vCursor
              kind := .face f (s.vTileCursor * vTileSize) } :: faceEdits s i fs := by
          simp [faceEdits, hf]
        rw [hcons, List.foldl_cons, if_pos hf]
        exact ih (paint (cellId s.vCursor) s f)
      · have hcons : faceEdits s i (f :: fs) = faceEdits s i fs := by
          simp [faceEdits, hf]
        rw [hcons, List.foldl_cons, if_neg hf]
        exact ih s

theorem paintFaces_edits (s : MapDesigner) (i : Input) :
    (paintFaces (cellId s.vCursor) i s).maps =
        (faceEdits s i paintOrder).foldl Edit.perform s.maps ∧
      (paintFaces (cellId s.vCursor) i s).vCursor = s.vCursor ∧
      (paintFaces (cellId s.vCursor) i s).world.size = s.world.size := by
  obtain ⟨hpaint, hcursor⟩ := paint_edits paintOrder s i
  refine ⟨hpaint, hcursor, ?_⟩
  have hworld : (paintFaces (cellId s.vCursor) i s).world =
      ((faceEdits s i paintOrder).foldl Edit.perform s.maps).1 := congrArg Prod.fst hpaint
  rw [hworld]
  exact foldl_perform_size _ _

/-- The edits are what a frame does to the maps. -/
theorem onUserUpdate_edits (s : MapDesigner) (i : Input) :
    (onUserUpdate s i).maps = (edits s i).foldl Edit.perform s.maps := by
  cases htab : i.bHeld .tab with
  | true =>
      obtain ⟨hworld, hdict, -⟩ := onUserUpdate_of_tab (s := s) htab
      rw [maps, hworld, hdict, edits, if_pos htab]
      rfl
  | false =>
      have hnot : ¬i.bHeld .tab = true := by rw [htab]; exact Bool.false_ne_true
      obtain ⟨hpaint, hcursor, hsize⟩ := paintFaces_edits s i
      rw [edits, if_neg hnot, List.foldl_append, ← hpaint, blockEdits, onUserUpdate, if_neg hnot]
      dsimp only
      rw [hsize, hcursor]
      cases i.bPressed .space with
      | false => rfl
      | true => rfl

theorem OnMap.onUserUpdate (h : OnMap s) : OnMap (onUserUpdate s i) where
  size := by
    have hworld : (MapDesigner.onUserUpdate s i).world =
        ((edits s i).foldl Edit.perform s.maps).1 := congrArg Prod.fst (onUserUpdate_edits s i)
    rw [hworld, foldl_perform_size]
    exact h.size
  cursor := by
    cases htab : i.bHeld .tab with
    | true =>
        rw [(onUserUpdate_of_tab htab).2.2]
        exact h.cursor
    | false =>
        have hnot : ¬i.bHeld .tab = true := by rw [htab]; exact Bool.false_ne_true
        obtain ⟨-, -, hsize⟩ := paintFaces_edits s i
        have hmove := inMap_moveCursor i (paintFaces (cellId s.vCursor) i s).vCursor
        rw [MapDesigner.onUserUpdate, if_neg hnot]
        dsimp only
        rw [hsize, h.size]
        split
        · exact hmove
        · exact hmove

/-! ### Keys and cells -/

theorem decodes_cursor (h : OnMap s) {u : VI2d} :
    (∃ n, stoi (cellId s.vCursor) = some n ∧ cellOf n = u) ↔ s.vCursor = u := by
  rw [stoi_cellId h.cursor]
  constructor
  · rintro ⟨n, hn, rfl⟩
    rw [← Option.some.inj hn, cellOf_number h.cursor]
  · rintro rfl
    exact ⟨_, rfl, cellOf_number h.cursor⟩

theorem mem_edits (htab : i.bHeld .tab = false) :
    e ∈ edits s i ↔ e ∈ faceEdits s i paintOrder ∨ e ∈ blockEdits s i := by
  rw [edits, if_neg (by rw [htab]; exact Bool.false_ne_true), List.mem_append]

theorem edits_of_tab (htab : i.bHeld .tab = true) : edits s i = [] := if_pos htab

theorem inMap_of_mem_edits (h : OnMap s) (he : e ∈ edits s i) : InMap e.cell := by
  cases htab : i.bHeld .tab with
  | true =>
      rw [edits_of_tab htab] at he
      exact absurd he List.not_mem_nil
  | false =>
      rcases (mem_edits htab).mp he with he | he
      · obtain ⟨f, -, rfl⟩ := List.mem_map.mp he
        exact h.cursor
      · obtain ⟨-, he⟩ := List.mem_ite_nil_right.mp he
        rw [List.mem_singleton.mp he, h.size]
        exact inMap_moveCursor i s.vCursor

theorem decodes_iff (h : OnMap s) :
    (∀ e ∈ edits s i, ∃ n, stoi e.key = some n ∧ cellOf n = e.cell) ↔ BlocksUnderKey s i := by
  cases htab : i.bHeld .tab with
  | true =>
      rw [edits_of_tab htab]
      exact iff_of_true (by simp) fun hno => nomatch htab.symm.trans hno
  | false =>
      have hfaces : ∀ e ∈ faceEdits s i paintOrder,
          ∃ n, stoi e.key = some n ∧ cellOf n = e.cell := by
        intro e he
        obtain ⟨f, -, rfl⟩ := List.mem_map.mp he
        exact (decodes_cursor h).mpr rfl
      simp only [mem_edits htab, or_imp, forall_and]
      rw [and_iff_right hfaces, BlocksUnderKey, blockEdits, htab]
      cases i.bPressed .space with
      | false => simp
      | true =>
          rw [if_pos rfl, List.forall_mem_singleton, decodes_cursor h, eq_comm]
          simp

/-- The frame of a designer with its cursor on the map touches one cell in
both maps with every edit, but for a SPACE under a cursor that moves. -/
theorem touchesOneCell_iff (h : OnMap s) : TouchesOneCell s i ↔ BlocksUnderKey s i := by
  rw [← decodes_iff h]
  constructor
  · exact TouchesOneCell.decodes
  · intro hdecodes
    have hmaps := onUserUpdate_edits s i
    have hworld : (onUserUpdate s i).world = ((edits s i).foldl Edit.perform s.maps).1 :=
      congrArg Prod.fst hmaps
    have hdict : (onUserUpdate s i).mapDict = ((edits s i).foldl Edit.perform s.maps).2 :=
      congrArg Prod.snd hmaps
    have hin : ∀ e ∈ edits s i, s.maps.1.InRange e.cell := fun e he =>
      (inRange_iff_inMap h.size).mpr (inMap_of_mem_edits h he)
    refine ⟨hmaps, hdecodes, fun v hv => ?_, fun key hkey => ?_, ?_⟩
    · rw [hworld]
      exact getCell_foldl_perform hin hv
    · rw [hdict]
      exact cells_foldl_perform hkey
    · rw [hdict]
      exact foldl_perform_mapSize _ _

end MapDesigner

end AmongUs
