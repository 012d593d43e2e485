import AmongUs.Map.Document

/-!
The map designer with its document.

Here the designer keeps the value of the JSON library, as the source does,
and every access to the value may throw. Over the document of a map it does
what the designer does over the map, and nothing throws
(`document_onUserUpdate`).

A file can hold any other document. An edit writes to a member of the element
under the key of the cursor, so it needs an object in both places, or nothing
yet; where there is something else the frame throws, and only there
(`onUserUpdate_eq_none_iff`). What the edits leave can be loaded and is read
back from its text as it was before (`Kept`).
-/

namespace AmongUs

open Json

/-- The designer of the source. -/
structure DocumentDesigner where
  world : World
  mapDict : Json
  vCursor : VI2d
  vTileCursor : VI2d

namespace DocumentDesigner

open MapDesigner

/-- The map that has not been edited is `null`, and has no size yet. -/
def onUserCreate : Option DocumentDesigner := do
  let mapDict ← Json.null.modifyAt "mapSize" fun _ => some (tileJson mapSize)
  return {
    world := (World.create mapSize.x mapSize.y).reset
    mapDict
    vCursor := ⟨0, 0⟩
    vTileCursor := ⟨0, 0⟩ }

def paint (cursorId : String) (s : DocumentDesigner) (f : Face) : Option DocumentDesigner := do
  let vSpriteTileSelect := s.vTileCursor * vTileSize
  let mapDict ← assignTile cursorId vSpriteTileSelect s.mapDict f
  return { s with
    world := s.world.modifyCell s.vCursor (setTile f vSpriteTileSelect)
    mapDict }

def paintFaces (cursorId : String) (i : Input) (s : DocumentDesigner) : Option DocumentDesigner :=
  paintOrder.foldlM
    (fun s f => if i.bPressed (paintKey f) then paint cursorId s f else some s) s

def toggle (cursorId : String) (s : DocumentDesigner) : Option DocumentDesigner := do
  let world := s.world.modifyCell s.vCursor fun c => { c with wall := !c.wall }
  let mapDict ←
    if (world.getCell s.vCursor).wall then assignWall cursorId s.mapDict
    else s.mapDict.eraseKey cursorId
  return { s with world, mapDict }

def onUserUpdate (s : DocumentDesigner) (i : Input) : Option DocumentDesigner :=
  let cursorId := cellId s.vCursor
  if i.bHeld .tab then
    if i.mousePressed then
      some { s with vTileCursor := ⟨i.vMouse.x.tdiv vTileSize.x, i.vMouse.y.tdiv vTileSize.y⟩ }
    else some s
  else do
    let s ← paintFaces cursorId i s
    let s := { s with vCursor := moveCursor i s.world.size s.vCursor }
    if i.bPressed .space then toggle cursorId s else return s

end DocumentDesigner

/-- The designer with the document of the map. -/
def MapDesigner.document (t : MapDesigner) : DocumentDesigner where
  world := t.world
  mapDict := t.mapDict.toJson
  vCursor := t.vCursor
  vTileCursor := t.vTileCursor

variable {Φ : FloatText} {t : MapDesigner} {i : Input} {v : VI2d}

/-! ### A frame of the designer -/

namespace MapDesigner

variable {key : String}

theorem document_onUserCreate : DocumentDesigner.onUserCreate = some onUserCreate.document := by
  have hdoc : Members.empty.insert "mapSize" (tileJson mapSize) = onUserCreate.mapDict.members := by
    refine Members.ext_find fun key => ?_
    rw [Members.find_insert, find_members]
    split
    · rfl
    · rw [cells_onUserCreate]
      rfl
  have hnull : Json.null.modifyAt "mapSize" (fun _ => some (tileJson mapSize)) =
      some onUserCreate.mapDict.toJson := by
    rw [MapDict.toJson, ← hdoc]
    rfl
  rw [DocumentDesigner.onUserCreate, hnull, Option.bind_eq_bind, Option.bind_some, document,
    onUserCreate_world]
  rfl

theorem document_paint (hkey : key ≠ "mapSize") (t : MapDesigner) (f : Face) :
    t.document.paint key f = some (paint key t f).document := by
  rw [DocumentDesigner.paint, document, assignTile_toJson hkey, Option.bind_eq_bind,
    Option.bind_some]
  rfl

theorem document_paintFaces (hkey : key ≠ "mapSize") (i : Input) (fs : List Face)
    (t : MapDesigner) :
    fs.foldlM
        (fun s f => if i.bPressed (paintKey f) then DocumentDesigner.paint key s f else some s)
        t.document =
      some
        (fs.foldl (fun t f => if i.bPressed (paintKey f) then paint key t f else t) t).document := by
  induction fs generalizing t with
  | nil => rfl
  | cons f fs ih =>
      rw [List.foldlM_cons, List.foldl_cons]
      cases i.bPressed (paintKey f) with
      | false => exact ih t
      | true =>
          rw [if_pos rfl, if_pos rfl, document_paint hkey, Option.bind_eq_bind, Option.bind_some]
          exact ih _

theorem document_toggle (hkey : key ≠ "mapSize") (t : MapDesigner) :
    t.document.toggle key = some (toggle key t).document := by
  rw [DocumentDesigner.toggle, toggle, document]
  dsimp only
  split
  · rw [assignWall_toJson hkey]
    rfl
  · rw [eraseKey_toJson hkey]
    rfl

/-- A frame of the source does what a frame over the map does, and does not
throw. -/
theorem document_onUserUpdate (hcursor : InMap t.vCursor) (i : Input) :
    t.document.onUserUpdate i = some (t.onUserUpdate i).document := by
  have hkey := cellId_ne_mapSize hcursor
  have hpaint : DocumentDesigner.paintFaces (cellId t.vCursor) i t.document =
      some (paintFaces (cellId t.vCursor) i t).document :=
    document_paintFaces hkey i paintOrder t
  rw [DocumentDesigner.onUserUpdate, onUserUpdate]
  split
  · split <;> rfl
  · have hcell : cellId t.document.vCursor = cellId t.vCursor := rfl
    rw [hcell, hpaint, Option.bind_eq_bind, Option.bind_some]
    split
    · exact document_toggle hkey { paintFaces (cellId t.vCursor) i t with
        vCursor := moveCursor i (paintFaces (cellId t.vCursor) i t).world.size
          (paintFaces (cellId t.vCursor) i t).vCursor }
    · rfl

/-! ### What a frame keeps -/

theorem fits_selected {v : VI2d} (h : FitsInt32 v) :
    FitsInt32 ((⟨v.x.tdiv vTileSize.x, v.y.tdiv vTileSize.y⟩ : VI2d) * vTileSize) := by
  have hcoord {n : ℤ} (hn : -2 ^ 31 ≤ n ∧ n < 2 ^ 31) :
      -2 ^ 31 ≤ n.tdiv 32 * 32 ∧ n.tdiv 32 * 32 < 2 ^ 31 := by
    -- the division rounds towards zero, so the product is not beyond `n`
    rcases le_total 0 n with hpos | hneg
    · rw [Int.tdiv_eq_ediv_of_nonneg hpos]
      omega
    · obtain ⟨m, rfl⟩ : ∃ m, n = -m := ⟨-n, by omega⟩
      rw [Int.neg_tdiv, Int.tdiv_eq_ediv_of_nonneg (by omega)]
      omega
  exact ⟨hcoord h.1, hcoord h.2⟩

theorem designed_foldl_perform {es : List Edit} {m : World × MapDict} {u : VI2d} (hu : InMap u)
    (hkey : ∀ e ∈ es, e.key = cellId u)
    (htile : ∀ e ∈ es, ∀ f tile, e.kind = .face f tile → FitsInt32 tile)
    (h : m.2.Designed) : (es.foldl Edit.perform m).2.Designed := by
  induction es generalizing m with
  | nil => exact h
  | cons e es ih =>
      obtain ⟨hkey, hkeys⟩ := List.forall_mem_cons.mp hkey
      obtain ⟨htile, htiles⟩ := List.forall_mem_cons.mp htile
      refine ih hkeys htiles ?_
      rw [Edit.perform, hkey]
      split
      · next f tile hkind => exact h.modify hu fun e he => he.setEntryTile (htile f tile hkind)
      · dsimp only
        split
        · exact h.modify hu fun _ _ => designed_wallEntry
        · exact h.erase _

theorem mem_edits_kind {e : Edit} (he : e ∈ edits t i) :
    (∃ f, i.bPressed (paintKey f) ∧
      e = ⟨cellId t.vCursor, t.vCursor, .face f (t.vTileCursor * vTileSize)⟩) ∨
    e = ⟨cellId t.vCursor, moveCursor i t.world.size t.vCursor, .block⟩ := by
  cases htab : i.bHeld .tab with
  | true =>
      rw [edits_of_tab htab] at he
      exact absurd he List.not_mem_nil
  | false =>
      rcases (mem_edits htab).mp he with he | he
      · obtain ⟨f, hf, rfl⟩ := List.mem_map.mp he
        exact .inl ⟨f, (List.mem_filter.mp hf).2, rfl⟩
      · obtain ⟨-, he⟩ := List.mem_ite_nil_right.mp he
        exact .inr (List.mem_singleton.mp he)

theorem designed_onUserUpdate (hcursor : InMap t.vCursor) (hdict : t.mapDict.Designed)
    (htile : FitsInt32 (t.vTileCursor * vTileSize)) (i : Input) :
    (t.onUserUpdate i).mapDict.Designed := by
  have hmaps : (t.onUserUpdate i).mapDict = ((edits t i).foldl Edit.perform t.maps).2 :=
    congrArg Prod.snd (onUserUpdate_edits t i)
  rw [hmaps]
  refine designed_foldl_perform hcursor (fun e he => ?_) (fun e he f tile hkind => ?_) hdict
  · rcases mem_edits_kind he with ⟨-, -, rfl⟩ | rfl
    · rfl
    · rfl
  · rcases mem_edits_kind he with ⟨g, -, rfl⟩ | rfl
    · obtain ⟨-, rfl⟩ := EditKind.face.inj hkind
      exact htile
    · exact EditKind.noConfusion hkind

theorem vTileCursor_foldl_paint (key : String) (i : Input) (fs : List Face)
    (t : MapDesigner) :
    (fs.foldl (fun t f => if i.bPressed (paintKey f) then paint key t f else t) t).vTileCursor =
      t.vTileCursor := by
  induction fs generalizing t with
  | nil => rfl
  | cons f fs ih =>
      rw [List.foldl_cons, ih]
      split <;> rfl

theorem fits_vTileCursor (htile : FitsInt32 (t.vTileCursor * vTileSize))
    (hi : FitsInt32 i.vMouse) : FitsInt32 ((t.onUserUpdate i).vTileCursor * vTileSize) := by
  rw [onUserUpdate]
  split
  · split
    · exact fits_selected hi
    · exact htile
  · have hpaint := vTileCursor_foldl_paint (cellId t.vCursor) i paintOrder t
    rw [← paintFaces] at hpaint
    rw [← hpaint] at htile
    dsimp only
    split
    · exact htile
    · exact htile

end MapDesigner

/-! ### Any document -/

/-- The document and its element under the key are objects, or not there
yet. -/
def Json.EditableAt (doc : Json) (key : String) : Prop :=
  ∃ ms, doc.asMembers = some ms ∧ ((ms.find key).getD .null).asMembers.isSome

/-- The document can be loaded, and its text is read back. -/
structure Json.Kept (Φ : FloatText) (doc : Json) : Prop where
  loadable : doc.Loadable
  fits : Serializer.Fits Φ doc

section

variable {doc doc' j : Json} {key name : String}

theorem assign_eq_some_iff :
    (doc.modifyAt key fun e => e.modifyAt name fun _ => some j) = some doc' ↔
      ∃ ms es, doc.asMembers = some ms ∧ ((ms.find key).getD .null).asMembers = some es ∧
        doc' = ofMembers (ms.insert key (ofMembers (es.insert name j))) := by
  simp only [modifyAt_eq_some_iff, Option.some.injEq]
  constructor
  · rintro ⟨ms, _, hms, ⟨es, _, hes, rfl, rfl⟩, rfl⟩
    exact ⟨ms, es, hms, hes, rfl⟩
  · rintro ⟨ms, es, hms, hes, rfl⟩
    exact ⟨ms, _, hms, ⟨es, _, hes, rfl, rfl⟩, rfl⟩

theorem isSome_assign_iff :
    (doc.modifyAt key fun e => e.modifyAt name fun _ => some j).isSome ↔ doc.EditableAt key := by
  rw [Option.isSome_iff_exists]
  simp only [assign_eq_some_iff, EditableAt, Option.isSome_iff_exists]
  constructor
  · rintro ⟨_, ms, es, hms, hes, -⟩
    exact ⟨ms, hms, es, hes⟩
  · rintro ⟨ms, hms, es, hes⟩
    exact ⟨_, ms, es, hms, hes, rfl⟩

/-- One write makes way for the next. -/
theorem editableAt_of_assign
    (h : (doc.modifyAt key fun e => e.modifyAt name fun _ => some j) = some doc') :
    doc'.EditableAt key ∧ doc'.members.isSome := by
  obtain ⟨ms, es, -, -, rfl⟩ := assign_eq_some_iff.mp h
  refine ⟨⟨_, asMembers_ofMembers _, ?_⟩, by rw [members_ofMembers]; rfl⟩
  rw [Members.find_insert_self, Option.getD_some, asMembers_ofMembers]
  rfl

theorem readable_insert {e : Json} {es : Members} (he : e.Readable) (hes : e.asMembers = some es)
    (hj : ∀ f, faceS f = name → j.toTile.isSome) : (ofMembers (es.insert name j)).Readable := by
  intro f tile htile
  rw [find?_ofMembers, Members.find_insert] at htile
  split at htile
  · next hname => rw [← Option.some.inj htile]; exact hj f hname
  · rw [← find?_of_asMembers hes] at htile
    exact he f tile htile

theorem fits_insert {e : Json} {es : Members} (he : Serializer.Fits Φ e)
    (hes : e.asMembers = some es) (hj : Serializer.Fits Φ j) :
    Serializer.Fits Φ (ofMembers (es.insert name j)) := by
  refine fits_ofMembers fun a ha => ?_
  rcases Members.mem_insertList ha with rfl | ha
  · exact hj
  · exact he.of_asMembers hes ha

/-- A write to an element of a cell. -/
theorem Json.Kept.assign (h : doc.Kept Φ) (hv : InMap v) (hj : Serializer.Fits Φ j)
    (htile : ∀ f, faceS f = name → j.toTile.isSome)
    (hdoc : (doc.modifyAt (cellId v) fun e => e.modifyAt name fun _ => some j) = some doc') :
    doc'.Kept Φ := by
  obtain ⟨ms, es, hms, hes, rfl⟩ := assign_eq_some_iff.mp hdoc
  -- what is there under the key is `null` or an item of the document
  have helement : ((ms.find (cellId v)).getD .null).Readable ∧
      Serializer.Fits Φ ((ms.find (cellId v)).getD .null) := by
    cases hfind : ms.find (cellId v) with
    | none => exact ⟨fun _ _ htile => (nomatch htile), trivial⟩
    | some e =>
        have hmem := Members.mem_list_iff.mpr hfind
        refine ⟨(h.loadable _ (mem_items_of_asMembers hms hmem) (isMapSize_cellId hv)).2, ?_⟩
        exact h.fits.of_asMembers hms hmem
  constructor
  · intro item hitem hskip
    rw [items_ofMembers] at hitem
    rcases Members.mem_insertList hitem with rfl | hitem
    · exact ⟨by rw [stoi_cellId hv]; rfl, readable_insert helement.1 hes htile⟩
    · exact h.loadable item (mem_items_of_asMembers hms hitem) hskip
  · exact fits_insert h.fits hms (fits_insert helement.2 hes hj)

theorem Json.Kept.assignTile (h : doc.Kept Φ) (hv : InMap v) {tile : VI2d} {f : Face}
    (htile : FitsInt32 tile) (hdoc : assignTile (cellId v) tile doc f = some doc') :
    doc'.Kept Φ :=
  h.assign hv (fits_tileJson htile) (fun _ _ => by rw [toTile_tileJson htile]; rfl) hdoc

theorem Json.Kept.foldlM_assignTile (h : doc.Kept Φ) (hv : InMap v) {tile : VI2d}
    {fs : List Face} (htile : FitsInt32 tile)
    (hdoc : fs.foldlM (AmongUs.assignTile (cellId v) tile) doc = some doc') : doc'.Kept Φ := by
  induction fs generalizing doc with
  | nil => exact Option.some.inj hdoc ▸ h
  | cons f fs ih =>
      rw [List.foldlM_cons] at hdoc
      obtain ⟨doc₁, hfirst, hrest⟩ := Option.bind_eq_some_iff.mp hdoc
      exact ih (h.assignTile hv htile hfirst) hrest

theorem Json.Kept.assignWall (h : doc.Kept Φ) (hv : InMap v)
    (hdoc : assignWall (cellId v) doc = some doc') : doc'.Kept Φ := by
  obtain ⟨doc₁, htype, htiles⟩ := Option.bind_eq_some_iff.mp hdoc
  have hone : Serializer.Fits Φ (.integer 1) := ⟨by norm_num, by norm_num⟩
  exact (h.assign hv hone (fun f hf => absurd hf (faceS_ne_type f)) htype).foldlM_assignTile hv
    (by decide) htiles

theorem Json.Kept.eraseKey (h : doc.Kept Φ) (hdoc : doc.eraseKey key = some doc') :
    doc'.Kept Φ := by
  obtain ⟨ms, hms, rfl⟩ := eraseKey_eq_some_iff.mp hdoc
  have hmem {a : String × Json} (ha : a ∈ (ms.erase key).list) : a ∈ ms.list :=
    List.mem_of_mem_filter ha
  constructor
  · intro item hitem
    rw [items_ofMembers] at hitem
    exact h.loadable item (items_of_members hms ▸ hmem hitem)
  · exact fits_ofMembers fun a ha => h.fits.of_asMembers (asMembers_of_members hms) (hmem ha)

theorem exists_foldlM_assignTile (h : doc.EditableAt key) (tile : VI2d) (fs : List Face) :
    ∃ doc', fs.foldlM (assignTile key tile) doc = some doc' := by
  induction fs generalizing doc with
  | nil => exact ⟨doc, rfl⟩
  | cons f fs ih =>
      have hsome : (assignTile key tile doc f).isSome := isSome_assign_iff.mpr h
      obtain ⟨doc₁, hfirst⟩ := Option.isSome_iff_exists.mp hsome
      obtain ⟨doc', hrest⟩ := ih (editableAt_of_assign hfirst).1
      refine ⟨doc', ?_⟩
      rw [List.foldlM_cons, hfirst]
      exact hrest

theorem isSome_assignWall_iff : (assignWall key doc).isSome ↔ doc.EditableAt key := by
  have hassign : (doc.modifyAt key fun e =>
      e.modifyAt "type" fun _ => some (.integer 1)).isSome ↔ doc.EditableAt key :=
    isSome_assign_iff
  rw [← hassign, assignWall]
  cases htype : doc.modifyAt key fun e => e.modifyAt "type" fun _ => some (.integer 1) with
  | none => simp
  | some doc₁ =>
      obtain ⟨doc', hrest⟩ :=
        exists_foldlM_assignTile (editableAt_of_assign htype).1 ⟨0, 0⟩ faceIds
      simp [hrest]

end

namespace DocumentDesigner

open MapDesigner

/-- What holds of the designer whatever is in the file. -/
structure Kept (Φ : FloatText) (s : DocumentDesigner) : Prop where
  size : s.world.size = mapSize
  cursor : InMap s.vCursor
  tile : FitsInt32 (s.vTileCursor * vTileSize)
  mapDict : s.mapDict.Kept Φ

variable {s s' : DocumentDesigner} {key : String}

theorem Kept.paint (h : s.Kept Φ) {f : Face} (hv : InMap v)
    (hpaint : s.paint (cellId v) f = some s') : s'.Kept Φ := by
  obtain ⟨mapDict, hassign, heq⟩ := Option.bind_eq_some_iff.mp hpaint
  obtain rfl := Option.some.inj heq
  exact ⟨(World.modifyCell_size ..).trans h.size, h.cursor, h.tile,
    h.mapDict.assignTile hv h.tile hassign⟩

theorem Kept.foldlM_paint {fs : List Face} (h : s.Kept Φ) (hv : InMap v)
    (hpaint : fs.foldlM
      (fun s f => if i.bPressed (paintKey f) then DocumentDesigner.paint (cellId v) s f else some s)
      s = some s') :
    s'.Kept Φ := by
  induction fs generalizing s with
  | nil => exact Option.some.inj hpaint ▸ h
  | cons f fs ih =>
      rw [List.foldlM_cons] at hpaint
      obtain ⟨s₁, hfirst, hrest⟩ := Option.bind_eq_some_iff.mp hpaint
      split at hfirst
      · exact ih (h.paint hv hfirst) hrest
      · exact ih (Option.some.inj hfirst ▸ h) hrest

theorem toggle_eq (key : String) (s : DocumentDesigner) : s.toggle key =
    (if (s.world.getCell s.vCursor).wall then s.mapDict.eraseKey key
      else assignWall key s.mapDict).map fun mapDict => { s with
        world := s.world.modifyCell s.vCursor fun c => { c with wall := !c.wall }
        mapDict } := by
  rw [DocumentDesigner.toggle]
  dsimp only
  rw [World.getCell_modifyCell_self]
  cases (s.world.getCell s.vCursor).wall with
  | false => cases assignWall key s.mapDict <;> rfl
  | true => cases s.mapDict.eraseKey key <;> rfl

theorem Kept.toggle (h : s.Kept Φ) (hv : InMap v) (htoggle : s.toggle (cellId v) = some s') :
    s'.Kept Φ := by
  rw [toggle_eq] at htoggle
  obtain ⟨mapDict, hassign, rfl⟩ := Option.map_eq_some_iff.mp htoggle
  refine ⟨(World.modifyCell_size ..).trans h.size, h.cursor, h.tile, ?_⟩
  split at hassign
  · exact h.mapDict.eraseKey hassign
  · exact h.mapDict.assignWall hv hassign

/-- **What the edits keep.** Whatever the document is, a frame that does not
throw leaves one that can be loaded and is read back. -/
theorem Kept.onUserUpdate (h : s.Kept Φ) (hi : FitsInt32 i.vMouse)
    (hupdate : s.onUserUpdate i = some s') : s'.Kept Φ := by
  rw [DocumentDesigner.onUserUpdate] at hupdate
  dsimp only at hupdate
  split at hupdate
  · split at hupdate
    · obtain rfl := Option.some.inj hupdate
      exact ⟨h.size, h.cursor, fits_selected hi, h.mapDict⟩
    · obtain rfl := Option.some.inj hupdate
      exact h
  · obtain ⟨s₁, hpaint, hrest⟩ := Option.bind_eq_some_iff.mp hupdate
    have h₁ := h.foldlM_paint h.cursor hpaint
    have hmoved : Kept Φ { s₁ with vCursor := moveCursor i s₁.world.size s₁.vCursor } := by
      refine ⟨h₁.size, ?_, h₁.tile, h₁.mapDict⟩
      rw [h₁.size]
      exact inMap_moveCursor i s₁.vCursor
    split at hrest
    · exact hmoved.toggle h.cursor hrest
    · exact Option.some.inj hrest ▸ hmoved

/-! ### Edits that throw -/

/-- A face is painted. -/
def paints (i : Input) : Bool := paintOrder.any fun f => i.bPressed (paintKey f)

/-- The wall of the cell that SPACE works on. -/
def wallAhead (s : DocumentDesigner) (i : Input) : Bool :=
  (s.world.getCell (moveCursor i s.world.size s.vCursor)).wall

/-- The document does not take the edits of the frame: something is written
where there is no object, or is taken away from what is none. -/
def Refuses (s : DocumentDesigner) (i : Input) : Prop :=
  (paints i = true ∨ i.bPressed .space = true ∧ s.wallAhead i = false) ∧
      ¬s.mapDict.EditableAt (cellId s.vCursor) ∨
    paints i = false ∧ i.bPressed .space = true ∧ s.wallAhead i = true ∧ s.mapDict.members = none

theorem isSome_paint_iff {f : Face} :
    (s.paint key f).isSome ↔ s.mapDict.EditableAt key := by
  have hassign : (assignTile key (s.vTileCursor * vTileSize) s.mapDict f).isSome ↔
      s.mapDict.EditableAt key := isSome_assign_iff
  rw [← hassign, paint]
  cases assignTile key (s.vTileCursor * vTileSize) s.mapDict f <;> rfl

theorem editableAt_of_paint {f : Face} (h : s.paint key f = some s') :
    s'.mapDict.EditableAt key ∧ s'.mapDict.members.isSome := by
  obtain ⟨mapDict, hassign, heq⟩ := Option.bind_eq_some_iff.mp h
  obtain rfl := Option.some.inj heq
  exact editableAt_of_assign hassign

theorem foldlM_paint_of_not {fs : List Face} (h : ∀ f ∈ fs, i.bPressed (paintKey f) = false)
    (s : DocumentDesigner) :
    fs.foldlM (fun s f => if i.bPressed (paintKey f) then paint key s f else some s) s =
      some s := by
  induction fs with
  | nil => rfl
  | cons f fs ih =>
      obtain ⟨hf, hfs⟩ := List.forall_mem_cons.mp h
      rw [List.foldlM_cons, hf, if_neg Bool.false_ne_true]
      exact ih hfs

theorem foldlM_paint_eq_none {fs : List Face} (h : ¬s.mapDict.EditableAt key)
    (hpaint : ∃ f ∈ fs, i.bPressed (paintKey f) = true) :
    fs.foldlM (fun s f => if i.bPressed (paintKey f) then paint key s f else some s) s =
      none := by
  induction fs with
  | nil => simp at hpaint
  | cons f fs ih =>
      rw [List.foldlM_cons]
      cases hf : i.bPressed (paintKey f) with
      | true =>
          rw [if_pos rfl, Option.not_isSome_iff_eq_none.mp (mt isSome_paint_iff.mp h)]
          rfl
      | false =>
          obtain ⟨g, hg, hpressed⟩ := hpaint
          refine ih ⟨g, List.mem_of_ne_of_mem ?_ hg, hpressed⟩
          rintro rfl
          exact Bool.false_ne_true (hf.symm.trans hpressed)

/-- The first face that is painted makes an object of what is missing. -/
theorem exists_foldlM_paint (h : s.mapDict.EditableAt key) (fs : List Face) :
    ∃ s', fs.foldlM (fun s f => if i.bPressed (paintKey f) then paint key s f else some s) s =
        some s' ∧ s'.mapDict.EditableAt key ∧
      ((∃ f ∈ fs, i.bPressed (paintKey f) = true) ∨ s.mapDict.members.isSome →
        s'.mapDict.members.isSome) := by
  induction fs generalizing s with
  | nil => exact ⟨s, rfl, h, by simp⟩
  | cons f fs ih =>
      rw [List.foldlM_cons]
      cases hf : i.bPressed (paintKey f) with
      | true =>
          obtain ⟨s₁, hpaint⟩ := Option.isSome_iff_exists.mp (isSome_paint_iff (f := f) |>.mpr h)
          obtain ⟨hedit, hmembers⟩ := editableAt_of_paint hpaint
          obtain ⟨s', hrest, hedit', hmembers'⟩ := ih hedit
          rw [if_pos rfl, hpaint]
          exact ⟨s', hrest, hedit', fun _ => hmembers' (.inr hmembers)⟩
      | false =>
          obtain ⟨s', hrest, hedit', hmembers'⟩ := ih h
          rw [if_neg Bool.false_ne_true]
          refine ⟨s', hrest, hedit', fun hor => hmembers' (hor.imp_left ?_)⟩
          rintro ⟨g, hg, hpressed⟩
          refine ⟨g, List.mem_of_ne_of_mem ?_ hg, hpressed⟩
          rintro rfl
          exact Bool.false_ne_true (hf.symm.trans hpressed)

theorem toggle_eq_none_iff : s.toggle key = none ↔
    if (s.world.getCell s.vCursor).wall then s.mapDict.members = none
    else ¬s.mapDict.EditableAt key := by
  rw [toggle_eq, Option.map_eq_none_iff]
  split
  · rw [eraseKey, Option.map_eq_none_iff]
  · rw [← Option.not_isSome_iff_eq_none, isSome_assignWall_iff]

/-- **Where an edit throws.** A frame throws exactly when the document does
not take its edits. -/
theorem onUserUpdate_eq_none_iff :
    s.onUserUpdate i = none ↔ i.bHeld .tab = false ∧ s.Refuses i := by
  rw [DocumentDesigner.onUserUpdate]
  cases htab : i.bHeld .tab with
  | true =>
      rw [if_pos rfl]
      split <;> simp
  | false =>
      rw [if_neg Bool.false_ne_true, and_iff_right rfl, Refuses, paintFaces]
      cases hpaints : paints i with
      | false =>
          have hnot : ∀ f ∈ paintOrder, i.bPressed (paintKey f) = false := by
            simpa [paints] using hpaints
          rw [foldlM_paint_of_not hnot, Option.bind_eq_bind, Option.bind_some]
          cases hspace : i.bPressed .space with
          | false => simp
          | true =>
              rw [if_pos rfl, toggle_eq_none_iff]
              cases hwall : s.wallAhead i with
              | true =>
                  rw [wallAhead] at hwall
                  simp [hwall]
              | false =>
                  rw [wallAhead] at hwall
                  simp [hwall]
      | true =>
          have hsome : ∃ f ∈ paintOrder, i.bPressed (paintKey f) = true := by
            simpa [paints] using hpaints
          by_cases hedit : s.mapDict.EditableAt (cellId s.vCursor)
          · obtain ⟨s₁, hpaint, hedit₁, hmembers⟩ := exists_foldlM_paint (i := i) hedit paintOrder
            have hmembers := hmembers (.inl hsome)
            refine iff_of_false ?_ (by simp [hedit])
            rw [hpaint, Option.bind_eq_bind, Option.bind_some]
            split
            · rw [toggle_eq_none_iff]
              split
              · exact Option.ne_none_iff_isSome.mpr hmembers
              · exact not_not.mpr hedit₁
            · exact nofun
          · refine iff_of_true ?_ (.inl ⟨.inl rfl, hedit⟩)
            rw [foldlM_paint_eq_none hedit hsome]
            rfl

end DocumentDesigner

end AmongUs
