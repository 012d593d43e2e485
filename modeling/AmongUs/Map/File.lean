import AmongUs.Json.Access
import AmongUs.Json.RoundTrip
import AmongUs.Map.Reload

/-!
The map file as both programs read it.

`LoadMap` takes the document from the stream and goes over its items. It
skips `mapSize`, which it compares as a C string; every other key has to
start with a number, and of the value it takes the `type` and the tiles of
the faces that are there. A tile is two elements that convert to `int32_t`.
Anything else throws, and the program ends.

So a document is loaded exactly when it is `Loadable`, and then a cell has
what the last items say that lead to it (`loadFile_spec`).
-/

namespace AmongUs

open Json MapDesigner

/-- `olc::Face_s`. -/
def faceS : Face → String
  | .floor => "0"
  | .north => "1"
  | .east => "2"
  | .south => "3"
  | .west => "4"
  | .top => "5"

/-- The faces in the order of their numbers. -/
def faceIds : List Face := [.floor, .north, .east, .south, .west, .top]

/-- `strcmp(key.c_str(), "mapSize")` finds no difference. -/
def isMapSize (key : String) : Bool :=
  key.toList.takeWhile (· ≠ Char.ofNat 0) == "mapSize".toList

/-- The first two elements, as the constructor of `vi2d` takes them. -/
def Json.toTile (j : Json) : Option VI2d := do
  let x ← j.element 0 >>= toInt32
  let y ← j.element 1 >>= toInt32
  return ⟨x, y⟩

/-- What the file says of a face. -/
def loadFace (value : Json) (c : SCell) (f : Face) : Option SCell :=
  match value.find? (faceS f) with
  | none => some c
  | some tile => tile.toTile.map fun v => setTile f v c

def Json.isWall (value : Json) : Bool := (value.find? "type").any fun type => type.equalsInt 1

def loadValue (value : Json) (c : SCell) : Option SCell :=
  faceIds.foldlM (loadFace value) { c with wall := value.isWall }

def loadItem (w : World) (item : String × Json) : Option World :=
  if isMapSize item.1 then some w
  else do
    let key_ ← stoi item.1
    let c ← loadValue item.2 (w.getCell (cellOf key_))
    return w.modifyCell (cellOf key_) fun _ => c

/-- The loop over the items. -/
def loadItems (w : World) (doc : Json) : Option World := doc.items.foldlM loadItem w

/-- `LoadMap` with what is in the file. -/
def loadFile (Φ : FloatText) (w : World) (text : List UInt8) : Option World := do
  let doc ← Parser.fromStream Φ text
  loadItems w.reset doc

/-- Every tile that is there is one. -/
def Json.Readable (value : Json) : Prop :=
  ∀ f tile, value.find? (faceS f) = some tile → tile.toTile.isSome

/-- The item is skipped, or it has the number of a cell and readable tiles. -/
def ItemLoadable (item : String × Json) : Prop :=
  isMapSize item.1 = false → (stoi item.1).isSome ∧ item.2.Readable

def Json.Loadable (doc : Json) : Prop := ∀ item ∈ doc.items, ItemLoadable item

/-- What is known of a cell from its value. -/
def Entry.ofJson (value : Json) : Entry where
  type := (value.find? "type").map fun type => if type.equalsInt 1 then 1 else 0
  face f := (value.find? (faceS f)).bind toTile

/-- The item is one of the cell. -/
def leadsTo (v : VI2d) (item : String × Json) : Bool :=
  !isMapSize item.1 && (stoi item.1).map cellOf == some v

/-- What the last items make of a cell: the last that leads to it says
whether it is a wall, and a face has the tile of the last that lists it. -/
def itemsCell (items : List (String × Json)) (v : VI2d) (c : SCell) : SCell where
  wall := ((items.filter (leadsTo v)).getLast?.map fun item => item.2.isWall).getD c.wall
  id f := ((items.filter (leadsTo v)).filterMap fun item =>
    (Entry.ofJson item.2).face f).getLast?.getD (c.id f)

variable {Φ : FloatText} {w w' : World} {doc value : Json} {text : List UInt8} {c : SCell}
  {v : VI2d}

theorem mem_faceIds (f : Face) : f ∈ faceIds := by
  cases f <;> decide

/-! ### A value -/

@[simp] theorem write_ofJson_wall (value : Json) (c : SCell) :
    ((Entry.ofJson value).write c).wall = value.isWall := by
  rw [Bool.eq_iff_iff, Entry.write, Entry.ofJson, isWall, decide_eq_true_eq]
  cases value.find? "type" with
  | none => simp
  | some type => cases heq : type.equalsInt 1 <;> simp [heq]

theorem loadFace_of_readable (h : value.Readable) (c : SCell) (f : Face) :
    loadFace value c f =
      some { c with
        id := Function.update c.id f (((Entry.ofJson value).face f).getD (c.id f)) } := by
  cases htile : value.find? (faceS f) with
  | none => simp [loadFace, Entry.ofJson, htile]
  | some tile =>
      obtain ⟨v, hv⟩ := Option.isSome_iff_exists.mp (h f tile htile)
      simp [loadFace, Entry.ofJson, htile, hv, setTile]

theorem foldlM_loadFace (h : value.Readable) (fs : List Face) (c : SCell) :
    fs.foldlM (loadFace value) c = some
      { c with id := fun f =>
          if f ∈ fs then ((Entry.ofJson value).face f).getD (c.id f) else c.id f } := by
  induction fs generalizing c with
  | nil => simp [pure]
  | cons g fs ih =>
      rw [List.foldlM_cons, loadFace_of_readable h, Option.bind_eq_bind, Option.bind_some, ih,
        Option.some.injEq]
      ext f
      · rfl
      all_goals
        simp only [List.mem_cons]
        by_cases hfg : f = g
        · subst hfg
          cases (Entry.ofJson value).face f <;> simp
        · simp [hfg]

theorem loadValue_of_readable (h : value.Readable) (c : SCell) :
    loadValue value c = some ((Entry.ofJson value).write c) := by
  rw [loadValue, foldlM_loadFace h, Option.some.injEq]
  ext f
  · exact (write_ofJson_wall value c).symm
  all_goals simp only [if_pos (mem_faceIds f), Entry.write]

/-- A tile that is none stops the loop. -/
theorem readable_of_foldlM {fs : List Face} {c' : SCell}
    (h : fs.foldlM (loadFace value) c = some c') :
    ∀ f ∈ fs, ∀ tile, value.find? (faceS f) = some tile → tile.toTile.isSome := by
  induction fs generalizing c with
  | nil => simp
  | cons g fs ih =>
      rw [List.foldlM_cons] at h
      obtain ⟨c₁, hfirst, hrest⟩ := Option.bind_eq_some_iff.mp h
      intro f hf tile htile
      rcases List.mem_cons.mp hf with rfl | hf
      · rw [loadFace, htile] at hfirst
        obtain ⟨v, hv, -⟩ := Option.map_eq_some_iff.mp hfirst
        rw [hv]
        rfl
      · exact ih hrest f hf tile htile

theorem loadValue_isSome_iff (value : Json) (c : SCell) : (loadValue value c).isSome ↔
    value.Readable := by
  constructor
  · intro h
    obtain ⟨c', hc'⟩ := Option.isSome_iff_exists.mp h
    exact fun f => readable_of_foldlM hc' f (mem_faceIds f)
  · intro h
    rw [loadValue_of_readable h]
    rfl

/-! ### The items -/

/-- A write of what is read through the same reference. -/
theorem World.modifyCell_getCell (w : World) (v : VI2d) (f : SCell → SCell) :
    (w.modifyCell v fun _ => f (w.getCell v)) = w.modifyCell v f := by
  unfold modifyCell getCell
  split
  · next hv =>
      congr 1
      refine List.ext_getElem? fun i => ?_
      rw [List.getElem?_modify, List.getElem?_modify]
      by_cases hi : w.index v = i
      · subst hi
        simp [List.getElem?_eq_getElem hv.index_lt, List.getD_eq_getElem?_getD]
      · simp [hi]
  · rfl

/-- The write of an item that can be read. -/
def itemWrite (item : String × Json) : Option CellWrite :=
  if isMapSize item.1 then none
  else (stoi item.1).map fun key_ => (cellOf key_, (Entry.ofJson item.2).write)

theorem itemWrite_of_skipped {item : String × Json} (h : isMapSize item.1 = true) :
    itemWrite item = none := if_pos h

theorem loadItem_of_skipped {item : String × Json} (h : isMapSize item.1 = true) :
    loadItem w item = some w := if_pos h

theorem loadItem_of_loadable {item : String × Json} (h : ItemLoadable item) :
    loadItem w item = some (w.writes (itemWrite item).toList) := by
  cases hskip : isMapSize item.1 with
  | true =>
      rw [loadItem_of_skipped hskip, itemWrite_of_skipped hskip]
      rfl
  | false =>
      obtain ⟨hkey, hvalue⟩ := h hskip
      obtain ⟨key_, hkey⟩ := Option.isSome_iff_exists.mp hkey
      rw [loadItem, itemWrite, if_neg (by simp [hskip]), if_neg (by simp [hskip]), hkey,
        Option.bind_eq_bind, Option.bind_some, loadValue_of_readable hvalue, Option.bind_eq_bind,
        Option.bind_some]
      exact congrArg some (World.modifyCell_getCell ..)

theorem loadItem_isSome_iff (w : World) (item : String × Json) :
    (loadItem w item).isSome ↔ ItemLoadable item := by
  unfold ItemLoadable
  cases hskip : isMapSize item.1 with
  | true =>
      rw [loadItem_of_skipped hskip]
      simp
  | false =>
      rw [loadItem, if_neg (by simp [hskip])]
      cases hkey : stoi item.1 with
      | none => simp
      | some key_ =>
          rw [← loadValue_isSome_iff item.2 (w.getCell (cellOf key_))]
          cases hvalue : loadValue item.2 (w.getCell (cellOf key_)) <;> simp [hvalue]

theorem foldlM_loadItem {items : List (String × Json)} (h : ∀ item ∈ items, ItemLoadable item) :
    items.foldlM loadItem w = some (w.writes (items.filterMap itemWrite)) := by
  induction items generalizing w with
  | nil => rfl
  | cons item items ih =>
      rw [List.foldlM_cons, loadItem_of_loadable (h item List.mem_cons_self), Option.bind_eq_bind,
        Option.bind_some, ih fun item hitem => h item (List.mem_cons_of_mem _ hitem),
        ← World.writes_append]
      cases hwrite : itemWrite item with
      | none => rw [List.filterMap_cons_none hwrite]; rfl
      | some e => rw [List.filterMap_cons_some hwrite]; rfl

theorem loadable_of_foldlM {items : List (String × Json)}
    (h : (items.foldlM loadItem w).isSome) : ∀ item ∈ items, ItemLoadable item := by
  induction items generalizing w with
  | nil => simp
  | cons item items ih =>
      rw [List.foldlM_cons] at h
      cases hfirst : loadItem w item with
      | none =>
          rw [hfirst] at h
          cases h
      | some w' =>
          rw [hfirst] at h
          refine List.forall_mem_cons.mpr ⟨?_, ih h⟩
          rw [← loadItem_isSome_iff w, hfirst]
          rfl

theorem loadItems_isSome_iff : (loadItems w doc).isSome ↔ doc.Loadable := by
  constructor
  · exact loadable_of_foldlM
  · intro h
    rw [loadItems, foldlM_loadItem h]
    rfl

/-! ### What the writes leave -/

theorem leadsTo_of_itemWrite {item : String × Json} {e : CellWrite} (h : itemWrite item = some e)
    (v : VI2d) : leadsTo v item = true ↔ e.1 = v := by
  rw [itemWrite, Option.ite_none_left_eq_some, Option.map_eq_some_iff] at h
  obtain ⟨hskip, key_, hkey, rfl⟩ := h
  simp [leadsTo, hskip, hkey]

theorem write_of_itemWrite {item : String × Json} {e : CellWrite} (h : itemWrite item = some e) :
    e.2 = (Entry.ofJson item.2).write := by
  rw [itemWrite, Option.ite_none_left_eq_some, Option.map_eq_some_iff] at h
  obtain ⟨-, key_, -, rfl⟩ := h
  rfl

theorem leadsTo_of_itemWrite_none {item : String × Json} (h : itemWrite item = none) (v : VI2d) :
    leadsTo v item = false := by
  rw [leadsTo, Bool.and_eq_false_iff, Bool.not_eq_false']
  rw [itemWrite, ite_eq_left_iff] at h
  refine or_iff_not_imp_left.mpr fun hskip => ?_
  rw [Option.map_eq_none_iff.mp (h hskip)]
  rfl

theorem itemsCell_snoc_of_not_leadsTo {items : List (String × Json)} {item : String × Json}
    (h : leadsTo v item = false) (c : SCell) :
    itemsCell (items ++ [item]) v c = itemsCell items v c := by
  simp [itemsCell, List.filter_append, h]

theorem itemsCell_snoc_of_leadsTo {items : List (String × Json)} {item : String × Json}
    (h : leadsTo v item = true) (c : SCell) :
    itemsCell (items ++ [item]) v c = (Entry.ofJson item.2).write (itemsCell items v c) := by
  ext f
  · simp [itemsCell, List.filter_append, h]
  all_goals
    cases hface : (Entry.ofJson item.2).face f <;>
      simp [itemsCell, List.filter_append, h, Entry.write, hface]

/-- The last items win. -/
theorem written_items (items : List (String × Json)) (c : SCell) :
    written v (items.filterMap itemWrite) c = itemsCell items v c := by
  induction items using List.reverseRecOn with
  | nil => rfl
  | append_singleton items item ih =>
      rw [List.filterMap_append]
      cases hwrite : itemWrite item with
      | none =>
          rw [List.filterMap_cons_none hwrite, List.filterMap_nil, List.append_nil, ih,
            itemsCell_snoc_of_not_leadsTo (leadsTo_of_itemWrite_none hwrite v)]
      | some e =>
          rw [List.filterMap_cons_some hwrite, List.filterMap_nil, World.written_snoc, ih,
            write_of_itemWrite hwrite]
          split
          · next hv => rw [itemsCell_snoc_of_leadsTo ((leadsTo_of_itemWrite hwrite v).mpr hv)]
          · next hv =>
              rw [itemsCell_snoc_of_not_leadsTo]
              exact Bool.eq_false_iff.mpr (mt (leadsTo_of_itemWrite hwrite v).mp hv)

theorem getCell_loadItems (hw : w.size = mapSize) (h : loadItems w doc = some w') (hv : InMap v) :
    w'.getCell v = itemsCell doc.items v (w.getCell v) := by
  have hdoc : doc.Loadable := loadItems_isSome_iff.mp (by rw [h]; rfl)
  rw [loadItems, foldlM_loadItem hdoc, Option.some.injEq] at h
  rw [← h, World.getCell_writes ((inRange_iff_inMap hw).mpr hv), written_items]

theorem loadItems_size (h : loadItems w doc = some w') : w'.size = w.size := by
  have hdoc : doc.Loadable := loadItems_isSome_iff.mp (by rw [h]; rfl)
  rw [loadItems, foldlM_loadItem hdoc, Option.some.injEq] at h
  rw [← h, World.writes_size]

/-- **Loading any file.** `LoadMap` returns exactly when the text starts with
a document whose items can all be read, and then every cell of the map has
what the last items that lead to it say, over the default. -/
theorem loadFile_spec (text : List UInt8) (hw : w.size = mapSize) :
    ((loadFile Φ w text).isSome ↔
      ∃ doc, Parser.fromStream Φ text = some doc ∧ doc.Loadable) ∧
    ∀ doc w', Parser.fromStream Φ text = some doc → loadFile Φ w text = some w' →
      ∀ v, InMap v → w'.getCell v = itemsCell doc.items v floorCell := by
  rw [loadFile]
  cases hdoc : Parser.fromStream Φ text with
  | none => simp
  | some doc =>
      have hitems : (loadItems w.reset doc).isSome ↔ doc.Loadable := loadItems_isSome_iff
      refine ⟨by simpa using hitems, ?_⟩
      rintro _ w' ⟨⟩ hload v hv
      rw [getCell_loadItems (reset_size.trans hw) hload hv,
        getCell_reset ((inRange_iff_inMap hw).mpr hv)]

/-- `{"1": {"type": 1}}`. -/
def oneWall : Json :=
  ofMembers (Members.empty.insert "1" (ofMembers (Members.empty.insert "type" (.integer 1))))

theorem loadFile_spec_oneWall :
    ∃ w', loadFile .twoAndAHalf (World.create 64 64) (compact .twoAndAHalf oneWall) = some w' ∧
      (w'.getCell ⟨0, 1⟩).wall = true := by
  have hfits : Serializer.Fits .twoAndAHalf oneWall := by
    refine fits_ofMembers (List.forall_mem_singleton.mpr (fits_ofMembers ?_))
    exact List.forall_mem_singleton.mpr ⟨by norm_num, by norm_num⟩
  have hread := fromStream_compact hfits
  have hitems : oneWall.items = [("1", ofMembers (Members.empty.insert "type" (.integer 1)))] :=
    items_ofMembers _
  have hloadable : oneWall.Loadable := by
    rw [Loadable, hitems]
    refine List.forall_mem_singleton.mpr fun _ => ⟨by decide, fun f tile htile => ?_⟩
    rw [find?_ofMembers, Members.find_insert, if_neg (by cases f <;> decide)] at htile
    cases htile
  have hsize : (World.create 64 64).size = mapSize := rfl
  obtain ⟨hsome, hcells⟩ := loadFile_spec (Φ := .twoAndAHalf) (compact .twoAndAHalf oneWall) hsize
  obtain ⟨w', hw'⟩ := Option.isSome_iff_exists.mp (hsome.mpr ⟨oneWall, hread, hloadable⟩)
  refine ⟨w', hw', ?_⟩
  rw [hcells oneWall w' hread hw' ⟨0, 1⟩ (by decide), hitems]
  rfl

end AmongUs
