import AmongUs.Json.RoundTrip
import AmongUs.Map.File

/-!
The document that the designer saves.

The designer keeps its map as a value of the JSON library. As long as it has
only edited it, or read it from a file that it wrote, the value is the one
of a saved map (`MapDict.toJson`): a tile is an array of two numbers, and an
entry has a member for each face that was painted. Painting a face and
placing or taking away a block do to the value what they do to the map
(`assignTile_toJson`, `assignWall_toJson`, `eraseKey_toJson`), and the
loader finds in it what is in the map (`loadItems_toJson`).
-/

namespace AmongUs

open Json MapDesigner

/-- `{x, y}`. -/
def tileJson (v : VI2d) : Json := ofList [.integer v.x, .integer v.y]

def Entry.members (e : Entry) : Members :=
  (faceIds.foldl (fun (ms : Members) f => ms.insert? (faceS f) ((e.face f).map tileJson))
    Members.empty).insert? "type" (e.type.map .integer)

def Entry.toJson (e : Entry) : Json := ofMembers e.members

def MapDict.members (d : MapDict) : Members :=
  (Members.empty.insertAll (d.cells.toList.map fun a => (a.1, a.2.toJson))).insert?
    "mapSize" (d.mapSize.map tileJson)

def MapDict.toJson (d : MapDict) : Json := ofMembers d.members

/-- `mapDict[cursorId][olc::Face_s[f]] = {x, y}`. -/
def assignTile (cursorId : String) (tile : VI2d) (mapDict : Json) (f : Face) : Option Json :=
  mapDict.modifyAt cursorId fun e => e.modifyAt (faceS f) fun _ => some (tileJson tile)

/-- `mapDict[cursorId]["type"] = 1`, and the first tile for every face. -/
def assignWall (cursorId : String) (mapDict : Json) : Option Json := do
  let mapDict ← mapDict.modifyAt cursorId fun e => e.modifyAt "type" fun _ => some (.integer 1)
  faceIds.foldlM (assignTile cursorId ⟨0, 0⟩) mapDict

/-- The coordinates are ones of `vi2d`. -/
def FitsInt32 (v : VI2d) : Prop := (-2 ^ 31 ≤ v.x ∧ v.x < 2 ^ 31) ∧ (-2 ^ 31 ≤ v.y ∧ v.y < 2 ^ 31)

instance (v : VI2d) : Decidable (FitsInt32 v) := inferInstanceAs (Decidable (_ ∧ _))

/-- An entry as the designer makes it. -/
structure Entry.Designed (e : Entry) : Prop where
  type : ∀ n, e.type = some n → n = 1
  face : ∀ f tile, e.face f = some tile → FitsInt32 tile

/-- A map as the designer makes it. -/
structure MapDict.Designed (d : MapDict) : Prop where
  keyed : d.Keyed
  mapSize : ∀ v, d.mapSize = some v → FitsInt32 v
  entry : ∀ (key : String) (e : Entry), d.cells[key]? = some e → e.Designed

variable {d d' : MapDict} {e : Entry} {f : Face} {key : String} {v : VI2d} {w : World}

/-! ### The members of an entry -/

@[simp] theorem faceS_inj {f g : Face} : faceS f = faceS g ↔ f = g := by
  cases f <;> cases g <;> decide

@[simp] theorem faceS_ne_type (f : Face) : faceS f ≠ "type" := by
  cases f <;> decide

@[simp] theorem find_members_face (e : Entry) (f : Face) :
    e.members.find (faceS f) = (e.face f).map tileJson := by
  rw [Entry.members, Members.find_insert?, if_neg (faceS_ne_type f)]
  simp only [faceIds, List.foldl_cons, List.foldl_nil, Members.find_insert?, faceS_inj,
    Members.find_empty]
  cases f <;> simp

@[simp] theorem find_members_type (e : Entry) :
    e.members.find "type" = e.type.map .integer := by
  have hne (f : Face) : "type" ≠ faceS f := (faceS_ne_type f).symm
  rw [Entry.members, Members.find_insert?, if_pos rfl]
  simp [faceIds, Members.find_insert?, hne]

theorem find_members_of_ne (e : Entry) (htype : key ≠ "type") (hface : ∀ f, key ≠ faceS f) :
    e.members.find key = none := by
  simp [Entry.members, faceIds, Members.find_insert?, htype, hface]

/-- The members of an entry are its faces and its type. -/
theorem members_eq {ms : Members} (hface : ∀ f, ms.find (faceS f) = (e.face f).map tileJson)
    (htype : ms.find "type" = e.type.map .integer)
    (hrest : ∀ key, key ≠ "type" → (∀ f, key ≠ faceS f) → ms.find key = none) :
    ms = e.members := by
  refine Members.ext_find fun key => ?_
  by_cases hkey : key = "type"
  · rw [hkey, htype, find_members_type]
  by_cases hf : ∃ f, key = faceS f
  · obtain ⟨f, rfl⟩ := hf
    rw [hface, find_members_face]
  · rw [not_exists] at hf
    rw [hrest key hkey hf, find_members_of_ne e hkey hf]

theorem insert_tile (e : Entry) (f : Face) (tile : VI2d) :
    e.members.insert (faceS f) (tileJson tile) = (setEntryTile f tile e).members := by
  refine members_eq (fun g => ?_) ?_ fun key htype hface => ?_
  · rw [Members.find_insert, setEntryTile]
    by_cases h : g = f
    · simp [h]
    · simp [h]
  · rw [Members.find_insert_of_ne (faceS_ne_type f).symm, find_members_type, setEntryTile]
  · rw [Members.find_insert_of_ne (hface f), find_members_of_ne e htype hface]

theorem insert_type (e : Entry) (n : ℤ) :
    e.members.insert "type" (.integer n) = Entry.members { e with type := some n } := by
  refine members_eq (fun f => ?_) ?_ fun key htype hface => ?_
  · rw [Members.find_insert_of_ne (faceS_ne_type f), find_members_face]
  · rw [Members.find_insert_self]
    rfl
  · rw [Members.find_insert_of_ne htype, find_members_of_ne e htype hface]

/-- The map that `operator[]` looks into, where there may be no entry yet. -/
theorem asMembers_entry (e : Option Entry) :
    ((e.map Entry.toJson).getD .null).asMembers = some (e.getD {}).members := by
  cases e with
  | none => simp [asMembers, Entry.members, faceIds, Members.insert?]
  | some e => exact asMembers_ofMembers _

/-! ### The members of the document -/

theorem distinct_cells (d : MapDict) : d.cells.toList.Pairwise fun a b => a.1 ≠ b.1 := by
  refine Std.TreeMap.distinct_keys_toList.imp fun h heq => h ?_
  rw [heq]
  exact Std.ReflCmp.compare_self

theorem find_members (d : MapDict) (key : String) :
    d.members.find key = if key = "mapSize" then
      (d.mapSize.map tileJson).or (d.cells[key]?.map Entry.toJson)
      else d.cells[key]?.map Entry.toJson := by
  have hpairs : (d.cells.toList.map fun a => (a.1, a.2.toJson)).Pairwise fun a b => a.1 ≠ b.1 :=
    List.pairwise_map.mpr (distinct_cells d)
  have hlookup : (d.cells.toList.map fun a => (a.1, a.2.toJson)).lookup key =
      d.cells[key]?.map Entry.toJson := by
    ext j
    rw [Members.lookup_eq_some_iff hpairs, List.mem_map, Option.map_eq_some_iff]
    constructor
    · rintro ⟨a, ha, heq⟩
      obtain ⟨rfl, rfl⟩ := Prod.mk.inj heq
      exact ⟨a.2, Std.TreeMap.mem_toList_iff_getElem?_eq_some.mp ha, rfl⟩
    · rintro ⟨e, he, rfl⟩
      exact ⟨(key, e), Std.TreeMap.mem_toList_iff_getElem?_eq_some.mpr he, rfl⟩
  rw [MapDict.members, Members.find_insert?, Members.find_insertAll hpairs, hlookup,
    Members.find_empty, Option.or_none]

theorem find_members_of_ne_mapSize (h : key ≠ "mapSize") (d : MapDict) :
    d.members.find key = d.cells[key]?.map Entry.toJson := by
  rw [find_members, if_neg h]

/-- The document is what is found in the map. -/
theorem toJson_congr (hsize : d.mapSize = d'.mapSize)
    (hcells : ∀ key : String, d.cells[key]? = d'.cells[key]?) : d.toJson = d'.toJson := by
  refine congrArg ofMembers (Members.ext_find fun key => ?_)
  rw [find_members, find_members, hsize, hcells]

theorem insert_entry (h : key ≠ "mapSize") (d : MapDict) (g : Entry → Entry) :
    ofMembers (d.members.insert key (g (d.cells[key]?.getD {})).toJson) =
      (d.modify key g).toJson := by
  refine congrArg ofMembers (Members.ext_find fun key' => ?_)
  rw [Members.find_insert, find_members, find_members]
  by_cases hkey : key' = key
  · subst hkey
    rw [if_pos rfl, if_neg h, MapDict.cells_modify_self]
    rfl
  · rw [if_neg hkey, MapDict.cells_modify_of_ne (Ne.symm hkey)]
    rfl

/-- A write to a member of an entry, which may not be there yet. -/
theorem modifyAt_entry {name : String} {j : Json} {g : Entry → Entry} (h : key ≠ "mapSize")
    (hg : ∀ e : Entry, e.members.insert name j = (g e).members) (d : MapDict) :
    (d.toJson.modifyAt key fun e => e.modifyAt name fun _ => some j) =
      some (d.modify key g).toJson := by
  have hdoc : d.toJson.asMembers = some d.members := asMembers_ofMembers _
  rw [modifyAt_of_asMembers hdoc, find_members_of_ne_mapSize h,
    modifyAt_of_asMembers (asMembers_entry _), Option.map_some, Option.map_some, hg,
    ← insert_entry h]
  rfl

/-- Painting a face of the saved map. -/
theorem assignTile_toJson (h : key ≠ "mapSize") (tile : VI2d) (d : MapDict) (f : Face) :
    assignTile key tile d.toJson f = some (d.modify key (setEntryTile f tile)).toJson :=
  modifyAt_entry h (fun e => insert_tile e f tile) d

theorem foldlM_assignTile (h : key ≠ "mapSize") (tile : VI2d) (fs : List Face) (d : MapDict) :
    fs.foldlM (assignTile key tile) d.toJson =
      some (fs.foldl (fun d f => d.modify key (setEntryTile f tile)) d).toJson := by
  induction fs generalizing d with
  | nil => rfl
  | cons f fs ih =>
      rw [List.foldlM_cons, assignTile_toJson h, Option.bind_eq_bind, Option.bind_some, ih]
      rfl

/-- Placing a block leaves nothing of the entry that was there. -/
theorem assignWall_toJson (h : key ≠ "mapSize") (d : MapDict) :
    assignWall key d.toJson = some (d.modify key fun _ => wallEntry).toJson := by
  rw [assignWall, modifyAt_entry h fun e => insert_type e 1, Option.bind_eq_bind,
    Option.bind_some, foldlM_assignTile h, Option.some.injEq]
  refine toJson_congr rfl fun key' => ?_
  by_cases hkey : key = key'
  · subst hkey
    simp only [faceIds, List.foldl_cons, List.foldl_nil, MapDict.cells_modify_self,
      Option.getD_some, Option.some.injEq]
    simp only [setEntryTile, wallEntry, Entry.mk.injEq, true_and]
    funext f
    cases f <;> rfl
  · simp only [faceIds, List.foldl_cons, List.foldl_nil, MapDict.cells_modify_of_ne hkey]

/-- Taking a block away takes its entry away. -/
theorem eraseKey_toJson (h : key ≠ "mapSize") (d : MapDict) :
    d.toJson.eraseKey key = some (d.erase key).toJson := by
  rw [MapDict.toJson, eraseKey_ofMembers, Option.some.injEq]
  refine congrArg ofMembers (Members.ext_find fun key' => ?_)
  rw [Members.find_erase, find_members, find_members]
  by_cases hkey : key' = key
  · subst hkey
    rw [if_pos rfl, if_neg h, MapDict.cells_erase_self]
    rfl
  · rw [if_neg hkey, MapDict.cells_erase_of_ne (Ne.symm hkey)]
    rfl

/-! ### Designed maps -/

theorem designed_wallEntry : wallEntry.Designed where
  type _ h := (Option.some.inj h).symm
  face _ _ h := Option.some.inj h ▸ by decide

theorem designed_empty : Entry.Designed {} where
  type _ h := nomatch h
  face _ _ h := nomatch h

theorem Entry.Designed.setEntryTile (h : e.Designed) {tile : VI2d} (htile : FitsInt32 tile) :
    (setEntryTile f tile e).Designed where
  type := h.type
  face g tile' hg := by
    simp only [MapDesigner.setEntryTile, Function.update_apply] at hg
    split at hg
    · exact Option.some.inj hg ▸ htile
    · exact h.face g tile' hg

theorem MapDict.Designed.modify (h : d.Designed) (hv : InMap v) {g : Entry → Entry}
    (hg : ∀ e : Entry, e.Designed → (g e).Designed) : (d.modify (cellId v) g).Designed where
  keyed := h.keyed.modify hv
  mapSize := h.mapSize
  entry key e he := by
    by_cases hkey : cellId v = key
    · subst hkey
      rw [cells_modify_self, Option.some.injEq] at he
      rw [← he]
      apply hg
      cases hentry : d.cells[cellId v]? with
      | none => exact designed_empty
      | some e => exact h.entry _ e hentry
    · rw [cells_modify_of_ne hkey] at he
      exact h.entry key e he

theorem MapDict.Designed.erase (h : d.Designed) (key : String) : (d.erase key).Designed where
  keyed := h.keyed.erase
  mapSize := h.mapSize
  entry key' e he := by
    by_cases hkey : key = key'
    · rw [hkey, cells_erase_self] at he
      exact nomatch he
    · rw [cells_erase_of_ne hkey] at he
      exact h.entry key' e he

theorem isMapSize_cellId (hv : InMap v) : isMapSize (cellId v) = false := by
  obtain ⟨n, hn⟩ := Int.eq_ofNat_of_zero_le hv.number.1
  have hlist : (cellId v).toList = Nat.toDigits 10 n := by
    rw [cellId, hn]
    exact Nat.toList_repr
  rw [isMapSize, hlist, beq_eq_false_iff_ne]
  intro heq
  have hmem : 'm' ∈ (Nat.toDigits 10 n).takeWhile (· ≠ Char.ofNat 0) := by
    rw [heq]
    decide
  have hdigit : Char.isDigit 'm' = true :=
    Nat.isDigit_of_mem_toDigits (by decide) (by decide) (List.takeWhile_subset _ hmem)
  exact absurd hdigit (by decide)

theorem cellId_ne_mapSize (hv : InMap v) : cellId v ≠ "mapSize" := by
  intro heq
  have hfalse := isMapSize_cellId hv
  rw [heq] at hfalse
  exact absurd hfalse (by decide)

/-! ### The text of the document -/

theorem fits_tileJson {Φ : FloatText} (h : FitsInt32 v) : Serializer.Fits Φ (tileJson v) := by
  obtain ⟨hx, hy⟩ := h
  refine fits_ofList fun j hj => ?_
  simp only [List.mem_cons, List.not_mem_nil, or_false] at hj
  rcases hj with rfl | rfl
  · exact ⟨by omega, by omega⟩
  · exact ⟨by omega, by omega⟩

theorem Entry.Designed.fits {Φ : FloatText} (h : e.Designed) : Serializer.Fits Φ e.toJson := by
  refine fits_ofMembers ?_
  rintro ⟨key, j⟩ hmem
  rw [Members.mem_list_iff] at hmem
  by_cases htype : key = "type"
  · rw [htype, find_members_type, Option.map_eq_some_iff] at hmem
    obtain ⟨n, hn, rfl⟩ := hmem
    rw [h.type n hn]
    exact ⟨by norm_num, by norm_num⟩
  by_cases hface : ∃ f, key = faceS f
  · obtain ⟨f, rfl⟩ := hface
    rw [find_members_face, Option.map_eq_some_iff] at hmem
    obtain ⟨tile, htile, rfl⟩ := hmem
    exact fits_tileJson (h.face f tile htile)
  · rw [find_members_of_ne e htype (not_exists.mp hface)] at hmem
    exact nomatch hmem

theorem MapDict.Designed.fits {Φ : FloatText} (h : d.Designed) : Serializer.Fits Φ d.toJson := by
  refine fits_ofMembers ?_
  rintro ⟨key, j⟩ hmem
  rw [Members.mem_list_iff, find_members] at hmem
  have hcell (hcell : d.cells[key]?.map Entry.toJson = some j) : Serializer.Fits Φ j := by
    obtain ⟨e, he, rfl⟩ := Option.map_eq_some_iff.mp hcell
    exact (h.entry key e he).fits
  split at hmem
  · rcases Option.or_eq_some_iff.mp hmem with hsize | ⟨-, hmem⟩
    · obtain ⟨v, hv, rfl⟩ := Option.map_eq_some_iff.mp hsize
      exact fits_tileJson (h.mapSize v hv)
    · exact hcell hmem
  · exact hcell hmem

/-! ### Loading the document -/

theorem toTile_tileJson (h : FitsInt32 v) : (tileJson v).toTile = some v := by
  simp [tileJson, ofList, toTile, element, toInt32_integer h.1, toInt32_integer h.2]

theorem Entry.Designed.readable (h : e.Designed) : e.toJson.Readable := by
  intro f tile htile
  rw [Entry.toJson, find?_ofMembers, find_members_face, Option.map_eq_some_iff] at htile
  obtain ⟨v, hv, rfl⟩ := htile
  rw [toTile_tileJson (h.face f v hv)]
  rfl

theorem Entry.Designed.ofJson_toJson (h : e.Designed) : Entry.ofJson e.toJson = e := by
  obtain ⟨type, face⟩ := e
  rw [Entry.ofJson, Entry.toJson, Entry.mk.injEq]
  constructor
  · rw [find?_ofMembers, find_members_type]
    cases type with
    | none => rfl
    | some n =>
        rw [h.type n rfl]
        rfl
  · funext f
    rw [find?_ofMembers, find_members_face]
    cases hf : face f with
    | none => simp [hf]
    | some tile => simp [hf, toTile_tileJson (h.face f tile hf)]

/-- The items in their order, but for the size of the map. -/
theorem MapDict.Designed.items (h : d.Designed) :
    (d.toJson.items.filter fun item => !isMapSize item.1) =
      d.cells.toList.map fun a => (a.1, a.2.toJson) := by
  have hordered : (d.cells.toList.map fun a => (a.1, a.2.toJson)).Pairwise
      fun a b => a.1 < b.1 := by
    refine List.pairwise_map.mpr (Std.TreeMap.ordered_keys_toList.imp fun hlt => ?_)
    exact compareOfLessAndEq_eq_lt.mp hlt
  have hsorted := d.members.sorted.filter fun item => !isMapSize item.1
  have hnodup {items : List (String × Json)} (hitems : items.Pairwise fun a b => a.1 < b.1) :
      items.Nodup := hitems.imp fun hlt heq => ne_of_lt hlt (congrArg Prod.fst heq)
  rw [MapDict.toJson, items_ofMembers]
  refine List.Perm.eq_of_pairwise ?_ hsorted hordered
    ((List.perm_ext_iff_of_nodup (hnodup hsorted) (hnodup hordered)).mpr ?_)
  · exact fun a b _ _ hab hba => absurd hba (lt_asymm hab)
  · rintro ⟨key, j⟩
    rw [List.mem_filter, Members.mem_list_iff, List.mem_map]
    constructor
    · rintro ⟨hfind, hskip⟩
      have hkey : key ≠ "mapSize" := by
        rintro rfl
        have hsize : isMapSize "mapSize" = true := by decide
        simp [hsize] at hskip
      rw [find_members_of_ne_mapSize hkey, Option.map_eq_some_iff] at hfind
      obtain ⟨e, he, rfl⟩ := hfind
      exact ⟨(key, e), Std.TreeMap.mem_toList_iff_getElem?_eq_some.mpr he, rfl⟩
    · rintro ⟨⟨key, e⟩, he, ⟨⟩⟩
      have hentry := Std.TreeMap.mem_toList_iff_getElem?_eq_some.mp he
      obtain ⟨v, hv, rfl⟩ := h.keyed key e hentry
      rw [find_members_of_ne_mapSize (cellId_ne_mapSize hv), hentry]
      exact ⟨rfl, by simp [isMapSize_cellId hv]⟩

theorem decoded_designed {es : List (String × Entry)}
    (h : ∀ a ∈ es, (∃ v, InMap v ∧ a.1 = cellId v) ∧ a.2.Designed) :
    ∃ ds, decoded es = some ds ∧
      (es.map fun a => (a.1, a.2.toJson)).filterMap itemWrite = entryWrites ds := by
  induction es with
  | nil => exact ⟨[], rfl, rfl⟩
  | cons a es ih =>
      obtain ⟨key, e⟩ := a
      obtain ⟨⟨⟨v, hv, rfl⟩, he⟩, hes⟩ := List.forall_mem_cons.mp h
      obtain ⟨ds, hds, hwrites⟩ := ih hes
      refine ⟨(v, e) :: ds, ?_, ?_⟩
      · rw [decoded_cons, stoi_cellId hv, Option.bind_some, hds, Option.map_some, cellOf_number hv]
      · have hwrite : itemWrite (cellId v, e.toJson) = some (v, e.write) := by
          rw [itemWrite, if_neg (by simp [isMapSize_cellId hv]), stoi_cellId hv, Option.map_some,
            cellOf_number hv, he.ofJson_toJson]
        rw [List.map_cons, List.filterMap_cons_some hwrite, hwrites]
        rfl

theorem filterMap_itemWrite (items : List (String × Json)) :
    items.filterMap itemWrite =
      (items.filter fun item => !isMapSize item.1).filterMap itemWrite := by
  rw [List.filterMap_filter]
  refine List.filterMap_congr fun item _ => ?_
  cases h : isMapSize item.1 with
  | true => rw [itemWrite_of_skipped h]; rfl
  | false => rfl

theorem MapDict.Designed.mem_cells (h : d.Designed) {a : String × Entry}
    (ha : a ∈ d.cells.toList) : (∃ v, InMap v ∧ a.1 = cellId v) ∧ a.2.Designed := by
  have hentry := Std.TreeMap.mem_toList_iff_getElem?_eq_some.mp ha
  exact ⟨h.keyed a.1 a.2 hentry, h.entry a.1 a.2 hentry⟩

theorem MapDict.Designed.loadable (h : d.Designed) : d.toJson.Loadable := by
  intro item hitem hskip
  have hmem : item ∈ d.toJson.items.filter fun item => !isMapSize item.1 :=
    List.mem_filter.mpr ⟨hitem, by simp [hskip]⟩
  rw [h.items] at hmem
  obtain ⟨a, ha, rfl⟩ := List.mem_map.mp hmem
  obtain ⟨⟨v, hv, hkey⟩, he⟩ := h.mem_cells ha
  exact ⟨by rw [hkey, stoi_cellId hv]; rfl, he.readable⟩

/-- The loader finds in the document what is in the map. -/
theorem loadItems_toJson (h : d.Designed) (w : World) :
    loadItems w d.toJson = loadEntries w d := by
  obtain ⟨ds, hds, hwrites⟩ := decoded_designed fun _ ha => h.mem_cells ha
  rw [loadItems, foldlM_loadItem h.loadable, filterMap_itemWrite, h.items, hwrites,
    loadEntries_eq_writes, hds]
  rfl

end AmongUs
