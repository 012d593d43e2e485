import AmongUs.Map.Edits
import AmongUs.Map.Writes

/-!
The designer with CTRL+O, and its loader beside that of the client.

A frame may end with the loading of the saved map. The loop over the entries
is the one of `LoadMap`, but the designer does not first give every cell the
default: what the file does not say about a cell stays as it was edited. So
the two loaders make the same world of a file exactly when the designer
shows the default wherever the file says nothing (`loaders_agree_iff`).
-/

namespace AmongUs

open Transition

/-- The file has this entry for the cell. More than one key may lead to a
cell. -/
def MapDict.Describes (d : MapDict) (v : VI2d) (e : Entry) : Prop :=
  ∃ key n, d.cells[key]? = some e ∧ stoi key = some n ∧ cellOf n = v

/-- What a frame is given: the keys, whether CTRL+O is pressed, and what can
be read from the file. -/
structure FrameInput where
  input : Input
  bOpen : Bool
  file : Option MapDict

namespace MapDesigner

/-- CTRL+O. The entries are read before they are applied. -/
def load (s : MapDesigner) (file : Option MapDict) : Option MapDesigner := do
  let mapDict ← file
  let world ← loadEntries s.world mapDict
  return { s with world := world, mapDict := mapDict }

/-- A frame to its end, which it does not reach while TAB is held. -/
def frame (s : MapDesigner) (i : FrameInput) : Option MapDesigner :=
  if !i.input.bHeld .tab && i.bOpen then (onUserUpdate s i.input).load i.file
  else some (onUserUpdate s i.input)

/-- The designer with any input, and any file. An exception ends it. -/
def reloadMachine : Machine MapDesigner FrameInput Unit Unit where
  enabled _ _ := true
  step s i :=
    match frame s i with
    | some t => .ok (t, ())
    | none => .error ()

/-- Both loaders fail on the file, or leave the same cells. -/
structure LoadersAgree (s : MapDesigner) (w : World) (d : MapDict) : Prop where
  fails : s.load (some d) = none ↔ loadMap w d = none
  cells : ∀ t w', s.load (some d) = some t → loadMap w d = some w' →
    ∀ v, InMap v → (t.world.getCell v).wall = (w'.getCell v).wall ∧
      ∀ f, (t.world.getCell v).id f = (w'.getCell v).id f

/-- A cell that the file does not describe is a floor, and a face that no
entry of its cell lists has its default tile. -/
def RestIsFloor (s : MapDesigner) (d : MapDict) : Prop :=
  ∀ v, InMap v →
    ((∀ e, ¬d.Describes v e) → (s.world.getCell v).wall = false) ∧
      ∀ f, (∀ e, d.Describes v e → e.face f = none) →
        (s.world.getCell v).id f = floorCell.id f

end MapDesigner

variable {v : VI2d} {c c' : SCell} {d : MapDict} {es : List (String × Entry)}
  {ds : List (VI2d × Entry)}

/-! ### What entries leave of a cell -/

theorem decoded_eq_none_iff : decoded es = none ↔ ∃ x ∈ es, stoi x.1 = none := by
  induction es with
  | nil => simp [decoded]
  | cons x es ih =>
      simp only [decoded_cons, List.mem_cons, exists_eq_or_imp]
      cases hkey : stoi x.1 with
      | none => simp
      | some n => simpa using ih

theorem mem_decoded (h : decoded es = some ds) {y : VI2d × Entry} :
    y ∈ ds ↔ ∃ x ∈ es, ∃ n, stoi x.1 = some n ∧ (cellOf n, x.2) = y := by
  induction es generalizing ds with
  | nil =>
      obtain rfl : [] = ds := Option.some.inj h
      simp
  | cons x es ih =>
      rw [decoded_cons] at h
      obtain ⟨n, hkey, hrest⟩ := Option.bind_eq_some_iff.mp h
      obtain ⟨ds', hds', rfl⟩ := Option.map_eq_some_iff.mp hrest
      simp only [List.mem_cons, exists_eq_or_imp, ih hds', hkey]
      apply or_congr_left
      constructor
      · exact fun heq => ⟨n, rfl, heq.symm⟩
      · rintro ⟨_, hn, heq⟩
        rw [← heq, Option.some.inj hn]

theorem mem_decoded_toList (h : decoded d.cells.toList = some ds) (v : VI2d) (e : Entry) :
    (v, e) ∈ ds ↔ d.Describes v e := by
  rw [mem_decoded h]
  constructor
  · rintro ⟨⟨key, e'⟩, hmem, n, hkey, heq⟩
    obtain ⟨hv, rfl⟩ := Prod.mk.inj heq
    exact ⟨key, n, Std.TreeMap.mem_toList_iff_getElem?_eq_some.mp hmem, hkey, hv⟩
  · rintro ⟨key, n, hentry, hkey, rfl⟩
    exact ⟨(key, e), Std.TreeMap.mem_toList_iff_getElem?_eq_some.mpr hentry, n, hkey, rfl⟩

theorem decoded_toList_eq_none_iff :
    decoded d.cells.toList = none ↔ ∃ key e, d.cells[key]? = some e ∧ stoi key = none := by
  rw [decoded_eq_none_iff]
  constructor
  · rintro ⟨⟨key, e⟩, hmem, hkey⟩
    exact ⟨key, e, Std.TreeMap.mem_toList_iff_getElem?_eq_some.mp hmem, hkey⟩
  · rintro ⟨key, e, hentry, hkey⟩
    exact ⟨(key, e), Std.TreeMap.mem_toList_iff_getElem?_eq_some.mpr hentry, hkey⟩

theorem written_entryWrites_cons (y : VI2d × Entry) :
    written v (entryWrites (y :: ds)) c =
      written v (entryWrites ds) (if y.1 = v then y.2.write c else c) := rfl

/-- Two cells become the same under the same entries when they are the same
where these say nothing. -/
theorem written_entryWrites_eq_iff :
    written v (entryWrites ds) c = written v (entryWrites ds) c' ↔
      ((∀ e, (v, e) ∉ ds) → c.wall = c'.wall) ∧
        ∀ f, (∀ e, (v, e) ∈ ds → e.face f = none) → c.id f = c'.id f := by
  induction ds generalizing c c' with
  | nil =>
      have hnil (c : SCell) : written v (entryWrites []) c = c := rfl
      rw [hnil, hnil]
      constructor
      · rintro rfl
        exact ⟨fun _ => rfl, fun _ _ => rfl⟩
      · rintro ⟨hwall, hid⟩
        exact SCell.ext (hwall (by simp)) (funext fun f => hid f (by simp))
  | cons y ds ih =>
      obtain ⟨u, e⟩ := y
      rw [written_entryWrites_cons, written_entryWrites_cons]
      by_cases huv : u = v
      · subst huv
        -- The entry sets the wall, and the faces that it lists.
        rw [if_pos rfl, if_pos rfl, ih]
        have hwall : (∀ e', (u, e') ∉ (u, e) :: ds) ↔ False :=
          iff_false_intro fun h => h e List.mem_cons_self
        have hwrite : (∀ e', (u, e') ∉ ds) → (e.write c).wall = (e.write c').wall := fun _ => rfl
        rw [hwall, false_imp_iff, true_and, and_iff_right hwrite]
        refine forall_congr' fun f => ?_
        simp only [List.mem_cons, Prod.mk.injEq, true_and, forall_eq_or_imp, Entry.write]
        cases e.face f with
        | none => simp
        | some tile => simp
      · rw [if_neg huv, if_neg huv, ih]
        simp [Ne.symm huv]

theorem loadEntries_eq_none_iff {w : World} :
    loadEntries w d = none ↔ ∃ key e, d.cells[key]? = some e ∧ stoi key = none := by
  rw [loadEntries_eq_writes, Option.map_eq_none_iff, decoded_toList_eq_none_iff]

theorem size_loadEntries {w w' : World} (h : loadEntries w d = some w') : w'.size = w.size := by
  rw [loadEntries_eq_writes] at h
  obtain ⟨ds, -, rfl⟩ := Option.map_eq_some_iff.mp h
  exact World.writes_size _

namespace MapDesigner

variable {s t : MapDesigner} {w : World} {tr : List (Event MapDesigner FrameInput Unit)}

/-! ### Reachable states -/

theorem load_eq_some_iff :
    s.load (some d) = some t ↔
      ∃ w, loadEntries s.world d = some w ∧ t = { s with world := w, mapDict := d } := by
  rw [load, Option.bind_eq_bind, Option.bind_some, Option.bind_eq_bind, Option.bind_eq_some_iff]
  simp only [pure, Option.some.injEq, eq_comm]

theorem load_eq_none_iff :
    s.load (some d) = none ↔ ∃ key e, d.cells[key]? = some e ∧ stoi key = none := by
  rw [load, Option.bind_eq_bind, Option.bind_some, Option.bind_eq_bind, Option.bind_eq_none_iff,
    ← loadEntries_eq_none_iff (w := s.world), Option.eq_none_iff_forall_ne_some]
  simp [pure]

theorem OnMap.load (h : OnMap s) {file : Option MapDict} (hload : s.load file = some t) :
    OnMap t := by
  cases file with
  | none => exact nomatch hload
  | some d =>
      obtain ⟨w, hentries, rfl⟩ := load_eq_some_iff.mp hload
      exact ⟨(size_loadEntries hentries).trans h.size, h.cursor⟩

theorem OnMap.frame (h : OnMap s) {i : FrameInput} (hframe : frame s i = some t) : OnMap t := by
  rw [MapDesigner.frame] at hframe
  split at hframe
  · exact h.onUserUpdate.load hframe
  · rw [← Option.some.inj hframe]
    exact h.onUserUpdate

theorem onMap_run (h : reloadMachine.Run onUserCreate tr s) : OnMap s := by
  refine h.invariant (I := OnMap) ⟨editing_onUserCreate.size, editing_onUserCreate.cursor⟩ ?_
  intro e htakes hsrc
  obtain ⟨-, hstep⟩ := htakes
  cases hframe : MapDesigner.frame e.src e.act with
  | none => simp [reloadMachine, hframe] at hstep
  | some t =>
      have hdst : t = e.dst := by simpa [reloadMachine, hframe] using hstep
      exact hdst ▸ hsrc.frame hframe

/-- **Edits.** In every state that the designer reaches, with loading or
without, a frame edits one cell in both maps at a time, exactly when SPACE
is not pressed in a frame that moves the cursor. -/
theorem edits_one_cell_iff (h : reloadMachine.Run onUserCreate tr s) (i : FrameInput) :
    TouchesOneCell s i.input ↔ BlocksUnderKey s i.input :=
  touchesOneCell_iff (onMap_run h)

/-- Painting and placing in one frame. -/
theorem edits_one_cell_iff_wall : TouchesOneCell onUserCreate (press [.k1, .space]) := by
  refine (edits_one_cell_iff .nil ⟨press [.k1, .space], false, none⟩).mpr fun _ _ => ?_
  rw [editing_onUserCreate.size]
  decide

/-- SPACE in a frame that moves the cursor to the right: the key is the one
of the cell that it has left. -/
theorem edit_under_other_key : ¬∀ tr s, reloadMachine.Run onUserCreate tr s →
    ∀ i : FrameInput, TouchesOneCell s i.input := by
  intro hall
  have htouches := hall [] onUserCreate .nil ⟨press [.right, .space], false, none⟩
  have hs : OnMap onUserCreate := ⟨editing_onUserCreate.size, editing_onUserCreate.cursor⟩
  have hmove := (touchesOneCell_iff hs).mp htouches rfl rfl
  rw [hs.size] at hmove
  exact absurd hmove (by decide)

/-! ### Two loaders -/

theorem loadMap_eq_none_iff :
    loadMap w d = none ↔ ∃ key e, d.cells[key]? = some e ∧ stoi key = none :=
  loadEntries_eq_none_iff

/-- The cells of a file that both loaders take. -/
theorem getCell_loaded (hs : s.world.size = mapSize) (hw : w.size = mapSize)
    (hds : decoded d.cells.toList = some ds) :
    ∃ t w', s.load (some d) = some t ∧ loadMap w d = some w' ∧ ∀ v, InMap v →
      t.world.getCell v = written v (entryWrites ds) (s.world.getCell v) ∧
        w'.getCell v = written v (entryWrites ds) floorCell := by
  have hload : loadEntries s.world d = some (s.world.writes (entryWrites ds)) := by
    rw [loadEntries_eq_writes, hds, Option.map_some]
  have hmap : loadMap w d = some (w.reset.writes (entryWrites ds)) := by
    rw [loadMap, loadEntries_eq_writes, hds, Option.map_some]
  refine ⟨_, _, load_eq_some_iff.mpr ⟨_, hload, rfl⟩, hmap, fun v hv => ⟨?_, ?_⟩⟩
  · exact World.getCell_writes ((inRange_iff_inMap hs).mpr hv) _
  · rw [World.getCell_writes ((inRange_iff_inMap (reset_size.trans hw)).mpr hv),
      getCell_reset ((inRange_iff_inMap hw).mpr hv)]

theorem agree_iff (hs : s.world.size = mapSize) (hw : w.size = mapSize) :
    LoadersAgree s w d ↔
      ((∀ key e, d.cells[key]? = some e → stoi key ≠ none) → s.RestIsFloor d) := by
  have hfails : s.load (some d) = none ↔ loadMap w d = none :=
    load_eq_none_iff.trans loadMap_eq_none_iff.symm
  cases hds : decoded d.cells.toList with
  | none =>
      -- A key that is no number stops both.
      obtain ⟨key, e, hentry, hkey⟩ := decoded_toList_eq_none_iff.mp hds
      have hnone : s.load (some d) = none := load_eq_none_iff.mpr ⟨key, e, hentry, hkey⟩
      refine iff_of_true ⟨hfails, fun t w' ht => ?_⟩ fun hkeys => absurd hkey (hkeys key e hentry)
      exact nomatch hnone.symm.trans ht
  | some ds =>
      obtain ⟨t, w', ht, hw', hcells⟩ := getCell_loaded hs hw hds
      have hkeys : ∀ key e, d.cells[key]? = some e → stoi key ≠ none := fun key e hentry hkey =>
        nomatch hds.symm.trans (decoded_toList_eq_none_iff.mpr ⟨key, e, hentry, hkey⟩)
      have hrest : s.RestIsFloor d ↔ ∀ v, InMap v →
          written v (entryWrites ds) (s.world.getCell v) =
            written v (entryWrites ds) floorCell := by
        refine forall₂_congr fun v _ => ?_
        simp only [written_entryWrites_eq_iff, mem_decoded_toList hds]
        rfl
      rw [forall_prop_of_true hkeys, hrest]
      constructor
      · intro hagree v hv
        obtain ⟨hwall, hid⟩ := hagree.cells t w' ht hw' v hv
        rw [← (hcells v hv).1, ← (hcells v hv).2]
        exact SCell.ext hwall (funext hid)
      · intro hsame
        refine ⟨hfails, fun t₁ w₁ ht₁ hw₁ v hv => ?_⟩
        obtain rfl : t = t₁ := Option.some.inj (ht.symm.trans ht₁)
        obtain rfl : w' = w₁ := Option.some.inj (hw'.symm.trans hw₁)
        rw [(hcells v hv).1, (hcells v hv).2, hsame v hv]
        exact ⟨rfl, fun _ => rfl⟩

/-- **Loading.** In every state that the designer reaches CTRL+O makes of a
file what `LoadMap` makes of it, exactly when a key of the file is no number
or the designer shows the default wherever the file says nothing. -/
theorem loaders_agree_iff (h : reloadMachine.Run onUserCreate tr s) (hw : w.size = mapSize)
    (d : MapDict) :
    LoadersAgree s w d ↔
      ((∀ key e, d.cells[key]? = some e → stoi key ≠ none) → s.RestIsFloor d) :=
  agree_iff (onMap_run h).size hw

/-- SPACE is pressed in the first frame. -/
def placeWall : FrameInput := ⟨press [.space], false, none⟩

theorem run_placeWall : reloadMachine.Run onUserCreate
    [⟨onUserCreate, placeWall, (), onUserUpdate onUserCreate placeWall.input⟩]
    (onUserUpdate onUserCreate placeWall.input) :=
  .snoc (e := ⟨_, placeWall, (), _⟩) .nil ⟨rfl, rfl⟩

/-- The cell under the cursor becomes a block, and all others stay. -/
theorem getCell_placeWall (hv : InMap v) :
    (onUserUpdate onUserCreate placeWall.input).world.getCell v =
      if onUserCreate.vCursor = v then { floorCell with wall := true } else floorCell := by
  have hcursor : InMap onUserCreate.vCursor := editing_onUserCreate.cursor
  have hstay : moveCursor placeWall.input onUserCreate.world.size onUserCreate.vCursor =
      onUserCreate.vCursor := by
    rw [editing_onUserCreate.size]
    decide
  have hupdate (s : MapDesigner) : onUserUpdate s placeWall.input = toggle (cellId s.vCursor)
      { s with vCursor := moveCursor placeWall.input s.world.size s.vCursor } := rfl
  rw [hupdate, hstay]
  split
  · next heq =>
    subst heq
    rw [getCell_toggle, getCell_onUserCreate hv]
    rfl
  · next hne => rw [getCell_toggle_of_ne editing_onUserCreate _ hne, getCell_onUserCreate hv]

/-- The file has an entry for the block. -/
theorem loaders_agree_iff_placeWall :
    ∃ tr s, reloadMachine.Run onUserCreate tr s ∧
      (s.world.getCell onUserCreate.vCursor).wall = true ∧
      LoadersAgree s (World.create mapSize.x mapSize.y)
        (MapDict.modify { mapSize := none, cells := ∅ } (cellId onUserCreate.vCursor)
          fun _ => wallEntry) := by
  have hcursor : InMap onUserCreate.vCursor := editing_onUserCreate.cursor
  refine ⟨_, _, run_placeWall, ?_, (loaders_agree_iff run_placeWall rfl _).mpr fun _ v hv => ?_⟩
  · rw [getCell_placeWall hcursor, if_pos rfl]
  rw [getCell_placeWall hv]
  split
  · next heq =>
    subst heq
    have hdescribes : MapDict.Describes (MapDict.modify { mapSize := none, cells := ∅ }
        (cellId onUserCreate.vCursor) fun _ => wallEntry) onUserCreate.vCursor wallEntry :=
      ⟨_, _, MapDict.cells_modify_self, stoi_cellId hcursor, cellOf_number hcursor⟩
    exact ⟨fun hnone => absurd hdescribes (hnone _), fun f hface => nomatch hface _ hdescribes⟩
  · exact ⟨fun _ => rfl, fun _ _ => rfl⟩

/-- A wall is placed, and then a file without entries is loaded. -/
theorem placed_wall_kept : ¬∀ tr s w d, reloadMachine.Run onUserCreate tr s →
    w.size = mapSize → LoadersAgree s w d := by
  intro hall
  have hcursor : InMap onUserCreate.vCursor := editing_onUserCreate.cursor
  have hagree := hall _ _ (World.create mapSize.x mapSize.y) { mapSize := none, cells := ∅ }
    run_placeWall rfl
  have hrest := (agree_iff (onMap_run run_placeWall).size rfl).mp hagree fun key e hentry => by
    simp at hentry
  have hfloor := (hrest _ hcursor).1 fun e ⟨key, n, hentry, _⟩ => by simp at hentry
  rw [getCell_placeWall hcursor, if_pos rfl] at hfloor
  exact Bool.noConfusion hfloor

end MapDesigner

end AmongUs
