import AmongUs.Map.MapDict

/-!
Loading a saved map (`AmongUsSTE::LoadMap`) and drawing its cells
(`GetFaceQuads`).

The loader first gives every cell of the map the default, a floor with the
default tile, and then writes the entries over it. A key that is no number
makes `std::stoi` throw, and a number of no cell writes to the extra cell.
When all keys are those of cells of the map, each cell is what its own entry
makes of the default (`exists_loadMap`).
-/

namespace AmongUs

/-- The default of both programs. -/
def floorCell : SCell where
  wall := false
  id
    | .floor => (⟨3, 1⟩ : VI2d) * vTileSize
    | _ => (⟨0, 0⟩ : VI2d) * vTileSize

def World.reset (w : World) : World :=
  w.cells.foldl (fun w v => w.modifyCell v fun _ => floorCell) w

/-- The writes for one entry. -/
def Entry.write (e : Entry) (c : SCell) : SCell where
  wall := e.type = some 1
  id f := (e.face f).getD (c.id f)

/-- The loop over the entries of the file. -/
def loadEntries (w : World) (d : MapDict) : Option World :=
  d.cells.foldlM
    (fun w key value => (stoi key).map fun key_ => w.modifyCell (cellOf key_) value.write) w

def loadMap (w : World) (d : MapDict) : Option World := loadEntries w.reset d

/-- The faces that `GetFaceQuads` can draw. -/
def drawnFaces (wall : Bool) : List Face :=
  if !wall then [.floor] else [.south, .north, .east, .west, .top]

/-- The faces that are drawn for a cell, with their tiles. The corners of the
quads, which do not depend on the cell's data, are left out. -/
def getFaceQuads (bVisible : Face → Bool) (c : SCell) : List (Face × VI2d) :=
  ((drawnFaces c.wall).filter bVisible).map fun f => (f, c.id f)

variable {w w' : World} {d : MapDict} {v : VI2d}

theorem reset_size : w.reset.size = w.size := World.foldl_modifyCell_size ..

theorem getCell_reset (h : w.InRange v) : w.reset.getCell v = floorCell :=
  World.getCell_foldl_modifyCell (fun _ hu => World.mem_cells.mp hu)
    (Or.inl (World.mem_cells.mpr h))

theorem inRange_iff_inMap (h : w.size = mapSize) : w.InRange v ↔ InMap v := by
  unfold World.InRange InMap
  rw [h]

/-- The loop over entries whose keys are those of cells of the map. -/
theorem foldlM_entries (es : List (String × Entry)) (hsize : w.size = mapSize)
    (hkeys : ∀ e ∈ es, ∃ u, InMap u ∧ e.1 = cellId u)
    (hdistinct : es.Pairwise fun a b => a.1 ≠ b.1) :
    ∃ w', es.foldlM
        (fun w e => (stoi e.1).map fun key_ => w.modifyCell (cellOf key_) e.2.write) w = some w' ∧
      w'.size = mapSize ∧ ∀ v, InMap v →
        (∀ e, (cellId v, e) ∈ es → w'.getCell v = e.write (w.getCell v)) ∧
          ((∀ e, (cellId v, e) ∉ es) → w'.getCell v = w.getCell v) := by
  induction es generalizing w with
  | nil => exact ⟨w, rfl, hsize, fun v _ => ⟨fun e he => absurd he List.not_mem_nil, fun _ => rfl⟩⟩
  | cons e es ih =>
      obtain ⟨key, e₀⟩ := e
      obtain ⟨u, hu, rfl⟩ := hkeys (key, e₀) List.mem_cons_self
      obtain ⟨hhead, htail⟩ := List.pairwise_cons.mp hdistinct
      have hcell : cellOf (u.y + u.x * mapSize.x) = u := cellOf_number hu
      obtain ⟨w', hfold, hsize', hcells⟩ := ih (w := w.modifyCell u e₀.write)
        ((World.modifyCell_size ..).trans hsize)
        (fun e he => hkeys e (List.mem_cons_of_mem _ he)) htail
      refine ⟨w', ?_, hsize', fun v hv => ?_⟩
      · rw [List.foldlM_cons, stoi_cellId hu]
        simp only [Option.map_some, Option.bind_eq_bind, Option.bind_some, hcell]
        exact hfold
      · obtain ⟨hmem, hnot⟩ := hcells v hv
        by_cases huv : u = v
        · subst huv
          have hnone : ∀ e, (cellId u, e) ∉ es := fun e he => hhead _ he rfl
          rw [hnot hnone, World.getCell_modifyCell_self]
          constructor
          · intro e he
            rcases List.mem_cons.mp he with heq | he
            · rw [(Prod.mk.inj heq).2]
            · exact absurd he (hnone e)
          · exact fun hno => absurd List.mem_cons_self (hno e₀)
        · have hne : cellId v ≠ cellId u := fun h => huv (cellId_inj hu hv h.symm)
          rw [World.getCell_modifyCell_of_ne _ ((inRange_iff_inMap hsize).mpr hu) huv] at hmem hnot
          constructor
          · intro e he
            refine hmem e (List.mem_of_ne_of_mem ?_ he)
            exact fun heq => hne (Prod.mk.inj heq).1
          · exact fun hno => hnot fun e he => hno e (List.mem_cons_of_mem _ he)

/-- What the loader makes of a cell of the map. -/
def loadedCell (d : MapDict) (v : VI2d) : SCell :=
  match d.cells[cellId v]? with
  | none => floorCell
  | some e => e.write floorCell

theorem exists_loadMap (hsize : w.size = mapSize) (hkeys : d.Keyed) :
    ∃ w', loadMap w d = some w' ∧ ∀ v, InMap v → w'.getCell v = loadedCell d v := by
  have hsize' : w.reset.size = mapSize := reset_size.trans hsize
  have hmem : ∀ key e, (key, e) ∈ d.cells.toList ↔ d.cells[key]? = some e := fun key e =>
    Std.TreeMap.mem_toList_iff_getElem?_eq_some
  have hdistinct : d.cells.toList.Pairwise fun a b => a.1 ≠ b.1 := by
    refine Std.TreeMap.distinct_keys_toList.imp fun h heq => h ?_
    rw [heq]
    exact Std.ReflCmp.compare_self
  obtain ⟨w', hfold, -, hcells⟩ := foldlM_entries d.cells.toList hsize'
    (fun e he => hkeys e.1 e.2 ((hmem e.1 e.2).mp he)) hdistinct
  refine ⟨w', ?_, fun v hv => ?_⟩
  · rw [loadMap, loadEntries, Std.TreeMap.foldlM_eq_foldlM_toList]
    exact hfold
  · obtain ⟨hsome, hnone⟩ := hcells v hv
    have hreset := getCell_reset ((inRange_iff_inMap hsize).mpr hv)
    rw [hreset] at hsome hnone
    unfold loadedCell
    cases hentry : d.cells[cellId v]? with
    | none =>
        refine hnone fun e he => ?_
        rw [hmem, hentry] at he
        exact nomatch he
    | some e => exact hsome e ((hmem _ _).mpr hentry)

/-- The cells look the same, from wherever they are seen. -/
def SameDrawn (c c' : SCell) : Prop :=
  c.wall = c'.wall ∧ ∀ bVisible, getFaceQuads bVisible c = getFaceQuads bVisible c'

theorem sameDrawn_iff {c c' : SCell} :
    SameDrawn c c' ↔ c.wall = c'.wall ∧ ∀ f ∈ drawnFaces c.wall, c.id f = c'.id f := by
  refine and_congr_right fun hwall => ?_
  unfold getFaceQuads
  rw [← hwall]
  constructor
  · intro hquads f hf
    have hall := hquads fun _ => true
    rw [List.filter_eq_self.mpr fun _ _ => rfl] at hall
    exact (Prod.mk.inj (List.map_inj_left.mp hall f hf)).2
  · intro hid bVisible
    refine List.map_inj_left.mpr fun f hf => ?_
    rw [hid f (List.mem_filter.mp hf).1]

end AmongUs
