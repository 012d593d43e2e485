import AmongUs.Map.LoadMap
import Mathlib.Data.List.Induction

/-!
Sequences of writes to the world.

Two coordinates share a cell when they are equal, or when neither is on the
map (`SameCell`): a write at one is a write at the other. So a new world is
a map from coordinates to cells, with a default elsewhere, for as long as no
write at a coordinate outside the map changes the default
(`finite_map_iff`). `LoadMap` makes such writes, since it does not look
where a key of the file leads (`loadMap_eq_writes`).
-/

namespace AmongUs

/-- A write through a reference that `GetCell` has returned. -/
abbrev CellWrite := VI2d × (SCell → SCell)

/-- What the writes at `v` make of a cell. -/
def written (v : VI2d) (ws : List CellWrite) (c : SCell) : SCell :=
  ws.foldl (fun c e => if e.1 = v then e.2 c else c) c

namespace World

def writes (w : World) (ws : List CellWrite) : World :=
  ws.foldl (fun w e => w.modifyCell e.1 e.2) w

/-- `GetCell` returns the same reference. -/
def SameCell (w : World) (u v : VI2d) : Prop := u = v ∨ ¬w.InRange u ∧ ¬w.InRange v

instance (w : World) (u v : VI2d) : Decidable (w.SameCell u v) :=
  inferInstanceAs (Decidable (_ ∨ _))

variable {w : World} {u v : VI2d} {ws : List CellWrite} {f : SCell → SCell}

theorem sameCell_self : w.SameCell v v := Or.inl rfl

theorem sameCell_iff_of_inRange (hv : w.InRange v) : w.SameCell u v ↔ u = v :=
  or_iff_left fun h => h.2 hv

theorem sameCell_iff_of_not_inRange (hv : ¬w.InRange v) : w.SameCell u v ↔ ¬w.InRange u := by
  constructor
  · rintro (rfl | h)
    · exact hv
    · exact h.1
  · exact fun hu => Or.inr ⟨hu, hv⟩

theorem sameCell_iff_of_ne (hne : u ≠ v) : w.SameCell u v ↔ ¬w.InRange u ∧ ¬w.InRange v :=
  or_iff_right hne

/-- What a write changes, for every pair of coordinates. -/
theorem getCell_modifyCell (u v : VI2d) (f : SCell → SCell) :
    (w.modifyCell u f).getCell v = if w.SameCell u v then f (w.getCell v) else w.getCell v := by
  by_cases hu : w.InRange u
  · by_cases huv : u = v
    · rw [huv, if_pos sameCell_self, getCell_modifyCell_self]
    · have hnot : ¬w.SameCell u v := fun h => ((sameCell_iff_of_ne huv).mp h).1 hu
      rw [if_neg hnot, getCell_modifyCell_of_ne _ hu huv]
  · have hwrite : w.modifyCell u f = { w with nullCell := f w.nullCell } := by
      rw [modifyCell, if_neg hu]
    by_cases hv : w.InRange v
    · -- the index is one of the vector, so the extra cell is not read
      have hlt := hv.index_lt
      have hnot : ¬w.SameCell u v := fun h => hu ((sameCell_iff_of_inRange hv).mp h ▸ hv)
      rw [if_neg hnot, getCell,
        if_pos (inRange_modifyCell.mpr hv), getCell, if_pos hv, index, modifyCell_size, ← index,
        hwrite, List.getD_eq_getElem?_getD, List.getD_eq_getElem?_getD,
        List.getElem?_eq_getElem hlt]
      rfl
    · have hsame : w.SameCell u v := (sameCell_iff_of_not_inRange hv).mpr hu
      rw [if_pos hsame, getCell, if_neg (mt inRange_modifyCell.mp hv), getCell,
        if_neg hv, hwrite]

theorem writes_append (ws ws' : List CellWrite) :
    w.writes (ws ++ ws') = (w.writes ws).writes ws' := List.foldl_append ..

theorem writes_snoc (ws : List CellWrite) (e : CellWrite) :
    w.writes (ws ++ [e]) = (w.writes ws).modifyCell e.1 e.2 := writes_append ws [e]

theorem written_snoc (ws : List CellWrite) (e : CellWrite) (c : SCell) :
    written v (ws ++ [e]) c = if e.1 = v then e.2 (written v ws c) else written v ws c := by
  simp [written]

theorem writes_size (ws : List CellWrite) : (w.writes ws).size = w.size := by
  induction ws generalizing w with
  | nil => rfl
  | cons e ws ih => exact ih.trans (modifyCell_size ..)

theorem sameCell_writes (ws : List CellWrite) :
    (w.writes ws).SameCell u v ↔ w.SameCell u v := by
  induction ws generalizing w with
  | nil => rfl
  | cons e ws ih =>
      apply ih.trans
      simp only [SameCell, inRange_modifyCell]

theorem getCell_writes_snoc (ws : List CellWrite) (e : CellWrite) (v : VI2d) :
    (w.writes (ws ++ [e])).getCell v =
      if w.SameCell e.1 v then e.2 ((w.writes ws).getCell v) else (w.writes ws).getCell v := by
  rw [writes_snoc, getCell_modifyCell]
  exact if_congr (sameCell_writes ws) rfl rfl

/-- On the map the writes at a coordinate are what is read there. -/
theorem getCell_writes (hv : w.InRange v) (ws : List CellWrite) :
    (w.writes ws).getCell v = written v ws (w.getCell v) := by
  induction ws using List.reverseRecOn with
  | nil => rfl
  | append_singleton ws e ih =>
      rw [getCell_writes_snoc, written_snoc, ih]
      exact if_congr (sameCell_iff_of_inRange hv) rfl rfl

end World

/-! ### The writes of the loader -/

def resetWrites (w : World) : List CellWrite := w.cells.map fun v => (v, fun _ => floorCell)

/-- The entries with the coordinates that their keys lead to. -/
def decoded (es : List (String × Entry)) : Option (List (VI2d × Entry)) :=
  es.mapM fun e => (stoi e.1).map fun key_ => (cellOf key_, e.2)

def entryWrites (es : List (VI2d × Entry)) : List CellWrite := es.map fun e => (e.1, e.2.write)

theorem decoded_cons (e : String × Entry) (es : List (String × Entry)) :
    decoded (e :: es) = (stoi e.1).bind fun key_ =>
      (decoded es).map fun ds => (cellOf key_, e.2) :: ds := by
  rw [decoded, List.mapM_cons, ← decoded]
  cases stoi e.1 with
  | none => rfl
  | some key_ => cases decoded es <;> rfl

theorem foldlM_eq_writes (w : World) (es : List (String × Entry)) :
    es.foldlM (fun w e => (stoi e.1).map fun key_ => w.modifyCell (cellOf key_) e.2.write) w =
      (decoded es).map fun ds => w.writes (entryWrites ds) := by
  induction es generalizing w with
  | nil => rfl
  | cons e es ih =>
      rw [List.foldlM_cons, decoded_cons]
      cases stoi e.1 with
      | none => rfl
      | some key_ =>
          simp only [Option.map_some, Option.bind_eq_bind, Option.bind_some, ih, Option.map_map]
          rfl

theorem loadEntries_eq_writes (w : World) (d : MapDict) :
    loadEntries w d = (decoded d.cells.toList).map fun ds => w.writes (entryWrites ds) := by
  rw [loadEntries, Std.TreeMap.foldlM_eq_foldlM_toList, foldlM_eq_writes]

/-- `LoadMap` is a sequence of writes. -/
theorem loadMap_eq_writes (w : World) (d : MapDict) :
    loadMap w d = (decoded d.cells.toList).map fun ds =>
      w.writes (resetWrites w ++ entryWrites ds) := by
  have hreset : w.reset = w.writes (resetWrites w) := by
    rw [World.writes, resetWrites, List.foldl_map]
    rfl
  rw [loadMap, loadEntries_eq_writes, hreset]
  simp only [World.writes_append]

end AmongUs
