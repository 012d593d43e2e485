import AmongUs.Map.World
import Mathlib.Data.List.TakeWhile

/-!
The saved map (`mapDict`).

The file is a JSON object. Its key `mapSize`, which every loader skips, is a
field here; the other keys are the numbers of cells, and each value says
what is known of its cell. As in the object of the JSON library the entries
are ordered by their keys, and `operator[]` makes an entry that is missing.

The number of a cell is written with `std::to_string` (`cellId`) and read
back with `std::stoi` and the division by the width (`cellOf`). On the cells
of the map both are inverse to each other (`stoi_cellId`, `cellOf_number`).
-/

namespace AmongUs

def mapSize : VI2d := ⟨64, 64⟩

def vTileSize : VI2d := ⟨32, 32⟩

/-- What the file says about a cell: `type` and the tiles of the faces. -/
structure Entry where
  type : Option ℤ := none
  face : Face → Option VI2d := fun _ => none

structure MapDict where
  mapSize : Option VI2d
  cells : Std.TreeMap String Entry

namespace MapDict

/-- A write to `mapDict[key]`. -/
def modify (d : MapDict) (key : String) (f : Entry → Entry) : MapDict :=
  { d with cells := d.cells.alter key fun e => some (f (e.getD {})) }

def erase (d : MapDict) (key : String) : MapDict := { d with cells := d.cells.erase key }

variable {d : MapDict} {key key' : String} {f : Entry → Entry}

theorem cells_modify_self :
    (d.modify key f).cells[key]? = some (f (d.cells[key]?.getD {})) :=
  Std.TreeMap.getElem?_alter_self

theorem cells_modify_of_ne (h : key ≠ key') :
    (d.modify key f).cells[key']? = d.cells[key']? := by
  rw [modify, Std.TreeMap.getElem?_alter, if_neg]
  exact mt Std.LawfulEqCmp.eq_of_compare h

theorem cells_erase_self : (d.erase key).cells[key]? = none :=
  Std.TreeMap.getElem?_erase_self

theorem cells_erase_of_ne (h : key ≠ key') : (d.erase key).cells[key']? = d.cells[key']? := by
  rw [erase, Std.TreeMap.getElem?_erase, if_neg]
  exact mt Std.LawfulEqCmp.eq_of_compare h

end MapDict

/-- `isspace` in the C locale. -/
def isSpace (c : Char) : Bool := c == ' ' || ('\t' ≤ c && c ≤ '\r')

/-- The digits that a number starts with. -/
def digitsValue (cs : List Char) : Option ℕ :=
  match cs.takeWhile Char.isDigit with
  | [] => none
  | ds => some (Nat.ofDigitChars 10 ds 0)

/-- `std::stoi` in base ten. It throws when there is no number, or when the
number does not fit. -/
def stoi (s : String) : Option ℤ :=
  let value : Option ℤ :=
    match s.toList.dropWhile isSpace with
    | '-' :: cs => (digitsValue cs).map fun n => -n
    | '+' :: cs => (digitsValue cs).map (↑)
    | cs => (digitsValue cs).map (↑)
  value.filter fun n => -2 ^ 31 ≤ n && n < 2 ^ 31

/-- The key of a cell. -/
def cellId (v : VI2d) : String := toString (v.y + v.x * mapSize.x)

/-- The cell of a number. -/
def cellOf (key : ℤ) : VI2d :=
  let x := key.tdiv mapSize.x
  ⟨x, key - x * mapSize.x⟩

def InMap (v : VI2d) : Prop := 0 ≤ v.x ∧ v.x < mapSize.x ∧ 0 ≤ v.y ∧ v.y < mapSize.y

instance (v : VI2d) : Decidable (InMap v) :=
  inferInstanceAs (Decidable (0 ≤ v.x ∧ v.x < mapSize.x ∧ 0 ≤ v.y ∧ v.y < mapSize.y))

variable {u v : VI2d}

theorem digitsValue_toDigits (n : ℕ) : digitsValue (Nat.toDigits 10 n) = some n := by
  have hdigits : (Nat.toDigits 10 n).takeWhile Char.isDigit = Nat.toDigits 10 n :=
    List.takeWhile_eq_self_iff.mpr fun c hc =>
      Nat.isDigit_of_mem_toDigits (by decide) (by decide) hc
  unfold digitsValue
  rw [hdigits]
  split
  · exact absurd ‹_› Nat.toDigits_ne_nil
  · rw [Nat.ofDigitChars_ten_toDigits]

theorem stoi_toString {n : ℕ} (h : n < 2 ^ 31) : stoi (toString (n : ℤ)) = some (n : ℤ) := by
  have hlist : (toString (n : ℤ)).toList = Nat.toDigits 10 n := Nat.toList_repr
  have hvalue := digitsValue_toDigits n
  have hfirst : ∀ c ∈ Nat.toDigits 10 n, c.isDigit := fun c hc =>
    Nat.isDigit_of_mem_toDigits (by decide) (by decide) hc
  unfold stoi
  rw [hlist]
  -- a number starts with a digit, so there is no space and no sign
  cases hcs : Nat.toDigits 10 n with
  | nil => exact absurd hcs Nat.toDigits_ne_nil
  | cons c cs =>
      rw [hcs] at hvalue hfirst
      have hc := hfirst c List.mem_cons_self
      have hspace : ¬isSpace c := by
        simp only [isSpace, Char.isDigit, Char.le_def, Bool.or_eq_true, Bool.and_eq_true,
          decide_eq_true_eq, beq_iff_eq] at hc ⊢
        rintro (rfl | ⟨-, hle⟩)
        · exact absurd hc.1 (by decide)
        · exact absurd (UInt32.le_trans hc.1 hle) (by decide)
      rw [List.dropWhile_cons_of_neg hspace]
      split
      · next heq => exact absurd hc (by rw [(List.cons.inj heq).1]; decide)
      · next heq => exact absurd hc (by rw [(List.cons.inj heq).1]; decide)
      · rw [hvalue]
        refine Option.filter_eq_some_iff.mpr ⟨rfl, ?_⟩
        simp only [Bool.and_eq_true, decide_eq_true_eq]
        omega

theorem InMap.number (h : InMap v) : 0 ≤ v.y + v.x * mapSize.x ∧ v.y + v.x * mapSize.x < 4096 := by
  unfold InMap at h
  simp only [mapSize] at h ⊢
  omega

/-- Every key is the one of a cell of the map. -/
def MapDict.Keyed (d : MapDict) : Prop :=
  ∀ key e, d.cells[key]? = some e → ∃ v, InMap v ∧ key = cellId v

theorem MapDict.Keyed.modify {d : MapDict} {f : Entry → Entry} (h : d.Keyed) (hv : InMap v) :
    (d.modify (cellId v) f).Keyed := by
  intro key e he
  by_cases hkey : cellId v = key
  · exact ⟨v, hv, hkey.symm⟩
  · rw [cells_modify_of_ne hkey] at he
    exact h key e he

theorem MapDict.Keyed.erase {d : MapDict} {key : String} (h : d.Keyed) : (d.erase key).Keyed := by
  intro key' e he
  by_cases hkey : key = key'
  · subst hkey
    rw [cells_erase_self] at he
    exact nomatch he
  · rw [cells_erase_of_ne hkey] at he
    exact h key' e he

theorem stoi_cellId (h : InMap v) : stoi (cellId v) = some (v.y + v.x * mapSize.x) := by
  obtain ⟨hnonneg, hlt⟩ := h.number
  obtain ⟨n, hn⟩ := Int.eq_ofNat_of_zero_le hnonneg
  rw [cellId, hn]
  exact stoi_toString (by omega)

theorem cellOf_number (h : InMap v) : cellOf (v.y + v.x * mapSize.x) = v := by
  have hx : (v.y + v.x * mapSize.x).tdiv mapSize.x = v.x := by
    rw [Int.tdiv_eq_ediv_of_nonneg h.number.1]
    unfold InMap at h
    simp only [mapSize] at h ⊢
    omega
  rw [cellOf, hx]
  exact V2d.ext rfl (add_sub_cancel_right ..)

theorem cellId_inj (hu : InMap u) (hv : InMap v) (h : cellId u = cellId v) : u = v := by
  have hnumber := congrArg stoi h
  rw [stoi_cellId hu, stoi_cellId hv, Option.some_inj] at hnumber
  rw [← cellOf_number hu, hnumber, cellOf_number hv]

end AmongUs
