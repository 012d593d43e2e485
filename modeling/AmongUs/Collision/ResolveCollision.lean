import AmongUs.Collision.Dynamic
import AmongUs.Map.World
import Mathlib.Data.List.Nodup

/-!
The movement of the player (`AmongUsSTE::resolveCollision`).

The code collects the contacts of the player with the walls among the eight
cells around its own, sorts them by time and responds to them one after the
other, each with the velocity that the ones before have left. `std::sort`
may leave contacts of equal time in any order, so the sort is a parameter
(`Sorts`). The list of the cells is a parameter too, for the comparison with
a run over more of them.

On exact numbers such a run is a sequence of displacements (`ShortensAll`)
along some order of the contacts (`ContactOrder`).
-/

namespace AmongUs

def surroundRect : List VI2d :=
  [⟨-1, -1⟩, ⟨0, -1⟩, ⟨1, -1⟩, ⟨-1, 0⟩, ⟨1, 0⟩, ⟨-1, 1⟩, ⟨0, 1⟩, ⟨1, 1⟩]

/-- The entry of `vCollisionRects` for a cell. -/
def cellRect (c : VI2d) : Rect := { pos := c.toFloat, size := .fin ⟨1, 1⟩ }

/-- The first entry of `vCollisionRects`. -/
def playerRect (vfPos vfVel : VF2d) : Rect := { pos := vfPos, size := .fin ⟨1, 1⟩, vel := vfVel }

def surroundingCells (vfPos : VF2d) : List VI2d := surroundRect.map fun s => vfPos.toInt + s

/-- The vector `z`, with the rectangles in place of their indices. -/
def collectContacts (world : World) (player : Rect) (elapsedTime : Extended ℚ)
    (rects : List Rect) : List (Rect × Extended ℚ) :=
  rects.filterMap fun r =>
    if (world.getCell r.pos.toInt).wall then
      (dynamicRectVsRect player elapsedTime r).map fun c => (r, c.time)
    else none

/-- What `std::sort` promises for the comparison of the contact times. -/
def Sorts (z z' : List (Rect × Extended ℚ)) : Prop :=
  z'.Perm z ∧ z'.Pairwise fun a b => ¬b.2 < a.2

def resolveInOrder (player : Rect) (elapsedTime : Extended ℚ) (z : List (Rect × Extended ℚ)) :
    Rect :=
  z.foldl (fun r j => (resolveDynamicRectVsRect r elapsedTime j.1).1) player

def resolveCollisionOver (cells : List VI2d)
    (sort : List (Rect × Extended ℚ) → List (Rect × Extended ℚ)) (world : World)
    (vfPos vfVel : VF2d) (elapsedTime : Extended ℚ) : VF2d :=
  let player := playerRect vfPos vfVel
  let z := sort (collectContacts world player elapsedTime (cells.map cellRect))
  let player' := resolveInOrder player elapsedTime z
  player'.pos + player'.vel * elapsedTime

def resolveCollision (sort : List (Rect × Extended ℚ) → List (Rect × Extended ℚ))
    (world : World) (vfPos vfVel : VF2d) (elapsedTime : Extended ℚ) : VF2d :=
  resolveCollisionOver (surroundingCells vfPos) sort world vfPos vfVel elapsedTime

/-- The sort does its work on the contacts of a run. -/
def SortsContacts (sort : List (Rect × Extended ℚ) → List (Rect × Extended ℚ)) (world : World)
    (cells : List VI2d) (vfPos vfVel : VF2d) (elapsedTime : Extended ℚ) : Prop :=
  let z := collectContacts world (playerRect vfPos vfVel) elapsedTime (cells.map cellRect)
  Sorts z (sort z)

/-! The bounds of a cell, grown by the player and seen from its centre. -/

def cellLo (p : V2d ℚ) (c : VI2d) : V2d ℚ := ⟨c.x - p.x - 1, c.y - p.y - 1⟩

def cellHi (p : V2d ℚ) (c : VI2d) : V2d ℚ := ⟨c.x + 1 - p.x, c.y + 1 - p.y⟩

theorem cellLo_lt_cellHi_x (p : V2d ℚ) (c : VI2d) : (cellLo p c).x < (cellHi p c).x := by
  simp only [cellLo, cellHi]
  linarith

theorem cellLo_lt_cellHi_y (p : V2d ℚ) (c : VI2d) : (cellLo p c).y < (cellHi p c).y := by
  simp only [cellLo, cellHi]
  linarith

theorem toInt_toFloat (c : VI2d) : c.toFloat.toInt = c := by
  ext
  · simp [V2d.toFloat, V2d.toInt, V2d.map, V2d.fin]
  · simp [V2d.toFloat, V2d.toInt, V2d.map, V2d.fin]

theorem cellRect_injective : Function.Injective cellRect := fun c c' h => by
  have hpos : c.toFloat.toInt = c'.toFloat.toInt := congrArg (fun r => r.pos.toInt) h
  rwa [toInt_toFloat, toInt_toFloat] at hpos

theorem surroundingCells_nodup (vfPos : VF2d) : (surroundingCells vfPos).Nodup := by
  refine List.Nodup.map (fun a b h => ?_) (by decide)
  exact V2d.ext (Int.add_left_cancel (congrArg V2d.x h)) (Int.add_left_cancel (congrArg V2d.y h))

section Cells

variable {world : World} {p v d d' : V2d ℚ} {e t : ℚ} {c : VI2d} {cells : List VI2d}

theorem map_sub_sub_one : (c.map (↑) : V2d ℚ) - p - ⟨1, 1⟩ = cellLo p c := rfl

theorem map_add_one_sub : (c.map (↑) : V2d ℚ) + ⟨1, 1⟩ - p = cellHi p c := rfl

theorem dynamicRectVsRect_cell_iff (contact : Contact) :
    dynamicRectVsRect (playerRect (.fin p) (.fin v)) (.fin e) (cellRect c) = some contact ↔
      ∃ t n, Touches (cellLo p c) (cellHi p c) (v * e) t n ∧
        contact = contactAt (p + (⟨1, 1⟩ : V2d ℚ) / (2 : ℚ)) (v * e) t n := by
  have hiff := dynamicRectVsRect_iff (w := ⟨0, 0⟩) (map_sub_sub_one (p := p) (c := c))
    (map_add_one_sub (p := p)) (rfl : v * e = v * e) (cellLo_lt_cellHi_x p c)
    (cellLo_lt_cellHi_y p c) contact
  exact hiff

theorem resolve_cell (he : 0 < e) :
    ∃ v', (resolveDynamicRectVsRect (playerRect (.fin p) (.fin v)) (.fin e) (cellRect c)).1 =
        playerRect (.fin p) (.fin v') ∧
      Shortens (cellLo p c) (cellHi p c) (v * e) (v' * e) := by
  have hresolve := resolve_fin (v := v) (w := ⟨0, 0⟩) he (map_sub_sub_one (p := p) (c := c))
    (map_add_one_sub (p := p)) (cellLo_lt_cellHi_x p c) (cellLo_lt_cellHi_y p c)
  exact hresolve

/-- The cell is a wall that the player meets at time `t`. -/
def Meets (world : World) (p d : V2d ℚ) (c : VI2d) (t : ℚ) : Prop :=
  (world.getCell c).wall ∧ ∃ n, Touches (cellLo p c) (cellHi p c) d t n

theorem Meets.time_eq {t' : ℚ} (h : Meets world p d c t) (h' : Meets world p d c t') : t = t' := by
  obtain ⟨-, n, htouch⟩ := h
  obtain ⟨-, n', htouch'⟩ := h'
  exact htouch.time_eq htouch'

theorem mem_collectContacts {r : Rect} {x : Extended ℚ} :
    (r, x) ∈ collectContacts world (playerRect (.fin p) (.fin v)) (.fin e) (cells.map cellRect) ↔
      ∃ c ∈ cells, ∃ t, Meets world p (v * e) c t ∧ (r, x) = (cellRect c, .fin t) := by
  simp only [collectContacts, List.mem_filterMap, List.mem_map, exists_exists_and_eq_and]
  refine exists_congr fun c => and_congr_right fun _ => ?_
  rw [show (cellRect c).pos.toInt = c from toInt_toFloat c, Option.ite_none_right_eq_some,
    Option.map_eq_some_iff]
  constructor
  · rintro ⟨hwall, contact, hcontact, hpair⟩
    obtain ⟨t, n, htouch, rfl⟩ := (dynamicRectVsRect_cell_iff contact).mp hcontact
    exact ⟨t, ⟨hwall, n, htouch⟩, hpair.symm⟩
  · rintro ⟨t, ⟨hwall, n, htouch⟩, hpair⟩
    exact ⟨hwall, _, (dynamicRectVsRect_cell_iff _).mpr ⟨t, n, htouch, rfl⟩, hpair.symm⟩

theorem collectContacts_nodup (world : World) (h : cells.Nodup) (player : Rect) (x : Extended ℚ) :
    (collectContacts world player x (cells.map cellRect)).Nodup := by
  refine List.Nodup.filterMap ?_ (h.map cellRect_injective)
  have hfst : ∀ r a, a ∈ (if (world.getCell r.pos.toInt).wall then
      (dynamicRectVsRect player x r).map fun c => (r, c.time) else none) → a.1 = r := by
    intro r a ha
    obtain ⟨-, hmap⟩ := Option.ite_none_right_eq_some.mp ha
    obtain ⟨c, -, rfl⟩ := Option.map_eq_some_iff.mp hmap
    rfl
  intro r r' a ha ha'
  exact (hfst r a ha).symm.trans (hfst r' a ha')

/-- The contacts with a list of cells, in an order that the sort may leave. -/
structure ContactOrder (world : World) (p d : V2d ℚ) (cells : List VI2d)
    (ks : List (VI2d × ℚ)) : Prop where
  mem_iff : ∀ c t, (c, t) ∈ ks ↔ c ∈ cells ∧ Meets world p d c t
  nodup : ks.Nodup
  sorted : ks.Pairwise fun a b => a.2 ≤ b.2

def asContact (k : VI2d × ℚ) : Rect × Extended ℚ := (cellRect k.1, .fin k.2)

theorem asContact_injective : Function.Injective asContact := fun k k' h => by
  obtain ⟨hrect, htime⟩ := Prod.mk.inj h
  exact Prod.ext (cellRect_injective hrect) (Extended.fin.inj htime)

theorem mem_collectContacts_asContact {k : VI2d × ℚ} :
    asContact k ∈
        collectContacts world (playerRect (.fin p) (.fin v)) (.fin e) (cells.map cellRect) ↔
      k.1 ∈ cells ∧ Meets world p (v * e) k.1 k.2 := by
  rw [asContact, mem_collectContacts]
  constructor
  · rintro ⟨c, hc, t, hmeets, hpair⟩
    obtain rfl : k = (c, t) := asContact_injective hpair
    exact ⟨hc, hmeets⟩
  · rintro ⟨hc, hmeets⟩
    exact ⟨k.1, hc, k.2, hmeets, rfl⟩

/-- Every list of contacts lists cells and times. -/
theorem exists_map_asContact {z : List (Rect × Extended ℚ)}
    (h : ∀ a ∈ z, a ∈
      collectContacts world (playerRect (.fin p) (.fin v)) (.fin e) (cells.map cellRect)) :
    ∃ ks : List (VI2d × ℚ), ks.map asContact = z := by
  induction z with
  | nil => exact ⟨[], rfl⟩
  | cons a z ih =>
      obtain ⟨ks, rfl⟩ := ih fun b hb => h b (List.mem_cons_of_mem a hb)
      obtain ⟨r, x⟩ := a
      obtain ⟨c, -, t, -, hpair⟩ := mem_collectContacts.mp (h (r, x) List.mem_cons_self)
      exact ⟨(c, t) :: ks, by rw [hpair]; rfl⟩

/-- The orders that the sort may leave are the sorted orders of the contacts. -/
theorem sorts_iff (hcells : cells.Nodup) {z : List (Rect × Extended ℚ)} :
    Sorts (collectContacts world (playerRect (.fin p) (.fin v)) (.fin e) (cells.map cellRect)) z ↔
      ∃ ks, ContactOrder world p (v * e) cells ks ∧ z = ks.map asContact := by
  have hnodup := collectContacts_nodup world hcells (playerRect (.fin p) (.fin v))
    (.fin e)
  constructor
  · rintro ⟨hperm, hsorted⟩
    obtain ⟨ks, rfl⟩ := exists_map_asContact fun a ha => hperm.mem_iff.mp ha
    refine ⟨ks, ⟨fun c t => ?_, ?_, ?_⟩, rfl⟩
    · rw [← List.mem_map_of_injective asContact_injective, hperm.mem_iff,
        mem_collectContacts_asContact]
    · exact (List.nodup_map_iff asContact_injective).mp (hperm.nodup_iff.mpr hnodup)
    · refine (List.pairwise_map.mp hsorted).imp fun {a b} hle => ?_
      exact not_lt.mp fun hlt => hle (Extended.fin_lt_fin.mpr hlt)
  · rintro ⟨ks, horder, rfl⟩
    refine ⟨?_, ?_⟩
    · rw [List.perm_ext_iff_of_nodup (horder.nodup.map asContact_injective) hnodup]
      intro a
      constructor
      · intro ha
        obtain ⟨k, hk, rfl⟩ := List.mem_map.mp ha
        exact mem_collectContacts_asContact.mpr ((horder.mem_iff k.1 k.2).mp hk)
      · obtain ⟨r, x⟩ := a
        intro ha
        obtain ⟨c, hc, t, hmeets, hpair⟩ := mem_collectContacts.mp ha
        rw [hpair]
        exact List.mem_map_of_mem ((horder.mem_iff c t).mpr ⟨hc, hmeets⟩)
    · refine List.pairwise_map.mpr (horder.sorted.imp fun {a b} hle hlt => ?_)
      exact (Extended.fin_lt_fin.mp hlt).not_ge hle

theorem exists_contactOrder (world : World) (p d : V2d ℚ) (hcells : cells.Nodup) :
    ∃ ks, ContactOrder world p d cells ks := by
  have hd : d * (1 : ℚ) = d := V2d.ext (mul_one d.x) (mul_one d.y)
  obtain ⟨ks, hks⟩ : ∃ ks : List (VI2d × ℚ), ks.map asContact =
      collectContacts world (playerRect (.fin p) (.fin d)) (.fin 1) (cells.map cellRect) :=
    exists_map_asContact fun a ha => ha
  have hnodup := collectContacts_nodup world hcells (playerRect (.fin p) (.fin d))
    (.fin 1)
  rw [← hks] at hnodup
  refine ⟨ks.mergeSort fun a b => a.2 ≤ b.2, fun c t => ?_, ?_, ?_⟩
  · rw [(List.mergeSort_perm ks _).mem_iff, ← List.mem_map_of_injective asContact_injective, hks,
      mem_collectContacts_asContact, hd]
  · rw [(List.mergeSort_perm ks _).nodup_iff]
    exact (List.nodup_map_iff asContact_injective).mp hnodup
  · refine (List.pairwise_mergeSort ?_ ?_ ks).imp fun {a b} hle => of_decide_eq_true hle
    · intro a b c hab hbc
      exact decide_eq_true ((of_decide_eq_true hab).trans (of_decide_eq_true hbc))
    · intro a b
      simpa using le_total a.2 b.2

/-- The response to the contacts of a list, one after the other. -/
def ShortensAll {ι : Type*} (lo hi : ι → V2d ℚ) : List ι → V2d ℚ → V2d ℚ → Prop
  | [], d, d' => d' = d
  | i :: is, d, d' => ∃ d₁, Shortens (lo i) (hi i) d d₁ ∧ ShortensAll lo hi is d₁ d'

theorem ShortensAll.unique {ι : Type*} {lo hi : ι → V2d ℚ} {is : List ι} {d₁ d₂ : V2d ℚ}
    (h₁ : ShortensAll lo hi is d d₁) (h₂ : ShortensAll lo hi is d d₂) : d₁ = d₂ := by
  induction is generalizing d with
  | nil => exact h₁.trans h₂.symm
  | cons i is ih =>
      obtain ⟨a, hstep, hrest⟩ := h₁
      obtain ⟨b, hstep', hrest'⟩ := h₂
      exact ih hrest (hstep.unique hstep' ▸ hrest')

/-- The same responses, seen in other coordinates. -/
theorem ShortensAll.map {ι κ : Type*} {lo hi : ι → V2d ℚ} {lo' hi' : κ → V2d ℚ} {is : List ι}
    (g : ι → κ) (φ : V2d ℚ → V2d ℚ)
    (hstep : ∀ i a b, Shortens (lo i) (hi i) a b → Shortens (lo' (g i)) (hi' (g i)) (φ a) (φ b))
    (h : ShortensAll lo hi is d d') : ShortensAll lo' hi' (is.map g) (φ d) (φ d') := by
  induction is generalizing d with
  | nil => exact congrArg φ h
  | cons i is ih =>
      obtain ⟨d₁, hfirst, hrest⟩ := h
      exact ⟨φ d₁, hstep i d d₁ hfirst, ih hrest⟩

theorem ShortensAll.append {ι : Type*} {lo hi : ι → V2d ℚ} {is js : List ι}
    (h : ShortensAll lo hi (is ++ js) d d') :
    ∃ d₁, ShortensAll lo hi is d d₁ ∧ ShortensAll lo hi js d₁ d' := by
  induction is generalizing d with
  | nil => exact ⟨d, rfl, h⟩
  | cons i is ih =>
      obtain ⟨d₁, hi', hrest⟩ := h
      obtain ⟨d₂, his, hjs⟩ := ih hrest
      exact ⟨d₂, ⟨d₁, hi', his⟩, hjs⟩

/-- The state in which one wall of the list is responded to. -/
theorem ShortensAll.at_mem {ι : Type*} {lo hi : ι → V2d ℚ} {is : List ι} {i : ι}
    (h : ShortensAll lo hi is d d') (hi' : i ∈ is) :
    ∃ pre post d₁ d₂, is = pre ++ i :: post ∧ ShortensAll lo hi pre d d₁ ∧
      Shortens (lo i) (hi i) d₁ d₂ ∧ ShortensAll lo hi post d₂ d' := by
  obtain ⟨pre, post, rfl⟩ := List.append_of_mem hi'
  obtain ⟨d₁, hpre, d₂, hshortens, hpost⟩ := h.append
  exact ⟨pre, post, d₁, d₂, rfl, hpre, hshortens, hpost⟩

theorem resolveInOrder_fin (he : 0 < e) (ks : List (VI2d × ℚ)) :
    ∃ v', resolveInOrder (playerRect (.fin p) (.fin v)) (.fin e) (ks.map asContact) =
        playerRect (.fin p) (.fin v') ∧
      ShortensAll (cellLo p) (cellHi p) (ks.map Prod.fst) (v * e) (v' * e) := by
  induction ks generalizing v with
  | nil => exact ⟨v, rfl, rfl⟩
  | cons k ks ih =>
      obtain ⟨v₁, hresolve, hshortens⟩ := resolve_cell (p := p) (v := v) (c := k.1) he
      obtain ⟨v', hrest, hall⟩ := ih (v := v₁)
      refine ⟨v', ?_, v₁ * e, hshortens, hall⟩
      rw [← hrest, ← hresolve]
      rfl

/-- The position after the move, when the sort leaves the order `ks`. -/
theorem resolveCollisionOver_fin (he : 0 < e) {ks : List (VI2d × ℚ)}
    {sort : List (Rect × Extended ℚ) → List (Rect × Extended ℚ)}
    (hsort : sort (collectContacts world (playerRect (.fin p) (.fin v)) (.fin e)
      (cells.map cellRect)) = ks.map asContact) :
    ∃ d', ShortensAll (cellLo p) (cellHi p) (ks.map Prod.fst) (v * e) d' ∧
      resolveCollisionOver cells sort world (.fin p) (.fin v) (.fin e) = .fin (p + d') := by
  obtain ⟨v', hresolve, hall⟩ := resolveInOrder_fin (p := p) (v := v) he ks
  refine ⟨v' * e, hall, ?_⟩
  dsimp only [resolveCollisionOver]
  rw [hsort, hresolve]
  rfl

theorem exists_order_of_sorts (he : 0 < e) (hcells : cells.Nodup)
    {sort : List (Rect × Extended ℚ) → List (Rect × Extended ℚ)}
    (hsort : SortsContacts sort world cells (.fin p) (.fin v) (.fin e)) :
    ∃ ks d', ContactOrder world p (v * e) cells ks ∧
      ShortensAll (cellLo p) (cellHi p) (ks.map Prod.fst) (v * e) d' ∧
      resolveCollisionOver cells sort world (.fin p) (.fin v) (.fin e) = .fin (p + d') := by
  obtain ⟨ks, horder, hks⟩ := (sorts_iff hcells).mp hsort
  obtain ⟨d', hall, hresult⟩ := resolveCollisionOver_fin he hks
  exact ⟨ks, d', horder, hall, hresult⟩

theorem exists_sort_of_order (he : 0 < e) (hcells : cells.Nodup) {ks : List (VI2d × ℚ)}
    (horder : ContactOrder world p (v * e) cells ks) :
    ∃ sort d', SortsContacts sort world cells (.fin p) (.fin v) (.fin e) ∧
      ShortensAll (cellLo p) (cellHi p) (ks.map Prod.fst) (v * e) d' ∧
      resolveCollisionOver cells sort world (.fin p) (.fin v) (.fin e) = .fin (p + d') := by
  obtain ⟨sort, hsort⟩ : ∃ sort : List (Rect × Extended ℚ) → List (Rect × Extended ℚ),
      sort (collectContacts world (playerRect (.fin p) (.fin v)) (.fin e)
        (cells.map cellRect)) = ks.map asContact := ⟨fun _ => ks.map asContact, rfl⟩
  obtain ⟨d', hall, hresult⟩ := resolveCollisionOver_fin he hsort
  exact ⟨sort, d', (sorts_iff hcells).mpr ⟨ks, horder, hsort⟩, hall, hresult⟩

end Cells

/-- A world with one wall. -/
def wallAhead : World := (World.create 3 3).modifyCell ⟨2, 0⟩ fun c => { c with wall := true }

theorem wallAhead_wall_iff {c : VI2d} : (wallAhead.getCell c).wall ↔ c = ⟨2, 0⟩ :=
  World.wall_modifyCell_create_iff (by decide)

theorem sorts_self {z : List (Rect × Extended ℚ)} (h : z.length ≤ 1) : Sorts z z := by
  refine ⟨List.Perm.refl z, ?_⟩
  cases z with
  | nil => exact .nil
  | cons a z =>
      obtain rfl : z = [] := List.length_eq_zero_iff.mp (Nat.le_zero.mp (Nat.le_of_succ_le_succ h))
      exact List.pairwise_singleton ..

end AmongUs
