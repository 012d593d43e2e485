import AmongUs.Collision.Lines
import AmongUs.Collision.Penetration
import AmongUs.Sorting.SortedFold

/-!
Contacts at the same time.

`std::sort` is not stable, so walls that are met at the same time may be
responded to in any order. The end of the move does not depend on it when two
such walls can be exchanged wherever the loop comes to them
(`TiesExchange`).

They always can be when no wall is met before the start of the move, except
for a player that stands on a cell and moves on both axes, with a wall beside
it on each of them (`MeetsBothWays`): the response to one of the walls ends
the contact with the other one. Then the player ends elsewhere when the other
wall is first, unless both walls are straight ahead and stop it in any order.
-/

namespace AmongUs

/-- The end of the move does not depend on what the sort does with ties. -/
def OrderFree (world : World) (p v : V2d ℚ) (e : ℚ) : Prop :=
  ∀ sort sort', SortsContacts sort world (surroundingCells (.fin p)) (.fin p) (.fin v) (.fin e) →
    SortsContacts sort' world (surroundingCells (.fin p)) (.fin p) (.fin v) (.fin e) →
    resolveCollision sort world (.fin p) (.fin v) (.fin e) =
      resolveCollision sort' world (.fin p) (.fin v) (.fin e)

/-- Two walls met at the same time leave the same velocity in either order,
from the velocity with which the loop comes to them. -/
def TiesExchange (world : World) (p v : V2d ℚ) (e : ℚ) : Prop :=
  SortedFold.Exchanges (fun a b : Rect × Extended ℚ => a.2 < b.2)
    (fun r j => (resolveDynamicRectVsRect r (.fin e) j.1).1) (playerRect (.fin p) (.fin v))
    (collectContacts world (playerRect (.fin p) (.fin v)) (.fin e)
      ((surroundingCells (.fin p)).map cellRect))

/-- No contact of the start velocity is before the start. -/
def NoneBefore (world : World) (p v : V2d ℚ) (e : ℚ) : Prop :=
  ∀ c ∈ surroundingCells (.fin p), (world.getCell c).wall →
    ∀ k, contactWith p v e c = some k → ¬k.time < .fin 0

def direction (d : ℚ) : ℤ := if d < 0 then -1 else 1

/-- The cell at a distance from the player's, in the direction of the motion. -/
def relativeCell (p d : V2d ℚ) (i j : ℤ) : VI2d :=
  ⟨⌊p.x⌋ + direction d.x * i, ⌊p.y⌋ + direction d.y * j⟩

def OnCell (p : V2d ℚ) : Prop := (⌊p.x⌋ : ℚ) = p.x ∧ (⌊p.y⌋ : ℚ) = p.y

/-- The player stands on a cell and touches walls ahead on both axes, which
are not both straight ahead. -/
structure MeetsBothWays (world : World) (p d : V2d ℚ) : Prop where
  onCell : OnCell p
  moves : d.x ≠ 0 ∧ d.y ≠ 0
  column : (world.getCell (relativeCell p d 1 0)).wall ∨
    (world.getCell (relativeCell p d 1 (-1))).wall
  row : (world.getCell (relativeCell p d 0 1)).wall ∨
    (world.getCell (relativeCell p d (-1) 1)).wall
  not_straight : ¬((world.getCell (relativeCell p d 1 0)).wall ∧
    (world.getCell (relativeCell p d 0 1)).wall)

theorem orderFree_of_tiesExchange {world : World} {p v : V2d ℚ} {e : ℚ}
    (h : TiesExchange world p v e) : OrderFree world p v e := by
  intro sort sort' hsort hsort'
  have hplayer := SortedFold.foldl_eq h hsort hsort'
  dsimp only [resolveCollision, resolveCollisionOver, resolveInOrder]
  rw [hplayer]

/-! The cells along the motion. -/

def lineGaps (p d : V2d ℚ) : V2d ℚ := ⟨lineGap p.x d.x, lineGap p.y d.y⟩

theorem lineGaps_x (p d : V2d ℚ) : 0 ≤ (lineGaps p d).x ∧ (lineGaps p d).x < 1 :=
  lineGap_bounds p.x d.x

theorem lineGaps_y (p d : V2d ℚ) : 0 ≤ (lineGaps p d).y ∧ (lineGaps p d).y < 1 :=
  lineGap_bounds p.y d.y

def linesOf (p d : V2d ℚ) : Lines where
  f := lineGaps p d
  f_x := lineGaps_x p d
  f_y := lineGaps_y p d

/-- The displacement with its axes turned forward. -/
def forward (d : V2d ℚ) : V2d ℚ := turn (turnedAxes d) d

section Cells

variable {world : World} {p v d d₁ d₂ : V2d ℚ} {e t : ℚ} {c c' : VI2d} {cs : List VI2d}

theorem forward_eq (d : V2d ℚ) : forward d = ⟨|d.x|, |d.y|⟩ :=
  V2d.ext (turn_lt_zero d.x) (turn_lt_zero d.y)

theorem forward_forward (d : V2d ℚ) : Lines.Forward (forward d) := by
  rw [forward_eq]
  exact ⟨abs_nonneg _, abs_nonneg _⟩

theorem linesOf_lo : (linesOf p d).lo (lineOf p d c) =
    turnLo (turnedAxes d) (cellLo p c) (cellHi p c) :=
  V2d.ext (lineGap_add_lineNumber ..) (lineGap_add_lineNumber ..)

theorem linesOf_hi : (linesOf p d).hi (lineOf p d c) =
    turnHi (turnedAxes d) (cellLo p c) (cellHi p c) :=
  V2d.ext (lineGap_add_lineNumber_add_two ..) (lineGap_add_lineNumber_add_two ..)

theorem shortens_lines (h : Shortens (cellLo p c) (cellHi p c) d₁ d₂) :
    Shortens ((linesOf p d).lo (lineOf p d c)) ((linesOf p d).hi (lineOf p d c))
      (turn (turnedAxes d) d₁) (turn (turnedAxes d) d₂) := by
  rw [linesOf_lo, linesOf_hi]
  exact shortens_turn _ h

theorem shortensAll_lines (h : ShortensAll (cellLo p) (cellHi p) cs d₁ d₂) :
    ShortensAll (linesOf p d).lo (linesOf p d).hi (cs.map (lineOf p d))
      (turn (turnedAxes d) d₁) (turn (turnedAxes d) d₂) :=
  h.map (lineOf p d) (turn (turnedAxes d)) fun _ _ _ => shortens_lines

theorem lineNumber_nonpos {p d : ℚ} {i : ℤ} (hlo : ⌊p⌋ - 1 ≤ i) (hhi : i ≤ ⌊p⌋ + 1) :
    lineNumber p d i ≤ 0 := by
  have hle := Int.floor_le_ceil p
  unfold lineNumber
  split <;> omega

theorem Meets.met (hpx : 0 ≤ p.x) (hpy : 0 ≤ p.y) (h : Meets world p d c t)
    (hc : c ∈ surroundingCells (.fin p)) (ht : 0 ≤ t) :
    (linesOf p d).Met (forward d) (lineOf p d c) t where
  lines := by
    obtain ⟨⟨⟨hx, hx'⟩, hy, hy'⟩, -⟩ := (mem_surroundingCells hpx hpy).mp hc
    exact ⟨lineNumber_nonpos hx hx', lineNumber_nonpos hy hy'⟩
  nonneg := ht
  touches := by
    rw [linesOf_lo, linesOf_hi]
    exact (exists_touches_turn _).mpr h.2

theorem noneBefore_iff : NoneBefore world p v e ↔
    ∀ c ∈ surroundingCells (.fin p), ∀ t, Meets world p (v * e) c t → 0 ≤ t := by
  constructor
  · rintro h c hc t ⟨hwall, n, htouch⟩
    have hnot := h c hc hwall _ ((dynamicRectVsRect_cell_iff _).mpr ⟨t, n, htouch, rfl⟩)
    exact not_lt.mp fun hlt => hnot (Extended.fin_lt_fin.mpr hlt)
  · intro h c hc hwall k hk hlt
    obtain ⟨t, n, htouch, rfl⟩ := (dynamicRectVsRect_cell_iff k).mp hk
    exact (Extended.fin_lt_fin.mp hlt).not_ge (h c hc t ⟨hwall, n, htouch⟩)

/-- The responses to two walls met at the same time, in either order. -/
theorem exchange_cells (he : 0 < e) (hi : (linesOf p d).Met (forward d) (lineOf p d c) t)
    (hj : (linesOf p d).Met (forward d) (lineOf p d c') t)
    (hij : ¬(linesOf p d).Crossed (forward d) (lineOf p d c) (lineOf p d c'))
    (hji : ¬(linesOf p d).Crossed (forward d) (lineOf p d c') (lineOf p d c))
    (hks : ∀ c ∈ cs, Lines.Ahead (lineOf p d c))
    (hall : ShortensAll (cellLo p) (cellHi p) cs d (v * e)) :
    (resolveDynamicRectVsRect (resolveDynamicRectVsRect (playerRect (.fin p) (.fin v)) (.fin e)
        (cellRect c)).1 (.fin e) (cellRect c')).1 =
      (resolveDynamicRectVsRect (resolveDynamicRectVsRect (playerRect (.fin p) (.fin v)) (.fin e)
        (cellRect c')).1 (.fin e) (cellRect c)).1 := by
  obtain ⟨hv, hvx, hvy⟩ := Lines.run_ahead (forward_forward d)
    (List.forall_mem_map.mpr hks) (shortensAll_lines hall)
  obtain ⟨v₁, hfirst, hs₁⟩ := resolve_cell (p := p) (v := v) (c := c) he
  obtain ⟨v₂, hsecond, hs₂⟩ := resolve_cell (p := p) (v := v₁) (c := c') he
  obtain ⟨w₁, hfirst', hs₁'⟩ := resolve_cell (p := p) (v := v) (c := c') he
  obtain ⟨w₂, hsecond', hs₂'⟩ := resolve_cell (p := p) (v := w₁) (c := c) he
  have hend := Lines.exchange (forward_forward d) hi hj hij hji hv hvx hvy (shortens_lines hs₁)
    (shortens_lines hs₂) (shortens_lines hs₁') (shortens_lines hs₂')
  have heq : v₂ = w₂ := V2d.mul_right_cancel he.ne' (turn_injective _ hend)
  rw [hfirst, hsecond, hfirst', hsecond', heq]

theorem ContactOrder.met {ks : List (VI2d × ℚ)} (hpx : 0 ≤ p.x) (hpy : 0 ≤ p.y)
    (hnone : NoneBefore world p v e)
    (h : ContactOrder world p (v * e) (surroundingCells (.fin p)) ks) (hk : (c, t) ∈ ks) :
    (world.getCell c).wall ∧
      (linesOf p (v * e)).Met (forward (v * e)) (lineOf p (v * e) c) t := by
  obtain ⟨hc, hmeets⟩ := (h.mem_iff c t).mp hk
  exact ⟨hmeets.1, hmeets.met hpx hpy hc (noneBefore_iff.mp hnone c hc t hmeets)⟩

theorem ContactOrder.ahead {ks : List (VI2d × ℚ)} (hpx : 0 ≤ p.x) (hpy : 0 ≤ p.y)
    (hnone : NoneBefore world p v e)
    (h : ContactOrder world p (v * e) (surroundingCells (.fin p)) ks) :
    ∀ c ∈ ks.map Prod.fst, Lines.Ahead (lineOf p (v * e) c) := by
  intro c hc
  obtain ⟨⟨c, t⟩, hmem, rfl⟩ := List.mem_map.mp hc
  exact (h.met hpx hpy hnone hmem).2.ahead (forward_forward _)

/-- With no two walls crossed, the walls met at the same time can be
exchanged. -/
theorem tiesExchange_of_not_crossed (hpx : 0 ≤ p.x) (hpy : 0 ≤ p.y) (he : 0 < e)
    (hnone : NoneBefore world p v e)
    (hcross : ∀ c c', (world.getCell c).wall → Lines.Ahead (lineOf p (v * e) c) →
      (world.getCell c').wall → Lines.Ahead (lineOf p (v * e) c') →
        ¬(linesOf p (v * e)).Crossed (forward (v * e)) (lineOf p (v * e) c)
          (lineOf p (v * e) c')) :
    TiesExchange world p v e := by
  intro pre x y post hsort hlt
  obtain ⟨ks, horder, hks⟩ := (sorts_iff (surroundingCells_nodup (.fin p))).mp hsort
  obtain ⟨before, rest, rfl, rfl, hrest⟩ := List.append_eq_map_iff.mp hks
  obtain ⟨⟨c, t⟩, rest', rfl, rfl, hrest'⟩ := List.map_eq_cons_iff.mp hrest
  obtain ⟨⟨c', t'⟩, after, rfl, rfl, -⟩ := List.map_eq_cons_iff.mp hrest'
  have hahead := horder.ahead hpx hpy hnone
  obtain ⟨hwall, hmet⟩ := horder.met hpx hpy hnone (c := c) (t := t) (by simp)
  obtain ⟨hwall', hmet'⟩ := horder.met hpx hpy hnone (c := c') (t := t') (by simp)
  have htie : t = t' := by
    have hle : t ≤ t' := List.rel_of_pairwise_cons (List.pairwise_append.mp horder.sorted).2.1
      List.mem_cons_self
    exact hle.antisymm (not_lt.mp fun h => hlt (Extended.fin_lt_fin.mpr h))
  have hc := hahead c (by simp)
  have hc' := hahead c' (by simp)
  rw [List.map_append] at hahead
  obtain ⟨v', hbefore, hall⟩ := resolveInOrder_fin (p := p) (v := v) he before
  have hexchange := exchange_cells he hmet (htie ▸ hmet') (hcross c c' hwall hc hwall' hc')
    (hcross c' c hwall' hc' hwall hc) (fun b hb => hahead b (List.mem_append_left _ hb)) hall
  rw [← hbefore] at hexchange
  exact hexchange

/-! The player stands on a cell. -/

theorem lineGap_eq_zero_iff {p d : ℚ} : lineGap p d = 0 ↔ (⌊p⌋ : ℚ) = p := by
  unfold lineGap
  split
  · rw [sub_eq_zero]
    exact eq_comm
  · rw [sub_eq_zero]
    constructor
    · intro h
      rw [← h, Int.floor_intCast]
    · intro h
      rw [← h, Int.ceil_intCast]

theorem lineNumber_of_onCell {p : ℚ} (h : (⌊p⌋ : ℚ) = p) (d : ℚ) (i : ℤ) :
    ⌊p⌋ + direction d * (lineNumber p d i + 1) = i := by
  have hceil : ⌈p⌉ = ⌊p⌋ := by
    rw [← h, Int.ceil_intCast, Int.floor_intCast]
  unfold direction lineNumber
  rw [hceil]
  split <;> ring

theorem lineNumber_relative {p : ℚ} (h : (⌊p⌋ : ℚ) = p) (d : ℚ) (n : ℤ) :
    lineNumber p d (⌊p⌋ + direction d * n) = n - 1 := by
  have hceil : ⌈p⌉ = ⌊p⌋ := by
    rw [← h, Int.ceil_intCast, Int.floor_intCast]
  unfold direction lineNumber
  rw [hceil]
  split <;> ring

theorem relativeCell_lineOf (hp : OnCell p) (d : V2d ℚ) (c : VI2d) :
    relativeCell p d ((lineOf p d c).x + 1) ((lineOf p d c).y + 1) = c :=
  V2d.ext (lineNumber_of_onCell hp.1 d.x c.x) (lineNumber_of_onCell hp.2 d.y c.y)

theorem lineOf_relativeCell (hp : OnCell p) (d : V2d ℚ) (i j : ℤ) :
    lineOf p d (relativeCell p d i j) = ⟨i - 1, j - 1⟩ :=
  V2d.ext (lineNumber_relative hp.1 d.x i) (lineNumber_relative hp.2 d.y j)

theorem relativeCell_mem (hpx : 0 ≤ p.x) (hpy : 0 ≤ p.y) (d : V2d ℚ) {i j : ℤ}
    (hi : -1 ≤ i ∧ i ≤ 1) (hj : -1 ≤ j ∧ j ≤ 1) (hne : i ≠ 0 ∨ j ≠ 0) :
    relativeCell p d i j ∈ surroundingCells (.fin p) := by
  have hstep : ∀ d : ℚ, direction d = -1 ∨ direction d = 1 := by
    intro d
    unfold direction
    split
    · exact Or.inl rfl
    · exact Or.inr rfl
  rw [mem_surroundingCells hpx hpy]
  simp only [relativeCell, ne_eq, V2d.mk.injEq]
  rcases hstep d.x with hx | hx <;> rcases hstep d.y with hy | hy <;> rw [hx, hy] <;> omega

/-- The walls that stop the x-axis at the start. -/
theorem stopsX_iff_of_ahead (hp : OnCell p) (hy : d.y ≠ 0)
    (hx : (lineOf p d c).x = 0) : (linesOf p d).StopsX (lineOf p d c) (forward d) ↔
      d.x ≠ 0 ∧ (c = relativeCell p d 1 0 ∨ c = relativeCell p d 1 (-1)) := by
  have hstops := Lines.stopsX_iff_of_onCell (F := linesOf p d) (lineGap_eq_zero_iff.mpr hp.1)
    (lineGap_eq_zero_iff.mpr hp.2) (forward_forward d) hx
  rw [hstops, forward_eq]
  have hne : |d.y| ≠ 0 := abs_ne_zero.mpr hy
  have hline : ∀ j, c = relativeCell p d 1 j ↔ (lineOf p d c).y = j - 1 := by
    intro j
    constructor
    · rintro rfl
      rw [lineOf_relativeCell hp]
    · intro heq
      rw [← relativeCell_lineOf hp d c, hx, heq]
      simp
  rw [hline, hline, abs_pos, and_iff_left hne]
  norm_num

theorem stopsY_iff_of_ahead (hp : OnCell p) (hx : d.x ≠ 0)
    (hy : (lineOf p d c).y = 0) : (linesOf p d).StopsY (lineOf p d c) (forward d) ↔
      d.y ≠ 0 ∧ (c = relativeCell p d 0 1 ∨ c = relativeCell p d (-1) 1) := by
  have hswap : ∀ c' : VI2d, c.swap = c'.swap ↔ c = c' := fun c' =>
    ⟨fun h => congrArg V2d.swap h, fun h => congrArg V2d.swap h⟩
  have hstops := stopsX_iff_of_ahead (p := p.swap) (d := d.swap) (c := c.swap) hp.symm hx hy
  exact hstops.trans (and_congr Iff.rfl (or_congr (hswap (relativeCell p d 0 1))
    (hswap (relativeCell p d (-1) 1))))

/-- Crossed walls are walls of `MeetsBothWays`. -/
theorem meets_of_crossed (hc : Lines.Ahead (lineOf p d c)) (hc' : Lines.Ahead (lineOf p d c'))
    (h : (linesOf p d).Crossed (forward d) (lineOf p d c) (lineOf p d c')) :
    OnCell p ∧ (d.x ≠ 0 ∧ d.y ≠ 0) ∧
      (c = relativeCell p d 1 0 ∨ c = relativeCell p d 1 (-1)) ∧
        (c' = relativeCell p d 0 1 ∨ c' = relativeCell p d (-1) 1) := by
  obtain ⟨⟨hfx, hfy⟩, hx, hy⟩ := h
  have hp : OnCell p :=
    ⟨lineGap_eq_zero_iff.mp hfx, lineGap_eq_zero_iff.mp hfy⟩
  obtain ⟨hline, hltx⟩ := hx.reaches (forward_forward d) hc
  obtain ⟨hline', hlty⟩ := hy.reaches (forward_forward d) hc'
  rw [forward_eq] at hltx hlty
  have hdx : d.x ≠ 0 := abs_pos.mp ((lineGap_bounds p.x d.x).1.trans_lt hltx)
  have hdy : d.y ≠ 0 := abs_pos.mp ((lineGap_bounds p.y d.y).1.trans_lt hlty)
  exact ⟨hp, ⟨hdx, hdy⟩, ((stopsX_iff_of_ahead hp hdy hline).mp hx).2,
    ((stopsY_iff_of_ahead hp hdx hline').mp hy).2⟩

theorem meets_of_stopsX (hwall : (world.getCell c).wall)
    (h : (linesOf p d).StopsX (lineOf p d c) (forward d)) : ∃ t, Meets world p d c t := by
  obtain ⟨t, hside⟩ := h
  rw [linesOf_lo, linesOf_hi] at hside
  exact ⟨t, hwall, _, .sideX ((sideX_turn _).mp hside)⟩

theorem meets_of_stopsY (hwall : (world.getCell c).wall)
    (h : (linesOf p d).StopsY (lineOf p d c) (forward d)) : ∃ t, Meets world p d c t := by
  obtain ⟨t, hside⟩ := h
  rw [linesOf_lo, linesOf_hi] at hside
  exact ⟨t, hwall, _, .sideY ((sideY_turn _).mp hside)⟩

section OnCell

variable {ks : List (VI2d × ℚ)} {d' : V2d ℚ} (hpx : 0 ≤ p.x) (hpy : 0 ≤ p.y)
  (hp : OnCell p) (hd : d.x ≠ 0 ∧ d.y ≠ 0)

include hpx hpy hp hd

/-- The walls beside the player ahead on the x-axis are in every order of the
contacts. -/
theorem ContactOrder.mem_column (h : ContactOrder world p d (surroundingCells (.fin p)) ks)
    (hc : c = relativeCell p d 1 0 ∨ c = relativeCell p d 1 (-1))
    (hwall : (world.getCell c).wall) :
    (linesOf p d).StopsX (lineOf p d c) (forward d) ∧ ∃ t, (c, t) ∈ ks := by
  have hline : (lineOf p d c).x = 0 := by
    rcases hc with rfl | rfl <;> rw [lineOf_relativeCell hp] <;> rfl
  have hmem : c ∈ surroundingCells (.fin p) := by
    rcases hc with rfl | rfl <;> exact relativeCell_mem hpx hpy d (by decide) (by decide) (by decide)
  have hstops := (stopsX_iff_of_ahead hp hd.2 hline).mpr ⟨hd.1, hc⟩
  obtain ⟨t, hmeets⟩ := meets_of_stopsX hwall hstops
  exact ⟨hstops, t, (h.mem_iff c t).mpr ⟨hmem, hmeets⟩⟩

theorem ContactOrder.mem_row (h : ContactOrder world p d (surroundingCells (.fin p)) ks)
    (hc : c = relativeCell p d 0 1 ∨ c = relativeCell p d (-1) 1)
    (hwall : (world.getCell c).wall) :
    (linesOf p d).StopsY (lineOf p d c) (forward d) ∧ ∃ t, (c, t) ∈ ks := by
  have hline : (lineOf p d c).y = 0 := by
    rcases hc with rfl | rfl <;> rw [lineOf_relativeCell hp] <;> rfl
  have hmem : c ∈ surroundingCells (.fin p) := by
    rcases hc with rfl | rfl <;> exact relativeCell_mem hpx hpy d (by decide) (by decide) (by decide)
  have hstops := (stopsY_iff_of_ahead hp hd.1 hline).mpr ⟨hd.2, hc⟩
  obtain ⟨t, hmeets⟩ := meets_of_stopsY hwall hstops
  exact ⟨hstops, t, (h.mem_iff c t).mpr ⟨hmem, hmeets⟩⟩

end OnCell

/-! All contacts at the start can be taken in any order. -/

section Orders

variable {ks : List (VI2d × ℚ)} {k : VI2d × ℚ} {d' d'' : V2d ℚ}

theorem ContactOrder.front {cells : List VI2d} (h : ContactOrder world p d cells ks)
    (htime : ∀ k ∈ ks, k.2 = 0) (hk : k ∈ ks) :
    ContactOrder world p d cells (k :: ks.erase k) := by
  have hperm : ks.Perm (k :: ks.erase k) := List.perm_cons_erase hk
  refine ⟨fun c t => hperm.mem_iff.symm.trans (h.mem_iff c t), hperm.nodup_iff.mp h.nodup, ?_⟩
  refine List.pairwise_of_forall_mem_list fun a ha b hb => ?_
  rw [htime a (hperm.mem_iff.mpr ha), htime b (hperm.mem_iff.mpr hb)]

theorem ContactOrder.time_eq_zero (hpx : 0 ≤ p.x) (hpy : 0 ≤ p.y)
    (hp : OnCell p) (hnone : NoneBefore world p v e)
    (h : ContactOrder world p (v * e) (surroundingCells (.fin p)) ks) : ∀ k ∈ ks, k.2 = 0 := by
  rintro ⟨c, t⟩ hk
  exact (h.met hpx hpy hnone hk).2.time_eq_zero (lineGap_eq_zero_iff.mpr hp.1)
    (lineGap_eq_zero_iff.mpr hp.2) (forward_forward _)

/-- Walls straight ahead on both axes stop the player where it is. -/
theorem end_of_straight (hpx : 0 ≤ p.x) (hpy : 0 ≤ p.y)
    (hp : OnCell p) (hd : (v * e).x ≠ 0 ∧ (v * e).y ≠ 0)
    (hnone : NoneBefore world p v e)
    (hstraight : (world.getCell (relativeCell p (v * e) 1 0)).wall ∧
      (world.getCell (relativeCell p (v * e) 0 1)).wall)
    (h : ContactOrder world p (v * e) (surroundingCells (.fin p)) ks)
    (hall : ShortensAll (cellLo p) (cellHi p) (ks.map Prod.fst) (v * e) d') :
    turn (turnedAxes (v * e)) d' = ⟨0, 0⟩ := by
  obtain ⟨-, t, hx⟩ := h.mem_column hpx hpy hp hd (Or.inl rfl) hstraight.1
  obtain ⟨-, s, hy⟩ := h.mem_row hpx hpy hp hd (Or.inl rfl) hstraight.2
  have hfx : (linesOf p (v * e)).f.x = 0 := lineGap_eq_zero_iff.mpr hp.1
  have hfy : (linesOf p (v * e)).f.y = 0 := lineGap_eq_zero_iff.mpr hp.2
  have hahead := List.forall_mem_map.mpr (h.ahead hpx hpy hnone)
  have hrun := shortensAll_lines (d := v * e) hall
  have hline : ∀ c t, (c, t) ∈ ks →
      lineOf p (v * e) c ∈ (ks.map Prod.fst).map (lineOf p (v * e)) := fun c t hk =>
    List.mem_map_of_mem (List.mem_map_of_mem hk)
  have hlx := hline _ _ hx
  have hly := hline _ _ hy
  rw [lineOf_relativeCell hp] at hlx hly
  exact V2d.ext (Lines.run_of_straight hfx hfy (forward_forward _) hahead hrun hlx)
    (Lines.run_of_straight_y hfx hfy (forward_forward _) hahead hrun hly)

theorem orderFree_of_ends (he : 0 < e)
    (h : ∀ ks ks' d' d'', ContactOrder world p (v * e) (surroundingCells (.fin p)) ks →
      ContactOrder world p (v * e) (surroundingCells (.fin p)) ks' →
      ShortensAll (cellLo p) (cellHi p) (ks.map Prod.fst) (v * e) d' →
      ShortensAll (cellLo p) (cellHi p) (ks'.map Prod.fst) (v * e) d'' → d' = d'') :
    OrderFree world p v e := by
  intro sort sort' hsort hsort'
  have hnodup := surroundingCells_nodup (.fin p)
  obtain ⟨ks, d', horder, hall, hresult⟩ := exists_order_of_sorts he hnodup hsort
  obtain ⟨ks', d'', horder', hall', hresult'⟩ := exists_order_of_sorts he hnodup hsort'
  rw [resolveCollision, resolveCollision, hresult, hresult', h ks ks' d' d'' horder horder' hall hall']

theorem OrderFree.ends (he : 0 < e) (h : OrderFree world p v e) {ks ks' : List (VI2d × ℚ)}
    (horder : ContactOrder world p (v * e) (surroundingCells (.fin p)) ks)
    (horder' : ContactOrder world p (v * e) (surroundingCells (.fin p)) ks') :
    ∃ d', ShortensAll (cellLo p) (cellHi p) (ks.map Prod.fst) (v * e) d' ∧
      ShortensAll (cellLo p) (cellHi p) (ks'.map Prod.fst) (v * e) d' := by
  have hnodup := surroundingCells_nodup (.fin p)
  obtain ⟨sort, d', hsort, hall, hresult⟩ := exists_sort_of_order he hnodup horder
  obtain ⟨sort', d'', hsort', hall', hresult'⟩ := exists_sort_of_order he hnodup horder'
  have hsame : p + d' = p + d'' :=
    V2d.fin_inj.mp (hresult.symm.trans ((h sort sort' hsort hsort').trans hresult'))
  obtain rfl := V2d.add_left_cancel hsame
  exact ⟨d', hall, hall'⟩

theorem ContactOrder.line_not_mem {cells : List VI2d} (h : ContactOrder world p d cells ks)
    (hp : OnCell p) {i j : ℤ}
    (hnot : ¬(world.getCell (relativeCell p d i j)).wall) :
    ⟨i - 1, j - 1⟩ ∉ (ks.map Prod.fst).map (lineOf p d) := by
  intro hmem
  obtain ⟨c, hc, hline⟩ := List.mem_map.mp hmem
  obtain ⟨⟨c, t⟩, hk, rfl⟩ := List.mem_map.mp hc
  have hcell : relativeCell p d i j = c := by
    rw [← relativeCell_lineOf hp d c, hline]
    simp
  rw [hcell] at hnot
  exact hnot ((h.mem_iff c t).mp hk).2.1

/-- An order that begins with a wall of the column, and one that begins with
a wall of the row. -/
theorem not_orderFree_of_meetsBothWays (hpx : 0 ≤ p.x) (hpy : 0 ≤ p.y) (he : 0 < e)
    (hnone : NoneBefore world p v e) (h : MeetsBothWays world p (v * e)) :
    ¬OrderFree world p v e := by
  intro hfree
  obtain ⟨hp, hd, hcolumn, hrow, hnot⟩ := h
  obtain ⟨ks, horder⟩ := exists_contactOrder world p (v * e) (surroundingCells_nodup (.fin p))
  obtain ⟨a, ha, hwall⟩ : ∃ a, (a = relativeCell p (v * e) 1 0 ∨ a = relativeCell p (v * e) 1 (-1)) ∧
      (world.getCell a).wall :=
    hcolumn.elim (fun h => ⟨_, Or.inl rfl, h⟩) fun h => ⟨_, Or.inr rfl, h⟩
  obtain ⟨b, hb, hwall'⟩ : ∃ b, (b = relativeCell p (v * e) 0 1 ∨ b = relativeCell p (v * e) (-1) 1) ∧
      (world.getCell b).wall :=
    hrow.elim (fun h => ⟨_, Or.inl rfl, h⟩) fun h => ⟨_, Or.inr rfl, h⟩
  obtain ⟨hstops, t, hmem⟩ := horder.mem_column hpx hpy hp hd ha hwall
  obtain ⟨hstops', s, hmem'⟩ := horder.mem_row hpx hpy hp hd hb hwall'
  have htime := horder.time_eq_zero hpx hpy hp hnone
  have hfirst := horder.front htime hmem
  have hfirst' := horder.front htime hmem'
  have hfx : (linesOf p (v * e)).f.x = 0 := lineGap_eq_zero_iff.mpr hp.1
  have hfy : (linesOf p (v * e)).f.y = 0 := lineGap_eq_zero_iff.mpr hp.2
  have hahead := List.forall_mem_map.mpr (hfirst.ahead hpx hpy hnone)
  have hahead' := List.forall_mem_map.mpr (hfirst'.ahead hpx hpy hnone)
  obtain ⟨d', hall, hall'⟩ := hfree.ends he hfirst hfirst'
  have hrun := shortensAll_lines (d := v * e) hall
  have hrun' := shortensAll_lines (d := v * e) hall'
  by_cases hx : (world.getCell (relativeCell p (v * e) 1 0)).wall
  · have hy : ¬(world.getCell (relativeCell p (v * e) 0 1)).wall := fun hy => hnot ⟨hx, hy⟩
    have hrest := hfirst.line_not_mem hp hy
    exact Lines.ends_differ_y hfx hfy (forward_forward _) hahead' hahead hstops' hstops
      (fun h => hrest (List.mem_cons_of_mem _ h)) hrun' hrun rfl
  · have hrest := hfirst'.line_not_mem hp hx
    exact Lines.ends_differ hfx hfy (forward_forward _) hahead hahead' hstops hstops'
      (fun h => hrest (List.mem_cons_of_mem _ h)) hrun hrun' rfl

/-- The other direction: what is left are walls that can be exchanged, and
walls straight ahead. -/
theorem orderFree_of_not_meetsBothWays (hpx : 0 ≤ p.x) (hpy : 0 ≤ p.y) (he : 0 < e)
    (hnone : NoneBefore world p v e) (h : ¬MeetsBothWays world p (v * e)) :
    OrderFree world p v e := by
  by_cases hcross : ∃ c c', ((world.getCell c).wall ∧ Lines.Ahead (lineOf p (v * e) c)) ∧
      ((world.getCell c').wall ∧ Lines.Ahead (lineOf p (v * e) c')) ∧
        (linesOf p (v * e)).Crossed (forward (v * e)) (lineOf p (v * e) c) (lineOf p (v * e) c')
  · obtain ⟨c, c', ⟨hwall, hc⟩, ⟨hwall', hc'⟩, hcrossed⟩ := hcross
    obtain ⟨hp, hd, hcell, hcell'⟩ := meets_of_crossed hc hc' hcrossed
    have hcolumn := hcell.imp (fun heq => heq ▸ hwall) fun heq => heq ▸ hwall
    have hrow := hcell'.imp (fun heq => heq ▸ hwall') fun heq => heq ▸ hwall'
    have hstraight : (world.getCell (relativeCell p (v * e) 1 0)).wall ∧
        (world.getCell (relativeCell p (v * e) 0 1)).wall :=
      not_not.mp fun hnot => h ⟨hp, hd, hcolumn, hrow, hnot⟩
    refine orderFree_of_ends he fun ks ks' d' d'' horder horder' hall hall' => ?_
    apply turn_injective (turnedAxes (v * e))
    rw [end_of_straight hpx hpy hp hd hnone hstraight horder hall,
      end_of_straight hpx hpy hp hd hnone hstraight horder' hall']
  · refine orderFree_of_tiesExchange (tiesExchange_of_not_crossed hpx hpy he hnone ?_)
    intro c c' hwall hc hwall' hc' hcrossed
    exact hcross ⟨c, c', ⟨hwall, hc⟩, ⟨hwall', hc'⟩, hcrossed⟩

/-! A move of less than a cell that meets a wall before the start. -/

section Short

variable {ks' : List (VI2d × ℚ)} (hx : |(v * e).x| < 1) (hy : |(v * e).y| < 1)
  (hfree : ∀ c, (world.getCell c).wall → ¬Overlaps p c)

include hx hy hfree

/-- The wall sends the player back on one axis, and the player is between
two cells there. -/
theorem before_kind (hc : c ∈ surroundingCells (.fin p)) (hmeets : Meets world p (v * e) c t)
    (ht : t < 0) :
    (lineOf p (v * e) c = ⟨-1, -2⟩ ∧ lineGap p.y (v * e).y = 0 ∧ 0 < lineGap p.x (v * e).x ∧
        SideX ((frameOf p (v * e) hx hy).lo ⟨-1, -2⟩) ((frameOf p (v * e) hx hy).hi ⟨-1, -2⟩)
          (frameOf p (v * e) hx hy).u t) ∨
      (lineOf p (v * e) c = ⟨-2, -1⟩ ∧ lineGap p.x (v * e).x = 0 ∧ 0 < lineGap p.y (v * e).y ∧
        SideY ((frameOf p (v * e) hx hy).lo ⟨-2, -1⟩) ((frameOf p (v * e) hx hy).hi ⟨-2, -1⟩)
          (frameOf p (v * e) hx hy).u t) := by
  obtain ⟨ks, horder⟩ := exists_contactOrder world p (v * e) (surroundingCells_nodup (.fin p))
  have hk := (horder.mem_iff c t).mpr ⟨hc, hmeets⟩
  have hcontacts := horder.contacts hx hy fun c _ => hfree c
  rcases hcontacts.kind (List.mem_map_of_mem hk) with ⟨-, hge⟩ | ⟨hk, hf, -, hside⟩ |
    ⟨hk, hf, -, hside⟩
  · exact absurd hge ht.not_ge
  · rw [hk] at hside
    exact Or.inl ⟨hk, hf, (MoveFrame.pos_of_back hside).1, hside⟩
  · rw [hk] at hside
    exact Or.inr ⟨hk, hf,
      (MoveFrame.pos_of_back (F := (frameOf p (v * e) hx hy).swap) hside).1, hside⟩

theorem not_meetsBothWays_of_before (hc : c ∈ surroundingCells (.fin p))
    (hmeets : Meets world p (v * e) c t) (ht : t < 0) : ¬MeetsBothWays world p (v * e) := by
  rintro ⟨⟨hpx, hpy⟩, -⟩
  rcases before_kind hx hy hfree hc hmeets ht with ⟨-, -, hpos, -⟩ | ⟨-, -, hpos, -⟩
  · exact hpos.ne' (lineGap_eq_zero_iff.mpr hpx)
  · exact hpos.ne' (lineGap_eq_zero_iff.mpr hpy)

theorem ends_of_before (hc : c ∈ surroundingCells (.fin p)) (hmeets : Meets world p (v * e) c t)
    (ht : t < 0) (h : ContactOrder world p (v * e) (surroundingCells (.fin p)) ks)
    (h' : ContactOrder world p (v * e) (surroundingCells (.fin p)) ks')
    (hall : ShortensAll (cellLo p) (cellHi p) (ks.map Prod.fst) (v * e) d')
    (hall' : ShortensAll (cellLo p) (cellHi p) (ks'.map Prod.fst) (v * e) d'') : d' = d'' := by
  apply turn_injective (turnedAxes (v * e))
  obtain ⟨hcontacts, hrun⟩ := h.run hx hy hfree hall
  obtain ⟨hcontacts', hrun'⟩ := h'.run hx hy hfree hall'
  have hmem := List.mem_map_of_mem (f := inFrame p (v * e)) ((h.mem_iff c t).mpr ⟨hc, hmeets⟩)
  have hmem' := List.mem_map_of_mem (f := inFrame p (v * e)) ((h'.mem_iff c t).mpr ⟨hc, hmeets⟩)
  have hsame : ∀ k, k ∈ (ks.map (inFrame p (v * e))).map Prod.fst ↔
      k ∈ (ks'.map (inFrame p (v * e))).map Prod.fst := by
    intro k
    simp only [List.mem_map (f := Prod.fst), Prod.exists, exists_and_right, exists_eq_right,
      hcontacts.mem_iff, hcontacts'.mem_iff]
  rcases before_kind hx hy hfree hc hmeets ht with ⟨hk, hf, -, hside⟩ | ⟨hk, hf, -, hside⟩
  · rw [inFrame, hk] at hmem hmem'
    rw [hcontacts.move_back hmem ht hf hside hrun, hcontacts'.move_back hmem' ht hf hside hrun']
    simp only [hsame]
  · rw [inFrame, hk] at hmem hmem'
    rw [hcontacts.move_back_y hmem ht hf hside hrun, hcontacts'.move_back_y hmem' ht hf hside hrun']
    simp only [hsame]

end Short

/-- Where two walls met at the same time can always be exchanged, the end of
the move does not depend on the sort. When no wall is met before the start,
or the move is of less than a cell, it does not depend on it exactly when the
player does not meet walls both ways. -/
theorem order_free_iff (hpx : 0 ≤ p.x) (hpy : 0 ≤ p.y)
    (hfree : ∀ c, (world.getCell c).wall → ¬Overlaps p c) (he : 0 < e) :
    (TiesExchange world p v e → OrderFree world p v e) ∧
      (NoneBefore world p v e ∨ (|v.x * e| < 1 ∧ |v.y * e| < 1) →
        (OrderFree world p v e ↔ ¬MeetsBothWays world p (v * e))) := by
  refine ⟨orderFree_of_tiesExchange, fun h => ?_⟩
  by_cases hnone : NoneBefore world p v e
  · constructor
    · exact fun hfree' hmeets => not_orderFree_of_meetsBothWays hpx hpy he hnone hmeets hfree'
    · exact orderFree_of_not_meetsBothWays hpx hpy he hnone
  · obtain ⟨hx, hy⟩ := h.resolve_left hnone
    simp only [noneBefore_iff, not_forall, not_le] at hnone
    obtain ⟨c, hc, t, hmeets, ht⟩ := hnone
    refine iff_of_true ?_ (not_meetsBothWays_of_before hx hy hfree hc hmeets ht)
    exact orderFree_of_ends he fun ks ks' d' d'' => ends_of_before hx hy hfree hc hmeets ht

end Orders

end Cells

/-- A world with two walls. -/
def twoWalls (a b : VI2d) : World :=
  ((World.create 3 3).modifyCell a fun c => { c with wall := true }).modifyCell b
    fun c => { c with wall := true }

theorem twoWalls_wall_iff {a b c : VI2d} (ha : (World.create 3 3).InRange a)
    (hb : (World.create 3 3).InRange b) : ((twoWalls a b).getCell c).wall ↔ c = a ∨ c = b := by
  unfold twoWalls
  by_cases h : b = c
  · subst h
    rw [World.getCell_modifyCell_self]
    exact iff_of_true rfl (Or.inr rfl)
  · rw [World.getCell_modifyCell_of_ne _ (World.inRange_modifyCell.mpr hb) h,
      World.wall_modifyCell_create_iff ha]
    exact (or_iff_left (Ne.symm h)).symm

/-- Two walls straight ahead stop the player in either order. -/
theorem order_free_iff_straight : OrderFree (twoWalls ⟨2, 1⟩ ⟨1, 2⟩) ⟨1, 1⟩ ⟨1 / 3, 1 / 2⟩ 1 := by
  have hwall : ∀ c, ((twoWalls ⟨2, 1⟩ ⟨1, 2⟩).getCell c).wall ↔ c = ⟨2, 1⟩ ∨ c = ⟨1, 2⟩ :=
    fun c => twoWalls_wall_iff (by decide) (by decide)
  refine ((order_free_iff (by decide) (by decide) ?_ (by decide)).2
    (Or.inr ⟨by norm_num [abs_lt], by norm_num [abs_lt]⟩)).mpr fun h => h.not_straight ⟨?_, ?_⟩
  · intro c hc
    rcases (hwall c).mp hc with rfl | rfl <;> norm_num [Overlaps]
  · exact (hwall _).mpr (Or.inl (by decide +kernel))
  · exact (hwall _).mpr (Or.inr (by decide +kernel))

/-- A player between two walls that it touches with its corners. -/
theorem order_matters : ¬∀ (world : World) (p v : V2d ℚ) (e : ℚ), 0 ≤ p.x → 0 ≤ p.y →
    (∀ c, (world.getCell c).wall → ¬Overlaps p c) → 0 < e → OrderFree world p v e := by
  intro hfree
  have hwall : ∀ c, ((twoWalls ⟨2, 0⟩ ⟨0, 2⟩).getCell c).wall ↔ c = ⟨2, 0⟩ ∨ c = ⟨0, 2⟩ :=
    fun c => twoWalls_wall_iff (by decide) (by decide)
  have hnone : NoneBefore (twoWalls ⟨2, 0⟩ ⟨0, 2⟩) ⟨1, 1⟩ ⟨1 / 3, 1 / 2⟩ 1 := by
    have htime : ∀ c ∈ [(⟨2, 0⟩ : VI2d), ⟨0, 2⟩],
        (contactWith ⟨1, 1⟩ ⟨1 / 3, 1 / 2⟩ 1 c).all (fun k => ¬k.time < .fin 0) := by decide +kernel
    intro c _ hc k hk
    have hall := htime c (by simpa using (hwall c).mp hc)
    rw [hk] at hall
    exact of_decide_eq_true hall
  refine not_orderFree_of_meetsBothWays (by decide) (by decide) one_pos hnone ?_
    (hfree _ _ _ _ (by decide) (by decide) ?_ one_pos)
  · refine ⟨⟨by decide +kernel, by decide +kernel⟩, by norm_num, Or.inr ?_, Or.inr ?_, fun h => ?_⟩
    · exact (hwall _).mpr (Or.inl (by decide +kernel))
    · exact (hwall _).mpr (Or.inr (by decide +kernel))
    · exact absurd ((hwall _).mp h.1) (by decide +kernel)
  · intro c hc
    rcases (hwall c).mp hc with rfl | rfl <;> norm_num [Overlaps]

end AmongUs
