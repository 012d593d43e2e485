import AmongUs.Collision.Turned

/-!
The lines of cells ahead of a motion of any length.

As in `MoveFrame` both axes are turned so that the motion does not go back
on any of them, and the lines of cells are counted in its direction from the
first one ahead. Here the motion may be longer than a cell. A wall that is
met in the move, not before its start, is of the first column or of the
first row ahead all the same (`Met.kind`), and the response to it stops one
axis there or changes nothing (`shortens_ahead`).

Two such walls that are met at the same time can be exchanged (`exchange`),
unless both axes are at their lines from the start (`Crossed`). Then the
response on one axis leaves the player touching the other wall with a corner
at most, and it matters which of the two is first (`ends_differ`). Only a
wall straight ahead stops its axis in any case (`run_of_straight`).
-/

namespace AmongUs

structure Lines where
  f : V2d ℚ
  f_x : 0 ≤ f.x ∧ f.x < 1
  f_y : 0 ≤ f.y ∧ f.y < 1

namespace Lines

variable (F : Lines)

def lo (k : VI2d) : V2d ℚ := ⟨F.f.x + k.x, F.f.y + k.y⟩

def hi (k : VI2d) : V2d ℚ := ⟨F.f.x + k.x + 2, F.f.y + k.y + 2⟩

def swap : Lines := ⟨F.f.swap, F.f_y, F.f_x⟩

/-- A displacement that does not go back on any axis. -/
def Forward (v : V2d ℚ) : Prop := 0 ≤ v.x ∧ 0 ≤ v.y

/-- A cell of the first column or row ahead, not past the corner. -/
def Ahead (k : VI2d) : Prop := (k.x = 0 ∧ k.y ≤ 0) ∨ (k.y = 0 ∧ k.x ≤ 0)

/-- The wall stops the x-axis. -/
def StopsX (k : VI2d) (v : V2d ℚ) : Prop := ∃ t, SideX (F.lo k) (F.hi k) v t

def StopsY (k : VI2d) (v : V2d ℚ) : Prop := ∃ t, SideY (F.lo k) (F.hi k) v t

variable {F} {i j k : VI2d} {u v v' a b c d : V2d ℚ} {t x y : ℚ}

theorem Forward.swap (hv : Forward v) : Forward v.swap := ⟨hv.2, hv.1⟩

theorem Ahead.swap (hk : Ahead k) : Ahead k.swap := Or.symm hk

theorem forward_line_x (F : Lines) (hy : 0 ≤ y) : Forward ⟨F.f.x, y⟩ := ⟨F.f_x.1, hy⟩

theorem forward_line_y (F : Lines) (hx : 0 ≤ x) : Forward ⟨x, F.f.y⟩ := ⟨hx, F.f_y.1⟩

theorem sideX_iff (hv : Forward v) : SideX (F.lo k) (F.hi k) v t ↔
    0 < v.x ∧ t * v.x = F.f.x + k.x ∧
      (F.f.y + k.y < t * v.y ∧ t * v.y ≤ F.f.y + k.y + 2 ∧
        (v.y = 0 → 0 < F.f.y + k.y + 2)) ∧
      0 ≤ F.f.x + k.x + 2 ∧ 0 ≤ F.f.y + k.y + 2 ∧ -1 ≤ t ∧ t < 1 :=
  sideX_iff_of_nonneg hv.1 hv.2

/-! The responses to the walls ahead. -/

theorem StopsX.reaches (hv : Forward v) (hk : Ahead k) (h : F.StopsX k v) :
    k.x = 0 ∧ F.f.x < v.x := by
  obtain ⟨t, hside⟩ := h
  obtain ⟨hpos, hmeets, ⟨henter, -, -⟩, -, -, -, hlt⟩ := (sideX_iff hv).mp hside
  obtain ⟨hfx, hfx'⟩ := F.f_x
  obtain ⟨hfy, -⟩ := F.f_y
  have hx : k.x = 0 := by
    rcases hk with ⟨hx, -⟩ | ⟨hy, hx⟩
    · exact hx
    · by_contra hne
      have hle : (k.x : ℚ) ≤ -1 := by
        have : k.x ≤ -1 := by omega
        exact_mod_cast this
      rw [hy, Int.cast_zero, add_zero] at henter
      -- a wall off the column is met before the start, and the row only after it
      have hneg : t * v.x < 0 := by linarith
      have ht : t < 0 := neg_of_mul_neg_left hneg hpos.le
      linarith [mul_nonpos_of_nonpos_of_nonneg ht.le hv.2]
  refine ⟨hx, ?_⟩
  rw [hx, Int.cast_zero, add_zero] at hmeets
  rw [← hmeets]
  exact mul_lt_of_lt_one_left hpos hlt

theorem StopsY.reaches (hv : Forward v) (hk : Ahead k) (h : F.StopsY k v) :
    k.y = 0 ∧ F.f.y < v.y :=
  StopsX.reaches (F := F.swap) (k := k.swap) hv.swap hk.swap h

theorem StopsX.not_stopsY (h : F.StopsX k v) : ¬F.StopsY k v := by
  obtain ⟨t, hx⟩ := h
  exact fun ⟨s, hy⟩ => hx.not_sideY hy

theorem shortens_ahead (hv : Forward v) (hk : Ahead k) (h : Shortens (F.lo k) (F.hi k) v v') :
    (F.StopsX k v ∧ v' = ⟨F.f.x, v.y⟩) ∨ (F.StopsY k v ∧ v' = ⟨v.x, F.f.y⟩) ∨
      ¬F.StopsX k v ∧ ¬F.StopsY k v ∧ v' = v := by
  rcases h with ⟨t, hside, rfl⟩ | ⟨t, hside, rfl⟩ | ⟨hx, hy, rfl⟩
  · have hline := (StopsX.reaches hv hk ⟨t, hside⟩).1
    refine Or.inl ⟨⟨t, hside⟩, ?_⟩
    rw [Slab.face_of_nonneg hv.1, lo, hline, Int.cast_zero, add_zero]
  · have hline := (StopsY.reaches hv hk ⟨t, hside⟩).1
    refine Or.inr (Or.inl ⟨⟨t, hside⟩, ?_⟩)
    rw [Slab.face_of_nonneg hv.2, lo, hline, Int.cast_zero, add_zero]
  · exact Or.inr (Or.inr ⟨fun ⟨t, h⟩ => hx t h, fun ⟨t, h⟩ => hy t h, rfl⟩)

theorem eq_of_stopsX (hv : Forward v) (hk : Ahead k) (h : Shortens (F.lo k) (F.hi k) v v')
    (hstops : F.StopsX k v) : v' = ⟨F.f.x, v.y⟩ := by
  rcases shortens_ahead hv hk h with ⟨-, heq⟩ | ⟨hy, -⟩ | ⟨hx, -⟩
  · exact heq
  · exact absurd hy hstops.not_stopsY
  · exact absurd hstops hx

theorem eq_of_stopsY (hv : Forward v) (hk : Ahead k) (h : Shortens (F.lo k) (F.hi k) v v')
    (hstops : F.StopsY k v) : v' = ⟨v.x, F.f.y⟩ :=
  congrArg V2d.swap
    (eq_of_stopsX (F := F.swap) (k := k.swap) hv.swap hk.swap h.swap hstops)

/-- A wall that stops nothing. -/
theorem eq_of_not_stops (h : Shortens (F.lo k) (F.hi k) v v') (hx : ¬F.StopsX k v)
    (hy : ¬F.StopsY k v) : v' = v :=
  h.eq_of_no_side (fun t hside => hx ⟨t, hside⟩) fun t hside => hy ⟨t, hside⟩

/-- Stopped at the column ahead, the motion meets no wall of it any more. -/
theorem not_stops_column (hy : 0 ≤ y) (hk : k.x = 0) (hk' : k.y ≤ 0) :
    ¬F.StopsX k ⟨F.f.x, y⟩ ∧ ¬F.StopsY k ⟨F.f.x, y⟩ := by
  have hv := forward_line_x F hy
  refine ⟨fun h => lt_irrefl _ (h.reaches hv (Or.inl ⟨hk, hk'⟩)).2, ?_⟩
  rintro ⟨t, hside⟩
  obtain ⟨-, -, ⟨henter, -, -⟩, -, -, -, hlt⟩ := (sideX_iff (F := F.swap) (k := k.swap) hv.swap).mp hside
  have henter' : F.f.x + (k.x : ℚ) < t * F.f.x := henter
  rw [hk, Int.cast_zero, add_zero] at henter'
  exact henter'.not_ge (mul_le_of_le_one_left F.f_x.1 hlt.le)

theorem not_stops_row (hx : 0 ≤ x) (hk : k.y = 0) (hk' : k.x ≤ 0) :
    ¬F.StopsX k ⟨x, F.f.y⟩ ∧ ¬F.StopsY k ⟨x, F.f.y⟩ :=
  (not_stops_column (F := F.swap) (k := k.swap) hx hk hk').symm

/-- Stopped on both axes, the motion meets no wall ahead. -/
theorem shortens_stopped (hk : Ahead k) (h : Shortens (F.lo k) (F.hi k) ⟨F.f.x, F.f.y⟩ v') :
    v' = ⟨F.f.x, F.f.y⟩ := by
  rcases hk with ⟨hx, hy⟩ | ⟨hy, hx⟩
  · obtain ⟨hnx, hny⟩ := not_stops_column F.f_y.1 hx hy
    exact eq_of_not_stops h hnx hny
  · obtain ⟨hnx, hny⟩ := not_stops_row F.f_x.1 hy hx
    exact eq_of_not_stops h hnx hny

/-- A wall of the row ahead is met as before after a stop at the column. -/
theorem StopsY.after_x (hv : Forward v) (hf : F.f.x ≠ 0) (hk : k.y = 0) (hk' : k.x < 0)
    (h : F.StopsY k v) : F.StopsY k ⟨F.f.x, v.y⟩ := by
  obtain ⟨t, hside⟩ := h
  obtain ⟨hpos, hmeets, -, hay, hax, hge, hlt⟩ :=
    (sideX_iff (F := F.swap) (k := k.swap) hv.swap).mp hside
  replace hmeets : t * v.y = F.f.y + k.y := hmeets
  replace hax : 0 ≤ F.f.x + k.x + 2 := hax
  obtain ⟨hfx, hfx'⟩ := F.f_x
  have ht : 0 ≤ t := by
    rw [hk, Int.cast_zero, add_zero] at hmeets
    exact nonneg_of_mul_nonneg_left (hmeets ▸ F.f_y.1) hpos
  have hle : (k.x : ℚ) ≤ -1 := by
    have : k.x ≤ -1 := by omega
    exact_mod_cast this
  have hge' : (-2 : ℚ) ≤ k.x := by
    have hgt : (-3 : ℚ) < k.x := by linarith
    have hgt' : (-3 : ℤ) < k.x := by exact_mod_cast hgt
    have : (-2 : ℤ) ≤ k.x := by omega
    exact_mod_cast this
  have hnonneg : 0 ≤ t * F.f.x := mul_nonneg ht hfx
  have hmul : t * F.f.x ≤ F.f.x := mul_le_of_le_one_left hfx hlt.le
  refine ⟨t, (sideX_iff (F := F.swap) (k := k.swap) (forward_line_x F hv.2).swap).mpr
    ⟨hpos, hmeets, ⟨?_, ?_, fun hzero => absurd hzero hf⟩, hay, hax, hge, hlt⟩⟩
  · show F.f.x + (k.x : ℚ) < t * F.f.x
    linarith
  · show t * F.f.x ≤ F.f.x + k.x + 2
    linarith

theorem StopsX.after_y (hv : Forward v) (hf : F.f.y ≠ 0) (hk : k.x = 0) (hk' : k.y < 0)
    (h : F.StopsX k v) : F.StopsX k ⟨v.x, F.f.y⟩ :=
  StopsY.after_x (F := F.swap) (k := k.swap) hv.swap hf hk hk' h

/-! The walls met in the move. -/

/-- A wall on the lines that are tested, met at a time of the move. -/
structure Met (F : Lines) (u : V2d ℚ) (k : VI2d) (t : ℚ) : Prop where
  lines : k.x ≤ 0 ∧ k.y ≤ 0
  nonneg : 0 ≤ t
  touches : ∃ n, Touches (F.lo k) (F.hi k) u t n

/-- The player is at the lines of both axes, and one wall stops the x-axis and
the other one the y-axis. -/
def Crossed (F : Lines) (u : V2d ℚ) (i j : VI2d) : Prop :=
  (F.f.x = 0 ∧ F.f.y = 0) ∧ F.StopsX i u ∧ F.StopsY j u

theorem Met.swap (h : F.Met u k t) : F.swap.Met u.swap k.swap t :=
  ⟨h.lines.symm, h.nonneg, h.touches.imp' V2d.swap fun _ => Touches.swap⟩

theorem Crossed.swap (h : F.Crossed u i j) : F.swap.Crossed u.swap j.swap i.swap :=
  ⟨h.1.symm, h.2.symm⟩

theorem line_eq_zero_of_nonneg {f : ℚ} {n : ℤ} (hf : f < 1) (hn : n ≤ 0) (h : 0 ≤ f + n) :
    n = 0 := by
  have hgt : (-1 : ℚ) < n := by linarith
  have hgt' : (-1 : ℤ) < n := by exact_mod_cast hgt
  omega

/-- The kinds of walls met in the move. -/
theorem Met.kind (hu : Forward u) (h : F.Met u k t) :
    (F.StopsX k u ∧ k.x = 0) ∨ (F.StopsY k u ∧ k.y = 0) ∨ k = ⟨0, 0⟩ := by
  obtain ⟨⟨hx, hy⟩, ht, n, htouch⟩ := h
  cases htouch with
  | sideX hside =>
      obtain ⟨-, hmeets, -⟩ := (sideX_iff hu).mp hside
      have hk := line_eq_zero_of_nonneg F.f_x.2 hx (hmeets ▸ mul_nonneg ht hu.1)
      exact Or.inl ⟨⟨t, hside⟩, hk⟩
  | sideY hside =>
      obtain ⟨-, hmeets, -⟩ := (sideX_iff (F := F.swap) (k := k.swap) hu.swap).mp hside
      replace hmeets : t * u.y = F.f.y + k.y := hmeets
      have hk := line_eq_zero_of_nonneg F.f_y.2 hy (hmeets ▸ mul_nonneg ht hu.2)
      exact Or.inr (Or.inl ⟨⟨t, hside⟩, hk⟩)
  | corner hcorner =>
      have hmx : t * u.x = F.f.x + k.x := by
        have hmeets := hcorner.meetsX
        rwa [Slab.gap_of_nonneg hu.1, abs_of_nonneg hu.1] at hmeets
      have hmy : t * u.y = F.f.y + k.y := by
        have hmeets := hcorner.meetsY
        rwa [Slab.gap_of_nonneg hu.2, abs_of_nonneg hu.2] at hmeets
      refine Or.inr (Or.inr (V2d.ext ?_ ?_))
      · exact line_eq_zero_of_nonneg F.f_x.2 hx (hmx ▸ mul_nonneg ht hu.1)
      · exact line_eq_zero_of_nonneg F.f_y.2 hy (hmy ▸ mul_nonneg ht hu.2)

theorem Met.ahead (hu : Forward u) (h : F.Met u k t) : Ahead k := by
  obtain ⟨hx, hy⟩ := h.lines
  rcases h.kind hu with ⟨-, hk⟩ | ⟨-, hk⟩ | rfl
  · exact Or.inl ⟨hk, hy⟩
  · exact Or.inr ⟨hk, hx⟩
  · exact Or.inl ⟨rfl, le_rfl⟩

theorem Met.column (hu : Forward u) (h : F.Met u k t) (hnot : ¬F.StopsY k u) :
    k.x = 0 ∧ k.y ≤ 0 := by
  refine ⟨?_, h.lines.2⟩
  rcases h.kind hu with ⟨-, hk⟩ | ⟨hstops, -⟩ | rfl
  · exact hk
  · exact absurd hstops hnot
  · rfl

/-! Two responses in either order. -/

/-- Two walls that lead to one state or change nothing. -/
theorem exchange_of_common {s : V2d ℚ} (ha : Shortens (F.lo i) (F.hi i) v a)
    (hb : Shortens (F.lo j) (F.hi j) a b) (hc : Shortens (F.lo j) (F.hi j) v c)
    (hd : Shortens (F.lo i) (F.hi i) c d) (has : a = v ∨ a = s) (hcs : c = v ∨ c = s)
    (hi : ∀ w, Shortens (F.lo i) (F.hi i) s w → w = s)
    (hj : ∀ w, Shortens (F.lo j) (F.hi j) s w → w = s) : b = d := by
  rcases has with rfl | rfl
  · have hbc : b = c := hb.unique hc
    rcases hcs with rfl | rfl
    · exact hbc.trans (ha.unique hd)
    · exact hbc.trans (hi d hd).symm
  · have hba : b = a := hj b hb
    rcases hcs with rfl | rfl
    · exact hba.trans (ha.unique hd)
    · exact hba.trans (hi d hd).symm

/-- Where the x-axis is stopped, only the y-axis is left to be stopped. -/
theorem exchange_stopped (hv : Forward v) (hx : v.x = F.f.x) (hi : Ahead i) (hj : Ahead j)
    (ha : Shortens (F.lo i) (F.hi i) v a) (hb : Shortens (F.lo j) (F.hi j) a b)
    (hc : Shortens (F.lo j) (F.hi j) v c) (hd : Shortens (F.lo i) (F.hi i) c d) : b = d := by
  have hone : ∀ k w, Ahead k → Shortens (F.lo k) (F.hi k) v w → w = v ∨ w = ⟨F.f.x, F.f.y⟩ := by
    intro k w hk hw
    rcases shortens_ahead hv hk hw with ⟨hstops, -⟩ | ⟨-, rfl⟩ | ⟨-, -, rfl⟩
    · exact absurd hx (hstops.reaches hv hk).2.ne'
    · exact Or.inr (by rw [hx])
    · exact Or.inl rfl
  exact exchange_of_common ha hb hc hd (hone i a hi ha) (hone j c hj hc)
    (fun w hw => shortens_stopped hi hw) fun w hw => shortens_stopped hj hw

/-- Two walls of the column ahead. -/
theorem exchange_column (hv : Forward v) (hi : i.x = 0 ∧ i.y ≤ 0) (hj : j.x = 0 ∧ j.y ≤ 0)
    (hni : ¬F.StopsY i v) (hnj : ¬F.StopsY j v) (ha : Shortens (F.lo i) (F.hi i) v a)
    (hb : Shortens (F.lo j) (F.hi j) a b) (hc : Shortens (F.lo j) (F.hi j) v c)
    (hd : Shortens (F.lo i) (F.hi i) c d) : b = d := by
  have hone : ∀ k w, k.x = 0 ∧ k.y ≤ 0 → ¬F.StopsY k v → Shortens (F.lo k) (F.hi k) v w →
      w = v ∨ w = ⟨F.f.x, v.y⟩ := by
    intro k w hk hnot hw
    rcases shortens_ahead hv (Or.inl hk) hw with ⟨-, rfl⟩ | ⟨hstops, -⟩ | ⟨-, -, rfl⟩
    · exact Or.inr rfl
    · exact absurd hstops hnot
    · exact Or.inl rfl
  have hrest : ∀ k w, k.x = 0 ∧ k.y ≤ 0 → Shortens (F.lo k) (F.hi k) ⟨F.f.x, v.y⟩ w →
      w = ⟨F.f.x, v.y⟩ := by
    intro k w hk hw
    obtain ⟨hnx, hny⟩ := not_stops_column hv.2 hk.1 hk.2
    exact eq_of_not_stops hw hnx hny
  exact exchange_of_common ha hb hc hd (hone i a hi hni ha) (hone j c hj hnj hc)
    (fun w => hrest i w hi) fun w => hrest j w hj

theorem Met.sideX (h : F.Met u k t) (hstops : F.StopsX k u) : SideX (F.lo k) (F.hi k) u t := by
  obtain ⟨-, -, n, htouch⟩ := h
  obtain ⟨s, hside⟩ := hstops
  rwa [htouch.time_eq (.sideX hside)]

/-- A wall of the column that stops the x-axis together with the row is
beside the player or behind it. -/
theorem Met.off_row (hu : Forward u) (hi : F.Met u i t) (hstops : F.StopsX i u)
    (hy : t * u.y = F.f.y) : i.y < 0 := by
  obtain ⟨-, -, ⟨henter, -, -⟩, -⟩ := (sideX_iff hu).mp (hi.sideX hstops)
  rw [hy] at henter
  have hneg : (i.y : ℚ) < 0 := by linarith
  exact_mod_cast hneg

theorem Met.time_x (hu : Forward u) (h : F.Met u k t) (hstops : F.StopsX k u) :
    t * u.x = F.f.x := by
  obtain ⟨-, hmeets, -⟩ := (sideX_iff hu).mp (h.sideX hstops)
  rwa [(hstops.reaches hu (h.ahead hu)).1, Int.cast_zero, add_zero] at hmeets

theorem Met.time_y (hu : Forward u) (h : F.Met u k t) (hstops : F.StopsY k u) :
    t * u.y = F.f.y :=
  h.swap.time_x hu.swap hstops

/-- A wall of the column and one of the row, met at the same time. -/
theorem exchange_cross (hu : Forward u) (hi : F.Met u i t) (hj : F.Met u j t)
    (hstopsx : F.StopsX i u) (hstopsy : F.StopsY j u) (hcross : ¬F.Crossed u i j)
    (ha : Shortens (F.lo i) (F.hi i) u a) (hb : Shortens (F.lo j) (F.hi j) a b)
    (hc : Shortens (F.lo j) (F.hi j) u c) (hd : Shortens (F.lo i) (F.hi i) c d) : b = d := by
  have htx := hi.time_x hu hstopsx
  have hty := hj.time_y hu hstopsy
  obtain ⟨hix, hltx⟩ := hstopsx.reaches hu (hi.ahead hu)
  obtain ⟨hjy, hlty⟩ := hstopsy.reaches hu (hj.ahead hu)
  have hposx : 0 < u.x := F.f_x.1.trans_lt hltx
  have hposy : 0 < u.y := F.f_y.1.trans_lt hlty
  -- both axes are at their lines only at the start
  have hzero : t ≠ 0 := by
    rintro rfl
    rw [zero_mul] at htx hty
    exact hcross ⟨⟨htx.symm, hty.symm⟩, hstopsx, hstopsy⟩
  have hfx : F.f.x ≠ 0 := htx ▸ mul_ne_zero hzero hposx.ne'
  have hfy : F.f.y ≠ 0 := hty ▸ mul_ne_zero hzero hposy.ne'
  have hiy : i.y < 0 := hi.off_row hu hstopsx hty
  have hjx : j.x < 0 := hj.swap.off_row hu.swap hstopsy htx
  have hjx' : F.StopsY j ⟨F.f.x, u.y⟩ := hstopsy.after_x hu hfx hjy hjx
  have hiy' : F.StopsX i ⟨u.x, F.f.y⟩ := hstopsx.after_y hu hfy hix hiy
  obtain rfl := eq_of_stopsX hu (hi.ahead hu) ha hstopsx
  obtain rfl := eq_of_stopsY hu (hj.ahead hu) hc hstopsy
  have hbe : b = ⟨F.f.x, F.f.y⟩ :=
    eq_of_stopsY (v := ⟨F.f.x, u.y⟩) (forward_line_x F hu.2) (hj.ahead hu) hb hjx'
  have hde : d = ⟨F.f.x, F.f.y⟩ :=
    eq_of_stopsX (v := ⟨u.x, F.f.y⟩) (forward_line_y F hu.1) (hi.ahead hu) hd hiy'
  exact hbe.trans hde.symm

/-- Two walls met at the same time, at any state that walls ahead lead to. -/
theorem exchange (hu : Forward u) (hi : F.Met u i t) (hj : F.Met u j t)
    (hij : ¬F.Crossed u i j) (hji : ¬F.Crossed u j i) (hv : Forward v)
    (hvx : v.x = u.x ∨ v.x = F.f.x) (hvy : v.y = u.y ∨ v.y = F.f.y)
    (ha : Shortens (F.lo i) (F.hi i) v a) (hb : Shortens (F.lo j) (F.hi j) a b)
    (hc : Shortens (F.lo j) (F.hi j) v c) (hd : Shortens (F.lo i) (F.hi i) c d) : b = d := by
  have hai := hi.ahead hu
  have haj := hj.ahead hu
  rcases hvx with hvx | hvx
  · rcases hvy with hvy | hvy
    · obtain rfl : v = u := V2d.ext hvx hvy
      by_cases hsi : F.StopsY i v
      · by_cases hsj : F.StopsX j v
        · exact (exchange_cross hu hj hi hsj hsi hji hc hd ha hb).symm
        · have hnx : ¬F.StopsX i v := fun h => h.not_stopsY hsi
          exact congrArg V2d.swap (exchange_column (F := F.swap) (i := i.swap) (j := j.swap)
            hv.swap (hi.swap.column hu.swap hnx) (hj.swap.column hu.swap hsj) hnx hsj
            ha.swap hb.swap hc.swap hd.swap)
      · by_cases hsj : F.StopsY j v
        · by_cases hsi' : F.StopsX i v
          · exact exchange_cross hu hi hj hsi' hsj hij ha hb hc hd
          · have hnx : ¬F.StopsX j v := fun h => h.not_stopsY hsj
            exact congrArg V2d.swap (exchange_column (F := F.swap) (i := i.swap) (j := j.swap)
              hv.swap (hi.swap.column hu.swap hsi') (hj.swap.column hu.swap hnx) hsi' hnx
              ha.swap hb.swap hc.swap hd.swap)
        · exact exchange_column hv (hi.column hu hsi) (hj.column hu hsj) hsi hsj ha hb hc hd
    · exact congrArg V2d.swap (exchange_stopped (F := F.swap) (i := i.swap) (j := j.swap)
        hv.swap hvy hai.swap haj.swap ha.swap hb.swap hc.swap hd.swap)
  · exact exchange_stopped hv hvx hai haj ha hb hc hd

/-! Runs along walls ahead. -/

variable {ks ks' : List VI2d}

theorem run_ahead (hu : Forward u) (hks : ∀ k ∈ ks, Ahead k)
    (h : ShortensAll F.lo F.hi ks u v) :
    Forward v ∧ (v.x = u.x ∨ v.x = F.f.x) ∧ (v.y = u.y ∨ v.y = F.f.y) := by
  induction ks generalizing u with
  | nil =>
      obtain rfl : v = u := h
      exact ⟨hu, Or.inl rfl, Or.inl rfl⟩
  | cons k ks ih =>
      obtain ⟨w, hstep, hrest⟩ := h
      have hks' : ∀ j ∈ ks, Ahead j := fun j hj => hks j (List.mem_cons_of_mem k hj)
      rcases shortens_ahead hu (hks k List.mem_cons_self) hstep with
        ⟨-, rfl⟩ | ⟨-, rfl⟩ | ⟨-, -, rfl⟩
      · obtain ⟨hv, hx, hy⟩ := ih (forward_line_x F hu.2) hks' hrest
        exact ⟨hv, Or.inr (hx.elim id id), hy⟩
      · obtain ⟨hv, hx, hy⟩ := ih (forward_line_y F hu.1) hks' hrest
        exact ⟨hv, hx, Or.inr (hy.elim id id)⟩
      · exact ih hu hks' hrest

theorem shortensAll_swap (h : ShortensAll F.lo F.hi ks v v') :
    ShortensAll F.swap.lo F.swap.hi (ks.map V2d.swap) v.swap v'.swap :=
  h.map V2d.swap V2d.swap fun _ _ _ => Shortens.swap

theorem ahead_swap_of_mem (hks : ∀ k ∈ ks, Ahead k) : ∀ k ∈ ks.map V2d.swap, Ahead k := by
  intro k hk
  obtain ⟨j, hj, rfl⟩ := List.mem_map.mp hk
  exact (hks j hj).swap

/-! The player stands on the lines of both axes. -/

section OnCell

variable (hfx : F.f.x = 0) (hfy : F.f.y = 0)

include hfx hfy

theorem stopsX_iff_of_onCell (hv : Forward v) (hk : k.x = 0) :
    F.StopsX k v ↔ 0 < v.x ∧ (k.y = -1 ∨ (k.y = -2 ∧ v.y ≠ 0)) := by
  unfold StopsX
  simp only [sideX_iff hv, hfx, hfy, hk, Int.cast_zero, add_zero, zero_add]
  constructor
  · rintro ⟨t, hpos, hmeets, ⟨henter, -, hstill⟩, -, hay, -, -⟩
    obtain rfl : t = 0 := (mul_eq_zero.mp hmeets).resolve_right hpos.ne'
    rw [zero_mul] at henter
    have hneg : k.y < 0 := by exact_mod_cast henter
    have hge : -2 ≤ k.y := by
      have : (-2 : ℚ) ≤ k.y := by linarith
      exact_mod_cast this
    refine ⟨hpos, ?_⟩
    rcases (by omega : k.y = -1 ∨ k.y = -2) with hy | hy
    · exact Or.inl hy
    · refine Or.inr ⟨hy, fun hzero => ?_⟩
      have hlt := hstill hzero
      rw [hy] at hlt
      norm_num at hlt
  · rintro ⟨hpos, hy⟩
    refine ⟨0, hpos, zero_mul _, ⟨?_, ?_, fun hzero => ?_⟩, by norm_num, ?_, by norm_num, one_pos⟩
    · rw [zero_mul]
      rcases hy with hy | ⟨hy, -⟩ <;> norm_num [hy]
    · rw [zero_mul]
      rcases hy with hy | ⟨hy, -⟩ <;> norm_num [hy]
    · rcases hy with hy | ⟨-, hne⟩
      · norm_num [hy]
      · exact absurd hzero hne
    · rcases hy with hy | ⟨hy, -⟩ <;> norm_num [hy]

/-- All walls are met at the start. -/
theorem Met.time_eq_zero (hu : Forward u) (h : F.Met u k t) : t = 0 := by
  obtain ⟨hlines, ht, n, htouch⟩ := h
  cases htouch with
  | sideX hside =>
      have hmul := Met.time_x hu ⟨hlines, ht, _, .sideX hside⟩ ⟨t, hside⟩
      exact (mul_eq_zero.mp (hmul.trans hfx)).resolve_right hside.moves
  | sideY hside =>
      have hmul := Met.time_y hu ⟨hlines, ht, _, .sideY hside⟩ ⟨t, hside⟩
      exact (mul_eq_zero.mp (hmul.trans hfy)).resolve_right hside.moves
  | corner hcorner =>
      have hmeets := hcorner.meetsX
      have hle : (k.x : ℚ) ≤ 0 := by exact_mod_cast hlines.1
      rw [Slab.gap_of_nonneg hu.1, abs_of_nonneg hu.1, lo, hfx, zero_add] at hmeets
      have hzero : t * u.x = 0 := le_antisymm (hmeets.trans_le hle) (mul_nonneg ht hu.1)
      exact (mul_eq_zero.mp hzero).resolve_right hcorner.movesX

/-- A wall straight ahead stops the x-axis in every run that meets it. -/
theorem run_of_straight (hu : Forward u) (hks : ∀ k ∈ ks, Ahead k)
    (h : ShortensAll F.lo F.hi ks u v) (hmem : ⟨0, -1⟩ ∈ ks) : v.x = 0 := by
  obtain ⟨pre, post, w, w', rfl, hpre, hstep, hpost⟩ := h.at_mem hmem
  obtain ⟨hw, -, -⟩ := run_ahead hu (fun k hk => hks k (by simp [hk])) hpre
  have hzero : w'.x = 0 := by
    rcases hw.1.lt_or_eq with hpos | hzero
    · have hstops := (stopsX_iff_of_onCell hfx hfy hw (k := ⟨0, -1⟩) rfl).mpr
        ⟨hpos, Or.inl rfl⟩
      rw [eq_of_stopsX hw (hks _ hmem) hstep hstops]
      exact hfx
    · rcases shortens_ahead hw (hks _ hmem) hstep with ⟨-, rfl⟩ | ⟨-, rfl⟩ | ⟨-, -, rfl⟩
      · exact hfx
      · exact hzero.symm
      · exact hzero.symm
  obtain ⟨hw', -, -⟩ := run_ahead hw (List.forall_mem_singleton.mpr (hks _ hmem))
    ⟨w', hstep, rfl⟩
  obtain ⟨-, hx, -⟩ := run_ahead hw' (fun k hk => hks k (by simp [hk])) hpost
  exact hx.elim (fun hx => hx.trans hzero) fun hx => hx.trans hfx

theorem run_of_straight_y (hu : Forward u) (hks : ∀ k ∈ ks, Ahead k)
    (h : ShortensAll F.lo F.hi ks u v) (hmem : ⟨-1, 0⟩ ∈ ks) : v.y = 0 :=
  run_of_straight (F := F.swap) hfy hfx hu.swap (ahead_swap_of_mem hks) (shortensAll_swap h)
    (List.mem_map_of_mem hmem)

/-- Once the y-axis is stopped, only a wall straight ahead stops the x-axis. -/
theorem run_of_stopped (hx : 0 ≤ x) (hks : ∀ k ∈ ks, Ahead k) (hnot : ⟨0, -1⟩ ∉ ks)
    (h : ShortensAll F.lo F.hi ks ⟨x, 0⟩ v) : v = ⟨x, 0⟩ := by
  induction ks with
  | nil => exact h
  | cons k ks ih =>
      obtain ⟨w, hstep, hrest⟩ := h
      obtain ⟨hne, hnot'⟩ := not_or.mp (mt List.mem_cons.mpr hnot)
      have hv : Forward ⟨x, 0⟩ := ⟨hx, le_rfl⟩
      have hk := hks k List.mem_cons_self
      have hnx : ¬F.StopsX k ⟨x, 0⟩ := by
        intro hstops
        have hkx := (hstops.reaches hv hk).1
        rcases ((stopsX_iff_of_onCell hfx hfy hv hkx).mp hstops).2 with hy | ⟨-, hzero⟩
        · exact hne (V2d.ext hkx hy).symm
        · exact hzero rfl
      have hny : ¬F.StopsY k ⟨x, 0⟩ := fun hstops =>
        lt_irrefl _ (hfy ▸ (hstops.reaches hv hk).2)
      obtain rfl := eq_of_not_stops hstep hnx hny
      exact ih (fun j hj => hks j (List.mem_cons_of_mem k hj)) hnot' hrest

/-- Without a wall straight ahead, it matters which axis is stopped first. -/
theorem ends_differ (hu : Forward u) (hks : ∀ k ∈ i :: ks, Ahead k)
    (hks' : ∀ k ∈ j :: ks', Ahead k) (hi : F.StopsX i u) (hj : F.StopsY j u)
    (hnot : ⟨0, -1⟩ ∉ ks') (h : ShortensAll F.lo F.hi (i :: ks) u v)
    (h' : ShortensAll F.lo F.hi (j :: ks') u v') : v.x ≠ v'.x := by
  obtain ⟨w, hstep, hrest⟩ := h
  obtain ⟨w', hstep', hrest'⟩ := h'
  have hki := hks i List.mem_cons_self
  have hkj := hks' j List.mem_cons_self
  obtain rfl := eq_of_stopsX hu hki hstep hi
  obtain rfl := eq_of_stopsY hu hkj hstep' hj
  obtain ⟨-, hx, -⟩ := run_ahead (forward_line_x F hu.2)
    (fun k hk => hks k (List.mem_cons_of_mem i hk)) hrest
  rw [hfy] at hrest'
  have hend := run_of_stopped hfx hfy hu.1 (fun k hk => hks' k (List.mem_cons_of_mem j hk)) hnot
    hrest'
  have hvx : v.x = 0 := hx.elim (fun hx => hx.trans hfx) fun hx => hx.trans hfx
  rw [hvx, hend]
  exact (hfx ▸ (hi.reaches hu hki).2).ne

theorem ends_differ_y (hu : Forward u) (hks : ∀ k ∈ i :: ks, Ahead k)
    (hks' : ∀ k ∈ j :: ks', Ahead k) (hi : F.StopsY i u) (hj : F.StopsX j u)
    (hnot : ⟨-1, 0⟩ ∉ ks') (h : ShortensAll F.lo F.hi (i :: ks) u v)
    (h' : ShortensAll F.lo F.hi (j :: ks') u v') : v.y ≠ v'.y := by
  refine ends_differ (F := F.swap) (i := i.swap) (j := j.swap) hfy hfx hu.swap
    (ahead_swap_of_mem hks) (ahead_swap_of_mem hks') hi hj ?_ (shortensAll_swap h)
    (shortensAll_swap h')
  intro hmem
  obtain ⟨k, hk, heq⟩ := List.mem_map.mp hmem
  obtain rfl : k = ⟨-1, 0⟩ := congrArg V2d.swap heq
  exact hnot hk

end OnCell

end Lines

end AmongUs
