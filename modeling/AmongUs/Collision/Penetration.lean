import AmongUs.Collision.MoveEnd
import AmongUs.Collision.Turned

/-!
When the player ends off all walls.

The walls among the tested cells are respected but for the corner
(`MoveFrame.Contacts.not_over`). The walls outside are not looked at. They
matter when the line of cells ahead on some axis is not among the tested
ones (`LineTested`), and then the end of the move is decided by the contacts
at the start alone (`move_of_untested`).
-/

namespace AmongUs

theorem toInt_fin {p : V2d ℚ} (hx : 0 ≤ p.x) (hy : 0 ≤ p.y) :
    (V2d.fin p).toInt = ⟨⌊p.x⌋, ⌊p.y⌋⟩ := by
  have hfloor : ∀ q : ℚ, 0 ≤ q → q.num.tdiv q.den = ⌊q⌋ := by
    intro q hq
    rw [Int.tdiv_eq_ediv_of_nonneg (Rat.num_nonneg.mpr hq), Rat.floor_def']
  exact V2d.ext (hfloor p.x hx) (hfloor p.y hy)

theorem mem_surroundingCells {p : V2d ℚ} (hx : 0 ≤ p.x) (hy : 0 ≤ p.y) {c : VI2d} :
    c ∈ surroundingCells (.fin p) ↔
      ((⌊p.x⌋ - 1 ≤ c.x ∧ c.x ≤ ⌊p.x⌋ + 1) ∧ ⌊p.y⌋ - 1 ≤ c.y ∧ c.y ≤ ⌊p.y⌋ + 1) ∧
        c ≠ ⟨⌊p.x⌋, ⌊p.y⌋⟩ := by
  rw [surroundingCells, toInt_fin hx hy]
  simp only [surroundRect, List.mem_map, List.mem_cons, List.not_mem_nil, or_false,
    or_and_right, exists_or, exists_eq_left]
  simp only [V2d.ext_iff, V2d.add_x, V2d.add_y, ne_eq]
  omega

/-- The line of cells ahead is among the tested ones. -/
def LineTested (p d : ℚ) : Prop := d < 0 ∨ lineGap p d = 0

/-- The lines level with the player are tested in any case. -/
theorem tested_of_line {p d : ℚ} {i : ℤ} (h : LineTested p d ∨ lineNumber p d i ≠ 0)
    (hline : lineNumber p d i = 0 ∨ lineNumber p d i = -1 ∨ lineNumber p d i = -2) :
    ⌊p⌋ - 1 ≤ i ∧ i ≤ ⌊p⌋ + 1 := by
  unfold lineNumber at h hline
  by_cases hd : d < 0
  · simp only [if_pos hd] at hline
    omega
  · simp only [if_neg hd] at h hline
    have hle := Int.floor_le_ceil p
    have hge := Int.ceil_le_floor_add_one p
    rcases h with h | h
    · have hgap : (⌈p⌉ : ℚ) - p = 0 := by
        have := h.resolve_left hd
        rwa [lineGap, if_neg hd] at this
      have hceil : ⌈p⌉ ≤ ⌊p⌋ := by
        rw [Int.le_floor]
        linarith
      omega
    · omega

theorem line_ne_zero {p d : ℚ} {i : ℤ} (h : ¬LineTested p d) (hi : i ≤ ⌊p⌋ + 1) :
    lineNumber p d i ≠ 0 ∧ 0 < lineGap p d := by
  obtain ⟨hd, hgap⟩ := not_or.mp h
  have hpos : 0 < lineGap p d := lt_of_le_of_ne (lineGap_bounds p d).1 (Ne.symm hgap)
  refine ⟨?_, hpos⟩
  rw [lineGap, if_neg hd] at hpos
  have hlt : ⌊p⌋ < ⌈p⌉ := by
    rw [Int.lt_ceil]
    have hle := Int.floor_le p
    refine lt_of_le_of_ne hle fun heq => ?_
    have hceil : (⌈p⌉ : ℚ) = p := by
      rw [← heq, Int.ceil_intCast]
    linarith
  rw [lineNumber, if_neg hd]
  omega

section Move

variable {world : World} {p v d d' : V2d ℚ} {e : ℚ} {c : VI2d}

/-- A wall on the lines around the player is tested, unless it is on a line
ahead that is not. -/
theorem mem_surroundingCells_of_lines (hpx : 0 ≤ p.x) (hpy : 0 ≤ p.y) (hfree : ¬Overlaps p c)
    (htx : LineTested p.x d.x ∨ (lineOf p d c).x ≠ 0)
    (hty : LineTested p.y d.y ∨ (lineOf p d c).y ≠ 0)
    (hx : (lineOf p d c).x = 0 ∨ (lineOf p d c).x = -1 ∨ (lineOf p d c).x = -2)
    (hy : (lineOf p d c).y = 0 ∨ (lineOf p d c).y = -1 ∨ (lineOf p d c).y = -2) :
    c ∈ surroundingCells (.fin p) := by
  rw [mem_surroundingCells hpx hpy]
  refine ⟨⟨tested_of_line htx hx, tested_of_line hty hy⟩, ?_⟩
  rintro rfl
  have hlx := Int.lt_floor_add_one p.x
  have hly := Int.lt_floor_add_one p.y
  have hfx := Int.floor_le p.x
  have hfy := Int.floor_le p.y
  refine hfree ⟨⟨?_, hlx⟩, ?_, hly⟩ <;> linarith

/-- With both lines ahead tested, a wall that the move ends on is tested. -/
theorem mem_surroundingCells_of_over (hpx : 0 ≤ p.x) (hpy : 0 ≤ p.y) (hx : |d.x| < 1)
    (hy : |d.y| < 1) (htx : LineTested p.x d.x) (hty : LineTested p.y d.y)
    (hfree : ¬Overlaps p c) {q : V2d ℚ}
    (hqx : lineGap p.x d.x - 1 ≤ q.x ∧ q.x < 1) (hqy : lineGap p.y d.y - 1 ≤ q.y ∧ q.y < 1)
    (hover : MoveFrame.Over (frameOf p d hx hy) (lineOf p d c) q) :
    c ∈ surroundingCells (.fin p) := by
  obtain ⟨⟨hlox, hhix⟩, hloy, hhiy⟩ := hover
  have hlinex := MoveFrame.line_of_over (lineGap_bounds p.x d.x) hqx.1 hqx.2 hlox hhix
  have hliney := MoveFrame.line_of_over (lineGap_bounds p.y d.y) hqy.1 hqy.2 hloy hhiy
  exact mem_surroundingCells_of_lines hpx hpy hfree (Or.inl htx) (Or.inl hty) hlinex hliney

/-- The player's contact with a wall at the start velocity. -/
def contactWith (p v : V2d ℚ) (e : ℚ) (c : VI2d) : Option Contact :=
  dynamicRectVsRect (playerRect (.fin p) (.fin v)) (.fin e) (cellRect c)

theorem contactWith_normal_x_iff {s : ℚ} :
    (∃ k, contactWith p v e c = some k ∧ k.normal.x ≠ .fin 0 ∧ k.time = .fin s) ↔
      SideX (cellLo p c) (cellHi p c) (v * e) s := by
  constructor
  · rintro ⟨k, hk, hne, htime⟩
    obtain ⟨t, n, htouch, rfl⟩ := (dynamicRectVsRect_cell_iff k).mp hk
    obtain rfl : t = s := Extended.fin.inj htime
    cases htouch with
    | sideX h => exact h
    | sideY h => exact absurd rfl hne
    | corner h => exact absurd rfl hne
  · intro hside
    refine ⟨_, (dynamicRectVsRect_cell_iff _).mpr ⟨s, _, .sideX hside, rfl⟩, ?_, rfl⟩
    exact fun heq => against_ne_zero _ (Extended.fin.inj heq)

theorem contactWith_swap :
    contactWith p.swap v.swap e c.swap = (contactWith p v e c).map Contact.swap :=
  dynamicRectVsRect_swap (playerRect (.fin p) (.fin v)) (.fin e) (cellRect c)

theorem contactWith_normal_y_iff {s : ℚ} :
    (∃ k, contactWith p v e c = some k ∧ k.normal.y ≠ .fin 0 ∧ k.time = .fin s) ↔
      SideY (cellLo p c) (cellHi p c) (v * e) s := by
  have hswap : (∃ k, contactWith p.swap v.swap e c.swap = some k ∧ k.normal.x ≠ .fin 0 ∧
      k.time = .fin s) ↔ SideY (cellLo p c) (cellHi p c) (v * e) s := contactWith_normal_x_iff
  rw [← hswap, contactWith_swap]
  constructor
  · rintro ⟨k, hk, hne, htime⟩
    exact ⟨k.swap, Option.map_eq_some_iff.mpr ⟨k, hk, rfl⟩, hne, htime⟩
  · rintro ⟨k', hk', hne, htime⟩
    obtain ⟨k, hk, rfl⟩ := Option.map_eq_some_iff.mp hk'
    exact ⟨k, hk, hne, htime⟩

theorem contactWith_side_iff : (∃ k, contactWith p v e c = some k ∧ k.normal ≠ .fin ⟨0, 0⟩) ↔
    ∃ t, SideX (cellLo p c) (cellHi p c) (v * e) t ∨ SideY (cellLo p c) (cellHi p c) (v * e) t := by
  constructor
  · rintro ⟨k, hk, hne⟩
    obtain ⟨t, n, htouch, rfl⟩ := (dynamicRectVsRect_cell_iff k).mp hk
    cases htouch with
    | sideX h => exact ⟨t, Or.inl h⟩
    | sideY h => exact ⟨t, Or.inr h⟩
    | corner h => exact absurd rfl hne
  · rintro ⟨t, h | h⟩
    · obtain ⟨k, hk, hne, -⟩ := contactWith_normal_x_iff.mpr h
      exact ⟨k, hk, fun heq => hne (congrArg V2d.x heq)⟩
    · obtain ⟨k, hk, hne, -⟩ := contactWith_normal_y_iff.mpr h
      exact ⟨k, hk, fun heq => hne (congrArg V2d.y heq)⟩

theorem contactWith_corner_iff : (∃ k, contactWith p v e c = some k ∧ k.normal = .fin ⟨0, 0⟩) ↔
    ∃ t, Corner (cellLo p c) (cellHi p c) (v * e) t := by
  constructor
  · rintro ⟨k, hk, heq⟩
    obtain ⟨t, n, htouch, rfl⟩ := (dynamicRectVsRect_cell_iff k).mp hk
    have hn : n = ⟨0, 0⟩ := V2d.fin_inj.mp heq
    cases htouch with
    | sideX h => exact absurd (congrArg V2d.x hn) (against_ne_zero _)
    | sideY h => exact absurd (congrArg V2d.y hn) (against_ne_zero _)
    | corner h => exact ⟨t, h⟩
  · rintro ⟨t, h⟩
    exact ⟨_, (dynamicRectVsRect_cell_iff _).mpr ⟨t, _, .corner h, rfl⟩, rfl⟩

theorem contactWith_time {k : Contact} (hk : contactWith p v e c = some k) :
    ∃ t, k.time = .fin t := by
  obtain ⟨t, n, -, rfl⟩ := (dynamicRectVsRect_cell_iff k).mp hk
  exact ⟨t, rfl⟩

/-- A factor at which the contacts with the tested walls, at the start
velocity, stop the motion along an axis; it is `1` when none has a normal
on the axis. -/
def StopsAt (world : World) (p v : V2d ℚ) (e : ℚ) (axis : VF2d → Extended ℚ) (s : ℚ) : Prop :=
  (∃ c ∈ surroundingCells (.fin p), (world.getCell c).wall ∧
    ∃ k, contactWith p v e c = some k ∧ axis k.normal ≠ .fin 0 ∧ k.time = .fin s) ∨
  s = 1 ∧ ∀ c ∈ surroundingCells (.fin p), (world.getCell c).wall →
    ∀ k, contactWith p v e c = some k → axis k.normal = .fin 0

/-- When the move ends off all walls: no corner is the only contact, and no
wall outside the tested cells lies where the contacts at the start let the
move end. -/
structure ClearMove (world : World) (p v : V2d ℚ) (e : ℚ) : Prop where
  corner : ∀ c ∈ surroundingCells (.fin p), (world.getCell c).wall →
    ∀ k, contactWith p v e c = some k → k.normal = .fin ⟨0, 0⟩ →
      ∃ c' ∈ surroundingCells (.fin p), (world.getCell c').wall ∧
        ∃ k', contactWith p v e c' = some k' ∧ k'.normal ≠ .fin ⟨0, 0⟩
  ends : ∀ sx sy, StopsAt world p v e V2d.x sx → StopsAt world p v e V2d.y sy →
    ∀ c ∉ surroundingCells (.fin p), (world.getCell c).wall →
      ¬Overlaps ⟨p.x + v.x * e * sx, p.y + v.y * e * sy⟩ c

/-- The factors of an axis, with the tested walls named by lines. -/
theorem stopsAt_iff {axis : VF2d → Extended ℚ} {line : VI2d → VI2d} {T : VI2d → Prop}
    {Side : VI2d → ℚ → Prop} {s : ℚ}
    (hT : ∀ k, T k ↔ ∃ c ∈ surroundingCells (.fin p), (world.getCell c).wall ∧ line c = k)
    (hside : ∀ c t, (∃ k, contactWith p v e c = some k ∧ axis k.normal ≠ .fin 0 ∧
      k.time = .fin t) ↔ Side (line c) t) :
    StopsAt world p v e axis s ↔
      (∃ k, T k ∧ Side k s) ∨ s = 1 ∧ ∀ k t, T k → ¬Side k t := by
  refine or_congr ⟨?_, ?_⟩ (and_congr_right fun _ => ⟨?_, ?_⟩)
  · rintro ⟨c, hc, hwall, hcontact⟩
    exact ⟨line c, (hT _).mpr ⟨c, hc, hwall, rfl⟩, (hside c s).mp hcontact⟩
  · rintro ⟨k, hk, hstops⟩
    obtain ⟨c, hc, hwall, rfl⟩ := (hT k).mp hk
    exact ⟨c, hc, hwall, (hside c s).mpr hstops⟩
  · intro hno k t hk hstops
    obtain ⟨c, hc, hwall, rfl⟩ := (hT k).mp hk
    obtain ⟨k, hk, hne, -⟩ := (hside c t).mpr hstops
    exact hne (hno c hc hwall k hk)
  · intro hno c hc hwall k hk
    by_contra hne
    obtain ⟨t, ht⟩ := contactWith_time hk
    exact hno (line c) t ((hT _).mpr ⟨c, hc, hwall, rfl⟩) ((hside c t).mp ⟨k, hk, hne, ht⟩)

theorem stopsAt_x_iff {s : ℚ} (hx : |(v * e).x| < 1) (hy : |(v * e).y| < 1) :
    StopsAt world p v e V2d.x s ↔ MoveFrame.StopX (frameOf p (v * e) hx hy)
      (wallsOf world p (v * e) (surroundingCells (.fin p))) s := by
  apply stopsAt_iff (fun k => Iff.rfl)
  exact fun c t => contactWith_normal_x_iff.trans (frame_sideX_iff hx hy).symm

theorem stopsAt_y_iff {s : ℚ} (hx : |(v * e).x| < 1) (hy : |(v * e).y| < 1) :
    StopsAt world p v e V2d.y s ↔ MoveFrame.StopY (frameOf p (v * e) hx hy)
      (wallsOf world p (v * e) (surroundingCells (.fin p))) s := by
  have hwalls (k : VI2d) : wallsOf world p (v * e) (surroundingCells (.fin p)) k.swap ↔
      ∃ c ∈ surroundingCells (.fin p), (world.getCell c).wall ∧
        (lineOf p (v * e) c).swap = k := by
    refine exists_congr fun c => and_congr_right fun _ => and_congr_right fun _ => ?_
    exact ⟨congrArg V2d.swap, congrArg V2d.swap⟩
  apply stopsAt_iff hwalls
  exact fun c t => contactWith_normal_y_iff.trans (frame_sideY_iff hx hy).symm

theorem turn_mul (d : V2d ℚ) (sx sy : ℚ) :
    turn (turnedAxes d) ⟨d.x * sx, d.y * sy⟩ = ⟨|d.x| * sx, |d.y| * sy⟩ := by
  have hmul : ∀ (s : Bool) (x y : ℚ), Slab.turn s (x * y) = Slab.turn s x * y := by
    intro s x y
    cases s with
    | false => rfl
    | true => exact neg_mul_eq_neg_mul x y
  unfold turn turnedAxes
  rw [hmul, hmul, turn_lt_zero, turn_lt_zero]

theorem walls_off_column (hpx : 0 ≤ p.x) (hpy : 0 ≤ p.y) (h : ¬LineTested p.x d.x) :
    (∀ k, wallsOf world p d (surroundingCells (.fin p)) k → k.x ≠ 0) ∧ 0 < lineGap p.x d.x := by
  refine ⟨?_, (line_ne_zero (i := ⌊p.x⌋) h (by omega)).2⟩
  rintro k ⟨c, hc, -, rfl⟩
  exact (line_ne_zero h ((mem_surroundingCells hpx hpy).mp hc).1.1.2).1

theorem walls_off_row (hpx : 0 ≤ p.x) (hpy : 0 ≤ p.y) (h : ¬LineTested p.y d.y) :
    (∀ k, wallsOf world p d (surroundingCells (.fin p)) k → k.y ≠ 0) ∧ 0 < lineGap p.y d.y := by
  refine ⟨?_, (line_ne_zero (i := ⌊p.y⌋) h (by omega)).2⟩
  rintro k ⟨c, hc, -, rfl⟩
  exact (line_ne_zero h ((mem_surroundingCells hpx hpy).mp hc).1.2.2).1

section Order

variable {ks : List (VI2d × ℚ)} (hx : |(v * e).x| < 1) (hy : |(v * e).y| < 1)

include hx hy

/-- Where the contacts at the start decide the end of the move. -/
theorem move_of_untested (hpx : 0 ≤ p.x) (hpy : 0 ≤ p.y)
    (hfree : ∀ c, (world.getCell c).wall → ¬Overlaps p c)
    (horder : ContactOrder world p (v * e) (surroundingCells (.fin p)) ks)
    (hall : ShortensAll (cellLo p) (cellHi p) (ks.map Prod.fst) (v * e) d')
    (h : ¬(LineTested p.x (v * e).x ∧ LineTested p.y (v * e).y)) {sx sy : ℚ}
    (hsx : StopsAt world p v e V2d.x sx) (hsy : StopsAt world p v e V2d.y sy) :
    turn (turnedAxes (v * e)) d' = ⟨|(v * e).x| * sx, |(v * e).y| * sy⟩ := by
  obtain ⟨hcontacts, hall'⟩ := horder.run hx hy hfree hall
  rw [stopsAt_x_iff hx hy] at hsx
  rw [stopsAt_y_iff hx hy] at hsy
  rcases not_and_or.mp h with hline | hline
  · obtain ⟨hcol, hf⟩ := walls_off_column hpx hpy hline
    exact hcontacts.move_of_column hcol hf hall' hsx hsy
  · obtain ⟨hrow, hf⟩ := walls_off_row hpx hpy hline
    exact hcontacts.move_of_row hrow hf hall' hsx hsy

/-- One order of the contacts: off the walls under the condition. -/
theorem ClearMove.not_overlaps (hclear : ClearMove world p v e) (hpx : 0 ≤ p.x) (hpy : 0 ≤ p.y)
    (hfree : ∀ c, (world.getCell c).wall → ¬Overlaps p c)
    (horder : ContactOrder world p (v * e) (surroundingCells (.fin p)) ks)
    (hall : ShortensAll (cellLo p) (cellHi p) (ks.map Prod.fst) (v * e) d')
    (hwall : (world.getCell c).wall) : ¬Overlaps (p + d') c := by
  obtain ⟨hcontacts, hall'⟩ := horder.run hx hy hfree hall
  rw [← over_frame_iff hx hy]
  by_cases hc : c ∈ surroundingCells (.fin p)
  · refine hcontacts.not_over hall' ?_ ⟨c, hc, hwall, rfl⟩
    rintro k t ⟨b, hb, hwall', rfl⟩ hcorner
    obtain ⟨contact, hcontact, hnormal⟩ :=
      contactWith_corner_iff.mpr ⟨t, (frame_corner_iff hx hy).mp hcorner⟩
    obtain ⟨c', hc', hwall'', hside⟩ := hclear.corner b hb hwall' contact hcontact hnormal
    obtain ⟨s, hs⟩ := contactWith_side_iff.mp hside
    exact ⟨_, s, ⟨c', hc', hwall'', rfl⟩,
      hs.imp (frame_sideX_iff hx hy).mpr (frame_sideY_iff hx hy).mpr⟩
  · intro hover
    by_cases hline : LineTested p.x (v * e).x ∧ LineTested p.y (v * e).y
    · obtain ⟨hbx, hby⟩ := hcontacts.bounds hall'
      exact hc (mem_surroundingCells_of_over hpx hpy hx hy hline.1 hline.2 (hfree c hwall)
        hbx hby hover)
    · obtain ⟨sx, hsx⟩ := MoveFrame.exists_stopX (frameOf p (v * e) hx hy)
        (wallsOf world p (v * e) (surroundingCells (.fin p)))
      obtain ⟨sy, hsy⟩ := MoveFrame.exists_stopX (frameOf p (v * e) hx hy).swap
        fun k => wallsOf world p (v * e) (surroundingCells (.fin p)) k.swap
      rw [← stopsAt_x_iff hx hy] at hsx
      replace hsy := (stopsAt_y_iff hx hy).mpr hsy
      rw [move_of_untested hx hy hpx hpy hfree horder hall hline hsx hsy, ← turn_mul,
        over_frame_iff hx hy] at hover
      exact hclear.ends sx sy hsx hsy c hc hwall hover

/-- One order of the contacts: off the walls only under the condition. -/
theorem clearMove_of_not_overlaps (hpx : 0 ≤ p.x) (hpy : 0 ≤ p.y)
    (hfree : ∀ c, (world.getCell c).wall → ¬Overlaps p c)
    (horder : ContactOrder world p (v * e) (surroundingCells (.fin p)) ks)
    (hall : ShortensAll (cellLo p) (cellHi p) (ks.map Prod.fst) (v * e) d')
    (hoff : ∀ c, (world.getCell c).wall → ¬Overlaps (p + d') c) : ClearMove world p v e := by
  obtain ⟨hcontacts, hall'⟩ := horder.run hx hy hfree hall
  constructor
  · intro c hc hwall k hk hnormal
    by_contra hno
    obtain ⟨t, hcorner⟩ := contactWith_corner_iff.mp ⟨k, hk, hnormal⟩
    have hstart : turn (turnedAxes (v * e)) d' = (frameOf p (v * e) hx hy).u := by
      refine hcontacts.eq_of_no_side ?_ hall'
      rintro j s ⟨b, hb, hwall', rfl⟩ hside
      refine hno ⟨b, hb, hwall', contactWith_side_iff.mpr ⟨s, ?_⟩⟩
      exact hside.imp (frame_sideX_iff hx hy).mp (frame_sideY_iff hx hy).mp
    refine hoff c hwall ((over_frame_iff hx hy).mp ?_)
    rw [hstart]
    exact MoveFrame.over_of_corner (mt (over_frame_start_iff hx hy).mp (hfree c hwall))
      ((frame_corner_iff hx hy).mpr hcorner)
  · intro sx sy hsx hsy c hc hwall hover
    have hover' : MoveFrame.Over (frameOf p (v * e) hx hy) (lineOf p (v * e) c)
        ⟨|(v * e).x| * sx, |(v * e).y| * sy⟩ := by
      rw [← turn_mul]
      exact (over_frame_iff hx hy).mpr hover
    by_cases hline : LineTested p.x (v * e).x ∧ LineTested p.y (v * e).y
    · exact hc (mem_surroundingCells_of_over hpx hpy hx hy hline.1 hline.2 (hfree c hwall)
        ((stopsAt_x_iff hx hy).mp hsx).bounds ((stopsAt_y_iff hx hy).mp hsy).bounds hover')
    · rw [← move_of_untested hx hy hpx hpy hfree horder hall hline hsx hsy] at hover'
      exact hoff c hwall ((over_frame_iff hx hy).mp hover')

end Order

/-- The player ends off all walls, whatever the sort does with contacts of
equal time, exactly when the move is clear. -/
theorem no_penetration_iff (hpx : 0 ≤ p.x) (hpy : 0 ≤ p.y)
    (hfree : ∀ c, (world.getCell c).wall → ¬Overlaps p c) (he : 0 < e) (hx : |v.x * e| < 1)
    (hy : |v.y * e| < 1) :
    (∀ sort, SortsContacts sort world (surroundingCells (.fin p)) (.fin p) (.fin v) (.fin e) →
      ∃ q, resolveCollision sort world (.fin p) (.fin v) (.fin e) = .fin q ∧
        ∀ c, (world.getCell c).wall → ¬Overlaps q c) ↔ ClearMove world p v e := by
  have hnodup := surroundingCells_nodup (.fin p)
  constructor
  · intro hsafe
    obtain ⟨ks, horder⟩ := exists_contactOrder world p (v * e) hnodup
    obtain ⟨sort, d', hsort, hall, hresult⟩ := exists_sort_of_order he hnodup horder
    obtain ⟨q, hq, hoff⟩ := hsafe sort hsort
    obtain rfl : p + d' = q := V2d.fin_inj.mp (hresult.symm.trans hq)
    exact clearMove_of_not_overlaps hx hy hpx hpy hfree horder hall hoff
  · intro hclear sort hsort
    obtain ⟨ks, d', horder, hall, hresult⟩ := exists_order_of_sorts he hnodup hsort
    exact ⟨p + d', hresult, fun c => hclear.not_overlaps hx hy hpx hpy hfree horder hall⟩

end Move

/-- A player next to the wall, moving against it. -/
theorem no_penetration_blocked :
    ∃ q, resolveCollision id wallAhead (.fin ⟨1, 0⟩) (.fin ⟨1 / 2, 0⟩) (.fin 1) = .fin q ∧
      ∀ c, (wallAhead.getCell c).wall → ¬Overlaps q c := by
  refine (no_penetration_iff (by decide) (by decide) ?_ (by decide) (by norm_num [abs_lt])
    (by norm_num)).mpr ⟨?_, ?_⟩ id ?_
  · intro c hc
    rw [wallAhead_wall_iff.mp hc]
    norm_num [Overlaps]
  · intro c _ hc k hk hnormal
    rw [wallAhead_wall_iff.mp hc] at hk
    have hside : (contactWith ⟨1, 0⟩ ⟨1 / 2, 0⟩ 1 ⟨2, 0⟩).all
        (fun k => k.normal ≠ .fin ⟨0, 0⟩) := by decide +kernel
    rw [hk] at hside
    exact absurd hnormal (of_decide_eq_true hside)
  · intro sx sy _ _ c hc hwall
    obtain rfl := wallAhead_wall_iff.mp hwall
    exact absurd (by decide +kernel) hc
  · exact sorts_self (by decide +kernel)

/-- A wall two columns ahead of a player between two cells is not tested. -/
theorem wall_penetrated : ¬∀ (world : World) (p v : V2d ℚ) (e : ℚ), 0 ≤ p.x → 0 ≤ p.y →
    (∀ c, (world.getCell c).wall → ¬Overlaps p c) → 0 < e → |v.x * e| < 1 → |v.y * e| < 1 →
    ∀ sort, SortsContacts sort world (surroundingCells (.fin p)) (.fin p) (.fin v) (.fin e) →
      ∃ q, resolveCollision sort world (.fin p) (.fin v) (.fin e) = .fin q ∧
        ∀ c, (world.getCell c).wall → ¬Overlaps q c := by
  intro hsafe
  obtain ⟨q, hq, hoff⟩ := hsafe wallAhead ⟨1 / 2, 0⟩ ⟨9 / 10, 0⟩ 1 (by norm_num) le_rfl
    (fun c hc => by rw [wallAhead_wall_iff.mp hc]; norm_num [Overlaps]) one_pos
    (by norm_num [abs_lt]) (by norm_num) id (sorts_self (by decide +kernel))
  have hend : resolveCollision id wallAhead (.fin ⟨1 / 2, 0⟩) (.fin ⟨9 / 10, 0⟩) (.fin 1) =
      .fin ⟨7 / 5, 0⟩ := by decide +kernel
  obtain rfl : (⟨7 / 5, 0⟩ : V2d ℚ) = q := V2d.fin_inj.mp (hend.symm.trans hq)
  exact hoff ⟨2, 0⟩ (wallAhead_wall_iff.mpr rfl) (by norm_num [Overlaps])

end AmongUs
