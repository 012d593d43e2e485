import AmongUs.Collision.Dynamic
import Mathlib.Tactic.NormNum

/-!
A moving rectangle and one wall.

After the response the rectangle is moved by what is left of its
displacement. A wall that it enters on a side stops it there. A wall that it
enters exactly at a corner does not: the contact has no normal, nothing is
taken from the velocity, and the move ends inside unless it is long enough
to come out again (`one_wall_iff`).

A rectangle that only touches the wall and moves away should not be in
contact with it, but the window of the contact times is open to the past. It
is in contact when it was not yet past the near side of the wall one step
ago (`leaving_free_iff`).
-/

namespace AmongUs

def rectVsRect (r1 r2 : Rect) : Prop :=
  r1.pos.x < r2.pos.x + r2.size.x ∧ r2.pos.x < r1.pos.x + r1.size.x ∧
    r1.pos.y < r2.pos.y + r2.size.y ∧ r2.pos.y < r1.pos.y + r1.size.y

/-- The rectangle after a step with its velocity. -/
def Rect.moved (r : Rect) (fTimeStep : Extended ℚ) : Rect :=
  { r with pos := r.pos + r.vel * fTimeStep }

/-! The bounds of the wall, grown by the moving rectangle and seen from it. -/

def wallLo (p q p' : V2d ℚ) : V2d ℚ := p' - p - q

def wallHi (p p' q' : V2d ℚ) : V2d ℚ := p' + q' - p

/-- A displacement that ends between the bounds. -/
def Inside (lo hi d : V2d ℚ) : Prop := (lo.x < d.x ∧ d.x < hi.x) ∧ lo.y < d.y ∧ d.y < hi.y

variable {lo hi d d' p q v p' q' w : V2d ℚ} {e t : ℚ}

theorem Inside.swap (h : Inside lo hi d) : Inside lo.swap hi.swap d.swap := ⟨h.2, h.1⟩

theorem rectVsRect_fin :
    rectVsRect ⟨.fin p, .fin q, .fin v⟩ ⟨.fin p', .fin q', .fin w⟩ ↔
      Inside (wallLo p q p') (wallHi p p' q') ⟨0, 0⟩ := by
  simp only [rectVsRect, Inside, wallLo, wallHi, V2d.fin_x, V2d.fin_y, Extended.fin_add_fin,
    Extended.fin_lt_fin, V2d.sub_x, V2d.sub_y, V2d.add_x, V2d.add_y]
  constructor
  · rintro ⟨h1, h2, h3, h4⟩
    refine ⟨⟨?_, ?_⟩, ?_, ?_⟩ <;> linarith
  · rintro ⟨⟨h1, h2⟩, h3, h4⟩
    refine ⟨?_, ?_, ?_, ?_⟩ <;> linarith

theorem rectVsRect_moved :
    rectVsRect (Rect.moved ⟨.fin p, .fin q, .fin v⟩ (.fin e)) ⟨.fin p', .fin q', .fin w⟩ ↔
      Inside (wallLo p q p') (wallHi p p' q') (v * e) := by
  have hmoved : Rect.moved ⟨.fin p, .fin q, .fin v⟩ (.fin e) = ⟨.fin (p + v * e), .fin q, .fin v⟩ :=
    rfl
  rw [hmoved, rectVsRect_fin]
  simp only [Inside, wallLo, wallHi, V2d.sub_x, V2d.sub_y, V2d.add_x, V2d.add_y]
  constructor
  · rintro ⟨⟨h1, h2⟩, h3, h4⟩
    refine ⟨⟨?_, ?_⟩, ?_, ?_⟩ <;> linarith
  · rintro ⟨⟨h1, h2⟩, h3, h4⟩
    refine ⟨⟨?_, ?_⟩, ?_, ?_⟩ <;> linarith

theorem wallLo_lt_wallHi (p p' : V2d ℚ) (hq : 0 < q.x ∧ 0 < q.y) (hq' : 0 < q'.x ∧ 0 < q'.y) :
    (wallLo p q p').x < (wallHi p p' q').x ∧ (wallLo p q p').y < (wallHi p p' q').y := by
  obtain ⟨hx, hy⟩ := hq
  obtain ⟨hx', hy'⟩ := hq'
  simp only [wallLo, wallHi, V2d.sub_x, V2d.sub_y, V2d.add_x, V2d.add_y]
  constructor <;> linarith

/-! ### The wall is respected -/

/-- A side stops the rectangle at the wall. -/
theorem not_inside_face (h : Inside lo hi ⟨Slab.face lo.x hi.x d.x, d.y⟩) : False := by
  obtain ⟨⟨hlo, hhi⟩, -⟩ := h
  unfold Slab.face at hlo hhi
  split at hlo
  · exact lt_irrefl _ hlo
  · next hneg =>
      rw [if_neg hneg] at hhi
      exact lt_irrefl _ hhi

/-- A motion that starts outside on the x-axis and ends inside the wall
enters it there, unless it enters on the y-axis at the same time or later. -/
theorem enters_x (h : Inside lo hi d) (hout : 0 ≤ Slab.gap lo.x hi.x d.x) :
    ∃ t, 0 ≤ t ∧ (SideX lo hi d t ∨ SideY lo hi d t ∨ Corner lo hi d t) := by
  obtain ⟨hx, hrx⟩ := Slab.between_iff.mp h.1
  obtain ⟨hy, hry⟩ := Slab.between_iff.mp h.2
  have hposx : 0 < |d.x| := hout.trans_lt hx
  have hdx : d.x ≠ 0 := abs_pos.mp hposx
  have htx : 0 ≤ (enterTimes lo hi d).x := div_nonneg hout hposx.le
  have htx' : (enterTimes lo hi d).x < 1 := (div_lt_one hposx).mpr hx
  have hlx : 1 < (leaveTimes lo hi d).x := (one_lt_div hposx).mpr hrx
  by_cases hdy : d.y = 0
  · refine ⟨(enterTimes lo hi d).x, htx, Or.inl ⟨hdx, ?_, ?_, ?_, ?_, ?_, htx'⟩⟩
    · exact (Slab.mul_abs_eq_gap_iff hdx).mpr rfl
    · have hstill := h.2
      rw [hdy] at hstill ⊢
      exact Slab.within_zero_iff.mpr hstill
    · exact (abs_nonneg _).trans hrx.le
    · exact (abs_nonneg _).trans hry.le
    · exact neg_one_lt_zero.le.trans htx
  · have hposy : 0 < |d.y| := abs_pos.mpr hdy
    have hty' : (enterTimes lo hi d).y < 1 := (div_lt_one hposy).mpr hy
    have hly : 1 < (leaveTimes lo hi d).y := (one_lt_div hposy).mpr hry
    have hexit : 0 ≤ exit lo hi d := zero_le_one.trans (le_min hlx.le hly.le)
    rcases lt_trichotomy (enterTimes lo hi d).y (enterTimes lo hi d).x with hlt | heq | hgt
    · refine ⟨_, htx, Or.inl ((sideX_iff hdx hdy).mpr ⟨rfl, hlt, ?_, hexit, ?_, htx'⟩)⟩
      · exact htx'.le.trans hly.le
      · exact neg_one_lt_zero.le.trans htx
    · refine ⟨_, htx, Or.inr (Or.inr ((corner_iff hdx hdy).mpr ⟨rfl, heq.symm, hexit, ?_, htx'⟩))⟩
      exact neg_one_lt_zero.le.trans htx
    · have hty : 0 ≤ (enterTimes lo hi d).y := htx.trans hgt.le
      refine ⟨_, hty, Or.inr (Or.inl ((sideY_iff hdx hdy).mpr ⟨rfl, hgt, ?_, hexit, ?_, hty'⟩))⟩
      · exact hty'.le.trans hlx.le
      · exact neg_one_lt_zero.le.trans hty

/-- A motion from outside that ends inside the wall has a contact. -/
theorem exists_contact_of_inside (hfree : ¬Inside lo hi ⟨0, 0⟩) (h : Inside lo hi d) :
    ∃ t, 0 ≤ t ∧ (SideX lo hi d t ∨ SideY lo hi d t ∨ Corner lo hi d t) := by
  obtain ⟨-, hrx⟩ := Slab.between_iff.mp h.1
  obtain ⟨-, hry⟩ := Slab.between_iff.mp h.2
  rcases le_or_gt 0 (Slab.gap lo.x hi.x d.x) with hout | hin
  · exact enters_x h hout
  · rcases le_or_gt 0 (Slab.gap lo.y hi.y d.y) with hout | hin'
    · obtain ⟨t, ht, hx | hy | hcorner⟩ := enters_x h.swap hout
      · exact ⟨t, ht, Or.inr (Or.inl hx)⟩
      · exact ⟨t, ht, Or.inl hy⟩
      · exact ⟨t, ht, Or.inr (Or.inr hcorner.swap)⟩
    · refine absurd ⟨?_, ?_⟩ hfree
      · exact (Slab.zero_between_iff d.x).mpr ⟨hin, (abs_nonneg _).trans_lt hrx⟩
      · exact (Slab.zero_between_iff d.y).mpr ⟨hin', (abs_nonneg _).trans_lt hry⟩

/-- The motion enters the wall at a corner, in the step and on both axes at
the same time, and is too short to come out of it. -/
structure EntersByCorner (lo hi d : V2d ℚ) (t : ℚ) : Prop where
  movesX : d.x ≠ 0
  movesY : d.y ≠ 0
  meetsX : t * |d.x| = Slab.gap lo.x hi.x d.x
  meetsY : t * |d.y| = Slab.gap lo.y hi.y d.y
  nonneg : 0 ≤ t
  lt : t < 1
  shortX : |d.x| < Slab.rest lo.x hi.x d.x
  shortY : |d.y| < Slab.rest lo.y hi.y d.y

theorem EntersByCorner.corner (h : EntersByCorner lo hi d t) : Corner lo hi d t where
  movesX := h.movesX
  movesY := h.movesY
  meetsX := h.meetsX
  meetsY := h.meetsY
  aheadX := (abs_nonneg _).trans h.shortX.le
  aheadY := (abs_nonneg _).trans h.shortY.le
  ge := neg_one_lt_zero.le.trans h.nonneg
  lt := h.lt

theorem EntersByCorner.inside (h : EntersByCorner lo hi d t) : Inside lo hi d := by
  refine ⟨Slab.between_iff.mpr ⟨?_, h.shortX⟩, Slab.between_iff.mpr ⟨?_, h.shortY⟩⟩
  · rw [← h.meetsX]
    exact mul_lt_of_lt_one_left (abs_pos.mpr h.movesX) h.lt
  · rw [← h.meetsY]
    exact mul_lt_of_lt_one_left (abs_pos.mpr h.movesY) h.lt

theorem EntersByCorner.of_corner (h : Corner lo hi d t) (ht : 0 ≤ t) (hin : Inside lo hi d) :
    EntersByCorner lo hi d t :=
  ⟨h.movesX, h.movesY, h.meetsX, h.meetsY, ht, h.lt, (Slab.between_iff.mp hin.1).2,
    (Slab.between_iff.mp hin.2).2⟩

/-- The end of the move, after the response. -/
theorem Shortens.inside_iff (h : Shortens lo hi d d') (hfree : ¬Inside lo hi ⟨0, 0⟩) :
    Inside lo hi d' ↔ ∃ t, EntersByCorner lo hi d t := by
  constructor
  · intro hin
    rcases h with ⟨t, -, rfl⟩ | ⟨t, -, rfl⟩ | ⟨hx, hy, rfl⟩
    · exact (not_inside_face hin).elim
    · exact (not_inside_face (d := d.swap) hin.swap).elim
    · obtain ⟨t, ht, hside | hside | hcorner⟩ := exists_contact_of_inside hfree hin
      · exact absurd hside (hx t)
      · exact absurd hside (hy t)
      · exact ⟨t, .of_corner hcorner ht hin⟩
  · rintro ⟨t, hcorner⟩
    rcases h with ⟨s, hside, -⟩ | ⟨s, hside, -⟩ | ⟨-, -, rfl⟩
    · exact (hcorner.corner.not_sideX hside).elim
    · exact (hcorner.corner.not_sideY hside).elim
    · exact hcorner.inside

/-- One wall is respected, except where it is entered by a corner. -/
theorem one_wall_iff (hq : 0 < q.x ∧ 0 < q.y) (hq' : 0 < q'.x ∧ 0 < q'.y) (he : 0 < e)
    (hfree : ¬rectVsRect ⟨.fin p, .fin q, .fin v⟩ ⟨.fin p', .fin q', .fin w⟩) :
    ¬rectVsRect
        ((resolveDynamicRectVsRect ⟨.fin p, .fin q, .fin v⟩ (.fin e)
          ⟨.fin p', .fin q', .fin w⟩).1.moved (.fin e)) ⟨.fin p', .fin q', .fin w⟩ ↔
      ¬∃ t, EntersByCorner (wallLo p q p') (wallHi p p' q') (v * e) t := by
  obtain ⟨hltx, hlty⟩ := wallLo_lt_wallHi p p' hq hq'
  obtain ⟨v', hresolve, hshortens⟩ := resolve_fin (v := v) (w := w) he
    (rfl : p' - p - q = wallLo p q p') (rfl : p' + q' - p = wallHi p p' q') hltx hlty
  rw [hresolve, rectVsRect_moved]
  exact not_congr (hshortens.inside_iff (mt rectVsRect_fin.mpr hfree))

/-- A wall in the way. -/
theorem one_wall_iff_ahead :
    ¬rectVsRect
      ((resolveDynamicRectVsRect ⟨.fin ⟨0, 0⟩, .fin ⟨1, 1⟩, .fin ⟨3, 1⟩⟩ (.fin 1)
        ⟨.fin ⟨2, 0⟩, .fin ⟨1, 1⟩, .fin ⟨0, 0⟩⟩).1.moved (.fin 1))
      ⟨.fin ⟨2, 0⟩, .fin ⟨1, 1⟩, .fin ⟨0, 0⟩⟩ := by
  refine (one_wall_iff (by decide) (by decide) one_pos ?_).mpr ?_
  · rw [rectVsRect_fin]
    norm_num [Inside, wallLo, wallHi]
  · rintro ⟨t, h⟩
    have hx := h.meetsX
    have hy := h.meetsY
    norm_num [wallLo, wallHi, Slab.gap] at hx hy
    linarith [h.nonneg]

/-- A wall that is met at its corner. -/
theorem corner_not_respected :
    ¬∀ p q v p' q' w : V2d ℚ, ∀ e : ℚ, (0 < q.x ∧ 0 < q.y) → (0 < q'.x ∧ 0 < q'.y) → 0 < e →
      ¬rectVsRect ⟨.fin p, .fin q, .fin v⟩ ⟨.fin p', .fin q', .fin w⟩ →
      ¬rectVsRect
        ((resolveDynamicRectVsRect ⟨.fin p, .fin q, .fin v⟩ (.fin e)
          ⟨.fin p', .fin q', .fin w⟩).1.moved (.fin e)) ⟨.fin p', .fin q', .fin w⟩ := by
  intro hsafe
  have hfree : ¬rectVsRect ⟨.fin ⟨0, 0⟩, .fin ⟨1, 1⟩, .fin ⟨1 / 2, 1 / 2⟩⟩
      ⟨.fin ⟨1, 1⟩, .fin ⟨1, 1⟩, .fin ⟨0, 0⟩⟩ := by
    rw [rectVsRect_fin]
    norm_num [Inside, wallLo, wallHi]
  have hend := hsafe ⟨0, 0⟩ ⟨1, 1⟩ ⟨1 / 2, 1 / 2⟩ ⟨1, 1⟩ ⟨1, 1⟩ ⟨0, 0⟩ 1 (by decide) (by decide)
    one_pos hfree
  have hresolve : (resolveDynamicRectVsRect ⟨.fin ⟨0, 0⟩, .fin ⟨1, 1⟩, .fin ⟨1 / 2, 1 / 2⟩⟩
      (.fin 1) ⟨.fin ⟨1, 1⟩, .fin ⟨1, 1⟩, .fin ⟨0, 0⟩⟩).1 =
        ⟨.fin ⟨0, 0⟩, .fin ⟨1, 1⟩, .fin ⟨1 / 2, 1 / 2⟩⟩ := by decide +kernel
  rw [hresolve, rectVsRect_moved] at hend
  exact hend (by norm_num [Inside, wallLo, wallHi])

/-! ### Moving away -/

/-- The rectangle is at the wall on both axes, and was not yet past its near
side one step ago. -/
def Grazes (lo hi d : V2d ℚ) : Prop :=
  (Slab.Level lo.x hi.x d.x ∧ Slab.Level lo.y hi.y d.y) ∧
    (Slab.Recent lo.x hi.x d.x ∨ Slab.Recent lo.y hi.y d.y)

theorem grazes_swap : Grazes lo.swap hi.swap d.swap ↔ Grazes lo hi d :=
  and_congr and_comm or_comm

theorem exists_touches_swap :
    (∃ t n, Touches lo.swap hi.swap d.swap t n) ↔ ∃ t n, Touches lo hi d t n := by
  constructor
  · rintro ⟨t, n, h⟩
    exact ⟨t, n.swap, h.swap⟩
  · rintro ⟨t, n, h⟩
    exact ⟨t, n.swap, h.swap⟩

theorem sideX_iff_of_still {t : ℚ} (hx : d.x ≠ 0) (hy : d.y = 0) :
    SideX lo hi d t ↔ (lo.y < 0 ∧ 0 < hi.y) ∧ t = Slab.enter lo.x hi.x d.x ∧
      0 ≤ Slab.leave lo.x hi.x d.x ∧ -1 ≤ t ∧ t < 1 :=
  @sideY_iff_of_still lo.swap hi.swap d.swap t hy hx

/-- With no motion on the y-axis only a side of the x-axis is met. -/
theorem exists_touches_iff_of_still (hx : d.x ≠ 0) (hy : d.y = 0) (hltx : lo.x < hi.x)
    (h : Slab.Leaves lo.x hi.x d.x) : (∃ t n, Touches lo hi d t n) ↔ Grazes lo hi d := by
  have hleave : Slab.leave lo.x hi.x d.x ≤ 0 :=
    div_nonpos_of_nonpos_of_nonneg (h.rest_nonpos hx) (abs_nonneg _)
  have henter := Slab.enter_lt_leave hltx hx
  have hgap := Slab.gap_lt_rest (v := d.x) hltx
  rw [Grazes, Slab.level_of_moving hx, hy, Slab.level_zero_iff, Slab.recent_iff hx,
    ← Slab.leave_nonneg_iff hx]
  constructor
  · rintro ⟨t, n, hside | hside | hcorner⟩
    · obtain ⟨hin, rfl, hahead, hge, -⟩ := (sideX_iff_of_still hx hy).mp hside
      exact ⟨⟨⟨hgap.le.trans (h.rest_nonpos hx), hahead⟩, hin⟩, Or.inl hge⟩
    · exact absurd hy hside.moves
    · exact absurd hy hcorner.movesY
  · rintro ⟨⟨⟨-, hahead⟩, hin⟩, hrecent | hrecent⟩
    · refine ⟨_, _, .sideX ((sideX_iff_of_still hx hy).mpr ⟨hin, rfl, hahead, hrecent, ?_⟩)⟩
      exact (henter.trans_le hleave).trans one_pos
    · exact absurd rfl hrecent.1

theorem exists_touches_iff_of_moving (hx : d.x ≠ 0) (hy : d.y ≠ 0) (hltx : lo.x < hi.x)
    (hlty : lo.y < hi.y) (h : Slab.Leaves lo.x hi.x d.x) :
    (∃ t n, Touches lo hi d t n) ↔ Grazes lo hi d := by
  have hleave : (leaveTimes lo hi d).x ≤ 0 :=
    div_nonpos_of_nonpos_of_nonneg (h.rest_nonpos hx) (abs_nonneg _)
  have henter : (enterTimes lo hi d).x < (leaveTimes lo hi d).x := Slab.enter_lt_leave hltx hx
  have hgap := Slab.gap_lt_rest (v := d.x) hltx
  have hgapy : Slab.gap lo.y hi.y d.y ≤ 0 ↔ (enterTimes lo hi d).y ≤ 0 := by
    show _ ↔ Slab.gap lo.y hi.y d.y / |d.y| ≤ 0
    rw [div_le_iff₀ (abs_pos.mpr hy), zero_mul]
  have htouch : (∃ t n, Touches lo hi d t n) ↔
      entry lo hi d ≤ exit lo hi d ∧ 0 ≤ exit lo hi d ∧ -1 ≤ entry lo hi d := by
    simp only [touches_iff hx hy hltx hlty]
    constructor
    · rintro ⟨t, n, rfl, rfl, hmeet, hahead, hge, -⟩
      exact ⟨hmeet, hahead, hge⟩
    · rintro ⟨hmeet, hahead, hge⟩
      refine ⟨_, _, rfl, rfl, hmeet, hahead, hge, ?_⟩
      exact (hmeet.trans ((min_le_left _ _).trans hleave)).trans_lt one_pos
  rw [htouch, Grazes, Slab.level_of_moving hx, Slab.level_of_moving hy, Slab.recent_iff hx,
    Slab.recent_iff hy, ← Slab.leave_nonneg_iff hx, ← Slab.leave_nonneg_iff hy, hgapy]
  simp only [entry, exit, max_le_iff, le_min_iff, le_max_iff]
  constructor
  · rintro ⟨⟨⟨-, hmeet⟩, -⟩, ⟨hax, hay⟩, hge⟩
    exact ⟨⟨⟨hgap.le.trans (h.rest_nonpos hx), hax⟩, hmeet.trans hleave, hay⟩, hge⟩
  · rintro ⟨⟨⟨-, hax⟩, hey, hay⟩, hge⟩
    exact ⟨⟨⟨henter.le, hey.trans hax⟩, henter.le.trans (hleave.trans hay),
      (Slab.enter_lt_leave hlty hy).le⟩, ⟨hax, hay⟩, hge⟩

/-- The contacts of a rectangle that moves away on the x-axis. -/
theorem exists_touches_iff_grazes (hltx : lo.x < hi.x) (hlty : lo.y < hi.y)
    (h : Slab.Leaves lo.x hi.x d.x) : (∃ t n, Touches lo hi d t n) ↔ Grazes lo hi d := by
  by_cases hx : d.x = 0
  · have hout := h.not_between
    refine iff_of_false ?_ fun hgrazes => hout (hgrazes.1.1.2 hx)
    rintro ⟨t, n, hside | hside | hcorner⟩
    · exact hside.moves hx
    · have hwithin : Slab.Within lo.x hi.x d.x t := hside.within
      rw [hx, Slab.within_zero_iff] at hwithin
      exact hout hwithin
    · exact hcorner.movesX hx
  · by_cases hy : d.y = 0
    · exact exists_touches_iff_of_still hx hy hltx h
    · exact exists_touches_iff_of_moving hx hy hltx hlty h

/-- A rectangle that moves away on some axis is in contact exactly when it
grazes the wall. -/
theorem leaving_free_iff (hq : 0 < q.x ∧ 0 < q.y) (hq' : 0 < q'.x ∧ 0 < q'.y) (he : 0 < e)
    (hleaves : Slab.Leaves (wallLo p q p').x (wallHi p p' q').x v.x ∨
      Slab.Leaves (wallLo p q p').y (wallHi p p' q').y v.y) :
    (dynamicRectVsRect ⟨.fin p, .fin q, .fin v⟩ (.fin e) ⟨.fin p', .fin q', .fin w⟩ = none ∧
      resolveDynamicRectVsRect ⟨.fin p, .fin q, .fin v⟩ (.fin e) ⟨.fin p', .fin q', .fin w⟩ =
        (⟨.fin p, .fin q, .fin v⟩, false)) ↔
      ¬Grazes (wallLo p q p') (wallHi p p' q') (v * e) := by
  obtain ⟨hltx, hlty⟩ := wallLo_lt_wallHi p p' hq hq'
  have hgrazes : (∃ t n, Touches (wallLo p q p') (wallHi p p' q') (v * e) t n) ↔
      Grazes (wallLo p q p') (wallHi p p' q') (v * e) := by
    rcases hleaves with hx | hy
    · exact exists_touches_iff_grazes hltx hlty ((Slab.leaves_mul_iff he).mpr hx)
    · rw [← exists_touches_swap, ← grazes_swap]
      exact @exists_touches_iff_grazes (wallLo p q p').swap (wallHi p p' q').swap (v * e).swap
        hlty hltx ((Slab.leaves_mul_iff he).mpr hy)
  have hiff := dynamicRectVsRect_iff (w := w) (rfl : p' - p - q = wallLo p q p')
    (rfl : p' + q' - p = wallHi p p' q') (rfl : v * e = v * e) hltx hlty
  rw [← hgrazes]
  constructor
  · rintro ⟨hnone, -⟩ ⟨t, n, htouch⟩
    exact nomatch hnone.symm.trans ((hiff _).mpr ⟨t, n, htouch, rfl⟩)
  · intro hno
    have hnone : dynamicRectVsRect ⟨.fin p, .fin q, .fin v⟩ (.fin e)
        ⟨.fin p', .fin q', .fin w⟩ = none := by
      refine Option.eq_none_iff_forall_ne_some.mpr fun c hc => hno ?_
      obtain ⟨t, n, htouch, -⟩ := (hiff c).mp hc
      exact ⟨t, n, htouch⟩
    refine ⟨hnone, ?_⟩
    rw [resolveDynamicRectVsRect, hnone]

/-- Away from a wall beside which the rectangle was one step ago, too. -/
theorem leaving_free_iff_beside :
    dynamicRectVsRect ⟨.fin ⟨1, 0⟩, .fin ⟨1, 1⟩, .fin ⟨1 / 2, 1 / 2⟩⟩ (.fin 1)
      ⟨.fin ⟨0, 0⟩, .fin ⟨1, 1⟩, .fin ⟨0, 0⟩⟩ = none := by
  refine ((leaving_free_iff (by decide) (by decide) one_pos ?_).mpr ?_).1
  · left
    norm_num [wallLo, wallHi, Slab.Leaves]
  · norm_num [Grazes, Slab.Recent, Slab.gap, wallLo, wallHi]

/-- Away from a wall that the rectangle came beside within the last step:
its motion along the wall is turned back. -/
theorem leaving_in_contact :
    ¬∀ p q v p' q' w : V2d ℚ, ∀ e : ℚ, (0 < q.x ∧ 0 < q.y) → (0 < q'.x ∧ 0 < q'.y) → 0 < e →
      (Slab.Leaves (wallLo p q p').x (wallHi p p' q').x v.x ∨
        Slab.Leaves (wallLo p q p').y (wallHi p p' q').y v.y) →
      dynamicRectVsRect ⟨.fin p, .fin q, .fin v⟩ (.fin e) ⟨.fin p', .fin q', .fin w⟩ = none ∧
        resolveDynamicRectVsRect ⟨.fin p, .fin q, .fin v⟩ (.fin e) ⟨.fin p', .fin q', .fin w⟩ =
          (⟨.fin p, .fin q, .fin v⟩, false) := by
  intro hfree
  have hnone := (hfree ⟨1, -1 / 2⟩ ⟨1, 1⟩ ⟨1 / 2, 1 / 2⟩ ⟨0, 0⟩ ⟨1, 1⟩ ⟨0, 0⟩ 1 (by decide)
    (by decide) one_pos (Or.inl (by norm_num [wallLo, wallHi, Slab.Leaves]))).2
  have hback : (resolveDynamicRectVsRect ⟨.fin ⟨1, -1 / 2⟩, .fin ⟨1, 1⟩, .fin ⟨1 / 2, 1 / 2⟩⟩
      (.fin 1) ⟨.fin ⟨0, 0⟩, .fin ⟨1, 1⟩, .fin ⟨0, 0⟩⟩).1.vel = .fin ⟨1 / 2, -1 / 2⟩ := by
    decide +kernel
  rw [hnone, V2d.fin_inj] at hback
  exact absurd (congrArg V2d.y hback) (by norm_num)

end AmongUs
