import AmongUs.Collision.RayVsRect
import Mathlib.Tactic.Ring

/-!
The test of a moving rectangle against a wall (`DynamicRectVsRect`) and the
response to a contact (`ResolveDynamicRectVsRect`).

A moving rectangle is tested as the ray of its centre against the wall
grown by its size. Seen from the moving rectangle the wall is a pair of
slabs, one for each axis, and a contact is accepted when its time is at
least `-1` and less than `1`. `Touches` says without infinities when that
is: the rectangle reaches one slab while it is already inside the other
(`SideX`, `SideY`), or both at once (`Corner`). A contact on a side stops
the motion along its axis at the wall, and a contact with a corner changes
nothing (`resolve_fin`).
-/

namespace AmongUs

/-- The wall grown by the size of the moving rectangle. -/
def expandedTarget (r_dynamic r_static : Rect) : Rect where
  pos := r_static.pos - r_dynamic.size / (.fin 2 : Extended ℚ)
  size := r_static.size + r_dynamic.size

def dynamicRectVsRect (r_dynamic : Rect) (fTimeStep : Extended ℚ) (r_static : Rect) :
    Option Contact :=
  match rayVsRect (r_dynamic.pos + r_dynamic.size / (.fin 2 : Extended ℚ))
      (r_dynamic.vel * fTimeStep) (expandedTarget r_dynamic r_static) with
  | some c => if .fin (-1) ≤ c.time ∧ c.time < .fin 1 then some c else none
  | none => none

/-- The rectangle after the response, and whether there was a contact. -/
def resolveDynamicRectVsRect (r_dynamic : Rect) (fTimeStep : Extended ℚ) (r_static : Rect) :
    Rect × Bool :=
  match dynamicRectVsRect r_dynamic fTimeStep r_static with
  | some c =>
      ({ r_dynamic with
          vel := r_dynamic.vel +
            c.normal * (⟨r_dynamic.vel.x.abs, r_dynamic.vel.y.abs⟩ : VF2d) *
              ((1 : Extended ℚ) - c.time) }, true)
  | none => (r_dynamic, false)

/-! The two axes play the same role. -/

def Rect.swap (r : Rect) : Rect := ⟨r.pos.swap, r.size.swap, r.vel.swap⟩

def Contact.swap (c : Contact) : Contact := ⟨c.point.swap, c.normal.swap, c.time⟩

theorem contactNormal_swap (tx ty : Extended ℚ) (invdir : VF2d) :
    contactNormal ty tx invdir.swap = (contactNormal tx ty invdir).swap := by
  unfold contactNormal
  rcases em (ty < tx) with hlt | hle
  · rw [if_neg (Extended.lt_asymm hlt), if_pos hlt, if_pos hlt]
    rw [apply_ite V2d.swap]
    rfl
  · rw [if_neg hle, if_neg hle, apply_ite V2d.swap, apply_ite V2d.swap]
    rfl

theorem sortDistances_ne_nan {near far : Extended ℚ} (hnear : near ≠ .nan) (hfar : far ≠ .nan) :
    (sortDistances near far).1 ≠ .nan ∧ (sortDistances near far).2 ≠ .nan := by
  unfold sortDistances
  split
  · exact ⟨hfar, hnear⟩
  · exact ⟨hnear, hfar⟩

theorem rayVsRect_swap (o d : VF2d) (target : Rect) :
    rayVsRect o.swap d.swap target.swap = (rayVsRect o d target).map Contact.swap := by
  obtain ⟨nx, hnx⟩ : ∃ nx, (target.pos.x - o.x) * (1 / d.x) = nx := ⟨_, rfl⟩
  obtain ⟨ny, hny⟩ : ∃ ny, (target.pos.y - o.y) * (1 / d.y) = ny := ⟨_, rfl⟩
  obtain ⟨fx, hfx⟩ : ∃ fx, (target.pos.x + target.size.x - o.x) * (1 / d.x) = fx := ⟨_, rfl⟩
  obtain ⟨fy, hfy⟩ : ∃ fy, (target.pos.y + target.size.y - o.y) * (1 / d.y) = fy := ⟨_, rfl⟩
  simp only [rayVsRect, Rect.swap, V2d.mul_x, V2d.mul_y, V2d.sub_x, V2d.sub_y, V2d.add_x,
    V2d.add_y, V2d.scalar_div_x, V2d.scalar_div_y, V2d.swap_x, V2d.swap_y, hnx, hny, hfx, hfy]
  by_cases hfar : fx = .nan ∨ fy = .nan
  · rw [if_pos hfar, if_pos hfar.symm, Option.map_none]
  rw [if_neg hfar, if_neg (mt Or.symm hfar)]
  by_cases hnear : nx = .nan ∨ ny = .nan
  · rw [if_pos hnear, if_pos hnear.symm, Option.map_none]
  rw [if_neg hnear, if_neg (mt Or.symm hnear)]
  obtain ⟨hx1, hx2⟩ := sortDistances_ne_nan (not_or.mp hnear).1 (not_or.mp hfar).1
  obtain ⟨hy1, hy2⟩ := sortDistances_ne_nan (not_or.mp hnear).2 (not_or.mp hfar).2
  rw [Extended.max_comm hy1 hx1, Extended.min_comm hy2 hx2, apply_ite (Option.map Contact.swap),
    apply_ite (Option.map Contact.swap)]
  refine if_congr or_comm rfl (if_congr Iff.rfl rfl ?_)
  have hnormal := contactNormal_swap (sortDistances nx fx).1 (sortDistances ny fy).1
    ((1 : Extended ℚ) / d)
  have hinv : (1 : Extended ℚ) / d.swap = ((1 : Extended ℚ) / d).swap := rfl
  rw [hinv, hnormal]
  rfl

/-- The test treats both axes alike. -/
theorem dynamicRectVsRect_swap (r : Rect) (e : Extended ℚ) (s : Rect) :
    dynamicRectVsRect r.swap e s.swap = (dynamicRectVsRect r e s).map Contact.swap := by
  have hray := rayVsRect_swap (r.pos + r.size / (.fin 2 : Extended ℚ)) (r.vel * e)
    (expandedTarget r s)
  unfold dynamicRectVsRect
  rw [show rayVsRect (r.swap.pos + r.swap.size / (.fin 2 : Extended ℚ)) (r.swap.vel * e)
    (expandedTarget r.swap s.swap) = _ from hray]
  cases rayVsRect (r.pos + r.size / (.fin 2 : Extended ℚ)) (r.vel * e) (expandedTarget r s) with
  | none => rfl
  | some c =>
      dsimp only [Option.map_some]
      rw [apply_ite (Option.map Contact.swap)]
      rfl

/-! The contacts of a displacement `d`, where `lo` and `hi` are the bounds of
the grown wall seen from the centre of the moving rectangle. -/

/-- The rectangle reaches the wall on the x-axis at time `t`. -/
structure SideX (lo hi d : V2d ℚ) (t : ℚ) : Prop where
  moves : d.x ≠ 0
  meets : t * |d.x| = Slab.gap lo.x hi.x d.x
  within : Slab.Within lo.y hi.y d.y t
  aheadX : 0 ≤ Slab.rest lo.x hi.x d.x
  aheadY : 0 ≤ Slab.rest lo.y hi.y d.y
  ge : -1 ≤ t
  lt : t < 1

def SideY (lo hi d : V2d ℚ) (t : ℚ) : Prop := SideX lo.swap hi.swap d.swap t

/-- The rectangle reaches the wall on both axes at time `t`. -/
structure Corner (lo hi d : V2d ℚ) (t : ℚ) : Prop where
  movesX : d.x ≠ 0
  movesY : d.y ≠ 0
  meetsX : t * |d.x| = Slab.gap lo.x hi.x d.x
  meetsY : t * |d.y| = Slab.gap lo.y hi.y d.y
  aheadX : 0 ≤ Slab.rest lo.x hi.x d.x
  aheadY : 0 ≤ Slab.rest lo.y hi.y d.y
  ge : -1 ≤ t
  lt : t < 1

/-- A contact at time `t` with normal `n`. -/
inductive Touches (lo hi d : V2d ℚ) (t : ℚ) : V2d ℚ → Prop where
  | sideX (h : SideX lo hi d t) : Touches lo hi d t ⟨against d.x, 0⟩
  | sideY (h : SideY lo hi d t) : Touches lo hi d t ⟨0, against d.y⟩
  | corner (h : Corner lo hi d t) : Touches lo hi d t ⟨0, 0⟩

variable {lo hi d o p s n : V2d ℚ} {t : ℚ}

theorem sideX_iff (hx : d.x ≠ 0) (hy : d.y ≠ 0) :
    SideX lo hi d t ↔ t = (enterTimes lo hi d).x ∧ (enterTimes lo hi d).y < t ∧
      t ≤ (leaveTimes lo hi d).y ∧ 0 ≤ exit lo hi d ∧ -1 ≤ t ∧ t < 1 := by
  rw [exit, le_min_iff]
  constructor
  · rintro ⟨-, hmeets, hwithin, hax, hay, hge, hlt⟩
    have htime := (Slab.within_iff hy).mp hwithin
    exact ⟨(Slab.mul_abs_eq_gap_iff hx).mp hmeets, htime.1, htime.2,
      ⟨(Slab.leave_nonneg_iff hx).mpr hax, (Slab.leave_nonneg_iff hy).mpr hay⟩, hge, hlt⟩
  · rintro ⟨htime, hlater, hleave, ⟨hax, hay⟩, hge, hlt⟩
    exact ⟨hx, (Slab.mul_abs_eq_gap_iff hx).mpr htime, (Slab.within_iff hy).mpr ⟨hlater, hleave⟩,
      (Slab.leave_nonneg_iff hx).mp hax, (Slab.leave_nonneg_iff hy).mp hay, hge, hlt⟩

theorem sideY_iff (hx : d.x ≠ 0) (hy : d.y ≠ 0) :
    SideY lo hi d t ↔ t = (enterTimes lo hi d).y ∧ (enterTimes lo hi d).x < t ∧
      t ≤ (leaveTimes lo hi d).x ∧ 0 ≤ exit lo hi d ∧ -1 ≤ t ∧ t < 1 := by
  rw [exit, min_comm]
  exact sideX_iff hy hx

theorem corner_iff (hx : d.x ≠ 0) (hy : d.y ≠ 0) :
    Corner lo hi d t ↔ t = (enterTimes lo hi d).x ∧ t = (enterTimes lo hi d).y ∧
      0 ≤ exit lo hi d ∧ -1 ≤ t ∧ t < 1 := by
  rw [exit, le_min_iff]
  constructor
  · rintro ⟨-, -, hmx, hmy, hax, hay, hge, hlt⟩
    exact ⟨(Slab.mul_abs_eq_gap_iff hx).mp hmx, (Slab.mul_abs_eq_gap_iff hy).mp hmy,
      ⟨(Slab.leave_nonneg_iff hx).mpr hax, (Slab.leave_nonneg_iff hy).mpr hay⟩, hge, hlt⟩
  · rintro ⟨htx, hty, ⟨hax, hay⟩, hge, hlt⟩
    exact ⟨hx, hy, (Slab.mul_abs_eq_gap_iff hx).mpr htx, (Slab.mul_abs_eq_gap_iff hy).mpr hty,
      (Slab.leave_nonneg_iff hx).mp hax, (Slab.leave_nonneg_iff hy).mp hay, hge, hlt⟩

/-- With motion on both axes: the contact that the ray test computes. -/
theorem touches_iff (hx : d.x ≠ 0) (hy : d.y ≠ 0) (hltx : lo.x < hi.x) (hlty : lo.y < hi.y) :
    Touches lo hi d t n ↔ t = entry lo hi d ∧
      n = normalOf (enterTimes lo hi d).x (enterTimes lo hi d).y d ∧
      entry lo hi d ≤ exit lo hi d ∧ 0 ≤ exit lo hi d ∧ -1 ≤ t ∧ t < 1 := by
  have hex := Slab.enter_lt_leave hltx hx
  have hey := Slab.enter_lt_leave hlty hy
  constructor
  · rintro (h | h | h)
    · obtain ⟨rfl, hlater, hleave, hahead, hge, hlt⟩ := (sideX_iff hx hy).mp h
      have hentry : entry lo hi d = (enterTimes lo hi d).x := max_eq_left hlater.le
      rw [hentry, normalOf, if_pos hlater]
      exact ⟨rfl, rfl, le_min hex.le hleave, hahead, hge, hlt⟩
    · obtain ⟨rfl, hlater, hleave, hahead, hge, hlt⟩ := (sideY_iff hx hy).mp h
      have hentry : entry lo hi d = (enterTimes lo hi d).y := max_eq_right hlater.le
      rw [hentry, normalOf, if_neg hlater.not_gt, if_pos hlater]
      exact ⟨rfl, rfl, le_min hleave hey.le, hahead, hge, hlt⟩
    · obtain ⟨htx, hty, hahead, hge, hlt⟩ := (corner_iff hx hy).mp h
      have hentry : entry lo hi d = t := by rw [entry, ← htx, ← hty, max_self]
      rw [hentry, normalOf_eq_zero_iff.mpr (htx.symm.trans hty)]
      refine ⟨rfl, rfl, le_min ?_ ?_, hahead, hge, hlt⟩
      · rw [htx]
        exact hex.le
      · rw [hty]
        exact hey.le
  · rintro ⟨htime, hnormal, hmeet, hahead, hge, hlt⟩
    subst htime hnormal
    unfold normalOf
    split_ifs with hxlast hylast
    · have hentry : entry lo hi d = (enterTimes lo hi d).x := max_eq_left hxlast.le
      exact .sideX ((sideX_iff hx hy).mpr ⟨hentry, by rwa [hentry],
        hmeet.trans (min_le_right _ _), hahead, hge, hlt⟩)
    · have hentry : entry lo hi d = (enterTimes lo hi d).y := max_eq_right hylast.le
      exact .sideY ((sideY_iff hx hy).mpr ⟨hentry, by rwa [hentry],
        hmeet.trans (min_le_left _ _), hahead, hge, hlt⟩)
    · have hxy := le_antisymm (not_lt.mp hxlast) (not_lt.mp hylast)
      have hentry : entry lo hi d = (enterTimes lo hi d).x := max_eq_left hxy.ge
      exact .corner ((corner_iff hx hy).mpr ⟨hentry, by rw [hentry, hxy], hahead, hge, hlt⟩)

/-- The test of the time that follows the ray test. -/
def accepted (c : Contact) : Prop := .fin (-1) ≤ c.time ∧ c.time < .fin 1

/-- The contact that the code reports for a time and a normal. -/
def contactAt (o d : V2d ℚ) (t : ℚ) (n : V2d ℚ) : Contact :=
  ⟨.fin (along o d t), .fin n, .fin t⟩

theorem rayVsRect_accepted_iff_of_ne (vel : VF2d) (hx : d.x ≠ 0) (hy : d.y ≠ 0)
    (hlo : p - o = lo) (hhi : p + s - o = hi) (hltx : lo.x < hi.x) (hlty : lo.y < hi.y)
    (c : Contact) :
    rayVsRect (.fin o) (.fin d) ⟨.fin p, .fin s, vel⟩ = some c ∧ accepted c ↔
      ∃ t n, Touches lo hi d t n ∧ c = contactAt o d t n := by
  rw [rayVsRect_eq vel hx hy hlo hhi hltx hlty]
  constructor
  · rintro ⟨hsome, hacc⟩
    obtain ⟨hmeet, hc⟩ := Option.ite_none_right_eq_some.mp hsome
    obtain rfl := Option.some.inj hc
    exact ⟨_, _, (touches_iff hx hy hltx hlty).mpr ⟨rfl, rfl, hmeet.1, hmeet.2,
      Extended.fin_le_fin.mp hacc.1, Extended.fin_lt_fin.mp hacc.2⟩, rfl⟩
  · rintro ⟨t, n, htouch, rfl⟩
    obtain ⟨rfl, rfl, hmeet, hahead, hge, hlt⟩ := (touches_iff hx hy hltx hlty).mp htouch
    exact ⟨if_pos ⟨hmeet, hahead⟩, Extended.fin_le_fin.mpr hge, Extended.fin_lt_fin.mpr hlt⟩

/-- Without motion on the x-axis only a side of the y-axis can be met, and
only by a rectangle that is inside the slab of the x-axis. -/
theorem sideY_iff_of_still (hx : d.x = 0) (hy : d.y ≠ 0) :
    SideY lo hi d t ↔ (lo.x < 0 ∧ 0 < hi.x) ∧ t = Slab.enter lo.y hi.y d.y ∧
      0 ≤ Slab.leave lo.y hi.y d.y ∧ -1 ≤ t ∧ t < 1 := by
  rw [Slab.leave_nonneg_iff hy, ← Slab.mul_abs_eq_gap_iff hy]
  constructor
  · rintro ⟨-, hmeets, hwithin, hahead, -, hge, hlt⟩
    rw [V2d.swap_y, V2d.swap_y, V2d.swap_y, hx, Slab.within_zero_iff] at hwithin
    exact ⟨hwithin, hmeets, hahead, hge, hlt⟩
  · rintro ⟨hin, hmeets, hahead, hge, hlt⟩
    refine ⟨hy, hmeets, ?_, hahead, ?_, hge, hlt⟩
    · rw [V2d.swap_y, V2d.swap_y, V2d.swap_y, hx]
      exact Slab.within_zero_iff.mpr hin
    · rw [V2d.swap_y, V2d.swap_y, V2d.swap_y, hx, Slab.rest_of_nonneg le_rfl]
      exact hin.2.le

theorem contactNormal_of_still (hy : d.y ≠ 0) (ty : ℚ) :
    contactNormal .negInf (.fin ty) ((1 : Extended ℚ) / V2d.fin d) =
      .fin ⟨0, against d.y⟩ := by
  have hinv : ((1 : Extended ℚ) / V2d.fin d).y < .fin 0 ↔ d.y < 0 := by
    simp [Extended.one_def, Extended.fin_div_fin _ hy]
  simp only [contactNormal, against, hinv, Extended.not_lt_negInf, Extended.negInf_lt_fin,
    if_false, if_true]
  split_ifs <;> rfl

theorem rayVsRect_of_still_inside (vel : VF2d) (hx : d.x = 0) (hy : d.y ≠ 0)
    (hlo : p - o = lo) (hhi : p + s - o = hi) (hin : lo.x < 0 ∧ 0 < hi.x) (hlty : lo.y < hi.y) :
    rayVsRect (.fin o) (.fin d) ⟨.fin p, .fin s, vel⟩ =
      if 0 ≤ Slab.leave lo.y hi.y d.y then
        some (contactAt o d (Slab.enter lo.y hi.y d.y) ⟨0, against d.y⟩)
      else none := by
  have hsort : sortDistances .negInf .posInf = (.negInf, .posInf) := rfl
  rw [rayVsRect_fin o d p s vel hlo hhi, hx, crossing_zero, crossing_zero,
    Extended.infOf_of_neg hin.1, Extended.infOf_of_pos hin.2,
    if_neg (by simp [crossing_ne_nan, hy]), if_neg (by simp [crossing_ne_nan, hy]),
    sortDistances_crossing hlty hy, hsort]
  simp only [Extended.not_lt_negInf, Extended.not_posInf_lt, or_self, if_false,
    Extended.max_negInf_fin, Extended.min_posInf_fin, Extended.fin_lt_fin,
    contactNormal_of_still hy]
  rw [← ite_not]
  exact if_congr not_lt rfl rfl

theorem rayVsRect_of_still_outside (vel : VF2d) (hx : d.x = 0) (hy : d.y ≠ 0)
    (hlo : p - o = lo) (hhi : p + s - o = hi) (hltx : lo.x < hi.x) (hlty : lo.y < hi.y)
    (hout : ¬(lo.x < 0 ∧ 0 < hi.x)) :
    rayVsRect (.fin o) (.fin d) ⟨.fin p, .fin s, vel⟩ = none := by
  rw [rayVsRect_fin o d p s vel hlo hhi, hx, crossing_zero, crossing_zero,
    sortDistances_crossing hlty hy]
  rcases lt_trichotomy lo.x 0 with hlo' | hlo' | hlo'
  · rcases (not_lt.mp fun hhi' => hout ⟨hlo', hhi'⟩).lt_or_eq with hhi' | hhi'
    · simp [Extended.infOf_of_neg hlo', Extended.infOf_of_neg hhi', sortDistances]
    · simp [hhi']
  · simp [hlo']
  · simp [Extended.infOf_of_pos hlo', Extended.infOf_of_pos (hlo'.trans hltx), sortDistances]

theorem rayVsRect_accepted_iff_of_still (vel : VF2d) (hx : d.x = 0) (hy : d.y ≠ 0)
    (hlo : p - o = lo) (hhi : p + s - o = hi) (hltx : lo.x < hi.x) (hlty : lo.y < hi.y)
    (c : Contact) :
    rayVsRect (.fin o) (.fin d) ⟨.fin p, .fin s, vel⟩ = some c ∧ accepted c ↔
      ∃ t n, Touches lo hi d t n ∧ c = contactAt o d t n := by
  by_cases hin : lo.x < 0 ∧ 0 < hi.x
  · rw [rayVsRect_of_still_inside vel hx hy hlo hhi hin hlty]
    constructor
    · rintro ⟨hsome, hacc⟩
      obtain ⟨hleave, hc⟩ := Option.ite_none_right_eq_some.mp hsome
      obtain rfl := Option.some.inj hc
      exact ⟨_, _, .sideY ((sideY_iff_of_still hx hy).mpr ⟨hin, rfl, hleave,
        Extended.fin_le_fin.mp hacc.1, Extended.fin_lt_fin.mp hacc.2⟩), rfl⟩
    · rintro ⟨t, n, h | h | h, rfl⟩
      · exact absurd hx h.moves
      · obtain ⟨-, rfl, hleave, hge, hlt⟩ := (sideY_iff_of_still hx hy).mp h
        exact ⟨if_pos hleave, Extended.fin_le_fin.mpr hge, Extended.fin_lt_fin.mpr hlt⟩
      · exact absurd hx h.movesX
  · rw [rayVsRect_of_still_outside vel hx hy hlo hhi hltx hlty hin]
    refine iff_of_false (fun h => nomatch h.1) ?_
    rintro ⟨t, n, h | h | h, rfl⟩
    · exact h.moves hx
    · exact hin ((sideY_iff_of_still hx hy).mp h).1
    · exact h.movesX hx

theorem Corner.swap (h : Corner lo hi d t) : Corner lo.swap hi.swap d.swap t :=
  ⟨h.movesY, h.movesX, h.meetsY, h.meetsX, h.aheadY, h.aheadX, h.ge, h.lt⟩

theorem Touches.swap (h : Touches lo hi d t n) : Touches lo.swap hi.swap d.swap t n.swap := by
  cases h with
  | sideX h => exact .sideY h
  | sideY h => exact .sideX h
  | corner h => exact .corner h.swap

theorem rayVsRect_accepted_iff_of_y_still (vel : V2d ℚ) (hx : d.x ≠ 0) (hy : d.y = 0)
    (hlo : p - o = lo) (hhi : p + s - o = hi) (hltx : lo.x < hi.x) (hlty : lo.y < hi.y)
    (c : Contact) :
    rayVsRect (.fin o) (.fin d) ⟨.fin p, .fin s, .fin vel⟩ = some c ∧ accepted c ↔
      ∃ t n, Touches lo hi d t n ∧ c = contactAt o d t n := by
  have hswap : rayVsRect (.fin o.swap) (.fin d.swap) ⟨.fin p.swap, .fin s.swap, .fin vel.swap⟩ =
      (rayVsRect (.fin o) (.fin d) ⟨.fin p, .fin s, .fin vel⟩).map Contact.swap :=
    rayVsRect_swap (.fin o) (.fin d) ⟨.fin p, .fin s, .fin vel⟩
  have hlo' : p.swap - o.swap = lo.swap := by rw [← hlo]; rfl
  have hhi' : p.swap + s.swap - o.swap = hi.swap := by rw [← hhi]; rfl
  have hstill := rayVsRect_accepted_iff_of_still (d := d.swap) (.fin vel.swap) hy hx hlo' hhi'
    hlty hltx c.swap
  have hsome : (rayVsRect (.fin o) (.fin d) ⟨.fin p, .fin s, .fin vel⟩).map Contact.swap =
      some c.swap ↔ rayVsRect (.fin o) (.fin d) ⟨.fin p, .fin s, .fin vel⟩ = some c := by
    rw [← Option.map_some]
    exact (Option.map_injective fun c c' h =>
      (congrArg Contact.swap h : c.swap.swap = c'.swap.swap)).eq_iff
  rw [hswap, hsome] at hstill
  refine hstill.trans ⟨?_, ?_⟩
  · rintro ⟨t, n, htouch, hc⟩
    exact ⟨t, n.swap, htouch.swap, congrArg Contact.swap hc⟩
  · rintro ⟨t, n, htouch, hc⟩
    exact ⟨t, n.swap, htouch.swap, congrArg Contact.swap hc⟩

theorem accepted.finite {c : Contact} (h : accepted c) : ∃ t, c.time = .fin t := by
  obtain ⟨hge, hlt⟩ := h
  cases htime : c.time with
  | fin t => exact ⟨t, rfl⟩
  | posInf => simp [htime] at hlt
  | negInf => simp [htime, LE.le] at hge
  | nan => simp [htime] at hlt

/-- A rectangle that does not move has no contact: all times are infinite. -/
theorem rayVsRect_not_accepted (vel : VF2d) (hx : d.x = 0) (hy : d.y = 0) (hlo : p - o = lo)
    (hhi : p + s - o = hi) (c : Contact) :
    ¬(rayVsRect (.fin o) (.fin d) ⟨.fin p, .fin s, vel⟩ = some c ∧ accepted c) := by
  rintro ⟨hsome, hacc⟩
  obtain ⟨t, ht⟩ := hacc.finite
  have hsort : ∀ a b : ℚ, ∃ x, (sortDistances (.infOf a) (.infOf b)).1 = .infOf x := by
    intro a b
    unfold sortDistances
    split
    · exact ⟨b, rfl⟩
    · exact ⟨a, rfl⟩
  obtain ⟨x, hsx⟩ := hsort lo.x hi.x
  obtain ⟨y, hsy⟩ := hsort lo.y hi.y
  rw [rayVsRect_fin o d p s vel hlo hhi, hx, hy] at hsome
  simp only [crossing_zero, hsx, hsy] at hsome
  split_ifs at hsome
  have htime : max (.infOf x) (.infOf y) = c.time := by rw [← Option.some.inj hsome]
  rw [ht, Extended.max_def] at htime
  split at htime
  · exact Extended.infOf_ne_fin y t htime
  · exact Extended.infOf_ne_fin x t htime

/-- The contacts that `DynamicRectVsRect` accepts are those of `Touches`. -/
theorem rayVsRect_accepted_iff (vel : V2d ℚ) (hlo : p - o = lo) (hhi : p + s - o = hi)
    (hltx : lo.x < hi.x) (hlty : lo.y < hi.y) (c : Contact) :
    rayVsRect (.fin o) (.fin d) ⟨.fin p, .fin s, .fin vel⟩ = some c ∧ accepted c ↔
      ∃ t n, Touches lo hi d t n ∧ c = contactAt o d t n := by
  by_cases hx : d.x = 0
  · by_cases hy : d.y = 0
    · apply iff_of_false (rayVsRect_not_accepted _ hx hy hlo hhi c)
      rintro ⟨t, n, h | h | h, rfl⟩
      · exact h.moves hx
      · exact h.moves hy
      · exact h.movesX hx
    · exact rayVsRect_accepted_iff_of_still _ hx hy hlo hhi hltx hlty c
  · by_cases hy : d.y = 0
    · exact rayVsRect_accepted_iff_of_y_still vel hx hy hlo hhi hltx hlty c
    · exact rayVsRect_accepted_iff_of_ne _ hx hy hlo hhi hltx hlty c

/-- A motion that does not go back on any axis. -/
theorem sideX_iff_of_nonneg (hx : 0 ≤ d.x) (hy : 0 ≤ d.y) : SideX lo hi d t ↔
    0 < d.x ∧ t * d.x = lo.x ∧ (lo.y < t * d.y ∧ t * d.y ≤ hi.y ∧ (d.y = 0 → 0 < hi.y)) ∧
      0 ≤ hi.x ∧ 0 ≤ hi.y ∧ -1 ≤ t ∧ t < 1 := by
  constructor
  · rintro ⟨hmoves, hmeets, hwithin, hax, hay, hge, hlt⟩
    rw [Slab.gap_of_nonneg hx, abs_of_nonneg hx] at hmeets
    rw [Slab.Within, Slab.gap_of_nonneg hy, Slab.rest_of_nonneg hy, abs_of_nonneg hy] at hwithin
    rw [Slab.rest_of_nonneg hx] at hax
    rw [Slab.rest_of_nonneg hy] at hay
    exact ⟨lt_of_le_of_ne hx hmoves.symm, hmeets, hwithin, hax, hay, hge, hlt⟩
  · rintro ⟨hpos, hmeets, hwithin, hax, hay, hge, hlt⟩
    refine ⟨hpos.ne', ?_, ?_, ?_, ?_, hge, hlt⟩
    · rwa [Slab.gap_of_nonneg hx, abs_of_nonneg hx]
    · rwa [Slab.Within, Slab.gap_of_nonneg hy, Slab.rest_of_nonneg hy, abs_of_nonneg hy]
    · rwa [Slab.rest_of_nonneg hx]
    · rwa [Slab.rest_of_nonneg hy]

theorem SideX.time_eq {t' : ℚ} (h : SideX lo hi d t) (h' : SideX lo hi d t') : t = t' :=
  mul_right_cancel₀ (abs_ne_zero.mpr h.moves) (h.meets.trans h'.meets.symm)

/-- Of the two axes, only the one that is met last gives a side. -/
theorem SideX.not_sideY {t' : ℚ} (h : SideX lo hi d t) (h' : SideY lo hi d t') : False := by
  have hlt : t' < t := by
    have hwithin := h.within.1
    rw [← (show t' * |d.y| = Slab.gap lo.y hi.y d.y from h'.meets)] at hwithin
    exact lt_of_mul_lt_mul_right hwithin (abs_nonneg _)
  have hgt : t < t' := by
    have hwithin : Slab.gap lo.x hi.x d.x < t' * |d.x| := h'.within.1
    rw [← h.meets] at hwithin
    exact lt_of_mul_lt_mul_right hwithin (abs_nonneg _)
  exact hlt.not_gt hgt

theorem Corner.not_sideX {t' : ℚ} (h : Corner lo hi d t) (h' : SideX lo hi d t') : False := by
  obtain rfl : t = t' :=
    mul_right_cancel₀ (abs_ne_zero.mpr h.movesX) (h.meetsX.trans h'.meets.symm)
  exact h'.within.1.ne' h.meetsY

theorem Corner.not_sideY {t' : ℚ} (h : Corner lo hi d t) (h' : SideY lo hi d t') : False :=
  h.swap.not_sideX h'

theorem Touches.time_eq {t' : ℚ} {n' : V2d ℚ} (h : Touches lo hi d t n)
    (h' : Touches lo hi d t' n') : t = t' := by
  cases h with
  | sideX h =>
      cases h' with
      | sideX h' => exact h.time_eq h'
      | sideY h' => exact (h.not_sideY h').elim
      | corner h' => exact (h'.not_sideX h).elim
  | sideY h =>
      cases h' with
      | sideX h' => exact (h'.not_sideY h).elim
      | sideY h' => exact SideX.time_eq h h'
      | corner h' => exact (h'.not_sideY h).elim
  | corner h =>
      cases h' with
      | sideX h' => exact (h.not_sideX h').elim
      | sideY h' => exact (h.not_sideY h').elim
      | corner h' =>
          exact mul_right_cancel₀ (abs_ne_zero.mpr h.movesX) (h.meetsX.trans h'.meetsX.symm)

section Rects

variable {q v p' q' w : V2d ℚ} {e : ℚ}

theorem dynamicRectVsRect_iff (hlo : p' - p - q = lo) (hhi : p' + q' - p = hi)
    (hd : v * e = d) (hltx : lo.x < hi.x) (hlty : lo.y < hi.y) (c : Contact) :
    dynamicRectVsRect ⟨.fin p, .fin q, .fin v⟩ (.fin e) ⟨.fin p', .fin q', w.fin⟩ = some c ↔
      ∃ t n, Touches lo hi d t n ∧ c = contactAt (p + q / (2 : ℚ)) d t n := by
  have hlo' : p' - q / (2 : ℚ) - (p + q / (2 : ℚ)) = lo := by
    rw [← hlo]
    ext
    · simp only [V2d.sub_x, V2d.add_x, V2d.div_scalar_x]
      ring
    · simp only [V2d.sub_y, V2d.add_y, V2d.div_scalar_y]
      ring
  have hhi' : p' - q / (2 : ℚ) + (q' + q) - (p + q / (2 : ℚ)) = hi := by
    rw [← hhi]
    ext
    · simp only [V2d.sub_x, V2d.add_x, V2d.div_scalar_x]
      ring
    · simp only [V2d.sub_y, V2d.add_y, V2d.div_scalar_y]
      ring
  rw [← rayVsRect_accepted_iff ⟨0, 0⟩ hlo' hhi' hltx hlty c]
  unfold dynamicRectVsRect
  simp only [expandedTarget, V2d.fin_div_scalar q two_ne_zero, V2d.fin_add, V2d.fin_sub,
    V2d.fin_mul_scalar, hd]
  generalize rayVsRect _ _ _ = contact
  cases contact with
  | none => simp
  | some c' =>
      rw [Option.ite_none_right_eq_some]
      constructor
      · rintro ⟨hacc, hc⟩
        obtain rfl := Option.some.inj hc
        exact ⟨rfl, hacc⟩
      · rintro ⟨hc, hacc⟩
        obtain rfl := Option.some.inj hc
        exact ⟨hacc, rfl⟩

theorem against_mul_abs {v e : ℚ} (he : 0 < e) (hv : v * e ≠ 0) : against (v * e) * |v| = -v := by
  unfold against
  rcases lt_or_gt_of_ne (left_ne_zero_of_mul hv) with hneg | hpos
  · rw [if_pos (mul_neg_of_neg_of_pos hneg he), abs_of_neg hneg, one_mul]
  · rw [if_neg (mul_pos hpos he).not_gt, abs_of_pos hpos, neg_one_mul]

/-- What is left of a displacement after the response to one wall. -/
def Shortens (lo hi d d' : V2d ℚ) : Prop :=
  (∃ t, SideX lo hi d t ∧ d' = ⟨Slab.face lo.x hi.x d.x, d.y⟩) ∨
    (∃ t, SideY lo hi d t ∧ d' = ⟨d.x, Slab.face lo.y hi.y d.y⟩) ∨
      (∀ t, ¬SideX lo hi d t) ∧ (∀ t, ¬SideY lo hi d t) ∧ d' = d

theorem Shortens.of_sideX {d' : V2d ℚ} (h : Shortens lo hi d d') (hside : SideX lo hi d t) :
    d' = ⟨Slab.face lo.x hi.x d.x, d.y⟩ := by
  rcases h with ⟨-, -, hd'⟩ | ⟨t', hside', -⟩ | ⟨hx, -, -⟩
  · exact hd'
  · exact (hside.not_sideY hside').elim
  · exact (hx t hside).elim

/-- A wall that is met on no side. -/
theorem Shortens.eq_of_no_side {d' : V2d ℚ} (h : Shortens lo hi d d') (hx : ∀ t, ¬SideX lo hi d t)
    (hy : ∀ t, ¬SideY lo hi d t) : d' = d := by
  rcases h with ⟨t, hside, -⟩ | ⟨t, hside, -⟩ | ⟨-, -, rfl⟩
  · exact absurd hside (hx t)
  · exact absurd hside (hy t)
  · rfl

theorem Shortens.swap {d' : V2d ℚ} (h : Shortens lo hi d d') :
    Shortens lo.swap hi.swap d.swap d'.swap := by
  rcases h with ⟨t, hside, rfl⟩ | ⟨t, hside, rfl⟩ | ⟨hx, hy, rfl⟩
  · exact Or.inr (Or.inl ⟨t, hside, rfl⟩)
  · exact Or.inl ⟨t, hside, rfl⟩
  · exact Or.inr (Or.inr ⟨hy, hx, rfl⟩)

theorem Shortens.unique {d₁ d₂ : V2d ℚ} (h₁ : Shortens lo hi d d₁) (h₂ : Shortens lo hi d d₂) :
    d₁ = d₂ := by
  rcases h₂ with ⟨t, hside, rfl⟩ | ⟨t, hside, rfl⟩ | ⟨hx, hy, rfl⟩
  · exact h₁.of_sideX hside
  · exact congrArg V2d.swap (h₁.swap.of_sideX hside)
  · exact h₁.eq_of_no_side hx hy

theorem resolve_fin (he : 0 < e) (hlo : p' - p - q = lo) (hhi : p' + q' - p = hi)
    (hltx : lo.x < hi.x) (hlty : lo.y < hi.y) :
    ∃ v', (resolveDynamicRectVsRect ⟨.fin p, .fin q, .fin v⟩ (.fin e)
      ⟨.fin p', .fin q', w.fin⟩).1 = ⟨.fin p, .fin q, .fin v'⟩ ∧
      Shortens lo hi (v * e) (v' * e) := by
  have hiff := dynamicRectVsRect_iff (w := w) hlo hhi (rfl : v * e = v * e) hltx hlty
  unfold resolveDynamicRectVsRect
  cases hcontact : dynamicRectVsRect ⟨.fin p, .fin q, .fin v⟩ (.fin e)
    ⟨.fin p', .fin q', w.fin⟩ with
  | none =>
      refine ⟨v, rfl, Or.inr (Or.inr ⟨fun t h => ?_, fun t h => ?_, rfl⟩)⟩
      · exact nomatch hcontact.symm.trans ((hiff _).mpr ⟨t, _, .sideX h, rfl⟩)
      · exact nomatch hcontact.symm.trans ((hiff _).mpr ⟨t, _, .sideY h, rfl⟩)
  | some c =>
      obtain ⟨t, n, htouch, rfl⟩ := (hiff c).mp hcontact
      refine ⟨⟨v.x + n.x * |v.x| * (1 - t), v.y + n.y * |v.y| * (1 - t)⟩, ?_, ?_⟩
      · have hone : (1 : Extended ℚ) - .fin t = .fin (1 - t) := by
          rw [Extended.one_def, Extended.fin_sub_fin]
        simp only [contactAt, hone]
        rfl
      · cases htouch with
        | sideX h =>
            left
            refine ⟨t, h, V2d.ext ?_ ?_⟩
            · calc (v.x + against (v.x * e) * |v.x| * (1 - t)) * e
                  = t * (v.x * e) := by rw [against_mul_abs he h.moves]; ring
                _ = Slab.face lo.x hi.x (v.x * e) := Slab.mul_eq_face h.meets
            · show (v.y + 0 * |v.y| * (1 - t)) * e = v.y * e
              ring
        | sideY h =>
            right; left
            refine ⟨t, h, V2d.ext ?_ ?_⟩
            · show (v.x + 0 * |v.x| * (1 - t)) * e = v.x * e
              ring
            · calc (v.y + against (v.y * e) * |v.y| * (1 - t)) * e
                  = t * (v.y * e) := by rw [against_mul_abs he h.moves]; ring
                _ = Slab.face lo.y hi.y (v.y * e) := Slab.mul_eq_face h.meets
        | corner h =>
            right; right
            refine ⟨fun t' h' => h.not_sideX h', fun t' h' => h.not_sideY h', V2d.ext ?_ ?_⟩
            · show (v.x + 0 * |v.x| * (1 - t)) * e = v.x * e
              ring
            · show (v.y + 0 * |v.y| * (1 - t)) * e = v.y * e
              ring

end Rects

end AmongUs
