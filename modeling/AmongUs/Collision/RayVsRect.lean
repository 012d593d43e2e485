import AmongUs.Geometry.Slab
import AmongUs.Geometry.V2d

/-!
The test of a ray against a rectangle (`RayVsRect`).

The function computes, for either axis, the times at which the ray crosses
the two bounds of the rectangle, sorts them, and takes the later of the two
entries for the time of the contact. It works with the reciprocal of the
direction, so the times of an axis on which the ray does not move are
infinite, or not a number when it runs along a bound (`crossing`).

When the ray moves on both axes the times are those of the two slabs that
the rectangle is the intersection of (`rayVsRect_eq`), and from this follows
what the function finds out about the points of the ray.
-/

namespace AmongUs

/-- `olc::aabb::rect`; nothing reads its field `contact`. -/
structure Rect where
  pos : VF2d
  size : VF2d
  vel : VF2d := V2d.fin ⟨0, 0⟩
  deriving DecidableEq

/-- What `RayVsRect` leaves in its reference arguments. -/
structure Contact where
  point : VF2d
  normal : VF2d
  time : Extended ℚ
  deriving DecidableEq

/-- The two times of an axis, after the swap. -/
def sortDistances (near far : Extended ℚ) : Extended ℚ × Extended ℚ :=
  if far < near then (far, near) else (near, far)

def contactNormal (t_near_x t_near_y : Extended ℚ) (invdir : VF2d) : VF2d :=
  if t_near_y < t_near_x then
    if invdir.x < .fin 0 then V2d.fin ⟨1, 0⟩ else V2d.fin ⟨-1, 0⟩
  else if t_near_x < t_near_y then
    if invdir.y < .fin 0 then V2d.fin ⟨0, 1⟩ else V2d.fin ⟨0, -1⟩
  -- both slabs are entered at once: a diagonal contact has no normal
  else V2d.fin ⟨0, 0⟩

def rayVsRect (ray_origin ray_dir : VF2d) (target : Rect) : Option Contact :=
  let invdir := (1 : Extended ℚ) / ray_dir
  let t_near := (target.pos - ray_origin) * invdir
  let t_far := (target.pos + target.size - ray_origin) * invdir
  if t_far.y = .nan ∨ t_far.x = .nan then none
  else if t_near.y = .nan ∨ t_near.x = .nan then none
  else
    let x := sortDistances t_near.x t_far.x
    let y := sortDistances t_near.y t_far.y
    if y.2 < x.1 ∨ x.2 < y.1 then none
    else
      let t_hit_near := max x.1 y.1
      let t_hit_far := min x.2 y.2
      if t_hit_far < .fin 0 then none
      else some
        { point := ray_origin + t_hit_near * ray_dir
          normal := contactNormal x.1 y.1 invdir
          time := t_hit_near }

/-- The time at which a ray crosses a bound, as the code computes it. -/
def crossing (bound dir : ℚ) : Extended ℚ := .fin bound * (1 / .fin dir)

theorem crossing_of_ne {dir : ℚ} (bound : ℚ) (h : dir ≠ 0) :
    crossing bound dir = .fin (bound / dir) := by
  rw [crossing, Extended.one_def, Extended.fin_div_fin 1 h, Extended.fin_mul_fin, mul_one_div]

theorem crossing_zero (bound : ℚ) : crossing bound 0 = Extended.infOf bound := by
  rw [crossing, Extended.one_def, Extended.fin_div_zero, Extended.infOf_of_pos one_pos,
    Extended.fin_mul_posInf]

theorem sortDistances_crossing {lo hi dir : ℚ} (h : lo < hi) (hdir : dir ≠ 0) :
    sortDistances (crossing lo dir) (crossing hi dir) =
      (.fin (Slab.enter lo hi dir), .fin (Slab.leave lo hi dir)) := by
  rw [crossing_of_ne lo hdir, crossing_of_ne hi hdir, sortDistances]
  rcases lt_or_gt_of_ne hdir with hneg | hpos
  · have hlt : hi / dir < lo / dir := div_lt_div_of_neg_of_lt hneg h
    rw [if_pos (Extended.fin_lt_fin.mpr hlt), Slab.enter_of_neg hneg, Slab.leave_of_neg hneg]
  · have hlt : lo / dir < hi / dir := div_lt_div_of_pos_right h hpos
    rw [if_neg (mt Extended.fin_lt_fin.mp hlt.not_gt), Slab.enter_of_pos hpos,
      Slab.leave_of_pos hpos]

theorem crossing_ne_nan {dir : ℚ} (bound : ℚ) (h : dir ≠ 0) : crossing bound dir ≠ .nan := by
  rw [crossing_of_ne bound h]
  intro hnan
  cases hnan

/-- The normal of an axis points against the direction. -/
def against (dir : ℚ) : ℚ := if dir < 0 then 1 else -1

/-- The normal that goes with two times of entry. -/
def normalOf (tx ty : ℚ) (dir : V2d ℚ) : V2d ℚ :=
  if ty < tx then ⟨against dir.x, 0⟩ else if tx < ty then ⟨0, against dir.y⟩ else ⟨0, 0⟩

theorem contactNormal_fin {dir : V2d ℚ} (hx : dir.x ≠ 0) (hy : dir.y ≠ 0) (tx ty : ℚ) :
    contactNormal (.fin tx) (.fin ty) ((1 : Extended ℚ) / V2d.fin dir) =
      .fin (normalOf tx ty dir) := by
  have hinvx : ((1 : Extended ℚ) / V2d.fin dir).x < .fin 0 ↔ dir.x < 0 := by
    simp [Extended.one_def, Extended.fin_div_fin _ hx]
  have hinvy : ((1 : Extended ℚ) / V2d.fin dir).y < .fin 0 ↔ dir.y < 0 := by
    simp [Extended.one_def, Extended.fin_div_fin _ hy]
  simp only [contactNormal, normalOf, against, hinvx, hinvy, Extended.fin_lt_fin]
  split_ifs <;> rfl

/-- The function on an exact ray and rectangle, where `lo` and `hi` are the
bounds of the rectangle seen from the origin of the ray. -/
theorem rayVsRect_fin (o d p s : V2d ℚ) (vel : VF2d) {lo hi : V2d ℚ} (hlo : p - o = lo)
    (hhi : p + s - o = hi) :
    rayVsRect (.fin o) (.fin d) ⟨.fin p, .fin s, vel⟩ =
      if crossing hi.y d.y = .nan ∨ crossing hi.x d.x = .nan then none
      else if crossing lo.y d.y = .nan ∨ crossing lo.x d.x = .nan then none
      else
        let x := sortDistances (crossing lo.x d.x) (crossing hi.x d.x)
        let y := sortDistances (crossing lo.y d.y) (crossing hi.y d.y)
        if y.2 < x.1 ∨ x.2 < y.1 then none
        else if min x.2 y.2 < .fin 0 then none
        else some
          { point := .fin o + max x.1 y.1 * V2d.fin d
            normal := contactNormal x.1 y.1 ((1 : Extended ℚ) / V2d.fin d)
            time := max x.1 y.1 } := by
  subst hlo hhi
  simp only [rayVsRect, crossing, V2d.mul_x, V2d.mul_y, V2d.sub_x, V2d.sub_y, V2d.add_x,
    V2d.add_y, V2d.scalar_div_x, V2d.scalar_div_y, V2d.fin_x, V2d.fin_y, Extended.fin_add_fin,
    Extended.fin_sub_fin]
  rfl

/-- The times at which a ray enters the slabs of the two axes. -/
def enterTimes (lo hi d : V2d ℚ) : V2d ℚ :=
  ⟨Slab.enter lo.x hi.x d.x, Slab.enter lo.y hi.y d.y⟩

def leaveTimes (lo hi d : V2d ℚ) : V2d ℚ :=
  ⟨Slab.leave lo.x hi.x d.x, Slab.leave lo.y hi.y d.y⟩

def entry (lo hi d : V2d ℚ) : ℚ := max (enterTimes lo hi d).x (enterTimes lo hi d).y

def exit (lo hi d : V2d ℚ) : ℚ := min (leaveTimes lo hi d).x (leaveTimes lo hi d).y

/-- Where a ray is at a time. -/
def along (o d : V2d ℚ) (t : ℚ) : V2d ℚ := ⟨o.x + t * d.x, o.y + t * d.y⟩

variable {o d p s lo hi : V2d ℚ}

theorem rayVsRect_eq (vel : VF2d) (hx : d.x ≠ 0) (hy : d.y ≠ 0) (hlo : p - o = lo)
    (hhi : p + s - o = hi) (hltx : lo.x < hi.x) (hlty : lo.y < hi.y) :
    rayVsRect (.fin o) (.fin d) ⟨.fin p, .fin s, vel⟩ =
      if entry lo hi d ≤ exit lo hi d ∧ 0 ≤ exit lo hi d then
        some
          { point := .fin (along o d (entry lo hi d))
            normal := .fin (normalOf (enterTimes lo hi d).x (enterTimes lo hi d).y d)
            time := .fin (entry lo hi d) }
      else none := by
  have hcross : (Slab.leave lo.y hi.y d.y < Slab.enter lo.x hi.x d.x ∨
      Slab.leave lo.x hi.x d.x < Slab.enter lo.y hi.y d.y) ↔ ¬entry lo hi d ≤ exit lo hi d := by
    have hx' := Slab.enter_lt_leave hltx hx
    have hy' := Slab.enter_lt_leave hlty hy
    simp only [entry, exit, enterTimes, leaveTimes, max_le_iff, le_min_iff, not_and_or, not_le,
      hx'.not_gt, hy'.not_gt, false_or, or_false]
    exact or_comm
  have hentry : max (Slab.enter lo.x hi.x d.x) (Slab.enter lo.y hi.y d.y) = entry lo hi d := rfl
  have hexit : min (Slab.leave lo.x hi.x d.x) (Slab.leave lo.y hi.y d.y) = exit lo hi d := rfl
  rw [rayVsRect_fin o d p s vel hlo hhi, if_neg (by simp [crossing_ne_nan, hx, hy]),
    if_neg (by simp [crossing_ne_nan, hx, hy]), sortDistances_crossing hltx hx,
    sortDistances_crossing hlty hy]
  simp only [Extended.fin_lt_fin, Extended.max_fin_fin, Extended.min_fin_fin,
    contactNormal_fin hx hy, hcross, hentry, hexit]
  by_cases hmeet : entry lo hi d ≤ exit lo hi d
  · rw [if_neg (not_not.mpr hmeet)]
    by_cases hfar : 0 ≤ exit lo hi d
    · rw [if_neg (not_lt.mpr hfar), if_pos ⟨hmeet, hfar⟩]
      rfl
    · rw [if_pos (not_le.mp hfar), if_neg fun h => hfar h.2]
  · rw [if_pos hmeet, if_neg fun h => hmeet h.1]

/-- A point of the closed rectangle. -/
def InRect (p s q : V2d ℚ) : Prop :=
  (p.x ≤ q.x ∧ q.x ≤ p.x + s.x) ∧ p.y ≤ q.y ∧ q.y ≤ p.y + s.y

def OnBoundary (p s q : V2d ℚ) : Prop :=
  InRect p s q ∧ (q.x = p.x ∨ q.x = p.x + s.x ∨ q.y = p.y ∨ q.y = p.y + s.y)

theorem setOf_along_x (hlo : p - o = lo) (hhi : p + s - o = hi) :
    {t | p.x ≤ (along o d t).x ∧ (along o d t).x ≤ p.x + s.x} = Slab.times lo.x hi.x d.x := by
  subst hlo hhi
  simp only [along, Slab.times, V2d.sub_x, V2d.add_x, sub_le_iff_le_add', le_sub_iff_add_le']

theorem setOf_along_y (hlo : p - o = lo) (hhi : p + s - o = hi) :
    {t | p.y ≤ (along o d t).y ∧ (along o d t).y ≤ p.y + s.y} = Slab.times lo.y hi.y d.y := by
  subst hlo hhi
  simp only [along, Slab.times, V2d.sub_y, V2d.add_y, sub_le_iff_le_add', le_sub_iff_add_le']

theorem inRect_along_iff (hlo : p - o = lo) (hhi : p + s - o = hi) {t : ℚ} :
    InRect p s (along o d t) ↔ t ∈ Slab.times lo.x hi.x d.x ∧ t ∈ Slab.times lo.y hi.y d.y := by
  rw [← setOf_along_x hlo hhi, ← setOf_along_y hlo hhi]
  exact Iff.rfl

theorem setOf_inRect_along (hx : d.x ≠ 0) (hy : d.y ≠ 0) (hlo : p - o = lo)
    (hhi : p + s - o = hi) :
    {t | InRect p s (along o d t)} = Set.Icc (entry lo hi d) (exit lo hi d) := by
  ext t
  rw [Set.mem_ofPred_eq, inRect_along_iff hlo hhi, Slab.times_eq_Icc hx, Slab.times_eq_Icc hy,
    ← Set.mem_inter_iff, Set.Icc_inter_Icc]
  rfl

/-- A ray that enters both slabs touches the boundary at the later entry. -/
theorem onBoundary_entry (hx : d.x ≠ 0) (hy : d.y ≠ 0) (hlo : p - o = lo)
    (hhi : p + s - o = hi) (hin : InRect p s (along o d (entry lo hi d))) :
    OnBoundary p s (along o d (entry lo hi d)) := by
  refine ⟨hin, ?_⟩
  have hpx : lo.x = p.x - o.x := by rw [← hlo, V2d.sub_x]
  have hqx : hi.x = p.x + s.x - o.x := by rw [← hhi, V2d.sub_x, V2d.add_x]
  have hpy : lo.y = p.y - o.y := by rw [← hlo, V2d.sub_y]
  have hqy : hi.y = p.y + s.y - o.y := by rw [← hhi, V2d.sub_y, V2d.add_y]
  rcases max_choice (enterTimes lo hi d).x (enterTimes lo hi d).y with hmax | hmax
  · have htime : entry lo hi d = Slab.enter lo.x hi.x d.x := hmax
    rcases Slab.enter_mul lo.x hi.x hx with h | h
    · left
      simp only [along, htime, h]
      linarith
    · right; left
      simp only [along, htime, h]
      linarith
  · have htime : entry lo hi d = Slab.enter lo.y hi.y d.y := hmax
    rcases Slab.enter_mul lo.y hi.y hy with h | h
    · right; right; left
      simp only [along, htime, h]
      linarith
    · right; right; right
      simp only [along, htime, h]
      linarith

theorem against_ne_zero (v : ℚ) : against v ≠ 0 := by
  unfold against
  split
  · exact one_ne_zero
  · exact neg_ne_zero.mpr one_ne_zero

theorem normalOf_eq_zero_iff {tx ty : ℚ} : normalOf tx ty d = ⟨0, 0⟩ ↔ tx = ty := by
  unfold normalOf
  split_ifs with hlt hgt
  · simp [against_ne_zero, hlt.ne']
  · simp [against_ne_zero, hgt.ne]
  · exact iff_of_true rfl (le_antisymm (not_lt.mp hlt) (not_lt.mp hgt))

/-- The function is exact for a ray that moves on both axes. -/
theorem rayVsRect_exact (vel : VF2d) (hx : d.x ≠ 0) (hy : d.y ≠ 0) (hsx : 0 < s.x)
    (hsy : 0 < s.y) :
    ((rayVsRect (.fin o) (.fin d) ⟨.fin p, .fin s, vel⟩).isSome ↔
      ∃ t, 0 ≤ t ∧ InRect p s (along o d t)) ∧
    ∀ c, rayVsRect (.fin o) (.fin d) ⟨.fin p, .fin s, vel⟩ = some c →
      ∃ t tx ty, IsLeast {t | InRect p s (along o d t)} t ∧
        IsLeast {t | p.x ≤ (along o d t).x ∧ (along o d t).x ≤ p.x + s.x} tx ∧
        IsLeast {t | p.y ≤ (along o d t).y ∧ (along o d t).y ≤ p.y + s.y} ty ∧
        c.time = .fin t ∧ c.point = .fin (along o d t) ∧ OnBoundary p s (along o d t) ∧
        c.normal = .fin (if ty < tx then ⟨against d.x, 0⟩
          else if tx < ty then ⟨0, against d.y⟩ else ⟨0, 0⟩) ∧
        (c.normal = .fin ⟨0, 0⟩ ↔ tx = ty) := by
  obtain ⟨lo, hlo⟩ : ∃ lo, p - o = lo := ⟨_, rfl⟩
  obtain ⟨hi, hhi⟩ : ∃ hi, p + s - o = hi := ⟨_, rfl⟩
  have hltx : lo.x < hi.x := by
    subst hlo hhi
    simpa using hsx
  have hlty : lo.y < hi.y := by
    subst hlo hhi
    simpa using hsy
  have htimes := setOf_inRect_along hx hy hlo hhi
  rw [rayVsRect_eq vel hx hy hlo hhi hltx hlty]
  by_cases hmeet : entry lo hi d ≤ exit lo hi d ∧ 0 ≤ exit lo hi d
  · rw [if_pos hmeet]
    refine ⟨iff_of_true rfl ⟨exit lo hi d, hmeet.2, ?_⟩, ?_⟩
    · have hmem : exit lo hi d ∈ {t | InRect p s (along o d t)} := by
        rw [htimes]
        exact Set.right_mem_Icc.mpr hmeet.1
      exact hmem
    · rintro c ⟨⟩
      have hleast : IsLeast {t | InRect p s (along o d t)} (entry lo hi d) := by
        rw [htimes]
        exact isLeast_Icc hmeet.1
      refine ⟨entry lo hi d, (enterTimes lo hi d).x, (enterTimes lo hi d).y, hleast, ?_, ?_,
        rfl, rfl, onBoundary_entry hx hy hlo hhi hleast.1, rfl, ?_⟩
      · rw [setOf_along_x hlo hhi]
        exact Slab.isLeast_enter hltx hx
      · rw [setOf_along_y hlo hhi]
        exact Slab.isLeast_enter hlty hy
      · exact V2d.fin_inj.trans normalOf_eq_zero_iff
  · rw [if_neg hmeet]
    refine ⟨iff_of_false Bool.false_ne_true ?_, fun c hc => by cases hc⟩
    rintro ⟨t, ht, hin⟩
    have hmem : t ∈ Set.Icc (entry lo hi d) (exit lo hi d) := htimes ▸ hin
    exact hmeet ⟨hmem.1.trans hmem.2, ht.trans hmem.2⟩

/-- A ray that starts inside the rectangle: the time is negative. -/
theorem rayVsRect_exact_inside :
    ∃ c, rayVsRect (.fin ⟨1, 1⟩) (.fin ⟨-2, 1⟩) ⟨.fin ⟨0, 0⟩, .fin ⟨2, 2⟩, .fin ⟨0, 0⟩⟩ = some c ∧
      c.normal = .fin ⟨1, 0⟩ ∧ ∃ t < 0, c.time = .fin t ∧
        OnBoundary ⟨0, 0⟩ ⟨2, 2⟩ (along ⟨1, 1⟩ ⟨-2, 1⟩ t) := by
  have hhit : rayVsRect (.fin ⟨1, 1⟩) (.fin ⟨-2, 1⟩) ⟨.fin ⟨0, 0⟩, .fin ⟨2, 2⟩, .fin ⟨0, 0⟩⟩ =
      some ⟨.fin ⟨2, 1 / 2⟩, .fin ⟨1, 0⟩, .fin (-1 / 2)⟩ := by
    decide +kernel
  obtain ⟨t, -, -, -, -, -, htime, -, hboundary, -⟩ :=
    (rayVsRect_exact (.fin ⟨0, 0⟩) (by decide) (by decide) (by decide) (by decide)).2 _ hhit
  obtain rfl : -1 / 2 = t := Extended.fin.inj htime
  exact ⟨_, hhit, rfl, -1 / 2, by norm_num, rfl, hboundary⟩

end AmongUs
