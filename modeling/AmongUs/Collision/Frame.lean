import AmongUs.Collision.ResolveCollision
import Mathlib.Tactic.Linarith
import Mathlib.Tactic.NormNum

/-!
The cells around the player, seen along its motion.

Both axes are turned so that the displacement `u` is not negative, and the
columns and rows are counted in its direction: the line of cells `0` is the
first one ahead of the player, at the distance `f`, the line `-1` is level
with the player, and the line `-2` is behind it or, when `f` is not zero,
level with it too. Since the displacement is less than one, no other line
matters (`sideX_lines`).

A wall of the lines ahead stops an axis at the distance `f`, and a later
wall finds the motion either as it was or stopped (`Slows`). The one other
wall that can be met is diagonally behind the player, at a time before the
start; it sends the player back by `1 - f` and no wall ahead on this axis
is met after that (`shortensAll_back`).
-/

namespace AmongUs

structure MoveFrame where
  f : V2d ℚ
  u : V2d ℚ
  f_x : 0 ≤ f.x ∧ f.x < 1
  f_y : 0 ≤ f.y ∧ f.y < 1
  u_x : 0 ≤ u.x ∧ u.x < 1
  u_y : 0 ≤ u.y ∧ u.y < 1

namespace MoveFrame

variable (F : MoveFrame)

def lo (k : VI2d) : V2d ℚ := ⟨F.f.x + k.x, F.f.y + k.y⟩

def hi (k : VI2d) : V2d ℚ := ⟨F.f.x + k.x + 2, F.f.y + k.y + 2⟩

def swap : MoveFrame := ⟨F.f.swap, F.u.swap, F.f_y, F.f_x, F.u_y, F.u_x⟩

/-- A displacement forward, of less than one cell. -/
def Onward (v : V2d ℚ) : Prop := (0 ≤ v.x ∧ v.x < 1) ∧ 0 ≤ v.y ∧ v.y < 1

variable {F} {k : VI2d} {v v' : V2d ℚ} {t : ℚ}

theorem onward_u : Onward F.u := ⟨F.u_x, F.u_y⟩

theorem Onward.swap (hv : Onward v) : Onward v.swap := ⟨hv.2, hv.1⟩

theorem sideX_iff (hv : Onward v) : SideX (F.lo k) (F.hi k) v t ↔
    0 < v.x ∧ t * v.x = F.f.x + k.x ∧
      (F.f.y + k.y < t * v.y ∧ t * v.y ≤ F.f.y + k.y + 2 ∧
        (v.y = 0 → 0 < F.f.y + k.y + 2)) ∧
      0 ≤ F.f.x + k.x + 2 ∧ 0 ≤ F.f.y + k.y + 2 ∧ -1 ≤ t ∧ t < 1 :=
  sideX_iff_of_nonneg hv.1.1 hv.2.1

/-- The number of a line, bounded by rational numbers. -/
theorem line_between {i : ℤ} (a b : ℤ) (hlo : (a : ℚ) < i) (hhi : (i : ℚ) < b) : a < i ∧ i < b :=
  ⟨Int.cast_lt.mp hlo, Int.cast_lt.mp hhi⟩

/-- A line at a distance from `0` up to `1` is the first one ahead. -/
theorem line_eq_zero {f : ℚ} {i : ℤ} (hf : 0 ≤ f ∧ f < 1) (hle : 0 ≤ f + i) (hlt : f + i < 1) :
    i = 0 := by
  obtain ⟨hlo, hhi⟩ := line_between (i := i) (-1) 1 (by push_cast; linarith) (by push_cast; linarith)
  omega

/-- A line less than one cell back is the one level with the player. -/
theorem line_eq_neg_one {f : ℚ} {i : ℤ} (hf : 0 ≤ f ∧ f < 1) (hlt : -1 < f + i)
    (hneg : f + i < 0) : i = -1 := by
  obtain ⟨hlo, hhi⟩ := line_between (i := i) (-2) 0 (by push_cast; linarith) (by push_cast; linarith)
  omega

/-- Within the time window the player moves less than one cell. -/
theorem mul_lt_one {x : ℚ} (hx : 0 ≤ x ∧ x < 1) (hge : -1 ≤ t) (hlt : t < 1) :
    -1 < t * x ∧ t * x < 1 := by
  obtain ⟨hnonneg, hsmall⟩ := hx
  constructor
  · nlinarith
  · nlinarith

/-- The lines on which a wall is met: the first one ahead, or, at a time
before the start, the one level with the player. -/
theorem sideX_lines (hv : Onward v) (h : SideX (F.lo k) (F.hi k) v t) :
    (k.x = 0 ∧ (k.y = 0 ∨ k.y = -1 ∨ k.y = -2) ∧ 0 ≤ t) ∨
      (k.x = -1 ∧ (k.y = -1 ∨ k.y = -2) ∧ t < 0) := by
  obtain ⟨hpos, hmeets, ⟨henter, -, -⟩, -, hay, hge, hlt⟩ := (sideX_iff hv).mp h
  obtain ⟨hlox, hhix⟩ := mul_lt_one hv.1 hge hlt
  obtain ⟨hloy, hhiy⟩ := mul_lt_one hv.2 hge hlt
  obtain ⟨hfx, hfx'⟩ := F.f_x
  obtain ⟨hfy, hfy'⟩ := F.f_y
  rcases le_or_gt 0 t with ht | ht
  · left
    have hle : 0 ≤ F.f.x + k.x := by
      rw [← hmeets]
      exact mul_nonneg ht hpos.le
    obtain ⟨hy1, hy2⟩ := line_between (i := k.y) (-3) 1 (by push_cast; linarith)
      (by push_cast; linarith)
    exact ⟨line_eq_zero F.f_x hle (hmeets ▸ hhix), by omega, ht⟩
  · right
    have hneg : F.f.x + k.x < 0 := by
      rw [← hmeets]
      exact mul_neg_of_neg_of_pos ht hpos
    have hle : t * v.y ≤ 0 := mul_nonpos_of_nonpos_of_nonneg ht.le hv.2.1
    obtain ⟨hy1, hy2⟩ := line_between (i := k.y) (-3) 0 (by push_cast; linarith)
      (by push_cast; linarith)
    exact ⟨line_eq_neg_one F.f_x (hmeets ▸ hlox) hneg, by omega, ht⟩

/-! The walls of the first column ahead. -/

theorem exists_sideX_iff (hv : Onward v) (hk : k.x = 0) :
    (∃ t, SideX (F.lo k) (F.hi k) v t) ↔
      F.f.x < v.x ∧ (F.f.y + k.y) * v.x < F.f.x * v.y ∧
        F.f.x * v.y ≤ (F.f.y + k.y + 2) * v.x ∧ (v.y = 0 → 0 < F.f.y + k.y + 2) ∧
        0 ≤ F.f.y + k.y + 2 := by
  simp only [sideX_iff hv, hk, Int.cast_zero, add_zero]
  obtain ⟨hfx, -⟩ := F.f_x
  constructor
  · rintro ⟨t, hpos, hmeets, ⟨henter, hleave, hstill⟩, -, hay, -, hlt⟩
    have hmul : F.f.x * v.y = t * v.y * v.x := by rw [← hmeets]; ring
    refine ⟨?_, ?_, ?_, hstill, hay⟩
    · rw [← hmeets]
      nlinarith
    · rw [hmul]
      exact mul_lt_mul_of_pos_right henter hpos
    · rw [hmul]
      exact mul_le_mul_of_nonneg_right hleave hpos.le
  · rintro ⟨hreach, henter, hleave, hstill, hay⟩
    have hpos : 0 < v.x := hfx.trans_lt hreach
    have hmeets : F.f.x / v.x * v.x = F.f.x := div_mul_cancel₀ _ hpos.ne'
    have hmul : F.f.x * v.y = F.f.x / v.x * v.y * v.x := by
      rw [mul_right_comm, hmeets]
    rw [hmul] at henter hleave
    refine ⟨F.f.x / v.x, hpos, hmeets, ⟨lt_of_mul_lt_mul_right henter hpos.le,
      le_of_mul_le_mul_right hleave hpos, hstill⟩, by linarith, hay, ?_, ?_⟩
    · exact (by norm_num : (-1 : ℚ) ≤ 0).trans (div_nonneg hfx hpos.le)
    · exact (div_lt_one hpos).mpr hreach

theorem exists_sideX_corner_iff (hv : Onward v) :
    (∃ t, SideX (F.lo ⟨0, 0⟩) (F.hi ⟨0, 0⟩) v t) ↔
      F.f.x < v.x ∧ F.f.y * v.x < F.f.x * v.y := by
  rw [exists_sideX_iff hv rfl]
  obtain ⟨hfx, hfx'⟩ := F.f_x
  obtain ⟨hfy, hfy'⟩ := F.f_y
  obtain ⟨⟨hx, hx'⟩, hy, hy'⟩ := hv
  simp only [Int.cast_zero, add_zero]
  constructor
  · exact fun h => ⟨h.1, h.2.1⟩
  · rintro ⟨hreach, henter⟩
    refine ⟨hreach, henter, ?_, fun _ => by linarith, by linarith⟩
    nlinarith

theorem exists_sideX_level_iff (hv : Onward v) :
    (∃ t, SideX (F.lo ⟨0, -1⟩) (F.hi ⟨0, -1⟩) v t) ↔ F.f.x < v.x := by
  rw [exists_sideX_iff hv rfl]
  obtain ⟨hfx, hfx'⟩ := F.f_x
  obtain ⟨hfy, hfy'⟩ := F.f_y
  obtain ⟨⟨hx, hx'⟩, hy, hy'⟩ := hv
  push_cast
  refine ⟨fun h => h.1, fun hreach => ⟨hreach, ?_, ?_, fun _ => by linarith, by linarith⟩⟩
  · nlinarith [mul_nonneg hfx hy]
  · nlinarith

theorem exists_sideX_behind_iff (hv : Onward v) :
    (∃ t, SideX (F.lo ⟨0, -2⟩) (F.hi ⟨0, -2⟩) v t) ↔
      F.f.x < v.x ∧ F.f.x * v.y ≤ F.f.y * v.x ∧ (v.y = 0 → 0 < F.f.y) := by
  rw [exists_sideX_iff hv rfl]
  obtain ⟨hfx, hfx'⟩ := F.f_x
  obtain ⟨hfy, hfy'⟩ := F.f_y
  obtain ⟨⟨hx, hx'⟩, hy, hy'⟩ := hv
  push_cast
  simp only [neg_add_cancel_right]
  refine ⟨fun h => ⟨h.1, h.2.2.1, h.2.2.2.1⟩, fun h => ⟨h.1, ?_, h.2.1, h.2.2, hfy⟩⟩
  nlinarith [mul_nonneg hfx hy, h.1]

/-! The response to the walls ahead. -/

/-- A cell of the first column or row ahead that can be met. -/
def Ahead (k : VI2d) : Prop :=
  (k.x = 0 ∧ (k.y = 0 ∨ k.y = -1 ∨ k.y = -2)) ∨ (k.y = 0 ∧ (k.x = -1 ∨ k.x = -2))

theorem Ahead.swap (hk : Ahead k) : Ahead k.swap := by
  rcases hk with ⟨hx, hy | hy | hy⟩ | hk
  · exact Or.inl ⟨hy, Or.inl hx⟩
  · exact Or.inr ⟨hx, Or.inl hy⟩
  · exact Or.inr ⟨hx, Or.inr hy⟩
  · exact Or.inl ⟨hk.1, Or.inr hk.2⟩

theorem Ahead.column (hv : Onward v) (hk : Ahead k) (h : SideX (F.lo k) (F.hi k) v t) :
    k.x = 0 ∧ F.f.x < v.x ∧ Slab.face (F.lo k).x (F.hi k).x v.x = F.f.x := by
  have hx : k.x = 0 := by
    rcases sideX_lines hv h with hx | ⟨hx, hy, -⟩
    · exact hx.1
    · rcases hk with hk | hk
      · exact hk.1
      · omega
  refine ⟨hx, ((exists_sideX_iff hv hx).mp ⟨t, h⟩).1, ?_⟩
  rw [Slab.face_of_nonneg hv.1.1, lo, hx, Int.cast_zero, add_zero]

/-- An axis keeps its displacement or is stopped at the line ahead. -/
def Slows (f v v' : ℚ) : Prop := v' = v ∨ (v' = f ∧ f < v)

theorem Slows.refl (f v : ℚ) : Slows f v v := Or.inl rfl

theorem Slows.trans {f a b c : ℚ} (hab : Slows f a b) (hbc : Slows f b c) : Slows f a c := by
  rcases hbc with rfl | ⟨rfl, hlt⟩
  · exact hab
  · rcases hab with rfl | ⟨rfl, -⟩
    · exact Or.inr ⟨rfl, hlt⟩
    · exact absurd hlt (lt_irrefl _)

theorem Slows.le {f a b : ℚ} (h : Slows f a b) : b ≤ a := by
  rcases h with rfl | ⟨rfl, hlt⟩
  · exact le_rfl
  · exact hlt.le

theorem Slows.eq_of_lt {f a b : ℚ} (h : Slows f a b) (hlt : f < b) : b = a := by
  rcases h with rfl | ⟨rfl, -⟩
  · rfl
  · exact absurd hlt (lt_irrefl _)

theorem Slows.eq_of_ne {f a b : ℚ} (h : Slows f a b) (hne : b ≠ f) : b = a := by
  rcases h with rfl | ⟨rfl, -⟩
  · rfl
  · exact absurd rfl hne

/-- The response to one wall ahead: its column or its row stops the player,
or nothing changes. -/
theorem shortens_ahead (hv : Onward v) (hk : Ahead k) (h : Shortens (F.lo k) (F.hi k) v v') :
    (k.x = 0 ∧ F.f.x < v.x ∧ v' = ⟨F.f.x, v.y⟩) ∨ (k.y = 0 ∧ F.f.y < v.y ∧ v' = ⟨v.x, F.f.y⟩) ∨
      (∀ t, ¬SideX (F.lo k) (F.hi k) v t) ∧ (∀ t, ¬SideY (F.lo k) (F.hi k) v t) ∧ v' = v := by
  rcases h with ⟨t, hside, rfl⟩ | ⟨t, hside, rfl⟩ | hfree
  · obtain ⟨hx, hlt, hface⟩ := hk.column hv hside
    rw [hface]
    exact Or.inl ⟨hx, hlt, rfl⟩
  · obtain ⟨hy, hlt, hface⟩ := hk.swap.column (F := F.swap) hv.swap hside
    refine Or.inr (Or.inl ⟨hy, hlt, ?_⟩)
    exact congrArg (V2d.mk v.x) hface
  · exact Or.inr (Or.inr hfree)

theorem slows_ahead (hv : Onward v) (hk : Ahead k) (h : Shortens (F.lo k) (F.hi k) v v') :
    Onward v' ∧ Slows F.f.x v.x v'.x ∧ Slows F.f.y v.y v'.y := by
  rcases shortens_ahead hv hk h with ⟨-, hlt, rfl⟩ | ⟨-, hlt, rfl⟩ | ⟨-, -, rfl⟩
  · exact ⟨⟨F.f_x, hv.2⟩, Or.inr ⟨rfl, hlt⟩, Slows.refl ..⟩
  · exact ⟨⟨hv.1, F.f_y⟩, Slows.refl .., Or.inr ⟨rfl, hlt⟩⟩
  · exact ⟨hv, Slows.refl .., Slows.refl ..⟩

variable {ks : List VI2d}

theorem slowsAll_ahead (hv : Onward v) (hks : ∀ k ∈ ks, Ahead k)
    (h : ShortensAll F.lo F.hi ks v v') :
    Onward v' ∧ Slows F.f.x v.x v'.x ∧ Slows F.f.y v.y v'.y := by
  induction ks generalizing v with
  | nil =>
      obtain rfl : v' = v := h
      exact ⟨hv, Slows.refl .., Slows.refl ..⟩
  | cons k ks ih =>
      obtain ⟨v₁, hstep, hrest⟩ := h
      obtain ⟨hv₁, hx, hy⟩ := slows_ahead hv (hks k List.mem_cons_self) hstep
      obtain ⟨hv', hx', hy'⟩ := ih hv₁ (fun j hj => hks j (List.mem_cons_of_mem k hj)) hrest
      exact ⟨hv', hx.trans hx', hy.trans hy'⟩

/-- The first wall with a side stops the player. -/
theorem ne_of_side (hv : Onward v) (hks : ∀ k ∈ ks, Ahead k)
    (h : ShortensAll F.lo F.hi ks v v')
    (hside : ∃ k ∈ ks, ∃ t, SideX (F.lo k) (F.hi k) v t ∨ SideY (F.lo k) (F.hi k) v t) :
    v' ≠ v := by
  induction ks generalizing v with
  | nil =>
      obtain ⟨k, hk, -⟩ := hside
      exact absurd hk List.not_mem_nil
  | cons k ks ih =>
      obtain ⟨v₁, hstep, hrest⟩ := h
      have hks' := fun j hj => hks j (List.mem_cons_of_mem k hj)
      have hv₁ := (slows_ahead hv (hks k List.mem_cons_self) hstep).1
      obtain ⟨-, hx, hy⟩ := slowsAll_ahead hv₁ hks' hrest
      rcases shortens_ahead hv (hks k List.mem_cons_self) hstep with
        ⟨-, hlt, rfl⟩ | ⟨-, hlt, rfl⟩ | ⟨hx', hy', rfl⟩
      · rintro rfl
        exact hlt.not_ge hx.le
      · rintro rfl
        exact hlt.not_ge hy.le
      · apply ih hv hks' hrest
        obtain ⟨j, hj, t, hside⟩ := hside
        rcases List.mem_cons.mp hj with rfl | hj
        · exact (hside.elim (hx' t) (hy' t)).elim
        · exact ⟨j, hj, t, hside⟩

/-- A wall of the column ahead stops the x-axis, if it is met at the velocity
that the walls before it have left. -/
theorem column_stops {k : VI2d} (hv : Onward v) (hks : ∀ k ∈ ks, Ahead k)
    (h : ShortensAll F.lo F.hi ks v v') (hk : k ∈ ks) (hcolumn : k.y ≠ 0)
    (hmeets : ∀ w : V2d ℚ, Onward w → F.f.x < w.x → w.x = v.x → Slows F.f.y v.y w.y →
      v'.y ≤ w.y → ∃ t, SideX (F.lo k) (F.hi k) w t) :
    v'.x ≤ F.f.x := by
  obtain ⟨pre, post, w, w', rfl, hpre, hstep, hpost⟩ := h.at_mem hk
  obtain ⟨hw, hwx, hwy⟩ := slowsAll_ahead hv (fun k hk => hks k (by simp [hk])) hpre
  obtain ⟨hw', -, hwy'⟩ := slows_ahead hw (hks _ hk) hstep
  obtain ⟨-, hle, hley⟩ := slowsAll_ahead hw' (fun k hk => hks k (by simp [hk])) hpost
  apply hle.le.trans
  rcases shortens_ahead hw (hks _ hk) hstep with ⟨-, -, rfl⟩ | ⟨hy, -, -⟩ | ⟨hfree, -, rfl⟩
  · exact le_rfl
  · exact absurd hy hcolumn
  · by_contra hreach
    have hlt := not_le.mp hreach
    obtain ⟨t, hside⟩ := hmeets _ hw hlt (hwx.eq_of_lt hlt) hwy hley.le
    exact hfree t hside

/-- A wall of the column ahead, level with the player, stops the x-axis. -/
theorem level_stops (hv : Onward v) (hks : ∀ k ∈ ks, Ahead k)
    (h : ShortensAll F.lo F.hi ks v v') (hk : ⟨0, -1⟩ ∈ ks) : v'.x ≤ F.f.x := by
  apply column_stops hv hks h hk (by decide)
  intro w hw hlt _ _ _
  exact (exists_sideX_level_iff hw).mpr hlt

/-- A wall of the column ahead, behind the player on the other axis, stops
the x-axis as long as that axis has not reached its line. -/
theorem behind_stops (hv : Onward v) (hks : ∀ k ∈ ks, Ahead k)
    (h : ShortensAll F.lo F.hi ks v v') (hk : ⟨0, -2⟩ ∈ ks)
    (hbehind : ∀ w : V2d ℚ, F.f.x < w.x → w.x = v.x → Slows F.f.y v.y w.y → v'.y ≤ w.y →
      F.f.x * w.y ≤ F.f.y * w.x ∧ (w.y = 0 → 0 < F.f.y)) :
    v'.x ≤ F.f.x := by
  apply column_stops hv hks h hk (by decide)
  intro w hw hlt hwx hwy hle
  exact (exists_sideX_behind_iff hw).mpr ⟨hlt, hbehind w hlt hwx hwy hle⟩

theorem shortensAll_swap (h : ShortensAll F.lo F.hi ks v v') :
    ShortensAll F.swap.lo F.swap.hi (ks.map V2d.swap) v.swap v'.swap :=
  h.map V2d.swap V2d.swap fun _ _ _ => Shortens.swap

/-! The walls that the player overlaps after a displacement. -/

def Over (F : MoveFrame) (k : VI2d) (v : V2d ℚ) : Prop :=
  ((F.lo k).x < v.x ∧ v.x < (F.hi k).x) ∧ (F.lo k).y < v.y ∧ v.y < (F.hi k).y

theorem Over.swap (h : Over F k v) : Over F.swap k.swap v.swap := ⟨h.2, h.1⟩

theorem line_of_over {f q : ℚ} {i : ℤ} (hf : 0 ≤ f ∧ f < 1) (hge : f - 1 ≤ q) (hlt : q < 1)
    (hlo : f + i < q) (hhi : q < f + i + 2) : i = 0 ∨ i = -1 ∨ i = -2 := by
  obtain ⟨hlo, hhi⟩ := line_between (i := i) (-3) 1 (by push_cast; linarith) (by push_cast; linarith)
  omega

theorem Over.lines (hv : Onward v) (h : Over F k v) :
    (k.x = 0 ∨ k.x = -1 ∨ k.x = -2) ∧ (k.y = 0 ∨ k.y = -1 ∨ k.y = -2) := by
  obtain ⟨⟨hx, hx'⟩, hy, hy'⟩ := h
  obtain ⟨⟨hvx, hvx'⟩, hvy, hvy'⟩ := hv
  exact ⟨line_of_over F.f_x (by linarith [F.f_x.2]) hvx' hx hx',
    line_of_over F.f_y (by linarith [F.f_y.2]) hvy' hy hy'⟩

/-- The walls of the column ahead that are not ahead on the other axis do
not get overlapped. -/
theorem not_over_column (hks : ∀ k ∈ ks, Ahead k) (h : ShortensAll F.lo F.hi ks F.u v')
    (hmem : (∃ t, SideX (F.lo k) (F.hi k) F.u t) → k ∈ ks) (hx : k.x = 0)
    (hy : k.y = -1 ∨ k.y = -2) : ¬Over F k v' := by
  intro hover
  obtain ⟨-, hslowx, hslowy⟩ := slowsAll_ahead onward_u hks h
  have hreach : F.f.x < v'.x := by simpa [lo, hx] using hover.1.1
  rcases hy with hy | hy
  · obtain rfl : k = ⟨0, -1⟩ := V2d.ext hx hy
    have hin := hmem ((exists_sideX_level_iff onward_u).mpr (hreach.trans_le hslowx.le))
    exact hreach.not_ge (level_stops onward_u hks h hin)
  · obtain rfl : k = ⟨0, -2⟩ := V2d.ext hx hy
    have hbelow : v'.y < F.f.y := by simpa [hi] using hover.2.2
    have huy : v'.y = F.u.y := hslowy.eq_of_ne hbelow.ne
    obtain ⟨hfx, -⟩ := F.f_x
    have hcond : F.f.x * F.u.y ≤ F.f.y * F.u.x ∧ (F.u.y = 0 → 0 < F.f.y) := by
      rw [← huy]
      have hreach' := hreach.le.trans hslowx.le
      constructor
      · rw [mul_comm F.f.y]
        exact mul_le_mul hreach' hbelow.le (huy ▸ F.u_y.1) F.u_x.1
      · exact fun hzero => hzero ▸ hbelow
    have hin := hmem ((exists_sideX_behind_iff onward_u).mpr
      ⟨hreach.trans_le hslowx.le, hcond⟩)
    refine hreach.not_ge (behind_stops onward_u hks h hin fun w _ hwx hwy _ => ?_)
    have hwy' : w.y = F.u.y := by
      rcases hwy with hwy | ⟨-, hlt⟩
      · exact hwy
      · exact absurd (huy ▸ hbelow) hlt.not_gt
    rw [hwx, hwy']
    exact hcond

/-- What is on the cells level with the player is overlapped from the start. -/
theorem over_start (hv : Onward v) (hx : k.x = -1 ∨ k.x = -2) (hy : k.y = -1 ∨ k.y = -2)
    (h : Over F k v) : Over F k ⟨0, 0⟩ := by
  obtain ⟨⟨-, hvx⟩, -, hvy⟩ := h
  obtain ⟨⟨hx0, -⟩, hy0, -⟩ := hv
  obtain ⟨-, hfx⟩ := F.f_x
  obtain ⟨-, hfy⟩ := F.f_y
  have hkx : (k.x : ℚ) ≤ -1 := by
    have : k.x ≤ -1 := by omega
    exact_mod_cast this
  have hky : (k.y : ℚ) ≤ -1 := by
    have : k.y ≤ -1 := by omega
    exact_mod_cast this
  simp only [Over, lo, hi] at hvx hvy ⊢
  refine ⟨⟨?_, ?_⟩, ?_, ?_⟩ <;> linarith

/-- A run along walls ahead leaves the player off every wall `T` that it
may meet. -/
theorem not_over_ahead {T : VI2d → Prop} (hks : ∀ k ∈ ks, Ahead k)
    (h : ShortensAll F.lo F.hi ks F.u v') (hfree : ∀ k, T k → ¬Over F k ⟨0, 0⟩)
    (hmem : ∀ k, T k →
      (∃ t, SideX (F.lo k) (F.hi k) F.u t ∨ SideY (F.lo k) (F.hi k) F.u t) → k ∈ ks)
    (hcorner : T ⟨0, 0⟩ → F.f.x < F.u.x → F.f.y < F.u.y →
      ∃ k ∈ ks, ∃ t, SideX (F.lo k) (F.hi k) F.u t ∨ SideY (F.lo k) (F.hi k) F.u t)
    (hT : T k) : ¬Over F k v' := by
  intro hover
  obtain ⟨hv', hslowx, hslowy⟩ := slowsAll_ahead onward_u hks h
  obtain ⟨hx, hy⟩ := hover.lines hv'
  rcases hx with hx | hx
  · rcases hy with hy | hy
    · obtain rfl : k = ⟨0, 0⟩ := V2d.ext hx hy
      have hreachx : F.f.x < v'.x := by simpa [lo] using hover.1.1
      have hreachy : F.f.y < v'.y := by simpa [lo] using hover.2.1
      have hside := hcorner hT (hreachx.trans_le hslowx.le) (hreachy.trans_le hslowy.le)
      exact ne_of_side onward_u hks h hside
        (V2d.ext (hslowx.eq_of_lt hreachx) (hslowy.eq_of_lt hreachy))
    · exact not_over_column hks h
        (fun ⟨t, ht⟩ => hmem k hT ⟨t, Or.inl ht⟩) hx hy hover
  · rcases hy with hy | hy
    · refine not_over_column (F := F.swap) (k := k.swap) ?_ (shortensAll_swap h) ?_ hy hx hover.swap
      · intro j hj
        obtain ⟨i, hi, rfl⟩ := List.mem_map.mp hj
        exact (hks i hi).swap
      · rintro ⟨t, ht⟩
        exact List.mem_map_of_mem (hmem k hT ⟨t, Or.inr ht⟩)
    · exact hfree k hT (over_start hv' hx hy hover)

/-! The wall diagonally behind the player. -/

/-- A wall that is met before the start sends the player back. -/
theorem shortens_first_back (h : Shortens (F.lo ⟨-1, -2⟩) (F.hi ⟨-1, -2⟩) F.u v')
    (hside : SideX (F.lo ⟨-1, -2⟩) (F.hi ⟨-1, -2⟩) F.u t) : v' = ⟨F.f.x - 1, F.u.y⟩ := by
  rw [h.of_sideX hside, Slab.face_of_nonneg F.u_x.1, lo, Int.cast_neg, Int.cast_one,
    ← sub_eq_add_neg]

theorem pos_of_back (h : SideX (F.lo ⟨-1, -2⟩) (F.hi ⟨-1, -2⟩) F.u t) :
    0 < F.f.x ∧ (F.f.y = 0 → 0 < F.u.y) := by
  obtain ⟨hpos, hmeets, ⟨-, -, hstill⟩, -, -, hge, hlt⟩ := (sideX_iff onward_u).mp h
  obtain ⟨hlow, -⟩ := mul_lt_one F.u_x hge hlt
  push_cast at hmeets hstill
  refine ⟨by linarith, fun hfy => lt_of_le_of_ne F.u_y.1 fun hzero => ?_⟩
  have := hstill hzero.symm
  linarith

/-- After that no wall ahead is met on the x-axis. -/
theorem not_sideX_back {y : ℚ} (hfx : 0 < F.f.x) (hfy : F.f.y = 0) (hy : 0 ≤ y) (hk : Ahead k) :
    ¬SideX (F.lo k) (F.hi k) ⟨F.f.x - 1, y⟩ t := by
  rintro ⟨-, hmeets, ⟨henter, -, -⟩, hahead, -, -, -⟩
  obtain ⟨-, hfx'⟩ := F.f_x
  have hneg : F.f.x - 1 < 0 := by linarith
  rw [Slab.rest_of_neg hneg, lo] at hahead
  rw [Slab.gap_of_neg hneg, abs_of_neg hneg, hi] at hmeets
  rw [Slab.gap_of_nonneg hy, abs_of_nonneg hy, lo] at henter
  have hkx : k.x ≠ 0 := by
    intro hzero
    rw [hzero, Int.cast_zero] at hahead
    linarith
  have hline : k.y = 0 ∧ (k.x = -1 ∨ k.x = -2) := hk.resolve_left fun h => hkx h.1
  have hkx' : (-2 : ℚ) ≤ k.x := by
    have : -2 ≤ k.x := by omega
    exact_mod_cast this
  have ht : t < 0 := by
    by_contra hnonneg
    have := mul_nonneg (not_lt.mp hnonneg) (neg_nonneg.mpr hneg.le)
    linarith
  rw [hline.1, hfy, Int.cast_zero, add_zero] at henter
  exact henter.not_ge (mul_nonpos_of_nonpos_of_nonneg ht.le hy)

/-- What is met then is off the column ahead. -/
theorem ne_zero_of_back {y : ℚ} (hfx : 0 < F.f.x)
    (h : SideY (F.lo k) (F.hi k) ⟨F.f.x - 1, y⟩ t) : k.x ≠ 0 := by
  intro hzero
  obtain ⟨-, hfx'⟩ := F.f_x
  have hneg : F.f.x - 1 < 0 := by linarith
  obtain ⟨-, -, -, -, hahead, -, -⟩ := h
  have hrest : 0 ≤ Slab.rest (F.lo k).x (F.hi k).x (F.f.x - 1) := hahead
  rw [Slab.rest_of_neg hneg, lo, hzero, Int.cast_zero] at hrest
  linarith

/-- After that only the walls of the row ahead are met. -/
theorem shortens_back {y : ℚ} (hfx : 0 < F.f.x) (hfy : F.f.y = 0) (hy : 0 ≤ y) (hk : Ahead k)
    (h : Shortens (F.lo k) (F.hi k) ⟨F.f.x - 1, y⟩ v') :
    v' = ⟨F.f.x - 1, if k.x = 0 then y else 0⟩ := by
  obtain ⟨-, hfx'⟩ := F.f_x
  have hneg : F.f.x - 1 < 0 := by linarith
  rcases h with ⟨t, hside, -⟩ | ⟨t, hside, rfl⟩ | ⟨-, hnotY, rfl⟩
  · exact (not_sideX_back hfx hfy hy hk hside).elim
  · have hkx := ne_zero_of_back hfx hside
    have hline : k.y = 0 := (hk.resolve_left fun h => hkx h.1).1
    rw [if_neg hkx, Slab.face_of_nonneg hy, lo, hline, hfy, Int.cast_zero, add_zero]
  · by_cases hkx : k.x = 0
    · rw [if_pos hkx]
    · obtain ⟨hline, hkx'⟩ := hk.resolve_left fun h => hkx h.1
      have hle : (k.x : ℚ) ≤ -1 := by
        have : k.x ≤ -1 := by omega
        exact_mod_cast this
      have hge : (-2 : ℚ) ≤ k.x := by
        have : -2 ≤ k.x := by omega
        exact_mod_cast this
      have hzero : y = 0 := by
        by_contra hmoves
        refine hnotY 0 ⟨hmoves, ?_, ⟨?_, ?_, fun h => absurd h hneg.ne⟩, ?_, ?_, by norm_num,
          one_pos⟩
        · simp only [V2d.swap_x]
          rw [Slab.gap_of_nonneg hy, zero_mul, lo, hline, hfy, Int.cast_zero, add_zero]
        · simp only [V2d.swap_y]
          rw [Slab.gap_of_neg hneg, zero_mul, hi]
          linarith
        · simp only [V2d.swap_y]
          rw [Slab.rest_of_neg hneg, zero_mul, lo]
          linarith
        · simp only [V2d.swap_x]
          rw [Slab.rest_of_nonneg hy, hi, hline, hfy, Int.cast_zero]
          norm_num
        · simp only [V2d.swap_y]
          rw [Slab.rest_of_neg hneg, lo]
          linarith
      rw [if_neg hkx, hzero]

theorem shortensAll_back {y : ℚ} (hfx : 0 < F.f.x) (hfy : F.f.y = 0) (hy : 0 ≤ y)
    (hks : ∀ k ∈ ks, Ahead k) (h : ShortensAll F.lo F.hi ks ⟨F.f.x - 1, y⟩ v') :
    v' = ⟨F.f.x - 1, if ∀ k ∈ ks, k.x = 0 then y else 0⟩ := by
  induction ks generalizing y with
  | nil =>
      rw [if_pos fun k hk => absurd hk List.not_mem_nil]
      exact h
  | cons k ks ih =>
      obtain ⟨v₁, hstep, hrest⟩ := h
      rw [shortens_back hfx hfy hy (hks k List.mem_cons_self) hstep] at hrest
      have hks' := fun j hj => hks j (List.mem_cons_of_mem k hj)
      by_cases hk : k.x = 0
      · rw [if_pos hk] at hrest
        rw [ih hy hks' hrest]
        simp [hk]
      · rw [if_neg hk] at hrest
        rw [ih le_rfl hks' hrest]
        simp [hk]

end MoveFrame

end AmongUs
