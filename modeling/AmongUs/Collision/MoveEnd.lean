import AmongUs.Collision.Contacts

/-!
Where a move ends.

A run over the contacts with walls `T` leaves the player off all of `T`, with
one exception: a wall that is met at exactly its corner, when no other
contact stops the player (`Contacts.not_over`, `Contacts.eq_of_no_side`).

A run that meets the column ahead stops at it, as long as no wall of the row
ahead beside the corner is met (`Contacts.stopped_of_column`). So when `T`
has nothing in the row ahead, the end of the move is decided by the contacts
at the start alone (`Contacts.move_of_row`).
-/

namespace AmongUs

namespace MoveFrame

variable {F : MoveFrame} {T : VI2d → Prop} {ks : List (VI2d × ℚ)} {k : VI2d} {v v' : V2d ℚ}
  {s t : ℚ}

/-- A wall met on a side at the start velocity. -/
def Side (F : MoveFrame) (k : VI2d) (t : ℚ) : Prop :=
  SideX (F.lo k) (F.hi k) F.u t ∨ SideY (F.lo k) (F.hi k) F.u t

theorem Side.swap (h : Side F k t) : Side F.swap k.swap t := Or.symm h

theorem Contacts.mem_of_side (h : Contacts F T ks) (hT : T k) (hside : Side F k t) :
    (k, t) ∈ ks :=
  (h.mem_iff k t).mpr ⟨hT, hside.elim (fun hx => ⟨_, .sideX hx⟩) fun hy => ⟨_, .sideY hy⟩⟩

theorem Contacts.fst_mem_of_side (h : Contacts F T ks) (hT : T k) (hside : Side F k t) :
    k ∈ ks.map Prod.fst :=
  List.mem_map.mpr ⟨(k, t), h.mem_of_side hT hside, rfl⟩

/-- The cell ahead on both axes is met when both displacements reach it. -/
theorem touches_diagonal (hx : F.f.x < F.u.x) (hy : F.f.y < F.u.y) :
    (∃ t, Side F ⟨0, 0⟩ t) ∨ ∃ t, Corner (F.lo ⟨0, 0⟩) (F.hi ⟨0, 0⟩) F.u t := by
  obtain ⟨hfx, -⟩ := F.f_x
  obtain ⟨hfy, -⟩ := F.f_y
  have hpx : 0 < F.u.x := hfx.trans_lt hx
  have hpy : 0 < F.u.y := hfy.trans_lt hy
  rcases lt_trichotomy (F.f.y * F.u.x) (F.f.x * F.u.y) with hlt | heq | hgt
  · obtain ⟨t, ht⟩ := (exists_sideX_corner_iff onward_u).mpr ⟨hx, hlt⟩
    exact Or.inl ⟨t, Or.inl ht⟩
  · right
    have hmx : F.f.x / F.u.x * F.u.x = F.f.x := div_mul_cancel₀ _ hpx.ne'
    have hmy : F.f.x / F.u.x * F.u.y = F.f.y := by
      rw [div_mul_eq_mul_div, ← heq, mul_div_cancel_right₀ _ hpx.ne']
    refine ⟨F.f.x / F.u.x, hpx.ne', hpy.ne', ?_, ?_, ?_, ?_, ?_, ?_⟩
    · rw [Slab.gap_of_nonneg hpx.le, abs_of_pos hpx, hmx]
      simp [lo]
    · rw [Slab.gap_of_nonneg hpy.le, abs_of_pos hpy, hmy]
      simp [lo]
    · rw [Slab.rest_of_nonneg hpx.le, hi, Int.cast_zero]
      linarith
    · rw [Slab.rest_of_nonneg hpy.le, hi, Int.cast_zero]
      linarith
    · exact (by norm_num : (-1 : ℚ) ≤ 0).trans (div_nonneg hfx hpx.le)
    · exact (div_lt_one hpx).mpr hx
  · obtain ⟨t, ht⟩ := (exists_sideX_corner_iff (F := F.swap) (onward_u (F := F.swap))).mpr ⟨hy, hgt⟩
    exact Or.inl ⟨t, Or.inr ht⟩

/-- Sent back on the x-axis, the player ends off the walls. -/
theorem Contacts.not_over_back (h : Contacts F T ks) (hk : (⟨-1, -2⟩, t) ∈ ks) (ht : t < 0)
    (hf : F.f.y = 0) (hside : SideX (F.lo ⟨-1, -2⟩) (F.hi ⟨-1, -2⟩) F.u t)
    (hall : ShortensAll F.lo F.hi (ks.map Prod.fst) F.u v') (hT : T k) : ¬Over F k v' := by
  intro hover
  obtain ⟨hfx, -⟩ := pos_of_back hside
  obtain ⟨-, hfx'⟩ := F.f_x
  have hv' := h.move_back hk ht hf hside hall
  have hvx : v'.x = F.f.x - 1 := by rw [hv']
  have hvy : 0 ≤ v'.y ∧ v'.y < 1 := by
    rw [hv']
    dsimp only
    split_ifs
    · exact F.u_y
    · exact ⟨le_rfl, one_pos⟩
  obtain ⟨⟨hx, hx'⟩, hy, hy'⟩ := hover
  simp only [lo, hi, hf, hvx, zero_add] at hx hx' hy hy'
  obtain ⟨hxlo, hxhi⟩ := line_between (i := k.x) (-3) (-1) (by push_cast; linarith)
    (by push_cast; linarith)
  obtain ⟨hylo, hyhi⟩ := line_between (i := k.y) (-2) 1 (by push_cast; linarith)
    (by push_cast; linarith)
  have hkx : k.x = -2 := by omega
  have hky : k.y = 0 ∨ k.y = -1 := by omega
  rcases hky with hky | hky
  · obtain rfl : k = ⟨-2, 0⟩ := V2d.ext hkx hky
    -- the wall behind in the row ahead is met too, and stops the y-axis
    have hreach : F.f.y < F.u.y := hf ▸ (pos_of_back hside).2 hf
    have hmul : F.f.y * F.u.x ≤ F.f.x * F.u.y := by
      rw [hf, zero_mul]
      exact mul_nonneg hfx.le F.u_y.1
    obtain ⟨s, hs⟩ := (exists_sideX_behind_iff (F := F.swap) (onward_u (F := F.swap))).mpr
      ⟨hreach, hmul, fun _ => hfx⟩
    have hmem := h.fst_mem_of_side hT (Or.inr hs : Side F ⟨-2, 0⟩ s)
    have hcol : ¬∀ j ∈ ks.map Prod.fst, j = ⟨-1, -2⟩ ∨ j.x = 0 := fun hcol => by
      rcases hcol _ hmem with hj | hj
      · exact absurd (congrArg V2d.x hj) (by decide)
      · exact absurd hj (by decide)
    rw [if_neg hcol] at hv'
    rw [hv', Int.cast_zero] at hy
    exact lt_irrefl _ hy
  · apply h.free k hT
    simp only [Over, lo, hi, hkx, hky, hf]
    push_cast
    refine ⟨⟨?_, ?_⟩, ?_, ?_⟩ <;> linarith

/-- The walls `T` end off the player, unless a corner is all that it meets. -/
theorem Contacts.not_over (h : Contacts F T ks)
    (hall : ShortensAll F.lo F.hi (ks.map Prod.fst) F.u v')
    (hcorner : ∀ k t, T k → Corner (F.lo k) (F.hi k) F.u t → ∃ j s, T j ∧ Side F j s)
    (hT : T k) : ¬Over F k v' := by
  rcases h.shape with hahead | ⟨t, hk, ht, hf, hside⟩ | ⟨t, hk, ht, hf, hside⟩
  · refine not_over_ahead hahead hall h.free (fun k hT ⟨t, ht⟩ => h.fst_mem_of_side hT ht) ?_ hT
    intro hT hx hy
    rcases touches_diagonal hx hy with ⟨t, hside⟩ | ⟨t, hcor⟩
    · exact ⟨_, h.fst_mem_of_side hT hside, t, hside⟩
    · obtain ⟨j, s, hTj, hside⟩ := hcorner _ t hT hcor
      exact ⟨j, h.fst_mem_of_side hTj hside, s, hside⟩
  · exact h.not_over_back hk ht hf hside hall hT
  · intro hover
    have hall' := shortensAll_swap hall
    rw [← map_fst_swapContact] at hall'
    exact h.swap.not_over_back (List.mem_map_of_mem hk) ht hf hside hall'
      (k := k.swap) hT hover.swap

theorem Contacts.eq_of_no_side (h : Contacts F T ks) (hno : ∀ k t, T k → ¬Side F k t)
    (hall : ShortensAll F.lo F.hi (ks.map Prod.fst) F.u v') : v' = F.u := by
  have hT : ∀ k ∈ ks.map Prod.fst, T k := fun k hk => by
    obtain ⟨⟨j, t⟩, hj, rfl⟩ := List.mem_map.mp hk
    exact ((h.mem_iff j t).mp hj).1
  generalize ks.map Prod.fst = js at hT hall
  induction js with
  | nil => exact hall
  | cons j js ih =>
      obtain ⟨v₁, hstep, hrest⟩ := hall
      have hTj := hT j List.mem_cons_self
      obtain rfl := hstep.eq_of_no_side (fun t hside => hno j t hTj (Or.inl hside))
        fun t hside => hno j t hTj (Or.inr hside)
      exact ih (fun k hk => hT k (List.mem_cons_of_mem j hk)) hrest

/-- A wall that is met at its corner is in the way of the whole move. -/
theorem over_of_corner (hfree : ¬Over F k ⟨0, 0⟩) (h : Corner (F.lo k) (F.hi k) F.u t) :
    Over F k F.u := by
  obtain ⟨rfl, ht⟩ := corner_lines hfree h
  obtain ⟨hmx, hmy, hx, hy, -, -, -, hlt⟩ := h
  obtain ⟨hux, hux'⟩ := F.u_x
  obtain ⟨huy, huy'⟩ := F.u_y
  obtain ⟨hfx, -⟩ := F.f_x
  obtain ⟨hfy, -⟩ := F.f_y
  have hposx : 0 < F.u.x := lt_of_le_of_ne hux hmx.symm
  have hposy : 0 < F.u.y := lt_of_le_of_ne huy hmy.symm
  rw [Slab.gap_of_nonneg hux, abs_of_nonneg hux] at hx
  rw [Slab.gap_of_nonneg huy, abs_of_nonneg huy] at hy
  have hltx : (F.lo ⟨0, 0⟩).x < F.u.x := hx ▸ mul_lt_of_lt_one_left hposx hlt
  have hlty : (F.lo ⟨0, 0⟩).y < F.u.y := hy ▸ mul_lt_of_lt_one_left hposy hlt
  simp only [Over, lo, hi, Int.cast_zero, add_zero] at hltx hlty ⊢
  refine ⟨⟨hltx, ?_⟩, hlty, ?_⟩ <;> linarith

/-- A wall met on a side at the displacement `v`. -/
def Hit (F : MoveFrame) (k : VI2d) (v : V2d ℚ) : Prop :=
  ∃ t, SideX (F.lo k) (F.hi k) v t ∨ SideY (F.lo k) (F.hi k) v t

theorem eq_of_not_hit (h : Shortens (F.lo k) (F.hi k) v v') (hfree : ¬Hit F k v) : v' = v :=
  h.eq_of_no_side (fun t hside => hfree ⟨t, Or.inl hside⟩) fun t hside => hfree ⟨t, Or.inr hside⟩

theorem Contacts.exists_mem_of_hit (h : Contacts F T ks) (hT : T k) (hhit : Hit F k F.u) :
    ∃ t, (k, t) ∈ ks := by
  obtain ⟨t, hside⟩ := hhit
  exact ⟨t, h.mem_of_side hT hside⟩

/-- A wall of the list is met on a side, or at the corner ahead. -/
theorem Contacts.hit_or_corner (h : Contacts F T ks) (hk : k ∈ ks.map Prod.fst) :
    T k ∧ (Hit F k F.u ∨ k = ⟨0, 0⟩) := by
  obtain ⟨⟨j, t⟩, hj, rfl⟩ := List.mem_map.mp hk
  obtain ⟨hT, n, htouch⟩ := (h.mem_iff j t).mp hj
  refine ⟨hT, ?_⟩
  cases htouch with
  | sideX hside => exact Or.inl ⟨t, Or.inl hside⟩
  | sideY hside => exact Or.inl ⟨t, Or.inr hside⟩
  | corner hcorner => exact Or.inr (corner_lines (h.free j hT) hcorner).1

/-- Stopped at the column ahead, the player passes the cell on the corner
and the rest of the column. -/
theorem not_hit_stopped {y : ℚ} (hy : 0 ≤ y ∧ y < 1) (hahead : Ahead k)
    (hrow : k.y ≠ 0 ∨ k = ⟨0, 0⟩) : ¬Hit F k ⟨F.f.x, y⟩ := by
  have hv : Onward ⟨F.f.x, y⟩ := ⟨F.f_x, hy⟩
  rintro ⟨t, hside | hside⟩
  · exact lt_irrefl _ (hahead.column hv hside).2.1
  · have hline := (hahead.swap.column (F := F.swap) hv.swap hside).1
    obtain rfl := hrow.resolve_left (not_not.mpr hline)
    obtain ⟨hlt, hmul⟩ :=
      (exists_sideX_corner_iff (F := F.swap) (v := ⟨y, F.f.x⟩) hv.swap).mp ⟨t, hside⟩
    have hmul' : F.f.x * y < F.f.y * F.f.x := hmul
    rw [mul_comm F.f.y] at hmul'
    exact hmul'.not_ge (mul_le_mul_of_nonneg_left hlt.le F.f_x.1)

theorem shortensAll_stopped {js : List VI2d} {y : ℚ} (hy : 0 ≤ y ∧ y < 1)
    (hjs : ∀ k ∈ js, Ahead k ∧ (k.y ≠ 0 ∨ k = ⟨0, 0⟩))
    (h : ShortensAll F.lo F.hi js ⟨F.f.x, y⟩ v') : v' = ⟨F.f.x, y⟩ := by
  induction js with
  | nil => exact h
  | cons j js ih =>
      obtain ⟨v₁, hstep, hrest⟩ := h
      obtain ⟨hahead, hrow⟩ := hjs j List.mem_cons_self
      rw [eq_of_not_hit hstep (not_hit_stopped hy hahead hrow)] at hrest
      exact ih (fun k hk => hjs k (List.mem_cons_of_mem j hk)) hrest

/-- The row ahead is met at the corner only after the column. -/
theorem column_before_row (hx : k.x = 0) (h : SideX (F.lo k) (F.hi k) F.u s)
    (hcorner : SideY (F.lo ⟨0, 0⟩) (F.hi ⟨0, 0⟩) F.u t) : s < t := by
  obtain ⟨hpos, hmeets, -⟩ := (sideX_iff onward_u).mp h
  obtain ⟨-, -, ⟨henter, -, -⟩, -⟩ :=
    (sideX_iff (F := F.swap) (k := ⟨0, 0⟩) (onward_u (F := F.swap))).mp hcorner
  have hlt : F.f.x + ((0 : ℤ) : ℚ) < t * F.u.x := henter
  rw [hx] at hmeets
  exact lt_of_mul_lt_mul_right (hmeets ▸ hlt) hpos.le

/-- A run in which the column ahead is met stops at it. -/
theorem stopped_of_column {cs : List (VI2d × ℚ)} {j : VI2d}
    (hcs : ∀ k ∈ cs.map Prod.fst, Ahead k ∧ (k.y ≠ 0 ∨ k = ⟨0, 0⟩))
    (htime : ∀ k t t', (k, t) ∈ cs → SideY (F.lo k) (F.hi k) F.u t' → t' = t)
    (hsorted : cs.Pairwise fun a b => a.2 ≤ b.2) (hj : (j, s) ∈ cs) (hx : j.x = 0)
    (hside : SideX (F.lo j) (F.hi j) F.u s)
    (hall : ShortensAll F.lo F.hi (cs.map Prod.fst) F.u v') : v' = ⟨F.f.x, F.u.y⟩ := by
  induction cs with
  | nil => exact absurd hj List.not_mem_nil
  | cons c cs ih =>
      obtain ⟨k, t⟩ := c
      obtain ⟨v₁, hstep, hrest⟩ := hall
      obtain ⟨hahead, hrow⟩ := hcs k List.mem_cons_self
      have hcs' := fun i hi => hcs i (List.mem_cons_of_mem k hi)
      rcases hstep with ⟨t', hX, rfl⟩ | ⟨t', hY, -⟩ | ⟨hnotX, -, rfl⟩
      · rw [(hahead.column onward_u hX).2.2] at hrest
        exact shortensAll_stopped F.u_y hcs' hrest
      · exfalso
        have hline := (hahead.swap.column (F := F.swap) (onward_u (F := F.swap)) hY).1
        obtain rfl := hrow.resolve_left (not_not.mpr hline)
        have hlt := column_before_row hx hside hY
        rw [htime _ t t' List.mem_cons_self hY] at hlt
        rcases List.mem_cons.mp hj with heq | hj
        · obtain rfl : s = t := congrArg Prod.snd heq
          exact lt_irrefl _ hlt
        · exact hlt.not_ge (List.rel_of_pairwise_cons hsorted hj)
      · rcases List.mem_cons.mp hj with heq | hj
        · obtain ⟨rfl, rfl⟩ := Prod.mk.inj heq
          exact (hnotX s hside).elim
        · exact ih hcs' (fun i r r' hi => htime i r r' (List.mem_cons_of_mem _ hi))
            hsorted.of_cons hj hrest

theorem Contacts.stopped_of_column (h : Contacts F T ks)
    (hahead : ∀ k ∈ ks.map Prod.fst, Ahead k)
    (hrow : ∀ k, T k → Hit F k F.u → k.y ≠ 0 ∨ k = ⟨0, 0⟩) {j : VI2d} (hT : T j) (hx : j.x = 0)
    (hside : SideX (F.lo j) (F.hi j) F.u s)
    (hall : ShortensAll F.lo F.hi (ks.map Prod.fst) F.u v') : v' = ⟨F.f.x, F.u.y⟩ := by
  refine MoveFrame.stopped_of_column (fun k hk => ⟨hahead k hk, ?_⟩) (fun k t t' hk hY => ?_)
    h.sorted (h.mem_of_side hT (Or.inl hside)) hx hside hall
  · obtain ⟨hTk, hhit | hcorner⟩ := h.hit_or_corner hk
    · exact hrow k hTk hhit
    · exact Or.inr hcorner
  · obtain ⟨-, n, htouch⟩ := (h.mem_iff k t).mp hk
    exact (Touches.sideY hY).time_eq htouch

/-- The factors at which the contacts of the start velocity stop an axis. -/
def StopX (F : MoveFrame) (T : VI2d → Prop) (s : ℚ) : Prop :=
  (∃ k, T k ∧ SideX (F.lo k) (F.hi k) F.u s) ∨
    s = 1 ∧ ∀ k t, T k → ¬SideX (F.lo k) (F.hi k) F.u t

def StopY (F : MoveFrame) (T : VI2d → Prop) (s : ℚ) : Prop := StopX F.swap (fun k => T k.swap) s

/-- Off the row ahead, a wall ahead is met on the x-axis. -/
theorem Contacts.sideX_of_column (h : Contacts F T ks) (hk : (k, t) ∈ ks) (hahead : Ahead k)
    (hrow : k.y ≠ 0) : k.x = 0 ∧ SideX (F.lo k) (F.hi k) F.u t := by
  obtain ⟨hT, n, htouch⟩ := (h.mem_iff k t).mp hk
  cases htouch with
  | sideX hside => exact ⟨(hahead.column onward_u hside).1, hside⟩
  | sideY hside =>
      exact absurd (hahead.swap.column (F := F.swap) (onward_u (F := F.swap)) hside).1 hrow
  | corner hcorner =>
      obtain ⟨rfl, -⟩ := corner_lines (h.free k hT) hcorner
      exact absurd rfl hrow

theorem Contacts.not_sideY_of_row (h : Contacts F T ks)
    (hahead : ∀ k ∈ ks.map Prod.fst, Ahead k) (hrow : ∀ k, T k → k.y ≠ 0) (hT : T k) :
    ¬SideY (F.lo k) (F.hi k) F.u t := by
  intro hside
  have hmem := h.fst_mem_of_side hT (Or.inr hside : Side F k t)
  exact hrow k hT
    ((hahead k hmem).swap.column (F := F.swap) (onward_u (F := F.swap)) hside).1

/-- Without walls in the row ahead and without one behind, the x-axis is
stopped at once or not at all. -/
theorem Contacts.move_of_row_ahead (h : Contacts F T ks)
    (hahead : ∀ k ∈ ks.map Prod.fst, Ahead k) (hrow : ∀ k, T k → k.y ≠ 0)
    (hall : ShortensAll F.lo F.hi (ks.map Prod.fst) F.u v') {sx sy : ℚ}
    (hsx : StopX F T sx) (hsy : StopY F T sy) : v' = ⟨F.u.x * sx, F.u.y * sy⟩ := by
  obtain rfl : sy = 1 := by
    rcases hsy with ⟨k, hTk, hside⟩ | ⟨hone, -⟩
    · exact (h.not_sideY_of_row (k := k.swap) hahead hrow hTk hside).elim
    · exact hone
  rcases hsx with ⟨k, hTk, hside⟩ | ⟨rfl, hno⟩
  · have hmem := h.fst_mem_of_side hTk (Or.inl hside : Side F k sx)
    have hx := ((hahead k hmem).column onward_u hside).1
    obtain ⟨-, hmeets, -⟩ := (sideX_iff onward_u).mp hside
    rw [hx, Int.cast_zero, add_zero] at hmeets
    rw [h.stopped_of_column hahead (fun k hT _ => Or.inl (hrow k hT)) hTk hx hside hall,
      mul_one, mul_comm, hmeets]
  · rw [mul_one, mul_one]
    refine h.eq_of_no_side (fun k t hT hside => ?_) hall
    exact hside.elim (hno k t hT) (h.not_sideY_of_row hahead hrow hT)

/-- Sent back on the y-axis, the player is stopped at once by what is ahead
on the x-axis. -/
theorem Contacts.move_of_row_back (h : Contacts F T ks) (hrow : ∀ k, T k → k.y ≠ 0)
    (hf : 0 < F.f.y) (hk : (⟨-2, -1⟩, t) ∈ ks) (ht : t < 0) (hfx : F.f.x = 0)
    (hside : SideY (F.lo ⟨-2, -1⟩) (F.hi ⟨-2, -1⟩) F.u t)
    (hall : ShortensAll F.lo F.hi (ks.map Prod.fst) F.u v') {sx sy : ℚ}
    (hsx : StopX F T sx) (hsy : StopY F T sy) : v' = ⟨F.u.x * sx, F.u.y * sy⟩ := by
  have hT : ∀ k ∈ ks.map Prod.fst, T k := fun k hk => (h.hit_or_corner hk).1
  have hahead : ∀ k ∈ ks.map Prod.fst, k ≠ ⟨-2, -1⟩ → Ahead k := by
    intro k hk hne
    obtain ⟨⟨j, s⟩, hj, rfl⟩ := List.mem_map.mp hk
    rcases h.kind hj with ⟨hahead, -⟩ | ⟨-, hzero, -⟩ | ⟨heq, -⟩
    · exact hahead
    · exact absurd hzero hf.ne'
    · exact absurd heq hne
  rw [h.move_back_y hk ht hfx hside hall]
  refine V2d.ext ?_ ?_
  · rcases hsx with ⟨k, hTk, hsideX⟩ | ⟨rfl, hno⟩
    · have hmem := h.fst_mem_of_side hTk (Or.inl hsideX : Side F k sx)
      have hne : k ≠ ⟨-2, -1⟩ := by
        rintro rfl
        exact hsideX.not_sideY hside
      obtain ⟨-, hmeets, -⟩ := (sideX_iff onward_u).mp hsideX
      rw [((hahead k hmem hne).column onward_u hsideX).1, Int.cast_zero, add_zero, hfx] at hmeets
      rw [if_neg fun hall => (hall k hmem).elim hne (hrow k hTk), mul_comm, hmeets]
    · rw [if_pos, mul_one]
      intro k hk
      refine or_iff_not_imp_left.mpr fun hne => ?_
      obtain ⟨⟨j, s⟩, hj, rfl⟩ := List.mem_map.mp hk
      have hTj := hT _ hk
      exact (hno j s hTj (h.sideX_of_column hj (hahead j hk hne) (hrow j hTj)).2).elim
  · rcases hsy with ⟨k, hTk, hsideY⟩ | ⟨-, hno⟩
    · have hmem := h.fst_mem_of_side hTk (Or.inr hsideY : Side F k.swap sy)
      have heq : k.swap = ⟨-2, -1⟩ := by
        by_contra hne
        exact absurd ((hahead _ hmem hne).swap.column (F := F.swap)
          (onward_u (F := F.swap)) hsideY).1 (hrow _ hTk)
      obtain ⟨-, hmeets, -⟩ := (sideX_iff (F := F.swap) (onward_u (F := F.swap))).mp hsideY
      obtain rfl : k = ⟨-1, -2⟩ := congrArg V2d.swap heq
      have hmeets' : sy * F.u.y = F.f.y + ((-1 : ℤ) : ℚ) := hmeets
      push_cast at hmeets'
      rw [mul_comm F.u.y, hmeets', sub_eq_add_neg]
    · exact absurd hside (hno ⟨-1, -2⟩ t (hT _ (List.mem_map.mpr ⟨_, hk, rfl⟩)))

/-- Without walls in the row ahead, the end of the move is decided at the
start. -/
theorem Contacts.move_of_row (h : Contacts F T ks) (hrow : ∀ k, T k → k.y ≠ 0)
    (hf : 0 < F.f.y) (hall : ShortensAll F.lo F.hi (ks.map Prod.fst) F.u v') {sx sy : ℚ}
    (hsx : StopX F T sx) (hsy : StopY F T sy) : v' = ⟨F.u.x * sx, F.u.y * sy⟩ := by
  rcases h.shape with hahead | ⟨t, -, -, hzero, -⟩ | ⟨t, hk, ht, hfx, hside⟩
  · exact h.move_of_row_ahead hahead hrow hall hsx hsy
  · exact absurd hzero hf.ne'
  · exact h.move_of_row_back hrow hf hk ht hfx hside hall hsx hsy

theorem Contacts.move_of_column (h : Contacts F T ks) (hcol : ∀ k, T k → k.x ≠ 0)
    (hf : 0 < F.f.x) (hall : ShortensAll F.lo F.hi (ks.map Prod.fst) F.u v') {sx sy : ℚ}
    (hsx : StopX F T sx) (hsy : StopY F T sy) : v' = ⟨F.u.x * sx, F.u.y * sy⟩ := by
  have hall' := shortensAll_swap hall
  rw [← map_fst_swapContact] at hall'
  exact congrArg V2d.swap (h.swap.move_of_row (fun k hk => hcol k.swap hk) hf hall' hsy hsx)

theorem exists_stopX (F : MoveFrame) (T : VI2d → Prop) : ∃ s, StopX F T s := by
  by_cases h : ∃ s k, T k ∧ SideX (F.lo k) (F.hi k) F.u s
  · obtain ⟨s, hs⟩ := h
    exact ⟨s, Or.inl hs⟩
  · exact ⟨1, Or.inr ⟨rfl, fun k t hT hside => h ⟨t, k, hT, hside⟩⟩⟩

/-! Both axes may be sent back, but never by more than to the line level with
the player. -/

theorem StopX.bounds {s : ℚ} (h : StopX F T s) :
    F.f.x - 1 ≤ F.u.x * s ∧ F.u.x * s < 1 := by
  obtain ⟨hfx, hfx'⟩ := F.f_x
  obtain ⟨hux, hux'⟩ := F.u_x
  rcases h with ⟨k, hT, hside⟩ | ⟨rfl, -⟩
  · obtain ⟨-, hmeets, -, -, -, hge, hlt⟩ := (sideX_iff onward_u).mp hside
    rw [mul_comm, hmeets]
    have hline : k.x = 0 ∨ k.x = -1 := by
      rcases sideX_lines onward_u hside with hx | hx
      · exact Or.inl hx.1
      · exact Or.inr hx.1
    rcases hline with hx | hx
    · rw [hx, Int.cast_zero]
      constructor <;> linarith
    · rw [hx, Int.cast_neg, Int.cast_one]
      constructor <;> linarith
  · rw [mul_one]
    constructor <;> linarith

theorem Contacts.bounds (h : Contacts F T ks)
    (hall : ShortensAll F.lo F.hi (ks.map Prod.fst) F.u v') :
    (F.f.x - 1 ≤ v'.x ∧ v'.x < 1) ∧ F.f.y - 1 ≤ v'.y ∧ v'.y < 1 := by
  obtain ⟨hfx, hfx'⟩ := F.f_x
  obtain ⟨hux, hux'⟩ := F.u_x
  obtain ⟨hfy, hfy'⟩ := F.f_y
  obtain ⟨huy, huy'⟩ := F.u_y
  rcases h.shape with hahead | ⟨t, hk, ht, hf, hside⟩ | ⟨t, hk, ht, hf, hside⟩
  · obtain ⟨⟨hx, hx'⟩, hy, hy'⟩ := (slowsAll_ahead onward_u hahead hall).1
    refine ⟨⟨?_, hx'⟩, ?_, hy'⟩ <;> linarith
  · rw [h.move_back hk ht hf hside hall]
    dsimp only
    refine ⟨⟨le_rfl, by linarith⟩, ?_⟩
    split_ifs
    · constructor <;> linarith
    · constructor <;> linarith
  · rw [h.move_back_y hk ht hf hside hall]
    dsimp only
    refine ⟨?_, le_rfl, by linarith⟩
    split_ifs
    · constructor <;> linarith
    · constructor <;> linarith

end MoveFrame

end AmongUs
