import AmongUs.Collision.Penetration

/-!
The run over the eight cells against the run over all of them.

The two runs differ only in the walls on the lines ahead, and only when
such a line is not among the tested ones. As long as no tested wall is met
on a side, the first run does not change the motion, and the second one does
as soon as it meets a wall on a side (`Contacts.eq_u_iff`). Otherwise the
tested wall either sends the player back (`Contacts.move_back_y`) or stops
it at the column ahead, and then of the row ahead only the cell on the
corner no longer matters (`not_hit_stopped`, `hit_beside`).
-/

namespace AmongUs

namespace MoveFrame

variable {F : MoveFrame} {T T' : VI2d → Prop} {ks ks' : List (VI2d × ℚ)} {k : VI2d}
  {v v' v'' : V2d ℚ} {s t : ℚ}

/-- Each further wall of `T'` is out of the way after the response to one
wall of `T`. -/
def Spared (F : MoveFrame) (T T' : VI2d → Prop) : Prop :=
  ∀ k, T' k → ¬T k → Hit F k F.u →
    ∃ j v, T j ∧ Shortens (F.lo j) (F.hi j) F.u v ∧ ¬Hit F k v

theorem Hit.swap (h : Hit F k v) : Hit F.swap k.swap v.swap := h.imp fun _ => Or.symm

theorem Spared.swap (h : Spared F T T') :
    Spared F.swap (fun k => T k.swap) fun k => T' k.swap := by
  intro k hT' hT hhit
  obtain ⟨j, v, hTj, hstep, hfree⟩ := h k.swap hT' hT hhit.swap
  exact ⟨j.swap, v.swap, hTj, hstep.swap, fun h => hfree h.swap⟩

/-- The motion stays as it is exactly when no wall is met on a side. -/
theorem Contacts.eq_u_iff (h : Contacts F T ks)
    (hall : ShortensAll F.lo F.hi (ks.map Prod.fst) F.u v') :
    v' = F.u ↔ ∀ k, T k → ¬Hit F k F.u := by
  constructor
  · intro heq k hT hhit
    obtain ⟨hux, -⟩ := F.u_x
    obtain ⟨huy, -⟩ := F.u_y
    rcases h.shape with hahead | ⟨t, hk, ht, hf, hside⟩ | ⟨t, hk, ht, hf, hside⟩
    · obtain ⟨s, hs⟩ := hhit
      exact ne_of_side onward_u hahead hall ⟨k, h.fst_mem_of_side hT hs, s, hs⟩ heq
    · have hx : F.u.x = F.f.x - 1 := by rw [← heq, h.move_back hk ht hf hside hall]
      linarith [F.f_x.2]
    · have hy : F.u.y = F.f.y - 1 := by rw [← heq, h.move_back_y hk ht hf hside hall]
      linarith [F.f_y.2]
  · intro hno
    exact h.eq_of_no_side (fun k t hT hside => hno k hT ⟨t, hside⟩) hall

/-- A wall behind the player in the row ahead is in the way also after a stop
at the column. -/
theorem behind_of_hit (hf : 0 < F.f.y) (h : ∃ t, SideY (F.lo ⟨-2, 0⟩) (F.hi ⟨-2, 0⟩) F.u t)
    {x : ℚ} (hx : x = F.u.x ∨ x = F.f.x) :
    F.f.y < F.u.y ∧ F.f.y * x ≤ F.f.x * F.u.y ∧ (x = 0 → 0 < F.f.x) := by
  have hmet := (exists_sideX_behind_iff (F := F.swap) (onward_u (F := F.swap))).mp h
  obtain ⟨hlt, hmul, hstill⟩ :
    F.f.y < F.u.y ∧ F.f.y * F.u.x ≤ F.f.x * F.u.y ∧ (F.u.x = 0 → 0 < F.f.x) := hmet
  rcases hx with rfl | rfl
  · exact ⟨hlt, hmul, hstill⟩
  · have hpos : 0 < F.f.x := by
      refine lt_of_le_of_ne F.f_x.1 fun hzero => ?_
      rw [← hzero, zero_mul] at hmul
      have hux : F.u.x ≤ 0 := by
        by_contra hlt'
        exact hmul.not_gt (mul_pos hf (not_le.mp hlt'))
      exact (hstill (le_antisymm hux F.u_x.1)).ne hzero
    rw [mul_comm F.f.y]
    exact ⟨hlt, mul_le_mul_of_nonneg_left hlt.le hpos.le, fun _ => hpos⟩

/-- Beside the corner, the row ahead is met also after a stop at the column. -/
theorem hit_beside (hf : 0 < F.f.y) (hy : k.y = 0) (hx : k.x = -1 ∨ k.x = -2)
    (h : Hit F k F.u) : F.f.y < F.u.y ∧ Hit F k ⟨F.f.x, F.u.y⟩ := by
  obtain ⟨t, hX | hY⟩ := h
  · exfalso
    rcases sideX_lines onward_u hX with hcol | hcol
    · omega
    · omega
  · have hv : Onward ⟨F.u.y, F.f.x⟩ := ⟨F.u_y, F.f_x⟩
    rcases hx with hx | hx
    · obtain rfl : k = ⟨-1, 0⟩ := V2d.ext hx hy
      have hlt := (exists_sideX_level_iff (F := F.swap) (onward_u (F := F.swap))).mp ⟨t, hY⟩
      obtain ⟨t', ht'⟩ := (exists_sideX_level_iff (F := F.swap) hv).mpr hlt
      exact ⟨hlt, t', Or.inr ht'⟩
    · obtain rfl : k = ⟨-2, 0⟩ := V2d.ext hx hy
      have hbehind := behind_of_hit hf ⟨t, hY⟩ (Or.inr rfl)
      obtain ⟨t', ht'⟩ := (exists_sideX_behind_iff (F := F.swap) hv).mpr hbehind
      exact ⟨hbehind.1, t', Or.inr ht'⟩

/-- It stops the y-axis, whatever comes before it. -/
theorem row_stops {js : List VI2d} (hf : 0 < F.f.y) (hjs : ∀ j ∈ js, Ahead j)
    (h : ShortensAll F.lo F.hi js F.u v') (hk : k ∈ js) (hy : k.y = 0)
    (hx : k.x = -1 ∨ k.x = -2) (hhit : Hit F k F.u) : v'.y ≤ F.f.y := by
  have hjs' : ∀ j ∈ js.map V2d.swap, Ahead j := fun j hj => by
    obtain ⟨i, hi, rfl⟩ := List.mem_map.mp hj
    exact (hjs i hi).swap
  have hk' : k.swap ∈ js.map V2d.swap := List.mem_map_of_mem hk
  have hv : Onward F.u.swap := onward_u.swap
  rcases hx with hx | hx
  · obtain rfl : k = ⟨-1, 0⟩ := V2d.ext hx hy
    exact level_stops (F := F.swap) hv hjs' (shortensAll_swap h) hk'
  · obtain rfl : k = ⟨-2, 0⟩ := V2d.ext hx hy
    obtain ⟨t, hX | hY⟩ := hhit
    · exfalso
      rcases sideX_lines onward_u hX with hcol | hcol
      · exact absurd hcol.1 (by decide)
      · exact absurd hcol.1 (by decide)
    · refine behind_stops (F := F.swap) hv hjs' (shortensAll_swap h) hk' fun w _ hwx hwy _ => ?_
      have hx' : w.y = F.u.x ∨ w.y = F.f.x := hwy.imp id And.left
      rw [hwx]
      exact (behind_of_hit hf ⟨t, hY⟩ hx').2

section Runs

variable (h : Contacts F T ks) (hall : ShortensAll F.lo F.hi (ks.map Prod.fst) F.u v')
  (h' : Contacts F T' ks') (hall' : ShortensAll F.lo F.hi (ks'.map Prod.fst) F.u v'')

include h hall h' hall'

theorem eq_iff_spared_of_free (hno : ∀ k, T k → ¬Hit F k F.u) : v' = v'' ↔ Spared F T T' := by
  rw [(h.eq_u_iff hall).mpr hno, eq_comm, h'.eq_u_iff hall']
  constructor
  · intro hno' k hT' _ hhit
    exact (hno' k hT' hhit).elim
  · intro hspared k hT' hhit
    obtain ⟨j, v, hT, hstep, hfree⟩ := hspared k hT' (fun hT => hno k hT hhit) hhit
    exact hfree (eq_of_not_hit hstep (hno j hT) ▸ hhit)

section Row

variable (hsub : ∀ k, T k → Hit F k F.u → T' k)

include hsub

/-- With the player stopped at the column ahead, the corner of the row ahead
no longer matters and the rest of the row still does. -/
theorem eq_iff_spared_of_column (hrow : ∀ k, T k → k.y ≠ 0) (hf : 0 < F.f.y)
    (hahead : ∀ k ∈ ks.map Prod.fst, Ahead k) (hahead' : ∀ k ∈ ks'.map Prod.fst, Ahead k)
    {j : VI2d} (hT : T j) (hx : j.x = 0) (hside : SideX (F.lo j) (F.hi j) F.u s) : v' = v'' ↔ Spared F T T' := by
  have hmem : ∀ k, T' k → Hit F k F.u → k ∈ ks'.map Prod.fst := fun k hT' hhit => by
    obtain ⟨t, ht⟩ := h'.exists_mem_of_hit hT' hhit
    exact List.mem_map.mpr ⟨_, ht, rfl⟩
  have hv' := h.stopped_of_column hahead (fun k hT _ => Or.inl (hrow k hT)) hT hx hside hall
  have hT' := hsub j hT ⟨s, Or.inl hside⟩
  by_cases hbeside : ∃ k, T' k ∧ Hit F k F.u ∧ k.y = 0 ∧ k.x ≠ 0
  · obtain ⟨k, hTk, hhit, hky, hkx⟩ := hbeside
    have hline : k.x = -1 ∨ k.x = -2 :=
      ((hahead' k (hmem k hTk hhit)).resolve_left fun h => hkx h.1).2
    obtain ⟨hlt, hstopped⟩ := hit_beside hf hky hline hhit
    refine iff_of_false ?_ ?_
    · rintro rfl
      have hle := row_stops hf hahead' hall' (hmem k hTk hhit) hky hline hhit
      rw [hv'] at hle
      exact hlt.not_ge hle
    · intro hspared
      obtain ⟨i, v, hTi, hstep, hfree⟩ := hspared k hTk (fun hTk => hrow k hTk hky) hhit
      by_cases hi : Hit F i F.u
      · obtain ⟨t, ht⟩ := h.exists_mem_of_hit hTi hi
        have haheadi := hahead i (List.mem_map.mpr ⟨_, ht, rfl⟩)
        rcases shortens_ahead onward_u haheadi hstep with ⟨-, -, rfl⟩ | ⟨hiy, -⟩ | ⟨-, -, rfl⟩
        · exact hfree hstopped
        · exact hrow i hTi hiy
        · exact hfree hhit
      · exact hfree (eq_of_not_hit hstep hi ▸ hhit)
  · have hrow' : ∀ k, T' k → Hit F k F.u → k.y ≠ 0 ∨ k = ⟨0, 0⟩ := by
      intro k hTk hhit
      by_cases hky : k.y = 0
      · by_cases hkx : k.x = 0
        · exact Or.inr (V2d.ext hkx hky)
        · exact (hbeside ⟨k, hTk, hhit, hky, hkx⟩).elim
      · exact Or.inl hky
    refine iff_of_true ?_ fun k hTk _ hhit => ?_
    · rw [hv', h'.stopped_of_column hahead' hrow' hT' hx hside hall']
    · refine ⟨j, ⟨F.f.x, F.u.y⟩, hT, Or.inl ⟨s, hside, ?_⟩,
        not_hit_stopped F.u_y (hahead' k (hmem k hTk hhit)) (hrow' k hTk hhit)⟩
      rw [((hahead' j (hmem j hT' ⟨s, Or.inl hside⟩)).column onward_u hside).2.2]

variable (hrest : ∀ k, T' k → Hit F k F.u → T k ∨ k.y = 0)

include hrest

/-- Sent back on the y-axis, the player passes all walls of the row ahead. -/
theorem eq_and_spared_of_back (hk : (⟨-2, -1⟩, t) ∈ ks) (ht : t < 0) (hf : F.f.x = 0)
    (hside : SideY (F.lo ⟨-2, -1⟩) (F.hi ⟨-2, -1⟩) F.u t) : v' = v'' ∧ Spared F T T' := by
  have hT : T ⟨-2, -1⟩ := ((h.mem_iff _ _).mp hk).1
  have hk' := h'.mem_of_side (hsub _ hT ⟨t, Or.inr hside⟩) (Or.inr hside)
  constructor
  · have hiff : (∀ k ∈ ks.map Prod.fst, k = ⟨-2, -1⟩ ∨ k.y = 0) ↔
        ∀ k ∈ ks'.map Prod.fst, k = ⟨-2, -1⟩ ∨ k.y = 0 := by
      constructor
      · intro hrow k hk
        obtain ⟨hT', hhit | rfl⟩ := h'.hit_or_corner hk
        · rcases hrest k hT' hhit with hT | hzero
          · obtain ⟨s, hs⟩ := h.exists_mem_of_hit hT hhit
            exact hrow k (List.mem_map.mpr ⟨_, hs, rfl⟩)
          · exact Or.inr hzero
        · exact Or.inr rfl
      · intro hrow k hk
        obtain ⟨hT, hhit | rfl⟩ := h.hit_or_corner hk
        · obtain ⟨s, hs⟩ := h'.exists_mem_of_hit (hsub k hT hhit) hhit
          exact hrow k (List.mem_map.mpr ⟨_, hs, rfl⟩)
        · exact Or.inr rfl
    rw [h.move_back_y hk ht hf hside hall, h'.move_back_y hk' ht hf hside hall']
    simp only [hiff]
  · intro k hT' hTk hhit
    have hline : k.y = 0 := (hrest k hT' hhit).resolve_left hTk
    have hfy : 0 < F.f.y := (pos_of_back (F := F.swap) hside).1
    obtain ⟨s, hs⟩ := h'.exists_mem_of_hit hT' hhit
    have hahead : Ahead k := by
      rcases h'.kind hs with ⟨hahead, -⟩ | ⟨rfl, -⟩ | ⟨rfl, -⟩
      · exact hahead
      · exact absurd hline (by decide)
      · exact absurd hline (by decide)
    refine ⟨⟨-2, -1⟩, ⟨F.u.x, F.f.y - 1⟩, hT, Or.inr (Or.inl ⟨t, hside, ?_⟩), ?_⟩
    · rw [Slab.face_of_nonneg F.u_y.1, lo]
      dsimp only
      rw [Int.cast_neg, Int.cast_one, ← sub_eq_add_neg]
    · rintro ⟨r, hX | hY⟩
      · exact ne_zero_of_back (F := F.swap) (k := k.swap) hfy hX hline
      · exact not_sideX_back (F := F.swap) (k := k.swap) hfy hf F.u_x.1 hahead.swap hY

/-- The runs over walls `T` off the row ahead and over all walls `T'`. -/
theorem eq_iff_spared_of_row (hrow : ∀ k, T k → k.y ≠ 0) (hf : 0 < F.f.y)
    (hhit : ∃ j, T j ∧ Hit F j F.u) : v' = v'' ↔ Spared F T T' := by
  have hmem : ∀ k t, (k, t) ∈ ks' → k.y ≠ 0 → k ∈ ks.map Prod.fst := by
    intro k t hk hky
    obtain ⟨hT', hhit | rfl⟩ := h'.hit_or_corner (List.mem_map.mpr ⟨_, hk, rfl⟩)
    · obtain ⟨s, hs⟩ := h.exists_mem_of_hit ((hrest k hT' hhit).resolve_right hky) hhit
      exact List.mem_map.mpr ⟨_, hs, rfl⟩
    · exact absurd rfl hky
  rcases h.shape with hahead | ⟨t, -, -, hzero, -⟩ | ⟨t, hk, ht, hfx, hside⟩
  · obtain ⟨j, hT, hhit⟩ := hhit
    obtain ⟨s, hs⟩ := h.exists_mem_of_hit hT hhit
    obtain ⟨hx, hside⟩ :=
      h.sideX_of_column hs (hahead j (List.mem_map.mpr ⟨_, hs, rfl⟩)) (hrow j hT)
    have hahead' : ∀ k ∈ ks'.map Prod.fst, Ahead k := by
      intro k hk
      obtain ⟨⟨k, t⟩, hkt, rfl⟩ := List.mem_map.mp hk
      rcases h'.kind hkt with ⟨hahead, -⟩ | ⟨-, hzero, -⟩ | ⟨rfl, -⟩
      · exact hahead
      · exact absurd hzero hf.ne'
      · exact hahead _ (hmem _ t hkt (by simp))
    exact eq_iff_spared_of_column h hall h' hall' hsub hrow hf hahead hahead' hT hx hside
  · exact absurd hzero hf.ne'
  · obtain ⟨heq, hspared⟩ := eq_and_spared_of_back h hall h' hall' hsub hrest hk ht hfx hside
    exact iff_of_true heq hspared

end Row

end Runs

theorem eq_iff_spared_of_row_swap (h : Contacts F T ks)
    (hall : ShortensAll F.lo F.hi (ks.map Prod.fst) F.u v') (h' : Contacts F T' ks')
    (hall' : ShortensAll F.lo F.hi (ks'.map Prod.fst) F.u v'')
    (hsub : ∀ k, T k → Hit F k F.u → T' k) (hrest : ∀ k, T' k → Hit F k F.u → T k ∨ k.x = 0)
    (hcol : ∀ k, T k → k.x ≠ 0) (hf : 0 < F.f.x) (hhit : ∃ j, T j ∧ Hit F j F.u) :
    v' = v'' ↔ Spared F T T' := by
  have hswap := shortensAll_swap hall
  have hswap' := shortensAll_swap hall'
  rw [← map_fst_swapContact] at hswap hswap'
  obtain ⟨j, hT, hj⟩ := hhit
  have hiff := eq_iff_spared_of_row h.swap hswap h'.swap hswap'
    (fun k hT hhit => hsub k.swap hT hhit.swap) (fun k hT' hhit => hrest k.swap hT' hhit.swap)
    (fun k hT => hcol k.swap hT) hf ⟨j.swap, hT, hj.swap⟩
  constructor
  · intro heq
    exact (hiff.mp (congrArg V2d.swap heq)).swap
  · intro hspared
    exact congrArg V2d.swap (hiff.mpr hspared.swap)

/-- Behind both lines ahead nothing is met. -/
theorem Contacts.not_hit_behind (h : Contacts F T ks) (hcol : ∀ k, T k → k.x ≠ 0)
    (hrow : ∀ k, T k → k.y ≠ 0) (hfx : 0 < F.f.x) (hfy : 0 < F.f.y) (hT : T k) :
    ¬Hit F k F.u := by
  intro hhit
  obtain ⟨t, ht⟩ := h.exists_mem_of_hit hT hhit
  rcases h.kind ht with ⟨hahead, -⟩ | ⟨-, hzero, -⟩ | ⟨-, hzero, -⟩
  · exact hahead.elim (fun hk => hcol k hT hk.1) fun hk => hrow k hT hk.1
  · exact hfy.ne' hzero
  · exact hfx.ne' hzero

theorem lines_of_touches {n : V2d ℚ} (hfree : ¬Over F k ⟨0, 0⟩)
    (h : Touches (F.lo k) (F.hi k) F.u t n) :
    (k.x = 0 ∨ k.x = -1 ∨ k.x = -2) ∧ (k.y = 0 ∨ k.y = -1 ∨ k.y = -2) := by
  cases h with
  | sideX hside =>
      have hlines := sideX_lines onward_u hside
      omega
  | sideY hside =>
      have hlines := sideX_lines (F := F.swap) (k := k.swap) (onward_u (F := F.swap)) hside
      simp only [V2d.swap_x, V2d.swap_y] at hlines
      omega
  | corner hcorner =>
      obtain ⟨rfl, -⟩ := corner_lines hfree hcorner
      exact ⟨Or.inl rfl, Or.inl rfl⟩

end MoveFrame

section Runs

variable {world : World} {p v d d' d'' : V2d ℚ} {e t : ℚ} {c : VI2d} {cells : List VI2d}

/-- The player meets the cell, and not at a corner. -/
def MetOnSide (player : Rect) (elapsedTime : Extended ℚ) (c : VI2d) : Prop :=
  ∃ k, dynamicRectVsRect player elapsedTime (cellRect c) = some k ∧ k.normal ≠ .fin ⟨0, 0⟩

/-- Each wall outside the tested cells that the player would meet on a side
is out of the way after the response to some one tested wall. -/
def NeighboursSuffice (world : World) (p v : V2d ℚ) (e : ℚ) : Prop :=
  let player := playerRect (.fin p) (.fin v)
  ∀ c ∉ surroundingCells (.fin p), (world.getCell c).wall → MetOnSide player (.fin e) c →
    ∃ c' ∈ surroundingCells (.fin p), (world.getCell c').wall ∧
      ¬MetOnSide (resolveDynamicRectVsRect player (.fin e) (cellRect c')).1 (.fin e) c

theorem metOnSide_iff : MetOnSide (playerRect (.fin p) (.fin v)) (.fin e) c ↔
    ∃ t, SideX (cellLo p c) (cellHi p c) (v * e) t ∨ SideY (cellLo p c) (cellHi p c) (v * e) t :=
  contactWith_side_iff

theorem hit_frame_iff (hx : |d.x| < 1) (hy : |d.y| < 1) :
    MoveFrame.Hit (frameOf p d hx hy) (lineOf p d c) (turn (turnedAxes d) (v * e)) ↔
      MetOnSide (playerRect (.fin p) (.fin v)) (.fin e) c := by
  rw [metOnSide_iff, MoveFrame.Hit, frameOf_lo, frameOf_hi]
  simp only [sideX_turn, sideY_turn]

theorem shortens_frame (hx : |d.x| < 1) (hy : |d.y| < 1)
    (h : Shortens (cellLo p c) (cellHi p c) d d') :
    Shortens ((frameOf p d hx hy).lo (lineOf p d c)) ((frameOf p d hx hy).hi (lineOf p d c))
      (frameOf p d hx hy).u (turn (turnedAxes d) d') := by
  rw [frameOf_lo, frameOf_hi, frameOf_u]
  exact shortens_turn _ h

theorem meets_of_metOnSide (hwall : (world.getCell c).wall)
    (h : MetOnSide (playerRect (.fin p) (.fin v)) (.fin e) c) :
    ∃ t, Meets world p (v * e) c t := by
  obtain ⟨t, ht⟩ := metOnSide_iff.mp h
  exact ⟨t, hwall, ht.elim (fun hX => ⟨_, .sideX hX⟩) fun hY => ⟨_, .sideY hY⟩⟩

theorem mem_of_metOnSide (hwalls : ∀ c t, Meets world p (v * e) c t → c ∈ cells)
    (hwall : (world.getCell c).wall)
    (h : MetOnSide (playerRect (.fin p) (.fin v)) (.fin e) c) : c ∈ cells := by
  obtain ⟨t, hmeets⟩ := meets_of_metOnSide hwall h
  exact hwalls c t hmeets

theorem spared_frame_iff (he : 0 < e) (hx : |(v * e).x| < 1) (hy : |(v * e).y| < 1)
    (hwalls : ∀ c t, Meets world p (v * e) c t → c ∈ cells) :
    MoveFrame.Spared (frameOf p (v * e) hx hy)
      (wallsOf world p (v * e) (surroundingCells (.fin p))) (wallsOf world p (v * e) cells) ↔
        NeighboursSuffice world p v e := by
  constructor
  · intro hspared c hc hwall hmet
    obtain ⟨-, w, ⟨c', hc', hwall', rfl⟩, hstep, hfree⟩ := hspared (lineOf p (v * e) c)
      ⟨c, mem_of_metOnSide hwalls hwall hmet, hwall, rfl⟩
      (fun ⟨b, hb, _, heq⟩ => hc (lineOf_injective p (v * e) heq ▸ hb))
      (frameOf_u hx hy ▸ (hit_frame_iff hx hy).mpr hmet)
    refine ⟨c', hc', hwall', fun hmet' => hfree ?_⟩
    obtain ⟨v', hresolve, hshort⟩ := resolve_cell (p := p) (v := v) (c := c') he
    rw [hresolve] at hmet'
    rw [hstep.unique (shortens_frame hx hy hshort)]
    exact (hit_frame_iff hx hy).mpr hmet'
  · rintro hsuffice k ⟨c, hc, hwall, rfl⟩ hT hhit
    rw [frameOf_u, hit_frame_iff] at hhit
    obtain ⟨c', hc', hwall', hfree⟩ :=
      hsuffice c (fun hmem => hT ⟨c, hmem, hwall, rfl⟩) hwall hhit
    obtain ⟨v', hresolve, hshort⟩ := resolve_cell (p := p) (v := v) (c := c') he
    rw [hresolve] at hfree
    exact ⟨_, _, ⟨c', hc', hwall', rfl⟩, shortens_frame hx hy hshort,
      mt (hit_frame_iff hx hy).mp hfree⟩

/-- A wall that the player meets is tested, unless it is on a line ahead
that is not. -/
theorem mem_surroundingCells_of_meets (hpx : 0 ≤ p.x) (hpy : 0 ≤ p.y) (hx : |d.x| < 1)
    (hy : |d.y| < 1) (hfree : ¬Overlaps p c) (h : Meets world p d c t)
    (htx : LineTested p.x d.x ∨ (lineOf p d c).x ≠ 0)
    (hty : LineTested p.y d.y ∨ (lineOf p d c).y ≠ 0) : c ∈ surroundingCells (.fin p) := by
  obtain ⟨-, htouch⟩ := h
  rw [← exists_touches_turn (turnedAxes d), ← frameOf_lo hx hy, ← frameOf_hi hx hy,
    ← frameOf_u hx hy] at htouch
  obtain ⟨n, htouch⟩ := htouch
  obtain ⟨hlinex, hliney⟩ :=
    MoveFrame.lines_of_touches (mt (over_frame_start_iff hx hy).mp hfree) htouch
  exact mem_surroundingCells_of_lines hpx hpy hfree htx hty hlinex hliney

/-- A wall of one list that is met on a side is one of every list that has
all the walls that are met. -/
theorem wallsOf_of_hit (hx : |(v * e).x| < 1) (hy : |(v * e).y| < 1) {cells' : List VI2d}
    (hwalls : ∀ c t, Meets world p (v * e) c t → c ∈ cells) (k : VI2d)
    (hT : wallsOf world p (v * e) cells' k)
    (hhit : MoveFrame.Hit (frameOf p (v * e) hx hy) k (frameOf p (v * e) hx hy).u) :
    wallsOf world p (v * e) cells k := by
  obtain ⟨c, -, hwall, rfl⟩ := hT
  rw [frameOf_u, hit_frame_iff] at hhit
  exact ⟨c, mem_of_metOnSide hwalls hwall hhit, hwall, rfl⟩

/-- A wall met on a side is tested, except on a line ahead that is not. -/
theorem wallsOf_tested (hx : |(v * e).x| < 1) (hy : |(v * e).y| < 1) (hpx : 0 ≤ p.x)
    (hpy : 0 ≤ p.y) (hfree : ∀ c, (world.getCell c).wall → ¬Overlaps p c) (k : VI2d)
    (hT : wallsOf world p (v * e) cells k)
    (hhit : MoveFrame.Hit (frameOf p (v * e) hx hy) k (frameOf p (v * e) hx hy).u)
    (htx : LineTested p.x (v * e).x ∨ k.x ≠ 0) (hty : LineTested p.y (v * e).y ∨ k.y ≠ 0) :
    wallsOf world p (v * e) (surroundingCells (.fin p)) k := by
  obtain ⟨c, -, hwall, rfl⟩ := hT
  rw [frameOf_u, hit_frame_iff] at hhit
  obtain ⟨t, hmeets⟩ := meets_of_metOnSide hwall hhit
  exact ⟨c, mem_surroundingCells_of_meets hpx hpy hx hy (hfree c hwall) hmeets htx hty, hwall, rfl⟩

section Order

variable {ks ks' : List (VI2d × ℚ)} (hx : |(v * e).x| < 1) (hy : |(v * e).y| < 1)
  (hpx : 0 ≤ p.x) (hpy : 0 ≤ p.y) (hfree : ∀ c, (world.getCell c).wall → ¬Overlaps p c)
  (hwalls : ∀ c t, Meets world p (v * e) c t → c ∈ cells)

include hx hy hpx hpy hfree hwalls

/-- With both lines ahead tested, the contacts of both runs are the same. -/
theorem order_of_tested (hline : LineTested p.x (v * e).x ∧ LineTested p.y (v * e).y)
    (horder : ContactOrder world p (v * e) (surroundingCells (.fin p)) ks) :
    ContactOrder world p (v * e) cells ks := by
  refine ⟨fun c t => ?_, horder.nodup, horder.sorted⟩
  rw [horder.mem_iff]
  refine and_congr_left fun hmeets => iff_of_true ?_ (hwalls c t hmeets)
  exact mem_surroundingCells_of_meets hpx hpy hx hy (hfree c hmeets.1) hmeets (Or.inl hline.1)
    (Or.inl hline.2)

/-- Otherwise the ends of both runs do not depend on the orders. -/
theorem eq_iff_of_untested (he : 0 < e)
    (hline : ¬(LineTested p.x (v * e).x ∧ LineTested p.y (v * e).y))
    (horder : ContactOrder world p (v * e) (surroundingCells (.fin p)) ks)
    (hall : ShortensAll (cellLo p) (cellHi p) (ks.map Prod.fst) (v * e) d')
    (horder' : ContactOrder world p (v * e) cells ks')
    (hall' : ShortensAll (cellLo p) (cellHi p) (ks'.map Prod.fst) (v * e) d'') :
    d' = d'' ↔ NeighboursSuffice world p v e := by
  obtain ⟨hnear, hrun⟩ := horder.run hx hy hfree hall
  obtain ⟨hfull, hrun'⟩ := horder'.run hx hy hfree hall'
  rw [← spared_frame_iff he hx hy hwalls, ← (turn_injective (turnedAxes (v * e))).eq_iff]
  by_cases hno : ∀ k, wallsOf world p (v * e) (surroundingCells (.fin p)) k →
      ¬MoveFrame.Hit (frameOf p (v * e) hx hy) k (frameOf p (v * e) hx hy).u
  · exact MoveFrame.eq_iff_spared_of_free hnear hrun hfull hrun' hno
  · simp only [not_forall, not_not, exists_prop] at hno
    have hsub := fun k (hT : wallsOf world p (v * e) (surroundingCells (.fin p)) k) =>
      wallsOf_of_hit hx hy hwalls k hT
    have htested := fun k (hT : wallsOf world p (v * e) cells k) =>
      wallsOf_tested hx hy hpx hpy hfree k hT
    by_cases htx : LineTested p.x (v * e).x
    · have hty : ¬LineTested p.y (v * e).y := fun hty => hline ⟨htx, hty⟩
      obtain ⟨hrow, hf⟩ := walls_off_row hpx hpy hty
      refine MoveFrame.eq_iff_spared_of_row hnear hrun hfull hrun' hsub ?_ hrow hf hno
      intro k hT hhit
      refine or_iff_not_imp_right.mpr fun hky => ?_
      exact htested k hT hhit (Or.inl htx) (Or.inr hky)
    · obtain ⟨hcol, hf⟩ := walls_off_column hpx hpy htx
      by_cases hty : LineTested p.y (v * e).y
      · refine MoveFrame.eq_iff_spared_of_row_swap hnear hrun hfull hrun' hsub ?_ hcol hf hno
        intro k hT hhit
        refine or_iff_not_imp_right.mpr fun hkx => ?_
        exact htested k hT hhit (Or.inr hkx) (Or.inl hty)
      · obtain ⟨hrow, hf'⟩ := walls_off_row hpx hpy hty
        obtain ⟨k, hT, hhit⟩ := hno
        exact (hnear.not_hit_behind hcol hrow hf hf' hT hhit).elim

end Order

/-- The run over the eight cells ends where the run over all walls can end,
exactly when the walls outside are out of the way. The list `cells` has
every wall that the player meets, as a list of all walls of the world has. -/
theorem neighbours_suffice_iff (hpx : 0 ≤ p.x) (hpy : 0 ≤ p.y)
    (hfree : ∀ c, (world.getCell c).wall → ¬Overlaps p c) (he : 0 < e) (hx : |v.x * e| < 1)
    (hy : |v.y * e| < 1) (hcells : cells.Nodup)
    (hwalls : ∀ c t, Meets world p (v * e) c t → c ∈ cells) :
    (∀ sort, SortsContacts sort world (surroundingCells (.fin p)) (.fin p) (.fin v) (.fin e) →
      ∃ sort', SortsContacts sort' world cells (.fin p) (.fin v) (.fin e) ∧
        resolveCollision sort world (.fin p) (.fin v) (.fin e) =
          resolveCollisionOver cells sort' world (.fin p) (.fin v) (.fin e)) ↔
      NeighboursSuffice world p v e := by
  have hx' : |(v * e).x| < 1 := hx
  have hy' : |(v * e).y| < 1 := hy
  have hnodup := surroundingCells_nodup (.fin p)
  by_cases hline : LineTested p.x (v * e).x ∧ LineTested p.y (v * e).y
  · refine iff_of_true ?_ ?_
    · intro sort hsort
      obtain ⟨ks, d', horder, hall, hresult⟩ := exists_order_of_sorts he hnodup hsort
      obtain ⟨sort', d'', hsort', hall', hresult'⟩ :=
        exists_sort_of_order he hcells (order_of_tested hx' hy' hpx hpy hfree hwalls hline horder)
      refine ⟨sort', hsort', ?_⟩
      rw [resolveCollision, hresult, hresult', hall.unique hall']
    · intro c hc hwall hmet
      obtain ⟨t, hmeets⟩ := meets_of_metOnSide hwall hmet
      exact absurd (mem_surroundingCells_of_meets hpx hpy hx' hy' (hfree c hwall) hmeets
        (Or.inl hline.1) (Or.inl hline.2)) hc
  · constructor
    · intro hsame
      obtain ⟨ks, horder⟩ := exists_contactOrder world p (v * e) hnodup
      obtain ⟨sort, d', hsort, hall, hresult⟩ := exists_sort_of_order he hnodup horder
      obtain ⟨sort', hsort', heq⟩ := hsame sort hsort
      obtain ⟨ks', d'', horder', hall', hresult'⟩ := exists_order_of_sorts he hcells hsort'
      have hend : p + d' = p + d'' := V2d.fin_inj.mp (hresult.symm.trans (heq.trans hresult'))
      exact (eq_iff_of_untested hx' hy' hpx hpy hfree hwalls he hline horder hall horder' hall').mp
        (V2d.add_left_cancel hend)
    · intro hsuffice sort hsort
      obtain ⟨ks, d', horder, hall, hresult⟩ := exists_order_of_sorts he hnodup hsort
      obtain ⟨ks', horder'⟩ := exists_contactOrder world p (v * e) hcells
      obtain ⟨sort', d'', hsort', hall', hresult'⟩ := exists_sort_of_order he hcells horder'
      refine ⟨sort', hsort', ?_⟩
      rw [resolveCollision, hresult, hresult', (eq_iff_of_untested hx' hy' hpx hpy hfree hwalls he
        hline horder hall horder' hall').mpr hsuffice]

/-- A player next to the only wall, moving against it. -/
theorem neighbours_suffice_blocked :
    ∃ sort, SortsContacts sort wallAhead [⟨2, 0⟩] (.fin ⟨1, 0⟩) (.fin ⟨1 / 2, 0⟩) (.fin 1) ∧
      resolveCollision id wallAhead (.fin ⟨1, 0⟩) (.fin ⟨1 / 2, 0⟩) (.fin 1) =
        resolveCollisionOver [⟨2, 0⟩] sort wallAhead (.fin ⟨1, 0⟩) (.fin ⟨1 / 2, 0⟩) (.fin 1) := by
  refine (neighbours_suffice_iff (by decide) (by decide) ?_ (by decide) (by norm_num [abs_lt])
    (by norm_num) (by decide) ?_).mpr ?_ id (sorts_self (by decide +kernel))
  · intro c hc
    rw [wallAhead_wall_iff.mp hc]
    norm_num [Overlaps]
  · rintro c t ⟨hwall, -⟩
    exact List.mem_singleton.mpr (wallAhead_wall_iff.mp hwall)
  · intro c hc hwall
    obtain rfl := wallAhead_wall_iff.mp hwall
    exact absurd (by decide +kernel) hc

/-- The player ends in the wall that the run over all walls stops it at. -/
theorem neighbours_miss_wall : ¬∀ (world : World) (cells : List VI2d) (p v : V2d ℚ) (e : ℚ),
    cells.Nodup → (∀ c, (world.getCell c).wall ↔ c ∈ cells) → 0 ≤ p.x → 0 ≤ p.y →
    (∀ c, (world.getCell c).wall → ¬Overlaps p c) → 0 < e → |v.x * e| < 1 → |v.y * e| < 1 →
    ∀ sort, SortsContacts sort world (surroundingCells (.fin p)) (.fin p) (.fin v) (.fin e) →
      ∃ sort', SortsContacts sort' world cells (.fin p) (.fin v) (.fin e) ∧
        resolveCollision sort world (.fin p) (.fin v) (.fin e) =
          resolveCollisionOver cells sort' world (.fin p) (.fin v) (.fin e) := by
  intro hsame
  obtain ⟨sort, hsort, heq⟩ := hsame wallAhead [⟨2, 0⟩] ⟨1 / 2, 0⟩ ⟨9 / 10, 0⟩ 1 (by decide)
    (fun c => wallAhead_wall_iff.trans List.mem_singleton.symm) (by norm_num) le_rfl
    (fun c hc => by rw [wallAhead_wall_iff.mp hc]; norm_num [Overlaps]) one_pos
    (by norm_num [abs_lt]) (by norm_num) id (sorts_self (by decide +kernel))
  obtain ⟨a, ha⟩ : ∃ a, collectContacts wallAhead (playerRect (.fin ⟨1 / 2, 0⟩)
      (.fin ⟨9 / 10, 0⟩)) (.fin 1) ([⟨2, 0⟩].map cellRect) = [a] :=
    List.length_eq_one_iff.mp (by decide +kernel)
  have hid : resolveCollisionOver [⟨2, 0⟩] sort wallAhead (.fin ⟨1 / 2, 0⟩) (.fin ⟨9 / 10, 0⟩)
      (.fin 1) = resolveCollisionOver [⟨2, 0⟩] id wallAhead (.fin ⟨1 / 2, 0⟩) (.fin ⟨9 / 10, 0⟩)
        (.fin 1) := by
    obtain ⟨hperm, -⟩ := hsort
    rw [ha] at hperm
    dsimp only [resolveCollisionOver]
    rw [ha, List.perm_singleton.mp hperm]
    rfl
  rw [hid] at heq
  exact absurd heq (by decide +kernel)

end Runs

end AmongUs
