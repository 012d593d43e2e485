import AmongUs.Collision.ResolveCollision

/-!
Where the player can come to stand.

The cells and the player are one unit wide and the cells lie on whole
coordinates, so a wall that stops an axis leaves the player on a whole
coordinate there. On each axis the move therefore ends at a whole coordinate
or where it would have ended without walls (`ShortensAll.lands`), and at a
whole coordinate for certain if the wall that is responded to first is met
on this axis (`ShortensAll.stopped`). Which wall that is may depend on the
sort, when several are met at the same time; `FirstWallStops` asks for all
of them.
-/

namespace AmongUs

/-- A tested wall that the player meets, as the loop over the neighbours
finds it. -/
def MeetsWall (world : World) (vfPos vfVel : VF2d) (elapsedTime : Extended ℚ) (c : VI2d)
    (k : Contact) : Prop :=
  c ∈ surroundingCells vfPos ∧ (world.getCell c).wall ∧
    dynamicRectVsRect (playerRect vfPos vfVel) elapsedTime (cellRect c) = some k

/-- A wall is met, and each of the walls that are met first is met on a side
of this axis. -/
def FirstWallStops (world : World) (vfPos vfVel : VF2d) (elapsedTime : Extended ℚ)
    (axis : VF2d → Extended ℚ) : Prop :=
  (∃ c k, MeetsWall world vfPos vfVel elapsedTime c k) ∧
    ∀ c k, MeetsWall world vfPos vfVel elapsedTime c k →
      (∀ c' k', MeetsWall world vfPos vfVel elapsedTime c' k' → ¬k'.time < k.time) →
      axis k.normal ≠ .fin 0

variable {world : World} {p v d d' : V2d ℚ} {e t : ℚ} {c : VI2d} {cs : List VI2d}

/-- A wall that is met on a side of the x-axis is one cell away from where
the player stops. -/
theorem exists_face_eq (p d : V2d ℚ) (c : VI2d) :
    ∃ i : ℤ, p.x + Slab.face (cellLo p c).x (cellHi p c).x d.x = i := by
  unfold Slab.face
  split
  · exact ⟨c.x - 1, by simp only [cellLo]; push_cast; ring⟩
  · exact ⟨c.x + 1, by simp only [cellHi]; push_cast; ring⟩

theorem Shortens.lands (h : Shortens (cellLo p c) (cellHi p c) d d') :
    d'.x = d.x ∨ ∃ i : ℤ, p.x + d'.x = i := by
  obtain ⟨t, -, rfl⟩ | ⟨t, -, rfl⟩ | ⟨-, -, rfl⟩ := h
  · exact Or.inr (exists_face_eq p d c)
  · exact Or.inl rfl
  · exact Or.inl rfl

theorem ShortensAll.lands (h : ShortensAll (cellLo p) (cellHi p) cs d d') :
    d'.x = d.x ∨ ∃ i : ℤ, p.x + d'.x = i := by
  induction cs generalizing d with
  | nil => exact Or.inl (congrArg V2d.x h)
  | cons c cs ih =>
      obtain ⟨d₁, hfirst, hrest⟩ := h
      obtain hsame | hwhole := ih hrest
      · rw [hsame]
        exact hfirst.lands
      · exact Or.inr hwhole

theorem ShortensAll.stopped (h : ShortensAll (cellLo p) (cellHi p) (c :: cs) d d')
    (hside : SideX (cellLo p c) (cellHi p c) d t) : ∃ i : ℤ, p.x + d'.x = i := by
  obtain ⟨d₁, hfirst, hrest⟩ := h
  obtain hsame | hwhole := hrest.lands
  · rw [hsame, hfirst.of_sideX hside]
    exact exists_face_eq p d c
  · exact hwhole

/-- The same with the axes exchanged. -/
theorem ShortensAll.swapCells (h : ShortensAll (cellLo p) (cellHi p) cs d d') :
    ShortensAll (cellLo p.swap) (cellHi p.swap) (cs.map V2d.swap) d.swap d'.swap :=
  h.map V2d.swap V2d.swap fun c _ _ hstep =>
    show Shortens (cellLo p c).swap (cellHi p c).swap _ _ from hstep.swap

theorem meetsWall_iff {k : Contact} :
    MeetsWall world (.fin p) (.fin v) (.fin e) c k ↔ c ∈ surroundingCells (.fin p) ∧
      (world.getCell c).wall ∧ ∃ t n, Touches (cellLo p c) (cellHi p c) (v * e) t n ∧
        k = contactAt (p + (⟨1, 1⟩ : V2d ℚ) / (2 : ℚ)) (v * e) t n :=
  and_congr_right fun _ => and_congr_right fun _ => dynamicRectVsRect_cell_iff k

/-- A frame that meets a wall has a first contact. -/
theorem ContactOrder.ne_nil {ks : List (VI2d × ℚ)} {k : Contact}
    (horder : ContactOrder world p (v * e) (surroundingCells (.fin p)) ks)
    (hmeets : MeetsWall world (.fin p) (.fin v) (.fin e) c k) : ks ≠ [] := by
  rintro rfl
  obtain ⟨hcell, hwall, t, n, htouch, -⟩ := meetsWall_iff.mp hmeets
  exact List.not_mem_nil ((horder.mem_iff c t).mpr ⟨hcell, hwall, n, htouch⟩)

/-- No wall is met before the first contact, in any order of the sort. -/
theorem ContactOrder.first_le {k : VI2d × ℚ} {ks : List (VI2d × ℚ)} {k' : Contact}
    (horder : ContactOrder world p (v * e) (surroundingCells (.fin p)) (k :: ks))
    (hmeets : MeetsWall world (.fin p) (.fin v) (.fin e) c k') :
    ¬k'.time < .fin k.2 := by
  intro hlt
  obtain ⟨hcell, hwall, t, n, htouch, rfl⟩ := meetsWall_iff.mp hmeets
  have hmem := (horder.mem_iff c t).mpr ⟨hcell, hwall, n, htouch⟩
  have hle : k.2 ≤ t := by
    obtain heq | htail := List.mem_cons.mp hmem
    · rw [← heq]
    · exact (List.pairwise_cons.mp horder.sorted).1 _ htail
  exact hle.not_gt (Extended.fin_lt_fin.mp hlt)

/-- The first contact of an order is a wall that stops the axis. -/
theorem FirstWallStops.exists_first {axis : VF2d → Extended ℚ} {ks : List (VI2d × ℚ)}
    (hstops : FirstWallStops world (.fin p) (.fin v) (.fin e) axis)
    (horder : ContactOrder world p (v * e) (surroundingCells (.fin p)) ks) :
    ∃ k rest n, ks = k :: rest ∧ Touches (cellLo p k.1) (cellHi p k.1) (v * e) k.2 n ∧
      axis (.fin n) ≠ .fin 0 := by
  obtain ⟨⟨c, k₀, hmeets⟩, hfirst⟩ := hstops
  cases ks with
  | nil => exact absurd rfl (horder.ne_nil hmeets)
  | cons k rest =>
      obtain ⟨hcell, hwall, n, htouch⟩ := (horder.mem_iff k.1 k.2).mp List.mem_cons_self
      refine ⟨k, rest, n, rfl, htouch, ?_⟩
      exact hfirst k.1 _ (meetsWall_iff.mpr ⟨hcell, hwall, k.2, n, htouch, rfl⟩)
        fun c' k' hmeets' => horder.first_le hmeets'

theorem Touches.sideX_of_normal {lo hi n : V2d ℚ} (h : Touches lo hi d t n) (hn : n.x ≠ 0) :
    SideX lo hi d t := by
  cases h with
  | sideX h => exact h
  | sideY h => exact absurd rfl hn
  | corner h => exact absurd rfl hn

/-- Where a frame ends that has an order of its contacts. -/
structure Landing (world : World) (p v : V2d ℚ) (e : ℚ) (d' : V2d ℚ) : Prop where
  x : d'.x = (v * e).x ∨ ∃ i : ℤ, p.x + d'.x = i
  y : d'.y = (v * e).y ∨ ∃ i : ℤ, p.y + d'.y = i
  stoppedX : FirstWallStops world (.fin p) (.fin v) (.fin e) V2d.x → ∃ i : ℤ, p.x + d'.x = i
  stoppedY : FirstWallStops world (.fin p) (.fin v) (.fin e) V2d.y → ∃ i : ℤ, p.y + d'.y = i
  free : (∀ c k, ¬MeetsWall world (.fin p) (.fin v) (.fin e) c k) → d' = v * e

/-- **Where the player lands**, whatever the sort does with walls that are
met at the same time. -/
theorem resolveCollision_lands (he : 0 < e)
    {sort : List (Rect × Extended ℚ) → List (Rect × Extended ℚ)}
    (hsort : SortsContacts sort world (surroundingCells (.fin p)) (.fin p) (.fin v) (.fin e)) :
    ∃ d', resolveCollision sort world (.fin p) (.fin v) (.fin e) = .fin (p + d') ∧
      Landing world p v e d' := by
  obtain ⟨ks, d', horder, hall, hend⟩ :=
    exists_order_of_sorts he (surroundingCells_nodup (.fin p)) hsort
  refine ⟨d', hend, hall.lands, hall.swapCells.lands, ?_, ?_, fun hfree => ?_⟩
  · intro hstops
    obtain ⟨k, rest, n, rfl, htouch, hnormal⟩ := hstops.exists_first horder
    exact hall.stopped (htouch.sideX_of_normal fun hzero => hnormal (congrArg Extended.fin hzero))
  · intro hstops
    obtain ⟨k, rest, n, rfl, htouch, hnormal⟩ := hstops.exists_first horder
    exact hall.swapCells.stopped
      (htouch.swap.sideX_of_normal fun hzero => hnormal (congrArg Extended.fin hzero))
  · cases ks with
    | nil => exact hall
    | cons k ks =>
        obtain ⟨hcell, hwall, n, htouch⟩ := (horder.mem_iff k.1 k.2).mp List.mem_cons_self
        exact absurd (meetsWall_iff.mpr ⟨hcell, hwall, k.2, n, htouch, rfl⟩) (hfree k.1 _)

/-- A frame that does not end where it would without walls meets one. -/
theorem Landing.exists_meetsWall (h : Landing world p v e d') (hne : d' ≠ v * e) :
    ∃ c k, MeetsWall world (.fin p) (.fin v) (.fin e) c k := by
  by_contra hfree
  exact hne (h.free fun c k hmeets => hfree ⟨c, k, hmeets⟩)

/-- A frame along the x-axis meets walls on this axis only. -/
theorem MeetsWall.normal_x {k : Contact}
    (hmeets : MeetsWall world (.fin p) (.fin v) (.fin e) c k) (hstill : (v * e).y = 0) :
    k.normal.x ≠ .fin 0 := by
  obtain ⟨-, -, t, n, htouch, rfl⟩ := meetsWall_iff.mp hmeets
  cases htouch with
  | sideX h => exact fun heq => against_ne_zero _ (Extended.fin.inj heq)
  | sideY h => exact absurd hstill h.moves
  | corner h => exact absurd hstill h.movesY

theorem MeetsWall.normal_y {k : Contact}
    (hmeets : MeetsWall world (.fin p) (.fin v) (.fin e) c k) (hstill : (v * e).x = 0) :
    k.normal.y ≠ .fin 0 := by
  obtain ⟨-, -, t, n, htouch, rfl⟩ := meetsWall_iff.mp hmeets
  cases htouch with
  | sideX h => exact absurd hstill h.moves
  | sideY h => exact fun heq => against_ne_zero _ (Extended.fin.inj heq)
  | corner h => exact absurd hstill h.movesX

end AmongUs
