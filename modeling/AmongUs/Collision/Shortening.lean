import AmongUs.Collision.ResolveCollision

/-!
What the response may do to a velocity.

A contact with a normal has a finite time, so there is motion on the axis of
the normal, and the response scales this component by the time
(`accepted_normal`). The time is at least `-1` and less than `1`, so the
component does not grow, though it may turn around. This needs nothing of
the two rectangles but exact bounds, and it is carried through any list of
walls (`resolveAll_shorter`).
-/

namespace AmongUs

/-- A rectangle with exact bounds. -/
def Rect.Exact (r : Rect) : Prop := ∃ p q, r.pos = .fin p ∧ r.size = .fin q

/-- The response to the rectangles of a list, one after the other. -/
def resolveAll (r_dynamic : Rect) (fTimeStep : Extended ℚ) (statics : List Rect) : Rect :=
  statics.foldl (fun r s => (resolveDynamicRectVsRect r fTimeStep s).1) r_dynamic

/-- No component of the second velocity is greater than that of the first. -/
structure Shorter (v v' : V2d ℚ) : Prop where
  x : |v'.x| ≤ |v.x|
  y : |v'.y| ≤ |v.y|

/-- The velocity has changed only along the normal of the contact. -/
def ChangesAlong (contact : Option Contact) (v v' : V2d ℚ) : Prop :=
  match contact with
  | none => v' = v
  | some c =>
      (c.normal.x = .fin 0 ∨ c.normal.y = .fin 0) ∧
        (c.normal.x = .fin 0 → v'.x = v.x) ∧ (c.normal.y = .fin 0 → v'.y = v.y)

variable {lo hi d o p p' q q' s v v' v₁ v₂ : V2d ℚ} {vel : VF2d} {e t : ℚ} {c : Contact}

theorem Shorter.refl (v : V2d ℚ) : Shorter v v := ⟨le_rfl, le_rfl⟩

theorem Shorter.trans (h₁ : Shorter v v₁) (h₂ : Shorter v₁ v₂) : Shorter v v₂ :=
  ⟨h₂.x.trans h₁.x, h₂.y.trans h₁.y⟩

theorem Shorter.eq_zero (h : Shorter v v') : (v.x = 0 → v'.x = 0) ∧ (v.y = 0 → v'.y = 0) := by
  constructor
  · intro hx
    have hle := h.x
    rw [hx, abs_zero] at hle
    exact abs_nonpos_iff.mp hle
  · intro hy
    have hle := h.y
    rw [hy, abs_zero] at hle
    exact abs_nonpos_iff.mp hle

/-- A finite time of entry belongs to an axis with motion. -/
theorem ne_zero_of_sortDistances {bound bound' dir : ℚ}
    (h : (sortDistances (crossing bound dir) (crossing bound' dir)).1 = .fin t) : dir ≠ 0 := by
  rintro rfl
  rw [crossing_zero, crossing_zero, sortDistances] at h
  split at h
  · exact Extended.infOf_ne_fin _ _ h
  · exact Extended.infOf_ne_fin _ _ h

theorem normal_of_moving {dir : ℚ} (h : dir ≠ 0) :
    (1 : Extended ℚ) / .fin dir < .fin 0 ↔ dir < 0 := by
  rw [Extended.one_def, Extended.fin_div_fin _ h, Extended.fin_lt_fin, one_div, inv_neg'']

/-- What an accepted contact is. -/
theorem accepted_normal
    (h : rayVsRect (.fin o) (.fin d) ⟨.fin p, .fin s, vel⟩ = some c) (hacc : accepted c) :
    ∃ t, c.time = .fin t ∧ -1 ≤ t ∧ t < 1 ∧
      (d.x ≠ 0 ∧ c.normal = .fin ⟨against d.x, 0⟩ ∨ d.y ≠ 0 ∧ c.normal = .fin ⟨0, against d.y⟩ ∨
        c.normal = .fin ⟨0, 0⟩) := by
  obtain ⟨t, ht⟩ := hacc.finite
  have hge := hacc.1
  have hlt := hacc.2
  rw [ht, Extended.fin_le_fin] at hge
  rw [ht, Extended.fin_lt_fin] at hlt
  refine ⟨t, ht, hge, hlt, ?_⟩
  rw [rayVsRect_fin o d p s vel rfl rfl] at h
  dsimp only at h
  generalize hx : sortDistances (crossing _ d.x) (crossing _ d.x) = x at h
  generalize hy : sortDistances (crossing _ d.y) (crossing _ d.y) = y at h
  split_ifs at h
  obtain rfl := Option.some.inj h
  dsimp only at ht ⊢
  rw [Extended.max_def] at ht
  unfold contactNormal
  -- the time is that of the axis that the normal is on
  by_cases hlater : y.1 < x.1
  · rw [if_neg (Extended.lt_asymm hlater)] at ht
    have hdx : d.x ≠ 0 := ne_zero_of_sortDistances ((congrArg Prod.fst hx).trans ht)
    refine Or.inl ⟨hdx, ?_⟩
    rw [if_pos hlater, against, V2d.scalar_div_x, V2d.fin_x]
    simp only [normal_of_moving hdx]
    split <;> rfl
  · rw [if_neg hlater]
    by_cases hlater' : x.1 < y.1
    · rw [if_pos hlater'] at ht
      have hdy : d.y ≠ 0 := ne_zero_of_sortDistances ((congrArg Prod.fst hy).trans ht)
      refine Or.inr (Or.inl ⟨hdy, ?_⟩)
      rw [if_pos hlater', against, V2d.scalar_div_y, V2d.fin_y]
      simp only [normal_of_moving hdy]
      split <;> rfl
    · rw [if_neg hlater']
      exact Or.inr (Or.inr rfl)

/-- The component along the normal is scaled by the time. -/
theorem abs_scaled_le {v e : ℚ} (he : 0 < e) (hv : v * e ≠ 0) (hge : -1 ≤ t) (hlt : t < 1) :
    |v + against (v * e) * |v| * (1 - t)| ≤ |v| := by
  have hscaled : v + against (v * e) * |v| * (1 - t) = t * v := by
    rw [against_mul_abs he hv]
    ring
  rw [hscaled, abs_mul]
  exact mul_le_of_le_one_left (abs_nonneg v) (abs_le.mpr ⟨hge, hlt.le⟩)

/-- **One wall.** -/
theorem resolve_shorter (p' q' : V2d ℚ) (he : 0 < e) (vel : VF2d) :
    ∃ v', (resolveDynamicRectVsRect ⟨.fin p, .fin q, .fin v⟩ (.fin e)
        ⟨.fin p', .fin q', vel⟩).1 = ⟨.fin p, .fin q, .fin v'⟩ ∧ Shorter v v' ∧
      ChangesAlong (dynamicRectVsRect ⟨.fin p, .fin q, .fin v⟩ (.fin e)
        ⟨.fin p', .fin q', vel⟩) v v' := by
  unfold resolveDynamicRectVsRect
  cases hcontact : dynamicRectVsRect ⟨.fin p, .fin q, .fin v⟩ (.fin e)
    ⟨.fin p', .fin q', vel⟩ with
  | none => exact ⟨v, rfl, .refl v, rfl⟩
  | some c =>
      unfold dynamicRectVsRect at hcontact
      simp only [expandedTarget, V2d.fin_div_scalar q two_ne_zero, V2d.fin_add, V2d.fin_sub,
        V2d.fin_mul_scalar] at hcontact
      split at hcontact
      · next c' hray =>
          obtain ⟨hacc, hc⟩ := Option.ite_none_right_eq_some.mp hcontact
          obtain rfl := Option.some.inj hc
          obtain ⟨t, ht, hge, hlt, hnormal⟩ := accepted_normal hray hacc
          have hone : (1 : Extended ℚ) - c'.time = .fin (1 - t) := by
            rw [ht, Extended.one_def, Extended.fin_sub_fin]
          have hresult (n : V2d ℚ) (hn : c'.normal = .fin n) :
              (⟨.fin p, .fin q, .fin v + c'.normal * (⟨(V2d.fin v).x.abs, (V2d.fin v).y.abs⟩ : VF2d) *
                ((1 : Extended ℚ) - c'.time)⟩ : Rect) =
                ⟨.fin p, .fin q,
                  .fin ⟨v.x + n.x * |v.x| * (1 - t), v.y + n.y * |v.y| * (1 - t)⟩⟩ := by
            rw [hone, hn]
            rfl
          rcases hnormal with ⟨hd, hn⟩ | ⟨hd, hn⟩ | hn
          · refine ⟨_, hresult _ hn, ⟨abs_scaled_le he hd hge hlt, ?_⟩, ?_⟩
            · simp
            · rw [ChangesAlong, hn]
              refine ⟨Or.inr rfl, fun hx => ?_, fun _ => by simp⟩
              exact absurd (Extended.fin.inj hx) (against_ne_zero _)
          · refine ⟨_, hresult _ hn, ⟨?_, abs_scaled_le he hd hge hlt⟩, ?_⟩
            · simp
            · rw [ChangesAlong, hn]
              refine ⟨Or.inl rfl, fun _ => by simp, fun hy => ?_⟩
              exact absurd (Extended.fin.inj hy) (against_ne_zero _)
          · refine ⟨_, hresult _ hn, ⟨?_, ?_⟩, ?_⟩
            · simp
            · simp
            · rw [ChangesAlong, hn]
              exact ⟨Or.inl rfl, fun _ => by simp, fun _ => by simp⟩
      · cases hcontact

/-- **Any list of walls.** -/
theorem resolveAll_shorter {statics : List Rect} (he : 0 < e) (h : ∀ s ∈ statics, s.Exact) :
    ∃ v', resolveAll ⟨.fin p, .fin q, .fin v⟩ (.fin e) statics = ⟨.fin p, .fin q, .fin v'⟩ ∧
      Shorter v v' := by
  induction statics generalizing v with
  | nil => exact ⟨v, rfl, .refl v⟩
  | cons s statics ih =>
      obtain ⟨hs, hrest⟩ := List.forall_mem_cons.mp h
      obtain ⟨p', q', hpos, hsize⟩ := hs
      obtain ⟨v₁, hstep, hshorter, -⟩ :=
        resolve_shorter (p := p) (q := q) (v := v) p' q' he s.vel
      obtain ⟨v', hall, hshorter'⟩ := ih (v := v₁) hrest
      refine ⟨v', ?_, hshorter.trans hshorter'⟩
      rw [← hall, ← hstep, ← hpos, ← hsize]
      rfl

theorem resolveAll_snoc (r : Rect) (x : Extended ℚ) (statics : List Rect) (s : Rect) :
    resolveAll r x (statics ++ [s]) = (resolveDynamicRectVsRect (resolveAll r x statics) x s).1 :=
  List.foldl_concat ..

theorem resolveInOrder_eq (r : Rect) (x : Extended ℚ) (z : List (Rect × Extended ℚ)) :
    resolveInOrder r x z = resolveAll r x (z.map Prod.fst) := by
  rw [resolveAll, List.foldl_map]
  rfl

theorem exact_cellRect (c : VI2d) : (cellRect c).Exact := ⟨c.map (↑), ⟨1, 1⟩, rfl, rfl⟩

/-- What is sorted are rectangles of cells. -/
theorem exact_of_sorts {world : World} {r : Rect} {x : Extended ℚ} {cells : List VI2d}
    {z : List (Rect × Extended ℚ)}
    (h : Sorts (collectContacts world r x (cells.map cellRect)) z) :
    ∀ s ∈ z.map Prod.fst, s.Exact := by
  intro s hs
  obtain ⟨a, ha, rfl⟩ := List.mem_map.mp hs
  obtain ⟨b, hb, hmap⟩ := List.mem_filterMap.mp (h.1.mem_iff.mp ha)
  obtain ⟨-, hcontact⟩ := Option.ite_none_right_eq_some.mp hmap
  obtain ⟨-, -, rfl⟩ := Option.map_eq_some_iff.mp hcontact
  obtain ⟨c, -, rfl⟩ := List.mem_map.mp hb
  exact exact_cellRect c

/-- The response to walls in any order never makes the player faster, and
so the move is at most as long as without walls. -/
theorem shortens_only {statics : List Rect} (he : 0 < e) (h : ∀ s ∈ statics, s.Exact) :
    (∃ v', resolveAll ⟨.fin p, .fin q, .fin v⟩ (.fin e) statics = ⟨.fin p, .fin q, .fin v'⟩ ∧
      Shorter v v' ∧ (v.x = 0 → v'.x = 0) ∧ (v.y = 0 → v'.y = 0)) ∧
    (∀ pre s post, statics = pre ++ s :: post →
      ∃ v₁ v₂, resolveAll ⟨.fin p, .fin q, .fin v⟩ (.fin e) pre = ⟨.fin p, .fin q, .fin v₁⟩ ∧
        resolveAll ⟨.fin p, .fin q, .fin v⟩ (.fin e) (pre ++ [s]) = ⟨.fin p, .fin q, .fin v₂⟩ ∧
        Shorter v₁ v₂ ∧
        ChangesAlong (dynamicRectVsRect ⟨.fin p, .fin q, .fin v₁⟩ (.fin e) s) v₁ v₂) ∧
    ∀ sort world, SortsContacts sort world (surroundingCells (.fin p)) (.fin p) (.fin v) (.fin e) →
      ∃ p', resolveCollision sort world (.fin p) (.fin v) (.fin e) = .fin p' ∧
        |p'.x - p.x| ≤ |v.x * e| ∧ |p'.y - p.y| ≤ |v.y * e| := by
  refine ⟨?_, ?_, ?_⟩
  · obtain ⟨v', hall, hshorter⟩ := resolveAll_shorter (p := p) (q := q) (v := v) he h
    exact ⟨v', hall, hshorter, hshorter.eq_zero⟩
  · rintro pre s post rfl
    obtain ⟨v₁, hpre, -⟩ := resolveAll_shorter (p := p) (q := q) (v := v) he
      fun s hs => h s (List.mem_append_left _ hs)
    obtain ⟨p', q', hpos, hsize⟩ := h s (by simp)
    obtain ⟨v₂, hstep, hshorter, halong⟩ :=
      resolve_shorter (p := p) (q := q) (v := v₁) p' q' he s.vel
    rw [← hpos, ← hsize] at hstep halong
    refine ⟨v₁, v₂, hpre, ?_, hshorter, halong⟩
    rw [resolveAll_snoc, hpre]
    exact hstep
  · intro sort world hsort
    obtain ⟨v', hall, hshorter⟩ := resolveAll_shorter (p := p) (q := ⟨1, 1⟩) (v := v) he
      (exact_of_sorts hsort)
    rw [← resolveInOrder_eq] at hall
    have hend : resolveCollision sort world (.fin p) (.fin v) (.fin e) = .fin (p + v' * e) := by
      dsimp only [resolveCollision, resolveCollisionOver]
      rw [show resolveInOrder (playerRect (.fin p) (.fin v)) (.fin e) _ = _ from hall]
      rfl
    refine ⟨p + v' * e, hend, ?_, ?_⟩
    · rw [V2d.add_x, add_sub_cancel_left, V2d.mul_scalar_x, abs_mul, abs_mul]
      exact mul_le_mul_of_nonneg_right hshorter.x (abs_nonneg e)
    · rw [V2d.add_y, add_sub_cancel_left, V2d.mul_scalar_y, abs_mul, abs_mul]
      exact mul_le_mul_of_nonneg_right hshorter.y (abs_nonneg e)

/-- Two walls, the second of which is met at a time before the start. -/
theorem shortens_only_two :
    ∃ v', resolveAll ⟨.fin ⟨1, -1 / 2⟩, .fin ⟨1, 1⟩, .fin ⟨1 / 2, 1 / 2⟩⟩ (.fin 1)
        [⟨.fin ⟨2, 0⟩, .fin ⟨1, 1⟩, .fin ⟨0, 0⟩⟩, ⟨.fin ⟨0, 0⟩, .fin ⟨1, 1⟩, .fin ⟨0, 0⟩⟩] =
          ⟨.fin ⟨1, -1 / 2⟩, .fin ⟨1, 1⟩, .fin v'⟩ ∧ Shorter ⟨1 / 2, 1 / 2⟩ v' := by
  have hexact : ∀ s ∈ ([⟨.fin ⟨2, 0⟩, .fin ⟨1, 1⟩, .fin ⟨0, 0⟩⟩,
      ⟨.fin ⟨0, 0⟩, .fin ⟨1, 1⟩, .fin ⟨0, 0⟩⟩] : List Rect), s.Exact := by
    intro s hs
    rcases List.mem_pair.mp hs with rfl | rfl
    · exact ⟨⟨2, 0⟩, ⟨1, 1⟩, rfl, rfl⟩
    · exact ⟨⟨0, 0⟩, ⟨1, 1⟩, rfl, rfl⟩
  obtain ⟨⟨v', hall, hshorter, -⟩, -⟩ := shortens_only (p := ⟨1, -1 / 2⟩) (q := ⟨1, 1⟩)
    (v := ⟨1 / 2, 1 / 2⟩) one_pos hexact
  exact ⟨v', hall, hshorter⟩

end AmongUs
