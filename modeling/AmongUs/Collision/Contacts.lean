import AmongUs.Collision.Frame

/-!
The contacts of a move in their order.

When the player overlaps no wall at the start, the contacts with a set `T`
of walls are of two kinds (`Contacts.kind`): walls of the first column or
row ahead, at a time of the move, and the one wall diagonally behind the
player, before the start. So a sorted list of them begins with the latter,
if there is one, and goes on along the former (`Contacts.shape`).
-/

namespace AmongUs

namespace MoveFrame

variable {F : MoveFrame} {T : VI2d → Prop} {ks : List (VI2d × ℚ)} {k : VI2d} {v' : V2d ℚ} {t : ℚ}

/-- The contacts with the walls `T`, sorted by time. -/
structure Contacts (F : MoveFrame) (T : VI2d → Prop) (ks : List (VI2d × ℚ)) : Prop where
  free : ∀ k, T k → ¬Over F k ⟨0, 0⟩
  mem_iff : ∀ k t, (k, t) ∈ ks ↔ T k ∧ ∃ n, Touches (F.lo k) (F.hi k) F.u t n
  nodup : ks.Nodup
  sorted : ks.Pairwise fun a b => a.2 ≤ b.2

def swapContact (k : VI2d × ℚ) : VI2d × ℚ := (k.1.swap, k.2)

theorem Contacts.swap (h : Contacts F T ks) :
    Contacts F.swap (fun k => T k.swap) (ks.map swapContact) where
  free k hk hover := h.free k.swap hk hover.swap
  mem_iff k t := by
    rw [List.mem_map]
    constructor
    · rintro ⟨⟨j, s⟩, hj, hjk⟩
      obtain ⟨rfl, rfl⟩ := Prod.mk.inj hjk
      obtain ⟨hT, n, htouch⟩ := (h.mem_iff j s).mp hj
      exact ⟨hT, n.swap, htouch.swap⟩
    · rintro ⟨hT, n, htouch⟩
      exact ⟨(k.swap, t), (h.mem_iff _ _).mpr ⟨hT, n.swap, htouch.swap⟩, rfl⟩
  nodup := h.nodup.map fun a b hab => by
    obtain ⟨hfst, hsnd⟩ := Prod.mk.inj hab
    exact Prod.ext (congrArg V2d.swap hfst) hsnd
  sorted := List.pairwise_map.mpr h.sorted

theorem map_fst_swapContact :
    (ks.map swapContact).map Prod.fst = (ks.map Prod.fst).map V2d.swap := by
  rw [List.map_map, List.map_map]
  rfl

theorem corner_lines (hfree : ¬Over F k ⟨0, 0⟩) (h : Corner (F.lo k) (F.hi k) F.u t) :
    k = ⟨0, 0⟩ ∧ 0 ≤ t := by
  obtain ⟨hmx, hmy, hx, hy, -, -, hge, hlt⟩ := h
  obtain ⟨hux, hux'⟩ := F.u_x
  obtain ⟨huy, huy'⟩ := F.u_y
  obtain ⟨hfx, hfx'⟩ := F.f_x
  obtain ⟨hfy, hfy'⟩ := F.f_y
  rw [Slab.gap_of_nonneg hux, abs_of_nonneg hux, lo] at hx
  rw [Slab.gap_of_nonneg huy, abs_of_nonneg huy, lo] at hy
  have hposx : 0 < F.u.x := lt_of_le_of_ne hux hmx.symm
  have hposy : 0 < F.u.y := lt_of_le_of_ne huy hmy.symm
  obtain ⟨hlox, hhix⟩ := mul_lt_one F.u_x hge hlt
  obtain ⟨hloy, hhiy⟩ := mul_lt_one F.u_y hge hlt
  replace hx : t * F.u.x = F.f.x + k.x := hx
  replace hy : t * F.u.y = F.f.y + k.y := hy
  rw [hx] at hlox hhix
  rw [hy] at hloy hhiy
  rcases le_or_gt 0 t with ht | ht
  · have htx : 0 ≤ F.f.x + k.x := hx ▸ mul_nonneg ht hux
    have hty : 0 ≤ F.f.y + k.y := hy ▸ mul_nonneg ht huy
    exact ⟨V2d.ext (line_eq_zero F.f_x htx hhix) (line_eq_zero F.f_y hty hhiy), ht⟩
  · have htx : F.f.x + k.x < 0 := hx ▸ mul_neg_of_neg_of_pos ht hposx
    have hty : F.f.y + k.y < 0 := hy ▸ mul_neg_of_neg_of_pos ht hposy
    have hkx := line_eq_neg_one F.f_x hlox htx
    have hky := line_eq_neg_one F.f_y hloy hty
    rw [hkx, Int.cast_neg, Int.cast_one] at htx
    rw [hky, Int.cast_neg, Int.cast_one] at hty
    refine (hfree ?_).elim
    simp only [Over, lo, hi, hkx, hky]
    push_cast
    refine ⟨⟨htx, ?_⟩, hty, ?_⟩ <;> linarith

/-- The wall behind that is met on the x-axis. -/
theorem sideX_kind (hfree : ¬Over F k ⟨0, 0⟩) (h : SideX (F.lo k) (F.hi k) F.u t) :
    (Ahead k ∧ 0 ≤ t) ∨ (k = ⟨-1, -2⟩ ∧ F.f.y = 0 ∧ t < 0) := by
  obtain ⟨hfx, hfx'⟩ := F.f_x
  obtain ⟨hfy, hfy'⟩ := F.f_y
  rcases sideX_lines onward_u h with ⟨hx, hy, ht⟩ | ⟨hx, hy | hy, ht⟩
  · exact Or.inl ⟨Or.inl ⟨hx, hy⟩, ht⟩
  · refine (hfree ?_).elim
    simp only [Over, lo, hi, hx, hy]
    push_cast
    refine ⟨⟨?_, ?_⟩, ?_, ?_⟩ <;> linarith
  · refine Or.inr ⟨V2d.ext hx hy, ?_, ht⟩
    by_contra hne
    have hpos : 0 < F.f.y := lt_of_le_of_ne hfy (Ne.symm hne)
    apply hfree
    simp only [Over, lo, hi, hx, hy]
    push_cast
    refine ⟨⟨?_, ?_⟩, ?_, ?_⟩ <;> linarith

/-- The kinds of contacts. -/
theorem Contacts.kind (h : Contacts F T ks) (hk : (k, t) ∈ ks) :
    (Ahead k ∧ 0 ≤ t) ∨
      (k = ⟨-1, -2⟩ ∧ F.f.y = 0 ∧ t < 0 ∧ SideX (F.lo k) (F.hi k) F.u t) ∨
        (k = ⟨-2, -1⟩ ∧ F.f.x = 0 ∧ t < 0 ∧ SideY (F.lo k) (F.hi k) F.u t) := by
  obtain ⟨hT, n, htouch⟩ := (h.mem_iff k t).mp hk
  have hfree := h.free k hT
  cases htouch with
  | sideX hside =>
      rcases sideX_kind hfree hside with hahead | ⟨hk, hfy, ht⟩
      · exact Or.inl hahead
      · exact Or.inr (Or.inl ⟨hk, hfy, ht, hside⟩)
  | sideY hside =>
      rcases sideX_kind (F := F.swap) (k := k.swap) (fun hover => hfree hover.swap) hside with
        ⟨hahead, ht⟩ | ⟨hk, hfx, ht⟩
      · exact Or.inl ⟨hahead.swap, ht⟩
      · exact Or.inr (Or.inr ⟨congrArg V2d.swap hk, hfx, ht, hside⟩)
  | corner hcorner =>
      obtain ⟨rfl, ht⟩ := corner_lines hfree hcorner
      exact Or.inl ⟨Or.inl ⟨rfl, Or.inl rfl⟩, ht⟩

/-- Only the first contact can be before the start. -/
theorem Contacts.shape_of_back (h : Contacts F T ks) (hk : (⟨-1, -2⟩, t) ∈ ks) (ht : t < 0)
    (hside : SideX (F.lo ⟨-1, -2⟩) (F.hi ⟨-1, -2⟩) F.u t) :
    ∃ rest, ks = (⟨-1, -2⟩, t) :: rest ∧ ∀ k ∈ rest.map Prod.fst, Ahead k := by
  obtain ⟨hfx, -⟩ := pos_of_back hside
  -- any other wall is ahead, so it comes at a time of the move
  have hothers : ∀ j s, (j, s) ∈ ks → (j, s) ≠ (⟨-1, -2⟩, t) → Ahead j ∧ 0 ≤ s := by
    intro j s hj hne
    rcases h.kind hj with hahead | ⟨rfl, -, -, hside'⟩ | ⟨-, hzero, -⟩
    · exact hahead
    · exact absurd (congrArg (Prod.mk _) (hside'.time_eq hside)) hne
    · exact absurd hzero hfx.ne'
  obtain ⟨pre, rest, rfl⟩ := List.append_of_mem hk
  have hsorted := List.pairwise_append.mp h.sorted
  have hnodup := h.nodup
  cases pre with
  | nil =>
      refine ⟨rest, rfl, fun k hk => ?_⟩
      obtain ⟨⟨j, s⟩, hj, rfl⟩ := List.mem_map.mp hk
      refine (hothers j s (List.mem_cons_of_mem _ hj) ?_).1
      rintro heq
      exact (List.nodup_cons.mp hnodup).1 (heq ▸ hj)
  | cons a pre =>
      have hle : a.2 ≤ t := hsorted.2.2 a List.mem_cons_self _ List.mem_cons_self
      have hne : a ≠ (⟨-1, -2⟩, t) := by
        rintro rfl
        exact (List.nodup_cons.mp hnodup).1 (by simp)
      have hge := (hothers a.1 a.2 List.mem_cons_self hne).2
      exact absurd (hge.trans hle) ht.not_ge

theorem Contacts.shape (h : Contacts F T ks) :
    (∀ k ∈ ks.map Prod.fst, Ahead k) ∨
      (∃ t, (⟨-1, -2⟩, t) ∈ ks ∧ t < 0 ∧ F.f.y = 0 ∧
        SideX (F.lo ⟨-1, -2⟩) (F.hi ⟨-1, -2⟩) F.u t) ∨
      ∃ t, (⟨-2, -1⟩, t) ∈ ks ∧ t < 0 ∧ F.f.x = 0 ∧
        SideY (F.lo ⟨-2, -1⟩) (F.hi ⟨-2, -1⟩) F.u t := by
  by_cases hall : ∀ k ∈ ks.map Prod.fst, Ahead k
  · exact Or.inl hall
  · right
    obtain ⟨k, hk⟩ := not_forall.mp hall
    obtain ⟨hmem, hbehind⟩ := Classical.not_imp.mp hk
    obtain ⟨⟨j, t⟩, hj, rfl⟩ := List.mem_map.mp hmem
    rcases h.kind hj with ⟨hahead, -⟩ | ⟨rfl, hf, ht, hside⟩ | ⟨rfl, hf, ht, hside⟩
    · exact absurd hahead hbehind
    · exact Or.inl ⟨t, hj, ht, hf, hside⟩
    · exact Or.inr ⟨t, hj, ht, hf, hside⟩

/-- The move of a player that is sent back on the x-axis. -/
theorem Contacts.move_back (h : Contacts F T ks) (hk : (⟨-1, -2⟩, t) ∈ ks) (ht : t < 0)
    (hf : F.f.y = 0) (hside : SideX (F.lo ⟨-1, -2⟩) (F.hi ⟨-1, -2⟩) F.u t)
    (hall : ShortensAll F.lo F.hi (ks.map Prod.fst) F.u v') :
    v' = ⟨F.f.x - 1, if ∀ k ∈ ks.map Prod.fst, k = ⟨-1, -2⟩ ∨ k.x = 0 then F.u.y else 0⟩ := by
  obtain ⟨rest, rfl, hrest⟩ := h.shape_of_back hk ht hside
  obtain ⟨v₁, hstep, hall'⟩ := hall
  rw [shortens_first_back hstep hside] at hall'
  rw [shortensAll_back (pos_of_back hside).1 hf F.u_y.1 hrest hall']
  have hiff : (∀ k ∈ rest.map Prod.fst, k.x = 0) ↔
      ∀ k ∈ (((⟨-1, -2⟩, t) : VI2d × ℚ) :: rest).map Prod.fst, k = ⟨-1, -2⟩ ∨ k.x = 0 := by
    rw [List.map_cons, List.forall_mem_cons]
    constructor
    · exact fun hcol => ⟨Or.inl rfl, fun k hk => Or.inr (hcol k hk)⟩
    · rintro ⟨-, hcol⟩ k hk
      rcases hcol k hk with rfl | hzero
      · rcases hrest _ hk with hahead | hahead
        · exact absurd hahead.1 (by decide)
        · exact absurd hahead.1 (by decide)
      · exact hzero
  simp only [hiff]

theorem Contacts.move_back_y (h : Contacts F T ks) (hk : (⟨-2, -1⟩, t) ∈ ks) (ht : t < 0)
    (hf : F.f.x = 0) (hside : SideY (F.lo ⟨-2, -1⟩) (F.hi ⟨-2, -1⟩) F.u t)
    (hall : ShortensAll F.lo F.hi (ks.map Prod.fst) F.u v') :
    v' = ⟨if ∀ k ∈ ks.map Prod.fst, k = ⟨-2, -1⟩ ∨ k.y = 0 then F.u.x else 0, F.f.y - 1⟩ := by
  have hall' := shortensAll_swap hall
  rw [← map_fst_swapContact] at hall'
  have hv' := h.swap.move_back (List.mem_map_of_mem hk) ht hf hside hall'
  have hiff : (∀ k ∈ (ks.map swapContact).map Prod.fst, k = ⟨-1, -2⟩ ∨ k.x = 0) ↔
      ∀ k ∈ ks.map Prod.fst, k = ⟨-2, -1⟩ ∨ k.y = 0 := by
    rw [map_fst_swapContact, List.forall_mem_map]
    exact forall₂_congr fun k _ => or_congr_left
      ⟨fun hk => congrArg V2d.swap hk, fun hk => congrArg V2d.swap hk⟩
  simp only [hiff] at hv'
  exact congrArg V2d.swap hv'

end MoveFrame

end AmongUs
