import AmongUs.Collision.Contacts
import Mathlib.Data.Rat.Floor

/-!
The frame of a move.

The axes on which the player moves in the negative direction are turned
(`Slab.turn`), which changes neither the contacts nor their times
(`sideX_turn`, `shortens_turn`). The cells of the world become the lines of
the frame (`lineOf`), and so a run over cells becomes a run in the frame
(`shortensAll_frame`, `ContactOrder.contacts`).
-/

namespace AmongUs

section Turn

variable {lo hi d d' : V2d ℚ} {t : ℚ} (s : V2d Bool)

def turn (d : V2d ℚ) : V2d ℚ := ⟨Slab.turn s.x d.x, Slab.turn s.y d.y⟩

def turnLo (lo hi : V2d ℚ) : V2d ℚ := ⟨Slab.turnLo s.x lo.x hi.x, Slab.turnLo s.y lo.y hi.y⟩

def turnHi (lo hi : V2d ℚ) : V2d ℚ := ⟨Slab.turnHi s.x lo.x hi.x, Slab.turnHi s.y lo.y hi.y⟩

theorem sideX_turn : SideX (turnLo s lo hi) (turnHi s lo hi) (turn s d) t ↔ SideX lo hi d t := by
  constructor
  · rintro ⟨hmoves, hmeets, hwithin, hax, hay, hge, hlt⟩
    have hne : d.x ≠ 0 := (Slab.turn_ne_zero s.x).mp hmoves
    obtain ⟨hwithin', hay'⟩ := (Slab.within_turn s.y).mp ⟨hwithin, hay⟩
    refine ⟨hne, ?_, hwithin', ?_, hay', hge, hlt⟩
    · rwa [← Slab.gap_turn s.x hne, ← Slab.abs_turn s.x]
    · rwa [← Slab.rest_turn s.x hne]
  · rintro ⟨hne, hmeets, hwithin, hax, hay, hge, hlt⟩
    obtain ⟨hwithin', hay'⟩ := (Slab.within_turn s.y).mpr ⟨hwithin, hay⟩
    refine ⟨(Slab.turn_ne_zero s.x).mpr hne, ?_, hwithin', ?_, hay', hge, hlt⟩
    · simp only [turnLo, turnHi, turn]
      rwa [Slab.gap_turn s.x hne, Slab.abs_turn s.x]
    · simp only [turnLo, turnHi, turn]
      rwa [Slab.rest_turn s.x hne]

theorem sideY_turn : SideY (turnLo s lo hi) (turnHi s lo hi) (turn s d) t ↔ SideY lo hi d t :=
  @sideX_turn lo.swap hi.swap d.swap t s.swap

theorem corner_turn : Corner (turnLo s lo hi) (turnHi s lo hi) (turn s d) t ↔ Corner lo hi d t := by
  constructor
  · rintro ⟨hx, hy, hmx, hmy, hax, hay, hge, hlt⟩
    have hnx : d.x ≠ 0 := (Slab.turn_ne_zero s.x).mp hx
    have hny : d.y ≠ 0 := (Slab.turn_ne_zero s.y).mp hy
    refine ⟨hnx, hny, ?_, ?_, ?_, ?_, hge, hlt⟩
    · rwa [← Slab.gap_turn s.x hnx, ← Slab.abs_turn s.x]
    · rwa [← Slab.gap_turn s.y hny, ← Slab.abs_turn s.y]
    · rwa [← Slab.rest_turn s.x hnx]
    · rwa [← Slab.rest_turn s.y hny]
  · rintro ⟨hnx, hny, hmx, hmy, hax, hay, hge, hlt⟩
    refine ⟨(Slab.turn_ne_zero s.x).mpr hnx, (Slab.turn_ne_zero s.y).mpr hny, ?_, ?_, ?_, ?_,
      hge, hlt⟩
    · simp only [turnLo, turnHi, turn]
      rwa [Slab.gap_turn s.x hnx, Slab.abs_turn s.x]
    · simp only [turnLo, turnHi, turn]
      rwa [Slab.gap_turn s.y hny, Slab.abs_turn s.y]
    · simp only [turnLo, turnHi, turn]
      rwa [Slab.rest_turn s.x hnx]
    · simp only [turnLo, turnHi, turn]
      rwa [Slab.rest_turn s.y hny]

theorem exists_touches_iff : (∃ n, Touches lo hi d t n) ↔
    SideX lo hi d t ∨ SideY lo hi d t ∨ Corner lo hi d t := by
  constructor
  · rintro ⟨n, h | h | h⟩
    · exact Or.inl h
    · exact Or.inr (Or.inl h)
    · exact Or.inr (Or.inr h)
  · rintro (h | h | h)
    · exact ⟨_, .sideX h⟩
    · exact ⟨_, .sideY h⟩
    · exact ⟨_, .corner h⟩

theorem exists_touches_turn :
    (∃ n, Touches (turnLo s lo hi) (turnHi s lo hi) (turn s d) t n) ↔
      ∃ n, Touches lo hi d t n := by
  rw [exists_touches_iff, exists_touches_iff, sideX_turn, sideY_turn, corner_turn]

theorem shortens_turn (h : Shortens lo hi d d') :
    Shortens (turnLo s lo hi) (turnHi s lo hi) (turn s d) (turn s d') := by
  rcases h with ⟨t, hside, rfl⟩ | ⟨t, hside, rfl⟩ | ⟨hx, hy, rfl⟩
  · refine Or.inl ⟨t, (sideX_turn s).mpr hside, ?_⟩
    exact V2d.ext (Slab.face_turn s.x hside.moves).symm rfl
  · refine Or.inr (Or.inl ⟨t, (sideY_turn s).mpr hside, ?_⟩)
    exact V2d.ext rfl (Slab.face_turn s.y hside.moves).symm
  · exact Or.inr (Or.inr ⟨fun t h => hx t ((sideX_turn s).mp h),
      fun t h => hy t ((sideY_turn s).mp h), rfl⟩)

end Turn

/-- The distance to the next line of cells in the direction of the motion. -/
def lineGap (p d : ℚ) : ℚ := if d < 0 then p - ⌊p⌋ else ⌈p⌉ - p

/-- The number of a line of cells, counted from the first one ahead. -/
def lineNumber (p d : ℚ) (i : ℤ) : ℤ := if d < 0 then ⌊p⌋ - 1 - i else i - ⌈p⌉ - 1

theorem lineGap_bounds (p d : ℚ) : 0 ≤ lineGap p d ∧ lineGap p d < 1 := by
  unfold lineGap
  split
  · exact ⟨sub_nonneg.mpr (Int.floor_le p), by linarith [Int.lt_floor_add_one p]⟩
  · exact ⟨sub_nonneg.mpr (Int.le_ceil p), by linarith [Int.ceil_lt_add_one p]⟩

theorem turn_lt_zero (d : ℚ) : Slab.turn (decide (d < 0)) d = |d| := by
  unfold Slab.turn
  split
  · next h => rw [abs_of_neg (of_decide_eq_true h)]
  · next h => rw [abs_of_nonneg (not_lt.mp fun hlt => h (decide_eq_true hlt))]

theorem turn_injective (s : V2d Bool) : Function.Injective (turn s) := by
  have hinj : ∀ s : Bool, Function.Injective (Slab.turn s : ℚ → ℚ) := by
    intro s
    cases s with
    | false => exact Function.injective_id
    | true => exact neg_injective
  exact fun d d' h => V2d.ext (hinj s.x (congrArg V2d.x h)) (hinj s.y (congrArg V2d.y h))

/-- The signs of a displacement. -/
def turnedAxes (d : V2d ℚ) : V2d Bool := ⟨decide (d.x < 0), decide (d.y < 0)⟩

def lineOf (p d : V2d ℚ) (c : VI2d) : VI2d := ⟨lineNumber p.x d.x c.x, lineNumber p.y d.y c.y⟩

def frameOf (p d : V2d ℚ) (hx : |d.x| < 1) (hy : |d.y| < 1) : MoveFrame where
  f := ⟨lineGap p.x d.x, lineGap p.y d.y⟩
  u := ⟨|d.x|, |d.y|⟩
  f_x := lineGap_bounds p.x d.x
  f_y := lineGap_bounds p.y d.y
  u_x := ⟨abs_nonneg _, hx⟩
  u_y := ⟨abs_nonneg _, hy⟩

theorem lineNumber_injective (p d : ℚ) : Function.Injective (lineNumber p d) := by
  intro i j h
  unfold lineNumber at h
  split at h
  · omega
  · omega

theorem lineGap_add_lineNumber (p d : ℚ) (i : ℤ) :
    lineGap p d + lineNumber p d i =
      Slab.turnLo (decide (d < 0)) ((i : ℚ) - p - 1) ((i : ℚ) + 1 - p) := by
  unfold lineGap lineNumber Slab.turnLo
  by_cases hd : d < 0
  · rw [if_pos hd, if_pos hd, if_pos (decide_eq_true hd)]
    push_cast
    ring
  · rw [if_neg hd, if_neg hd, if_neg (by simpa using hd)]
    push_cast
    ring

theorem lineGap_add_lineNumber_add_two (p d : ℚ) (i : ℤ) :
    lineGap p d + lineNumber p d i + 2 =
      Slab.turnHi (decide (d < 0)) ((i : ℚ) - p - 1) ((i : ℚ) + 1 - p) := by
  rw [lineGap_add_lineNumber]
  unfold Slab.turnLo Slab.turnHi
  split <;> ring

/-- The unit square at a position overlaps the interior of a cell. -/
def Overlaps (q : V2d ℚ) (c : VI2d) : Prop :=
  ((c.x : ℚ) < q.x + 1 ∧ q.x < c.x + 1) ∧ (c.y : ℚ) < q.y + 1 ∧ q.y < c.y + 1

section MoveFrame

variable {world : World} {p d d₁ d₂ : V2d ℚ} (hx : |d.x| < 1) (hy : |d.y| < 1) {c : VI2d}
  {cells : List VI2d} {t : ℚ}

theorem lineOf_injective (p d : V2d ℚ) : Function.Injective (lineOf p d) := fun _ _ h =>
  V2d.ext (lineNumber_injective p.x d.x (congrArg V2d.x h))
    (lineNumber_injective p.y d.y (congrArg V2d.y h))

theorem frameOf_lo : (frameOf p d hx hy).lo (lineOf p d c) =
    turnLo (turnedAxes d) (cellLo p c) (cellHi p c) :=
  V2d.ext (lineGap_add_lineNumber ..) (lineGap_add_lineNumber ..)

theorem frameOf_hi : (frameOf p d hx hy).hi (lineOf p d c) =
    turnHi (turnedAxes d) (cellLo p c) (cellHi p c) :=
  V2d.ext (lineGap_add_lineNumber_add_two ..) (lineGap_add_lineNumber_add_two ..)

theorem frameOf_u : (frameOf p d hx hy).u = turn (turnedAxes d) d :=
  V2d.ext (turn_lt_zero d.x).symm (turn_lt_zero d.y).symm

theorem shortensAll_frame {cs : List VI2d} (h : ShortensAll (cellLo p) (cellHi p) cs d₁ d₂) :
    ShortensAll (frameOf p d hx hy).lo (frameOf p d hx hy).hi (cs.map (lineOf p d))
      (turn (turnedAxes d) d₁) (turn (turnedAxes d) d₂) := by
  refine h.map (lineOf p d) (turn (turnedAxes d)) fun c a b hstep => ?_
  rw [frameOf_lo, frameOf_hi]
  exact shortens_turn _ hstep

theorem slab_over_turn {s : Bool} {lo hi v : ℚ} :
    (Slab.turnLo s lo hi < Slab.turn s v ∧ Slab.turn s v < Slab.turnHi s lo hi) ↔
      lo < v ∧ v < hi := by
  cases s with
  | false => exact Iff.rfl
  | true => exact and_comm.trans (and_congr neg_lt_neg_iff neg_lt_neg_iff)

theorem over_frame_iff : MoveFrame.Over (frameOf p d hx hy) (lineOf p d c)
    (turn (turnedAxes d) d₁) ↔ Overlaps (p + d₁) c := by
  unfold MoveFrame.Over
  rw [frameOf_lo, frameOf_hi]
  refine (and_congr slab_over_turn slab_over_turn).trans ?_
  simp only [cellLo, cellHi, Overlaps, V2d.add_x, V2d.add_y]
  constructor
  · rintro ⟨⟨h1, h2⟩, h3, h4⟩
    refine ⟨⟨?_, ?_⟩, ?_, ?_⟩ <;> linarith
  · rintro ⟨⟨h1, h2⟩, h3, h4⟩
    refine ⟨⟨?_, ?_⟩, ?_, ?_⟩ <;> linarith

theorem over_frame_start_iff : MoveFrame.Over (frameOf p d hx hy) (lineOf p d c) ⟨0, 0⟩ ↔
    Overlaps p c := by
  have hzero : turn (turnedAxes d) ⟨0, 0⟩ = ⟨0, 0⟩ := by
    unfold turn Slab.turn
    simp
  have hadd : p + ⟨0, 0⟩ = p := V2d.ext (add_zero _) (add_zero _)
  rw [← hzero, over_frame_iff hx hy, hadd]

theorem frame_sideX_iff : SideX ((frameOf p d hx hy).lo (lineOf p d c))
    ((frameOf p d hx hy).hi (lineOf p d c)) (frameOf p d hx hy).u t ↔
      SideX (cellLo p c) (cellHi p c) d t := by
  rw [frameOf_lo, frameOf_hi, frameOf_u, sideX_turn]

theorem frame_sideY_iff : SideY ((frameOf p d hx hy).lo (lineOf p d c))
    ((frameOf p d hx hy).hi (lineOf p d c)) (frameOf p d hx hy).u t ↔
      SideY (cellLo p c) (cellHi p c) d t := by
  rw [frameOf_lo, frameOf_hi, frameOf_u, sideY_turn]

theorem frame_corner_iff : Corner ((frameOf p d hx hy).lo (lineOf p d c))
    ((frameOf p d hx hy).hi (lineOf p d c)) (frameOf p d hx hy).u t ↔
      Corner (cellLo p c) (cellHi p c) d t := by
  rw [frameOf_lo, frameOf_hi, frameOf_u, corner_turn]

/-- The walls among a list of cells, in the frame. -/
def wallsOf (world : World) (p d : V2d ℚ) (cells : List VI2d) (k : VI2d) : Prop :=
  ∃ c ∈ cells, (world.getCell c).wall ∧ lineOf p d c = k

def inFrame (p d : V2d ℚ) (k : VI2d × ℚ) : VI2d × ℚ := (lineOf p d k.1, k.2)

theorem ContactOrder.contacts {ks : List (VI2d × ℚ)} (h : ContactOrder world p d cells ks)
    (hfree : ∀ c ∈ cells, (world.getCell c).wall → ¬Overlaps p c) :
    MoveFrame.Contacts (frameOf p d hx hy) (wallsOf world p d cells) (ks.map (inFrame p d)) where
  free := by
    rintro k ⟨c, hc, hwall, rfl⟩ hover
    exact hfree c hc hwall ((over_frame_start_iff hx hy).mp hover)
  mem_iff k t := by
    rw [List.mem_map]
    constructor
    · rintro ⟨⟨c, s⟩, hmem, heq⟩
      obtain ⟨rfl, rfl⟩ := Prod.mk.inj heq
      obtain ⟨hc, hwall, htouch⟩ := (h.mem_iff c s).mp hmem
      refine ⟨⟨c, hc, hwall, rfl⟩, ?_⟩
      rw [frameOf_lo, frameOf_hi, frameOf_u]
      exact (exists_touches_turn _).mpr htouch
    · rintro ⟨⟨c, hc, hwall, rfl⟩, htouch⟩
      rw [frameOf_lo, frameOf_hi, frameOf_u, exists_touches_turn] at htouch
      exact ⟨(c, t), (h.mem_iff c t).mpr ⟨hc, hwall, htouch⟩, rfl⟩
  nodup := h.nodup.map fun a b hab => by
    obtain ⟨hline, htime⟩ := Prod.mk.inj hab
    exact Prod.ext (lineOf_injective p d hline) htime
  sorted := List.pairwise_map.mpr h.sorted

theorem map_fst_inFrame (ks : List (VI2d × ℚ)) :
    (ks.map (inFrame p d)).map Prod.fst = (ks.map Prod.fst).map (lineOf p d) := by
  rw [List.map_map, List.map_map]
  rfl

/-- A run over cells, in the frame. -/
theorem ContactOrder.run {ks : List (VI2d × ℚ)} (h : ContactOrder world p d cells ks)
    (hfree : ∀ c, (world.getCell c).wall → ¬Overlaps p c)
    (hall : ShortensAll (cellLo p) (cellHi p) (ks.map Prod.fst) d d₁) :
    MoveFrame.Contacts (frameOf p d hx hy) (wallsOf world p d cells) (ks.map (inFrame p d)) ∧
      ShortensAll (frameOf p d hx hy).lo (frameOf p d hx hy).hi
        ((ks.map (inFrame p d)).map Prod.fst) (frameOf p d hx hy).u (turn (turnedAxes d) d₁) := by
  refine ⟨h.contacts hx hy fun c _ => hfree c, ?_⟩
  rw [map_fst_inFrame, frameOf_u]
  exact shortensAll_frame hx hy hall

end MoveFrame

end AmongUs
