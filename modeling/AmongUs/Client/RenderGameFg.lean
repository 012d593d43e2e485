import AmongUs.Collision.Landing
import AmongUs.Networking.Message
import AmongUs.Transition.Machine
import Mathlib.Tactic.NormNum

/-!
The player on the map, from frame to frame.

`RenderGameFg` moves the player with the velocity of the held keys and then
clamps the position to the map. The test at the far borders is the one of a
cursor that counts cells: it lets a position pass that is less than the size
of the map, though a square that stands between the last cell and the border
already reaches over it (`onMap_clampToMap`).

The response to the walls ends on whole coordinates, so the player comes to
stand there only where the move without walls would have ended there
(`KeepsOffBorder`).
-/

namespace AmongUs.Client

open Networking Transition

structure HeldKeys where
  w : Bool
  a : Bool
  s : Bool
  d : Bool

/-- A component of `vCharVel`, from the two keys of its axis. -/
def heldVel (back forth : Bool) : ℚ :=
  if back && !forth then -10 else if !back && forth then 10 else 0

def charVel (held : HeldKeys) : V2d ℚ := ⟨heldVel held.a held.d, heldVel held.w held.s⟩

/-- The four tests after the collisions. -/
def clampToMap (size : VI2d) (vCharPos : VF2d) : VF2d :=
  let p := vCharPos
  let p := if p.x < .fin 0 then { p with x := .fin 0 } else p
  let p := if p.y < .fin 0 then { p with y := .fin 0 } else p
  let p := if .fin (size.x : ℚ) ≤ p.x then { p with x := .fin (size.x - 1 : ℤ) } else p
  if .fin (size.y : ℚ) ≤ p.y then { p with y := .fin (size.y - 1 : ℤ) } else p

/-- What a frame is given. -/
structure FrameInput where
  held : HeldKeys
  fElapsedTime : ℚ

/-- `vCharPos` after the frame. -/
def renderGameFg (sort : List (Rect × Extended ℚ) → List (Rect × Extended ℚ)) (world : World)
    (vCharPos : VF2d) (input : FrameInput) : VF2d :=
  clampToMap world.size
    (resolveCollision sort world vCharPos (.fin (charVel input.held)) (.fin input.fElapsedTime))

def frameMachine (sort : List (Rect × Extended ℚ) → List (Rect × Extended ℚ)) (world : World) :
    Machine VF2d FrameInput Unit Fault where
  enabled _ input := decide (0 < input.fElapsedTime)
  step vCharPos input := .ok (renderGameFg sort world vCharPos input, ())

/-- The unit square of the player lies inside the world. -/
def OnMap (size : VI2d) (vCharPos : VF2d) : Prop :=
  (.fin 0 ≤ vCharPos.x ∧ vCharPos.x + .fin 1 ≤ .fin (size.x : ℚ)) ∧
    .fin 0 ≤ vCharPos.y ∧ vCharPos.y + .fin 1 ≤ .fin (size.y : ℚ)

/-- Between the last whole coordinate of the map and its border. -/
def InBorder (n : ℤ) (x : Extended ℚ) : Prop := .fin (n - 1 : ℤ) < x ∧ x < .fin (n : ℚ)

instance (n : ℤ) (x : Extended ℚ) : Decidable (InBorder n x) :=
  inferInstanceAs (Decidable (_ ∧ _))

/-- On each axis the frame would not end in the border if there were no
walls, or the walls that it meets first stop this axis. -/
def KeepsOffBorder (world : World) (vCharPos : VF2d) (input : FrameInput) : Prop :=
  let vCharVel : VF2d := .fin (charVel input.held)
  let elapsedTime : Extended ℚ := .fin input.fElapsedTime
  let target := vCharPos + vCharVel * elapsedTime
  (InBorder world.size.x target.x →
    FirstWallStops world vCharPos vCharVel elapsedTime V2d.x) ∧
  (InBorder world.size.y target.y →
    FirstWallStops world vCharPos vCharVel elapsedTime V2d.y)

/-- The frame moves the player along one axis at most, or meets no wall. -/
def Plain (world : World) (vCharPos : VF2d) (input : FrameInput) : Prop :=
  (charVel input.held).x = 0 ∨ (charVel input.held).y = 0 ∨
    ∀ c k, ¬MeetsWall world vCharPos (.fin (charVel input.held)) (.fin input.fElapsedTime) c k

/-- What `std::sort` promises, for all contacts of the player. -/
def SortsAllContacts (sort : List (Rect × Extended ℚ) → List (Rect × Extended ℚ))
    (world : World) : Prop :=
  ∀ (p v : V2d ℚ) (e : ℚ),
    SortsContacts sort world (surroundingCells (.fin p)) (.fin p) (.fin v) (.fin e)

variable {sort : List (Rect × Extended ℚ) → List (Rect × Extended ℚ)} {world : World}
  {size : VI2d} {p d' : V2d ℚ} {input : FrameInput}

/-! ### The clamp -/

/-- The two tests of an axis. -/
def clampAxis (n : ℤ) (x : ℚ) : ℚ :=
  let x := if x < 0 then 0 else x
  if n ≤ x then (n - 1 : ℤ) else x

/-- The tests of the two axes do not get in each other's way. -/
theorem clampToMap_fin (size : VI2d) (p : V2d ℚ) :
    clampToMap size (.fin p) = .fin ⟨clampAxis size.x p.x, clampAxis size.y p.y⟩ := by
  have hx {P : Prop} [Decidable P] (q : V2d ℚ) (a : ℚ) :
      (if P then (⟨.fin a, (V2d.fin q).y⟩ : VF2d) else .fin q) =
        V2d.fin ⟨if P then a else q.x, q.y⟩ := by
    split <;> rfl
  have hy {P : Prop} [Decidable P] (q : V2d ℚ) (a : ℚ) :
      (if P then (⟨(V2d.fin q).x, .fin a⟩ : VF2d) else .fin q) =
        V2d.fin ⟨q.x, if P then a else q.y⟩ := by
    split <;> rfl
  unfold clampToMap
  dsimp only
  rw [hx p, hy, hx, hy]
  simp only [V2d.fin_x, V2d.fin_y, Extended.fin_lt_fin, Extended.fin_le_fin]
  rfl

theorem clampAxis_iff {n : ℤ} (hn : 0 < n) (x : ℚ) :
    0 ≤ clampAxis n x ∧ clampAxis n x + 1 ≤ n ↔ ¬((n - 1 : ℤ) < x ∧ x < n) := by
  have hone : (1 : ℚ) ≤ n := by exact_mod_cast hn
  unfold clampAxis
  push_cast
  by_cases hneg : x < 0
  · rw [if_pos hneg, if_neg (by linarith)]
    refine iff_of_true ⟨le_rfl, by linarith⟩ fun h => ?_
    linarith [h.1]
  · rw [if_neg hneg]
    rw [not_lt] at hneg
    by_cases hfar : n ≤ x
    · rw [if_pos hfar]
      exact iff_of_true ⟨by linarith, by linarith⟩ fun h => h.2.not_ge hfar
    · rw [if_neg hfar]
      rw [not_le] at hfar
      constructor
      · rintro ⟨-, hle⟩ ⟨hlt, -⟩
        linarith
      · intro h
        refine ⟨hneg, ?_⟩
        by_contra hlt
        exact h ⟨by linarith, hfar⟩

theorem onMap_fin_iff : OnMap size (.fin p) ↔
    (0 ≤ p.x ∧ p.x + 1 ≤ size.x) ∧ 0 ≤ p.y ∧ p.y + 1 ≤ size.y := by
  simp only [OnMap, V2d.fin_x, V2d.fin_y, Extended.fin_add_fin, Extended.fin_le_fin]

theorem inBorder_fin_iff {n : ℤ} {x : ℚ} : InBorder n (.fin x) ↔ (n - 1 : ℤ) < x ∧ x < n :=
  Iff.rfl

/-- After the clamp the player is on the map, unless it was in the border. -/
theorem onMap_clampToMap (hsize : 0 < size.x ∧ 0 < size.y) :
    OnMap size (clampToMap size (.fin p)) ↔
      ¬InBorder size.x (.fin p.x) ∧ ¬InBorder size.y (.fin p.y) := by
  rw [clampToMap_fin, onMap_fin_iff, clampAxis_iff hsize.1, clampAxis_iff hsize.2]
  rfl

/-- A player on the map is at an exact position. -/
theorem OnMap.exists_fin {vCharPos : VF2d} (h : OnMap size vCharPos) :
    ∃ p, vCharPos = .fin p := by
  have haxis (x : Extended ℚ) (n : ℤ) (hx : .fin 0 ≤ x ∧ x + .fin 1 ≤ .fin (n : ℚ)) :
      ∃ q, x = .fin q := by
    obtain ⟨hlo, hhi⟩ := hx
    cases x with
    | fin q => exact ⟨q, rfl⟩
    | posInf => exact absurd hhi fun h => h.elim id fun heq => by cases heq.1
    | negInf => exact absurd hlo fun h => h.elim id fun heq => by cases heq.1
    | nan => exact absurd hlo fun h => h.elim id fun heq => by cases heq.1
  obtain ⟨px, hpx⟩ := haxis _ _ h.1
  obtain ⟨py, hpy⟩ := haxis _ _ h.2
  exact ⟨⟨px, py⟩, V2d.ext hpx hpy⟩

theorem whole_not_inBorder {n i : ℤ} {x : ℚ} (hx : x = i) : ¬InBorder n (.fin x) := by
  rw [inBorder_fin_iff, hx, Int.cast_lt, Int.cast_lt]
  omega

/-! ### Frames -/

/-- What one frame does to a player at an exact position. -/
theorem renderGameFg_fin (hsort : SortsAllContacts sort world) (he : 0 < input.fElapsedTime)
    (p : V2d ℚ) :
    ∃ d', renderGameFg sort world (.fin p) input = clampToMap world.size (.fin (p + d')) ∧
      Landing world p (charVel input.held) input.fElapsedTime d' := by
  obtain ⟨d', hend, hlanding⟩ := resolveCollision_lands he (hsort p _ _)
  exact ⟨d', congrArg (clampToMap world.size) hend, hlanding⟩

/-- On an axis that a wall may stop, the frame ends off the border. -/
theorem not_inBorder_of_lands {n : ℤ} {x y y' : ℚ} {Stops : Prop}
    (hlands : y' = y ∨ ∃ i : ℤ, x + y' = i) (hstopped : Stops → ∃ i : ℤ, x + y' = i)
    (hkeeps : InBorder n (.fin (x + y)) → Stops) : ¬InBorder n (.fin (x + y')) := by
  intro hborder
  have hwhole : ∃ i : ℤ, x + y' = i := by
    obtain rfl | hwhole := hlands
    · exact hstopped (hkeeps hborder)
    · exact hwhole
  obtain ⟨i, hi⟩ := hwhole
  exact whole_not_inBorder hi hborder

/-- A frame that keeps off the border ends on the map, wherever it starts. -/
theorem onMap_renderGameFg (hsize : 0 < world.size.x ∧ 0 < world.size.y)
    (hsort : SortsAllContacts sort world) (he : 0 < input.fElapsedTime)
    (hkeeps : KeepsOffBorder world (.fin p) input) :
    OnMap world.size (renderGameFg sort world (.fin p) input) := by
  obtain ⟨d', hframe, hlanding⟩ := renderGameFg_fin hsort he p
  rw [hframe, onMap_clampToMap hsize]
  exact ⟨not_inBorder_of_lands hlanding.x hlanding.stoppedX hkeeps.1,
    not_inBorder_of_lands hlanding.y hlanding.stoppedY hkeeps.2⟩

/-- A player on the map that does not move on an axis is not in the border. -/
theorem not_inBorder_of_still {n : ℤ} {x v e : ℚ} (hx : x + 1 ≤ n) (hv : v = 0) :
    ¬InBorder n (.fin (x + v * e)) := by
  rw [inBorder_fin_iff, hv, zero_mul, add_zero]
  push_cast
  exact fun h => absurd h.1 (not_lt.mpr (by linarith))

/-- A plain frame that does not keep off the border ends in it. -/
theorem keepsOffBorder_of_onMap (hsize : 0 < world.size.x ∧ 0 < world.size.y)
    (hsort : SortsAllContacts sort world) (he : 0 < input.fElapsedTime)
    (hstart : OnMap world.size (.fin p)) (hplain : Plain world (.fin p) input)
    (hend : OnMap world.size (renderGameFg sort world (.fin p) input)) :
    KeepsOffBorder world (.fin p) input := by
  obtain ⟨d', hframe, hlanding⟩ := renderGameFg_fin hsort he p
  rw [hframe, onMap_clampToMap hsize] at hend
  obtain ⟨⟨-, hx⟩, -, hy⟩ := onMap_fin_iff.mp hstart
  refine ⟨fun hborder => ?_, fun hborder => ?_⟩
  · have hwall := hlanding.exists_meetsWall fun hfree => hend.1 (hfree ▸ hborder)
    refine ⟨hwall, fun c k hk _ => hk.normal_x ?_⟩
    obtain hstill | hstill | hfree := hplain
    · exact absurd hborder (not_inBorder_of_still hx hstill)
    · exact mul_eq_zero_of_left hstill _
    · exact absurd hk (hfree c k)
  · have hwall := hlanding.exists_meetsWall fun hfree => hend.2 (hfree ▸ hborder)
    refine ⟨hwall, fun c k hk _ => hk.normal_y ?_⟩
    obtain hstill | hstill | hfree := hplain
    · exact mul_eq_zero_of_left hstill _
    · exact absurd hborder (not_inBorder_of_still hy hstill)
    · exact absurd hk (hfree c k)

/-- **The player stays on the map** in every run whose frames all keep off
the border; and a run of plain frames stays on the map only if they all do. -/
theorem stays_on_map (hsize : 0 < world.size.x ∧ 0 < world.size.y)
    (hsort : SortsAllContacts sort world) {tr : List (Event VF2d FrameInput Unit)}
    {vCharPos : VF2d} (h : (frameMachine sort world).Run (.fin ⟨0, 0⟩) tr vCharPos) :
    ((∀ e ∈ tr, KeepsOffBorder world e.src e.act) →
      ∀ q ∈ Machine.visited (.fin ⟨0, 0⟩) tr, OnMap world.size q) ∧
    ((∀ e ∈ tr, Plain world e.src e.act) →
      ((∀ q ∈ Machine.visited (.fin ⟨0, 0⟩) tr, OnMap world.size q) ↔
        ∀ e ∈ tr, KeepsOffBorder world e.src e.act)) := by
  have hkeeps : (∀ e ∈ tr, KeepsOffBorder world e.src e.act) →
      ∀ q ∈ Machine.visited (.fin ⟨0, 0⟩) tr, OnMap world.size q := by
    intro hall
    have hstart : OnMap world.size (.fin ⟨0, 0⟩) := by
      rw [onMap_fin_iff]
      have hx : (1 : ℚ) ≤ world.size.x := by exact_mod_cast hsize.1
      have hy : (1 : ℚ) ≤ world.size.y := by exact_mod_cast hsize.2
      simp [hx, hy]
    apply h.visited_invariant (g := KeepsOffBorder world) hstart hall
    rintro ⟨q, input, out, q'⟩ ⟨henabled, hstep⟩ hkeeps hsrc
    obtain ⟨p, rfl⟩ := hsrc.exists_fin
    rw [← (Prod.mk.inj (Except.ok.inj hstep)).1]
    exact onMap_renderGameFg hsize hsort (of_decide_eq_true henabled) hkeeps
  refine ⟨hkeeps, fun hplain => ⟨fun hmap e he => ?_, hkeeps⟩⟩
  obtain ⟨henabled, hstep⟩ := h.takes e he
  have hsrc := hmap e.src (h.src_mem_visited e he)
  have hdst := hmap e.dst (List.mem_cons_of_mem _ (List.mem_map_of_mem he))
  obtain ⟨p, hp⟩ := hsrc.exists_fin
  rw [hp] at hsrc
  have hend : renderGameFg sort world (.fin p) e.act = e.dst := by
    rw [← hp]
    exact (Prod.mk.inj (Except.ok.inj hstep)).1
  rw [hp]
  refine keepsOffBorder_of_onMap hsize hsort (of_decide_eq_true henabled) hsrc ?_ (hend ▸ hdst)
  rw [← hp]
  exact hplain e he

/-- With one wall at most there is nothing to sort. -/
theorem sortsAllContacts_id
    (hone : ∀ c c', (world.getCell c).wall → (world.getCell c').wall → c = c') :
    SortsAllContacts id world := by
  intro p v e
  refine ⟨.refl _, (collectContacts_nodup world (surroundingCells_nodup _) _ _).imp_of_mem ?_⟩
  rintro ⟨r, x⟩ ⟨r', x'⟩ hmem hmem' hne
  obtain ⟨c, -, t, hmeets, hpair⟩ := mem_collectContacts.mp hmem
  obtain ⟨c', -, t', hmeets', hpair'⟩ := mem_collectContacts.mp hmem'
  obtain rfl := hone c c' hmeets.1 hmeets'.1
  rw [hpair, hpair', hmeets.time_eq hmeets'] at hne
  exact absurd rfl hne

/-- `D` is held for a frame. -/
def rightFor (fElapsedTime : ℚ) : FrameInput := ⟨⟨false, false, false, true⟩, fElapsedTime⟩

/-- `S` is held for a frame. -/
def downFor (fElapsedTime : ℚ) : FrameInput := ⟨⟨false, false, true, false⟩, fElapsedTime⟩

/-- To the right, against the wall, and down. -/
def walk : List (Event VF2d FrameInput Unit) :=
  [⟨.fin ⟨0, 0⟩, rightFor (1 / 10), (), .fin ⟨1, 0⟩⟩,
    ⟨.fin ⟨1, 0⟩, rightFor (3 / 20), (), .fin ⟨1, 0⟩⟩,
    ⟨.fin ⟨1, 0⟩, downFor (1 / 20), (), .fin ⟨1, 1 / 2⟩⟩]

theorem run_walk : (frameMachine id wallAhead).Run (.fin ⟨0, 0⟩) walk (.fin ⟨1, 1 / 2⟩) := by
  have htakes {q q' : VF2d} {i : FrameInput} (he : 0 < i.fElapsedTime)
      (hframe : renderGameFg id wallAhead q i = q') :
      (frameMachine id wallAhead).Takes ⟨q, i, (), q'⟩ :=
    ⟨decide_eq_true he, congrArg (fun q => Except.ok (q, ())) hframe⟩
  have hright : renderGameFg id wallAhead (.fin ⟨0, 0⟩) (rightFor (1 / 10)) = .fin ⟨1, 0⟩ := by
    decide +kernel
  have hblocked : renderGameFg id wallAhead (.fin ⟨1, 0⟩) (rightFor (3 / 20)) = .fin ⟨1, 0⟩ := by
    decide +kernel
  have hdown : renderGameFg id wallAhead (.fin ⟨1, 0⟩) (downFor (1 / 20)) = .fin ⟨1, 1 / 2⟩ := by
    decide +kernel
  have hrun := ((Machine.Run.nil.snoc (htakes (by norm_num [rightFor]) hright)).snoc
    (htakes (by norm_num [rightFor]) hblocked)).snoc (htakes (by norm_num [downFor]) hdown)
  exact hrun

/-- The second frame would end in the border, but the wall stops it. -/
theorem firstWallStops_walk :
    FirstWallStops wallAhead (.fin ⟨1, 0⟩) (.fin (charVel (rightFor (3 / 20)).held))
      (.fin (3 / 20)) V2d.x := by
  have hmeet : dynamicRectVsRect
      (playerRect (.fin ⟨1, 0⟩) (.fin (charVel (rightFor (3 / 20)).held))) (.fin (3 / 20))
      (cellRect ⟨2, 0⟩) = some ⟨.fin ⟨3 / 2, 1 / 2⟩, .fin ⟨-1, 0⟩, .fin 0⟩ := by
    decide +kernel
  refine ⟨⟨⟨2, 0⟩, _, by decide +kernel, wallAhead_wall_iff.mpr rfl, hmeet⟩, ?_⟩
  rintro c k ⟨-, hwall, hk⟩ -
  obtain rfl := wallAhead_wall_iff.mp hwall
  obtain rfl := Option.some.inj (hmeet.symm.trans hk)
  decide +kernel

theorem stays_on_map_wallAhead :
    (∃ e ∈ walk, ∃ c k, MeetsWall wallAhead e.src (.fin (charVel e.act.held))
      (.fin e.act.fElapsedTime) c k) ∧
    ∀ q ∈ Machine.visited (.fin ⟨0, 0⟩) walk, OnMap wallAhead.size q := by
  have hone : ∀ c c', (wallAhead.getCell c).wall → (wallAhead.getCell c').wall → c = c' :=
    fun c c' hc hc' => (wallAhead_wall_iff.mp hc).trans (wallAhead_wall_iff.mp hc').symm
  refine ⟨⟨_, .tail _ (.head _), firstWallStops_walk.1⟩,
    (stays_on_map (by decide) (sortsAllContacts_id hone) run_walk).1 fun e he => ?_⟩
  rw [walk, List.mem_cons, List.mem_cons, List.mem_singleton] at he
  obtain rfl | rfl | rfl := he
  · exact ⟨fun hborder => absurd hborder (by decide +kernel),
      fun hborder => absurd hborder (by decide +kernel)⟩
  · exact ⟨fun _ => firstWallStops_walk, fun hborder => absurd hborder (by decide +kernel)⟩
  · exact ⟨fun hborder => absurd hborder (by decide +kernel),
      fun hborder => absurd hborder (by decide +kernel)⟩

/-! ### A map of two by two cells without walls -/

theorem not_meetsWall_create {a b : ℤ} {vfPos vfVel : VF2d} {elapsedTime : Extended ℚ} {c : VI2d}
    {k : Contact} : ¬MeetsWall (World.create a b) vfPos vfVel elapsedTime c k := by
  rintro ⟨-, hwall, -⟩
  rw [World.wall_create] at hwall
  cases hwall

theorem sortsAllContacts_create (a b : ℤ) : SortsAllContacts id (World.create a b) :=
  sortsAllContacts_id fun _ _ hwall _ => nomatch World.wall_create.symm.trans hwall

/-- The frame, from the start. -/
def frameRight (fElapsedTime : ℚ) : Event VF2d FrameInput Unit where
  src := .fin ⟨0, 0⟩
  act := rightFor fElapsedTime
  out := ()
  dst := renderGameFg id (World.create 2 2) (.fin ⟨0, 0⟩) (rightFor fElapsedTime)

theorem run_frameRight {e : ℚ} (he : 0 < e) :
    (frameMachine id (World.create 2 2)).Run (.fin ⟨0, 0⟩) [frameRight e] (frameRight e).dst := by
  have hrun : (frameMachine id (World.create 2 2)).Run (.fin ⟨0, 0⟩) ([] ++ [frameRight e])
      (frameRight e).dst := .snoc .nil ⟨decide_eq_true he, rfl⟩
  exact hrun

/-- Three twentieths of a second take the square over the right border. -/
theorem leaves_map_right :
    ¬∀ (sort : List (Rect × Extended ℚ) → List (Rect × Extended ℚ)) (world : World),
      0 < world.size.x ∧ 0 < world.size.y → SortsAllContacts sort world →
      ∀ (tr : List (Event VF2d FrameInput Unit)) (vCharPos : VF2d),
        (frameMachine sort world).Run (.fin ⟨0, 0⟩) tr vCharPos →
        ∀ q ∈ Machine.visited (.fin ⟨0, 0⟩) tr, OnMap world.size q := by
  intro hall
  have he : (0 : ℚ) < 3 / 20 := by norm_num
  have hrun := run_frameRight he
  have hmap := hall id (World.create 2 2) (by decide) (sortsAllContacts_create 2 2) _ _ hrun _
    hrun.end_mem_visited
  obtain ⟨d', hframe, hlanding⟩ := renderGameFg_fin (sortsAllContacts_create 2 2)
    (show 0 < (rightFor (3 / 20)).fElapsedTime from he) ⟨0, 0⟩
  rw [show (frameRight (3 / 20)).dst = _ from hframe, onMap_clampToMap (by decide)] at hmap
  apply hmap.1
  rw [hlanding.free fun c k => not_meetsWall_create]
  constructor
  · exact Extended.fin_lt_fin.mpr (by norm_num [charVel, heldVel, rightFor, World.create])
  · exact Extended.fin_lt_fin.mpr (by norm_num [charVel, heldVel, rightFor, World.create])

end AmongUs.Client
