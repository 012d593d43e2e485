import AmongUs.Client.Program
import AmongUs.Collision.Penetration
import AmongUs.Map.Session

/-!
The picture of a map that was designed.

The client draws a cell by its wall and by the tiles of the faces that are
seen. So two maps whose cells look the same give the same picture, and a
client that plays a saved map shows in every frame the picture of the map that
the designer showed when it saved it (`game_shows_design`).
-/

namespace AmongUs.Client

open Graphics Rendering Transition Json

variable {world world' : World} {bVisible : Face → Bool} {w : View} {vCell p : V2d ℚ}
  {L : StdLib}

theorem getFaceQuads_congr (h : SameDrawn (world.getCell (V2d.fin vCell).toInt)
      (world'.getCell (V2d.fin vCell).toInt)) :
    Rendering.getFaceQuads world bVisible w vCell =
      Rendering.getFaceQuads world' bVisible w vCell := by
  obtain ⟨hwall, hid⟩ := sameDrawn_iff.mp h
  unfold Rendering.getFaceQuads
  dsimp only
  generalize world.getCell (V2d.fin vCell).toInt = cell at hwall hid
  generalize world'.getCell (V2d.fin vCell).toInt = cell' at hwall hid
  have hface (v1 v2 v3 v4 : Fin 8) {f : Face} (hf : f ∈ drawnFaces cell.wall) :
      makeFace (createCube w vCell) cell v1 v2 v3 v4 f =
        makeFace (createCube w vCell) cell' v1 v2 v3 v4 f := by
    rw [makeFace, makeFace, hid f hf]
  rw [← hwall]
  cases hcell : cell.wall with
  | false =>
      rw [hcell] at hface
      rw [Bool.not_false, if_pos rfl, if_pos rfl, hface 4 0 1 5 (f := .floor) (by decide)]
  | true =>
      rw [hcell] at hface
      rw [Bool.not_true, if_neg Bool.false_ne_true, if_neg Bool.false_ne_true]
      rw [hface 3 0 1 2 (f := .south) (by decide), hface 6 5 4 7 (f := .north) (by decide),
        hface 7 4 0 3 (f := .east) (by decide), hface 2 1 5 6 (f := .west) (by decide),
        hface 7 3 2 6 (f := .top) (by decide)]

/-- The two maps look the same. -/
structure SameMap (world world' : World) : Prop where
  size : world.size = mapSize
  size' : world'.size = mapSize
  cells : ∀ v, InMap v → SameDrawn (world.getCell v) (world'.getCell v)

theorem toInt_map (c : VI2d) : (V2d.fin (c.map (↑))).toInt = c := by
  ext <;> simp [V2d.fin, V2d.toInt, V2d.map]

theorem SameMap.quadsFrom (h : SameMap world world') :
    quadsFrom L world p = quadsFrom L world' p := by
  have hcells : world.cells = world'.cells := by
    rw [World.cells, World.cells, h.size, h.size']
  rw [Client.quadsFrom, Client.quadsFrom, renderQuads, renderQuads, ← hcells]
  refine List.flatMap_congr fun c hc => getFaceQuads_congr ?_
  rw [toInt_map]
  exact h.cells c ((inRange_iff_inMap h.size).mp (World.mem_cells.mp hc))

theorem inMap_toInt (h : InWorld mapSize p) : InMap (V2d.fin p).toInt := by
  obtain ⟨⟨hx, hx'⟩, hy, hy'⟩ := h
  rw [toInt_fin hx hy]
  exact ⟨Int.floor_nonneg.mpr hx, Int.floor_lt.mpr hx', Int.floor_nonneg.mpr hy,
    Int.floor_lt.mpr hy'⟩

theorem SameMap.gameSheets (h : SameMap world world') (hp : InWorld mapSize p) (mapDict : Json) :
    gameSheets L mapDict world p = gameSheets L mapDict world' p := by
  have hselection : selectionFrom L world p = selectionFrom L world' p :=
    getFaceQuads_congr (h.cells _ (inMap_toInt hp))
  rw [Client.gameSheets, Client.gameSheets, h.quadsFrom, hselection]
  rfl

/-- **From the designer to the game.** A session opens no file, and its frames
keep the map in step. A client that reads the file then does not throw, and
every frame of its game shows the map, and the document, that the designer
showed in the last frame that saved. -/
theorem game_shows_design (hL : L.Sorts) {file : List UInt8} {s₀ s : Session}
    {trS : List (Event Session SessionInput Unit)} {eS : Event Session SessionInput Unit}
    (hstart : Session.start file = some s₀) (hsession : (Session.machine L.floatText).Run s₀ trS s)
    (hscreen : ∀ e ∈ trS, e.act.OnScreen) (hkeeps : ∀ e ∈ trS, Session.KeepsInStep e)
    (hsaved : lastSave trS = some eS) {tr : List ProgramEvent} {a : AmongUsSTE}
    (h : (programMachine L).Run .onUserCreate tr a)
    (hfile : ∀ second, tr[1]? = some second → second.act.file = s.file) :
    ∃ shown, eS.src.designer.onUserUpdate eS.act.input = some shown ∧
      (∀ i, (programMachine L).enabled a i = true → i.file = s.file →
        (programMachine L).step a i ≠ .error ()) ∧
      ∀ pre e post, tr = pre ++ e :: post → 6 ≤ pre.length →
        ∃ p, e.dst.vCharPos = .fin p ∧ e.out = gameSheets L shown.mapDict shown.world p := by
  obtain ⟨shown, world, hshown, hsize, hdocument, hload, hsame⟩ :=
    Session.exists_shown hstart hsession hscreen hkeeps hsaved
      (show (World.create mapSize.x mapSize.y).size = mapSize from rfl)
  refine ⟨shown, hshown, fun i henabled hi hthrows => ?_, ?_⟩
  · obtain ⟨-, hnone⟩ := ((reached_of_run hL h).fails_iff hL
      (of_decide_eq_true (Bool.and_eq_true_iff.mp henabled).2)).mp (step_eq_error_iff.mp hthrows)
    rw [hi, hload] at hnone
    cases hnone
  · intro pre e post htr hle
    obtain ⟨mapDict, world₁, hloads, -⟩ := (reached_of_run hL h).exists_loads (by
      rw [htr, List.length_append]
      omega)
    obtain ⟨p, hp, hpos, hout⟩ := hloads.sheets hL h htr hle
    obtain ⟨second, hsecond, hfirst⟩ := id hloads
    rw [hfile second hsecond, loaded_eq_some hdocument hload, Option.some.injEq] at hfirst
    obtain ⟨rfl, rfl⟩ := Prod.mk.inj hfirst
    refine ⟨p, hpos, ?_⟩
    rw [hout]
    exact SameMap.gameSheets ⟨hloads.size, hsize, hsame⟩ hp _

/-- A session of one frame, which places a wall and saves over an old file,
and the first frame of the game. -/
theorem game_shows_design_pressSave :
    ∃ (shown : DocumentDesigner) (e : ProgramEvent) (p : V2d ℚ),
      (MapSession.start.session .twoAndAHalf Session.oldFile).designer.onUserUpdate
        Session.pressSave.input = some shown ∧
      e.act.file = ((MapSession.start.edited Session.pressSave).session .twoAndAHalf
        Session.oldFile).file ∧
      e.out = gameSheets stdLib shown.mapDict shown.world p := by
  have hsession := Session.run_pressSave .twoAndAHalf Session.oldFile
  have hkeeps := Session.keepsInStep_pressSave .twoAndAHalf Session.oldFile
    ((MapSession.start.edited Session.pressSave).session .twoAndAHalf Session.oldFile)
  have hsaved := Session.lastSave_pressSave
    (MapSession.start.session .twoAndAHalf Session.oldFile)
    ((MapSession.start.edited Session.pressSave).session .twoAndAHalf Session.oldFile)
  have hsize : (World.create mapSize.x mapSize.y).size = mapSize := rfl
  obtain ⟨saved, world, -, -, hdocument, hload, -⟩ := Session.exists_shown MapSession.start_session
    hsession (List.forall_mem_singleton.mpr Session.onScreen_pressSave)
    (List.forall_mem_singleton.mpr hkeeps) hsaved hsize
  have hpos : (0 : ℚ) < 1 / 10 := by norm_num
  obtain ⟨tr, e, hrun, hlength, hinput⟩ := exists_run_game sorts_stdLib
    (i := { waitFrame with
      file := ((MapSession.start.edited Session.pressSave).session .twoAndAHalf
        Session.oldFile).file })
    hpos rfl (loaded_eq_some hdocument hload)
  have hfile : ∀ second, (tr ++ [e])[1]? = some second →
      second.act.file = ((MapSession.start.edited Session.pressSave).session .twoAndAHalf
        Session.oldFile).file :=
    fun second hsecond => by rw [hinput second (List.mem_of_getElem? hsecond)]
  obtain ⟨shown, hshown, -, hpicture⟩ := game_shows_design sorts_stdLib MapSession.start_session
    hsession (List.forall_mem_singleton.mpr Session.onScreen_pressSave)
    (List.forall_mem_singleton.mpr hkeeps) hsaved hrun hfile
  obtain ⟨p, -, hout⟩ := hpicture tr e [] rfl hlength.ge
  exact ⟨shown, e, p, hshown, by rw [hinput e (by simp)], hout⟩

end AmongUs.Client
