import AmongUs.Client.RenderGameFg
import AmongUs.Graphics.Layers
import AmongUs.Map.File
import AmongUs.Rendering.Depth

/-!
The client from its start to the game.

`OnUserUpdate` goes through the screens: the splash, in whose second frame the
map is loaded, the two layers of the opening, and the game. A screen that is
only text is drawn once, and its layer keeps the decals and is hidden in the
frame after. The layer of the game is drawn anew in every frame and loses its
decals whenever it is shown.

So a picture is never made of anything that is left from an earlier one, the
map that is played is the one of the file, and nothing throws but `LoadMap`
(`program_run`).
-/

namespace AmongUs.Client

open Graphics Rendering Transition SortedFold Json Utf8

inductive RenderLayer
  | zero
  | splash
  | openingBg
  | openingFg
  | lobbyMap
  | lobbyBg
  | lobbyFg
  | gameMap
  | gameBg
  | gameFg
  deriving DecidableEq

/-- `static_cast<uint8_t>`. -/
def RenderLayer.number : RenderLayer → ℕ
  | .zero => 0
  | .splash => 1
  | .openingBg => 2
  | .openingFg => 3
  | .lobbyMap => 4
  | .lobbyBg => 5
  | .lobbyFg => 6
  | .gameMap => 7
  | .gameBg => 8
  | .gameFg => 9

/-- A decal, with the arguments of the call that pushes it. -/
inductive Decal
  | glyph (pos : V2d ℚ) (sourcePos : VI2d) (scale : V2d ℚ) (tint : Pixel)
  | partialWarped (pos : Fin 4 → V2d ℚ) (sourcePos : V2d ℚ) (sourceSize : VI2d)
  | warped (pos : Fin 4 → V2d ℚ)

/-- What the client uses of the standard library: the texts of numbers, the
sine and the cosine, and the sort of both places. -/
structure StdLib where
  floatText : FloatText
  toText : Extended ℚ → List UInt8
  angle : ℚ → Angle
  sortContacts : List (Rect × Extended ℚ) → List (Rect × Extended ℚ)
  sortQuads : List SQuad → List SQuad

/-- What the sorts promise. -/
structure StdLib.Sorts (L : StdLib) : Prop where
  contacts : ∀ world, SortsAllContacts L.sortContacts world
  quads : ∀ quads, IsSort Farther quads (L.sortQuads quads)

/-! ### Decals -/

/-- Where the font sheet has a character; a `char` is signed. -/
def glyphSource (c : UInt8) : VI2d :=
  ⟨(c.toInt8.toInt - 32).tmod 16 * 8, (c.toInt8.toInt - 32).tdiv 16 * 8⟩

/-- The loop of `DrawStringDecal`, with the place it has come to. -/
def drawGlyphs (pos scale : V2d ℚ) (col : Pixel) : V2d ℚ → List UInt8 → List Decal
  | _, [] => []
  | spos, c :: sText =>
      if c = 0x0A then drawGlyphs pos scale col ⟨0, spos.y + 8 * scale.y⟩ sText
      else
        .glyph (pos + spos) (glyphSource c) scale col ::
          drawGlyphs pos scale col ⟨spos.x + 8 * scale.x, spos.y⟩ sText

def drawStringDecal (pos : V2d ℚ) (sText : List UInt8) (col : Pixel) (scale : V2d ℚ) :
    List Decal :=
  drawGlyphs pos scale col ⟨0, 0⟩ sText

def splashText : List Decal := drawStringDecal ⟨20, 20⟩ (bytes "Loading...") .yellow ⟨1, 1⟩

def openingBgText : List Decal :=
  drawStringDecal ⟨20, 20⟩ (bytes "Start Local Game") .yellow ⟨1, 1⟩ ++
    drawStringDecal ⟨20, 30⟩ (bytes "Join Hosted Game") .yellow ⟨1, 1⟩

def openingFgText : List Decal :=
  drawStringDecal ⟨20, 40⟩ (bytes "111") .yellow ⟨1, 1⟩ ++
    drawStringDecal ⟨20, 50⟩ (bytes "222") .yellow ⟨1, 1⟩

/-- The divisor of the two warped decals. -/
def warpDivisor (pos : Fin 4 → V2d ℚ) : ℚ :=
  (diagonals pos).1.x * (diagonals pos).2.y - (diagonals pos).2.x * (diagonals pos).1.y

/-- A quad that has no area is not drawn. -/
def drawPartialWarpedDecal (pos : Fin 4 → V2d ℚ) (sourcePos : V2d ℚ) (sourceSize : VI2d) :
    List Decal :=
  if warpDivisor pos ≠ 0 then [.partialWarped pos sourcePos sourceSize] else []

def drawWarpedDecal (pos : Fin 4 → V2d ℚ) : List Decal :=
  if warpDivisor pos ≠ 0 then [.warped pos] else []

/-! ### The game -/

/-- `AmongUsSTE`, with the engine that it is one of. -/
structure AmongUsSTE where
  engine : PixelGameEngine Decal
  bAtomActive : Bool := true
  layerToRender : RenderLayer := .splash
  isShowingLayer : Bool := false
  mapDict : Json := .null
  world : World := World.create mapSize.x mapSize.y
  fCameraAngle : ℚ := 1 / 2
  fCameraAngleTarget : ℚ := 1 / 2
  fCameraPitch : ℚ := 11 / 2
  fCameraZoom : ℚ := 16
  vCharPos : VF2d := .fin ⟨0, 0⟩

/-- What a frame is given; the file is read in one of them only. -/
structure ProgramInput extends FrameInput where
  bEscape : Bool
  file : List UInt8

/-- `ScreenWidth` and `ScreenHeight`. -/
def screenSize : VI2d := ⟨640, 480⟩

namespace AmongUsSTE

/-- The sprite sheet is there; the decal of the selection is never loaded. -/
def onUserCreate : AmongUsSTE where
  engine := (Nat.repeat PixelGameEngine.createLayer 10 .prepareEngine).resetDrawTarget

/-- A screen of text. -/
def renderText (layer : RenderLayer) (p : Pixel) (decals : List Decal) (s : AmongUsSTE) :
    AmongUsSTE :=
  { s with
    engine := ((((s.engine.setDrawTarget layer.number).clear p).draw decals).enableLayer
      layer.number true |>.enableClearVecDecal layer.number false).resetDrawTarget }

def renderSplash : AmongUsSTE → AmongUsSTE := renderText .splash .veryDarkBlue splashText

def renderOpeningBg : AmongUsSTE → AmongUsSTE := renderText .openingBg .blank openingBgText

def renderOpeningFg : AmongUsSTE → AmongUsSTE :=
  renderText .openingFg .veryDarkGreen openingFgText

/-- `file >> mapDict`, and the items. -/
def loadMap (L : StdLib) (s : AmongUsSTE) (file : List UInt8) : Option AmongUsSTE := do
  let mapDict ← Json.Parser.fromStream L.floatText file
  let world ← loadItems s.world.reset mapDict
  return { s with mapDict, world }

/-- The quads of the map, and then the ones of the cube at the player. A
position that is not exact does not come up. -/
def drawWorld (L : StdLib) (s : AmongUsSTE) : List Decal :=
  match s.vCharPos.x, s.vCharPos.y with
  | .fin x, .fin y =>
      let fAngle := L.angle s.fCameraAngle
      let fPitch := L.angle s.fCameraPitch
      let w := frameView ⟨x, y⟩ fAngle fPitch s.fCameraZoom screenSize
      let vQuads :=
        L.sortQuads (renderQuads s.world ⟨x, y⟩ fAngle fPitch s.fCameraZoom screenSize)
      let vSelected := Rendering.getFaceQuads s.world (visibleFaces w ⟨0, 0⟩) w ⟨x, y⟩
      (vQuads.flatMap fun q => drawPartialWarpedDecal (corners q) q.tile vTileSize) ++
        vSelected.flatMap fun q => drawWarpedDecal (corners q)
  | _, _ => []

def drawDebugInfo (L : StdLib) (s : AmongUsSTE) : List Decal :=
  drawStringDecal ⟨0, 0⟩ (bytes "Cursor: " ++ L.toText s.vCharPos.x ++ bytes ", " ++
    L.toText s.vCharPos.y) .yellow ⟨1 / 2, 1 / 2⟩ ++
  drawStringDecal ⟨0, 8⟩ (bytes "Angle: " ++ L.toText (.fin s.fCameraAngle) ++ bytes ", " ++
    L.toText (.fin s.fCameraPitch)) .yellow ⟨1 / 2, 1 / 2⟩ ++
  drawStringDecal ⟨0, 16⟩ (Json.dumped L.floatText 2 (by decide) s.mapDict) .yellow
    ⟨1 / 2, 1 / 2⟩

def renderGameFg (L : StdLib) (s : AmongUsSTE) (i : FrameInput) : AmongUsSTE :=
  let engine := s.engine.setDrawTarget RenderLayer.gameFg.number
  let s := { s with
    fCameraAngle := s.fCameraAngle +
      (s.fCameraAngleTarget - s.fCameraAngle) * 10 * i.fElapsedTime
    vCharPos := Client.renderGameFg L.sortContacts s.world s.vCharPos i }
  { s with
    engine := (((engine.clear .black).draw (drawWorld L s ++ drawDebugInfo L s)).enableLayer
      RenderLayer.gameFg.number true).resetDrawTarget }

/-- Hides the layer. -/
def hide (layer : RenderLayer) (s : AmongUsSTE) : AmongUsSTE :=
  { s with engine := s.engine.enableLayer layer.number false }

/-- The end of a screen. -/
def goTo (layer : RenderLayer) (s : AmongUsSTE) : AmongUsSTE :=
  { s with layerToRender := layer, isShowingLayer := false }

/-- The switch of `OnUserUpdate`. -/
def renderLayer (L : StdLib) (s : AmongUsSTE) (i : ProgramInput) : Option AmongUsSTE :=
  match s.layerToRender with
  | .splash =>
      if !s.isShowingLayer then some { s.renderSplash with isShowingLayer := true }
      else (s.loadMap L i.file).map fun s => (s.hide .splash).goTo .openingBg
  | .openingBg =>
      if !s.isShowingLayer then some { s.renderOpeningBg with isShowingLayer := true }
      else some (s.goTo .openingFg)
  | .openingFg =>
      if !s.isShowingLayer then some { s.renderOpeningFg with isShowingLayer := true }
      else some (((s.hide .openingBg).hide .openingFg).goTo .gameFg)
  | .gameFg => some (s.renderGameFg L i.toFrameInput)
  | .zero | .lobbyMap | .lobbyBg | .lobbyFg | .gameMap | .gameBg => some s

/-- `olc_CoreUpdate`: the frame is shown also when it is the last. -/
def coreUpdate (L : StdLib) (s : AmongUsSTE) (i : ProgramInput) :
    Option (AmongUsSTE × List (Sheet Decal)) := do
  let s ← renderLayer L { s with engine := s.engine.clear .blank } i
  let s := { s with bAtomActive := s.bAtomActive && !i.bEscape }
  let (sheets, engine) := s.engine.display
  return ({ s with engine }, sheets)

end AmongUsSTE

/-- The frames; an exception ends the program. -/
def programMachine (L : StdLib) :
    Machine AmongUsSTE ProgramInput (List (Sheet Decal)) Unit where
  enabled s i := s.bAtomActive && decide (0 < i.fElapsedTime)
  step s i :=
    match s.coreUpdate L i with
    | some r => .ok r
    | none => .error ()

/-! ### What is shown -/

/-- The layer of a screen of text, after its screen. -/
def kept (bShow : Bool) (p : Pixel) (decals : List Decal) : LayerDesc Decal where
  bShow := bShow
  bClearVecDecal := false
  pDrawTarget := p
  texture := p
  vecDecalInstance := decals

/-- The layers, where the first was shown already. -/
def layersWith (splash openingBg openingFg gameFg : LayerDesc Decal) : PixelGameEngine Decal where
  vLayers :=
    [{ bShow := true, pDrawTarget := .blank, texture := .blank }, splash, openingBg, openingFg,
      {}, {}, {}, {}, {}, gameFg, {}]

/-- The layers before the frame of this number, until the game begins. -/
def menuLayers : ℕ → PixelGameEngine Decal
  | 0 => AmongUsSTE.onUserCreate.engine
  | 1 => layersWith (kept true .veryDarkBlue splashText) {} {} {}
  | 2 => layersWith (kept false .veryDarkBlue splashText) {} {} {}
  | 3 | 4 =>
      layersWith (kept false .veryDarkBlue splashText) (kept true .blank openingBgText) {} {}
  | 5 =>
      layersWith (kept false .veryDarkBlue splashText) (kept true .blank openingBgText)
        (kept true .veryDarkGreen openingFgText) {}
  | _ =>
      layersWith (kept false .veryDarkBlue splashText) (kept false .blank openingBgText)
        (kept false .veryDarkGreen openingFgText) {}

def menuScreen : ℕ → RenderLayer × Bool
  | 0 => (.splash, false)
  | 1 => (.splash, true)
  | 2 => (.openingBg, false)
  | 3 => (.openingBg, true)
  | 4 => (.openingFg, false)
  | 5 => (.openingFg, true)
  | _ => (.gameFg, false)

/-- What the frame of this number shows, until the game begins. -/
def menuSheets : ℕ → List (Sheet Decal)
  | 0 => [⟨.veryDarkBlue, splashText⟩, ⟨.blank, []⟩]
  | 2 | 3 => [⟨.blank, openingBgText⟩, ⟨.blank, []⟩]
  | 4 => [⟨.veryDarkGreen, openingFgText⟩, ⟨.blank, openingBgText⟩, ⟨.blank, []⟩]
  | _ => [⟨.blank, []⟩]

def menuState (n : ℕ) (active : Bool) (mapDict : Json) (world : World) : AmongUsSTE where
  engine := menuLayers n
  bAtomActive := active
  layerToRender := (menuScreen n).1
  isShowingLayer := (menuScreen n).2
  mapDict := mapDict
  world := world

/-- In the game nothing is left of the frames before, but the place. -/
def gameState (bShow active : Bool) (mapDict : Json) (world : World) (p : V2d ℚ) : AmongUsSTE where
  engine :=
    layersWith (kept false .veryDarkBlue splashText) (kept false .blank openingBgText)
      (kept false .veryDarkGreen openingFgText) { bShow }
  bAtomActive := active
  layerToRender := .gameFg
  mapDict := mapDict
  world := world
  vCharPos := .fin p

variable {L : StdLib} {world : World} {mapDict : Json} {active : Bool} {i : ProgramInput}

theorem menuState_six :
    menuState 6 active mapDict world = gameState false active mapDict world ⟨0, 0⟩ := rfl

/-- No frame of the menu but the second one can fail. -/
theorem coreUpdate_menu {n : ℕ} (hn : n < 6) (hload : n ≠ 1) :
    (menuState n active mapDict world).coreUpdate L i =
      some (menuState (n + 1) (active && !i.bEscape) mapDict world, menuSheets n) := by
  match n, hn, hload with
  | 0, _, _ => rfl
  | 2, _, _ => rfl
  | 3, _, _ => rfl
  | 4, _, _ => rfl
  | 5, _, _ => rfl

/-- What the second frame makes of the file. -/
def loaded (L : StdLib) (world : World) (file : List UInt8) : Option (Json × World) := do
  let mapDict ← Parser.fromStream L.floatText file
  let world ← loadItems world.reset mapDict
  return (mapDict, world)

theorem loaded_snd (world : World) (file : List UInt8) :
    (loaded L world file).map Prod.snd = loadFile L.floatText world file := by
  rw [loaded, loadFile]
  cases Parser.fromStream L.floatText file with
  | none => rfl
  | some doc => cases hload : loadItems world.reset doc <;> simp [hload]

theorem loaded_eq_some {file : List UInt8} {world' : World}
    (hdoc : Parser.fromStream L.floatText file = some mapDict)
    (hload : loadFile L.floatText world file = some world') :
    loaded L world file = some (mapDict, world') := by
  rw [loadFile, hdoc] at hload
  rw [loaded, hdoc]
  change (loadItems world.reset mapDict >>= fun w => some (mapDict, w)) = _
  rw [show loadItems world.reset mapDict = some world' from hload]
  rfl

theorem loaded_size {file : List UInt8} {world' : World}
    (h : loaded L world file = some (mapDict, world')) : world'.size = world.size := by
  obtain ⟨doc, -, hload⟩ := Option.bind_eq_some_iff.mp h
  obtain ⟨w, hitems, hpair⟩ := Option.bind_eq_some_iff.mp hload
  obtain ⟨rfl, rfl⟩ := Prod.mk.inj (Option.some.inj hpair)
  exact (loadItems_size hitems).trans reset_size

theorem coreUpdate_load : (menuState 1 active mapDict world).coreUpdate L i =
    (loaded L world i.file).map fun r =>
      (menuState 2 (active && !i.bEscape) r.1 r.2, menuSheets 1) := by
  have hrender : AmongUsSTE.renderLayer L
      { menuState 1 active mapDict world with
        engine := (menuState 1 active mapDict world).engine.clear .blank } i =
      (loaded L world i.file).map fun r =>
        { menuState 1 active r.1 r.2 with
          engine := ((menuState 1 active r.1 r.2).engine.clear .blank).enableLayer 1 false
          layerToRender := .openingBg
          isShowingLayer := false } := by
    change ((AmongUsSTE.loadMap L _ i.file).map fun s => (s.hide .splash).goTo .openingBg) = _
    rw [AmongUsSTE.loadMap, loaded]
    cases hdoc : Parser.fromStream L.floatText i.file with
    | none => rfl
    | some doc =>
        change Option.map _ (loadItems world.reset doc >>= _) = Option.map _
          (loadItems world.reset doc >>= _)
        cases loadItems world.reset doc <;> rfl
  rw [AmongUsSTE.coreUpdate, hrender]
  cases loaded L world i.file <;> rfl

/-! ### The game -/

def tileDecal (q : SQuad) : Decal := .partialWarped (corners q) q.tile vTileSize

/-- How the client sees the map from this place. -/
def viewFrom (L : StdLib) (p : V2d ℚ) : View :=
  frameView p (L.angle (1 / 2)) (L.angle (11 / 2)) 16 screenSize

/-- The quads of the map. -/
def quadsFrom (L : StdLib) (world : World) (p : V2d ℚ) : List SQuad :=
  renderQuads world p (L.angle (1 / 2)) (L.angle (11 / 2)) 16 screenSize

def selectionFrom (L : StdLib) (world : World) (p : V2d ℚ) : List SQuad :=
  Rendering.getFaceQuads world (visibleFaces (viewFrom L p) p) (viewFrom L p) p

/-- What a frame of the game shows. -/
def gameSheets (L : StdLib) (mapDict : Json) (world : World) (p : V2d ℚ) : List (Sheet Decal) :=
  [⟨.black, ((L.sortQuads (quadsFrom L world p)).map tileDecal ++
      (selectionFrom L world p).map fun q => .warped (corners q)) ++
      (gameState true true mapDict world p).drawDebugInfo L⟩, ⟨.blank, []⟩]

/-- The warp of a visible face can be computed. -/
theorem warpDivisor_corners {w : View} {vCell : V2d ℚ} {f : Face} {q : SQuad}
    (hpoints : ∀ i, q.points i = createCube w vCell (faceCorners f i)) :
    warpDivisor (corners q) = 2 * normal w f := by
  cases f <;>
    simp [warpDivisor, diagonals, corners, hpoints, faceCorners, normal, Winding.cross, edgeX, edgeY, edgeZ,
      createCube, project, rotateX, rotateY, Rendering.translate, unitCube] <;> ring

theorem warpDivisor_ne_zero {w : View} {vCell : V2d ℚ} {q : SQuad}
    (hq : q ∈ Rendering.getFaceQuads world (visibleFaces w vCell) w vCell) :
    warpDivisor (corners q) ≠ 0 := by
  obtain ⟨f, hnormal, hpoints⟩ := exists_face_of_mem hq
  rw [warpDivisor_corners hpoints]
  positivity

/-- Every quad of the map and of the selection is drawn. -/
theorem drawWorld_eq (hL : L.Sorts) (bShow : Bool) (p : V2d ℚ) :
    (gameState bShow active mapDict world p).drawWorld L =
      (L.sortQuads (quadsFrom L world p)).map tileDecal ++
        (selectionFrom L world p).map fun q => .warped (corners q) := by
  have htiles : ∀ q ∈ L.sortQuads (quadsFrom L world p),
      drawPartialWarpedDecal (corners q) q.tile vTileSize = [tileDecal q] := by
    intro q hq
    rw [(hL.quads _).1.mem_iff, quadsFrom, renderQuads_eq] at hq
    obtain ⟨c, -, hq⟩ := List.mem_flatMap.mp hq
    exact if_pos (warpDivisor_ne_zero hq)
  have hselected : ∀ q ∈ selectionFrom L world p,
      drawWarpedDecal (corners q) = [.warped (corners q)] := fun q hq =>
    if_pos (warpDivisor_ne_zero hq)
  change (L.sortQuads (quadsFrom L world p)).flatMap _ ++
    (Rendering.getFaceQuads world (visibleFaces (viewFrom L p) ⟨0, 0⟩) (viewFrom L p) p).flatMap _ =
      _
  rw [List.flatMap_congr htiles, visibleFaces_eq _ ⟨0, 0⟩ p]
  change _ ++ (selectionFrom L world p).flatMap _ = _
  rw [List.flatMap_congr hselected, List.map_eq_flatMap, List.map_eq_flatMap]

/-- The corner of the player is on a cell of the map. -/
def InWorld (size : VI2d) (p : V2d ℚ) : Prop :=
  (0 ≤ p.x ∧ p.x < size.x) ∧ 0 ≤ p.y ∧ p.y < size.y

theorem clampAxis_mem {n : ℤ} (hn : 0 < n) (x : ℚ) : 0 ≤ clampAxis n x ∧ clampAxis n x < n := by
  have hone : (1 : ℚ) ≤ n := by exact_mod_cast hn
  unfold clampAxis
  dsimp only
  split <;> split <;> push_cast <;> constructor <;> linarith

theorem exists_clampToMap (p : V2d ℚ) :
    ∃ p', clampToMap mapSize (.fin p) = .fin p' ∧ InWorld mapSize p' :=
  ⟨_, clampToMap_fin mapSize p, clampAxis_mem (by decide) _, clampAxis_mem (by decide) _⟩

/-- A frame of the game, from an exact position. -/
theorem coreUpdate_game (hL : L.Sorts) (hsize : world.size = mapSize) (hi : 0 < i.fElapsedTime)
    (bShow : Bool) (p : V2d ℚ) :
    ∃ p', InWorld mapSize p' ∧
      Client.renderGameFg L.sortContacts world (.fin p) i.toFrameInput = .fin p' ∧
      (gameState bShow active mapDict world p).coreUpdate L i =
        some (gameState true (active && !i.bEscape) mapDict world p',
          gameSheets L mapDict world p') := by
  obtain ⟨d', hmove, -⟩ := renderGameFg_fin (hL.contacts world) hi p
  obtain ⟨p', hclamp, hin⟩ := exists_clampToMap (p + d')
  rw [hsize, hclamp] at hmove
  refine ⟨p', hin, hmove, ?_⟩
  have hangle : (1 / 2 : ℚ) + (1 / 2 - 1 / 2) * 10 * i.fElapsedTime = 1 / 2 := by ring
  have hrender (engine : PixelGameEngine Decal) : AmongUsSTE.renderGameFg L
      { gameState bShow active mapDict world p with engine } i.toFrameInput =
      { gameState true active mapDict world p' with
        engine := (((engine.setDrawTarget 9).clear .black).draw
          ((gameState true true mapDict world p').drawWorld L ++
            (gameState true true mapDict world p').drawDebugInfo L)).enableLayer 9 true
          |>.resetDrawTarget } := by
    rw [AmongUsSTE.renderGameFg]
    dsimp only [gameState]
    rw [hmove, hangle]
    rfl
  have hlayer : AmongUsSTE.renderLayer L
      { gameState bShow active mapDict world p with
        engine := (gameState bShow active mapDict world p).engine.clear .blank } i =
      some (AmongUsSTE.renderGameFg L
        { gameState bShow active mapDict world p with
          engine := (gameState bShow active mapDict world p).engine.clear .blank }
        i.toFrameInput) := rfl
  rw [AmongUsSTE.coreUpdate, hlayer, hrender, drawWorld_eq hL, gameSheets]
  rfl

/-! ### Runs of the program -/

abbrev ProgramEvent := Event AmongUsSTE ProgramInput (List (Sheet Decal))

/-- The map was read from the file in the second frame. -/
def Loads (L : StdLib) (tr : List ProgramEvent) (mapDict : Json) (world : World) : Prop :=
  ∃ second, tr[1]? = some second ∧
    loaded L (World.create mapSize.x mapSize.y) second.act.file = some (mapDict, world)

/-- The player has come here in the frames of the game. -/
def Played (L : StdLib) (tr : List ProgramEvent) (world : World) (vCharPos : VF2d) : Prop :=
  ∃ trG, (frameMachine L.sortContacts world).Run (.fin ⟨0, 0⟩) trG vCharPos ∧
    trG.map Event.act = (tr.drop 6).map fun e => e.act.toFrameInput

/-- The states that the program is in after so many frames. -/
inductive Reached (L : StdLib) (tr : List ProgramEvent) : AmongUsSTE → Prop
  | start {active : Bool} : tr.length < 2 →
      Reached L tr (menuState tr.length active .null (World.create mapSize.x mapSize.y))
  | menu {active : Bool} {mapDict : Json} {world : World} : 2 ≤ tr.length → tr.length < 6 →
      Loads L tr mapDict world → Reached L tr (menuState tr.length active mapDict world)
  | game {bShow active : Bool} {mapDict : Json} {world : World} {p : V2d ℚ} : 6 ≤ tr.length →
      Loads L tr mapDict world → Played L tr world (.fin p) →
      Reached L tr (gameState bShow active mapDict world p)

section

variable {tr : List ProgramEvent} {e : ProgramEvent} {s : AmongUsSTE}

theorem Loads.append (h : Loads L tr mapDict world) (post : List ProgramEvent) :
    Loads L (tr ++ post) mapDict world := by
  obtain ⟨second, hsecond, hload⟩ := h
  have hlength := (List.getElem?_eq_some_iff.mp hsecond).1
  exact ⟨second, by rw [List.getElem?_append_left hlength, hsecond], hload⟩

theorem Loads.size (h : Loads L tr mapDict world) : world.size = mapSize := by
  obtain ⟨second, -, hload⟩ := h
  exact loaded_size hload

theorem Loads.unique {mapDict' : Json} {world' : World} (h : Loads L tr mapDict world)
    (h' : Loads L tr mapDict' world') : mapDict' = mapDict ∧ world' = world := by
  obtain ⟨second, hsecond, hload⟩ := h
  obtain ⟨second', hsecond', hload'⟩ := h'
  obtain rfl := Option.some.inj (hsecond.symm.trans hsecond')
  exact Prod.mk.inj (Option.some.inj (hload'.symm.trans hload))

theorem coreUpdate_of_takes (h : (programMachine L).Takes e) :
    e.src.coreUpdate L e.act = some (e.dst, e.out) ∧ 0 < e.act.fElapsedTime := by
  obtain ⟨henabled, hstep⟩ := h
  obtain ⟨-, hpos⟩ := Bool.and_eq_true_iff.mp henabled
  refine ⟨?_, of_decide_eq_true hpos⟩
  change (match e.src.coreUpdate L e.act with
    | some r => Except.ok r
    | none => Except.error ()) = .ok (e.dst, e.out) at hstep
  cases hframe : e.src.coreUpdate L e.act with
  | none => simp [hframe] at hstep
  | some r =>
      rw [hframe] at hstep
      rw [Except.ok.inj hstep]

/-- What a frame does, by its number. -/
theorem Reached.frame (hL : L.Sorts) (h : Reached L tr e.src)
    (htakes : (programMachine L).Takes e) :
    Reached L (tr ++ [e]) e.dst ∧ (tr.length < 6 → e.out = menuSheets tr.length) ∧
      (6 ≤ tr.length → ∃ mapDict world p, Loads L tr mapDict world ∧ InWorld mapSize p ∧
        e.dst.vCharPos = .fin p ∧ e.out = gameSheets L mapDict world p) := by
  obtain ⟨hframe, hpos⟩ := coreUpdate_of_takes htakes
  have hlength : (tr ++ [e]).length = tr.length + 1 := List.length_append
  generalize e.src = src at h hframe
  cases h with
  | start hlt =>
      by_cases hone : tr.length = 1
      · rw [hone, coreUpdate_load] at hframe
        obtain ⟨⟨mapDict, world⟩, hload, hr⟩ := Option.map_eq_some_iff.mp hframe
        obtain ⟨hdst, hout⟩ := Prod.mk.inj hr
        refine ⟨?_, fun _ => by rw [hone, ← hout], fun hsix => absurd hsix (by omega)⟩
        have hloads : Loads L (tr ++ [e]) mapDict world :=
          ⟨e, by rw [List.getElem?_append_right hone.le, hone]; rfl, hload⟩
        rw [← hdst, show 2 = (tr ++ [e]).length by omega]
        exact .menu (by omega) (by omega) hloads
      · rw [coreUpdate_menu (by omega) hone] at hframe
        obtain ⟨hdst, hout⟩ := Prod.mk.inj (Option.some.inj hframe)
        refine ⟨?_, fun _ => hout.symm, fun hsix => absurd hsix (by omega)⟩
        rw [← hdst, ← hlength]
        exact .start (by omega)
  | menu hle hlt hloads =>
      rw [coreUpdate_menu hlt (by omega)] at hframe
      obtain ⟨hdst, hout⟩ := Prod.mk.inj (Option.some.inj hframe)
      refine ⟨?_, fun _ => hout.symm, fun hsix => absurd hsix (by omega)⟩
      by_cases hfive : tr.length = 5
      · rw [← hdst, hfive, menuState_six]
        refine .game (by omega) (hloads.append _) ⟨[], .nil, ?_⟩
        rw [List.drop_of_length_le (by omega)]
        rfl
      · rw [← hdst, ← hlength]
        exact .menu (by omega) (by omega) (hloads.append _)
  | @game bShow active mapDict world p hle hloads hplayed =>
      obtain ⟨p', hin, hmove, hgame⟩ := coreUpdate_game hL hloads.size hpos bShow p
      rw [hgame] at hframe
      obtain ⟨hdst, hout⟩ := Prod.mk.inj (Option.some.inj hframe)
      rw [← hdst]
      refine ⟨.game (by omega) (hloads.append _) ?_, fun hlt => absurd hle (by omega),
        fun _ => ⟨mapDict, world, p', hloads, hin, rfl, hout.symm⟩⟩
      obtain ⟨trG, hrun, hact⟩ := hplayed
      have hlast : (frameMachine L.sortContacts world).Takes
          ⟨.fin p, e.act.toFrameInput, (), .fin p'⟩ :=
        ⟨decide_eq_true hpos, by rw [← hmove]; rfl⟩
      refine ⟨_, hrun.snoc hlast, ?_⟩
      rw [List.drop_append_of_le_length hle, List.map_append, List.map_append, hact]
      rfl

theorem reached_of_run (hL : L.Sorts) (h : (programMachine L).Run .onUserCreate tr s) :
    Reached L tr s :=
  h.history (I := Reached L) (.start (by simp)) fun _ _ _ htakes hsrc => (hsrc.frame hL htakes).1

theorem step_eq_error_iff {s : AmongUsSTE} :
    (programMachine L).step s i = .error () ↔ s.coreUpdate L i = none := by
  change (match s.coreUpdate L i with
    | some r => Except.ok r
    | none => Except.error ()) = .error () ↔ _
  cases s.coreUpdate L i <;> simp

theorem Reached.fails_iff (hL : L.Sorts) (h : Reached L tr s) (hi : 0 < i.fElapsedTime) :
    s.coreUpdate L i = none ↔
      tr.length = 1 ∧ loadFile L.floatText (World.create mapSize.x mapSize.y) i.file = none := by
  cases h with
  | start hlt =>
      by_cases hone : tr.length = 1
      · rw [hone, coreUpdate_load, ← loaded_snd, Option.map_eq_none_iff, Option.map_eq_none_iff]
        simp
      · rw [coreUpdate_menu (by omega) hone]
        simp [hone]
  | menu hle hlt hloads =>
      rw [coreUpdate_menu hlt (by omega)]
      simp [show tr.length ≠ 1 by omega]
  | @game bShow active mapDict world p hle hloads hplayed =>
      obtain ⟨p', -, -, hgame⟩ := coreUpdate_game hL hloads.size hi bShow p
      rw [hgame]
      simp [show tr.length ≠ 1 by omega]

theorem Reached.exists_loads (h : Reached L tr s) (htwo : 2 ≤ tr.length) :
    ∃ mapDict world, Loads L tr mapDict world ∧
      (6 ≤ tr.length → Played L tr world s.vCharPos) := by
  cases h with
  | start hlt => omega
  | menu _ hlt hloads => exact ⟨_, _, hloads, fun hsix => by omega⟩
  | game _ hloads hplayed => exact ⟨_, _, hloads, fun _ => hplayed⟩

theorem Loads.sheets {pre post : List ProgramEvent} (hloads : Loads L tr mapDict world)
    (hL : L.Sorts) (h : (programMachine L).Run .onUserCreate tr s)
    (htr : tr = pre ++ e :: post) (hle : 6 ≤ pre.length) :
    ∃ p, InWorld mapSize p ∧ e.dst.vCharPos = .fin p ∧ e.out = gameSheets L mapDict world p := by
  subst htr
  obtain ⟨hpre, htakes, -⟩ := h.split
  obtain ⟨mapDict', world', p, hloads', hin, hp, hout⟩ :=
    ((reached_of_run hL hpre).frame hL htakes).2.2 hle
  obtain ⟨rfl, rfl⟩ := hloads.unique (hloads'.append _)
  exact ⟨p, hin, hp, hout⟩

/-- **The client from its start.** In every run: a frame throws exactly if it is
the second one and the file is not a map; the frames before the game show the
screens; and a frame of the game shows the map of the file, every quad of it in
the order of the sort, as it is seen from where the player is, and nothing
else. In these frames the player moves on this map from its first cell, and
does not leave it. -/
theorem program_run (hL : L.Sorts) (h : (programMachine L).Run .onUserCreate tr s) :
    (∀ i, (programMachine L).enabled s i = true →
      ((programMachine L).step s i = .error () ↔
        tr.length = 1 ∧ loadFile L.floatText (World.create mapSize.x mapSize.y) i.file = none)) ∧
    (∀ pre e post, tr = pre ++ e :: post → pre.length < 6 → e.out = menuSheets pre.length) ∧
    (2 ≤ tr.length → ∃ mapDict world, Loads L tr mapDict world ∧
      (6 ≤ tr.length → Played L tr world s.vCharPos) ∧
      ∀ pre e post, tr = pre ++ e :: post → 6 ≤ pre.length →
        ∃ p, InWorld mapSize p ∧ e.dst.vCharPos = .fin p ∧
          e.out = gameSheets L mapDict world p) := by
  refine ⟨fun i henabled => ?_, ?_, fun htwo => ?_⟩
  · rw [step_eq_error_iff]
    exact (reached_of_run hL h).fails_iff hL
      (of_decide_eq_true (Bool.and_eq_true_iff.mp henabled).2)
  · rintro pre e post rfl hlt
    obtain ⟨hpre, htakes, -⟩ := h.split
    exact ((reached_of_run hL hpre).frame hL htakes).2.1 hlt
  · obtain ⟨mapDict, world, hloads, hplayed⟩ := (reached_of_run hL h).exists_loads htwo
    exact ⟨mapDict, world, hloads, hplayed, fun pre e post => hloads.sheets hL h⟩

/-! ### A map without walls -/

theorem takes_of_coreUpdate {s' : AmongUsSTE} {out : List (Sheet Decal)}
    (h : s.coreUpdate L i = some (s', out)) (hactive : s.bAtomActive = true)
    (hi : 0 < i.fElapsedTime) : (programMachine L).Takes ⟨s, i, out, s'⟩ := by
  refine ⟨by simp [programMachine, hactive, hi], ?_⟩
  change (match s.coreUpdate L i with
    | some r => Except.ok r
    | none => Except.error ()) = _
  rw [h]

/-- The way to the first frame of the game. -/
theorem exists_run_game (hL : L.Sorts) (hi : 0 < i.fElapsedTime) (hescape : i.bEscape = false)
    (hload : loaded L (World.create mapSize.x mapSize.y) i.file = some (mapDict, world)) :
    ∃ tr e, (programMachine L).Run .onUserCreate (tr ++ [e]) e.dst ∧ tr.length = 6 ∧
      ∀ e' ∈ tr ++ [e], e'.act = i := by
  have hframe {n : ℕ} (hn : n < 6) (hne : n ≠ 1) (mapDict : Json) (world : World) :
      (programMachine L).Takes ⟨menuState n true mapDict world, i, menuSheets n,
        menuState (n + 1) true mapDict world⟩ := by
    refine takes_of_coreUpdate ?_ rfl hi
    rw [coreUpdate_menu hn hne, hescape]
    rfl
  have hsecond : (programMachine L).Takes
      ⟨menuState 1 true .null (World.create mapSize.x mapSize.y), i, menuSheets 1,
        menuState 2 true mapDict world⟩ := by
    refine takes_of_coreUpdate ?_ rfl hi
    rw [coreUpdate_load, hload, hescape]
    rfl
  have hsize : world.size = mapSize := loaded_size hload
  obtain ⟨p', -, -, hgame⟩ := coreUpdate_game hL hsize hi false ⟨0, 0⟩
  have hfirst : (programMachine L).Run .onUserCreate [] (menuState 0 true .null
      (World.create mapSize.x mapSize.y)) := .nil
  have htwo := (hfirst.snoc (hframe (by decide) (by decide) _ _)).snoc hsecond
  have hfour := (htwo.snoc (hframe (by decide) (by decide) _ _)).snoc
    (hframe (by decide) (by decide) _ _)
  have hsix := (hfour.snoc (hframe (by decide) (by decide) _ _)).snoc
    (hframe (by decide) (by decide) _ _)
  exact ⟨_, _, hsix.snoc (takes_of_coreUpdate hgame rfl hi), rfl, by simp⟩

end

/-- `std::to_string` of a float. -/
def decimalText : Extended ℚ → List UInt8
  | .fin q =>
      let n := (|q| * 10 ^ 6 + 1 / 2).floor.toNat
      (if q < 0 then bytes "-" else []) ++ bytes (toString (n / 10 ^ 6)) ++ bytes "." ++
        (bytes (toString (10 ^ 6 + n % 10 ^ 6))).drop 1
  | .posInf => bytes "inf"
  | .negInf => bytes "-inf"
  | .nan => bytes "nan"

/-- The time of a contact, which is exact. -/
def contactTime : Extended ℚ → ℚ
  | .fin q => q
  | _ => 0

/-- The sine and the cosine of the two angles, to seven places. -/
def cameraAngle (a : ℚ) : Angle :=
  if a = 1 / 2 then ⟨4794255 / 10 ^ 7, 8775826 / 10 ^ 7⟩ else ⟨-7055403 / 10 ^ 7, 7086698 / 10 ^ 7⟩

def stdLib : StdLib where
  floatText := .twoAndAHalf
  toText := decimalText
  angle := cameraAngle
  sortContacts z := z.mergeSort fun a b => contactTime a.2 ≤ contactTime b.2
  sortQuads quads := quads.mergeSort fun a b => depth a ≤ depth b

theorem pairwise_mergeSort_key {α : Type*} (key : α → ℚ) (l : List α) :
    (l.mergeSort fun a b => key a ≤ key b).Pairwise fun a b => ¬key b < key a := by
  refine (List.pairwise_mergeSort ?_ ?_ l).imp fun {a b} hle => not_lt.mpr (of_decide_eq_true hle)
  · intro a b c hab hbc
    exact decide_eq_true ((of_decide_eq_true hab).trans (of_decide_eq_true hbc))
  · intro a b
    simpa using le_total (key a) (key b)

theorem sorts_stdLib : stdLib.Sorts where
  contacts world p v e := by
    refine ⟨List.mergeSort_perm _ _, ?_⟩
    refine (pairwise_mergeSort_key (fun a : Rect × Extended ℚ => contactTime a.2) _).imp_of_mem
      fun {a b} ha hb hle => ?_
    have hexact (a : Rect × Extended ℚ) (ha : a ∈ stdLib.sortContacts (collectContacts world
        (playerRect (.fin p) (.fin v)) (.fin e) ((surroundingCells (.fin p)).map cellRect))) :
        ∃ t, a.2 = .fin t := by
      rw [stdLib, List.mem_mergeSort] at ha
      obtain ⟨r, x⟩ := a
      obtain ⟨c, -, t, -, hpair⟩ := mem_collectContacts.mp ha
      exact ⟨t, congrArg Prod.snd hpair⟩
    obtain ⟨t, ht⟩ := hexact a ha
    obtain ⟨u, hu⟩ := hexact b hb
    rw [ht, hu, contactTime, contactTime] at hle
    rw [ht, hu, Extended.fin_lt_fin]
    exact hle
  quads quads := ⟨List.mergeSort_perm _ _, pairwise_mergeSort_key depth quads⟩

/-- `{}`. -/
def openMap : Json := ofMembers Members.empty

theorem loaded_openMap (world : World) :
    loaded stdLib world (compact .twoAndAHalf openMap) = some (openMap, world.reset) := by
  have hfits : Serializer.Fits .twoAndAHalf openMap := fits_ofMembers (by simp [Members.empty])
  have hread := fromStream_compact hfits
  have hitems : openMap.items = [] := items_ofMembers _
  rw [loaded, show stdLib.floatText = .twoAndAHalf from rfl, hread, Option.bind_eq_bind,
    Option.bind_some, loadItems, hitems]
  rfl

/-- A tenth of a second. -/
def waitFrame : ProgramInput where
  held := ⟨false, false, false, false⟩
  fElapsedTime := 1 / 10
  bEscape := false
  file := compact .twoAndAHalf openMap

/-- The first frame of the game. -/
theorem program_run_openMap :
    ∃ tr s mapDict world p, (programMachine stdLib).Run .onUserCreate tr s ∧ tr.length = 7 ∧
      Loads stdLib tr mapDict world ∧ Played stdLib tr world s.vCharPos ∧
      ∃ e ∈ tr, e.out = gameSheets stdLib mapDict world p := by
  have hpos : (0 : ℚ) < waitFrame.fElapsedTime := by norm_num [waitFrame]
  obtain ⟨tr, e, hrun, hlength, -⟩ :=
    exists_run_game sorts_stdLib hpos rfl (loaded_openMap _)
  have hseven : (tr ++ [e]).length = 7 := by rw [List.length_append, hlength]; rfl
  obtain ⟨-, -, hthird⟩ := program_run sorts_stdLib hrun
  obtain ⟨mapDict, world, hloads, hplayed, hshown⟩ := hthird (by omega)
  obtain ⟨p, -, -, hout⟩ := hshown tr e [] rfl hlength.ge
  exact ⟨_, _, mapDict, world, p, hrun, hseven, hloads, hplayed (by omega), e, by simp, hout⟩

end AmongUs.Client
