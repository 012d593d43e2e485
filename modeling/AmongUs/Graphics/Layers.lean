import Mathlib.Data.Fin.VecNotation
import Mathlib.Data.Rat.Defs

/-!
The layers of the pixel game engine.

A program draws into one layer at a time. The engine shows the layers in
every frame from the last one to the first, each with its sprite and then its
decals, and the first one always. A layer that is shown loses its decals then,
unless the program has asked to keep them; a layer that is not shown keeps
them, and its sprite is not sent to the screen before it is.

The programs only fill a sprite as a whole, so a sprite is its colour here.
-/

namespace AmongUs.Graphics

structure Pixel where
  r : UInt8
  g : UInt8
  b : UInt8
  a : UInt8 := 0xFF
  deriving DecidableEq

namespace Pixel

def veryDarkBlue : Pixel := { r := 0, g := 0, b := 64 }
def veryDarkGreen : Pixel := { r := 0, g := 64, b := 0 }
def yellow : Pixel := { r := 255, g := 255, b := 0 }
def white : Pixel := { r := 255, g := 255, b := 255 }
def black : Pixel := { r := 0, g := 0, b := 0 }
def blank : Pixel := { r := 0, g := 0, b := 0, a := 0 }

end Pixel

/-- `LayerDesc`, for decals `δ`. The texture is what the screen has of the
sprite. -/
structure LayerDesc (δ : Type) where
  bShow : Bool := false
  bUpdate : Bool := false
  bClearVecDecal : Bool := true
  pDrawTarget : Pixel := .black
  texture : Pixel := .black
  vecDecalInstance : List δ := []
  deriving DecidableEq

/-- What is shown of a layer. -/
structure Sheet (δ : Type) where
  texture : Pixel
  decals : List δ
  deriving DecidableEq

namespace LayerDesc

variable {δ : Type}

/-- The sprite is sent to the screen before the layer is shown. -/
def uploaded (l : LayerDesc δ) : Pixel := if l.bUpdate then l.pDrawTarget else l.texture

def sheet (l : LayerDesc δ) : Sheet δ := ⟨l.uploaded, l.vecDecalInstance⟩

/-- The layer after it was shown. -/
def afterShown (l : LayerDesc δ) : LayerDesc δ :=
  { l with
    bUpdate := false
    texture := l.uploaded
    vecDecalInstance := if l.bClearVecDecal then [] else l.vecDecalInstance }

def afterFrame (l : LayerDesc δ) : LayerDesc δ := if l.bShow then l.afterShown else l

end LayerDesc

/-- What the engine keeps of the layers. The sprite that is drawn on is the
one of the target layer. -/
structure PixelGameEngine (δ : Type) where
  vLayers : List (LayerDesc δ) := []
  nTargetLayer : ℕ := 0
  deriving DecidableEq

namespace PixelGameEngine

variable {δ : Type}

def createLayer (e : PixelGameEngine δ) : PixelGameEngine δ :=
  { e with vLayers := e.vLayers ++ [{}] }

/-- A write to a layer, if there is one of this number. -/
def modifyLayer (e : PixelGameEngine δ) (layer : ℕ) (f : LayerDesc δ → LayerDesc δ) :
    PixelGameEngine δ :=
  { e with vLayers := e.vLayers.modify layer f }

/-- `SetDrawTarget(nullptr)`. -/
def resetDrawTarget (e : PixelGameEngine δ) : PixelGameEngine δ := { e with nTargetLayer := 0 }

def setDrawTarget (e : PixelGameEngine δ) (layer : ℕ) : PixelGameEngine δ :=
  if layer < e.vLayers.length then
    { e.modifyLayer layer fun l => { l with bUpdate := true } with nTargetLayer := layer }
  else e

def enableLayer (e : PixelGameEngine δ) (layer : ℕ) (b : Bool) : PixelGameEngine δ :=
  e.modifyLayer layer fun l => { l with bShow := b }

def enableClearVecDecal (e : PixelGameEngine δ) (layer : ℕ) (b : Bool) : PixelGameEngine δ :=
  e.modifyLayer layer fun l => { l with bClearVecDecal := b }

def clear (e : PixelGameEngine δ) (p : Pixel) : PixelGameEngine δ :=
  e.modifyLayer e.nTargetLayer fun l => { l with pDrawTarget := p }

/-- What the calls that draw decals push. -/
def draw (e : PixelGameEngine δ) (decals : List δ) : PixelGameEngine δ :=
  e.modifyLayer e.nTargetLayer fun l => { l with vecDecalInstance := l.vecDecalInstance ++ decals }

/-- The first layer is shown in any case. -/
def withFirstLayer (e : PixelGameEngine δ) : PixelGameEngine δ :=
  e.modifyLayer 0 fun l => { l with bUpdate := true, bShow := true }

/-- The layers of `olc_PrepareEngine`. -/
def prepareEngine : PixelGameEngine δ := (createLayer {}).withFirstLayer

/-- The part of `olc_CoreUpdate` after `OnUserUpdate`: the sheets that are
shown, the undermost first, and the layers after that. -/
def display (e : PixelGameEngine δ) : List (Sheet δ) × PixelGameEngine δ :=
  let e := e.withFirstLayer
  (((e.vLayers.reverse.filter fun l => l.bShow).map LayerDesc.sheet),
    { e with vLayers := e.vLayers.map LayerDesc.afterFrame })

end PixelGameEngine

end AmongUs.Graphics
