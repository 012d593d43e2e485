import AmongUs.Replica.Store
import Mathlib.Data.Rat.Defs
import Mathlib.Data.String.Basic

/-!
The game state: a database of JSON values, and the updates it takes.

A document is a value of the JSON library as far as this repository looks at
it. An object keeps its keys in the strict order of the `std::map` under it,
so it cannot hold a key twice. The text of a document is made and read by
`dump` and `parse`, which stay parameters; where `parse` throws, it gives
nothing.
-/

namespace AmongUs

inductive Json
  | null
  | boolean (b : Bool)
  | integer (n : ℤ)
  | float (x : ℚ)
  | string (s : String)
  | array (size : ℕ) (elem : Fin size → Json)
  | object (keys : List String) (sorted : keys.Pairwise (· < ·))
      (value : Fin keys.length → Json)

/-- What `items()` iterates over. A value that is no container is the only
element of its own range, under the empty key, and `null` has none. -/
def Json.items : Json → List (String × Json)
  | .null => []
  | .array _ elem => List.ofFn fun i => (toString i.val, elem i)
  | .object keys _ value => List.ofFn fun i => (keys.get i, value i)
  | j => [("", j)]

/-- The library's two conversions. -/
structure JsonText where
  dump : Json → List UInt8
  parse : List UInt8 → Option Json

/-- `{"game_state1":7}`. -/
def Json.gameState1 : Json :=
  .object ["game_state1"] (List.pairwise_singleton _ _) fun _ => .integer 7

/-- The library on that one text, for runs on a fixed input. -/
def JsonText.gameState1 : JsonText where
  dump _ := gameState1Text
  parse text := if text = gameState1Text then some .gameState1 else none
where
  gameState1Text : List UInt8 :=
    [123, 34, 103, 97, 109, 101, 95, 115, 116, 97, 116, 101, 49, 34, 58, 55, 125]

theorem JsonText.gameState1_parse {text : List UInt8} {j : Json}
    (h : JsonText.gameState1.parse text = some j) : j = .gameState1 := by
  simp only [gameState1] at h
  split at h
  · exact (Option.some.inj h).symm
  · cases h

structure GameInstance where
  database : String → Option Json

namespace GameInstance

/-- The database that the constructor builds. -/
def initial : GameInstance where
  database
    | "game_state1" => some (.integer 1)
    | "game_state2" => some (.float (5 / 2))
    | "game_state3" => some (.array 4 fun i => .integer (i.val + 1))
    | _ => none

/-- Assigns every item whose key the database contains; always succeeds. -/
def updateDatabase (g : GameInstance) (updates : Json) : Bool × GameInstance :=
  let database := updates.items.foldl
    (fun database (key, value) =>
      if (database key).isSome then Function.update database key (some value) else database)
    g.database
  (true, { g with database := database })

theorem updateDatabase_eq (g : GameInstance) (updates : Json) :
    g.updateDatabase updates = (true, ⟨Replica.writeAll g.database updates.items⟩) := rfl

end GameInstance

end AmongUs
