import AmongUs.Networking.Message
import Mathlib.Data.List.Induction

/-!
The messages a client sends of its own accord.

`UpdateGameState` pushes the characters of the dumped document one by one,
the last one first, and takes the identifier of the message from `random()`.
-/

namespace AmongUs.Networking.Message

/-- One character after the other. -/
def pushChars (msg : Message) (chars : List UInt8) : Message :=
  chars.foldl (fun msg c => msg.push [c]) msg

@[simp] theorem pushChars_nil (msg : Message) : msg.pushChars [] = msg := rfl

theorem pushChars_cons (msg : Message) (c : UInt8) (chars : List UInt8) :
    msg.pushChars (c :: chars) = (msg.push [c]).pushChars chars := rfl

@[simp] theorem pushChars_body (msg : Message) (chars : List UInt8) :
    (msg.pushChars chars).body = msg.body ++ chars := by
  induction chars generalizing msg with
  | nil => simp
  | cons c chars ih => simp [pushChars_cons, ih]

@[simp] theorem pushChars_type (msg : Message) (chars : List UInt8) :
    (msg.pushChars chars).header.type = msg.header.type := by
  induction chars generalizing msg with
  | nil => rfl
  | cons c chars ih => simp [pushChars_cons, ih]

/-- Only the last push counts for the size field. -/
theorem pushChars_eq {msg : Message} (h : msg.Sized) (chars : List UInt8) :
    msg.pushChars chars = msg.setBody (msg.body ++ chars) := by
  induction chars using List.reverseRecOn with
  | nil => rw [pushChars_nil, List.append_nil, h.setBody_self]
  | append_singleton chars c ih =>
      have hlast : msg.pushChars (chars ++ [c]) = (msg.pushChars chars).push [c] :=
        List.foldl_append ..
      rw [hlast, ih]
      simp [push]

theorem Sized.pushChars {msg : Message} (h : msg.Sized) {chars : List UInt8}
    (hlt : msg.body.length + chars.length < 2 ^ 32) : (msg.pushChars chars).Sized := by
  rw [pushChars_eq h]
  exact sized_setBody msg (by simpa using hlt)

end AmongUs.Networking.Message

namespace AmongUs.Client

open Networking

def pingServer (timeNow : Int64) : Message :=
  Message.push { header := { type := .serverPing } } (timePointBytes timeNow)

def messageAll : Message := { header := { type := .messageAll } }

def acceptServerConnection : Message := { header := { type := .clientAccept } }

/-- `s` is the text of the document, `id` the low half of `random()`. -/
def updateGameState (id : UInt16) (s : List UInt8) : Message :=
  Message.pushChars { header := { type := .clientUpdateGS, id := id } } s.reverse

theorem updateGameState_body (id : UInt16) (s : List UInt8) :
    (updateGameState id s).body = s.reverse := by
  simp [updateGameState]

theorem updateGameState_sized (id : UInt16) {s : List UInt8} (h : s.length < 2 ^ 32) :
    (updateGameState id s).Sized :=
  (Message.sized_empty .clientUpdateGS id).pushChars (by simpa using h)

end AmongUs.Client
