import AmongUs.Bytes.LittleEndian

/-!
Messages: a header of fixed size, and a body used as a stack of bytes.

`push` and `pop` are `operator<<` and `operator>>`. Both work on the
object representation of a value, so a value is its list of bytes, and both
end by copying the new body size into the 32-bit size field of the header.
`pop` computes its offset by a subtraction that the source does not check;
where the body is too short the copy reads outside it, which is the fault
`outOfBounds` here.
-/

namespace AmongUs.Networking

open Bytes

/-- The message types. A peer may also send a number that no enumerator
has; every `switch` on the type passes over it. -/
inductive MsgTypes
  | serverAccept
  | serverDeny
  | serverPing
  | clientAccept
  | clientDeny
  | clientPing
  | messageAll
  | serverMessage
  | serverACK
  | clientTextMessage
  | clientUpdateGS
  | serverUpdateGS
  | other (code : UInt32) (unnamed : 12 ≤ code.toNat)
  deriving DecidableEq

/-- How a handler ends other than by returning. -/
inductive Fault
  /-- `memcpy` reads outside the body of a message. -/
  | outOfBounds
  /-- `json::parse` throws. -/
  | parseError
  /-- A status is read from an entry that is not there. -/
  | typeError
  /-- A null `shared_ptr` is dereferenced. -/
  | nullPointer
  /-- `front` or `pop_front` of an empty queue. -/
  | emptyQueue
  deriving DecidableEq

structure MessageHeader where
  type : MsgTypes := .serverAccept
  id : UInt16 := 0
  size : UInt32 := 0
  deriving DecidableEq

structure Message where
  header : MessageHeader := {}
  body : List UInt8 := []
  deriving DecidableEq

namespace Message

/-- The new body, with the size field of the header recalculated. -/
def setBody (msg : Message) (body : List UInt8) : Message :=
  { header := { msg.header with size := UInt32.ofNat body.length }, body := body }

/-- `msg << data`. -/
def push (msg : Message) (data : List UInt8) : Message := msg.setBody (msg.body ++ data)

/-- `msg >> data` for a value of `n` bytes. -/
def pop (msg : Message) (n : ℕ) : Except Fault (List UInt8 × Message) :=
  if n ≤ msg.body.length then
    let i := msg.body.length - n
    .ok (msg.body.drop i, msg.setBody (msg.body.take i))
  else .error .outOfBounds

/-- The size field of the header says how long the body is. -/
def Sized (msg : Message) : Prop := msg.header.size.toNat = msg.body.length

instance (msg : Message) : Decidable msg.Sized :=
  inferInstanceAs (Decidable (msg.header.size.toNat = msg.body.length))

@[simp] theorem setBody_body (msg : Message) (body : List UInt8) :
    (msg.setBody body).body = body := rfl

@[simp] theorem setBody_type (msg : Message) (body : List UInt8) :
    (msg.setBody body).header.type = msg.header.type := rfl

@[simp] theorem setBody_id (msg : Message) (body : List UInt8) :
    (msg.setBody body).header.id = msg.header.id := rfl

@[simp] theorem setBody_size (msg : Message) (body : List UInt8) :
    (msg.setBody body).header.size = UInt32.ofNat body.length := rfl

@[simp] theorem setBody_setBody (msg : Message) (body body' : List UInt8) :
    (msg.setBody body).setBody body' = msg.setBody body' := rfl

@[simp] theorem push_body (msg : Message) (data : List UInt8) :
    (msg.push data).body = msg.body ++ data := rfl

@[simp] theorem push_type (msg : Message) (data : List UInt8) :
    (msg.push data).header.type = msg.header.type := rfl

theorem sized_empty (type : MsgTypes) (id : UInt16) :
    Sized { header := { type := type, id := id } } := rfl

/-- The size field holds any body that is shorter than `2 ^ 32` bytes. -/
theorem sized_setBody (msg : Message) {body : List UInt8} (h : body.length < 2 ^ 32) :
    (msg.setBody body).Sized := by
  rw [Sized, setBody_size, setBody_body, UInt32.toNat_ofNat']
  exact Nat.mod_eq_of_lt h

/-- A sized message is fixed by its type, its identifier and its body. -/
theorem Sized.setBody_self {msg : Message} (h : msg.Sized) : msg.setBody msg.body = msg := by
  obtain ⟨⟨type, id, size⟩, body⟩ := msg
  have hsize : UInt32.ofNat body.length = size := by
    rw [← show size.toNat = body.length from h, UInt32.ofNat_toNat]
  simp [setBody, hsize]

/-- A pop that has enough bytes takes the ones pushed last. -/
theorem pop_of_append {msg : Message} {rest data : List UInt8} (h : msg.body = rest ++ data) :
    msg.pop data.length = .ok (data, msg.setBody rest) := by
  simp [pop, h]

theorem pop_eq_error {msg : Message} {n : ℕ} (h : msg.body.length < n) :
    msg.pop n = .error .outOfBounds := by
  simp [pop, Nat.not_le.mpr h]

theorem pop_eq_ok {msg : Message} {n : ℕ} (h : n ≤ msg.body.length) :
    msg.pop n = .ok (msg.body.drop (msg.body.length - n),
      msg.setBody (msg.body.take (msg.body.length - n))) := by
  simp [pop, h]

/-- Popping undoes pushing, header included. -/
theorem pop_push {msg : Message} (h : msg.Sized) (data : List UInt8) :
    (msg.push data).pop data.length = .ok (data, msg) := by
  rw [pop_of_append (push_body msg data), push, setBody_setBody, h.setBody_self]

end Message

/-! ### The values that are pushed and popped -/

/-- A `uint32_t`. -/
def uint32Bytes (n : ℕ) : List UInt8 := leBytes 4 n

/-- A `steady_clock::time_point`, 64 bits of nanoseconds. -/
def timePointBytes (t : Int64) : List UInt8 := leBytes 8 t.toUInt64.toNat

def timePointOfBytes (bs : List UInt8) : Int64 := (UInt64.ofNat (leValue bs)).toInt64

@[simp] theorem length_uint32Bytes (n : ℕ) : (uint32Bytes n).length = 4 := length_leBytes 4 n

@[simp] theorem length_timePointBytes (t : Int64) : (timePointBytes t).length = 8 :=
  length_leBytes 8 _

theorem timePointOfBytes_timePointBytes (t : Int64) :
    timePointOfBytes (timePointBytes t) = t := by
  have hlt : t.toUInt64.toNat < 256 ^ 8 := t.toUInt64.toNat_lt
  rw [timePointOfBytes, timePointBytes, leValue_leBytes_of_lt hlt, UInt64.ofNat_toNat]
  exact Int64.toInt64_toUInt64 t

end AmongUs.Networking
