import AmongUs.Networking.Message
import Mathlib.Tactic.IntervalCases

/-!
What a connection carries: the bytes of a header, then the bytes of a body.

A `Frame` is a message as the peer reads it off the stream. Its header has
no size of its own, it is computed from the payload, so a frame always says
how long it is. The two bytes of padding in the header travel with it and
mean nothing. `frames` cuts a stream into the frames it completes, and
`unfinished` is what is left.
-/

namespace AmongUs.Networking

open Bytes

def MsgTypes.toCode : MsgTypes → UInt32
  | .serverAccept => 0
  | .serverDeny => 1
  | .serverPing => 2
  | .clientAccept => 3
  | .clientDeny => 4
  | .clientPing => 5
  | .messageAll => 6
  | .serverMessage => 7
  | .serverACK => 8
  | .clientTextMessage => 9
  | .clientUpdateGS => 10
  | .serverUpdateGS => 11
  | .other code _ => code

def MsgTypes.ofCode (code : UInt32) : MsgTypes :=
  if unnamed : 12 ≤ code.toNat then .other code unnamed
  else
    match code.toNat with
    | 0 => .serverAccept
    | 1 => .serverDeny
    | 2 => .serverPing
    | 3 => .clientAccept
    | 4 => .clientDeny
    | 5 => .clientPing
    | 6 => .messageAll
    | 7 => .serverMessage
    | 8 => .serverACK
    | 9 => .clientTextMessage
    | 10 => .clientUpdateGS
    | _ => .serverUpdateGS

@[simp] theorem MsgTypes.ofCode_toCode (type : MsgTypes) : ofCode type.toCode = type := by
  cases type with
  | other code unnamed => simp [toCode, ofCode, unnamed]
  | _ => rfl

@[simp] theorem MsgTypes.toCode_ofCode (code : UInt32) : (ofCode code).toCode = code := by
  unfold ofCode
  split
  · rfl
  · rename_i hlt
    apply UInt32.toNat.inj
    have hcode : code.toNat < 12 := by omega
    generalize code.toNat = n at hcode
    interval_cases n <;> rfl

/-- `sizeof(message_header)`. -/
def headerSize : ℕ := 12

def headerBytes (header : MessageHeader) (pad : UInt16) : List UInt8 :=
  leBytes 4 header.type.toCode.toNat ++ (leBytes 2 header.id.toNat ++
    (leBytes 2 pad.toNat ++ leBytes 4 header.size.toNat))

def headerOfBytes (bs : List UInt8) : MessageHeader where
  type := .ofCode (UInt32.ofNat (leValue (bs.take 4)))
  id := UInt16.ofNat (leValue ((bs.drop 4).take 2))
  size := UInt32.ofNat (leValue ((bs.drop 8).take 4))

def padOfBytes (bs : List UInt8) : UInt16 := UInt16.ofNat (leValue ((bs.drop 6).take 2))

@[simp] theorem length_headerBytes (header : MessageHeader) (pad : UInt16) :
    (headerBytes header pad).length = headerSize := by
  simp [headerBytes, headerSize]

theorem leValue_uint32 (n : UInt32) : leValue (leBytes 4 n.toNat) = n.toNat :=
  leValue_leBytes_of_lt n.toNat_lt

theorem leValue_uint16 (n : UInt16) : leValue (leBytes 2 n.toNat) = n.toNat :=
  leValue_leBytes_of_lt n.toNat_lt

theorem headerOfBytes_headerBytes (header : MessageHeader) (pad : UInt16) (rest : List UInt8) :
    headerOfBytes (headerBytes header pad ++ rest) = header := by
  simp [headerOfBytes, headerBytes, List.drop_append,
    List.drop_of_length_le, leValue_uint32, leValue_uint16]

theorem padOfBytes_headerBytes (header : MessageHeader) (pad : UInt16) (rest : List UInt8) :
    padOfBytes (headerBytes header pad ++ rest) = pad := by
  simp [padOfBytes, headerBytes, List.drop_append, List.drop_of_length_le,
    leValue_uint16]

/-- `w` bytes of a longer string, read as a number and written again. -/
theorem leBytes_leValue_slice {bs : List UInt8} {i w : ℕ} (h : i + w ≤ bs.length) :
    leBytes w (leValue ((bs.drop i).take w)) = (bs.drop i).take w := by
  have hlen : ((bs.drop i).take w).length = w := by
    rw [List.length_take, List.length_drop]
    omega
  calc leBytes w (leValue ((bs.drop i).take w))
      = leBytes ((bs.drop i).take w).length (leValue ((bs.drop i).take w)) := by rw [hlen]
    _ = (bs.drop i).take w := leBytes_leValue _

theorem leValue_slice_lt (bs : List UInt8) (i w : ℕ) :
    leValue ((bs.drop i).take w) < 256 ^ w :=
  (leValue_lt _).trans_le (Nat.pow_le_pow_right (by norm_num) (by simp))

/-- Reading a header keeps all its bytes. -/
theorem headerBytes_headerOfBytes {bs : List UInt8} (h : headerSize ≤ bs.length) :
    headerBytes (headerOfBytes bs) (padOfBytes bs) = bs.take headerSize := by
  rw [headerSize] at h
  have htype : leValue (bs.take 4) < 4294967296 := leValue_slice_lt bs 0 4
  have hid : leValue ((bs.drop 4).take 2) < 65536 := leValue_slice_lt bs 4 2
  have hpad : leValue ((bs.drop 6).take 2) < 65536 := leValue_slice_lt bs 6 2
  have hsize : leValue ((bs.drop 8).take 4) < 4294967296 := leValue_slice_lt bs 8 4
  -- The header is cut where its fields begin.
  have hcut : bs.take headerSize = (bs.drop 0).take 4 ++ ((bs.drop 4).take 2 ++
      ((bs.drop 6).take 2 ++ (bs.drop 8).take 4)) := by
    rw [headerSize, show 12 = 4 + (2 + (2 + 4)) from rfl]
    simp only [List.take_add, List.drop_drop, List.drop_zero]
  rw [hcut, ← leBytes_leValue_slice (show 0 + 4 ≤ bs.length by omega),
    ← leBytes_leValue_slice (show 4 + 2 ≤ bs.length by omega),
    ← leBytes_leValue_slice (show 6 + 2 ≤ bs.length by omega),
    ← leBytes_leValue_slice (show 8 + 4 ≤ bs.length by omega)]
  simp [headerBytes, headerOfBytes, padOfBytes, Nat.mod_eq_of_lt htype, Nat.mod_eq_of_lt hid,
    Nat.mod_eq_of_lt hpad, Nat.mod_eq_of_lt hsize]

/-! ### Frames -/

/-- A header and the body it announces. -/
structure Frame where
  type : MsgTypes
  id : UInt16
  pad : UInt16
  payload : List UInt8
  fits : payload.length < 2 ^ 32

namespace Frame

def header (f : Frame) : MessageHeader where
  type := f.type
  id := f.id
  size := UInt32.ofNat f.payload.length

def message (f : Frame) : Message := { header := f.header, body := f.payload }

def bytes (f : Frame) : List UInt8 := headerBytes f.header f.pad ++ f.payload

@[simp] theorem size_header (f : Frame) : f.header.size.toNat = f.payload.length := by
  rw [header, UInt32.toNat_ofNat']
  exact Nat.mod_eq_of_lt f.fits

/-- The frame of a sized message. -/
def ofMessage (msg : Message) (pad : UInt16) (h : msg.Sized) : Frame where
  type := msg.header.type
  id := msg.header.id
  pad := pad
  payload := msg.body
  fits := by
    rw [← show msg.header.size.toNat = msg.body.length from h]
    exact msg.header.size.toNat_lt

theorem header_ofMessage (msg : Message) (pad : UInt16) (h : msg.Sized) :
    (ofMessage msg pad h).header = msg.header := by
  obtain ⟨⟨type, id, size⟩, body⟩ := msg
  have hsize : UInt32.ofNat body.length = size := by
    rw [← show size.toNat = body.length from h, UInt32.ofNat_toNat]
  simp [ofMessage, header, hsize]

@[simp] theorem message_ofMessage (msg : Message) (pad : UInt16) (h : msg.Sized) :
    (ofMessage msg pad h).message = msg := by
  rw [message, header_ofMessage]
  rfl

theorem bytes_ofMessage (msg : Message) (pad : UInt16) (h : msg.Sized) :
    (ofMessage msg pad h).bytes = headerBytes msg.header pad ++ msg.body := by
  rw [bytes, header_ofMessage]
  rfl

end Frame

/-- The first frame of a stream and what follows it, once all of the
frame is there. -/
def takeFrame (bs : List UInt8) : Option (Frame × List UInt8) :=
  let header := headerOfBytes bs
  let rest := bs.drop headerSize
  if headerSize ≤ bs.length ∧ header.size.toNat ≤ rest.length then
    some ({ type := header.type, id := header.id, pad := padOfBytes bs,
            payload := rest.take header.size.toNat,
            fits := (List.length_take_le _ _).trans_lt header.size.toNat_lt },
          rest.drop header.size.toNat)
  else none

theorem takeFrame_bytes_append (f : Frame) (rest : List UInt8) :
    takeFrame (f.bytes ++ rest) = some (f, rest) := by
  have hlen : (headerBytes f.header f.pad).length = headerSize := length_headerBytes ..
  have hheader : headerOfBytes (f.bytes ++ rest) = f.header := by
    rw [Frame.bytes, List.append_assoc, headerOfBytes_headerBytes]
  have hpad : padOfBytes (f.bytes ++ rest) = f.pad := by
    rw [Frame.bytes, List.append_assoc, padOfBytes_headerBytes]
  have hdrop : (f.bytes ++ rest).drop headerSize = f.payload ++ rest := by
    rw [Frame.bytes, List.append_assoc, ← hlen, List.drop_left]
  have hlong : headerSize ≤ (f.bytes ++ rest).length := by
    simp [Frame.bytes]
  simp only [takeFrame, hheader, hpad, hdrop, Frame.size_header, hlong, true_and]
  simp [Frame.header]

theorem takeFrame_eq_some {bs rest : List UInt8} {f : Frame}
    (h : takeFrame bs = some (f, rest)) : bs = f.bytes ++ rest := by
  simp only [takeFrame] at h
  split at h
  · rename_i hlong
    simp only [Option.some.injEq, Prod.mk.injEq] at h
    obtain ⟨rfl, rfl⟩ := h
    have hpayload : ((bs.drop headerSize).take (headerOfBytes bs).size.toNat).length =
        (headerOfBytes bs).size.toNat := by
      rw [List.length_take]
      omega
    simp only [Frame.bytes, Frame.header, hpayload, UInt32.ofNat_toNat]
    rw [headerBytes_headerOfBytes hlong.1, List.append_assoc, List.take_append_drop,
      List.take_append_drop]
  · cases h

theorem Frame.headerSize_le_length (f : Frame) : headerSize ≤ f.bytes.length := by
  simp [bytes]

/-- Takes at most `n` frames off the stream. -/
def takeFrames : ℕ → List UInt8 → List Frame × List UInt8
  | 0, bs => ([], bs)
  | n + 1, bs =>
      match takeFrame bs with
      | some (f, rest) => (f :: (takeFrames n rest).1, (takeFrames n rest).2)
      | none => ([], bs)

/-- The frames that a stream completes. A frame has at least the bytes of
its header, so there are not more of them than bytes. -/
def frames (bs : List UInt8) : List Frame := (takeFrames bs.length bs).1

/-- The bytes after the last completed frame. -/
def unfinished (bs : List UInt8) : List UInt8 := (takeFrames bs.length bs).2

theorem takeFrames_bytes (n : ℕ) (bs : List UInt8) :
    (takeFrames n bs).1.flatMap Frame.bytes ++ (takeFrames n bs).2 = bs := by
  induction n generalizing bs with
  | zero => rfl
  | succ n ih =>
      rw [takeFrames]
      split
      · rename_i f rest hsome
        rw [List.flatMap_cons, List.append_assoc, ih, ← takeFrame_eq_some hsome]
      · rfl

theorem takeFrames_finished {n : ℕ} {bs : List UInt8} (h : bs.length ≤ n) :
    takeFrame (takeFrames n bs).2 = none := by
  induction n generalizing bs with
  | zero =>
      obtain rfl : bs = [] := List.length_eq_zero_iff.mp (by omega)
      simp [takeFrames, takeFrame, headerSize]
  | succ n ih =>
      rw [takeFrames]
      split
      · rename_i f rest hsome
        have hbytes := congrArg List.length (takeFrame_eq_some hsome)
        have hf := f.headerSize_le_length
        rw [List.length_append] at hbytes
        exact ih (by simp only [headerSize] at hf; omega)
      · assumption

/-- The frames and the rest are the whole stream. -/
theorem frames_append_unfinished (bs : List UInt8) :
    (frames bs).flatMap Frame.bytes ++ unfinished bs = bs := takeFrames_bytes _ _

theorem takeFrame_unfinished (bs : List UInt8) : takeFrame (unfinished bs) = none :=
  takeFrames_finished le_rfl

end AmongUs.Networking
