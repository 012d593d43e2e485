import AmongUs.Networking.Wire
import Mathlib.Data.List.TakeDrop

/-!
The reading side of a connection.

One temporary message is filled by `ReadHeader` and `ReadBody` in turn, and
it is the same object for every message of the stream. A header that
announces no body leaves the bytes of the message before in place, and
`AddToIncomingMessageQueue` delivers them again. So what is delivered for a
frame depends on the frames before it, through the body they left behind:
`received` says how, and `messagesIn_stream` is the refinement. The reader
is fed one byte at a time, and an `async_read` completes as soon as the
bytes it asked for are there.
-/

namespace AmongUs.Networking

/-- The `async_read` that is outstanding. -/
inductive Reading
  | header
  | body
  deriving DecidableEq

/-- `arrived` are the bytes of the outstanding read, `messagesIn` what was
pushed on the incoming queue. -/
structure Reader where
  msgTemporaryIn : Message := {}
  reading : Reading := .header
  arrived : List UInt8 := []
  messagesIn : List Message := []

namespace Reader

def requested (r : Reader) : ℕ :=
  match r.reading with
  | .header => headerSize
  | .body => r.msgTemporaryIn.body.length

def readHeader (r : Reader) : Reader := { r with reading := .header, arrived := [] }

def readBody (r : Reader) : Reader := { r with reading := .body, arrived := [] }

def addToIncomingMessageQueue (r : Reader) : Reader :=
  readHeader { r with messagesIn := r.messagesIn ++ [r.msgTemporaryIn] }

/-- The handler of `ReadHeader`. -/
def headerRead (r : Reader) : Reader :=
  let header := headerOfBytes r.arrived
  if 0 < header.size then
    -- `resize` keeps what was there; the read will overwrite all of it.
    readBody { r with
      msgTemporaryIn :=
        { header := header
          body := r.msgTemporaryIn.body.takeD header.size.toNat 0 } }
  else
    -- The body is neither cleared nor resized.
    addToIncomingMessageQueue { r with
      msgTemporaryIn := { header := header, body := r.msgTemporaryIn.body } }

/-- The handler of `ReadBody`; the bytes were read into the body. -/
def bodyRead (r : Reader) : Reader :=
  addToIncomingMessageQueue { r with
    msgTemporaryIn := { header := r.msgTemporaryIn.header, body := r.arrived } }

/-- One more byte of the stream. -/
def feed (r : Reader) (b : UInt8) : Reader :=
  let r := { r with arrived := r.arrived ++ [b] }
  if r.arrived.length < r.requested then r
  else
    match r.reading with
    | .header => headerRead r
    | .body => bodyRead r

def feedAll (r : Reader) (bs : List UInt8) : Reader := bs.foldl feed r

@[simp] theorem feedAll_nil (r : Reader) : r.feedAll [] = r := rfl

theorem feedAll_append (r : Reader) (bs bs' : List UInt8) :
    r.feedAll (bs ++ bs') = (r.feedAll bs).feedAll bs' := List.foldl_append ..

/-- Bytes that do not complete the outstanding read only wait. -/
theorem feedAll_of_lt {r : Reader} {bs : List UInt8}
    (h : r.arrived.length + bs.length < r.requested) :
    r.feedAll bs = { r with arrived := r.arrived ++ bs } := by
  induction bs generalizing r with
  | nil => simp
  | cons b bs ih =>
      have hb : r.feed b = { r with arrived := r.arrived ++ [b] } := by
        have hlt : (r.arrived ++ [b]).length < r.requested := by
          simp only [List.length_append, List.length_cons, List.length_nil] at h ⊢
          omega
        simp only [feed]
        exact if_pos hlt
      have hrest : (r.arrived ++ [b]).length + bs.length < r.requested := by
        simp only [List.length_append, List.length_cons, List.length_nil] at h ⊢
        omega
      change (r.feed b).feedAll bs = _
      rw [hb, ih hrest]
      simp

/-- The byte that completes the outstanding read runs its handler. -/
theorem feedAll_of_eq {r : Reader} {bs : List UInt8} (hbs : bs ≠ [])
    (h : r.arrived.length + bs.length = r.requested) :
    r.feedAll bs =
      match r.reading with
      | .header => headerRead { r with arrived := r.arrived ++ bs }
      | .body => bodyRead { r with arrived := r.arrived ++ bs } := by
  obtain ⟨init, b, rfl⟩ := bs.eq_nil_or_concat.resolve_left hbs
  simp only [List.concat_eq_append, List.length_append, List.length_cons,
    List.length_nil] at h ⊢
  have hinit : r.feedAll init = { r with arrived := r.arrived ++ init } :=
    feedAll_of_lt (by omega)
  have hfull : ¬((r.arrived ++ init) ++ [b]).length < r.requested := by
    simp only [List.length_append, List.length_cons, List.length_nil]
    omega
  rw [feedAll_append, hinit]
  change feed _ b = _
  simp only [feed]
  rw [if_neg (by exact hfull)]
  simp only [List.append_assoc]

/-- Nothing of the next frame has been read yet. -/
def AtFrame (r : Reader) : Prop := r.reading = .header ∧ r.arrived = []

theorem atFrame_initial : AtFrame {} := ⟨rfl, rfl⟩

end Reader

/-- What is delivered for a frame when the body holds `held`. -/
def Frame.overBody (held : List UInt8) (f : Frame) : Message where
  header := f.header
  body := if f.payload = [] then held else f.payload

/-- What is delivered for the frames of a stream, in order. -/
def received (held : List UInt8) : List Frame → List Message
  | [] => []
  | f :: fs => f.overBody held :: received (f.overBody held).body fs

@[simp] theorem Frame.overBody_header (held : List UInt8) (f : Frame) :
    (f.overBody held).header = f.header := rfl

theorem Frame.overBody_eq_message_iff (held : List UInt8) (f : Frame) :
    f.overBody held = f.message ↔ (f.payload = [] → held = []) := by
  by_cases hempty : f.payload = []
  · simp [overBody, message, hempty]
  · simp [overBody, message, hempty]

namespace Reader

theorem feedAll_headerBytes {r : Reader} (h : r.AtFrame) (header : MessageHeader)
    (pad : UInt16) :
    r.feedAll (headerBytes header pad) =
      headerRead { r with arrived := headerBytes header pad } := by
  obtain ⟨hreading, harrived⟩ := h
  have hlen : r.arrived.length + (headerBytes header pad).length = r.requested := by
    simp [harrived, requested, hreading]
  have hne : headerBytes header pad ≠ [] := by
    intro hnil
    have hzero := congrArg List.length hnil
    simp [headerSize] at hzero
  rw [feedAll_of_eq hne hlen, hreading, harrived]
  rfl

/-- A whole frame is delivered over what the body held. -/
theorem feedAll_frame {r : Reader} (h : r.AtFrame) (f : Frame) :
    r.feedAll f.bytes =
      readHeader { r with
        msgTemporaryIn := f.overBody r.msgTemporaryIn.body
        messagesIn := r.messagesIn ++ [f.overBody r.msgTemporaryIn.body] } := by
  have hheader : headerOfBytes (headerBytes f.header f.pad) = f.header := by
    simpa using headerOfBytes_headerBytes f.header f.pad []
  rw [Frame.bytes, feedAll_append, feedAll_headerBytes h, headerRead, hheader]
  by_cases hempty : f.payload = []
  · have hsize : f.header.size = 0 := by
      simp [Frame.header, hempty]
    simp [hsize, hempty, Frame.overBody, addToIncomingMessageQueue, readHeader]
  · have hpos : 0 < f.header.size := by
      rw [UInt32.lt_iff_toNat_lt, f.size_header]
      exact List.length_pos_iff.mpr hempty
    rw [if_pos hpos, feedAll_of_eq hempty]
    · simp [readBody, bodyRead, addToIncomingMessageQueue, readHeader, Frame.overBody, hempty]
    · simp [readBody, requested, List.takeD_length]

theorem AtFrame.feedAll_frame {r : Reader} (h : r.AtFrame) (f : Frame) :
    (r.feedAll f.bytes).AtFrame := by
  rw [Reader.feedAll_frame h]
  exact ⟨rfl, rfl⟩

/-- The frames of a stream are delivered in order, each over the body that
the frames before it left. -/
theorem feedAll_frames {r : Reader} (h : r.AtFrame) (fs : List Frame) :
    (r.feedAll (fs.flatMap Frame.bytes)).AtFrame ∧
      (r.feedAll (fs.flatMap Frame.bytes)).messagesIn =
        r.messagesIn ++ received r.msgTemporaryIn.body fs := by
  induction fs generalizing r with
  | nil => simpa [received] using h
  | cons f fs ih =>
      rw [List.flatMap_cons, feedAll_append]
      have hrest := ih (h.feedAll_frame f)
      refine ⟨hrest.1, ?_⟩
      rw [hrest.2, feedAll_frame h]
      simp [readHeader, received]

/-- The bytes of the frame that is being read. The temporary message does not
keep the padding of its header. -/
def inProgress (r : Reader) (pad : UInt16) : List UInt8 :=
  match r.reading with
  | .header => r.arrived
  | .body => headerBytes r.msgTemporaryIn.header pad ++ r.arrived

/-- Bytes that complete no frame deliver nothing, and are all kept. -/
theorem feedAll_unfinished {r : Reader} (h : r.AtFrame) {bs : List UInt8}
    (hbs : takeFrame bs = none) :
    (r.feedAll bs).messagesIn = r.messagesIn ∧ ∃ pad, (r.feedAll bs).inProgress pad = bs := by
  have hneed : r.requested = headerSize := by simp [requested, h.1]
  by_cases hshort : bs.length < headerSize
  · rw [feedAll_of_lt]
    · exact ⟨rfl, 0, by simp [inProgress, h.1, h.2]⟩
    · rw [h.2, hneed]
      simpa using hshort
  · -- The header is there, and its body is not complete.
    have hlong : headerSize ≤ bs.length := by omega
    have hbody : (bs.drop headerSize).length < (headerOfBytes bs).size.toNat := by
      simp only [takeFrame] at hbs
      split at hbs
      · cases hbs
      · rename_i hnot
        omega
    have hcut : headerBytes (headerOfBytes bs) (padOfBytes bs) ++ bs.drop headerSize = bs := by
      rw [headerBytes_headerOfBytes hlong, List.take_append_drop]
    have hheader :
        headerOfBytes (headerBytes (headerOfBytes bs) (padOfBytes bs)) = headerOfBytes bs := by
      simpa using headerOfBytes_headerBytes (headerOfBytes bs) (padOfBytes bs) []
    have hpos : 0 < (headerOfBytes bs).size := by
      rw [UInt32.lt_iff_toNat_lt]
      exact (Nat.zero_le _).trans_lt hbody
    have hread : r.feedAll bs = { r with
        msgTemporaryIn :=
          { header := headerOfBytes bs
            body := r.msgTemporaryIn.body.takeD (headerOfBytes bs).size.toNat 0 }
        reading := .body
        arrived := bs.drop headerSize } := by
      conv_lhs => rw [← hcut]
      rw [feedAll_append, feedAll_headerBytes h, headerRead, hheader, if_pos hpos, feedAll_of_lt]
      · rfl
      · simpa [readBody, requested, List.takeD_length] using hbody
    rw [hread]
    exact ⟨rfl, padOfBytes bs, hcut⟩

/-- **The reader refines the frame parser.** On any stream a connection
delivers what `received` says of the frames the stream completes. -/
theorem messagesIn_stream (bs : List UInt8) :
    (({} : Reader).feedAll bs).messagesIn = received [] (frames bs) := by
  have hframes := feedAll_frames atFrame_initial (frames bs)
  conv_lhs => rw [← frames_append_unfinished bs]
  rw [feedAll_append, (feedAll_unfinished hframes.1 (takeFrame_unfinished bs)).1, hframes.2]
  rfl

end Reader

/-! ### What a delivered message looks like -/

/-- The body of a delivered message is the one its header announces, or the
header announces none. -/
theorem received_size {held : List UInt8} {fs : List Frame} :
    ∀ m ∈ received held fs, 0 < m.header.size.toNat → m.Sized := by
  induction fs generalizing held with
  | nil => simp [received]
  | cons f fs ih =>
      intro m hm hpos
      rcases List.mem_cons.mp hm with rfl | hm
      · rw [Frame.overBody_header, Frame.size_header, List.length_pos_iff] at hpos
        simp [Message.Sized, Frame.overBody, hpos]
      · exact ih m hm hpos

theorem received_size_le {held : List UInt8} {fs : List Frame} :
    ∀ m ∈ received held fs, m.header.size.toNat ≤ m.body.length := by
  intro m hm
  rcases Nat.eq_zero_or_pos m.header.size.toNat with hzero | hpos
  · omega
  · exact (received_size m hm hpos).le

end AmongUs.Networking
