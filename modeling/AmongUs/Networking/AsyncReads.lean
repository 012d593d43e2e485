import AmongUs.Networking.Reader
import Mathlib.Data.List.Forall2

/-!
The reads of a connection as operations of their own.

`Reader` has room for one read and no more. Here `ReadHeader` and `ReadBody`
start one more read each time, beside those that are outstanding; a byte of
the stream goes to the oldest, and the read whose bytes are all there is
taken off before its handler runs. A connection starts with one
`ReadHeader`, and each handler starts one read as the last thing it does, so
there is always exactly one, and the connection is a `Reader`
(`feedAll_ofReader`).

What was delivered and what is in progress is then the whole stream, and it
does not depend on where the stream was cut (`reads_whole_stream`).
-/

namespace AmongUs.Networking

/-- An `async_read` into the header or the body of the temporary message. -/
structure AsyncRead where
  buffer : Reading
  requested : ℕ
  arrived : List UInt8

/-- `asyncReads` are the reads that are outstanding, oldest first. -/
structure ReadSide where
  msgTemporaryIn : Message := {}
  asyncReads : List AsyncRead := []
  messagesIn : List Message := []

namespace ReadSide

def readHeader (r : ReadSide) : ReadSide :=
  { r with asyncReads := r.asyncReads ++ [⟨.header, headerSize, []⟩] }

def readBody (r : ReadSide) : ReadSide :=
  { r with asyncReads := r.asyncReads ++ [⟨.body, r.msgTemporaryIn.body.length, []⟩] }

def addToIncomingMessageQueue (r : ReadSide) : ReadSide :=
  readHeader { r with messagesIn := r.messagesIn ++ [r.msgTemporaryIn] }

/-- The handler of `ReadHeader`, with the bytes that were read. -/
def headerRead (r : ReadSide) (bytes : List UInt8) : ReadSide :=
  let header := headerOfBytes bytes
  if 0 < header.size then
    readBody { r with
      msgTemporaryIn :=
        { header := header
          body := r.msgTemporaryIn.body.takeD header.size.toNat 0 } }
  else
    addToIncomingMessageQueue { r with
      msgTemporaryIn := { header := header, body := r.msgTemporaryIn.body } }

/-- The handler of `ReadBody`. -/
def bodyRead (r : ReadSide) (bytes : List UInt8) : ReadSide :=
  addToIncomingMessageQueue { r with
    msgTemporaryIn := { header := r.msgTemporaryIn.header, body := bytes } }

/-- One more byte of the stream. Without a read it stays in the socket. -/
def feed (r : ReadSide) (b : UInt8) : ReadSide :=
  match r.asyncReads with
  | [] => r
  | a :: rest =>
      let arrived := a.arrived ++ [b]
      if arrived.length < a.requested then
        { r with asyncReads := { a with arrived := arrived } :: rest }
      else
        match a.buffer with
        | .header => headerRead { r with asyncReads := rest } arrived
        | .body => bodyRead { r with asyncReads := rest } arrived

def feedAll (r : ReadSide) (bs : List UInt8) : ReadSide := bs.foldl feed r

/-- A connection that has started to read. -/
def connected : ReadSide := readHeader {}

/-- The connection after a stream that arrived in chunks. -/
def afterChunks (chunks : List (List UInt8)) : ReadSide := chunks.foldl feedAll connected

/-- The bytes of the frames that are being read. -/
def inProgress (r : ReadSide) (pad : UInt16) : List UInt8 :=
  r.asyncReads.flatMap fun a =>
    match a.buffer with
    | .header => a.arrived
    | .body => headerBytes r.msgTemporaryIn.header pad ++ a.arrived

/-- The connection that `Reader` describes. -/
def ofReader (r : Reader) : ReadSide where
  msgTemporaryIn := r.msgTemporaryIn
  asyncReads := [⟨r.reading, r.requested, r.arrived⟩]
  messagesIn := r.messagesIn

theorem connected_eq : connected = ofReader {} := rfl

@[simp] theorem inProgress_ofReader (r : Reader) (pad : UInt16) :
    (ofReader r).inProgress pad = r.inProgress pad := by
  obtain ⟨msgTemporaryIn, reading, arrived, messagesIn⟩ := r
  cases reading with
  | header => simp [ofReader, inProgress, Reader.inProgress]
  | body => simp [ofReader, inProgress, Reader.inProgress]

theorem headerRead_ofReader (r : Reader) :
    headerRead { ofReader r with asyncReads := [] } r.arrived = ofReader r.headerRead := by
  unfold headerRead Reader.headerRead
  dsimp only
  split
  · rfl
  · rfl

/-- **One byte.** The read that it completes was the only one, and the
handler starts the next. -/
theorem feed_ofReader (r : Reader) (b : UInt8) : (ofReader r).feed b = ofReader (r.feed b) := by
  have hreader : r.feed b =
      if (r.arrived ++ [b]).length < r.requested then { r with arrived := r.arrived ++ [b] }
      else match r.reading with
        | .header => Reader.headerRead { r with arrived := r.arrived ++ [b] }
        | .body => Reader.bodyRead { r with arrived := r.arrived ++ [b] } := rfl
  unfold feed
  dsimp only [ofReader]
  rw [hreader]
  split
  · rfl
  · cases hreading : r.reading with
    | header => exact headerRead_ofReader { r with arrived := r.arrived ++ [b] }
    | body => rfl

theorem feedAll_ofReader (r : Reader) (bs : List UInt8) :
    (ofReader r).feedAll bs = ofReader (r.feedAll bs) := by
  induction bs generalizing r with
  | nil => rfl
  | cons b bs ih =>
      have hfirst : (ofReader r).feedAll (b :: bs) = ((ofReader r).feed b).feedAll bs := rfl
      rw [hfirst, feed_ofReader, ih]
      rfl

/-- It is all the same how the stream was cut. -/
theorem afterChunks_eq (chunks : List (List UInt8)) :
    afterChunks chunks = ofReader (({} : Reader).feedAll chunks.flatten) := by
  have hcut : afterChunks chunks = connected.feedAll chunks.flatten := List.foldl_flatten.symm
  rw [hcut, connected_eq, feedAll_ofReader]

end ReadSide

/-! ### What was delivered -/

/-- The bytes a delivered message was read from, but for the padding. A body
that its header does not announce was not read with it. -/
def Message.bytesRead (m : Message) (pad : UInt16) : List UInt8 :=
  headerBytes m.header pad ++ if 0 < m.header.size then m.body else []

/-- The message has the header of the frame, and its body if there is one. -/
def Frame.Delivers (m : Message) (f : Frame) : Prop :=
  m.header = f.header ∧ (0 < m.header.size → m.body = f.payload)

theorem Frame.size_pos_iff (f : Frame) : 0 < f.header.size ↔ f.payload ≠ [] := by
  rw [UInt32.lt_iff_toNat_lt, f.size_header]
  exact List.length_pos_iff

theorem Frame.delivers_overBody (held : List UInt8) (f : Frame) :
    Frame.Delivers (f.overBody held) f := by
  refine ⟨rfl, fun hpos => ?_⟩
  exact if_neg (f.size_pos_iff.mp hpos)

theorem Frame.bytesRead_overBody (held : List UInt8) (f : Frame) :
    (f.overBody held).bytesRead f.pad = f.bytes := by
  rw [Message.bytesRead, bytes, overBody_header]
  by_cases hempty : f.payload = []
  · rw [if_neg (mt f.size_pos_iff.mp (not_not.mpr hempty)), hempty]
  · rw [if_pos (f.size_pos_iff.mpr hempty), (f.delivers_overBody held).2]
    exact f.size_pos_iff.mpr hempty

theorem forall₂_received (held : List UInt8) (fs : List Frame) :
    List.Forall₂ Frame.Delivers (received held fs) fs := by
  induction fs generalizing held with
  | nil => exact .nil
  | cons f fs ih => exact .cons (f.delivers_overBody held) (ih _)

theorem zipWith_bytesRead_received (held : List UInt8) (fs : List Frame) :
    (List.zipWith Message.bytesRead (received held fs) (fs.map Frame.pad)).flatten =
      fs.flatMap Frame.bytes := by
  induction fs generalizing held with
  | nil => rfl
  | cons f fs ih =>
      rw [received, List.map_cons, List.zipWith_cons_cons, List.flatten_cons, ih,
        f.bytesRead_overBody, List.flatMap_cons]

namespace Reader

/-- A byte may deliver a message, and takes none back. -/
theorem messagesIn_prefix_feed (r : Reader) (b : UInt8) :
    r.messagesIn <+: (r.feed b).messagesIn := by
  unfold feed
  dsimp only
  split
  · exact List.prefix_rfl
  · split
    · unfold headerRead
      dsimp only
      split
      · exact List.prefix_rfl
      · exact List.prefix_append _ _
    · exact List.prefix_append _ _

theorem messagesIn_prefix_feedAll (r : Reader) (bs : List UInt8) :
    r.messagesIn <+: (r.feedAll bs).messagesIn := by
  induction bs generalizing r with
  | nil => exact List.prefix_rfl
  | cons b bs ih => exact (r.messagesIn_prefix_feed b).trans (ih (r.feed b))

theorem inProgress_stream (bs : List UInt8) :
    ∃ pad, (({} : Reader).feedAll bs).inProgress pad = unfinished bs := by
  have hframes := feedAll_frames atFrame_initial (frames bs)
  obtain ⟨-, pad, hpad⟩ := feedAll_unfinished hframes.1 (takeFrame_unfinished bs)
  rw [← feedAll_append, frames_append_unfinished] at hpad
  exact ⟨pad, hpad⟩

end Reader

/-- **The reader loses no bytes.** However a stream is cut, a connection
delivers one message for each frame of the stream, with its header and its
body; the bytes of these and of the frame in progress are the stream; a body
that was announced is complete; one read is outstanding; and more bytes only
add messages. -/
theorem reads_whole_stream (chunks : List (List UInt8)) :
    List.Forall₂ Frame.Delivers (ReadSide.afterChunks chunks).messagesIn
      (frames chunks.flatten) ∧
    (∃ pads pad, pads.length = (ReadSide.afterChunks chunks).messagesIn.length ∧
      (ReadSide.afterChunks chunks).inProgress pad = unfinished chunks.flatten ∧
      (List.zipWith Message.bytesRead (ReadSide.afterChunks chunks).messagesIn pads).flatten ++
        (ReadSide.afterChunks chunks).inProgress pad = chunks.flatten) ∧
    (∀ m ∈ (ReadSide.afterChunks chunks).messagesIn, 0 < m.header.size →
      m.body.length = m.header.size.toNat) ∧
    (ReadSide.afterChunks chunks).asyncReads.length = 1 ∧
    ∀ more, (ReadSide.afterChunks chunks).messagesIn <+:
      ((ReadSide.afterChunks chunks).feedAll more).messagesIn := by
  rw [ReadSide.afterChunks_eq]
  have hdelivered : (ReadSide.ofReader (({} : Reader).feedAll chunks.flatten)).messagesIn =
      received [] (frames chunks.flatten) := Reader.messagesIn_stream chunks.flatten
  have hforall := forall₂_received [] (frames chunks.flatten)
  rw [hdelivered]
  refine ⟨hforall, ?_, ?_, rfl, ?_⟩
  · obtain ⟨pad, hpad⟩ := Reader.inProgress_stream chunks.flatten
    rw [← ReadSide.inProgress_ofReader] at hpad
    refine ⟨(frames chunks.flatten).map Frame.pad, pad, ?_, hpad, ?_⟩
    · rw [List.length_map, hforall.length_eq]
    · rw [zipWith_bytesRead_received, hpad, frames_append_unfinished]
  · intro m hm hpos
    exact (received_size m hm (UInt32.lt_iff_toNat_lt.mp hpos)).symm
  · intro more
    rw [← hdelivered, ReadSide.feedAll_ofReader]
    exact Reader.messagesIn_prefix_feedAll _ more

end AmongUs.Networking
