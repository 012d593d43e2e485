import AmongUs.Networking.Reader
import AmongUs.Transition.Machine

/-!
The writing side of a connection.

`Send` posts a handler that queues the message and starts a write when the
queue was empty; the two write handlers start the next write, or none. The
handlers run one at a time on the thread of the context, in whatever order
the environment chooses, and a write may fail after any number of its bytes.
`Progress` is the invariant of the pump: which messages are done, and how
much of the message at the front is on the wire. An `async_write` keeps the
message its buffer points into, and the padding of a header is whatever the
memory held.
-/

namespace AmongUs.Networking

open Transition

inductive Write
  | header (msg : Message)
  | body (msg : Message)
  deriving DecidableEq

def Write.bytes (pad : UInt16) : Write → List UInt8
  | .header msg => headerBytes msg.header pad
  | .body msg => msg.body

/-- `outstanding` are the writes that were started and have not completed. -/
structure Writer where
  messagesOut : List Message := []
  outstanding : List Write := []
  isOpen : Bool := true

namespace Writer

def front (w : Writer) : Except Fault Message :=
  match w.messagesOut with
  | [] => .error .emptyQueue
  | msg :: _ => .ok msg

def popFront (w : Writer) : Except Fault Writer :=
  match w.messagesOut with
  | [] => .error .emptyQueue
  | _ :: msgs => .ok { w with messagesOut := msgs }

def writeHeader (w : Writer) : Except Fault Writer := do
  let msg ← w.front
  return { w with outstanding := .header msg :: w.outstanding }

def writeBody (w : Writer) : Except Fault Writer := do
  let msg ← w.front
  return { w with outstanding := .body msg :: w.outstanding }

/-- Both handlers end so once a message is written. -/
def messageWritten (w : Writer) : Except Fault Writer := do
  let w ← w.popFront
  if w.messagesOut.isEmpty then return w else w.writeHeader

/-- The handlers of `WriteHeader` and `WriteBody`, without an error. -/
def written (w : Writer) : Write → Except Fault Writer
  | .header _ => do
      let msg ← w.front
      if 0 < msg.body.length then w.writeBody else w.messageWritten
  | .body _ => w.messageWritten

/-- The handler that `Send` posts. -/
def send (w : Writer) (msg : Message) : Except Fault Writer :=
  -- A message stays in the queue until it is written.
  let bWritingMessage := !w.messagesOut.isEmpty
  let w := { w with messagesOut := w.messagesOut ++ [msg] }
  if bWritingMessage then .ok w else w.writeHeader

end Writer

inductive WriterAction
  | send (msg : Message)
  | written (write : Write) (pad : UInt16)
  /-- The write fails after its first `n` bytes, and the socket is closed. -/
  | failed (write : Write) (pad : UInt16) (n : ℕ)

/-- A step shows the bytes it puts on the wire. -/
def writerMachine : Machine Writer WriterAction (List UInt8) Fault where
  enabled w
    | .send _ => true
    | .written write _ => w.isOpen && decide (write ∈ w.outstanding)
    | .failed write _ _ => decide (write ∈ w.outstanding)
  step w
    | .send msg => do return (← w.send msg, [])
    | .written write pad => do
        let w := { w with outstanding := w.outstanding.erase write }
        return (← w.written write, write.bytes pad)
    | .failed write pad n =>
        .ok ({ w with outstanding := w.outstanding.erase write, isOpen := false },
          (write.bytes pad).take n)

abbrev WriterEvent := Event Writer WriterAction (List UInt8)

def sendOf (e : WriterEvent) : Option Message :=
  match e.act with
  | .send msg => some msg
  | _ => none

/-- The messages of the `Send` handlers, in the order they ran. -/
def sends (tr : List WriterEvent) : List Message := tr.filterMap sendOf

/-- The bytes on the wire. -/
def wireBytes (tr : List WriterEvent) : List UInt8 := tr.flatMap Event.out

def Failing (e : WriterEvent) : Prop := ∃ write pad n, e.act = .failed write pad n

/-- Messages as they are written, each with the padding of its header. -/
def encode (msgs : List (Message × UInt16)) : List UInt8 :=
  msgs.flatMap fun p => headerBytes p.1.header p.2 ++ p.1.body

@[simp] theorem sends_snoc (tr : List WriterEvent) (e : WriterEvent) :
    sends (tr ++ [e]) = sends tr ++ (sendOf e).toList := by
  cases h : sendOf e <;> simp [sends, h]

@[simp] theorem wireBytes_snoc (tr : List WriterEvent) (e : WriterEvent) :
    wireBytes (tr ++ [e]) = wireBytes tr ++ e.out := by
  simp [wireBytes]

@[simp] theorem encode_snoc (msgs : List (Message × UInt16)) (p : Message × UInt16) :
    encode (msgs ++ [p]) = encode msgs ++ (headerBytes p.1.header p.2 ++ p.1.body) := by
  simp [encode]

namespace Writer

variable {msg : Message} {msgs : List Message}

/-- The pump with `msg` at the front of its queue. -/
def busy (msg : Message) (msgs : List Message) (outstanding : List Write) : Writer :=
  { messagesOut := msg :: msgs, outstanding := outstanding, isOpen := true }

theorem send_busy (outstanding : List Write) (next : Message) :
    (busy msg msgs outstanding).send next = .ok (busy msg (msgs ++ [next]) outstanding) := rfl

theorem written_header :
    (busy msg msgs []).written (.header msg) =
      if 0 < msg.body.length then .ok (busy msg msgs [.body msg])
      else (busy msg msgs []).messageWritten := rfl

end Writer

/-- How far the pump is: `done` are the messages that are written, and the
last argument is what is on the wire. -/
inductive Progress (done : List (Message × UInt16)) : Writer → List UInt8 → Prop
  | idle : Progress done {} (encode done)
  | header (msg : Message) (msgs : List Message) :
      Progress done (.busy msg msgs [.header msg]) (encode done)
  | body (msg : Message) (msgs : List Message) (pad : UInt16) (h : msg.body ≠ []) :
      Progress done (.busy msg msgs [.body msg]) (encode done ++ headerBytes msg.header pad)
  | failed (msg : Message) (msgs : List Message) (pad : UInt16) (n : ℕ) :
      Progress done { Writer.busy msg msgs [] with isOpen := false }
        (encode done ++ (headerBytes msg.header pad ++ msg.body).take n)

/-- After a message is written the pump is idle or writes the next header. -/
theorem progress_messageWritten {done : List (Message × UInt16)} {msg : Message}
    {msgs : List Message} {w : Writer} (h : (Writer.busy msg msgs []).messageWritten = .ok w) :
    Progress done w (encode done) ∧ w.messagesOut = msgs ∧ w.isOpen = true := by
  cases msgs with
  | nil =>
      obtain rfl : {} = w := Except.ok.inj h
      exact ⟨.idle, rfl, rfl⟩
  | cons next msgs =>
      obtain rfl : Writer.busy next msgs [.header next] = w := Except.ok.inj h
      exact ⟨.header next msgs, rfl, rfl⟩

variable {done : List (Message × UInt16)} {w w' : Writer} {bs : List UInt8}

theorem progress_send {msg : Message} (h : Progress done w bs) (hsend : w.send msg = .ok w') :
    Progress done w' bs ∧ w'.messagesOut = w.messagesOut ++ [msg] ∧ w'.isOpen = w.isOpen := by
  cases h with
  | idle =>
      obtain rfl : Writer.busy msg [] [.header msg] = w' := Except.ok.inj hsend
      exact ⟨.header msg [], rfl, rfl⟩
  | header front msgs =>
      obtain rfl := Except.ok.inj ((Writer.send_busy _ _).symm.trans hsend)
      exact ⟨.header front (msgs ++ [msg]), rfl, rfl⟩
  | body front msgs pad hbody =>
      obtain rfl := Except.ok.inj ((Writer.send_busy _ _).symm.trans hsend)
      exact ⟨.body front (msgs ++ [msg]) pad hbody, rfl, rfl⟩
  | failed front msgs pad n =>
      obtain rfl : { Writer.busy front (msgs ++ [msg]) [] with isOpen := false } = w' :=
        Except.ok.inj hsend
      exact ⟨.failed front (msgs ++ [msg]) pad n, rfl, rfl⟩

/-- A write that completes ends its message, or goes on to its body. -/
theorem progress_written {write : Write} (pad : UInt16) (h : Progress done w bs)
    (hmem : write ∈ w.outstanding)
    (hwritten : { w with outstanding := w.outstanding.erase write }.written write = .ok w') :
    ∃ done', Progress done' w' (bs ++ write.bytes pad) ∧
      done'.map Prod.fst ++ w'.messagesOut = done.map Prod.fst ++ w.messagesOut ∧
      w'.isOpen = true := by
  cases h with
  | idle => simp at hmem
  | header front msgs =>
      obtain rfl : write = .header front := by simpa [Writer.busy] using hmem
      rw [show { Writer.busy front msgs [.header front] with
        outstanding := (Writer.busy front msgs [.header front]).outstanding.erase
          (.header front) } = Writer.busy front msgs [] by simp [Writer.busy],
        Writer.written_header] at hwritten
      by_cases hbody : front.body = []
      · rw [if_neg (by simp [hbody])] at hwritten
        have hnext : Progress (done ++ [(front, pad)]) w' _ ∧ _ :=
          progress_messageWritten hwritten
        refine ⟨done ++ [(front, pad)], ?_, ?_, hnext.2.2⟩
        · simpa [Write.bytes, hbody] using hnext.1
        · simp [hnext.2.1, Writer.busy]
      · rw [if_pos (List.length_pos_iff.mpr hbody)] at hwritten
        obtain rfl := Except.ok.inj hwritten
        exact ⟨done, .body front msgs pad hbody, rfl, rfl⟩
  | body front msgs pad' hbody =>
      obtain rfl : write = .body front := by simpa [Writer.busy] using hmem
      have hlast : (Writer.busy front msgs []).messageWritten = .ok w' := by
        simpa [Writer.busy, Writer.written] using hwritten
      have hnext : Progress (done ++ [(front, pad')]) w' _ ∧ _ :=
        progress_messageWritten hlast
      refine ⟨done ++ [(front, pad')], ?_, ?_, hnext.2.2⟩
      · simpa [Write.bytes] using hnext.1
      · simp [hnext.2.1, Writer.busy]
  | failed front msgs pad' n => simp [Writer.busy] at hmem

/-- A write that fails stops the pump in the middle of a message. -/
theorem progress_failed {write : Write} (pad : UInt16) (n : ℕ) (h : Progress done w bs)
    (hmem : write ∈ w.outstanding) :
    Progress done { w with outstanding := w.outstanding.erase write, isOpen := false }
      (bs ++ (write.bytes pad).take n) := by
  cases h with
  | idle => simp at hmem
  | header front msgs =>
      obtain rfl : write = .header front := by simpa [Writer.busy] using hmem
      -- A header write puts no more than the header on the wire.
      have hcut : (headerBytes front.header pad).take n =
          (headerBytes front.header pad ++ front.body).take (min n headerSize) := by
        have hwhole : (headerBytes front.header pad).take headerSize =
            headerBytes front.header pad := List.take_of_length_le (by simp)
        rw [List.take_append_of_le_length (by simp), ← List.take_take, hwhole]
      simpa [Writer.busy, Write.bytes, hcut] using
        Progress.failed front msgs pad (min n headerSize)
  | body front msgs pad' hbody =>
      obtain rfl : write = .body front := by simpa [Writer.busy] using hmem
      have hcut : headerBytes front.header pad' ++ front.body.take n =
          (headerBytes front.header pad' ++ front.body).take (headerSize + n) := by
        rw [← length_headerBytes front.header pad', List.take_length_add_append]
      simpa [Writer.busy, Write.bytes, hcut] using
        Progress.failed front msgs pad' (headerSize + n)
  | failed front msgs pad' n' => simp [Writer.busy] at hmem

/-- **The pump keeps its progress.** What is done and what is queued is
what was sent, in order, and the wire carries what is done and a part of
the message at the front. The socket is closed by a failed write only. -/
theorem run_progress {tr : List WriterEvent} (h : writerMachine.Run {} tr w) :
    ∃ done, Progress done w (wireBytes tr) ∧ sends tr = done.map Prod.fst ++ w.messagesOut ∧
      (w.isOpen = false → ∃ e ∈ tr, Failing e) := by
  induction h with
  | nil => exact ⟨[], .idle, rfl, by simp⟩
  | @snoc tr e _ htakes ih =>
      obtain ⟨done, hprogress, hsends, hopen⟩ := ih
      obtain ⟨src, act, out, dst⟩ := e
      obtain ⟨henabled, hstep⟩ := htakes
      rw [sends_snoc, wireBytes_snoc, hsends]
      cases act with
      | send msg =>
          obtain ⟨w, hw, hret⟩ := bind_eq_ok.mp hstep
          obtain ⟨rfl, rfl⟩ : w = dst ∧ [] = out := Prod.mk.inj (Except.ok.inj hret)
          obtain ⟨hnext, hqueue, hsame⟩ := progress_send hprogress hw
          refine ⟨done, by simpa using hnext, by simp [sendOf, hqueue], fun hclosed => ?_⟩
          obtain ⟨e, he, hfailing⟩ := hopen (hsame.symm.trans hclosed)
          exact ⟨e, List.mem_append_left _ he, hfailing⟩
      | written write pad =>
          obtain ⟨w, hw, hret⟩ := bind_eq_ok.mp hstep
          obtain ⟨rfl, rfl⟩ : w = dst ∧ write.bytes pad = out :=
            Prod.mk.inj (Except.ok.inj hret)
          have hmem : write ∈ src.outstanding := by
            simp only [writerMachine, Bool.and_eq_true, decide_eq_true_eq] at henabled
            exact henabled.2
          obtain ⟨done', hnext, hqueue, hstill⟩ := progress_written pad hprogress hmem hw
          exact ⟨done', hnext, by simp [sendOf, hqueue], by simp [hstill]⟩
      | failed write pad n =>
          obtain ⟨rfl, rfl⟩ : { src with
                outstanding := src.outstanding.erase write, isOpen := false } = dst ∧
              (write.bytes pad).take n = out := Prod.mk.inj (Except.ok.inj hstep)
          have hmem : write ∈ src.outstanding := by simpa [writerMachine] using henabled
          exact ⟨done, progress_failed pad n hprogress hmem, by simp [sendOf], fun _ =>
            ⟨_, List.mem_append_right _ (List.mem_singleton_self _), write, pad, n, rfl⟩⟩

/-- A run without failures that has nothing left to write has written
every message it was given, in order. -/
theorem run_wireBytes {tr : List WriterEvent} (h : writerMachine.Run {} tr w)
    (hok : ∀ e ∈ tr, ¬Failing e) (hdone : w.outstanding = []) :
    ∃ done, wireBytes tr = encode done ∧ sends tr = done.map Prod.fst := by
  obtain ⟨done, hprogress, hsends, hopen⟩ := run_progress h
  refine ⟨done, ?_⟩
  generalize wireBytes tr = bs at hprogress
  cases hprogress with
  | idle => exact ⟨rfl, by simpa using hsends⟩
  | header msg msgs => simp [Writer.busy] at hdone
  | body msg msgs pad hbody => simp [Writer.busy] at hdone
  | failed msg msgs pad n =>
      obtain ⟨e, he, hfailing⟩ := hopen rfl
      exact absurd hfailing (hok e he)

end AmongUs.Networking
