import AmongUs.Networking.AsyncReads
import AmongUs.Networking.Framing
import AmongUs.Networking.Pump

/-!
One direction of a connection, with the bytes that are on their way.

A message goes through the handler that `Send` posts, the queue of the
writer, the wire and the temporary message of the reader at the other end.
The bytes are read one by one, while more are written. At any time the
messages that came out are, in order, the first of those that were sent
(`Carries.delivered`): the headers are the same and so is every body that its
header announces (`ArrivesAs`).
-/

namespace AmongUs.Networking

open Transition

/-- The message may come out as the other one. A body that its header does
not announce is not read. -/
def Message.ArrivesAs (msg m : Message) : Prop :=
  m.header = msg.header ∧ (0 < msg.header.size → m.body = msg.body)

theorem Message.ArrivesAs.rfl {msg : Message} : msg.ArrivesAs msg := ⟨Eq.refl _, fun _ => Eq.refl _⟩

/-- A message with a body comes out as it is. -/
theorem Message.ArrivesAs.eq {msg m : Message} (h : msg.ArrivesAs m) (hsized : msg.Sized)
    (hbody : msg.body ≠ []) : m = msg := by
  have hpos : 0 < msg.header.size := by
    rw [UInt32.lt_iff_toNat_lt, show msg.header.size.toNat = msg.body.length from hsized]
    exact List.length_pos_iff.mpr hbody
  obtain ⟨hheader, hsame⟩ := h
  obtain ⟨header, body⟩ := m
  obtain rfl : header = msg.header := hheader
  obtain rfl : body = msg.body := hsame hpos
  exact Eq.refl _

theorem Frame.Delivers.arrivesAs {m : Message} {f : Frame} (h : Frame.Delivers m f) :
    f.message.ArrivesAs m :=
  ⟨h.1, fun hpos => h.2 (h.1 ▸ hpos)⟩

/-- A frame begins a stream of frames only if it is the first of them. -/
theorem frames_prefix {fs gs : List Frame} {rest : List UInt8}
    (h : fs.flatMap Frame.bytes ++ rest <+: gs.flatMap Frame.bytes) : fs <+: gs := by
  induction fs generalizing gs with
  | nil => exact List.nil_prefix
  | cons f fs ih =>
      obtain ⟨tail, htail⟩ := h
      cases gs with
      | nil =>
          have hlen := congrArg List.length htail
          have hf := f.headerSize_le_length
          rw [headerSize] at hf
          simp only [List.flatMap_cons, List.flatMap_nil, List.length_append,
            List.length_nil] at hlen
          omega
      | cons g gs =>
          have htake : takeFrame (g.bytes ++ gs.flatMap Frame.bytes) =
              some (f, fs.flatMap Frame.bytes ++ rest ++ tail) := by
            rw [← List.flatMap_cons, ← htail, List.flatMap_cons, List.append_assoc,
              List.append_assoc, takeFrame_bytes_append, List.append_assoc]
          rw [takeFrame_bytes_append] at htake
          obtain ⟨rfl, hrest⟩ := Prod.mk.inj (Option.some.inj htake)
          exact (List.prefix_cons_inj g).mpr (ih ⟨tail, hrest.symm⟩)

/-- The handlers of a writer fail on an empty queue only. -/
theorem Writer.step_error {w : Writer} {a : WriterAction} {fault : Fault}
    (h : writerMachine.step w a = .error fault) : fault = .emptyQueue := by
  cases a with
  | send msg =>
      obtain ⟨w', hw'⟩ := w.send_ok msg
      simp [writerMachine, hw', bind, Except.bind, pure, Except.pure] at h
  | failed write pad n => cases h
  | written write pad =>
      have hwritten := bind_eq_error (fun _ => ⟨_, rfl⟩) h
      generalize hw : { w with outstanding := w.outstanding.erase write } = w' at hwritten
      cases hqueue : w'.messagesOut with
      | nil =>
          cases write with
          | header msg | body msg =>
              simpa [written, front, messageWritten, popFront, hqueue, bind, Except.bind,
                eq_comm] using hwritten
      | cons msg msgs =>
          rcases written_cons hqueue write with hok | hok
          · rw [hok] at hwritten
            cases hwritten
          · rw [hok, messageWritten_cons hqueue] at hwritten
            cases hwritten

/-- `posted` are the messages whose `Send` handler has not run yet. -/
structure Link where
  posted : List Message := []
  writer : Writer := {}
  inFlight : List UInt8 := []
  reader : Reader := {}

namespace Link

/-- `Send`, for each of the messages. -/
def post (l : Link) (msgs : List Message) : Link := { l with posted := l.posted ++ msgs }

/-- A handler of the writer runs, and what it completes goes on the wire. -/
def write (l : Link) (a : WriterAction) : Except Fault Link := do
  let (writer, bytes) ← writerMachine.step l.writer a
  return { l with writer := writer, inFlight := l.inFlight ++ bytes }

/-- The oldest of the handlers that `Send` posted runs. -/
def runSend (l : Link) : Except Fault Link :=
  match l.posted with
  | msg :: posted => { l with posted := posted }.write (.send msg)
  | [] => .ok l

/-- A handler of the writer runs, one that `Send` posted or one of a write. -/
inductive Moves (l l' : Link) : Prop
  | runSend (hposted : l.posted ≠ []) (h : l.runSend = .ok l') : Moves l l'
  | write {a : WriterAction} (henabled : writerMachine.enabled l.writer a = true)
      (ha : ∀ msg, a ≠ .send msg) (h : l.write a = .ok l') : Moves l l'

/-- One byte is read at the other end. -/
def read (l : Link) : Link :=
  match l.inFlight with
  | b :: inFlight => { l with inFlight := inFlight, reader := l.reader.feed b }
  | [] => l

/-- What has come out at the other end. -/
def delivered (l : Link) : List Message := l.reader.messagesIn

/-- The messages were sent on the link, and what of them is written has been
read or is on its way. -/
def Carries (l : Link) (msgs : List Message) : Prop :=
  ∃ tr bytesRead, writerMachine.Run {} tr l.writer ∧ sends tr ++ l.posted = msgs ∧
    wireBytes tr = bytesRead ++ l.inFlight ∧ l.reader = ({} : Reader).feedAll bytesRead

theorem carries_empty : Carries {} [] := ⟨[], [], .nil, rfl, rfl, rfl⟩

variable {l l' : Link} {msgs : List Message}

theorem Carries.post (h : l.Carries msgs) (more : List Message) :
    (l.post more).Carries (msgs ++ more) := by
  obtain ⟨tr, bytesRead, hrun, hsends, hwire, hreader⟩ := h
  refine ⟨tr, bytesRead, hrun, ?_, hwire, hreader⟩
  rw [← hsends, List.append_assoc]
  rfl

/-- A handler of the writer that no `Send` posted. -/
theorem Carries.write (h : l.Carries msgs) {a : WriterAction}
    (henabled : writerMachine.enabled l.writer a = true) (ha : ∀ msg, a ≠ .send msg)
    (hwrite : l.write a = .ok l') : l'.Carries msgs ∧ l'.reader = l.reader := by
  obtain ⟨tr, bytesRead, hrun, hsends, hwire, hreader⟩ := h
  obtain ⟨⟨writer, bytes⟩, hstep, hret⟩ := bind_eq_ok.mp hwrite
  obtain rfl := Except.ok.inj hret
  have htakes : writerMachine.Takes ⟨l.writer, a, bytes, writer⟩ := ⟨henabled, hstep⟩
  refine ⟨⟨tr ++ [⟨l.writer, a, bytes, writer⟩], bytesRead, hrun.snoc htakes, ?_, ?_, hreader⟩,
    rfl⟩
  · have hnone : sendOf ⟨l.writer, a, bytes, writer⟩ = none := by
      cases a with
      | send msg => exact absurd rfl (ha msg)
      | written write pad | failed write pad n => rfl
    rw [sends_snoc, hnone, Option.toList_none, List.append_nil]
    exact hsends
  · rw [wireBytes_snoc, hwire, List.append_assoc]

theorem Carries.runSend (h : l.Carries msgs) (hsend : l.runSend = .ok l') :
    l'.Carries msgs ∧ l'.reader = l.reader := by
  obtain ⟨tr, bytesRead, hrun, hsends, hwire, hreader⟩ := h
  rw [Link.runSend] at hsend
  split at hsend
  · rename_i msg posted hposted
    obtain ⟨⟨writer, bytes⟩, hstep, hret⟩ := bind_eq_ok.mp hsend
    obtain rfl := Except.ok.inj hret
    have htakes : writerMachine.Takes ⟨l.writer, .send msg, bytes, writer⟩ := ⟨rfl, hstep⟩
    refine ⟨⟨tr ++ [⟨l.writer, .send msg, bytes, writer⟩], bytesRead, hrun.snoc htakes, ?_, ?_,
      hreader⟩, rfl⟩
    · rw [sends_snoc, ← hsends, hposted, List.append_assoc]
      rfl
    · rw [wireBytes_snoc, hwire, List.append_assoc]
  · obtain rfl := Except.ok.inj hsend
    exact ⟨⟨tr, bytesRead, hrun, hsends, hwire, hreader⟩, rfl⟩

theorem Carries.read (h : l.Carries msgs) : l.read.Carries msgs := by
  obtain ⟨tr, bytesRead, hrun, hsends, hwire, hreader⟩ := h
  rw [Link.read]
  split
  · rename_i b inFlight hflight
    refine ⟨tr, bytesRead ++ [b], hrun, hsends, ?_, ?_⟩
    · rw [hwire, hflight, List.append_assoc]
      rfl
    · rw [Reader.feedAll_append, ← hreader]
      rfl
  · exact ⟨tr, bytesRead, hrun, hsends, hwire, hreader⟩

/-- **The first messages, in order.** What has come out is a beginning of
what was sent, whatever is still queued, written or on its way. -/
theorem Carries.delivered (h : l.Carries msgs) (hsized : ∀ m ∈ msgs, m.Sized) :
    l.delivered.length ≤ msgs.length ∧
      List.Forall₂ Message.ArrivesAs (msgs.take l.delivered.length) l.delivered := by
  obtain ⟨tr, bytesRead, hrun, rfl, hwire, hreader⟩ := h
  obtain ⟨sent, hsent, hprefix⟩ := wireBytes_prefix hrun
  obtain ⟨fs, hbytes, hmessages⟩ := encode_eq_frames sent fun p hp =>
    hsized p.1 (List.mem_append_left _ (hsent ▸ List.mem_map_of_mem hp))
  have hcut : (frames bytesRead).flatMap Frame.bytes ++ unfinished bytesRead <+:
      fs.flatMap Frame.bytes := by
    rw [frames_append_unfinished, hbytes]
    exact (List.prefix_append _ _).trans (hwire ▸ hprefix)
  have hread : frames bytesRead <+: fs := frames_prefix hcut
  have hout : l.delivered = received [] (frames bytesRead) := by
    rw [Link.delivered, hreader, Reader.messagesIn_stream]
  have harrived : List.Forall₂ Message.ArrivesAs ((frames bytesRead).map Frame.message)
      l.delivered := by
    rw [hout, List.forall₂_map_left_iff]
    exact (forall₂_received [] (frames bytesRead)).flip.imp fun f m hm =>
      Frame.Delivers.arrivesAs hm
  have hfirst : (frames bytesRead).map Frame.message <+: sends tr ++ l.posted := by
    rw [← hsent, ← hmessages]
    exact (hread.map Frame.message).trans (List.prefix_append _ _)
  have hlen := harrived.length_eq
  refine ⟨hlen ▸ hfirst.length_le, ?_⟩
  rwa [← hlen, ← List.prefix_iff_eq_take.mp hfirst]

/-- A byte completes at most one message. -/
theorem delivered_read (l : Link) :
    l.read.delivered = l.delivered ∨ ∃ m, l.read.delivered = l.delivered ++ [m] := by
  rw [read]
  split
  · rename_i b inFlight hflight
    simp only [delivered, Reader.feed]
    split
    · exact Or.inl rfl
    · split
      · unfold Reader.headerRead
        dsimp only
        split
        · exact Or.inl rfl
        · exact Or.inr ⟨_, rfl⟩
      · exact Or.inr ⟨_, rfl⟩
  · exact Or.inl rfl

theorem runSend_ok (l : Link) : ∃ l', l.runSend = .ok l' := by
  rw [runSend]
  split
  · rename_i msg posted hposted
    obtain ⟨w, hw⟩ := l.writer.send_ok msg
    simp [write, writerMachine, hw, bind, Except.bind, pure, Except.pure]
  · exact ⟨_, rfl⟩

/-- The handlers of the writer find the message they were started for. -/
theorem Carries.write_ok (h : l.Carries msgs) {a : WriterAction}
    (henabled : writerMachine.enabled l.writer a = true) : ∃ l', l.write a = .ok l' := by
  obtain ⟨tr, bytesRead, hrun, _⟩ := h
  have hnever := step_ne_emptyQueue hrun henabled
  cases hstep : writerMachine.step l.writer a with
  | error fault =>
      rw [Writer.step_error hstep] at hstep
      exact absurd hstep hnever
  | ok r =>
      rw [Link.write, hstep]
      exact ⟨_, rfl⟩

/-! ### What is to come out -/

/-- These messages were sent and have not come out yet. -/
def Holds (l : Link) (msgs : List Message) : Prop :=
  ∃ sent, l.Carries sent ∧ (∀ m ∈ sent, m.Sized) ∧ msgs = sent.drop l.delivered.length

theorem holds_empty : Holds {} [] := ⟨[], carries_empty, fun _ hm => (nomatch hm), rfl⟩

theorem Holds.post (h : l.Holds msgs) {more : List Message} (hmore : ∀ m ∈ more, m.Sized) :
    (l.post more).Holds (msgs ++ more) := by
  obtain ⟨sent, hcarries, hsized, rfl⟩ := h
  refine ⟨sent ++ more, hcarries.post more, fun m hm => ?_, ?_⟩
  · exact (List.mem_append.mp hm).elim (hsized m) (hmore m)
  · exact (List.drop_append_of_le_length (hcarries.delivered hsized).1).symm

theorem Holds.write (h : l.Holds msgs) {a : WriterAction}
    (henabled : writerMachine.enabled l.writer a = true) (ha : ∀ msg, a ≠ .send msg)
    (hwrite : l.write a = .ok l') : l'.Holds msgs := by
  obtain ⟨sent, hcarries, hsized, rfl⟩ := h
  obtain ⟨hcarries', hreader⟩ := hcarries.write henabled ha hwrite
  exact ⟨sent, hcarries', hsized, by rw [Link.delivered, Link.delivered, hreader]⟩

theorem Holds.runSend (h : l.Holds msgs) (hsend : l.runSend = .ok l') : l'.Holds msgs := by
  obtain ⟨sent, hcarries, hsized, rfl⟩ := h
  obtain ⟨hcarries', hreader⟩ := hcarries.runSend hsend
  exact ⟨sent, hcarries', hsized, by rw [Link.delivered, Link.delivered, hreader]⟩

theorem Holds.moves (h : l.Holds msgs) (hmoves : l.Moves l') : l'.Holds msgs := by
  cases hmoves with
  | runSend hposted hsend => exact h.runSend hsend
  | write henabled ha hwrite => exact h.write henabled ha hwrite

/-- A byte that is read leaves what is to come out as it is, or the first
message comes out. -/
theorem Holds.read (h : l.Holds msgs) :
    (l.read.delivered = l.delivered ∧ l.read.Holds msgs) ∨
      ∃ msg m rest, msgs = msg :: rest ∧ msg.ArrivesAs m ∧
        l.read.delivered = l.delivered ++ [m] ∧ l.read.Holds rest := by
  obtain ⟨sent, hcarries, hsized, rfl⟩ := h
  rcases l.delivered_read with hsame | ⟨m, hnew⟩
  · exact Or.inl ⟨hsame, sent, hcarries.read, hsized, by rw [hsame]⟩
  · obtain ⟨hle, harrived⟩ := hcarries.read.delivered hsized
    rw [hnew, List.length_append, List.length_singleton] at hle harrived
    have hlt : l.delivered.length < sent.length := hle
    rw [List.take_succ_eq_append_getElem hlt] at harrived
    have hlast : sent[l.delivered.length].ArrivesAs m := by
      have hsuffix := (List.forall₂_reverse_iff.mpr harrived)
      rw [List.reverse_append, List.reverse_append] at hsuffix
      exact (List.forall₂_cons.mp hsuffix).1
    refine Or.inr ⟨sent[l.delivered.length], m, sent.drop (l.delivered.length + 1),
      List.drop_eq_getElem_cons hlt, hlast, hnew, sent, hcarries.read, hsized, ?_⟩
    rw [hnew, List.length_append, List.length_singleton]

/-- Nothing is queued, and nothing is on the wire. -/
def Idle (l : Link) : Prop := l.posted = [] ∧ l.writer.messagesOut = [] ∧ l.inFlight = []

instance (l : Link) : Decidable l.Idle := inferInstanceAs (Decidable (_ ∧ _))

theorem Holds.eq_nil (h : l.Holds msgs) (hidle : l.Idle) : msgs = [] := by
  obtain ⟨_, ⟨tr, bytesRead, hrun, rfl, hwire, hreader⟩, hsized, rfl⟩ := h
  obtain ⟨hposted, hqueue, hflight⟩ := hidle
  rw [hposted, List.append_nil] at hsized ⊢
  rw [hflight, List.append_nil] at hwire
  obtain ⟨done, hprogress, hpops⟩ := run_pops hrun
  have hsends := pops_append hrun
  rw [hqueue, List.append_nil, ← hpops] at hsends
  have hencode : wireBytes tr = encode done := by
    generalize wireBytes tr = bs at hprogress
    generalize l.writer = w at hprogress hqueue
    cases hprogress with
    | idle => rfl
    | header msg msgs | body msg msgs pad hbody | failed msg msgs pad n =>
        simp [Writer.busy] at hqueue
  obtain ⟨fs, hbytes, hmessages⟩ := encode_eq_frames done fun p hp =>
    hsized p.1 (hsends ▸ List.mem_map_of_mem hp)
  have hout : l.delivered = received [] fs := by
    rw [delivered, hreader, ← hwire, hencode, ← hbytes,
      (Reader.feedAll_frames Reader.atFrame_initial fs).2]
    rfl
  have hlen : l.delivered.length = (sends tr).length := by
    rw [hout, (forall₂_received [] fs).length_eq, ← hsends, ← hmessages, List.length_map]
  rw [hlen, List.drop_length]

end Link

end AmongUs.Networking
