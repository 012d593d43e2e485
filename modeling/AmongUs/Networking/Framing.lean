import AmongUs.Client.Requests
import AmongUs.Networking.Writer

/-!
From one end of a connection to the other.

The writer decides by the size of the body whether a body follows, the
reader by the size in the header; for sized messages the two agree, and the
stream is a list of frames. What the reader makes of it depends on its one
temporary message. An empty body that comes after a body with bytes is
delivered with these bytes, and only then does the peer get another message
than the one that was sent.
-/

namespace AmongUs.Networking

open Transition

/-- Sized messages are written as the frames they are. -/
theorem encode_eq_frames (msgs : List (Message × UInt16)) (h : ∀ p ∈ msgs, p.1.Sized) :
    ∃ fs : List Frame, fs.flatMap Frame.bytes = encode msgs ∧
      fs.map Frame.message = msgs.map Prod.fst := by
  induction msgs with
  | nil => exact ⟨[], rfl, rfl⟩
  | cons p msgs ih =>
      obtain ⟨fs, hbytes, hmessages⟩ := ih fun q hq => h q (List.mem_cons_of_mem _ hq)
      have hp : p.1.Sized := h p List.mem_cons_self
      refine ⟨.ofMessage p.1 p.2 hp :: fs, ?_, ?_⟩
      · rw [List.flatMap_cons, hbytes, Frame.bytes_ofMessage]
        rfl
      · rw [List.map_cons, hmessages, Frame.message_ofMessage]
        rfl

/-- A body with bytes is not followed by an empty one. -/
def NoEmptyAfter (bodies : List (List UInt8)) : Prop :=
  bodies.Pairwise fun body body' => body ≠ [] → body' ≠ []

instance (bodies : List (List UInt8)) : Decidable (NoEmptyAfter bodies) :=
  inferInstanceAs (Decidable (bodies.Pairwise _))

theorem noEmptyAfter_cons_cons {held body : List UInt8} {bodies : List (List UInt8)} :
    NoEmptyAfter (held :: body :: bodies) ↔
      (body = [] → held = []) ∧ NoEmptyAfter (body :: bodies) := by
  simp only [NoEmptyAfter, List.pairwise_cons, List.mem_cons]
  constructor
  · rintro ⟨hheld, hbodies⟩
    refine ⟨fun hempty => ?_, hbodies⟩
    by_contra hne
    exact hheld body (.inl rfl) hne hempty
  · rintro ⟨hheld, hbody, hbodies⟩
    refine ⟨?_, hbody, hbodies⟩
    rintro body' (rfl | hmem) hne
    · exact fun hempty => hne (hheld hempty)
    · exact hbody body' hmem fun hempty => hne (hheld hempty)

/-- The reader delivers the frames themselves exactly when no empty one
comes after bytes, those held at the start included. -/
theorem received_eq_iff (held : List UInt8) (fs : List Frame) :
    received held fs = fs.map Frame.message ↔
      NoEmptyAfter (held :: fs.map Frame.payload) := by
  induction fs generalizing held with
  | nil => simp [received, NoEmptyAfter]
  | cons f fs ih =>
      rw [received, List.map_cons, List.map_cons, noEmptyAfter_cons_cons, List.cons.injEq,
        Frame.overBody_eq_message_iff]
      refine and_congr_right fun hheld => ?_
      have hbody : (f.overBody held).body = f.payload := by
        by_cases hempty : f.payload = []
        · simp [Frame.overBody, hempty, hheld hempty]
        · simp [Frame.overBody, hempty]
      rw [hbody]
      exact ih f.payload

theorem noEmptyAfter_nil_cons (bodies : List (List UInt8)) :
    NoEmptyAfter ([] :: bodies) ↔ NoEmptyAfter bodies := by
  simp [NoEmptyAfter]

/-- Any list of messages can be sent and written to the end. -/
theorem exists_run_sends (msgs : List Message) :
    ∃ tr, writerMachine.Run {} tr {} ∧ (∀ e ∈ tr, ¬Failing e) ∧ sends tr = msgs := by
  induction msgs with
  | nil => exact ⟨[], .nil, by simp, rfl⟩
  | cons msg msgs ih =>
      obtain ⟨rest, hrest, hok, hsends⟩ := ih
      obtain ⟨tr, htr, htrok, htrsends⟩ : ∃ tr, writerMachine.Run {} tr {} ∧
          (∀ e ∈ tr, ¬Failing e) ∧ sends tr = [msg] := by
        have hsend : writerMachine.Takes
            ⟨{}, .send msg, [], .busy msg [] [.header msg]⟩ := ⟨rfl, rfl⟩
        by_cases hbody : msg.body = []
        · have hheader : writerMachine.Takes ⟨.busy msg [] [.header msg],
              .written (.header msg) 0, headerBytes msg.header 0, {}⟩ := by
            refine ⟨by simp [writerMachine, Writer.busy], ?_⟩
            simp [writerMachine, Writer.busy, Writer.written, Writer.front, hbody,
              Writer.messageWritten, Writer.popFront, bind, Except.bind, pure, Except.pure,
              Write.bytes]
          exact ⟨_, .snoc (.snoc .nil hsend) hheader, by simp [Failing], rfl⟩
        · have hpos := List.length_pos_iff.mpr hbody
          have hheader : writerMachine.Takes ⟨.busy msg [] [.header msg],
              .written (.header msg) 0, headerBytes msg.header 0, .busy msg [] [.body msg]⟩ := by
            refine ⟨by simp [writerMachine, Writer.busy], ?_⟩
            simp [writerMachine, Writer.busy, Writer.written, Writer.front, Writer.writeBody,
              hpos, bind, Except.bind, pure, Except.pure, Write.bytes]
          have hwritten : writerMachine.Takes ⟨.busy msg [] [.body msg],
              .written (.body msg) 0, msg.body, {}⟩ := by
            refine ⟨by simp [writerMachine, Writer.busy], ?_⟩
            simp [writerMachine, Writer.busy, Writer.written, Writer.messageWritten,
              Writer.popFront, bind, Except.bind, pure, Except.pure, Write.bytes]
          exact ⟨_, .snoc (.snoc (.snoc .nil hsend) hheader) hwritten, by simp [Failing], rfl⟩
      refine ⟨tr ++ rest, htr.append hrest, ?_, ?_⟩
      · intro e he
        exact (List.mem_append.mp he).elim (htrok e) (hok e)
      · rw [sends, List.filterMap_append, ← sends, ← sends, htrsends, hsends]
        rfl

/-- **Framing.** Send sized messages, let every write succeed, and give the
peer all the bytes: it delivers the messages that were sent, in order and
each as it was, if and only if no empty body was sent after a body with
bytes. -/
theorem framing_delivers_iff {tr : List WriterEvent} {w : Writer}
    (hrun : writerMachine.Run {} tr w) (hok : ∀ e ∈ tr, ¬Failing e)
    (hdone : w.outstanding = []) (hsized : ∀ msg ∈ sends tr, msg.Sized) :
    (({} : Reader).feedAll (wireBytes tr)).messagesIn = sends tr ↔
      NoEmptyAfter ((sends tr).map Message.body) := by
  obtain ⟨done, hbytes, hsends⟩ := run_wireBytes hrun hok hdone
  have hsized' : ∀ p ∈ done, p.1.Sized := by
    intro p hp
    exact hsized p.1 (hsends ▸ List.mem_map_of_mem hp)
  obtain ⟨fs, hwire, hmessages⟩ := encode_eq_frames done hsized'
  have hbodies : (sends tr).map Message.body = fs.map Frame.payload := by
    rw [hsends, ← hmessages, List.map_map]
    rfl
  rw [hbodies, hbytes, ← hwire, (Reader.feedAll_frames Reader.atFrame_initial fs).2, hsends,
    ← hmessages, ← noEmptyAfter_nil_cons]
  exact received_eq_iff [] fs

/-- The empty bodies come first. -/
theorem framing_delivers_emptyFirst :
    ∃ tr, writerMachine.Run {} tr {} ∧
      (({} : Reader).feedAll (wireBytes tr)).messagesIn =
        [Client.messageAll, Client.messageAll, Client.pingServer 0, Client.pingServer 5] := by
  obtain ⟨tr, hrun, hok, hsends⟩ := exists_run_sends
    [Client.messageAll, Client.messageAll, Client.pingServer 0, Client.pingServer 5]
  have hsized : ∀ msg ∈ sends tr, msg.Sized := by
    rw [hsends]
    decide
  have hempty : NoEmptyAfter ((sends tr).map Message.body) := by
    rw [hsends]
    decide
  have hdelivers := (framing_delivers_iff hrun hok rfl hsized).mpr hempty
  exact ⟨tr, hrun, hdelivers.trans hsends⟩

/-- An empty message after a ping arrives with the body of the ping. -/
theorem emptyBody_keeps_ping :
    ∃ tr, writerMachine.Run {} tr {} ∧ (∀ e ∈ tr, ¬Failing e) ∧
      sends tr = [Client.pingServer 0, Client.messageAll] ∧ (∀ msg ∈ sends tr, msg.Sized) ∧
      (({} : Reader).feedAll (wireBytes tr)).messagesIn =
        [Client.pingServer 0, { Client.messageAll with body := timePointBytes 0 }] ∧
      (({} : Reader).feedAll (wireBytes tr)).messagesIn ≠ sends tr := by
  refine ⟨_, Machine.run_of_exec (show writerMachine.exec {}
    [.send (Client.pingServer 0), .written (.header (Client.pingServer 0)) 0,
      .written (.body (Client.pingServer 0)) 0, .send Client.messageAll,
      .written (.header Client.messageAll) 0] = some (_, {}) from rfl),
    ?_, ?_, ?_, ?_, ?_⟩
  · simp [Failing]
  · rfl
  · decide
  · decide +kernel
  · decide +kernel

end AmongUs.Networking
