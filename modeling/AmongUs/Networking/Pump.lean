import AmongUs.Networking.Writer

/-!
The write pump over a whole run.

`Progress` says what one state of the pump looks like. Here it is read off
for runs: how many writes are outstanding, when there is one, what is on the
wire, and when a message leaves the queue. The handlers call `front` and
`pop_front` on a queue that holds a message, since a write that completes
belongs to the message at the front. After a failed write that message stays
there for good, so `Send` finds the queue in use and starts nothing.
-/

namespace AmongUs.Networking

open Transition

namespace Writer

variable {w w' : Writer} {msg : Message} {msgs : List Message} {write : Write}

theorem messageWritten_cons (h : w.messagesOut = msg :: msgs) :
    w.messageWritten = .ok { w with
      messagesOut := msgs
      outstanding := msgs.head?.toList.map Write.header ++ w.outstanding } := by
  obtain ⟨_, outstanding, isOpen⟩ := w
  obtain rfl := h
  cases msgs with
  | nil => rfl
  | cons next msgs => rfl

/-- What a completed write does to a queue that holds a message. -/
theorem written_cons (h : w.messagesOut = msg :: msgs) (write : Write) :
    w.written write = .ok { w with outstanding := .body msg :: w.outstanding } ∨
      w.written write = w.messageWritten := by
  obtain ⟨_, outstanding, isOpen⟩ := w
  obtain rfl := h
  cases write with
  | body _ => exact Or.inr rfl
  | header _ =>
      by_cases hbody : 0 < msg.body.length
      · apply Or.inl
        simp [written, front, hbody, writeBody, bind, Except.bind, pure, Except.pure]
      · apply Or.inr
        simp [written, front, hbody, bind, Except.bind]

/-- `Send` starts nothing while a message is queued. -/
theorem send_cons (h : w.messagesOut ≠ []) (msg : Message) :
    w.send msg = .ok { w with messagesOut := w.messagesOut ++ [msg] } := by
  obtain ⟨messagesOut, outstanding, isOpen⟩ := w
  cases messagesOut with
  | nil => exact absurd rfl h
  | cons front rest => rfl

theorem send_ok (w : Writer) (msg : Message) : ∃ w', w.send msg = .ok w' := by
  obtain ⟨messagesOut, outstanding, isOpen⟩ := w
  cases messagesOut with
  | nil => exact ⟨_, rfl⟩
  | cons front rest => exact ⟨_, rfl⟩

end Writer

/-- The message that a step pops. -/
def popOf (e : WriterEvent) : Option Message :=
  if e.dst.messagesOut.length < e.src.messagesOut.length then e.src.messagesOut.head? else none

/-- The messages that were popped, in order. -/
def pops (tr : List WriterEvent) : List Message := tr.filterMap popOf

variable {done : List (Message × UInt16)} {w : Writer} {bs : List UInt8} {tr : List WriterEvent}
  {e : WriterEvent}

/-- There is an outstanding write only for the message at the front. -/
theorem Progress.messagesOut_of_mem (h : Progress done w bs) {write : Write}
    (hmem : write ∈ w.outstanding) :
    (∃ msg msgs, w.messagesOut = msg :: msgs) ∧ w.outstanding = [write] := by
  cases h with
  | idle => simp at hmem
  | header msg msgs =>
      obtain rfl : write = .header msg := by simpa [Writer.busy] using hmem
      exact ⟨⟨msg, msgs, rfl⟩, rfl⟩
  | body msg msgs pad hbody =>
      obtain rfl : write = .body msg := by simpa [Writer.busy] using hmem
      exact ⟨⟨msg, msgs, rfl⟩, rfl⟩
  | failed msg msgs pad n => simp [Writer.busy] at hmem

/-- How a step changes the queue and the writes. -/
theorem step_cases (h : writerMachine.Run {} tr e.src) (htakes : writerMachine.Takes e) :
    (∃ msg, e.act = .send msg ∧ e.src.send msg = .ok e.dst ∧
      e.dst.messagesOut = e.src.messagesOut ++ [msg]) ∨
    (∃ write pad msg msgs, e.act = .written write pad ∧ e.src.isOpen = true ∧
      e.src.messagesOut = msg :: msgs ∧ e.dst.isOpen = true ∧
      (e.dst.messagesOut = msg :: msgs ∨
        e.dst.messagesOut = msgs ∧ e.dst.outstanding = msgs.head?.toList.map Write.header)) ∨
    (∃ write pad n, e.act = .failed write pad n ∧ e.dst.isOpen = false ∧
      e.dst.messagesOut = e.src.messagesOut) := by
  obtain ⟨done, hprogress, _, _⟩ := run_progress h
  obtain ⟨src, act, out, dst⟩ := e
  obtain ⟨henabled, hstep⟩ := htakes
  cases act with
  | send msg =>
      obtain ⟨w, hw, hret⟩ := bind_eq_ok.mp hstep
      obtain ⟨rfl, _⟩ : w = dst ∧ [] = out := Prod.mk.inj (Except.ok.inj hret)
      exact Or.inl ⟨msg, rfl, hw, (progress_send hprogress hw).2.1⟩
  | written write pad =>
      obtain ⟨w, hw, hret⟩ := bind_eq_ok.mp hstep
      obtain ⟨rfl, _⟩ : w = dst ∧ write.bytes pad = out := Prod.mk.inj (Except.ok.inj hret)
      simp only [writerMachine, Bool.and_eq_true, decide_eq_true_eq] at henabled
      obtain ⟨⟨msg, msgs, hqueue⟩, hone⟩ := hprogress.messagesOut_of_mem henabled.2
      have hqueue' : { src with outstanding := src.outstanding.erase write }.messagesOut =
        msg :: msgs := hqueue
      refine Or.inr (Or.inl ⟨write, pad, msg, msgs, rfl, henabled.1, hqueue, ?_⟩)
      rcases Writer.written_cons hqueue' write with hbody | hlast
      · obtain rfl := Except.ok.inj (hbody.symm.trans hw)
        exact ⟨henabled.1, Or.inl hqueue⟩
      · rw [hlast, Writer.messageWritten_cons hqueue'] at hw
        have hnone : src.outstanding.erase write = [] := by
          rw [show src.outstanding = [write] from hone]
          simp
        obtain rfl := Except.ok.inj hw
        exact ⟨henabled.1, Or.inr ⟨rfl, by rw [hnone, List.append_nil]⟩⟩
  | failed write pad n =>
      obtain ⟨rfl, _⟩ : { src with
            outstanding := src.outstanding.erase write, isOpen := false } = dst ∧
          (write.bytes pad).take n = out := Prod.mk.inj (Except.ok.inj hstep)
      exact Or.inr (Or.inr ⟨write, pad, n, rfl, rfl, rfl⟩)

/-- A queue is popped at its head and filled at its end. -/
theorem pops_step (h : writerMachine.Run {} tr e.src) (htakes : writerMachine.Takes e) :
    (popOf e).toList ++ e.dst.messagesOut = e.src.messagesOut ++ (sendOf e).toList := by
  rcases step_cases h htakes with
    ⟨msg, hact, _, hqueue⟩ | ⟨write, pad, msg, msgs, hact, _, hsrc, _, hdst⟩ |
      ⟨write, pad, n, hact, _, hqueue⟩
  · simp [popOf, sendOf, hact, hqueue]
  · rcases hdst with hsame | ⟨hpopped, _⟩
    · simp [popOf, sendOf, hact, hsrc, hsame]
    · simp [popOf, sendOf, hact, hsrc, hpopped]
  · simp [popOf, sendOf, hact, hqueue]

/-- What was sent was popped, in order, but for what is in the queue. -/
theorem pops_append (h : writerMachine.Run {} tr w) : pops tr ++ w.messagesOut = sends tr := by
  induction h with
  | nil => rfl
  | @snoc tr e hrun htakes ih =>
      have hpops : pops (tr ++ [e]) = pops tr ++ (popOf e).toList := by
        cases hpop : popOf e <;> simp [pops, hpop]
      rw [hpops, List.append_assoc, pops_step hrun htakes, ← List.append_assoc, ih, sends_snoc]

/-- The messages that are popped are the ones that are written. -/
theorem run_pops (h : writerMachine.Run {} tr w) :
    ∃ done, Progress done w (wireBytes tr) ∧ done.map Prod.fst = pops tr := by
  obtain ⟨done, hprogress, hsends, _⟩ := run_progress h
  exact ⟨done, hprogress, List.append_cancel_right (hsends.symm.trans (pops_append h).symm)⟩

/-! ### What the pump promises -/

theorem outstanding_le_one (h : writerMachine.Run {} tr w) : w.outstanding.length ≤ 1 := by
  obtain ⟨done, hprogress, _⟩ := run_pops h
  generalize wireBytes tr = bs at hprogress
  cases hprogress <;> simp [Writer.busy]

/-- Until a write fails, one is outstanding exactly while the queue holds a
message. -/
theorem outstanding_iff (h : writerMachine.Run {} tr w) (hok : ∀ e ∈ tr, ¬Failing e) :
    w.outstanding ≠ [] ↔ w.messagesOut ≠ [] := by
  obtain ⟨done, hprogress, _, hopen⟩ := run_progress h
  generalize wireBytes tr = bs at hprogress
  cases hprogress with
  | idle => simp
  | header msg msgs => simp [Writer.busy]
  | body msg msgs pad hbody => simp [Writer.busy]
  | failed msg msgs pad n =>
      obtain ⟨e, he, hfailing⟩ := hopen rfl
      exact absurd hfailing (hok e he)

/-- No handler takes from an empty queue. -/
theorem step_ne_emptyQueue (h : writerMachine.Run {} tr w) {a : WriterAction}
    (henabled : writerMachine.enabled w a = true) :
    writerMachine.step w a ≠ .error .emptyQueue := by
  obtain ⟨done, hprogress, _⟩ := run_pops h
  cases a with
  | send msg =>
      obtain ⟨w', hw'⟩ := w.send_ok msg
      simp [writerMachine, hw', bind, Except.bind, pure, Except.pure]
  | written write pad =>
      simp only [writerMachine, Bool.and_eq_true, decide_eq_true_eq] at henabled
      obtain ⟨⟨msg, msgs, hqueue⟩, _⟩ := hprogress.messagesOut_of_mem henabled.2
      have hqueue' : { w with outstanding := w.outstanding.erase write }.messagesOut =
        msg :: msgs := hqueue
      rcases Writer.written_cons hqueue' write with hw' | hw'
      · simp [writerMachine, hw', bind, Except.bind, pure, Except.pure]
      · rw [Writer.messageWritten_cons hqueue'] at hw'
        simp [writerMachine, hw', bind, Except.bind, pure, Except.pure]
  | failed write pad n => simp [writerMachine]

/-- What is on the wire is the beginning of what was sent. -/
theorem wireBytes_prefix (h : writerMachine.Run {} tr w) :
    ∃ msgs, msgs.map Prod.fst = sends tr ∧ wireBytes tr <+: encode msgs := by
  obtain ⟨done, hprogress, hpops⟩ := run_pops h
  have hsends := pops_append h
  rw [← hpops] at hsends
  -- The message at the front keeps its padding, the ones behind it get any.
  have hrest (msg : Message) (msgs : List Message) (pad : UInt16) (bs : List UInt8)
      (hqueue : w.messagesOut = msg :: msgs)
      (hbs : bs <+: headerBytes msg.header pad ++ msg.body) :
      ∃ all, all.map Prod.fst = sends tr ∧ encode done ++ bs <+: encode all := by
    refine ⟨done ++ (msg, pad) :: msgs.map fun m => (m, 0), ?_, ?_⟩
    · simpa [hqueue, Function.comp_def] using hsends
    · have hencode : encode (done ++ (msg, pad) :: msgs.map fun m => (m, 0)) =
          encode done ++ (headerBytes msg.header pad ++ msg.body ++
            encode (msgs.map fun m => (m, 0))) := by
        simp [encode]
      rw [hencode, List.prefix_append_right_inj]
      exact hbs.trans (List.prefix_append _ _)
  generalize wireBytes tr = bs at hprogress
  cases hprogress with
  | idle => exact ⟨done, by simpa using hsends, List.prefix_rfl⟩
  | header msg msgs => simpa using hrest msg msgs 0 [] rfl List.nil_prefix
  | body msg msgs pad hbody => exact hrest msg msgs pad _ rfl (List.prefix_append _ _)
  | failed msg msgs pad n => exact hrest msg msgs pad _ rfl (List.take_prefix _ _)

/-- A message is popped when its last byte is written. -/
theorem wireBytes_of_pop {pre post : List WriterEvent} {msg : Message}
    (h : writerMachine.Run {} (pre ++ e :: post) w) (hpop : popOf e = some msg) :
    ∃ done, done.map Prod.fst = pops pre ++ [msg] ∧ wireBytes (pre ++ [e]) = encode done := by
  obtain ⟨hpre, htakes, _⟩ := h.split
  obtain ⟨done, hprogress, hpops⟩ := run_pops (hpre.snoc htakes)
  have hsnoc : pops (pre ++ [e]) = pops pre ++ [msg] := by simp [pops, hpop]
  rw [hsnoc] at hpops
  refine ⟨done, hpops, ?_⟩
  rcases step_cases hpre htakes with
    ⟨_, _, _, hqueue⟩ | ⟨_, _, front, msgs, _, _, hsrc, hopen, hdst⟩ | ⟨_, _, _, _, _, hqueue⟩
  · simp [popOf, hqueue] at hpop
  · rcases hdst with hsame | ⟨_, hnext⟩
    · simp [popOf, hsrc, hsame] at hpop
    · generalize e.dst = dst at hprogress hopen hnext
      generalize wireBytes (pre ++ [e]) = bs at hprogress
      cases hprogress with
      | idle => rfl
      | header next rest => rfl
      | body next rest pad hbody =>
          cases msgs <;> simp [Writer.busy] at hnext
      | failed next rest pad n => simp at hopen
  · simp [popOf, hqueue] at hpop

/-- After a failed write nothing is started any more. -/
theorem no_write_after_failed {pre post : List WriterEvent}
    (h : writerMachine.Run {} (pre ++ e :: post) w) (hfailing : Failing e) :
    ∀ m ∈ Machine.visited e.dst post, m.outstanding = [] := by
  obtain ⟨hpre, htakes, hpost⟩ := h.split
  have hstopped := hpost.visited_invariant (g := fun _ _ => True)
    (I := fun w : Writer => w.outstanding = [] ∧ w.messagesOut ≠ [])
  refine fun m hm => (hstopped ?_ (fun _ _ => trivial) ?_ m hm).1
  · obtain ⟨write, pad, n, hact⟩ := hfailing
    have hclosed : e.dst.isOpen = false := by
      rcases step_cases hpre htakes with
        ⟨_, hsend, _⟩ | ⟨_, _, _, _, hwritten, _⟩ | ⟨_, _, _, _, hclosed, _⟩
      · rw [hact] at hsend
        cases hsend
      · rw [hact] at hwritten
        cases hwritten
      · exact hclosed
    obtain ⟨done, hprogress, _⟩ := run_pops (hpre.snoc htakes)
    generalize e.dst = dst at hprogress hclosed
    generalize wireBytes (pre ++ [e]) = bs at hprogress
    cases hprogress with
    | idle | header next rest | body next rest pad hbody => simp [Writer.busy] at hclosed
    | failed next rest pad n => simp [Writer.busy]
  · rintro ⟨src, act, out, dst⟩ ⟨henabled, hstep⟩ _ ⟨hnone, hqueue⟩
    replace hnone : src.outstanding = [] := hnone
    cases act with
    | send msg =>
        obtain ⟨w', hw', hret⟩ := bind_eq_ok.mp hstep
        obtain ⟨hdst, _⟩ : w' = dst ∧ [] = out := Prod.mk.inj (Except.ok.inj hret)
        have happend : { src with messagesOut := src.messagesOut ++ [msg] } = dst :=
          (Except.ok.inj ((Writer.send_cons hqueue msg).symm.trans hw')).trans hdst
        have hout : dst.outstanding = src.outstanding := by rw [← happend]
        have hmsgs : dst.messagesOut = src.messagesOut ++ [msg] := by rw [← happend]
        exact ⟨hout.trans hnone, by simp [hmsgs]⟩
    | written write pad => simp [writerMachine, hnone] at henabled
    | failed write pad n => simp [writerMachine, hnone] at henabled

/-- **The write pump.** At most one write is outstanding, and until one
fails there is one exactly while a message is queued. No handler takes from
an empty queue. The bytes on the wire are a prefix of the messages sent,
header and body, in the order of the `Send` handlers. Each message is popped
once, when it is all on the wire. After a failed write no write is started. -/
theorem pump_invariant (h : writerMachine.Run {} tr w) :
    w.outstanding.length ≤ 1 ∧
    ((∀ e ∈ tr, ¬Failing e) → (w.outstanding ≠ [] ↔ w.messagesOut ≠ [])) ∧
    (∀ a, writerMachine.enabled w a = true → writerMachine.step w a ≠ .error .emptyQueue) ∧
    (∃ msgs, msgs.map Prod.fst = sends tr ∧ wireBytes tr <+: encode msgs) ∧
    pops tr ++ w.messagesOut = sends tr ∧
    (∀ pre e post msg, tr = pre ++ e :: post → popOf e = some msg →
      ∃ done, done.map Prod.fst = pops pre ++ [msg] ∧ wireBytes (pre ++ [e]) = encode done) ∧
    ∀ pre e post, tr = pre ++ e :: post → Failing e →
      ∀ m ∈ Machine.visited e.dst post, m.outstanding = [] := by
  refine ⟨outstanding_le_one h, outstanding_iff h, fun a => step_ne_emptyQueue h,
    wireBytes_prefix h, pops_append h, ?_, ?_⟩
  · rintro pre e post msg rfl hpop
    exact wireBytes_of_pop h hpop
  · rintro pre e post rfl hfailing
    exact no_write_after_failed h hfailing

/-- Two messages, and the write of the second fails. -/
theorem pump_invariant_failed :
    ∃ tr w, writerMachine.Run {} tr w ∧ (∃ e ∈ tr, Failing e) ∧
      pops tr = [Message.push {} [7]] ∧ w.outstanding.length ≤ 1 := by
  have hexec : ((writerMachine.exec {}
      [.send (Message.push {} [7]), .send {}, .written (.header (Message.push {} [7])) 0,
        .written (.body (Message.push {} [7])) 0, .failed (.header {}) 0 3]).map fun r =>
      pops r.1) = some [Message.push {} [7]] := by
    decide +kernel
  obtain ⟨⟨tr, w⟩, hrun, hpops⟩ := Option.map_eq_some_iff.mp hexec
  have hact := Machine.map_act_of_exec hrun
  have hmem : .failed (.header {}) 0 3 ∈ tr.map Event.act := by simp [hact]
  obtain ⟨e, he, hfailed⟩ := List.mem_map.mp hmem
  exact ⟨tr, w, Machine.run_of_exec hrun, ⟨e, he, _, _, _, hfailed⟩, hpops,
    (pump_invariant (Machine.run_of_exec hrun)).1⟩

end AmongUs.Networking
