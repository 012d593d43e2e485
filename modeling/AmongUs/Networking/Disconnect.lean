import AmongUs.Networking.Pump

/-!
One connection, with the handlers that wait in the queue of the context.

`Disconnect` looks whether the socket is open and posts a handler that
cancels, shuts down and closes it. The test is made on the thread of the
timers, and the handler runs on the thread of the context, after the ones
that are in the queue already. A read or a write that has failed closes the
socket in its own handler. So the posted handler may find the socket closed,
and then `cancel` throws through `run` of the context. This is decided when
the handler is posted: a later failure is queued behind it
(`disconnect_open_iff`).
-/

namespace AmongUs.Networking

open Transition

/-- How `run` of the context ends other than by returning. -/
inductive Escape
  | fault (fault : Fault)
  /-- `cancel` and `shutdown` throw on a closed socket. -/
  | badDescriptor
  deriving DecidableEq

/-- A handler in the queue. A completed read has its bytes. -/
inductive Handler
  | disconnect
  | send (msg : Message)
  | read (bs : List UInt8)
  | readFailed
  | written (write : Write)
  | writeFailed
  deriving DecidableEq

namespace Handler

def closes : Handler → Bool
  | .disconnect | .readFailed | .writeFailed => true
  | .send _ | .read _ | .written _ => false

/-- The handler of a write. -/
def ofWrite : Handler → Bool
  | .written _ | .writeFailed => true
  | .disconnect | .send _ | .read _ | .readFailed => false

end Handler

/-- The socket is open as the writer has it. `reading` says that an
`async_read` is outstanding, and `disconnecting` that the thread of the
timers is in `Disconnect`, past its test. -/
structure Connection where
  reader : Reader := {}
  writer : Writer := {}
  reading : Bool := true
  handlers : List Handler := []
  disconnecting : Bool := false

namespace Connection

def isConnected (c : Connection) : Bool := c.writer.isOpen

/-- `asio::post`, and also the end of an operation. -/
def post (c : Connection) (handler : Handler) : Connection :=
  { c with handlers := c.handlers ++ [handler] }

def cancel (c : Connection) : Except Escape Connection :=
  if c.isConnected then .ok c else .error .badDescriptor

def shutdown (c : Connection) : Except Escape Connection :=
  if c.isConnected then .ok c else .error .badDescriptor

/-- Does not throw on a closed socket. -/
def close (c : Connection) : Connection := { c with writer := { c.writer with isOpen := false } }

/-- What the handlers do. A failed operation starts no other one. -/
def handle (c : Connection) : Handler → Except Escape Connection
  | .disconnect => do
      let c ← c.cancel
      let c ← c.shutdown
      return c.close
  | .send msg => do
      let writer ← (c.writer.send msg).mapError .fault
      return { c with writer := writer }
  | .read bs => .ok { c with reader := c.reader.feedAll bs, reading := true }
  | .readFailed => .ok c.close
  | .written write => do
      let writer ← (c.writer.written write).mapError .fault
      return { c with writer := writer }
  | .writeFailed => .ok c.close

/-- The context runs the next handler. -/
def run (c : Connection) : Except Escape Connection :=
  match c.handlers with
  | [] => .ok c
  | handler :: handlers => { c with handlers := handlers }.handle handler

/-- The write has come to its end. -/
def complete (c : Connection) (write : Write) : Connection :=
  { c with writer := { c.writer with outstanding := c.writer.outstanding.erase write } }

end Connection

inductive ConnectionAction
  | send (msg : Message)
  | readDone (bs : List UInt8)
  | readFail
  | writeDone (write : Write)
  | writeFail (write : Write)
  /-- The test of `Disconnect`. -/
  | disconnectTest
  /-- `Disconnect` posts its handler. -/
  | disconnectPost
  | run

/-- An operation succeeds only on an open socket, and may fail at any time. -/
def connectionMachine : Machine Connection ConnectionAction Unit Escape where
  enabled c
    | .send _ => true
    | .readDone bs => c.reading && c.isConnected && decide (bs.length = c.reader.requested)
    | .readFail => c.reading
    | .writeDone write => c.isConnected && decide (write ∈ c.writer.outstanding)
    | .writeFail write => decide (write ∈ c.writer.outstanding)
    | .disconnectTest => !c.disconnecting
    | .disconnectPost => c.disconnecting
    | .run => !c.handlers.isEmpty
  step c
    | .send msg => .ok (c.post (.send msg), ())
    | .readDone bs => .ok ({ c with reading := false }.post (.read bs), ())
    | .readFail => .ok ({ c with reading := false }.post .readFailed, ())
    | .writeDone write => .ok ((c.complete write).post (.written write), ())
    | .writeFail write => .ok ((c.complete write).post .writeFailed, ())
    | .disconnectTest => .ok ({ c with disconnecting := c.isConnected }, ())
    | .disconnectPost => .ok ({ c with disconnecting := false }.post .disconnect, ())
    | .run => do return (← c.run, ())

namespace Connection

/-- The handlers in the queue, run to their end, do not cancel or shut down
a closed socket. -/
def FindsOpen (c : Connection) : Prop :=
  ∀ tr t, connectionMachine.Run c tr t → (∀ e ∈ tr, e.act = .run) →
    t.run ≠ .error .badDescriptor

/-- The posted handler will be the first to close the socket. -/
def PostsInTime (c : Connection) : ConnectionAction → Prop
  | .disconnectPost =>
      c.isConnected = true ∧ ∀ handler ∈ c.handlers, handler.closes = false
  | _ => True

instance (c : Connection) : ∀ a, Decidable (c.PostsInTime a)
  | .disconnectPost => inferInstanceAs (Decidable (_ ∧ _))
  | .send _ | .readDone _ | .readFail | .writeDone _ | .writeFail _ | .disconnectTest | .run =>
      inferInstanceAs (Decidable True)

/-- Each `Disconnect` in the queue has the socket open when its turn comes. -/
def Orderly (isOpen : Bool) : List Handler → Prop
  | [] => True
  | handler :: handlers =>
      (handler = .disconnect → isOpen = true) ∧ Orderly (isOpen && !handler.closes) handlers

/-- The writes that were started and whose handlers have not run. -/
def inFlight (c : Connection) : ℕ :=
  c.writer.outstanding.length + c.handlers.countP Handler.ofWrite

/-- At most one write is in flight, and its message is in the queue. -/
structure Pumped (c : Connection) : Prop where
  inFlight_le : c.inFlight ≤ 1
  ne_nil : 0 < c.inFlight → c.writer.messagesOut ≠ []

variable {c c' : Connection} {handler : Handler} {handlers : List Handler} {o : Bool}

theorem orderly_snoc : Orderly o (handlers ++ [handler]) ↔ Orderly o handlers ∧
    (handler = .disconnect → o = true ∧ ∀ h ∈ handlers, h.closes = false) := by
  induction handlers generalizing o with
  | nil => simp [Orderly]
  | cons first rest ih =>
      rw [List.cons_append, Orderly, Orderly, ih, and_assoc]
      refine and_congr_right fun _ => and_congr_right fun _ => imp_congr_right fun _ => ?_
      simp only [Bool.and_eq_true, Bool.not_eq_true', List.forall_mem_cons, and_assoc]

/-! ### The writer below -/

theorem send_spec (w : Writer) (msg : Message) :
    ∃ w', w.send msg = .ok w' ∧ w'.isOpen = w.isOpen ∧ w'.messagesOut ≠ [] ∧
      w'.outstanding.length = w.outstanding.length + if w.messagesOut = [] then 1 else 0 := by
  obtain ⟨messagesOut, outstanding, isOpen⟩ := w
  cases messagesOut with
  | nil => exact ⟨_, rfl, rfl, List.cons_ne_nil _ _, by simp⟩
  | cons front rest => exact ⟨_, rfl, rfl, List.cons_ne_nil _ _, rfl⟩

/-- A completed write starts at most one other, and that is for a message in
the queue. -/
theorem written_spec {w : Writer} (h : w.messagesOut ≠ []) (write : Write) :
    ∃ w', w.written write = .ok w' ∧ w'.isOpen = w.isOpen ∧
      w'.outstanding.length ≤ w.outstanding.length + 1 ∧
      (w.outstanding.length < w'.outstanding.length → w'.messagesOut ≠ []) := by
  obtain ⟨msg, msgs, hqueue⟩ := List.exists_cons_of_ne_nil h
  rcases Writer.written_cons hqueue write with hbody | hlast
  · exact ⟨_, hbody, rfl, le_rfl, fun _ => h⟩
  · rw [hlast, Writer.messageWritten_cons hqueue]
    refine ⟨_, rfl, rfl, ?_⟩
    cases msgs with
    | nil => exact ⟨Nat.le_succ _, fun hlt => absurd hlt (lt_irrefl _)⟩
    | cons next rest => exact ⟨le_rfl, fun _ => List.cons_ne_nil _ _⟩

/-! ### The handlers -/

theorem handle_disconnect :
    c.handle .disconnect = if c.isConnected then .ok c.close else .error .badDescriptor := by
  by_cases hopen : c.isConnected
  · simp [handle, cancel, shutdown, hopen, bind, Except.bind, pure, Except.pure]
  · simp [handle, cancel, hopen, bind, Except.bind]

theorem handle_send {msg : Message} {w : Writer} (h : c.writer.send msg = .ok w) :
    c.handle (.send msg) = .ok { c with writer := w } := by
  simp [handle, h, Except.mapError, bind, Except.bind, pure, Except.pure]

theorem handle_written {write : Write} {w : Writer} (h : c.writer.written write = .ok w) :
    c.handle (.written write) = .ok { c with writer := w } := by
  simp [handle, h, Except.mapError, bind, Except.bind, pure, Except.pure]

/-- The next handler of a pumped connection returns, but for a `Disconnect`
that finds the socket closed. -/
theorem run_spec (hc : c.Pumped) (h : c.handlers = handler :: handlers)
    (hopen : handler = .disconnect → c.isConnected = true) :
    ∃ c', c.run = .ok c' ∧ c'.Pumped ∧ c'.handlers = handlers ∧
      c'.isConnected = (c.isConnected && !handler.closes) := by
  obtain ⟨reader, writer, reading, queue, disconnecting⟩ := c
  obtain rfl : queue = handler :: handlers := h
  obtain ⟨hle, hne⟩ := hc
  simp only [inFlight, List.countP_cons] at hle hne
  cases handler with
  | disconnect =>
      refine ⟨_, handle_disconnect.trans (if_pos (hopen rfl)), ⟨hle, hne⟩, rfl, ?_⟩
      exact (Bool.and_false _).symm
  | readFailed => exact ⟨_, rfl, ⟨hle, hne⟩, rfl, (Bool.and_false _).symm⟩
  | writeFailed =>
      have hzero : writer.outstanding.length + handlers.countP Handler.ofWrite = 0 := by
        simp only [Handler.ofWrite, if_true] at hle
        omega
      refine ⟨_, rfl, ⟨hzero.le.trans zero_le_one, fun hpos => ?_⟩, rfl,
        (Bool.and_false _).symm⟩
      exact absurd hpos hzero.not_gt
  | read bs => exact ⟨_, rfl, ⟨hle, hne⟩, rfl, (Bool.and_true _).symm⟩
  | send msg =>
      obtain ⟨w, hw, hisOpen, hqueue, hlen⟩ := send_spec writer msg
      refine ⟨_, handle_send hw, ⟨?_, fun _ => hqueue⟩, rfl, ?_⟩
      · -- Only an empty queue starts a write, and then none was in flight.
        simp only [inFlight, hlen]
        split
        · rename_i hnil
          have hzero := Nat.eq_zero_of_not_pos fun hpos => hne hpos hnil
          simp only [Handler.ofWrite, Bool.false_eq_true, if_false] at hzero
          omega
        · exact hle
      · exact hisOpen.trans (Bool.and_true _).symm
  | written write =>
      simp only [Handler.ofWrite, if_true] at hle hne
      obtain ⟨w, hw, hisOpen, hlen, hqueue⟩ := written_spec (hne (by omega)) write
      refine ⟨_, handle_written hw, ⟨?_, fun hpos => hqueue ?_⟩, rfl,
        hisOpen.trans (Bool.and_true _).symm⟩
      · simp only [inFlight]
        omega
      · simp only [inFlight] at hpos
        omega

theorem run_eq_badDescriptor_iff (hc : c.Pumped) (h : c.handlers = handler :: handlers) :
    c.run = .error .badDescriptor ↔ handler = .disconnect ∧ c.isConnected = false := by
  constructor
  · intro hthrow
    by_contra hnot
    obtain ⟨c', hok, -⟩ := run_spec hc h fun hdisconnect =>
      Bool.of_not_eq_false fun hclosed => hnot ⟨hdisconnect, hclosed⟩
    rw [hok] at hthrow
    cases hthrow
  · rintro ⟨rfl, hclosed⟩
    have hthrow : ({ c with handlers := handlers } : Connection).handle .disconnect =
        .error .badDescriptor :=
      handle_disconnect.trans (if_neg (Bool.eq_false_iff.mp hclosed))
    rw [run, h]
    exact hthrow

/-! ### Runs -/

variable {e : Event Connection ConnectionAction Unit}
  {tr : List (Event Connection ConnectionAction Unit)} {t : Connection}

theorem run_of_takes (h : connectionMachine.Takes e) (hact : e.act = .run) :
    e.src.run = .ok e.dst ∧ ∃ handler handlers, e.src.handlers = handler :: handlers := by
  obtain ⟨src, act, out, dst⟩ := e
  obtain rfl : act = .run := hact
  obtain ⟨henabled, hstep⟩ := h
  obtain ⟨c, hrun, hret⟩ := bind_eq_ok.mp hstep
  obtain rfl : c = dst := (Prod.mk.inj (Except.ok.inj hret)).1
  exact ⟨hrun, List.exists_cons_of_ne_nil (by simpa [connectionMachine] using henabled)⟩

theorem pumped_complete {write : Write} (hc : c.Pumped) (h : write ∈ c.writer.outstanding)
    (hwrite : handler.ofWrite = true) : ((c.complete write).post handler).Pumped := by
  have hcount : ((c.complete write).post handler).inFlight = c.inFlight := by
    have hlen := List.length_erase_of_mem h
    have hpos := List.length_pos_of_mem h
    simp only [inFlight, complete, post, List.countP_append, List.countP_singleton, hwrite, if_true,
      hlen]
    omega
  exact ⟨hcount ▸ hc.inFlight_le, hcount ▸ hc.ne_nil⟩

theorem Pumped.post (hc : c.Pumped) (hwrite : handler.ofWrite = false) :
    (c.post handler).Pumped := by
  have hcount : (c.post handler).inFlight = c.inFlight := by
    simp [inFlight, Connection.post, hwrite]
  exact ⟨hcount ▸ hc.inFlight_le, hcount ▸ hc.ne_nil⟩

theorem Pumped.step (hc : e.src.Pumped) (h : connectionMachine.Takes e)
    (hsafe : e.src.run ≠ .error .badDescriptor) : e.dst.Pumped := by
  obtain ⟨src, act, out, dst⟩ := e
  obtain ⟨henabled, hstep⟩ := h
  have hsame (reading disconnecting : Bool) : Pumped { src with
      reading := reading, disconnecting := disconnecting } := ⟨hc.inFlight_le, hc.ne_nil⟩
  have hdst {c : Connection}
      (hok : (Except.ok (c, ()) : Except Escape (Connection × Unit)) = .ok (dst, out)) : c = dst :=
    (Prod.mk.inj (Except.ok.inj hok)).1
  cases act with
  | send msg => exact hdst hstep ▸ hc.post rfl
  | readDone bs => exact hdst hstep ▸ (hsame false _).post rfl
  | readFail => exact hdst hstep ▸ (hsame false _).post rfl
  | writeDone write =>
      simp only [connectionMachine, Bool.and_eq_true, decide_eq_true_eq] at henabled
      exact hdst hstep ▸ pumped_complete hc henabled.2 rfl
  | writeFail write =>
      simp only [connectionMachine, decide_eq_true_eq] at henabled
      exact hdst hstep ▸ pumped_complete hc henabled rfl
  | disconnectTest => exact hdst hstep ▸ hsame _ src.isConnected
  | disconnectPost => exact hdst hstep ▸ (hsame _ false).post rfl
  | run =>
      obtain ⟨hrun, handler, handlers, hqueue⟩ := run_of_takes ⟨henabled, hstep⟩ rfl
      obtain ⟨c', hok, hpumped, -⟩ := run_spec hc hqueue fun hdisconnect =>
        Bool.of_not_eq_false fun hclosed =>
          hsafe ((run_eq_badDescriptor_iff hc hqueue).mpr ⟨hdisconnect, hclosed⟩)
      obtain rfl : c' = dst := Except.ok.inj (hok.symm.trans hrun)
      exact hpumped

/-- Only the post of a `Disconnect` can spoil the order. -/
theorem orderly_step (hc : e.src.Pumped) (h : connectionMachine.Takes e)
    (horder : Orderly e.src.isConnected e.src.handlers) :
    Orderly e.dst.isConnected e.dst.handlers ↔ e.src.PostsInTime e.act := by
  obtain ⟨src, act, out, dst⟩ := e
  have hstep := h.2
  have hdst {c : Connection}
      (hok : (Except.ok (c, ()) : Except Escape (Connection × Unit)) = .ok (dst, out)) : c = dst :=
    (Prod.mk.inj (Except.ok.inj hok)).1
  have hpost {handler : Handler} (hne : handler ≠ .disconnect) :
      Orderly src.isConnected (src.handlers ++ [handler]) ↔ True :=
    iff_of_true (orderly_snoc.mpr ⟨horder, fun heq => absurd heq hne⟩) trivial
  cases act with
  | send msg => exact hdst hstep ▸ hpost (by simp)
  | readDone bs => exact hdst hstep ▸ hpost (by simp)
  | readFail => exact hdst hstep ▸ hpost (by simp)
  | writeDone write => exact hdst hstep ▸ hpost (by simp)
  | writeFail write => exact hdst hstep ▸ hpost (by simp)
  | disconnectTest => exact hdst hstep ▸ iff_of_true horder trivial
  | disconnectPost =>
      refine hdst hstep ▸ orderly_snoc.trans ?_
      exact (and_iff_right horder).trans (forall_prop_of_true rfl)
  | run =>
      obtain ⟨hrun, handler, handlers, hqueue⟩ := run_of_takes h rfl
      rw [hqueue] at horder
      obtain ⟨hopen, hrest⟩ := horder
      obtain ⟨c', hok, -, hhandlers, hisOpen⟩ := run_spec hc hqueue hopen
      obtain rfl : c' = dst := Except.ok.inj (hok.symm.trans hrun)
      refine iff_of_true ?_ trivial
      rw [hisOpen, hhandlers]
      exact hrest

theorem orderly_run (hc : c.Pumped) (horder : Orderly c.isConnected c.handlers)
    (h : connectionMachine.Run c tr t) (hact : ∀ e ∈ tr, e.act = .run) :
    t.Pumped ∧ Orderly t.isConnected t.handlers := by
  refine h.visited_invariant (I := fun c => c.Pumped ∧ Orderly c.isConnected c.handlers)
    (g := fun _ a => a = .run) ⟨hc, horder⟩ hact ?_ t h.end_mem_visited
  rintro e htakes hrun ⟨hpumped, hsrc⟩
  refine ⟨hpumped.step htakes ?_, (orderly_step hpumped htakes hsrc).mpr ?_⟩
  · rw [(run_of_takes htakes hrun).1]
    exact fun hthrow => nomatch hthrow
  · rw [hrun]
    trivial

theorem findsOpen_iff (hc : c.Pumped) : c.FindsOpen ↔ Orderly c.isConnected c.handlers := by
  constructor
  · intro hfinds
    generalize hqueue : c.handlers = handlers
    induction handlers generalizing c with
    | nil => trivial
    | cons handler handlers ih =>
        have hopen (hdisconnect : handler = .disconnect) : c.isConnected = true :=
          Bool.of_not_eq_false fun hclosed => hfinds [] c .nil (by simp)
            ((run_eq_badDescriptor_iff hc hqueue).mpr ⟨hdisconnect, hclosed⟩)
        obtain ⟨c', hok, hpumped, hhandlers, hisOpen⟩ := run_spec hc hqueue hopen
        -- What comes after the first handler was promised for the whole queue.
        let e : Event Connection ConnectionAction Unit := ⟨c, .run, (), c'⟩
        have htakes : connectionMachine.Takes e :=
          ⟨by simp [e, connectionMachine, hqueue], bind_eq_ok.mpr ⟨c', hok, rfl⟩⟩
        have hfirst : connectionMachine.Run c [e] c' := .snoc (e := e) .nil htakes
        refine ⟨hopen, hisOpen ▸ ih hpumped (fun tr t hrun hact => ?_) hhandlers⟩
        exact hfinds ([e] ++ tr) t (hfirst.append hrun)
          (List.forall_mem_append.mpr ⟨by simp [e], hact⟩)
  · intro horder tr t hrun hact hthrow
    obtain ⟨hpumped, ht⟩ := orderly_run hc horder hrun hact
    cases hqueue : t.handlers with
    | nil => simp [run, hqueue] at hthrow
    | cons handler handlers =>
        rw [hqueue] at ht
        obtain ⟨hdisconnect, hclosed⟩ := (run_eq_badDescriptor_iff hpumped hqueue).mp hthrow
        rw [ht.1 hdisconnect] at hclosed
        cases hclosed

theorem pumped_initial : ({} : Connection).Pumped := ⟨Nat.zero_le _, fun h => absurd h (lt_irrefl 0)⟩

/-- **A posted disconnect.** Along a run from a new connection no handler
finds the socket closed that it cancels, whatever is in the queue, exactly
when each `Disconnect` posts its handler while the socket is open and no
handler that closes it is in the queue. -/
theorem disconnect_open_iff (h : connectionMachine.Run {} tr t) :
    (∀ c ∈ Machine.visited {} tr, c.FindsOpen) ↔ ∀ e ∈ tr, e.src.PostsInTime e.act := by
  refine h.visited_iff (I := FindsOpen) (J := Pumped) (g := PostsInTime)
    ((findsOpen_iff pumped_initial).mpr trivial) pumped_initial ?_ ?_
  · intro e htakes hfinds hpumped _
    exact hpumped.step htakes (hfinds [] e.src .nil (by simp))
  · intro e htakes hfinds hpumped
    have hdst := hpumped.step htakes (hfinds [] e.src .nil (by simp))
    rw [findsOpen_iff hdst]
    exact orderly_step hpumped htakes ((findsOpen_iff hpumped).mp hfinds)

/-- A read fails after `Disconnect` has posted its handler. -/
theorem disconnect_open_iff_posted :
    ∃ tr t, connectionMachine.Run {} tr t ∧ t.isConnected = false ∧
      ∀ c ∈ Machine.visited {} tr, c.FindsOpen := by
  have hexec : ((connectionMachine.exec {}
      [.disconnectTest, .disconnectPost, .readFail, .run, .run]).map fun r =>
      (r.1.all fun e => decide (e.src.PostsInTime e.act), r.2.isConnected)) =
        some (true, false) := by
    decide +kernel
  obtain ⟨⟨tr, t⟩, hrun, hview⟩ := Option.map_eq_some_iff.mp hexec
  obtain ⟨hall, hclosed⟩ := Prod.mk.inj hview
  refine ⟨tr, t, Machine.run_of_exec hrun, hclosed,
    (disconnect_open_iff (Machine.run_of_exec hrun)).mpr fun e he => ?_⟩
  exact of_decide_eq_true (List.all_eq_true.mp hall e he)

/-- A read fails before `Disconnect` posts its handler, and its own handler
runs first. -/
theorem failed_read_before_disconnect :
    ¬∀ tr t, connectionMachine.Run {} tr t → t.run ≠ .error .badDescriptor := by
  intro hall
  have hexec : ((connectionMachine.exec {}
      [.disconnectTest, .readFail, .disconnectPost, .run]).map fun r =>
      match r.2.run with
      | .ok _ => none
      | .error escape => some escape) = some (some .badDescriptor) := by
    decide +kernel
  obtain ⟨⟨tr, t⟩, hrun, hview⟩ := Option.map_eq_some_iff.mp hexec
  apply hall tr t (Machine.run_of_exec hrun)
  cases hthrow : t.run with
  | ok c => simp [hthrow] at hview
  | error escape =>
      obtain rfl : escape = .badDescriptor := by simpa [hthrow] using hview
      rfl

end Connection

end AmongUs.Networking
