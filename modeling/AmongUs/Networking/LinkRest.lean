import AmongUs.Networking.Link
import Mathlib.Algebra.BigOperators.Group.List.Basic

/-!
What a link still has to do.

The cost of a link counts the handlers and the reads that the messages posted
so far still ask for: for each of them the handler of its `Send`, two writes,
and a read for every byte. A write that ends puts its bytes on the wire, but
it is one handler less (`Moves.cost_lt`). When neither a handler nor a read
is left, everything that was posted has come out, unless a write has failed
(`Carries.idle_of_still`).
-/

namespace AmongUs.Networking

open Transition

/-- The two writes of a message that is queued, and the reads. -/
def Message.cost (msg : Message) : ℕ := 2 + headerSize + msg.body.length

/-- The write of a header is counted with that of the body. -/
def Write.cost : Write → ℕ
  | .header msg => msg.cost
  | .body msg => 1 + msg.body.length

/-- The message at the front of the queue is counted with its write. -/
def Writer.cost (w : Writer) : ℕ :=
  (w.outstanding.map Write.cost).sum + (w.messagesOut.tail.map Message.cost).sum

def Link.cost (l : Link) : ℕ :=
  (l.posted.map fun msg => msg.cost + 1).sum + l.writer.cost + l.inFlight.length

theorem Write.length_bytes_lt_cost (write : Write) (pad : UInt16) :
    (write.bytes pad).length < write.cost := by
  cases write with
  | header msg =>
      rw [bytes, length_headerBytes, cost, Message.cost]
      omega
  | body msg =>
      rw [bytes, cost]
      omega

namespace Writer

variable {done : List (Message × UInt16)} {w w' : Writer} {bs : List UInt8}

theorem cost_busy (msg : Message) (msgs : List Message) (outstanding : List Write) :
    (busy msg msgs outstanding).cost =
      (outstanding.map Write.cost).sum + (msgs.map Message.cost).sum := rfl

theorem cost_send {msg : Message} (h : Progress done w bs) (hsend : w.send msg = .ok w') :
    w'.cost = w.cost + msg.cost := by
  cases h with
  | idle =>
      obtain rfl : busy msg [] [.header msg] = w' := Except.ok.inj hsend
      simp [cost, busy, Write.cost]
  | header front msgs | body front msgs pad hbody =>
      obtain rfl := Except.ok.inj ((send_busy _ _).symm.trans hsend)
      simp [cost_busy, Nat.add_assoc]
  | failed front msgs pad n =>
      obtain rfl : { busy front (msgs ++ [msg]) [] with isOpen := false } = w' :=
        Except.ok.inj hsend
      simp [cost, busy]

/-- The next message, if there is one, is counted as before. -/
theorem cost_messageWritten {msg : Message} {msgs : List Message}
    (h : (busy msg msgs []).messageWritten = .ok w) :
    w.cost = (msgs.map Message.cost).sum := by
  cases msgs with
  | nil =>
      obtain rfl : {} = w := Except.ok.inj h
      rfl
  | cons next msgs =>
      obtain rfl : busy next msgs [.header next] = w := Except.ok.inj h
      simp [cost_busy, Write.cost]

theorem cost_written {write : Write} (pad : UInt16) (h : Progress done w bs)
    (hmem : write ∈ w.outstanding)
    (hwritten : { w with outstanding := w.outstanding.erase write }.written write = .ok w') :
    w'.cost + (write.bytes pad).length < w.cost := by
  cases h with
  | idle => simp at hmem
  | header msg msgs =>
      obtain rfl : write = .header msg := by simpa [busy] using hmem
      have hleft : { busy msg msgs [.header msg] with
          outstanding := (busy msg msgs [.header msg]).outstanding.erase (.header msg) } =
          busy msg msgs [] := by simp [busy]
      rw [hleft, written_header] at hwritten
      rw [Write.bytes, length_headerBytes, cost_busy, List.map_singleton, List.sum_singleton,
        Write.cost, Message.cost]
      split at hwritten
      · obtain rfl := Except.ok.inj hwritten
        rw [cost_busy, List.map_singleton, List.sum_singleton, Write.cost]
        omega
      · rw [cost_messageWritten hwritten]
        omega
  | body msg msgs pad' hbody =>
      obtain rfl : write = .body msg := by simpa [busy] using hmem
      have hleft : { busy msg msgs [.body msg] with
          outstanding := (busy msg msgs [.body msg]).outstanding.erase (.body msg) } =
          busy msg msgs [] := by simp [busy]
      rw [hleft] at hwritten
      rw [cost_messageWritten hwritten, cost_busy, List.map_singleton, List.sum_singleton,
        Write.bytes, Write.cost]
      omega
  | failed msg msgs pad' n => simp [busy] at hmem

theorem cost_failed {write : Write} (pad : UInt16) (n : ℕ) (hmem : write ∈ w.outstanding) :
    { w with outstanding := w.outstanding.erase write, isOpen := false }.cost +
      ((write.bytes pad).take n).length < w.cost := by
  have hless := write.length_bytes_lt_cost pad
  have hsum := List.sum_map_erase Write.cost hmem
  have htake := List.length_take_le' n (write.bytes pad)
  simp only [cost]
  omega

end Writer

namespace Link

variable {l l' : Link} {msgs : List Message}

theorem Carries.progress (h : l.Carries msgs) : ∃ done bs, Progress done l.writer bs := by
  obtain ⟨tr, _, hrun, _⟩ := h
  obtain ⟨done, hprogress, _⟩ := run_progress hrun
  exact ⟨done, _, hprogress⟩

theorem cost_post (l : Link) (msgs : List Message) :
    (l.post msgs).cost = l.cost + (msgs.map fun msg => msg.cost + 1).sum := by
  simp only [cost, post, List.map_append, List.sum_append]
  omega

/-- **A handler less.** Whatever a handler of the writer starts was counted
with its message. -/
theorem Moves.cost_lt (hcarries : l.Carries msgs) (h : l.Moves l') : l'.cost < l.cost := by
  obtain ⟨done, bs, hprogress⟩ := hcarries.progress
  cases h with
  | runSend hposted hsend =>
      cases hp : l.posted with
      | nil => exact absurd hp hposted
      | cons msg posted =>
          simp only [Link.runSend, hp] at hsend
          obtain ⟨⟨w, bytes⟩, hstep, hret⟩ := bind_eq_ok.mp hsend
          obtain ⟨w', hw, hout⟩ := bind_eq_ok.mp hstep
          obtain ⟨rfl, rfl⟩ := Prod.mk.inj (Except.ok.inj hout)
          obtain rfl := Except.ok.inj hret
          have hcost := Writer.cost_send hprogress hw
          simp only [cost, hcost, hp, List.map_cons, List.sum_cons, List.append_nil]
          omega
  | @write a henabled ha hwrite =>
      obtain ⟨⟨w, bytes⟩, hstep, hret⟩ := bind_eq_ok.mp hwrite
      obtain rfl := Except.ok.inj hret
      suffices hless : w.cost + bytes.length < l.writer.cost by
        simp only [cost, List.length_append]
        omega
      cases a with
      | send msg => exact absurd rfl (ha msg)
      | written write pad =>
          have hmem : write ∈ l.writer.outstanding := by
            simpa [writerMachine] using (Bool.and_eq_true_iff.mp henabled).2
          obtain ⟨w', hw, hout⟩ := bind_eq_ok.mp hstep
          obtain ⟨rfl, rfl⟩ := Prod.mk.inj (Except.ok.inj hout)
          exact Writer.cost_written pad hprogress hmem hw
      | failed write pad n =>
          obtain ⟨rfl, rfl⟩ := Prod.mk.inj (Except.ok.inj hstep)
          exact Writer.cost_failed pad n (of_decide_eq_true henabled)

theorem cost_read (h : l.inFlight ≠ []) : l.read.cost + 1 = l.cost := by
  cases hflight : l.inFlight with
  | nil => exact absurd hflight h
  | cons b bytes =>
      simp only [read, cost, hflight, List.length_cons]
      omega

/-- **Nothing left.** Without a handler and without a byte on the wire, all
that was posted has come out, unless a write has failed. -/
theorem Carries.idle_of_still (h : l.Carries msgs) (hopen : l.writer.isOpen = true)
    (hposted : l.posted = []) (hflight : l.inFlight = [])
    (hwrites : ∀ write pad, writerMachine.enabled l.writer (.written write pad) = false) :
    l.Idle := by
  obtain ⟨done, bs, hprogress⟩ := h.progress
  refine ⟨hposted, ?_, hflight⟩
  generalize l.writer = w at hprogress hopen hwrites
  cases hprogress with
  | idle => rfl
  | header msg msgs => simpa [writerMachine, Writer.busy] using hwrites (.header msg) 0
  | body msg msgs pad hbody => simpa [writerMachine, Writer.busy] using hwrites (.body msg) 0
  | failed msg msgs pad n => cases hopen

end Link

end AmongUs.Networking
