import AmongUs.Networking.Message
import AmongUs.Transition.Machine
import Mathlib.Data.List.Basic

/-!
Calls of `Update` while the connections push.

The operations of the queue are atomic here. Any connection may push between
two of them, and the consumer makes one call of `Update` after the other,
with whatever limit and with or without waiting first. In `wait` it sleeps
while the queue is empty, and wakes up for a notification or for none.

The test of the loop and `pop_front` are two operations. Nothing but the
consumer takes from the queue, so what the test saw is still there
(`Ready`). What was handled, what the consumer has in hand and what is
queued are together what was pushed, in order (`handled_append_pending`).
-/

namespace AmongUs

open Networking Transition

/-- `owned_message`; the client has no remote. -/
structure OwnedMessage where
  remote : Option ℕ
  msg : Message
  deriving DecidableEq

inductive Owner
  | server
  | client
  deriving DecidableEq

/-- What `AddToIncomingMessageQueue` pushes. -/
def ownedMessage (nOwnerType : Owner) (self : ℕ) (msgTemporaryIn : Message) : OwnedMessage :=
  match nOwnerType with
  | .server => ⟨some self, msgTemporaryIn⟩
  | .client => ⟨none, msgTemporaryIn⟩

/-- The next operation of the consumer. -/
inductive UpdateCall
  | outside
  | waitTest (nMaxMessages : UInt64)
  | asleep (nMaxMessages : UInt64)
  | loopTest (nMaxMessages nMessageCount : UInt64)
  | popFront (nMaxMessages nMessageCount : UInt64)
  | onMessage (nMaxMessages nMessageCount : UInt64) (msg : OwnedMessage)
  deriving DecidableEq

structure IncomingQueue where
  deqQueue : List OwnedMessage := []
  call : UpdateCall := .outside
  deriving DecidableEq

inductive QueueAction
  /-- A connection of the server pushes a message that it has read. -/
  | deliver (client : ℕ) (msg : Message)
  /-- `Update` is called. -/
  | update (nMaxMessages : UInt64) (bWait : Bool)
  /-- The consumer goes on. -/
  | next

def QueueAction.IsUpdate : QueueAction → Prop
  | .update _ _ => True
  | _ => False

namespace IncomingQueue

/-- An operation of the consumer, and the arguments of `OnMessage` if it is
this call. -/
def next (s : IncomingQueue) : Except Fault (IncomingQueue × Option OwnedMessage) :=
  match s.call with
  | .outside => .ok (s, none)
  | .waitTest nMaxMessages =>
      .ok ({ s with
        call := if s.deqQueue.isEmpty then .asleep nMaxMessages else .loopTest nMaxMessages 0 },
        none)
  | .asleep nMaxMessages => .ok ({ s with call := .waitTest nMaxMessages }, none)
  | .loopTest nMaxMessages nMessageCount =>
      .ok ({ s with
        call :=
          if nMessageCount < nMaxMessages ∧ s.deqQueue.isEmpty = false then
            .popFront nMaxMessages nMessageCount
          else .outside },
        none)
  | .popFront nMaxMessages nMessageCount =>
      match s.deqQueue with
      | msg :: rest => .ok (⟨rest, .onMessage nMaxMessages nMessageCount msg⟩, none)
      | [] => .error .emptyQueue
  | .onMessage nMaxMessages nMessageCount msg =>
      .ok ({ s with call := .loopTest nMaxMessages (nMessageCount + 1) }, some msg)

/-- The message that was popped and is not handled yet. -/
def inHand (s : IncomingQueue) : List OwnedMessage :=
  match s.call with
  | .onMessage _ _ msg => [msg]
  | _ => []

def pending (s : IncomingQueue) : List OwnedMessage := s.inHand ++ s.deqQueue

/-- The consumer pops only what is there. -/
def Ready (s : IncomingQueue) : Prop :=
  match s.call with
  | .popFront _ _ => s.deqQueue ≠ []
  | _ => True

/-- So many messages were handled in the call, and the limit is this one. -/
def Counts (limit : UInt64) (handled : ℕ) : UpdateCall → Prop
  | .outside => handled ≤ limit.toNat
  | .waitTest nMaxMessages | .asleep nMaxMessages => nMaxMessages = limit ∧ handled = 0
  | .loopTest nMaxMessages nMessageCount =>
      nMaxMessages = limit ∧ nMessageCount.toNat = handled ∧ handled ≤ limit.toNat
  | .popFront nMaxMessages nMessageCount | .onMessage nMaxMessages nMessageCount _ =>
      nMaxMessages = limit ∧ nMessageCount.toNat = handled ∧ handled < limit.toNat

end IncomingQueue

def updateMachine : Machine IncomingQueue QueueAction (Option OwnedMessage) Fault where
  enabled s
    | .deliver _ _ => true
    | .update _ _ => decide (s.call = .outside)
    | .next => decide (s.call ≠ .outside)
  step s
    | .deliver client msg =>
        .ok ({ s with deqQueue := s.deqQueue ++ [ownedMessage .server client msg] }, none)
    | .update nMaxMessages bWait =>
        .ok ({ s with
          call := if bWait then .waitTest nMaxMessages else .loopTest nMaxMessages 0 }, none)
    | .next => s.next

abbrev QueueEvent := Event IncomingQueue QueueAction (Option OwnedMessage)

/-- The arguments of the calls of `OnMessage`. -/
def handled (tr : List QueueEvent) : List OwnedMessage := tr.flatMap fun e => e.out.toList

def pushedBy (e : QueueEvent) : List OwnedMessage :=
  match e.act with
  | .deliver client msg => [ownedMessage .server client msg]
  | _ => []

def pushed (tr : List QueueEvent) : List OwnedMessage := tr.flatMap pushedBy

def deliveredBy (client : ℕ) (e : QueueEvent) : List Message :=
  match e.act with
  | .deliver self msg => if self = client then [msg] else []
  | _ => []

/-- What one connection delivered. -/
def delivered (client : ℕ) (tr : List QueueEvent) : List Message :=
  tr.flatMap (deliveredBy client)

/-- The messages with this remote. -/
def messagesOf (client : ℕ) (msgs : List OwnedMessage) : List Message :=
  (msgs.filter fun m => m.remote = some client).map OwnedMessage.msg

namespace IncomingQueue

variable {s s' : IncomingQueue} {out : Option OwnedMessage} {e : QueueEvent}
  {tr : List QueueEvent}

/-- An operation of the consumer hands over what it had in hand, or moves
the head of the queue into its hand. -/
theorem next_pending (h : s.next = .ok (s', out)) : out.toList ++ s'.pending = s.pending := by
  obtain ⟨deqQueue, call⟩ := s
  cases call with
  | outside | asleep =>
      obtain ⟨rfl, rfl⟩ := Prod.mk.inj (Except.ok.inj h)
      rfl
  | waitTest nMaxMessages =>
      obtain ⟨rfl, rfl⟩ := Prod.mk.inj (Except.ok.inj h)
      cases deqQueue <;> rfl
  | loopTest nMaxMessages nMessageCount =>
      obtain ⟨rfl, rfl⟩ := Prod.mk.inj (Except.ok.inj h)
      dsimp only [pending, inHand]
      split
      · next heq =>
          split at heq
          · cases heq
          · cases heq
      · rfl
  | popFront nMaxMessages nMessageCount =>
      cases deqQueue with
      | nil => cases h
      | cons msg rest =>
          obtain ⟨rfl, rfl⟩ := Prod.mk.inj (Except.ok.inj h)
          rfl
  | onMessage nMaxMessages nMessageCount msg =>
      obtain ⟨rfl, rfl⟩ := Prod.mk.inj (Except.ok.inj h)
      rfl

/-- Where the consumer goes on to `pop_front`, the test has just seen the
queue not empty. -/
theorem next_ready (h : s.next = .ok (s', out)) : s'.Ready := by
  obtain ⟨deqQueue, call⟩ := s
  cases call with
  | outside | asleep | onMessage =>
      obtain ⟨rfl, rfl⟩ := Prod.mk.inj (Except.ok.inj h)
      trivial
  | waitTest nMaxMessages =>
      obtain ⟨rfl, rfl⟩ := Prod.mk.inj (Except.ok.inj h)
      cases deqQueue <;> trivial
  | loopTest nMaxMessages nMessageCount =>
      obtain ⟨rfl, rfl⟩ := Prod.mk.inj (Except.ok.inj h)
      by_cases hgo : nMessageCount < nMaxMessages ∧ deqQueue.isEmpty = false
      · rw [Ready, if_pos hgo]
        rintro rfl
        cases hgo.2
      · rw [Ready, if_neg hgo]
        trivial
  | popFront nMaxMessages nMessageCount =>
      cases deqQueue with
      | nil => cases h
      | cons msg rest =>
          obtain ⟨rfl, rfl⟩ := Prod.mk.inj (Except.ok.inj h)
          trivial

theorem Ready.next_ne_error (h : s.Ready) (fault : Fault) : s.next ≠ .error fault := by
  obtain ⟨deqQueue, call⟩ := s
  intro herror
  cases call with
  | popFront nMaxMessages nMessageCount =>
      cases deqQueue with
      | nil => exact h rfl
      | cons msg rest => cases herror
  | outside | waitTest | asleep | loopTest | onMessage => cases herror

/-- The count of the loop is below the limit when it is increased, so it does
not come round. -/
theorem next_counts {limit : UInt64} {n : ℕ} (h : s.next = .ok (s', out))
    (hcounts : Counts limit n s.call) : Counts limit (n + out.toList.length) s'.call := by
  obtain ⟨deqQueue, call⟩ := s
  cases call with
  | outside | asleep =>
      obtain ⟨rfl, rfl⟩ := Prod.mk.inj (Except.ok.inj h)
      exact hcounts
  | waitTest nMaxMessages =>
      obtain ⟨rfl, rfl⟩ := Prod.mk.inj (Except.ok.inj h)
      obtain ⟨rfl, rfl⟩ := hcounts
      cases deqQueue with
      | nil => exact ⟨rfl, rfl⟩
      | cons msg rest => exact ⟨rfl, rfl, Nat.zero_le _⟩
  | loopTest nMaxMessages nMessageCount =>
      obtain ⟨rfl, rfl⟩ := Prod.mk.inj (Except.ok.inj h)
      obtain ⟨rfl, rfl, hle⟩ := hcounts
      by_cases hgo : nMessageCount < nMaxMessages ∧ deqQueue.isEmpty = false
      · dsimp only
        rw [if_pos hgo]
        exact ⟨rfl, rfl, UInt64.lt_iff_toNat_lt.mp hgo.1⟩
      · dsimp only
        rw [if_neg hgo]
        exact hle
  | popFront nMaxMessages nMessageCount =>
      cases deqQueue with
      | nil => cases h
      | cons msg rest =>
          obtain ⟨rfl, rfl⟩ := Prod.mk.inj (Except.ok.inj h)
          exact hcounts
  | onMessage nMaxMessages nMessageCount msg =>
      obtain ⟨rfl, rfl⟩ := Prod.mk.inj (Except.ok.inj h)
      obtain ⟨rfl, rfl, hlt⟩ := hcounts
      have hsmall := nMaxMessages.toNat_lt
      refine ⟨rfl, ?_, hlt⟩
      rw [UInt64.toNat_add]
      exact Nat.mod_eq_of_lt (Nat.lt_of_le_of_lt hlt hsmall)

/-- What a step can be. -/
theorem takes_cases (h : updateMachine.Takes e) :
    (∃ client msg, e.act = .deliver client msg ∧ e.out = none ∧
      e.dst = { e.src with deqQueue := e.src.deqQueue ++ [ownedMessage .server client msg] }) ∨
    (∃ nMaxMessages bWait, e.act = .update nMaxMessages bWait ∧ e.out = none ∧
      e.src.call = .outside ∧
      e.dst = { e.src with
        call := if bWait then .waitTest nMaxMessages else .loopTest nMaxMessages 0 }) ∨
    (e.act = .next ∧ e.src.next = .ok (e.dst, e.out)) := by
  obtain ⟨henabled, hstep⟩ := h
  cases hact : e.act with
  | deliver client msg =>
      rw [hact] at hstep
      obtain ⟨hdst, hout⟩ := Prod.mk.inj (Except.ok.inj hstep)
      exact Or.inl ⟨client, msg, rfl, hout.symm, hdst.symm⟩
  | update nMaxMessages bWait =>
      rw [hact] at hstep henabled
      obtain ⟨hdst, hout⟩ := Prod.mk.inj (Except.ok.inj hstep)
      exact Or.inr (Or.inl ⟨nMaxMessages, bWait, rfl, hout.symm, of_decide_eq_true henabled,
        hdst.symm⟩)
  | next =>
      rw [hact] at hstep
      exact Or.inr (Or.inr ⟨rfl, hstep⟩)

/-- One step takes from the front and puts at the end. -/
theorem takes_pending (h : updateMachine.Takes e) :
    e.out.toList ++ e.dst.pending = e.src.pending ++ pushedBy e := by
  obtain ⟨client, msg, hact, hout, hdst⟩ | ⟨nMaxMessages, bWait, hact, hout, houtside, hdst⟩ |
    ⟨hact, hnext⟩ := takes_cases h
  · rw [pushedBy, hact, hout, hdst]
    show e.src.inHand ++ (e.src.deqQueue ++ _) = e.src.inHand ++ e.src.deqQueue ++ _
    rw [List.append_assoc]
  · rw [pushedBy, hact, hout, hdst, List.append_nil]
    cases bWait with
    | true => simp [pending, inHand, houtside]
    | false => simp [pending, inHand, houtside]
  · rw [pushedBy, hact, List.append_nil]
    exact next_pending hnext

theorem Ready.takes (hready : e.src.Ready) (h : updateMachine.Takes e) : e.dst.Ready := by
  obtain ⟨client, msg, -, -, hdst⟩ | ⟨nMaxMessages, bWait, -, -, -, hdst⟩ | ⟨-, hnext⟩ :=
    takes_cases h
  · rw [hdst]
    revert hready
    dsimp only [Ready]
    split
    · exact fun _ => List.append_ne_nil_of_right_ne_nil _ (List.cons_ne_nil _ _)
    · exact id
  · rw [hdst]
    cases bWait <;> trivial
  · exact next_ready hnext

theorem takes_counts {limit : UInt64} {n : ℕ} (h : updateMachine.Takes e)
    (hupdate : ¬e.act.IsUpdate) (hcounts : Counts limit n e.src.call) :
    Counts limit (n + e.out.toList.length) e.dst.call := by
  obtain ⟨client, msg, -, hout, hdst⟩ | ⟨nMaxMessages, bWait, hact, -, -, -⟩ | ⟨-, hnext⟩ :=
    takes_cases h
  · rw [hout, hdst]
    exact hcounts
  · rw [hact] at hupdate
    exact absurd trivial hupdate
  · exact next_counts hnext hcounts

theorem Counts.le {limit : UInt64} {n : ℕ} {call : UpdateCall} (h : Counts limit n call) :
    n ≤ limit.toNat := by
  cases call with
  | outside => exact h
  | waitTest | asleep => exact h.2 ▸ Nat.zero_le _
  | loopTest => exact h.2.2
  | popFront | onMessage => exact h.2.2.le

/-- What was pushed was handled, is in hand, or is queued. -/
theorem handled_append_pending (h : updateMachine.Run {} tr s) :
    handled tr ++ s.pending = pushed tr :=
  h.queue fun _ htakes => takes_pending htakes

theorem ready_of_run (h : updateMachine.Run {} tr s) : s.Ready :=
  h.invariant (I := Ready) trivial fun _ htakes hready => hready.takes htakes

/-- Within a call. -/
theorem counts_of_run {limit : UInt64} (h : updateMachine.Run s tr s')
    (hstart : Counts limit 0 s.call) (hcall : ∀ e ∈ tr, ¬e.act.IsUpdate) :
    Counts limit (handled tr).length s'.call := by
  induction h with
  | nil => exact hstart
  | @snoc tr e _ htakes ih =>
      have hpre := ih fun e' he' => hcall e' (List.mem_append_left _ he')
      have hlast := takes_counts htakes (hcall e (by simp)) hpre
      rwa [handled, List.flatMap_append, List.flatMap_singleton, List.length_append]

theorem messagesOf_pushedBy (client : ℕ) (e : QueueEvent) :
    messagesOf client (pushedBy e) = deliveredBy client e := by
  rw [pushedBy, deliveredBy]
  cases e.act with
  | deliver self msg =>
      by_cases hself : self = client
      · simp [ownedMessage, messagesOf, hself]
      · simp [ownedMessage, messagesOf, hself]
  | update nMaxMessages bWait => rfl
  | next => rfl

theorem messagesOf_pushed (client : ℕ) (tr : List QueueEvent) :
    messagesOf client (pushed tr) = delivered client tr := by
  rw [messagesOf, pushed, List.filter_flatMap, List.map_flatMap]
  exact List.flatMap_congr fun e _ => messagesOf_pushedBy client e

/-- **Exactly once and in order.** Whatever calls of `Update` are made and
however the connections push in between: no `pop_front` finds the queue
empty; the messages handled are the first ones pushed, in this order and
with their remotes; a call handles no more than its limit; and so the
messages of a connection are handled in the order in which it delivered
them. -/
theorem handled_once_in_order (h : updateMachine.Run {} tr s) :
    (∀ act fault, updateMachine.step s act ≠ .error fault) ∧
    handled tr <+: pushed tr ∧
    (∀ pre e mid post nMaxMessages bWait, tr = pre ++ e :: (mid ++ post) →
      e.act = .update nMaxMessages bWait → (∀ e' ∈ mid, ¬e'.act.IsUpdate) →
      (handled mid).length ≤ nMaxMessages.toNat) ∧
    ∀ client, messagesOf client (handled tr) <+: delivered client tr := by
  have hfirst : handled tr <+: pushed tr := ⟨s.pending, handled_append_pending h⟩
  refine ⟨fun act fault => ?_, hfirst, ?_, fun client => ?_⟩
  · cases act with
    | deliver client msg => exact fun herror => by cases herror
    | update nMaxMessages bWait => exact fun herror => by cases herror
    | next => exact (ready_of_run h).next_ne_error fault
  · rintro pre e mid post nMaxMessages bWait rfl hact hmid
    obtain ⟨-, ⟨-, hstep⟩, hrest⟩ := h.split
    obtain ⟨t, hcall, -⟩ := Machine.run_append_iff.mp hrest
    rw [hact] at hstep
    refine (counts_of_run hcall ?_ hmid).le
    rw [← (Prod.mk.inj (Except.ok.inj hstep)).1]
    cases bWait with
    | true => exact ⟨rfl, rfl⟩
    | false => exact ⟨rfl, rfl, Nat.zero_le _⟩
  · rw [← messagesOf_pushed]
    exact (hfirst.filter _).map _

/-- Two clients and no limit. The consumer first waits, and the last message
is pushed while it handles the first. -/
theorem handled_once_in_order_two :
    ∃ tr s, updateMachine.Run {} tr s ∧ (handled tr).length = 3 ∧
      handled tr <+: pushed tr ∧ messagesOf 10001 (handled tr) <+: delivered 10001 tr := by
  have hexec : ((updateMachine.exec {}
      [.update (-1) true, .next, .deliver 10001 {}, .deliver 10002 {}, .next, .next, .next,
        .next, .deliver 10001 {}, .next, .next, .next, .next, .next, .next, .next,
        .next]).map fun r => (handled r.1).length) = some 3 := by
    decide +kernel
  obtain ⟨⟨tr, s⟩, hrun, hlength⟩ := Option.map_eq_some_iff.mp hexec
  have hrun' := Machine.run_of_exec hrun
  obtain ⟨-, hfirst, -, hclient⟩ := handled_once_in_order hrun'
  exact ⟨tr, s, hrun', hlength, hfirst, hclient 10001⟩

end IncomingQueue

end AmongUs
