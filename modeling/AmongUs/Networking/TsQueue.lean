import AmongUs.Networking.Message
import AmongUs.Transition.Machine
import Mathlib.Logic.Function.Basic

/-!
The queue of incoming messages, one atomic operation at a time.

One consumer waits for messages and takes them until the queue is empty, and
any number of producers push. `push_back` holds `muxQueue` throughout and
`muxBlocking` while it notifies. `wait` tests the queue under `muxQueue`,
gives this mutex back, and only then takes `muxBlocking` and sleeps; a
producer that pushes and notifies in between notifies nobody. The condition
variable may also wake the consumer for no reason.

While no notification falls into that gap, a consumer that sleeps, or is
about to, with a message in the queue has a producer that is still on its
way to notify it (`Awaited`).
-/

namespace AmongUs.Networking

open Transition

/-- The next operation of the consumer: of `wait`, of the test of the loop
after it, of `pop_front`, or the handling of a message. The loops count the
messages. -/
inductive Consumer
  | waitLock
  | waitTest
  | waitUnlock (isEmpty : Bool)
  | blockingLock
  | blockingWait
  | asleep
  | woken
  | blockingUnlock
  | loopLock (nMessageCount : ℕ)
  | loopTest (nMessageCount : ℕ)
  | loopUnlock (nMessageCount : ℕ) (isEmpty : Bool)
  | popLock (nMessageCount : ℕ)
  | popFront (nMessageCount : ℕ)
  | popUnlock (nMessageCount : ℕ)
  | handle (nMessageCount : ℕ)
  deriving DecidableEq

/-- The next operation of a producer in `push_back`. -/
inductive Producer (T : Type)
  | outside
  | queueLock (item : T)
  | pushBack (item : T)
  | blockingLock
  | notifyOne
  | blockingUnlock
  | queueUnlock
  deriving DecidableEq

/-- A mutex is locked or not; only its owner comes to unlock it. -/
structure TsQueue (ι T : Type) where
  deqQueue : List T := []
  muxQueue : Bool := false
  muxBlocking : Bool := false
  consumer : Consumer := .waitLock
  producer : ι → Producer T := fun _ => .outside

inductive TsQueueAction (ι T : Type)
  | consume
  | wake
  | call (i : ι) (item : T)
  | produce (i : ι)

/-- Whether `Update` takes another message after the first ones. -/
def updateGoesOn (nMaxMessages nMessageCount : ℕ) : Bool := nMessageCount < nMaxMessages

/-- `handleNetworking` always does. -/
def handleNetworkingGoesOn (_nMessageCount : ℕ) : Bool := true

namespace Consumer

/-- The head of the loop over the messages; after the loop comes `wait`. -/
def loop (goesOn : ℕ → Bool) (n : ℕ) : Consumer := if goesOn n then .loopLock n else .waitLock

/-- `wait` has found the queue empty and does not sleep yet. -/
def aboutToSleep : Consumer → Bool
  | .waitUnlock isEmpty => isEmpty
  | .blockingLock => true
  | .blockingWait => true
  | _ => false

/-- The mutex that the next operation locks is free, and there is one. -/
def ready (muxQueue muxBlocking : Bool) : Consumer → Bool
  | .waitLock => !muxQueue
  | .blockingLock => !muxBlocking
  | .asleep => false
  | .woken => !muxBlocking
  | .loopLock _ => !muxQueue
  | .popLock _ => !muxQueue
  | _ => true

end Consumer

def Producer.ready {T : Type} (muxQueue muxBlocking : Bool) : Producer T → Bool
  | .outside => false
  | .queueLock _ => !muxQueue
  | .blockingLock => !muxBlocking
  | _ => true

namespace TsQueue

variable {ι T : Type}

def consume (goesOn : ℕ → Bool) (s : TsQueue ι T) : Except Fault (TsQueue ι T) :=
  match s.consumer with
  | .waitLock => .ok { s with muxQueue := true, consumer := .waitTest }
  | .waitTest => .ok { s with consumer := .waitUnlock s.deqQueue.isEmpty }
  | .waitUnlock isEmpty =>
      .ok { s with
        muxQueue := false
        consumer := if isEmpty then .blockingLock else .loop goesOn 0 }
  | .blockingLock => .ok { s with muxBlocking := true, consumer := .blockingWait }
  | .blockingWait => .ok { s with muxBlocking := false, consumer := .asleep }
  | .asleep => .ok s
  | .woken => .ok { s with muxBlocking := true, consumer := .blockingUnlock }
  | .blockingUnlock => .ok { s with muxBlocking := false, consumer := .waitLock }
  | .loopLock n => .ok { s with muxQueue := true, consumer := .loopTest n }
  | .loopTest n => .ok { s with consumer := .loopUnlock n s.deqQueue.isEmpty }
  | .loopUnlock n isEmpty =>
      .ok { s with muxQueue := false, consumer := if isEmpty then .waitLock else .popLock n }
  | .popLock n => .ok { s with muxQueue := true, consumer := .popFront n }
  | .popFront n =>
      match s.deqQueue with
      | _ :: rest => .ok { s with deqQueue := rest, consumer := .popUnlock n }
      | [] => .error .emptyQueue
  | .popUnlock n => .ok { s with muxQueue := false, consumer := .handle n }
  | .handle n => .ok { s with consumer := .loop goesOn (n + 1) }

variable [DecidableEq ι]

def setProducer (s : TsQueue ι T) (i : ι) (p : Producer T) : TsQueue ι T :=
  { s with producer := Function.update s.producer i p }

/-- The destructors unlock in the opposite order. -/
def produce (s : TsQueue ι T) (i : ι) : TsQueue ι T :=
  match s.producer i with
  | .outside => s
  | .queueLock item => { s with muxQueue := true }.setProducer i (.pushBack item)
  | .pushBack item => { s with deqQueue := s.deqQueue ++ [item] }.setProducer i .blockingLock
  | .blockingLock => { s with muxBlocking := true }.setProducer i .notifyOne
  | .notifyOne =>
      { s with
        consumer := if s.consumer = Consumer.asleep then Consumer.woken else s.consumer
      }.setProducer i .blockingUnlock
  | .blockingUnlock => { s with muxBlocking := false }.setProducer i .queueUnlock
  | .queueUnlock => { s with muxQueue := false }.setProducer i .outside

end TsQueue

def queueMachine (ι T : Type) [DecidableEq ι] [DecidableEq T] (goesOn : ℕ → Bool) :
    Machine (TsQueue ι T) (TsQueueAction ι T) Unit Fault where
  enabled s
    | .consume => s.consumer.ready s.muxQueue s.muxBlocking
    | .wake => decide (s.consumer = .asleep)
    | .call i _ => decide (s.producer i = .outside)
    | .produce i => (s.producer i).ready s.muxQueue s.muxBlocking
  step s
    | .consume => do return (← s.consume goesOn, ())
    | .wake => .ok ({ s with consumer := .woken }, ())
    | .call i item => .ok (s.setProducer i (.queueLock item), ())
    | .produce i => .ok (s.produce i, ())

namespace TsQueue

variable {ι T : Type}

/-- A producer notifies while the consumer is about to sleep. -/
def NotifiesInGap (s : TsQueue ι T) : TsQueueAction ι T → Prop
  | .produce i => s.producer i = .notifyOne ∧ s.consumer.aboutToSleep = true
  | _ => False

instance [DecidableEq T] (s : TsQueue ι T) (a : TsQueueAction ι T) :
    Decidable (s.NotifiesInGap a) :=
  match a with
  | .produce i => inferInstanceAs
      (Decidable (s.producer i = .notifyOne ∧ s.consumer.aboutToSleep = true))
  | .consume => .isFalse id
  | .wake => .isFalse id
  | .call _ _ => .isFalse id

/-- A producer has pushed and has not notified yet. -/
def Notifying (s : TsQueue ι T) : Prop :=
  ∃ i, s.producer i = .blockingLock ∨ s.producer i = .notifyOne

def Drowsy (s : TsQueue ι T) : Prop := s.consumer.aboutToSleep = true ∨ s.consumer = .asleep

/-- Where the consumer sleeps or is about to with a message in the queue, it
will be notified. -/
def Awaited (s : TsQueue ι T) : Prop := s.Drowsy → s.deqQueue ≠ [] → s.Notifying

variable {s s' : TsQueue ι T} {goesOn : ℕ → Bool}

theorem not_drowsy_loop (goesOn : ℕ → Bool) (n : ℕ) :
    (Consumer.loop goesOn n).aboutToSleep = false ∧ Consumer.loop goesOn n ≠ .asleep := by
  rw [Consumer.loop]
  split
  · exact ⟨rfl, by simp⟩
  · exact ⟨rfl, by simp⟩

/-- The consumer gets drowsy on an empty queue, and takes nothing from it
until it is awake. -/
theorem consume_drowsy (h : s.consume goesOn = .ok s') :
    s'.producer = s.producer ∧
      (s'.Drowsy → s'.deqQueue = s.deqQueue ∧ (s.Drowsy ∨ s.deqQueue = [])) := by
  obtain ⟨deqQueue, muxQueue, muxBlocking, consumer, producer⟩ := s
  cases consumer with
  | waitTest =>
      obtain rfl := Except.ok.inj h
      refine ⟨rfl, fun hdrowsy => ⟨rfl, Or.inr ?_⟩⟩
      simpa [Drowsy, Consumer.aboutToSleep] using hdrowsy
  | waitUnlock isEmpty =>
      obtain rfl := Except.ok.inj h
      refine ⟨rfl, fun hdrowsy => ⟨rfl, Or.inl ?_⟩⟩
      cases isEmpty with
      | true => exact Or.inl rfl
      | false =>
          obtain ⟨hawake, hasleep⟩ := not_drowsy_loop goesOn 0
          simp [Drowsy, hawake, hasleep] at hdrowsy
  | blockingLock | blockingWait =>
      obtain rfl := Except.ok.inj h
      exact ⟨rfl, fun _ => ⟨rfl, Or.inl (Or.inl rfl)⟩⟩
  | asleep =>
      obtain rfl := Except.ok.inj h
      exact ⟨rfl, fun _ => ⟨rfl, Or.inl (Or.inr rfl)⟩⟩
  | waitLock | woken | blockingUnlock | loopLock n | loopTest n | popLock n | popUnlock n =>
      obtain rfl := Except.ok.inj h
      exact ⟨rfl, fun hdrowsy => by simp [Drowsy, Consumer.aboutToSleep] at hdrowsy⟩
  | loopUnlock n isEmpty =>
      obtain rfl := Except.ok.inj h
      cases isEmpty <;>
        exact ⟨rfl, fun hdrowsy => by simp [Drowsy, Consumer.aboutToSleep] at hdrowsy⟩
  | popFront n =>
      cases deqQueue with
      | nil => simp [consume] at h
      | cons item rest =>
          obtain rfl := Except.ok.inj h
          exact ⟨rfl, fun hdrowsy => by simp [Drowsy, Consumer.aboutToSleep] at hdrowsy⟩
  | handle n =>
      obtain rfl := Except.ok.inj h
      obtain ⟨hawake, hasleep⟩ := not_drowsy_loop goesOn (n + 1)
      exact ⟨rfl, fun hdrowsy => by simp [Drowsy, hawake, hasleep] at hdrowsy⟩

variable [DecidableEq ι]

/-- What a step of one producer means for the others. -/
theorem notifying_setProducer {i j : ι} {p : Producer T} (hij : j ≠ i)
    (h : s.producer j = .blockingLock ∨ s.producer j = .notifyOne) :
    (s.setProducer i p).Notifying := ⟨j, by simpa [setProducer, hij] using h⟩

theorem awaited_produce (i : ι) (h : s.Awaited) (hgap : ¬s.NotifiesInGap (.produce i)) :
    (s.produce i).Awaited := by
  rw [produce]
  split
  case h_1 => exact h
  case h_2 item hpc =>
    intro hdrowsy hqueue
    obtain ⟨j, hj⟩ := h hdrowsy hqueue
    refine notifying_setProducer (s := { s with muxQueue := true }) ?_ hj
    rintro rfl
    simp [hpc] at hj
  case h_3 => exact fun _ _ => ⟨i, Or.inl (by simp [setProducer])⟩
  case h_4 => exact fun _ _ => ⟨i, Or.inr (by simp [setProducer])⟩
  case h_5 hpc =>
    -- The consumer was not about to sleep, so the notification wakes it.
    intro hdrowsy
    have hawake : s.consumer.aboutToSleep = false := by
      simpa [NotifiesInGap, hpc] using hgap
    by_cases hasleep : s.consumer = .asleep
    · simp [Drowsy, setProducer, hasleep, Consumer.aboutToSleep] at hdrowsy
    · simp [Drowsy, setProducer, hasleep, hawake] at hdrowsy
  case h_6 hpc =>
    intro hdrowsy hqueue
    obtain ⟨j, hj⟩ := h hdrowsy hqueue
    refine notifying_setProducer (s := { s with muxBlocking := false }) ?_ hj
    rintro rfl
    simp [hpc] at hj
  case h_7 hpc =>
    intro hdrowsy hqueue
    obtain ⟨j, hj⟩ := h hdrowsy hqueue
    refine notifying_setProducer (s := { s with muxQueue := false }) ?_ hj
    rintro rfl
    simp [hpc] at hj

variable [DecidableEq T]

theorem Awaited.step {e : Event (TsQueue ι T) (TsQueueAction ι T) Unit} (h : e.src.Awaited)
    (htakes : (queueMachine ι T goesOn).Takes e) (hgap : ¬e.src.NotifiesInGap e.act) :
    e.dst.Awaited := by
  obtain ⟨s, a, out, s'⟩ := e
  obtain ⟨henabled, hstep⟩ := htakes
  cases a with
  | consume =>
      obtain ⟨t, ht, hret⟩ := bind_eq_ok.mp hstep
      obtain ⟨rfl, _⟩ : t = s' ∧ () = out := Prod.mk.inj (Except.ok.inj hret)
      obtain ⟨hproducer, hdrowsy⟩ := consume_drowsy ht
      intro ht' hqueue
      obtain ⟨hsame, hbefore⟩ := hdrowsy ht'
      have hqueue' : s.deqQueue ≠ [] := fun hnil => hqueue (hsame.trans hnil)
      rw [Notifying, hproducer]
      exact h (hbefore.resolve_right hqueue') hqueue'
  | wake =>
      obtain ⟨rfl, _⟩ : { s with consumer := .woken } = s' ∧ () = out :=
        Prod.mk.inj (Except.ok.inj hstep)
      intro hdrowsy
      simp [Drowsy, Consumer.aboutToSleep] at hdrowsy
  | call i item =>
      obtain ⟨rfl, _⟩ : s.setProducer i (.queueLock item) = s' ∧ () = out :=
        Prod.mk.inj (Except.ok.inj hstep)
      intro hdrowsy hqueue
      obtain ⟨j, hj⟩ := h hdrowsy hqueue
      refine notifying_setProducer ?_ hj
      rintro rfl
      have houtside : s.producer j = .outside := by simpa [queueMachine] using henabled
      simp [houtside] at hj
  | produce i =>
      obtain ⟨rfl, _⟩ : s.produce i = s' ∧ () = out := Prod.mk.inj (Except.ok.inj hstep)
      exact awaited_produce i h hgap

/-- **No lost wakeup** in a run without a notification in the gap: where the
consumer sleeps with a message in the queue, some producer is still inside
`push_back`. -/
theorem no_lost_wakeup {tr : List (Event (TsQueue ι T) (TsQueueAction ι T) Unit)}
    (h : (queueMachine ι T goesOn).Run {} tr s)
    (hgap : ∀ e ∈ tr, ¬e.src.NotifiesInGap e.act) :
    ∀ t ∈ Machine.visited {} tr, t.consumer = .asleep → t.deqQueue ≠ [] →
      ∃ i, t.producer i ≠ .outside := by
  intro t ht hasleep hqueue
  have hawaited := h.visited_invariant (I := Awaited) (g := fun s a => ¬s.NotifiesInGap a)
    (fun _ hnil => absurd rfl hnil) hgap (fun e htakes hg hsrc => hsrc.step htakes hg) t ht
  obtain ⟨i, hi | hi⟩ := hawaited (Or.inr hasleep) hqueue
  · exact ⟨i, by simp [hi]⟩
  · exact ⟨i, by simp [hi]⟩

/-- A producer that pushes while the consumer sleeps. -/
theorem no_lost_wakeup_one :
    ∃ tr s, (queueMachine Unit ℕ (updateGoesOn (2 ^ 64 - 1))).Run {} tr s ∧
      s.consumer = .asleep ∧ s.deqQueue = [7] ∧ ∃ i, s.producer i ≠ .outside := by
  have hexec : (((queueMachine Unit ℕ (updateGoesOn (2 ^ 64 - 1))).exec {}
      [.consume, .consume, .consume, .consume, .consume, .call () 7, .produce (),
        .produce ()]).map fun r =>
      (decide (∀ e ∈ r.1, ¬e.src.NotifiesInGap e.act), r.2.consumer, r.2.deqQueue)) =
        some (true, .asleep, [7]) := by
    decide +kernel
  obtain ⟨⟨tr, s⟩, hrun, hview⟩ := Option.map_eq_some_iff.mp hexec
  obtain ⟨hdecide, hrest⟩ := Prod.mk.inj hview
  obtain ⟨hasleep, hqueue⟩ : s.consumer = .asleep ∧ s.deqQueue = [7] := Prod.mk.inj hrest
  have hrun' := Machine.run_of_exec hrun
  exact ⟨tr, s, hrun', hasleep, hqueue, no_lost_wakeup hrun' (of_decide_eq_true hdecide) s
    hrun'.end_mem_visited hasleep (by simp [hqueue])⟩

/-- A push that falls between the test and the sleep. -/
theorem wait_misses_push (goesOn : ℕ → Bool) :
    ¬∀ tr s, (queueMachine Unit ℕ goesOn).Run {} tr s →
      s.consumer = .asleep → s.deqQueue ≠ [] → ∃ i, s.producer i ≠ .outside := by
  intro hall
  have hexec : (((queueMachine Unit ℕ goesOn).exec {}
      [.consume, .consume, .consume, .call () 7, .produce (), .produce (), .produce (),
        .produce (), .produce (), .produce (), .consume, .consume]).map fun r =>
      (r.2.consumer, r.2.deqQueue, r.2.producer ())) = some (.asleep, [7], .outside) := by
    rfl
  obtain ⟨⟨tr, s⟩, hrun, hview⟩ := Option.map_eq_some_iff.mp hexec
  obtain ⟨hasleep, hrest⟩ := Prod.mk.inj hview
  obtain ⟨hqueue, houtside⟩ : s.deqQueue = [7] ∧ s.producer () = .outside :=
    Prod.mk.inj hrest
  obtain ⟨i, hi⟩ := hall tr s (Machine.run_of_exec hrun) hasleep (by simp [hqueue])
  exact hi houtside

/-- It is lost in the loop of the server and in the one of the client. -/
theorem wakeup_lost :
    (¬∀ tr s, (queueMachine Unit ℕ (updateGoesOn (2 ^ 64 - 1))).Run {} tr s →
      s.consumer = .asleep → s.deqQueue ≠ [] → ∃ i, s.producer i ≠ .outside) ∧
    ¬∀ tr s, (queueMachine Unit ℕ handleNetworkingGoesOn).Run {} tr s →
      s.consumer = .asleep → s.deqQueue ≠ [] → ∃ i, s.producer i ≠ .outside :=
  ⟨wait_misses_push _, wait_misses_push _⟩

end TsQueue

end AmongUs.Networking
