import AmongUs.Networking.TsQueue
import AmongUs.Transition.Mutex

/-!
The two mutexes of the queue, and what the threads do with them.

A producer takes `muxBlocking` while it holds `muxQueue`; the consumer holds
one of them at a time. So a thread that holds `muxBlocking` can always go on,
and one that holds `muxQueue` waits for such a thread at most. Nothing is ever
stuck but the consumer in its sleep (`queue_threads`).

The lock of `muxQueue` puts the pushes and the removals into one order. In
this order what was taken, and then what is queued, is what was pushed.
-/

namespace AmongUs.Networking

open Transition

inductive QueueMutex
  | queue
  | blocking

/-- The consumer is between the lock of the mutex and the unlock. -/
def Consumer.holds : QueueMutex → Consumer → Bool
  | .queue, .waitTest => true
  | .queue, .waitUnlock _ => true
  | .queue, .loopTest _ => true
  | .queue, .loopUnlock _ _ => true
  | .queue, .popFront _ => true
  | .queue, .popUnlock _ => true
  | .blocking, .blockingWait => true
  | .blocking, .blockingUnlock => true
  | _, _ => false

/-- The consumer has seen the queue with a message, and goes on to take it. -/
def Consumer.sawItem : Consumer → Bool
  | .waitUnlock isEmpty => !isEmpty
  | .loopUnlock _ isEmpty => !isEmpty
  | .popLock _ => true
  | .popFront _ => true
  | _ => false

/-- What the next operation takes from the queue. -/
def Consumer.popped {T : Type} (deqQueue : List T) : Consumer → List T
  | .popFront _ => deqQueue.take 1
  | _ => []

namespace Producer

variable {T : Type}

def holds : QueueMutex → Producer T → Bool
  | .queue, .pushBack _ => true
  | .queue, .blockingLock => true
  | .queue, .notifyOne => true
  | .queue, .blockingUnlock => true
  | .queue, .queueUnlock => true
  | .blocking, .notifyOne => true
  | .blocking, .blockingUnlock => true
  | _, _ => false

/-- What the next operation pushes. -/
def pushing : Producer T → List T
  | .pushBack item => [item]
  | _ => []

/-- What the producer has not pushed yet. -/
def unpushed : Producer T → List T
  | .queueLock item => [item]
  | .pushBack item => [item]
  | _ => []

end Producer

namespace TsQueue

variable {ι T : Type}

def locked (s : TsQueue ι T) : QueueMutex → Bool
  | .queue => s.muxQueue
  | .blocking => s.muxBlocking

/-- The threads are the consumer, which is `none`, and the producers. -/
def holds (s : TsQueue ι T) (m : QueueMutex) : Option ι → Bool
  | none => s.consumer.holds m
  | some i => (s.producer i).holds m

/-- The mutexes keep the threads apart, and what the consumer has seen in the
queue is still there. -/
structure Orderly (s : TsQueue ι T) : Prop where
  guards : ∀ m, Guards (s.locked m) (s.holds m)
  saw : s.consumer.sawItem = true → s.deqQueue ≠ []

variable {s s' : TsQueue ι T} {goesOn : ℕ → Bool} {i : ι} {p : Producer T} {m : QueueMutex}

theorem holds_loop (m : QueueMutex) (n : ℕ) : (Consumer.loop goesOn n).holds m = false := by
  rw [Consumer.loop]
  split <;> cases m <;> rfl

theorem sawItem_loop (n : ℕ) : (Consumer.loop goesOn n).sawItem = false := by
  rw [Consumer.loop]
  split <;> rfl

theorem orderly_initial : ({} : TsQueue ι T).Orderly where
  guards m := by
    have hnobody : ∀ t, ({} : TsQueue ι T).holds m t = false := by
      intro t
      cases t <;> cases m <;> rfl
    cases m <;> exact guards_free hnobody
  saw := fun hsaw => by simp [Consumer.sawItem] at hsaw

/-! ### Nothing is stuck -/

theorem ready_of_holds {c : Consumer} (h : c.holds m = true) (muxQueue muxBlocking : Bool) :
    c.ready muxQueue muxBlocking = true := by
  cases c <;> cases m <;> simp_all [Consumer.holds, Consumer.ready]

theorem ready_of_holds_blocking (h : p.holds .blocking = true) (muxQueue muxBlocking : Bool) :
    p.ready muxQueue muxBlocking = true := by
  cases p <;> simp_all [Producer.holds, Producer.ready]

theorem ready_of_holds_queue (h : p.holds .queue = true) (muxQueue : Bool) :
    p.ready muxQueue false = true := by
  cases p <;> simp_all [Producer.holds, Producer.ready]

/-- No thread can go on. -/
def AtRest (s : TsQueue ι T) : Prop :=
  s.consumer.ready s.muxQueue s.muxBlocking = false ∧
    ∀ i, (s.producer i).ready s.muxQueue s.muxBlocking = false

theorem Orderly.atRest_iff (h : s.Orderly) :
    s.AtRest ↔ s.consumer = .asleep ∧ ∀ i, s.producer i = .outside := by
  constructor
  · rintro ⟨hconsumer, hproducer⟩
    have hblocking : s.muxBlocking = false := by
      rw [Bool.eq_false_iff]
      intro hlocked
      obtain ⟨t, ht⟩ := (h.guards .blocking).locked_iff.mp hlocked
      cases t with
      | none => exact Bool.eq_false_iff.mp hconsumer (ready_of_holds ht _ _)
      | some i => exact Bool.eq_false_iff.mp (hproducer i) (ready_of_holds_blocking ht _ _)
    rw [hblocking] at hconsumer hproducer
    have hqueue : s.muxQueue = false := by
      rw [Bool.eq_false_iff]
      intro hlocked
      obtain ⟨t, ht⟩ := (h.guards .queue).locked_iff.mp hlocked
      cases t with
      | none => exact Bool.eq_false_iff.mp hconsumer (ready_of_holds ht _ _)
      | some i => exact Bool.eq_false_iff.mp (hproducer i) (ready_of_holds_queue ht _)
    rw [hqueue] at hconsumer hproducer
    refine ⟨?_, fun i => ?_⟩
    · generalize s.consumer = c at hconsumer
      cases c <;> simp_all [Consumer.ready]
    · have hi := hproducer i
      generalize s.producer i = p at hi
      cases p <;> simp_all [Producer.ready]
  · rintro ⟨hasleep, houtside⟩
    refine ⟨?_, fun i => ?_⟩
    · rw [hasleep, Consumer.ready]
    · rw [houtside i, Producer.ready]

/-! ### The consumer -/

theorem consume_saw (hsaw : s.consumer.sawItem = true → s.deqQueue ≠ [])
    (h : s.consume goesOn = .ok s') : s'.consumer.sawItem = true → s'.deqQueue ≠ [] := by
  obtain ⟨deqQueue, muxQueue, muxBlocking, consumer, producer⟩ := s
  cases consumer with
  | popFront n =>
      cases deqQueue with
      | nil => simp [consume] at h
      | cons item rest =>
          obtain rfl := Except.ok.inj h
          simp [Consumer.sawItem]
  | waitUnlock isEmpty | loopUnlock n isEmpty =>
      obtain rfl := Except.ok.inj h
      cases isEmpty <;> simp_all [Consumer.sawItem]
  | handle n =>
      obtain rfl := Except.ok.inj h
      simp [sawItem_loop]
  | waitLock | waitTest | blockingLock | blockingWait | asleep | woken | blockingUnlock
  | loopLock n | loopTest n | popLock n | popUnlock n =>
      obtain rfl := Except.ok.inj h
      simp_all [Consumer.sawItem]

/-- Nothing is taken from an empty queue. -/
theorem Orderly.consume_ne_error (h : s.Orderly) (fault : Fault) :
    s.consume goesOn ≠ .error fault := by
  obtain ⟨deqQueue, muxQueue, muxBlocking, consumer, producer⟩ := s
  have hsaw := h.saw
  cases consumer with
  | popFront n =>
      cases deqQueue with
      | nil => exact absurd rfl (hsaw rfl)
      | cons item rest => simp [consume]
  | _ => simp [consume]

theorem consume_queue (h : s.consume goesOn = .ok s') :
    s.consumer.popped s.deqQueue ++ s'.deqQueue = s.deqQueue := by
  obtain ⟨deqQueue, muxQueue, muxBlocking, consumer, producer⟩ := s
  cases consumer with
  | popFront n =>
      cases deqQueue with
      | nil => simp [consume] at h
      | cons item rest =>
          obtain rfl := Except.ok.inj h
          rfl
  | _ =>
      obtain rfl := Except.ok.inj h
      rfl

variable [DecidableEq ι]

theorem holds_of_producer_eq (h : s'.producer = s.producer) (m : QueueMutex) :
    s'.holds m = Function.update (s.holds m) none (s'.consumer.holds m) := by
  funext t
  cases t with
  | none => rw [Function.update_self, holds]
  | some i => rw [Function.update_of_ne (by simp), holds, holds, h]

theorem consume_mutex (hready : s.consumer.ready s.muxQueue s.muxBlocking = true)
    (h : s.consume goesOn = .ok s') (m : QueueMutex) :
    MutexStep (s.locked m) (s.holds m) (s'.locked m) (s'.holds m) := by
  rw [holds_of_producer_eq (consume_drowsy h).1]
  apply mutexStep_update
  obtain ⟨deqQueue, muxQueue, muxBlocking, consumer, producer⟩ := s
  cases consumer with
  | popFront n =>
      cases deqQueue with
      | nil => simp [consume] at h
      | cons item rest =>
          obtain rfl := Except.ok.inj h
          cases m <;> simp [locked, holds, Consumer.holds]
  | waitUnlock isEmpty =>
      obtain rfl := Except.ok.inj h
      cases isEmpty with
      | true => cases m <;> simp [locked, holds, Consumer.holds]
      | false =>
          cases m with
          | queue => exact Or.inr (Or.inr ⟨rfl, rfl, holds_loop _ _⟩)
          | blocking => exact Or.inl ⟨rfl, holds_loop _ _⟩
  | loopUnlock n isEmpty =>
      obtain rfl := Except.ok.inj h
      cases m <;> cases isEmpty <;> simp [locked, holds, Consumer.holds]
  | handle n =>
      obtain rfl := Except.ok.inj h
      cases m <;> exact Or.inl ⟨rfl, holds_loop _ _⟩
  | waitLock | waitTest | blockingLock | blockingWait | asleep | woken | blockingUnlock
  | loopLock n | loopTest n | popLock n | popUnlock n =>
      obtain rfl := Except.ok.inj h
      cases m <;> simp_all [locked, holds, Consumer.holds, Consumer.ready]

/-! ### The producers -/

theorem holds_setProducer (h : s'.consumer.holds m = s.consumer.holds m)
    (hproducer : s'.producer = s.producer) :
    (s'.setProducer i p).holds m = Function.update (s.holds m) (some i) (p.holds m) := by
  funext t
  cases t with
  | none => rw [Function.update_of_ne (by simp), holds, holds, ← h, setProducer]
  | some j =>
      by_cases hj : j = i
      · subst hj
        simp [holds, setProducer]
      · rw [Function.update_of_ne (by simpa using hj)]
        simp [holds, setProducer, hj, hproducer]

theorem produce_mutex (hready : (s.producer i).ready s.muxQueue s.muxBlocking = true)
    (m : QueueMutex) :
    MutexStep (s.locked m) (s.holds m) ((s.produce i).locked m) ((s.produce i).holds m) := by
  rw [produce]
  cases hpc : s.producer i with
  | outside => exact .keep
  | notifyOne =>
      -- Neither in its sleep nor out of it does the consumer hold a mutex.
      have hwoken : (if s.consumer = .asleep then Consumer.woken else s.consumer).holds m =
          s.consumer.holds m := by
        split
        · next hasleep =>
            rw [hasleep]
            cases m <;> rfl
        · rfl
      dsimp only
      rw [holds_setProducer (s := s)]
      · apply mutexStep_update
        cases m <;> simp [locked, holds, hpc, Producer.holds, setProducer]
      · exact hwoken
      · rfl
  | queueLock item | pushBack item | blockingLock | blockingUnlock | queueUnlock =>
      rw [hpc] at hready
      dsimp only
      rw [holds_setProducer (s := s)]
      · apply mutexStep_update
        cases m <;> simp_all [locked, holds, Producer.holds, Producer.ready, setProducer]
      · rfl
      · rfl

theorem produce_deqQueue (s : TsQueue ι T) (i : ι) :
    (s.produce i).deqQueue = s.deqQueue ++ (s.producer i).pushing := by
  rw [produce]
  cases hpc : s.producer i <;> simp [setProducer, Producer.pushing]

theorem produce_producer_of_ne {j : ι} (hj : j ≠ i) (s : TsQueue ι T) :
    (s.produce i).producer j = s.producer j := by
  rw [produce]
  cases s.producer i <;> simp [setProducer, hj]

theorem produce_saw (hsaw : s.consumer.sawItem = true → s.deqQueue ≠ []) (i : ι) :
    (s.produce i).consumer.sawItem = true → (s.produce i).deqQueue ≠ [] := by
  rw [produce]
  split
  case h_3 => exact fun _ => by simp [setProducer]
  case h_5 =>
    dsimp only [setProducer]
    split
    · exact fun h => by simp [Consumer.sawItem] at h
    · exact hsaw
  all_goals exact hsaw

/-! ### The machine -/

abbrev TsQueueEvent (ι T : Type) := Event (TsQueue ι T) (TsQueueAction ι T) Unit

variable [DecidableEq T]

/-- What a step can be. -/
theorem takes_cases {e : TsQueueEvent ι T}
    (h : (queueMachine ι T goesOn).Takes e) :
    (e.act = .consume ∧ e.src.consumer.ready e.src.muxQueue e.src.muxBlocking = true ∧
      e.src.consume goesOn = .ok e.dst) ∨
    (e.act = .wake ∧ e.src.consumer = .asleep ∧ e.dst = { e.src with consumer := .woken }) ∨
    (∃ i item, e.act = .call i item ∧ e.src.producer i = .outside ∧
      e.dst = e.src.setProducer i (.queueLock item)) ∨
    ∃ i, e.act = .produce i ∧
      (e.src.producer i).ready e.src.muxQueue e.src.muxBlocking = true ∧
      e.dst = e.src.produce i := by
  obtain ⟨henabled, hstep⟩ := h
  cases hact : e.act with
  | consume =>
      rw [hact] at henabled hstep
      obtain ⟨t, ht, hret⟩ := bind_eq_ok.mp hstep
      obtain rfl : t = e.dst := (Prod.mk.inj (Except.ok.inj hret)).1
      exact Or.inl ⟨rfl, henabled, ht⟩
  | wake =>
      rw [hact] at henabled hstep
      exact Or.inr (Or.inl ⟨rfl, of_decide_eq_true henabled,
        (Prod.mk.inj (Except.ok.inj hstep)).1.symm⟩)
  | call i item =>
      rw [hact] at henabled hstep
      exact Or.inr (Or.inr (Or.inl ⟨i, item, rfl, of_decide_eq_true henabled,
        (Prod.mk.inj (Except.ok.inj hstep)).1.symm⟩))
  | produce i =>
      rw [hact] at henabled hstep
      exact Or.inr (Or.inr (Or.inr ⟨i, rfl, henabled,
        (Prod.mk.inj (Except.ok.inj hstep)).1.symm⟩))

theorem Orderly.takes {e : TsQueueEvent ι T} (h : e.src.Orderly)
    (htakes : (queueMachine ι T goesOn).Takes e) : e.dst.Orderly := by
  obtain ⟨-, hready, hstep⟩ | ⟨-, hasleep, hdst⟩ | ⟨i, item, -, houtside, hdst⟩ |
    ⟨i, -, hready, hdst⟩ := takes_cases htakes
  · exact ⟨fun m => (h.guards m).step (consume_mutex hready hstep m), consume_saw h.saw hstep⟩
  · rw [hdst]
    refine ⟨fun m => ?_, fun hsaw => by simp [Consumer.sawItem] at hsaw⟩
    have hsame : ({ e.src with consumer := .woken } : TsQueue ι T).holds m = e.src.holds m := by
      funext t
      cases t with
      | none => cases m <;> simp [holds, hasleep, Consumer.holds]
      | some i => rfl
    rw [hsame]
    exact h.guards m
  · rw [hdst]
    refine ⟨fun m => ?_, h.saw⟩
    rw [holds_setProducer (s := e.src) rfl rfl]
    apply (h.guards m).step
    apply mutexStep_update
    cases m <;> simp [locked, holds, houtside, Producer.holds, setProducer]
  · rw [hdst]
    exact ⟨fun m => (h.guards m).step (produce_mutex hready m), produce_saw h.saw i⟩

theorem orderly_of_run {tr : List (TsQueueEvent ι T)}
    (h : (queueMachine ι T goesOn).Run {} tr s) : s.Orderly :=
  h.invariant (I := Orderly) orderly_initial fun _ htakes hsrc => hsrc.takes htakes

/-! ### The order of the messages -/

/-- What a step takes from the queue. -/
def takenAt (e : TsQueueEvent ι T) : List T :=
  match e.act with
  | .consume => e.src.consumer.popped e.src.deqQueue
  | _ => []

/-- What a step pushes, and who pushes it. -/
def pushedAt (e : TsQueueEvent ι T) : List (ι × T) :=
  match e.act with
  | .produce i => (e.src.producer i).pushing.map fun item => (i, item)
  | _ => []

def calledAt (i : ι) (e : TsQueueEvent ι T) : List T :=
  match e.act with
  | .call j item => if j = i then [item] else []
  | _ => []

def taken (tr : List (TsQueueEvent ι T)) : List T := tr.flatMap takenAt

def pushes (tr : List (TsQueueEvent ι T)) : List (ι × T) := tr.flatMap pushedAt

/-- What `push_back` was called with by this producer. -/
def calls (i : ι) (tr : List (TsQueueEvent ι T)) : List T := tr.flatMap (calledAt i)

/-- The part of one producer. -/
def pushesOf (i : ι) (l : List (ι × T)) : List T :=
  (l.filter fun q => q.1 = i).map Prod.snd

theorem takes_queue {e : TsQueueEvent ι T} (htakes : (queueMachine ι T goesOn).Takes e) :
    takenAt e ++ e.dst.deqQueue = e.src.deqQueue ++ (pushedAt e).map Prod.snd := by
  obtain ⟨hact, -, hstep⟩ | ⟨hact, -, hdst⟩ | ⟨i, item, hact, -, hdst⟩ | ⟨i, hact, -, hdst⟩ :=
    takes_cases htakes
  · rw [takenAt, pushedAt, hact, List.map_nil, List.append_nil]
    exact consume_queue hstep
  · simp [takenAt, pushedAt, hact, hdst]
  · simp [takenAt, pushedAt, hact, hdst, setProducer]
  · simp [takenAt, pushedAt, hact, hdst, produce_deqQueue, Function.comp_def]

theorem takes_calls {e : TsQueueEvent ι T} (htakes : (queueMachine ι T goesOn).Takes e) (i : ι) :
    pushesOf i (pushedAt e) ++ (e.dst.producer i).unpushed =
      (e.src.producer i).unpushed ++ calledAt i e := by
  obtain ⟨hact, -, hstep⟩ | ⟨hact, -, hdst⟩ | ⟨j, item, hact, houtside, hdst⟩ |
    ⟨j, hact, -, hdst⟩ := takes_cases htakes
  · simp [pushesOf, pushedAt, calledAt, hact, (consume_drowsy hstep).1]
  · simp [pushesOf, pushedAt, calledAt, hact, hdst]
  · by_cases hj : j = i
    · subst hj
      simp [pushesOf, pushedAt, calledAt, hact, hdst, setProducer, houtside, Producer.unpushed]
    · simp [pushesOf, pushedAt, calledAt, hact, hdst, setProducer, hj, Ne.symm hj]
  · by_cases hj : j = i
    · subst hj
      rw [pushedAt, calledAt, hact, hdst, produce]
      cases hpc : e.src.producer j <;>
        simp [pushesOf, setProducer, hpc, Producer.pushing, Producer.unpushed]
    · rw [hdst, produce_producer_of_ne (Ne.symm hj)]
      simp [pushesOf, pushedAt, calledAt, hact, hj]

section

variable {tr : List (TsQueueEvent ι T)}

theorem taken_append (h : (queueMachine ι T goesOn).Run {} tr s) :
    taken tr ++ s.deqQueue = (pushes tr).map Prod.snd := by
  rw [taken, pushes, List.map_flatMap]
  exact h.queue (q := deqQueue) fun _ htakes => takes_queue htakes

theorem pushes_append (h : (queueMachine ι T goesOn).Run {} tr s) (i : ι) :
    pushesOf i (pushes tr) ++ (s.producer i).unpushed = calls i tr := by
  rw [pushesOf, pushes, List.filter_flatMap, List.map_flatMap]
  exact h.queue (q := fun s => (s.producer i).unpushed) fun _ htakes => takes_calls htakes i

/-- **The threads of the queue.** In every run: one thread at most is between
the lock and the unlock of each mutex; `pop_front` never finds the queue
empty; what was taken, and then what is queued, is what was pushed, and each
producer pushes in the order of its calls; and when no thread can go on, the
consumer sleeps and no producer is inside `push_back`. -/
theorem queue_threads (h : (queueMachine ι T goesOn).Run {} tr s) :
    (∀ m t u, s.holds m t = true → s.holds m u = true → t = u) ∧
    (∀ act fault, (queueMachine ι T goesOn).step s act ≠ .error fault) ∧
    taken tr ++ s.deqQueue = (pushes tr).map Prod.snd ∧
    (∀ i, pushesOf i (pushes tr) ++ (s.producer i).unpushed = calls i tr) ∧
    (s.AtRest ↔ s.consumer = .asleep ∧ ∀ i, s.producer i = .outside) := by
  have horderly := orderly_of_run h
  refine ⟨fun m => (horderly.guards m).unique, fun act fault => ?_, taken_append h,
    pushes_append h, horderly.atRest_iff⟩
  cases act with
  | consume =>
      intro herror
      exact horderly.consume_ne_error fault (bind_eq_error (fun t => ⟨_, rfl⟩) herror)
  | wake | call i item | produce i => exact fun herror => by cases herror

/-- Two producers; the second waits for the mutex that the first one has. -/
theorem queue_threads_two :
    ∃ tr s, (queueMachine Bool ℕ handleNetworkingGoesOn).Run {} tr s ∧
      s.holds .queue (some true) = true ∧ s.producer false = .queueLock 8 ∧
      taken tr ++ s.deqQueue = [7] ∧
      pushesOf false (pushes tr) ++ (s.producer false).unpushed = calls false tr := by
  have hexec : (((queueMachine Bool ℕ handleNetworkingGoesOn).exec {}
      [.call true 7, .produce true, .call false 8, .produce true]).map fun r =>
      (r.2.holds .queue (some true), r.2.producer false, pushes r.1)) =
        some (true, .queueLock 8, [(true, 7)]) := by
    decide +kernel
  obtain ⟨⟨tr, s⟩, hrun, hview⟩ := Option.map_eq_some_iff.mp hexec
  obtain ⟨hholds, hrest⟩ := Prod.mk.inj hview
  obtain ⟨hwaits, hpushes⟩ : s.producer false = .queueLock 8 ∧ pushes tr = [(true, 7)] :=
    Prod.mk.inj hrest
  have hrun' := Machine.run_of_exec hrun
  obtain ⟨-, -, htaken, hcalls, -⟩ := queue_threads hrun'
  exact ⟨tr, s, hrun', hholds, hwaits, by rw [htaken, hpushes]; rfl, hcalls false⟩

end

end TsQueue

end AmongUs.Networking
