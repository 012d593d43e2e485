import AmongUs.Networking.QueueThreads
import Mathlib.Algebra.BigOperators.Group.Finset.Piecewise
import Mathlib.Algebra.Order.BigOperators.Group.Finset

/-!
The queue comes to rest.

When `push_back` is not called again and the consumer does not wake up by
itself, the threads have only so many steps to go: each of them brings a
producer or the consumer nearer to its end, or takes a message (`potential`).
Then the consumer sleeps and the producers are outside.

What it has not taken by then depends on the last time that it could have
been woken up. Where that was a notification in the gap between the test and
the sleep, and only there, a message is left in the queue. The next
notification that does not fall into the gap makes up for all that were lost
(`comes_to_rest`).
-/

namespace AmongUs.Networking

open Transition

/-- How many steps the consumer takes at most before it sleeps or takes the next
message, as the queue is now. -/
def Consumer.rank (isEmpty : Bool) : Consumer → ℕ
  | .asleep => 0
  | .blockingWait => 1
  | .blockingLock => 2
  | .waitUnlock true => 3
  | .waitUnlock false => 6
  | .waitTest => if isEmpty then 4 else 7
  | .waitLock => if isEmpty then 5 else 8
  | .blockingUnlock => if isEmpty then 6 else 9
  | .woken => if isEmpty then 7 else 10
  | .loopLock _ => if isEmpty then 8 else 5
  | .loopTest _ => if isEmpty then 7 else 4
  | .loopUnlock _ true => if isEmpty then 6 else 9
  | .loopUnlock _ false => 3
  | .popLock _ => 2
  | .popFront _ => 1
  | .popUnlock _ => 10
  | .handle _ => 9

/-- A push and a notification pay for the steps of the consumer. -/
def Producer.rank {T : Type} : Producer T → ℕ
  | .outside => 0
  | .queueUnlock => 1
  | .blockingUnlock => 2
  | .notifyOne => 13
  | .blockingLock => 14
  | .pushBack _ => 35
  | .queueLock _ => 36

/-- The threads go on by themselves. -/
def TsQueueAction.IsOwn {ι T : Type} : TsQueueAction ι T → Prop
  | .consume => True
  | .produce _ => True
  | _ => False

namespace TsQueue

variable {ι T : Type} {s s' : TsQueue ι T} {goesOn : ℕ → Bool} {A : Finset ι}

/-- The steps that are left, where only these producers are inside. -/
def potential (A : Finset ι) (s : TsQueue ι T) : ℕ :=
  ∑ i ∈ A, (s.producer i).rank +
    (10 * s.deqQueue.length + s.consumer.rank s.deqQueue.isEmpty)

def OnlyInside (A : Finset ι) (s : TsQueue ι T) : Prop := ∀ i ∉ A, s.producer i = .outside

/-- The consumer could be woken up here. -/
def Signals (s : TsQueue ι T) : TsQueueAction ι T → Prop
  | .wake => True
  | .produce i => s.producer i = .notifyOne
  | _ => False

/-- The last time that it could have been, it was about to sleep. -/
def EndsInGap (tr : List (TsQueueEvent ι T)) : Prop :=
  ∃ pre e post, tr = pre ++ e :: post ∧ e.src.NotifiesInGap e.act ∧
    ∀ e' ∈ post, ¬e'.src.Signals e'.act

/-! ### How long the threads go on -/

theorem rank_le (isEmpty : Bool) (c : Consumer) : c.rank isEmpty ≤ 10 := by
  cases c with
  | waitUnlock e | loopUnlock n e => cases e <;> cases isEmpty <;> simp [Consumer.rank]
  | _ => cases isEmpty <;> simp [Consumer.rank]

theorem rank_loop_le (isEmpty : Bool) (n : ℕ) : (Consumer.loop goesOn n).rank isEmpty ≤ 8 := by
  rw [Consumer.loop]
  split <;> cases isEmpty <;> simp [Consumer.rank]

theorem consume_rank (hgoes : goesOn 0 = true) (hsaw : s.consumer.sawItem = true → s.deqQueue ≠ [])
    (hready : s.consumer.ready s.muxQueue s.muxBlocking = true) (h : s.consume goesOn = .ok s') :
    10 * s'.deqQueue.length + s'.consumer.rank s'.deqQueue.isEmpty <
      10 * s.deqQueue.length + s.consumer.rank s.deqQueue.isEmpty := by
  obtain ⟨deqQueue, muxQueue, muxBlocking, consumer, producer⟩ := s
  cases consumer with
  | asleep => cases hready
  | popFront n =>
      cases deqQueue with
      | nil => cases h
      | cons item rest =>
          obtain rfl := Except.ok.inj h
          simp only [Consumer.rank, List.length_cons]
          omega
  | waitUnlock isEmpty =>
      obtain rfl := Except.ok.inj h
      cases isEmpty with
      | true => simp [Consumer.rank]
      | false =>
          -- What it has seen is still there, and the loop takes it.
          have hqueue : deqQueue.isEmpty = false := by
            simpa [Consumer.sawItem, List.isEmpty_eq_false_iff] using hsaw
          simp [Consumer.rank, Consumer.loop, hgoes, hqueue]
  | loopUnlock n isEmpty =>
      obtain rfl := Except.ok.inj h
      cases isEmpty <;> cases deqQueue <;> simp [Consumer.rank]
  | handle n =>
      obtain rfl := Except.ok.inj h
      exact Nat.add_lt_add_left (Nat.lt_succ_of_le (rank_loop_le deqQueue.isEmpty (n + 1))) _
  | waitLock | waitTest | blockingLock | blockingWait | woken | blockingUnlock
  | loopLock n | loopTest n | popLock n | popUnlock n =>
      obtain rfl := Except.ok.inj h
      cases deqQueue <;> simp [Consumer.rank]

variable [DecidableEq ι]

theorem sum_rank_setProducer {i : ι} (hi : i ∈ A) (s : TsQueue ι T) (p : Producer T) :
    ∑ j ∈ A, ((s.setProducer i p).producer j).rank + (s.producer i).rank =
      ∑ j ∈ A, (s.producer j).rank + p.rank := by
  have hupdate : (fun j => ((s.setProducer i p).producer j).rank) =
      Function.update (fun j => (s.producer j).rank) i p.rank := by
    funext j
    by_cases hj : j = i
    · subst hj
      simp [setProducer]
    · simp [setProducer, hj]
  rw [hupdate, Finset.sum_update_of_mem hi, Finset.sdiff_singleton_eq_erase,
    ← Finset.add_sum_erase A (fun j => (s.producer j).rank) hi]
  ring

/-- A step of one producer, and what else it does. -/
theorem potential_setProducer_lt {i : ι} (hi : i ∈ A) {p : Producer T}
    (hproducer : s'.producer = s.producer)
    (hcost : potential A s' + p.rank < potential A s + (s.producer i).rank) :
    potential A (s'.setProducer i p) < potential A s := by
  have hsum := sum_rank_setProducer hi s' p
  rw [potential, hproducer] at hcost
  rw [hproducer] at hsum
  have hrest : potential A (s'.setProducer i p) =
      ∑ j ∈ A, ((s'.setProducer i p).producer j).rank +
        (10 * s'.deqQueue.length + s'.consumer.rank s'.deqQueue.isEmpty) := rfl
  omega

theorem produce_potential {i : ι} (hi : i ∈ A)
    (hready : (s.producer i).ready s.muxQueue s.muxBlocking = true) :
    potential A (s.produce i) < potential A s := by
  rw [produce]
  cases hpc : s.producer i with
  | outside => simp [hpc, Producer.ready] at hready
  | pushBack item =>
      have hrank := rank_le (s.deqQueue ++ [item]).isEmpty s.consumer
      refine potential_setProducer_lt (s := s) hi rfl ?_
      simp only [potential, hpc, Producer.rank, List.length_append, List.length_singleton]
      omega
  | notifyOne =>
      refine potential_setProducer_lt (s := s) hi rfl ?_
      simp only [potential, hpc, Producer.rank]
      split
      · have hrank := rank_le s.deqQueue.isEmpty .woken
        omega
      · omega
  | queueLock | blockingLock | blockingUnlock | queueUnlock =>
      refine potential_setProducer_lt (s := s) hi rfl ?_
      rw [hpc]
      exact Nat.add_lt_add_left (by simp [Producer.rank]) _

theorem OnlyInside.produce (h : s.OnlyInside A) (i : ι) : (s.produce i).OnlyInside A := by
  intro j hj
  by_cases hi : j = i
  · subst hi
    rw [TsQueue.produce, h j hj]
    exact h j hj
  · rw [produce_producer_of_ne hi, h j hj]

variable [DecidableEq T] {e : TsQueueEvent ι T} {tr : List (TsQueueEvent ι T)}

/-- A step of a thread brings all of them nearer to their rest. -/
theorem own_step (hgoes : goesOn 0 = true) (htakes : (queueMachine ι T goesOn).Takes e)
    (hown : e.act.IsOwn) (horderly : e.src.Orderly) (hinside : e.src.OnlyInside A) :
    e.dst.OnlyInside A ∧ potential A e.dst < potential A e.src := by
  obtain ⟨hact, hready, hstep⟩ | ⟨hact, -, -⟩ | ⟨i, item, hact, -, -⟩ | ⟨i, hact, hready, hdst⟩ :=
    takes_cases htakes
  · have hproducer := (consume_drowsy hstep).1
    refine ⟨fun i hi => ?_, ?_⟩
    · rw [hproducer, hinside i hi]
    · rw [potential, potential, hproducer]
      exact Nat.add_lt_add_left (consume_rank hgoes horderly.saw hready hstep) _
  · rw [hact] at hown
    cases hown
  · rw [hact] at hown
    cases hown
  · rw [hdst]
    refine ⟨hinside.produce i, produce_potential ?_ hready⟩
    by_contra hi
    rw [hinside i hi, Producer.ready] at hready
    cases hready

theorem exists_onlyInside (h : (queueMachine ι T goesOn).Run {} tr s) :
    ∃ A : Finset ι, s.OnlyInside A := by
  apply h.invariant (I := fun s => ∃ A : Finset ι, s.OnlyInside A)
  · exact ⟨∅, fun i _ => rfl⟩
  · rintro e htakes ⟨A, hinside⟩
    obtain ⟨-, -, hstep⟩ | ⟨-, -, hdst⟩ | ⟨i, item, -, -, hdst⟩ | ⟨i, -, -, hdst⟩ :=
      takes_cases htakes
    · refine ⟨A, fun i hi => ?_⟩
      rw [(consume_drowsy hstep).1, hinside i hi]
    · rw [hdst]
      exact ⟨A, hinside⟩
    · rw [hdst]
      refine ⟨insert i A, fun j hj => ?_⟩
      rw [Finset.mem_insert, not_or] at hj
      simpa [setProducer, hj.1] using hinside j hj.2
    · rw [hdst]
      exact ⟨A, hinside.produce i⟩

theorem own_steps_bounded (hgoes : goesOn 0 = true)
    (h : (queueMachine ι T goesOn).Run {} tr s) :
    ∃ N, ∀ tr' t, (queueMachine ι T goesOn).Run s tr' t → (∀ e ∈ tr', e.act.IsOwn) →
      tr'.length ≤ N := by
  obtain ⟨A, hinside⟩ := exists_onlyInside h
  refine ⟨potential A s, fun tr' t hrun hown => ?_⟩
  have hlength := hrun.length_add_le (I := fun s => s.Orderly ∧ s.OnlyInside A)
    (Φ := potential A) (g := fun e => e.act.IsOwn) ⟨orderly_of_run h, hinside⟩ hown
    fun e htakes hown ⟨horderly, hsrc⟩ => by
      obtain ⟨hdst, hless⟩ := own_step hgoes htakes hown horderly hsrc
      exact ⟨⟨horderly.takes htakes, hdst⟩, hless⟩
  exact Nat.le_of_add_right_le hlength.2

/-! ### What is left behind -/

/-- While a producer is on its way to notify, what it has pushed is there. -/
theorem notifying_takes (horderly : e.src.Orderly) (htakes : (queueMachine ι T goesOn).Takes e)
    (h : e.src.Notifying → e.src.deqQueue ≠ []) : e.dst.Notifying → e.dst.deqQueue ≠ [] := by
  obtain ⟨-, -, hstep⟩ | ⟨-, -, hdst⟩ | ⟨i, item, -, -, hdst⟩ | ⟨i, -, -, hdst⟩ :=
    takes_cases htakes
  · intro hnotifying
    rw [Notifying, (consume_drowsy hstep).1] at hnotifying
    -- The producer has the mutex, so the consumer does not take anything.
    have hnothing : e.src.consumer.popped e.src.deqQueue = [] := by
      obtain ⟨i, hi⟩ := hnotifying
      have hholds : e.src.holds .queue (some i) = true := by
        rcases hi with hi | hi <;> rw [holds, hi] <;> rfl
      have hnot : e.src.holds .queue none ≠ true := fun hconsumer =>
        absurd ((horderly.guards .queue).unique _ _ hconsumer hholds) (by simp)
      rw [holds] at hnot
      generalize e.src.consumer = c at hnot
      cases c with
      | popFront n => exact absurd rfl hnot
      | _ => rfl
    have hqueue := consume_queue hstep
    rw [hnothing, List.nil_append] at hqueue
    rw [hqueue]
    exact h hnotifying
  · rw [hdst]
    exact h
  · rw [hdst]
    rintro ⟨j, hj⟩
    apply h
    by_cases hi : j = i
    · subst hi
      simp [setProducer] at hj
    · exact ⟨j, by simpa [setProducer, hi] using hj⟩
  · rw [hdst, produce_deqQueue]
    rintro ⟨j, hj⟩
    by_cases hi : j = i
    · subst hi
      rw [produce] at hj
      cases hpc : e.src.producer j with
      | pushBack item => simp [Producer.pushing]
      | blockingLock =>
          exact List.append_ne_nil_of_left_ne_nil (h ⟨j, Or.inl hpc⟩) _
      | outside | queueLock | notifyOne | blockingUnlock | queueUnlock =>
          simp [hpc, setProducer] at hj
    · rw [produce_producer_of_ne hi] at hj
      exact List.append_ne_nil_of_left_ne_nil (h ⟨j, hj⟩) _

theorem notifying_of_run (h : (queueMachine ι T goesOn).Run {} tr s) :
    s.Notifying → s.deqQueue ≠ [] := by
  have hboth := h.invariant (I := fun s => s.Orderly ∧ (s.Notifying → s.deqQueue ≠ []))
    ⟨orderly_initial, fun ⟨i, hi⟩ => by simp at hi⟩
    fun e htakes ⟨horderly, hsrc⟩ =>
      ⟨horderly.takes htakes, notifying_takes horderly htakes hsrc⟩
  exact hboth.2

/-- Nothing but a signal ends the sleep. -/
theorem drowsy_takes (htakes : (queueMachine ι T goesOn).Takes e)
    (hquiet : ¬e.src.Signals e.act) (h : e.src.Drowsy ∧ e.src.deqQueue ≠ []) :
    e.dst.Drowsy ∧ e.dst.deqQueue ≠ [] := by
  obtain ⟨-, hready, hstep⟩ | ⟨hact, -, -⟩ | ⟨i, item, -, -, hdst⟩ | ⟨i, hact, -, hdst⟩ :=
    takes_cases htakes
  · have hdrowsy : e.dst.Drowsy := by
      generalize e.src = s at *
      obtain ⟨deqQueue, muxQueue, muxBlocking, consumer, producer⟩ := s
      cases consumer with
      | asleep => cases hready
      | waitUnlock isEmpty =>
          cases isEmpty with
          | true =>
              rw [← Except.ok.inj hstep]
              exact Or.inl rfl
          | false => simp [Drowsy, Consumer.aboutToSleep] at h
      | blockingLock | blockingWait =>
          rw [← Except.ok.inj hstep]
          simp [Drowsy, Consumer.aboutToSleep]
      | _ => simp [Drowsy, Consumer.aboutToSleep] at h
    rw [((consume_drowsy hstep).2 hdrowsy).1]
    exact ⟨hdrowsy, h.2⟩
  · rw [hact] at hquiet
    exact absurd trivial hquiet
  · rw [hdst]
    exact h
  · rw [hact] at hquiet
    rw [hdst, produce_deqQueue]
    refine ⟨?_, List.append_ne_nil_of_left_ne_nil h.2 _⟩
    have hsame : (e.src.produce i).consumer = e.src.consumer := by
      rw [produce]
      cases hpc : e.src.producer i with
      | notifyOne => exact absurd hpc hquiet
      | _ => rfl
    rw [Drowsy, hsame]
    exact h.1

/-- After a signal that is not lost the consumer is awake. -/
theorem not_drowsy_of_signals (htakes : (queueMachine ι T goesOn).Takes e)
    (hsignals : e.src.Signals e.act) (hgap : ¬e.src.NotifiesInGap e.act) : ¬e.dst.Drowsy := by
  obtain ⟨hact, -, -⟩ | ⟨-, -, hdst⟩ | ⟨i, item, hact, -, -⟩ | ⟨i, hact, -, hdst⟩ :=
    takes_cases htakes
  · rw [hact] at hsignals
    cases hsignals
  · rw [hdst]
    simp [Drowsy, Consumer.aboutToSleep]
  · rw [hact] at hsignals
    cases hsignals
  · rw [hact] at hsignals hgap
    have hpc : e.src.producer i = .notifyOne := hsignals
    have hawake : e.src.consumer.aboutToSleep = false := by
      simpa [NotifiesInGap, hpc] using hgap
    rw [hdst, produce, hpc]
    by_cases hasleep : e.src.consumer = .asleep
    · simp [Drowsy, setProducer, hasleep, Consumer.aboutToSleep]
    · simp [Drowsy, setProducer, hasleep, hawake]

theorem awaited_or_endsInGap (h : (queueMachine ι T goesOn).Run {} tr s) :
    s.Awaited ∨ EndsInGap tr := by
  apply h.history (I := fun tr s => s.Awaited ∨ EndsInGap tr)
  · exact Or.inl fun _ hnil => absurd rfl hnil
  · intro tr e _ htakes hsrc
    by_cases hgap : e.src.NotifiesInGap e.act
    · exact Or.inr ⟨tr, e, [], rfl, hgap, by simp⟩
    by_cases hsignals : e.src.Signals e.act
    · exact Or.inl fun hdrowsy => absurd hdrowsy (not_drowsy_of_signals htakes hsignals hgap)
    rcases hsrc with hawaited | ⟨pre, e', post, rfl, hgap', hpost⟩
    · exact Or.inl (hawaited.step htakes hgap)
    · refine Or.inr ⟨pre, e', post ++ [e], by simp, hgap', fun e'' he'' => ?_⟩
      rcases List.mem_append.mp he'' with he'' | he''
      · exact hpost e'' he''
      · rwa [List.mem_singleton.mp he'']

theorem drowsy_of_endsInGap (h : (queueMachine ι T goesOn).Run {} tr s) (hends : EndsInGap tr) :
    s.deqQueue ≠ [] := by
  obtain ⟨pre, e, post, rfl, hgap, hpost⟩ := hends
  obtain ⟨hpre, htakes, hrest⟩ := h.split
  have hdst : e.dst.Drowsy ∧ e.dst.deqQueue ≠ [] := by
    cases hact : e.act with
    | produce i =>
        rw [hact] at hgap
        obtain ⟨hpc, hdrowsy⟩ := hgap
        have hqueue := notifying_of_run hpre ⟨i, Or.inr hpc⟩
        obtain ⟨hact', -, -⟩ | ⟨hact', -, -⟩ | ⟨j, item, hact', -, -⟩ | ⟨j, hact', -, hdst⟩ :=
          takes_cases htakes
        · simp [hact] at hact'
        · simp [hact] at hact'
        · simp [hact] at hact'
        · obtain rfl : i = j := by simpa [hact] using hact'
          have hnot : e.src.consumer ≠ .asleep := by
            intro hasleep
            simp [hasleep, Consumer.aboutToSleep] at hdrowsy
          rw [hdst, produce, hpc]
          exact ⟨Or.inl (by simpa [setProducer, hnot] using hdrowsy), hqueue⟩
    | consume | wake | call => simp [hact, NotifiesInGap] at hgap
  exact (hrest.visited_invariant (I := fun s => s.Drowsy ∧ s.deqQueue ≠ [])
    (g := fun s a => ¬s.Signals a) hdst hpost
    (fun e htakes hquiet hsrc => drowsy_takes htakes hquiet hsrc) s hrest.end_mem_visited).2

/-- **The queue comes to rest.** The loop takes a message at least. From every
state that is reached, the threads have a bounded number of steps to go, in
whatever order they take them, while `push_back` is not called again and the
consumer does not wake up by itself. Where they have come to rest, every
call has pushed; and a message is left in the queue exactly if the last time
that the consumer could have been woken up it was about to sleep. -/
theorem comes_to_rest (hgoes : goesOn 0 = true)
    (h : (queueMachine ι T goesOn).Run {} tr s) :
    (∃ N, ∀ tr' t, (queueMachine ι T goesOn).Run s tr' t → (∀ e ∈ tr', e.act.IsOwn) →
      tr'.length ≤ N) ∧
    (s.AtRest → (∀ i, pushesOf i (pushes tr) = calls i tr) ∧
      taken tr ++ s.deqQueue = (pushes tr).map Prod.snd ∧
      (s.deqQueue ≠ [] ↔ EndsInGap tr)) := by
  refine ⟨own_steps_bounded hgoes h, fun hrest => ?_⟩
  obtain ⟨hasleep, houtside⟩ := (orderly_of_run h).atRest_iff.mp hrest
  refine ⟨fun i => ?_, taken_append h, fun hqueue => ?_, drowsy_of_endsInGap h⟩
  · have hcalls := pushes_append h i
    simpa [houtside i, Producer.unpushed] using hcalls
  · refine (awaited_or_endsInGap h).resolve_left fun hawaited => ?_
    obtain ⟨i, hi⟩ := hawaited (Or.inr hasleep) hqueue
    simp [houtside i] at hi

/-- The notification for the first message is lost, the one for the second
is not. -/
theorem comes_to_rest_two :
    ∃ tr s, (queueMachine Unit ℕ handleNetworkingGoesOn).Run {} tr s ∧ s.AtRest ∧
      calls () tr = [7, 8] ∧ taken tr = [7, 8] ∧ ¬EndsInGap tr := by
  have hexec : (((queueMachine Unit ℕ handleNetworkingGoesOn).exec {}
      ([.consume, .consume, .consume, .call () 7] ++ List.replicate 6 (.produce ()) ++
        [.consume, .consume, .call () 8] ++ List.replicate 6 (.produce ()) ++
        List.replicate 27 .consume)).map fun r =>
      (r.2.consumer, r.2.producer (), r.2.deqQueue, calls () r.1, taken r.1)) =
        some (.asleep, .outside, [], [7, 8], [7, 8]) := by
    decide +kernel
  obtain ⟨⟨tr, s⟩, hrun, hview⟩ := Option.map_eq_some_iff.mp hexec
  obtain ⟨hasleep, houtside, hqueue, hcalls, htaken⟩ :
      s.consumer = .asleep ∧ s.producer () = .outside ∧ s.deqQueue = [] ∧
        calls () tr = [7, 8] ∧ taken tr = [7, 8] := by
    simpa using hview
  have hrun' := Machine.run_of_exec hrun
  have hrest : s.AtRest := by
    refine ⟨?_, fun i => ?_⟩
    · rw [hasleep, Consumer.ready]
    · rw [houtside, Producer.ready]
  obtain ⟨-, -, hends⟩ := (comes_to_rest rfl hrun').2 hrest
  exact ⟨tr, s, hrun', hrest, hcalls, htaken, fun h => hends.mpr h hqueue⟩

end TsQueue

end AmongUs.Networking
