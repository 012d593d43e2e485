import AmongUs.Server.Broadcast
import AmongUs.Server.Heartbeat

/-!
How often `OnClientDisconnect` is called for a client.

Two paths report a lost client. The heartbeat gives up on it and erases its
timer; a broadcast finds its socket closed and erases its connection. Each
path needs the entry that it erases, and an accept brings one of each, so
either path reports a client at most once (`Balanced`). Neither erases the
entry of the other, so a client is reported twice when both come to it. A
run reports every client at most once if and only if the heartbeat gives up
only on clients that have a connection left, and broadcasts find closed only
sockets of clients that have a timer left (`notified_once_iff`).
-/

namespace AmongUs

open Networking Transition

namespace Standing

/-- The next tick of the client gives up on it. -/
def GivesUp (K : Constants) (v : Standing) : Prop :=
  ∃ e ∈ v.entry, e.1 = .waiting ∧ K.maxTimeClientAccept < e.2 ∨
    e.1 = .live ∧ K.maxFailPings < e.2

instance (K : Constants) (v : Standing) : Decidable (v.GivesUp K) :=
  inferInstanceAs (Decidable (∃ e ∈ v.entry, _))

/-- The heartbeat reports the client. -/
def timesOut (K : Constants) (v : Standing) : Change → Bool
  | .ticked => decide (v.GivesUp K)
  | _ => false

/-- A broadcast reports the client. -/
def isPruned (v : Standing) : Change → Bool
  | .pruned => v.registered && !v.isOpen
  | _ => false

/-- So many reports of either path, and the timer and the connection that
are left. -/
structure Balanced (v : Standing) (timeouts prunings : ℕ) : Prop where
  waits_le : v.waits ≤ 1
  timer_of_waits : 0 < v.waits → v.timer = true
  timeouts_add : timeouts + v.timer.toNat = v.entry.isSome.toNat
  prunings_add : prunings + v.registered.toNat = v.entry.isSome.toNat

end Standing

namespace Server

def notices (c : ℕ) (tr : Trace) : ℕ :=
  (tr.map fun e => e.out.count (.onClientDisconnect c)).sum

/-- The reports by the heartbeat. -/
def timeouts (c : ℕ) (tr : Trace) : ℕ := notices c (tr.filter fun e => e.act.ticks c)

/-- The reports by broadcasts. -/
def prunings (c : ℕ) (tr : Trace) : ℕ := notices c (tr.filter fun e => !e.act.ticks c)

/-- What the step reports was not reported before. -/
def NotifiesFirst (K : Constants) (s : Server) : Action → Prop
  | .tick c _ => (s.standing c).GivesUp K → c ∈ s.connectionsContainer
  | .onMessage _ msg _ =>
      msg.IsBroadcast →
        ∀ d ∈ s.connectionsContainer.ids, s.isOpen d = false → d ∈ s.timersContainer
  | _ => True

instance (K : Constants) (s : Server) : ∀ a, Decidable (s.NotifiesFirst K a)
  | .tick c _ => inferInstanceAs (Decidable ((s.standing c).GivesUp K → _))
  | .onMessage _ msg _ => inferInstanceAs (Decidable (msg.IsBroadcast → _))
  | .accept | .close _ => inferInstanceAs (Decidable True)

end Server

namespace Standing

variable {K : Constants} {v : Standing} {ch : Change} {m n : ℕ}

theorem balanced_blank : ({} : Standing).Balanced 0 0 where
  waits_le := Nat.zero_le _
  timer_of_waits h := absurd h (lt_irrefl 0)
  timeouts_add := rfl
  prunings_add := rfl

/-- A change of the entry alone. -/
theorem Balanced.entry {v w : Standing} (h : v.Balanced m n)
    (hentry : w.entry.isSome = v.entry.isSome) (hwaits : w.waits = v.waits)
    (htimer : w.timer = v.timer) (hreg : w.registered = v.registered) : w.Balanced m n where
  waits_le := hwaits ▸ h.waits_le
  timer_of_waits := by
    rw [hwaits, htimer]
    exact h.timer_of_waits
  timeouts_add := by
    rw [hentry, htimer]
    exact h.timeouts_add
  prunings_add := by
    rw [hentry, hreg]
    exact h.prunings_add

/-- A tick takes the one wait. It puts it back, or drops it, or gives up and
reports. -/
theorem Balanced.ticked (h : v.Balanced m n) (hwaits : 0 < v.waits) :
    (v.change K .ticked).Balanced (m + (decide (v.GivesUp K)).toNat) n := by
  have htimer := h.timer_of_waits hwaits
  obtain ⟨entry, waits, timer, registered, isOpen⟩ := v
  obtain rfl : waits = 1 := le_antisymm h.waits_le hwaits
  obtain rfl : timer = true := htimer
  have hgive {e : ConnectionStatus × ℕ} (h' : Standing.Balanced ⟨some e, 1, true, registered,
      isOpen⟩ m n) : (giveUp (expire ⟨some e, 1, true, registered, isOpen⟩)).Balanced (m + 1) n :=
    ⟨Nat.zero_le _, fun hpos => absurd hpos (lt_irrefl 0), h'.timeouts_add, h'.prunings_add⟩
  have hrearm {e : ConnectionStatus × ℕ} (count : ℕ) (h' : Standing.Balanced ⟨some e, 1, true,
      registered, isOpen⟩ m n) :
      (rearm (expire ⟨some e, 1, true, registered, isOpen⟩) count).Balanced m n :=
    h'.entry rfl rfl rfl rfl
  have hdrop {e : ConnectionStatus × ℕ} (h' : Standing.Balanced ⟨some e, 1, true, registered,
      isOpen⟩ m n) : (expire ⟨some e, 1, true, registered, isOpen⟩).Balanced m n :=
    ⟨Nat.zero_le _, fun _ => rfl, h'.timeouts_add, h'.prunings_add⟩
  cases entry with
  | none =>
      rw [decide_eq_false fun ⟨e, he, _⟩ => nomatch he]
      exact h
  | some entry =>
      obtain ⟨status, count⟩ := entry
      cases status with
      | waiting =>
          by_cases hcount : K.maxTimeClientAccept < count
          · simpa [change, GivesUp, switch, hcount] using hgive h
          · simpa [change, GivesUp, switch, hcount] using hrearm (count + 1) h
      | live =>
          by_cases hcount : K.maxFailPings < count
          · simpa [change, GivesUp, switch, hcount] using hgive h
          · simpa [change, GivesUp, switch, hcount] using hrearm (count + 1) h
      | dead =>
          rw [decide_eq_false (by simp [GivesUp])]
          exact hdrop h
      | unstable =>
          rw [decide_eq_false (by simp [GivesUp])]
          exact hdrop h

theorem Balanced.pruned (h : v.Balanced m n) :
    (v.change K .pruned).Balanced m (n + (v.registered && !v.isOpen).toNat) := by
  refine ⟨h.waits_le, h.timer_of_waits, h.timeouts_add, ?_⟩
  have hsum := h.prunings_add
  obtain ⟨entry, waits, timer, registered, isOpen⟩ := v
  cases registered with
  | false => simpa [change] using hsum
  | true => cases isOpen <;> simpa [change] using hsum

theorem Balanced.change (h : v.Balanced m n) (hoffers : v.Offers K ch) :
    (v.change K ch).Balanced (m + (v.timesOut K ch).toNat) (n + (v.isPruned ch).toNat) := by
  cases ch with
  | none => exact h
  | closed => exact h.entry rfl rfl rfl rfl
  | accepted =>
      obtain rfl : v = {} := hoffers
      obtain ⟨rfl, rfl⟩ : m = 0 ∧ n = 0 := ⟨h.timeouts_add, h.prunings_add⟩
      exact ⟨le_rfl, fun _ => rfl, rfl, rfl⟩
  | answered => exact h.entry (Eq.symm hoffers) rfl rfl rfl
  | pruned => exact h.pruned
  | ticked => exact h.ticked hoffers.1

theorem registered_of_isPruned (h : v.isPruned ch = true) : v.registered = true := by
  cases ch with
  | pruned =>
      rw [isPruned, Bool.and_eq_true] at h
      exact h.1
  | none | accepted | closed | answered | ticked => simp [isPruned] at h

theorem isPruned_of_timesOut (h : v.timesOut K ch = true) : v.isPruned ch = false := by
  cases ch with
  | ticked => rfl
  | none | accepted | closed | answered | pruned => simp [timesOut] at h

end Standing

namespace Server

variable {K : Constants} {J : JsonText} {s t : Server} {e : Event Server Action (List Effect)}
  {tr : Trace} {c : ℕ}

/-! ### Who reports -/

theorem notices_messageAllClients (s : Server) (msg : Message) (ignoreClient : Option ℕ) :
    (s.messageAllClients msg ignoreClient).2.count (.onClientDisconnect c) =
      ((s.standing c).isPruned .pruned).toNat := by
  have hnodes : (s.connectionsContainer.ids.map fun d => (d, some d)).countP
      (fun e => e.2 = some c) = s.connectionsContainer.ids.count c := by
    rw [List.countP_map, List.count]
    exact List.countP_congr fun d _ => by simp
  have hout : (s.messageAllClients msg ignoreClient).2 =
      (messageAllLoop s.isOpen msg ignoreClient s.connectionsContainer.ids).2 := rfl
  rw [hout, messageAllLoop_snd, count_onClientDisconnect, hnodes]
  by_cases hmem : c ∈ s.connectionsContainer.ids
  · rw [List.count_eq_one_of_mem s.connectionsContainer.nodup hmem]
    cases hopen : s.isOpen c <;>
      simp [Standing.isPruned, standing, Connections.mem_iff, hmem, hopen]
  · rw [List.count_eq_zero_of_not_mem hmem]
    simp [Standing.isPruned, standing, Connections.mem_iff, hmem]

theorem changeOf_of_isBroadcast {d : ℕ} {msg : Message} {timeNow : Int64}
    (h : msg.IsBroadcast) : s.changeOf (.onMessage d msg timeNow) c = .pruned := by
  rcases h with htype | htype <;>
    simp [changeOf, Message.IsAnswer, Message.IsBroadcast, htype]

theorem notices_onMessage {s s' : Server} {d : ℕ} {msg : Message} {timeNow : Int64}
    {effects : List Effect} (h : s.onMessage J d msg timeNow = .ok (s', effects)) :
    effects.count (.onClientDisconnect c) =
      ((s.standing c).isPruned (s.changeOf (.onMessage d msg timeNow) c)).toNat := by
  rcases onMessage_cases h with
    ⟨hans, _, _, _, rfl⟩ | ⟨htype, heq⟩ | ⟨htype, left, newMsgAll, _, _, _, _, heq⟩ |
      ⟨hans, hcast, _, rfl⟩
  · simp only [changeOf, hans, if_true, List.count_nil]
    split <;> rfl
  · rw [show effects = _ from congrArg Prod.snd heq, changeOf_of_isBroadcast (Or.inl htype)]
    exact notices_messageAllClients s _ _
  · have hout : effects =
        .send d { header := { type := .serverACK, id := left.header.id } } ::
          (s.messageAllClients newMsgAll (some d)).2 := congrArg Prod.snd heq
    rw [hout, changeOf_of_isBroadcast (Or.inr htype), List.count_cons_of_ne (by simp)]
    exact notices_messageAllClients s _ _
  · simp only [changeOf, hans, hcast, if_false]
    split <;> simp [Standing.isPruned]

theorem notices_giveUp {d : ℕ} :
    (s.giveUp d).2.count (.onClientDisconnect c) = if d = c then 1 else 0 := by
  have hdisconnect :
      (s.disconnect d).count (.onClientDisconnect c) = 0 := by
    rw [disconnect]
    split <;> simp
  have hout : (s.giveUp d).2 = .onClientDisconnect d :: s.disconnect d := rfl
  rw [hout, List.count_cons, hdisconnect]
  simp

theorem notices_tick {d : ℕ} {s' : Server} {entry : ClientStatus} {timeNow : Int64}
    {effects : List Effect} (hentry : s.clientStatus d = some entry)
    (h : (s.expire d).lockedSwitch K d entry.status entry.count timeNow = .ok (s', effects)) :
    effects.count (.onClientDisconnect c) =
      if d = c then (decide ((s.standing d).GivesUp K)).toNat else 0 := by
  have hstanding : (s.standing d).entry = some (entry.status, entry.count) :=
    entry_standing hentry
  rcases lockedSwitch_cases h with
    ⟨hgive, heq⟩ | ⟨hst, hcount, _, rfl⟩ | ⟨hst, hcount, _, _, rfl⟩ | ⟨hst, _, rfl⟩
  · rw [show effects = _ from congrArg Prod.snd heq, notices_giveUp]
    rcases hgive with ⟨hst, hcount⟩ | ⟨hst, hcount⟩
    · simp [Standing.GivesUp, hstanding, hst, hcount]
    · simp [Standing.GivesUp, hstanding, hst, hcount]
  · simp [Standing.GivesUp, hstanding, hst, hcount.not_gt]
  · simp [Standing.GivesUp, hstanding, hst, hcount.not_gt]
  · rcases hst with hst | hst
    · simp [Standing.GivesUp, hstanding, hst]
    · simp [Standing.GivesUp, hstanding, hst]

/-- What a step reports about a client. -/
theorem notices_step (h : (serverMachine K J).Takes e) (c : ℕ) :
    e.out.count (.onClientDisconnect c) =
      ((e.src.standing c).timesOut K (e.src.changeOf e.act c)).toNat +
        ((e.src.standing c).isPruned (e.src.changeOf e.act c)).toNat := by
  rcases takes_cases h with
    ⟨hact, heq⟩ | ⟨d, hact, _, _, hout⟩ | ⟨d, msg, timeNow, hact, _, hret⟩ |
      ⟨d, timeNow, entry, hact, _, hentry, hswitch⟩
  · rw [hact, show e.out = e.src.accept.2 from congrArg Prod.snd heq]
    simp only [changeOf]
    split <;> simp [accept, onClientConnect, Standing.timesOut, Standing.isPruned]
  · rw [hact, hout]
    simp only [changeOf]
    split <;> simp [Standing.timesOut, Standing.isPruned]
  · rw [hact, notices_onMessage hret]
    have hch : e.src.changeOf (.onMessage d msg timeNow) c ≠ .ticked := by
      rw [Ne, ← ticks_iff]
      simp [Action.ticks]
    cases hc : e.src.changeOf (.onMessage d msg timeNow) c with
    | ticked => exact absurd hc hch
    | none | accepted | closed | answered | pruned => simp [Standing.timesOut]
  · rw [hact, notices_tick hentry hswitch]
    by_cases hc : c = d
    · subst hc
      simp [changeOf, Standing.timesOut, Standing.isPruned]
    · simp [changeOf, hc, Ne.symm hc, Standing.timesOut, Standing.isPruned]

/-! ### The balance -/

theorem notices_append (tr tr' : Trace) :
    notices c (tr ++ tr') = notices c tr + notices c tr' := by
  simp [notices]

theorem notices_eq (c : ℕ) (tr : Trace) : notices c tr = timeouts c tr + prunings c tr := by
  induction tr with
  | nil => rfl
  | cons e tr ih =>
      have hcons (tr : Trace) :
          notices c (e :: tr) = e.out.count (.onClientDisconnect c) + notices c tr := rfl
      rw [timeouts, prunings] at ih ⊢
      cases hticks : e.act.ticks c <;> simp [hticks, hcons, ih] <;> omega

theorem timeouts_snoc (h : (serverMachine K J).Takes e) :
    timeouts c (tr ++ [e]) =
      timeouts c tr + ((e.src.standing c).timesOut K (e.src.changeOf e.act c)).toNat := by
  rw [timeouts, timeouts, List.filter_append, notices_append]
  refine congrArg (notices c (tr.filter fun e => e.act.ticks c) + ·) ?_
  cases hticks : e.act.ticks c with
  | true =>
      have hone := notices_step h c
      rw [ticks_iff.mp hticks] at hone ⊢
      simpa [hticks, notices, Standing.isPruned] using hone
  | false =>
      have hch : e.src.changeOf e.act c ≠ .ticked := by
        rw [Ne, ← ticks_iff, hticks]
        exact Bool.false_ne_true
      cases hc : e.src.changeOf e.act c with
      | ticked => exact absurd hc hch
      | none | accepted | closed | answered | pruned => simp [hticks, notices, Standing.timesOut]

theorem prunings_snoc (h : (serverMachine K J).Takes e) :
    prunings c (tr ++ [e]) =
      prunings c tr + ((e.src.standing c).isPruned (e.src.changeOf e.act c)).toNat := by
  have hall := notices_eq c (tr ++ [e])
  have hone : notices c [e] = e.out.count (.onClientDisconnect c) := by simp [notices]
  rw [notices_append, notices_eq c tr, timeouts_snoc h, hone, notices_step h c] at hall
  omega

theorem balanced_run (h : (serverMachine K J).Run initial tr t) (c : ℕ) :
    t.Numbered ∧ (t.standing c).Balanced (timeouts c tr) (prunings c tr) := by
  refine h.history (I := fun tr s =>
    s.Numbered ∧ (s.standing c).Balanced (timeouts c tr) (prunings c tr)) ?_ ?_
  · rw [standing_initial]
    exact ⟨numbered_initial, Standing.balanced_blank⟩
  · rintro tr e - htakes ⟨hnum, hbalanced⟩
    refine ⟨hnum.step htakes, ?_⟩
    rw [timeouts_snoc htakes, prunings_snoc htakes, standing_step htakes]
    exact hbalanced.change (offers_step hnum htakes c)

/-- Either path reports a client at most once. -/
theorem notices_path_le (h : (serverMachine K J).Run initial tr t) (c : ℕ) :
    timeouts c tr ≤ 1 ∧ prunings c tr ≤ 1 := by
  have hbalanced := (balanced_run h c).2
  have hone := Bool.toNat_le (t.standing c).entry.isSome
  have htimeouts := hbalanced.timeouts_add
  have hprunings := hbalanced.prunings_add
  omega

/-! ### Once -/

theorem notifiesFirst_iff {a : Action} : s.NotifiesFirst K a ↔ ∀ c,
    ((s.standing c).timesOut K (s.changeOf a c) = true → (s.standing c).registered = true) ∧
      ((s.standing c).isPruned (s.changeOf a c) = true → (s.standing c).timer = true) := by
  cases a with
  | accept =>
      refine iff_of_true trivial fun c => ?_
      simp only [changeOf]
      split <;> simp [Standing.timesOut, Standing.isPruned]
  | close d =>
      refine iff_of_true trivial fun c => ?_
      simp only [changeOf]
      split <;> simp [Standing.timesOut, Standing.isPruned]
  | tick d timeNow =>
      have hreg : (s.standing d).registered = true ↔ d ∈ s.connectionsContainer := by
        simp [standing]
      rw [NotifiesFirst, ← hreg]
      constructor
      · intro h c
        by_cases hc : c = d
        · subst hc
          simpa [changeOf, Standing.timesOut, Standing.isPruned] using h
        · simp [changeOf, hc, Standing.timesOut, Standing.isPruned]
      · intro h
        simpa [changeOf, Standing.timesOut, Standing.isPruned] using h d
  | onMessage d msg timeNow =>
      have hnot (c : ℕ) :
          (s.standing c).timesOut K (s.changeOf (.onMessage d msg timeNow) c) = false := by
        simp only [changeOf]
        split
        · split <;> rfl
        · split <;> rfl
      simp only [hnot, Bool.false_eq_true, false_implies, true_and]
      by_cases hcast : msg.IsBroadcast
      · have hch (c : ℕ) : s.changeOf (.onMessage d msg timeNow) c = .pruned :=
          changeOf_of_isBroadcast hcast
        simp only [NotifiesFirst, hch, Standing.isPruned, standing, Connections.mem_iff]
        simp [hcast]
      · have hpruned (c : ℕ) :
            (s.standing c).isPruned (s.changeOf (.onMessage d msg timeNow) c) = false := by
          simp only [changeOf, hcast, if_false]
          split
          · split <;> rfl
          · rfl
        simp [NotifiesFirst, hcast, hpruned]

/-- A step keeps the reports at one exactly when whoever reports finds the
entry of the other. -/
theorem notices_snoc_le_iff (h : (serverMachine K J).Run initial tr e.src)
    (htakes : (serverMachine K J).Takes e) (c : ℕ) :
    notices c (tr ++ [e]) ≤ 1 ↔ notices c tr ≤ 1 ∧
      ((e.src.standing c).timesOut K (e.src.changeOf e.act c) = true →
        (e.src.standing c).registered = true) ∧
      ((e.src.standing c).isPruned (e.src.changeOf e.act c) = true →
        (e.src.standing c).timer = true) := by
  obtain ⟨hnum, hbalanced⟩ := balanced_run h c
  have hoffers := offers_step hnum htakes c
  have htimer : (e.src.standing c).timesOut K (e.src.changeOf e.act c) = true →
      (e.src.standing c).timer = true := by
    intro hout
    cases hch : e.src.changeOf e.act c with
    | ticked =>
        rw [hch] at hoffers
        exact hbalanced.timer_of_waits hoffers.1
    | none | accepted | closed | answered | pruned => simp [hch, Standing.timesOut] at hout
  have hone := Bool.toNat_le (e.src.standing c).entry.isSome
  have htimeouts := hbalanced.timeouts_add
  have hprunings := hbalanced.prunings_add
  rw [notices_eq, notices_eq, timeouts_snoc htakes, prunings_snoc htakes]
  cases hout : (e.src.standing c).timesOut K (e.src.changeOf e.act c) with
  | true =>
      -- A tick does not prune, and its client has its timer.
      rw [htimer hout] at htimeouts
      rw [Standing.isPruned_of_timesOut hout]
      cases hr : (e.src.standing c).registered <;>
        simp only [hr, Bool.toNat_true, Bool.toNat_false] at htimeouts hprunings ⊢ <;> simp <;>
        omega
  | false =>
      cases hpruned : (e.src.standing c).isPruned (e.src.changeOf e.act c) with
      | true =>
          rw [Standing.registered_of_isPruned hpruned] at hprunings
          cases hv : (e.src.standing c).timer <;>
            simp only [hv, Bool.toNat_true, Bool.toNat_false] at htimeouts hprunings ⊢ <;> simp <;>
            omega
      | false => simp

/-- **Reported once.** A run reports every client at most once exactly when
the heartbeat gives up only on clients that have a connection, and no
broadcast finds a closed connection of a client that has lost its timer. -/
theorem notified_once_iff (h : (serverMachine K J).Run initial tr t) :
    (∀ c, t.Accepted c → notices c tr ≤ 1) ↔ ∀ e ∈ tr, e.src.NotifiesFirst K e.act := by
  have haccepted : (∀ c, t.Accepted c → notices c tr ≤ 1) ↔ ∀ c, notices c tr ≤ 1 := by
    refine ⟨fun hall c => ?_, fun hall c _ => hall c⟩
    by_cases hc : t.Accepted c
    · exact hall c hc
    · -- A client that was not accepted has no entry, so it was not reported.
      obtain ⟨hnum, hbalanced⟩ := balanced_run h c
      have htimeouts := hbalanced.timeouts_add
      have hprunings := hbalanced.prunings_add
      rw [hnum.fresh c hc] at htimeouts hprunings
      rw [notices_eq]
      exact (add_le_add (Nat.le.intro htimeouts) (Nat.le.intro hprunings)).trans (Nat.zero_le _)
  rw [haccepted]
  refine h.history (I := fun tr _ =>
    (∀ c, notices c tr ≤ 1) ↔ ∀ e ∈ tr, e.src.NotifiesFirst K e.act) ?_ ?_
  · simp [notices]
  · intro tr e hrun htakes ih
    have hsnoc : (∀ c, notices c (tr ++ [e]) ≤ 1) ↔
        (∀ c, notices c tr ≤ 1) ∧ e.src.NotifiesFirst K e.act := by
      rw [notifiesFirst_iff, ← forall_and]
      exact forall_congr' (notices_snoc_le_iff hrun htakes)
    rw [hsnoc, ih, List.forall_mem_append, List.forall_mem_singleton]

/-- The heartbeat gives up on a client after the last broadcast. -/
theorem notified_once_iff_given_up :
    ∃ tr t, (serverMachine constants .gameState1).Run initial tr t ∧
      notices 10001 tr = 1 ∧ ∀ c, t.Accepted c → notices c tr ≤ 1 := by
  have hexec : (((serverMachine constants .gameState1).exec initial
      [.accept, .accept, .tick 10001 0, .tick 10001 0,
        .onMessage 10002 { header := { type := .messageAll } } 0, .tick 10001 0,
        .close 10001]).map fun r =>
      (r.1.all fun e => decide (e.src.NotifiesFirst constants e.act), notices 10001 r.1)) =
        some (true, 1) := by
    decide +kernel
  obtain ⟨⟨tr, t⟩, hrun, hview⟩ := Option.map_eq_some_iff.mp hexec
  obtain ⟨hall, hcount⟩ := Prod.mk.inj hview
  refine ⟨tr, t, Machine.run_of_exec hrun, hcount,
    (notified_once_iff (Machine.run_of_exec hrun)).mpr fun e he => ?_⟩
  exact of_decide_eq_true (List.all_eq_true.mp hall e he)

/-- The heartbeat gives up on the first client, its socket is closed, and a
broadcast of the second one finds it. -/
theorem given_up_notified_twice :
    ¬∀ tr t, (serverMachine constants .gameState1).Run initial tr t →
      ∀ c, t.Accepted c → notices c tr ≤ 1 := by
  intro hall
  have hexec : (((serverMachine constants .gameState1).exec initial
      [.accept, .accept, .tick 10001 0, .tick 10001 0, .tick 10001 0, .close 10001,
        .onMessage 10002 { header := { type := .messageAll } } 0]).map fun r =>
      (notices 10001 r.1, decide (r.2.Accepted 10001))) = some (2, true) := by
    decide +kernel
  obtain ⟨⟨tr, t⟩, hrun, hview⟩ := Option.map_eq_some_iff.mp hexec
  obtain ⟨hcount, hacc⟩ : notices 10001 tr = 2 ∧ decide (t.Accepted 10001) = true :=
    Prod.mk.inj hview
  have hle := hall tr t (Machine.run_of_exec hrun) 10001 (of_decide_eq_true hacc)
  omega

end Server

end AmongUs
