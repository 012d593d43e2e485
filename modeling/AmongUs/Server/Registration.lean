import AmongUs.Server.Standing

/-!
Whether the heartbeat finds the connection it pings.

`checkClientConnStatus` looks the connection up by its identifier, and
`MessageAllClients` erases the connections whose sockets are closed without
telling the heartbeat. So a tick can reach `pingClient` with no entry in the
container, where the lookup inserts a null pointer and calls through it.
Two steps lead there: a broadcast while a client that is about to be pinged
has a closed socket, and an answer of a client that a broadcast has already
erased. A run stays clear of the null pointer if and only if it takes none
of these (`pingSafe_iff`).
-/

namespace AmongUs

open Networking Transition

namespace Standing

/-- The next tick of the client reaches `pingClient`. -/
def AwaitsPing (K : Constants) (v : Standing) : Prop :=
  0 < v.waits ∧ ∃ count ≤ K.maxFailPings, v.entry = some (.live, count)

def PingSafe (K : Constants) (v : Standing) : Prop := v.AwaitsPing K → v.registered = true

end Standing

namespace Server

/-- The next tick of the client reaches `pingClient`. -/
def AwaitsPing (K : Constants) (s : Server) (c : ℕ) : Prop :=
  c ∈ s.waits ∧
    ∃ entry, s.clientStatus c = some entry ∧ entry.status = .live ∧
      entry.count ≤ K.maxFailPings

/-- No tick that can come now calls through a null pointer. -/
def PingSafe (K : Constants) (s : Server) : Prop :=
  ∀ c ∈ s.waits, ∀ timeNow,
    (s.expire c).checkClientConnStatus K c timeNow ≠ .error .nullPointer

/-- No broadcast while the socket of a client about to be pinged is closed,
and no answer of a client that has a timer but no connection. -/
def KeepsRegistered (K : Constants) (s : Server) : Action → Prop
  | .onMessage c msg _ =>
      (msg.IsBroadcast → ∀ d, s.AwaitsPing K d → s.isOpen d = true) ∧
      (msg.IsAnswer → c ∈ s.waits → c ∈ s.connectionsContainer)
  | _ => True

variable {K : Constants} {J : JsonText} {s t : Server} {e : Event Server Action (List Effect)}
  {tr : List (Event Server Action (List Effect))} {c : ℕ}

theorem awaitsPing_standing : (s.standing c).AwaitsPing K ↔ s.AwaitsPing K c := by
  simp only [Standing.AwaitsPing, AwaitsPing, standing, Multiset.count_pos]
  refine and_congr_right fun _ => ?_
  cases s.clientStatus c with
  | none => simp
  | some entry =>
      obtain ⟨status, count, dur⟩ := entry
      simp only [Option.map_some, Option.some.injEq, Prod.mk.injEq]
      constructor
      · rintro ⟨n, hn, rfl, rfl⟩
        exact ⟨_, rfl, rfl, hn⟩
      · rintro ⟨entry, rfl, hlive, hcount⟩
        exact ⟨count, hcount, hlive, rfl⟩

/-- A tick ends on the null pointer when it reaches `pingClient` and finds
no connection. -/
theorem tick_nullPointer_iff (hc : c ∈ s.waits) (timeNow : Int64) :
    (s.expire c).checkClientConnStatus K c timeNow = .error .nullPointer ↔
      s.AwaitsPing K c ∧ c ∉ s.connectionsContainer := by
  have hcont : (s.expire c).connectionsContainer = s.connectionsContainer := rfl
  have hstatus : (s.expire c).clientStatus = s.clientStatus := rfl
  cases hentry : s.clientStatus c with
  | none =>
      simp [checkClientConnStatus, readStatus, hstatus, hentry, AwaitsPing, bind, Except.bind]
  | some entry =>
      have hcheck : (s.expire c).checkClientConnStatus K c timeNow =
          (s.expire c).lockedSwitch K c entry.status entry.count timeNow := by
        simp [checkClientConnStatus, readStatus, hstatus, hentry, bind, Except.bind]
      rw [hcheck, lockedSwitch_eq_error_iff, hcont]
      simp [AwaitsPing, hentry, hc, and_assoc]

theorem pingSafe_standing : s.PingSafe K ↔ ∀ c, (s.standing c).PingSafe K := by
  have hone (c : ℕ) : (s.standing c).PingSafe K ↔
      (s.AwaitsPing K c → c ∈ s.connectionsContainer) := by
    rw [Standing.PingSafe, awaitsPing_standing]
    simp [standing]
  simp only [hone]
  constructor
  · intro h c hawaits
    by_contra hnot
    exact h c hawaits.1 0 ((tick_nullPointer_iff hawaits.1 0).mpr ⟨hawaits, hnot⟩)
  · intro h c hc timeNow hnull
    obtain ⟨hawaits, hnot⟩ := (tick_nullPointer_iff hc timeNow).mp hnull
    exact hnot (h c hawaits)

end Server

namespace Standing

variable {K : Constants} {v : Standing} {ch : Change}

/-- What keeps a client safe to ping, change by change. -/
theorem PingSafe.change_iff (h : v.PingSafe K) (hoffers : v.Offers K ch) :
    (v.change K ch).PingSafe K ↔
      (ch = .pruned → v.AwaitsPing K → v.isOpen = true) ∧
      (ch = .answered → 0 < v.waits → v.registered = true) := by
  cases ch with
  | none => simpa [change] using h
  | closed => simpa [change, PingSafe, AwaitsPing] using h
  | accepted => simp [change, PingSafe]
  -- An answer sets the count to zero, so the next tick pings.
  | answered => simp [change, PingSafe, AwaitsPing]
  | pruned =>
      have hawaits : (v.change K .pruned).AwaitsPing K ↔ v.AwaitsPing K := Iff.rfl
      rw [PingSafe, hawaits]
      simp only [change, Bool.and_eq_true, true_implies, reduceCtorEq, false_implies, and_true]
      exact ⟨fun hsafe hv => (hsafe hv).2, fun hopen hv => ⟨h hv, hopen hv⟩⟩
  | ticked =>
      simp only [reduceCtorEq, false_implies, and_self, iff_true]
      rintro ⟨_, n, _, hentry⟩
      obtain ⟨_ | ⟨status, count⟩, waits, timer, registered, isOpen⟩ := v
      · simp [change] at hentry
      · -- Only a `Live` client is `Live` after its tick, and it was pinged.
        cases status with
        | live =>
            by_cases hcount : count > K.maxFailPings
            · simp [change, switch, hcount, giveUp, expire] at hentry
            · have hreg := hoffers.2 count (not_lt.mp hcount) rfl
              simpa [change, switch, hcount, rearm, expire] using hreg
        | waiting =>
            by_cases hcount : count > K.maxTimeClientAccept
            · simp [change, switch, hcount, giveUp, expire] at hentry
            · simp [change, switch, hcount, rearm, expire] at hentry
        | dead => simp [change, switch, expire] at hentry
        | unstable => simp [change, switch, expire] at hentry

end Standing

namespace Server

variable {K : Constants} {J : JsonText} {t : Server} {e : Event Server Action (List Effect)}
  {tr : List (Event Server Action (List Effect))}

theorem changeOf_eq_pruned_iff {s : Server} {a : Action} {c : ℕ} :
    s.changeOf a c = .pruned ↔
      ∃ d msg timeNow, a = .onMessage d msg timeNow ∧ msg.IsBroadcast := by
  cases a with
  | accept => simp [changeOf, ite_eq_iff]
  | close d => simp [changeOf, ite_eq_iff]
  | tick d timeNow => simp [changeOf, ite_eq_iff]
  | onMessage d msg timeNow =>
      by_cases hcast : msg.IsBroadcast
      · have hans : ¬msg.IsAnswer := by
          rintro (htype | htype) <;> simp [Message.IsBroadcast, htype] at hcast
        simp [changeOf, hans, hcast]
      · simp [changeOf, hcast, ite_eq_iff]

theorem keepsRegistered_iff {s : Server} {a : Action} :
    s.KeepsRegistered K a ↔ ∀ c,
      (s.changeOf a c = .pruned → (s.standing c).AwaitsPing K → (s.standing c).isOpen = true) ∧
      (s.changeOf a c = .answered → 0 < (s.standing c).waits →
        (s.standing c).registered = true) := by
  simp only [changeOf_eq_pruned_iff, changeOf_eq_answered_iff, awaitsPing_standing]
  cases a with
  | onMessage d msg timeNow =>
      constructor
      · rintro ⟨hcast, hans⟩ c
        refine ⟨fun ⟨_, _, _, hact, hmsg⟩ hawaits => ?_, fun ⟨_, _, hact, hmsg⟩ hwaits => ?_⟩
        · obtain ⟨rfl, rfl, rfl⟩ := Action.onMessage.inj hact
          exact hcast hmsg c hawaits
        · obtain ⟨rfl, rfl, rfl⟩ := Action.onMessage.inj hact
          simpa [standing] using hans hmsg (Multiset.count_pos.mp hwaits)
      · intro hall
        refine ⟨fun hmsg c => (hall c).1 ⟨d, msg, timeNow, rfl, hmsg⟩, fun hmsg hwaits => ?_⟩
        simpa [standing] using
          (hall d).2 ⟨msg, timeNow, rfl, hmsg⟩ (Multiset.count_pos.mpr hwaits)
  | accept | close d | tick d timeNow => simp [KeepsRegistered]

/-- **The heartbeat and the container.** No state of a run lets a tick call
through a null pointer exactly when no broadcast of the run finds the socket
of a client about to be pinged closed, and no answer comes from a client
that still has a timer but no connection. -/
theorem pingSafe_iff (h : (serverMachine K J).Run initial tr t) :
    (∀ s ∈ Machine.visited initial tr, s.PingSafe K) ↔
      ∀ e ∈ tr, e.src.KeepsRegistered K e.act := by
  refine h.visited_iff (J := Numbered) (g := fun s a => s.KeepsRegistered K a) ?_
    numbered_initial (fun e htakes _ hsrc _ => hsrc.step htakes) ?_
  · simp [PingSafe, initial]
  · intro e htakes hsafe hnum
    rw [pingSafe_standing, keepsRegistered_iff]
    refine forall_congr' fun c => ?_
    rw [standing_step htakes]
    exact (pingSafe_standing.mp hsafe c).change_iff (offers_step hnum htakes c)

/-- Two clients, a broadcast of the second, and a ping of the first. -/
theorem pingSafe_iff_broadcast :
    ∃ tr t, (serverMachine constants .gameState1).Run initial tr t ∧
      (t.standing 10001).entry = some (.live, 1) ∧
      ∀ s ∈ Machine.visited initial tr, s.PingSafe constants := by
  have hexec : (((serverMachine constants .gameState1).exec initial
      [.accept, .accept, .onMessage 10001 { header := { type := .clientAccept } } 0,
        .onMessage 10002 { header := { type := .messageAll } } 0, .tick 10001 0]).map fun r =>
      (r.1.all fun e => decide (∀ d ∈ e.src.waits,
        e.src.isOpen d = true ∧ d ∈ e.src.connectionsContainer), (r.2.standing 10001).entry)) =
        some (true, some (.live, 1)) := by
    decide +kernel
  obtain ⟨⟨tr, t⟩, hrun, hview⟩ := Option.map_eq_some_iff.mp hexec
  obtain ⟨hall, hentry⟩ := Prod.mk.inj hview
  refine ⟨tr, t, Machine.run_of_exec hrun, hentry,
    (pingSafe_iff (Machine.run_of_exec hrun)).mpr fun e he => ?_⟩
  have hopen := of_decide_eq_true (List.all_eq_true.mp hall e he)
  cases e.act with
  | onMessage c msg timeNow =>
      exact ⟨fun _ d hd => (hopen d hd.1).1, fun _ hc => (hopen c hc).2⟩
  | accept | close c | tick c timeNow => trivial

/-- The socket of the first client is closed, the second one broadcasts, and
the first one is due for a ping. -/
theorem broadcast_not_pingSafe :
    ¬∀ tr t, (serverMachine constants .gameState1).Run initial tr t →
      ∀ s ∈ Machine.visited initial tr, s.PingSafe constants := by
  intro hall
  have hexec : (((serverMachine constants .gameState1).exec initial
      [.accept, .accept, .onMessage 10001 { header := { type := .clientAccept } } 0,
        .close 10001, .onMessage 10002 { header := { type := .messageAll } } 0]).map fun r =>
      decide (r.2.standing 10001 = { entry := some (.live, 0), waits := 1, timer := true })) =
        some true := by
    decide +kernel
  obtain ⟨⟨tr, t⟩, hrun, hview⟩ := Option.map_eq_some_iff.mp hexec
  have h := Machine.run_of_exec hrun
  have hsafe := pingSafe_standing.mp (hall tr t h t h.end_mem_visited) 10001
  rw [of_decide_eq_true hview] at hsafe
  exact absurd (hsafe ⟨Nat.one_pos, 0, Nat.zero_le _, rfl⟩) (by decide)

end Server

end AmongUs
