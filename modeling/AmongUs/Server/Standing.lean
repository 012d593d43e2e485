import AmongUs.Server.Handlers

/-!
The server as a machine, and what it holds about one client.

The registries are changed by accepts, closed sockets, messages and ticks,
in any order. Seen from one client each of these is one of six changes, and
`standing_step` says which: the server machine simulates, for every client,
the small automaton `Standing.change`. What the registries say of a client
after any run is then argued on that automaton alone.
-/

namespace AmongUs

open Networking Transition

inductive Server.Action
  | accept
  | close (client : ℕ)
  | onMessage (client : ℕ) (msg : Message) (timeNow : Int64)
  | tick (client : ℕ) (timeNow : Int64)

namespace Server

/-- The client was given this identifier. -/
def Accepted (s : Server) (c : ℕ) : Prop := 10000 < c ∧ c ≤ s.nIDCounter

instance (s : Server) (c : ℕ) : Decidable (s.Accepted c) :=
  inferInstanceAs (Decidable (10000 < c ∧ c ≤ s.nIDCounter))

/-- The handler of one `async_wait` starts. -/
def expire (s : Server) (c : ℕ) : Server := { s with waits := s.waits.erase c }

end Server

/-- Any accepted client may be heard of at any time, since its messages may
have been queued long before; a tick needs a pending wait. -/
def serverMachine (K : Constants) (J : JsonText) :
    Machine Server Server.Action (List Effect) Fault where
  enabled s
    | .accept => true
    | .close c => decide (s.Accepted c)
    | .onMessage c _ _ => decide (s.Accepted c)
    | .tick c _ => decide (c ∈ s.waits)
  step s
    | .accept => .ok s.accept
    | .close c => .ok (s.closeSocket c, [])
    | .onMessage c msg timeNow => s.onMessage J c msg timeNow
    | .tick c timeNow => (s.expire c).checkClientConnStatus K c timeNow

/-- What the registries hold about one client. The entry is its status and
its count. -/
@[ext] structure Standing where
  entry : Option (ConnectionStatus × ℕ) := none
  waits : ℕ := 0
  timer : Bool := false
  registered : Bool := false
  isOpen : Bool := false
  deriving DecidableEq

inductive Change
  | none
  | accepted
  | closed
  | answered
  | pruned
  | ticked

namespace Standing

def giveUp (v : Standing) : Standing :=
  { v with entry := v.entry.map fun e => (.dead, e.2), timer := false }

def rearm (v : Standing) (count : ℕ) : Standing :=
  { v with entry := v.entry.map fun e => (e.1, count), waits := v.waits + 1 }

/-- The switch of a tick, on the status and the count it has read. -/
def switch (K : Constants) (v : Standing) (status : ConnectionStatus) (count : ℕ) : Standing :=
  match status with
  | .waiting => if count > K.maxTimeClientAccept then v.giveUp else v.rearm (count + 1)
  | .live => if count > K.maxFailPings then v.giveUp else v.rearm (count + 1)
  | .dead => v
  | .unstable => v

def expire (v : Standing) : Standing := { v with waits := v.waits - 1 }

def change (K : Constants) (v : Standing) : Change → Standing
  | .none => v
  | .accepted =>
      { entry := some (.waiting, 0), waits := v.waits + 1, timer := true,
        registered := true, isOpen := true }
  | .closed => { v with isOpen := false }
  | .answered => { v with entry := some (.live, 0) }
  | .pruned => { v with registered := v.registered && v.isOpen }
  | .ticked =>
      match v.entry with
      | some (status, count) => v.expire.switch K status count
      | Option.none => v

end Standing

namespace Server

def standing (s : Server) (c : ℕ) : Standing where
  entry := (s.clientStatus c).map fun entry => (entry.status, entry.count)
  waits := s.waits.count c
  timer := decide (c ∈ s.timersContainer)
  registered := decide (c ∈ s.connectionsContainer)
  isOpen := s.isOpen c

/-- The status of a client, if it has an entry. -/
def statusOf (s : Server) (c : ℕ) : Option ConnectionStatus :=
  (s.clientStatus c).map ClientStatus.status

/-- The count of a client, if it has an entry. -/
def countOf (s : Server) (c : ℕ) : Option ℕ := (s.clientStatus c).map ClientStatus.count

theorem statusOf_eq (s : Server) (c : ℕ) :
    s.statusOf c = (s.standing c).entry.map Prod.fst := by
  simp [statusOf, standing, Function.comp_def]

theorem countOf_eq (s : Server) (c : ℕ) :
    s.countOf c = (s.standing c).entry.map Prod.snd := by
  simp [countOf, standing, Function.comp_def]

theorem entry_standing {s : Server} {c : ℕ} {entry : ClientStatus}
    (h : s.clientStatus c = some entry) :
    (s.standing c).entry = some (entry.status, entry.count) := by
  simp [standing, h]

/-- What an action means for a client. -/
def changeOf (s : Server) (a : Action) (c : ℕ) : Change :=
  match a with
  | .accept => if c = s.nIDCounter + 1 then .accepted else .none
  | .close d => if c = d then .closed else .none
  | .onMessage d msg _ =>
      if msg.IsAnswer then if c = d then .answered else .none
      else if msg.IsBroadcast then .pruned else .none
  | .tick d _ => if c = d then .ticked else .none

theorem changeOf_eq_answered_iff {s : Server} {a : Action} {c : ℕ} :
    s.changeOf a c = .answered ↔
      ∃ msg timeNow, a = .onMessage c msg timeNow ∧ msg.IsAnswer := by
  cases a with
  | accept => simp [changeOf, ite_eq_iff]
  | close d => simp [changeOf, ite_eq_iff]
  | tick d timeNow => simp [changeOf, ite_eq_iff]
  | onMessage d msg timeNow =>
      by_cases hans : msg.IsAnswer
      · simp [changeOf, hans, eq_comm]
      · simp [changeOf, hans, ite_eq_iff]

/-! ### One handler at a time -/

section

variable (s : Server) (c d : ℕ)

theorem standing_accept (K : Constants) :
    s.accept.1.standing c =
      (s.standing c).change K (if c = s.nIDCounter + 1 then .accepted else .none) := by
  by_cases hc : c = s.nIDCounter + 1
  · subst hc
    ext1 <;> simp [standing, accept, onClientConnect, Standing.change]
  · ext1 <;> simp [standing, accept, onClientConnect, Standing.change, hc]

theorem standing_closeSocket (K : Constants) :
    (s.closeSocket d).standing c =
      (s.standing c).change K (if c = d then .closed else .none) := by
  by_cases hc : c = d
  · subst hc
    rw [if_pos rfl]
    ext1
    case isOpen => simp [standing, closeSocket, Standing.change]
    all_goals rfl
  · rw [if_neg hc]
    ext1
    case isOpen => simp [standing, closeSocket, Standing.change, hc]
    all_goals rfl

theorem standing_answered (K : Constants) (dur : Option Int64) :
    (s.answered d dur).standing c =
      (s.standing c).change K (if c = d then .answered else .none) := by
  by_cases hc : c = d
  · subst hc
    rw [if_pos rfl]
    ext1
    case entry => simp [standing, answered, Standing.change]
    all_goals rfl
  · rw [if_neg hc]
    ext1
    case entry => simp [standing, answered, Standing.change, hc]
    all_goals rfl

theorem standing_messageAllClients (K : Constants) (msg : Message)
    (ignoreClient : Option ℕ) :
    (s.messageAllClients msg ignoreClient).1.standing c = (s.standing c).change K .pruned := by
  ext1
  case registered => simp [standing, mem_messageAllClients, Standing.change]
  all_goals rfl

theorem standing_applyUpdates (K : Constants) (id : UInt16) (newMsgAll : Message)
    (updates : Json) :
    (s.applyUpdates d id newMsgAll updates).1.standing c =
      (s.standing c).change K .pruned :=
  standing_messageAllClients _ c K newMsgAll (some d)

theorem standing_expire :
    (s.expire d).standing c =
      if c = d then (s.standing c).expire else s.standing c := by
  by_cases hc : c = d
  · subst hc
    rw [if_pos rfl]
    ext1
    case waits => simp [standing, expire, Standing.expire]
    all_goals rfl
  · rw [if_neg hc]
    ext1
    case waits => simp [standing, expire, hc]
    all_goals rfl

theorem standing_giveUp :
    (s.giveUp d).1.standing c =
      if c = d then (s.standing c).giveUp else s.standing c := by
  by_cases hc : c = d
  · subst hc
    rw [if_pos rfl]
    ext1
    case entry =>
      simp [standing, giveUp, setClientStatus, Standing.giveUp, Function.comp_def]
    case timer => simp [standing, giveUp, Standing.giveUp]
    all_goals rfl
  · rw [if_neg hc]
    ext1
    case entry => simp [standing, giveUp, setClientStatus, hc]
    case timer => simp [standing, giveUp, setClientStatus, hc]
    all_goals rfl

theorem standing_rearm (count : ℕ) :
    (s.rearm d count).standing c =
      if c = d then (s.standing c).rearm count else s.standing c := by
  by_cases hc : c = d
  · subst hc
    rw [if_pos rfl]
    ext1
    case entry =>
      simp [standing, rearm, setClientStatus, Standing.rearm, Function.comp_def]
    case waits => simp [standing, rearm, setClientStatus, Standing.rearm]
    all_goals rfl
  · rw [if_neg hc]
    ext1
    case entry => simp [standing, rearm, setClientStatus, hc]
    case waits => simp [standing, rearm, setClientStatus, hc]
    all_goals rfl

end

section

variable {K : Constants} {J : JsonText} {s s' : Server} {c d : ℕ}
  {effects : List Effect}

theorem standing_lockedSwitch {status : ConnectionStatus} {count : ℕ} {timeNow : Int64}
    (h : s.lockedSwitch K d status count timeNow = .ok (s', effects)) (c : ℕ) :
    s'.standing c = if c = d then (s.standing c).switch K status count else s.standing c := by
  rcases lockedSwitch_cases h with
    ⟨hgive, heq⟩ | ⟨rfl, hcount, rfl, _⟩ | ⟨rfl, hcount, rfl, _⟩ | ⟨hskip, rfl, _⟩
  · obtain rfl : s' = (s.giveUp d).1 := congrArg Prod.fst heq
    rw [standing_giveUp]
    rcases hgive with ⟨rfl, hcount⟩ | ⟨rfl, hcount⟩ <;> simp [Standing.switch, hcount]
  · rw [standing_rearm]
    simp [Standing.switch, not_lt.mpr hcount]
  · rw [standing_rearm]
    simp [Standing.switch, not_lt.mpr hcount]
  · rcases hskip with rfl | rfl <;> simp [Standing.switch]

theorem nIDCounter_lockedSwitch {status : ConnectionStatus} {count : ℕ} {timeNow : Int64}
    (h : s.lockedSwitch K d status count timeNow = .ok (s', effects)) :
    s'.nIDCounter = s.nIDCounter := by
  rcases lockedSwitch_cases h with
    ⟨_, heq⟩ | ⟨_, _, rfl, _⟩ | ⟨_, _, rfl, _⟩ | ⟨_, rfl, _⟩
  · obtain rfl : s' = (s.giveUp d).1 := congrArg Prod.fst heq
    rfl
  all_goals rfl

theorem standing_onMessage {msg : Message} {timeNow : Int64}
    (h : s.onMessage J d msg timeNow = .ok (s', effects)) (c : ℕ) :
    s'.standing c =
      (s.standing c).change K (s.changeOf (.onMessage d msg timeNow) c) := by
  rcases onMessage_cases h with
    ⟨hans, _, dur, rfl, _⟩ | ⟨htype, heq⟩ | ⟨htype, _, _, _, _, _, _, heq⟩ |
      ⟨hans, hcast, rfl, _⟩
  · rw [standing_answered s c d K]
    simp [changeOf, hans]
  · obtain rfl : s' = (s.messageAllClients (serverMessage d) (some d)).1 :=
      congrArg Prod.fst heq
    rw [standing_messageAllClients s c K]
    simp [changeOf, Message.IsAnswer, Message.IsBroadcast, htype]
  · obtain rfl := congrArg Prod.fst heq
    rw [standing_applyUpdates s c d K]
    simp [changeOf, Message.IsAnswer, Message.IsBroadcast, htype]
  · simp [changeOf, hans, hcast, Standing.change]

theorem nIDCounter_onMessage {msg : Message} {timeNow : Int64}
    (h : s.onMessage J d msg timeNow = .ok (s', effects)) :
    s'.nIDCounter = s.nIDCounter := by
  rcases onMessage_cases h with
    ⟨_, _, dur, rfl, _⟩ | ⟨_, heq⟩ | ⟨_, _, _, _, _, _, _, heq⟩ | ⟨_, _, rfl, _⟩
  · rfl
  · obtain rfl := congrArg Prod.fst heq
    rfl
  · obtain rfl := congrArg Prod.fst heq
    rfl
  · rfl

end

/-! ### The simulation -/

section

variable {K : Constants} {J : JsonText} {e : Event Server Action (List Effect)}

/-- The ways a step is taken. A tick takes its wait, finds an entry and
goes through the switch. -/
theorem takes_cases (h : (serverMachine K J).Takes e) :
    (e.act = .accept ∧ (e.dst, e.out) = e.src.accept) ∨
    (∃ d, e.act = .close d ∧ e.src.Accepted d ∧ e.dst = e.src.closeSocket d ∧ e.out = []) ∨
    (∃ d msg timeNow, e.act = .onMessage d msg timeNow ∧ e.src.Accepted d ∧
      e.src.onMessage J d msg timeNow = .ok (e.dst, e.out)) ∨
    (∃ d timeNow entry, e.act = .tick d timeNow ∧ d ∈ e.src.waits ∧
      e.src.clientStatus d = some entry ∧
      (e.src.expire d).lockedSwitch K d entry.status entry.count timeNow =
        .ok (e.dst, e.out)) := by
  obtain ⟨s, a, effects, s'⟩ := e
  obtain ⟨henabled, hstep⟩ := h
  cases a with
  | accept => exact Or.inl ⟨rfl, by simpa [serverMachine, eq_comm] using hstep⟩
  | close d =>
      refine Or.inr (Or.inl ⟨d, rfl, by simpa [serverMachine] using henabled, ?_⟩)
      simpa [serverMachine, eq_comm] using hstep
  | onMessage d msg timeNow =>
      exact Or.inr (Or.inr (Or.inl
        ⟨d, msg, timeNow, rfl, by simpa [serverMachine] using henabled, hstep⟩))
  | tick d timeNow =>
      obtain ⟨entry, hentry, hswitch⟩ := checkClientConnStatus_ok hstep
      exact Or.inr (Or.inr (Or.inr
        ⟨d, timeNow, entry, rfl, by simpa [serverMachine] using henabled, hentry, hswitch⟩))

/-- **One step, seen from one client.** -/
theorem standing_step (h : (serverMachine K J).Takes e) (c : ℕ) :
    e.dst.standing c = (e.src.standing c).change K (e.src.changeOf e.act c) := by
  rcases takes_cases h with
    ⟨hact, heq⟩ | ⟨d, hact, _, hdst, _⟩ | ⟨d, msg, timeNow, hact, _, hret⟩ |
      ⟨d, timeNow, entry, hact, _, hentry, hswitch⟩
  · rw [hact, show e.dst = e.src.accept.1 from congrArg Prod.fst heq]
    exact standing_accept e.src c K
  · rw [hact, hdst]
    exact standing_closeSocket e.src c d K
  · rw [hact]
    exact standing_onMessage hret c
  · rw [standing_lockedSwitch hswitch c, standing_expire, hact]
    by_cases hc : c = d
    · subst hc
      have hstanding : (e.src.standing c).entry = some (entry.status, entry.count) :=
        entry_standing hentry
      simp [changeOf, Standing.change, hstanding]
    · simp [changeOf, Standing.change, hc]

theorem nIDCounter_step (h : (serverMachine K J).Takes e) :
    e.dst.nIDCounter =
      match e.act with
      | .accept => e.src.nIDCounter + 1
      | _ => e.src.nIDCounter := by
  rcases takes_cases h with
    ⟨hact, heq⟩ | ⟨d, hact, _, hdst, _⟩ | ⟨d, msg, timeNow, hact, _, hret⟩ |
      ⟨d, timeNow, entry, hact, _, _, hswitch⟩
  · rw [hact, show e.dst = e.src.accept.1 from congrArg Prod.fst heq]
    rfl
  · rw [hact, hdst]
    rfl
  · rw [hact]
    exact nIDCounter_onMessage hret
  · have hcounter := nIDCounter_lockedSwitch hswitch
    rw [hact]
    exact hcounter

/-- Identifiers are given out in order: no registry knows a client that was
not accepted, and every accepted client has an entry. -/
structure Numbered (s : Server) : Prop where
  counter : 10000 ≤ s.nIDCounter
  fresh : ∀ c, ¬s.Accepted c → s.standing c = {}
  known : ∀ c, s.Accepted c → (s.standing c).entry.isSome

theorem Numbered.accepted {s : Server} (hs : s.Numbered) {c : ℕ} (hc : s.standing c ≠ {}) :
    s.Accepted c := by
  by_contra hnot
  exact hc (hs.fresh c hnot)

/-- A step that concerns one accepted client. -/
theorem Numbered.of_client {s s' : Server} (hs : s.Numbered) {c : ℕ} (hc : s.standing c ≠ {})
    (hcounter : s'.nIDCounter = s.nIDCounter)
    (hother : ∀ d, d ≠ c → s'.standing d = s.standing d)
    (hentry : (s'.standing c).entry.isSome) : s'.Numbered where
  counter := hcounter ▸ hs.counter
  fresh d hd := by
    rw [Accepted, hcounter] at hd
    have hne : d ≠ c := by
      rintro rfl
      exact hd (hs.accepted hc)
    rw [hother d hne]
    exact hs.fresh d hd
  known d hd := by
    rw [Accepted, hcounter] at hd
    by_cases hdc : d = c
    · rwa [hdc]
    · rw [hother d hdc]
      exact hs.known d hd

end

end Server

/-- The changes that can come next for a client. A ping is sent only when
the connection is found. -/
def Standing.Offers (K : Constants) (v : Standing) : Change → Prop
  | .none => True
  | .accepted => v = {}
  | .closed => v.entry.isSome
  | .answered => v.entry.isSome
  | .pruned => True
  | .ticked => 0 < v.waits ∧
      ∀ count ≤ K.maxFailPings, v.entry = some (.live, count) → v.registered = true

theorem Standing.isSome_entry_change {K : Constants} {v : Standing} {ch : Change}
    (h : v.entry.isSome) : (v.change K ch).entry.isSome := by
  cases ch with
  | none | closed | pruned => exact h
  | accepted | answered => rfl
  | ticked =>
      obtain ⟨⟨status, count⟩, hentry⟩ := Option.isSome_iff_exists.mp h
      simp only [change, hentry, switch]
      split
      · split <;> simp [giveUp, rearm, expire, hentry]
      · split <;> simp [giveUp, rearm, expire, hentry]
      · simp [expire, hentry]
      · simp [expire, hentry]

/-- Only an accept brings a client into the registries. -/
theorem Standing.blank_change {K : Constants} {ch : Change}
    (h : ({} : Standing).Offers K ch) (hch : ch ≠ .accepted) :
    ({} : Standing).change K ch = {} := by
  cases ch with
  | none | closed | pruned => rfl
  | accepted => exact absurd rfl hch
  | answered => simp [Offers] at h
  | ticked => simp [Offers] at h

namespace Server

section

variable {K : Constants} {J : JsonText} {s t : Server} {e : Event Server Action (List Effect)}
  {tr : List (Event Server Action (List Effect))}

theorem offers_step (hs : e.src.Numbered) (h : (serverMachine K J).Takes e) (c : ℕ) :
    (e.src.standing c).Offers K (e.src.changeOf e.act c) := by
  rcases takes_cases h with
    ⟨hact, _⟩ | ⟨d, hact, hacc, _, _⟩ | ⟨d, msg, timeNow, hact, hacc, _⟩ |
      ⟨d, timeNow, entry, hact, hwait, hentry, hswitch⟩ <;> rw [hact]
  · by_cases hc : c = e.src.nIDCounter + 1
    · have hblank : e.src.standing c = {} := hs.fresh c fun hacc => by
        have hle : c ≤ e.src.nIDCounter := hacc.2
        omega
      simpa [changeOf, hc, Standing.Offers] using hblank
    · simp [changeOf, hc, Standing.Offers]
  · by_cases hc : c = d
    · simpa [changeOf, hc, Standing.Offers] using hs.known d hacc
    · simp [changeOf, hc, Standing.Offers]
  · simp only [changeOf]
    split
    · split
      · rename_i hc
        exact hc ▸ hs.known d hacc
      · trivial
    · split <;> trivial
  · by_cases hc : c = d
    · subst hc
      have hstanding : (e.src.standing c).entry = some (entry.status, entry.count) :=
        entry_standing hentry
      simp only [changeOf, if_true]
      refine ⟨Multiset.count_pos.mpr hwait, fun count hle hlive => ?_⟩
      obtain ⟨hstatus, rfl⟩ : entry.status = .live ∧ entry.count = count := by
        simpa [hstanding] using hlive
      rw [hstatus] at hswitch
      rcases lockedSwitch_cases hswitch with
        ⟨⟨hst, _⟩ | ⟨_, hlt⟩, _⟩ | ⟨hst, _⟩ | ⟨_, _, _, hmem, _⟩ | ⟨hst | hst, _⟩
      · cases hst
      · omega
      · cases hst
      · have hmem' : c ∈ e.src.connectionsContainer := hmem
        simpa [standing] using hmem'
      · cases hst
      · cases hst
    · simp [changeOf, hc, Standing.Offers]

theorem standing_initial (c : ℕ) : initial.standing c = {} := by
  ext1 <;> simp [standing, initial]

theorem numbered_initial : initial.Numbered where
  counter := le_rfl
  fresh c _ := standing_initial c
  known c h := by
    obtain ⟨hlow, hhigh⟩ := h
    exact absurd (hlow.trans_le hhigh) (by simp [initial])

/-- The accepted clients after a step. -/
theorem accepted_step (h : (serverMachine K J).Takes e) (hs : e.src.Numbered) (c : ℕ) :
    e.dst.Accepted c ↔ e.src.Accepted c ∨ e.src.changeOf e.act c = .accepted := by
  have hcounter := nIDCounter_step h
  have hlow := hs.counter
  obtain ⟨s, a, effects, s'⟩ := e
  cases a with
  | accept =>
      simp only [Accepted, changeOf] at hcounter hlow ⊢
      split <;> simp <;> omega
  | close d =>
      simp only [Accepted, changeOf] at hcounter hlow ⊢
      split <;> simp [hcounter]
  | onMessage d msg timeNow =>
      simp only [Accepted, changeOf] at hcounter hlow ⊢
      split
      · split <;> simp [hcounter]
      · split <;> simp [hcounter]
  | tick d timeNow =>
      simp only [Accepted, changeOf] at hcounter hlow ⊢
      split <;> simp [hcounter]

theorem Numbered.step (hs : e.src.Numbered) (h : (serverMachine K J).Takes e) :
    e.dst.Numbered where
  counter := by
    have hcounter := nIDCounter_step h
    have hlow := hs.counter
    split at hcounter <;> omega
  fresh c hc := by
    rw [accepted_step h hs, not_or] at hc
    have hoffers := offers_step hs h c
    rw [standing_step h, hs.fresh c hc.1] at *
    exact Standing.blank_change hoffers hc.2
  known c hc := by
    rw [standing_step h]
    rcases (accepted_step h hs c).mp hc with hold | hnew
    · exact Standing.isSome_entry_change (hs.known c hold)
    · rw [hnew]
      rfl

theorem Numbered.run (hs : s.Numbered) (h : (serverMachine K J).Run s tr t) : t.Numbered :=
  h.invariant hs fun _ htakes hsrc => hsrc.step htakes

/-- The number of accepted connections. -/
def accepts (tr : List (Event Server Action (List Effect))) : ℕ :=
  tr.countP fun e => e.act matches .accept

theorem nIDCounter_run (h : (serverMachine K J).Run initial tr t) :
    t.nIDCounter = 10000 + accepts tr := by
  induction h with
  | nil => rfl
  | @snoc tr e _ htakes ih =>
      rw [nIDCounter_step htakes, ih, accepts, accepts, List.countP_append, List.countP_singleton]
      cases e.act <;> rfl

/-- The counter of the source has 32 bits. It does not come round before so
many connections. -/
theorem nIDCounter_lt (h : (serverMachine K J).Run initial tr t)
    (hfew : accepts tr < 2 ^ 32 - 10000) : t.nIDCounter < 2 ^ 32 := by
  rw [nIDCounter_run h]
  omega

end

end Server

end AmongUs
