import AmongUs.Server.Standing

/-!
What the count of a client means.

The count waits for the handshake while the client is `Waiting`, and counts
unanswered pings while it is `Live`; it is compared before it is raised. The
trace of a run says the same without the count: how many ticks the client
has had, whether it has answered, and how many pings were sent to it since
its last answer. `Accounted` is the invariant that ties the two together,
and the thresholds of `checkClientConnStatus` are read off it.
-/

namespace AmongUs

open Networking Transition

/-- A `ClientPing` is posted to the client. -/
def Effect.pings (c : ℕ) : Effect → Bool
  | .send d msg => decide (d = c ∧ msg.header.type = .clientPing)
  | _ => false

namespace Server

/-- The step handles a `ClientPing` or a `ClientAccept` of the client. -/
def Action.answers (c : ℕ) : Action → Bool
  | .onMessage d msg _ => decide (d = c ∧ msg.IsAnswer)
  | _ => false

def Action.ticks (c : ℕ) : Action → Bool
  | .tick d _ => decide (d = c)
  | _ => false

/-- The trace of a run of the server. -/
abbrev Trace := List (Event Server Action (List Effect))

def pingsTo (c : ℕ) (effects : List Effect) : ℕ := effects.countP (Effect.pings c)

/-- The pings sent to the client since its last answer. -/
def unanswered (c : ℕ) (tr : Trace) : ℕ :=
  tr.foldl (fun n e => if e.act.answers c then 0 else n + pingsTo c e.out) 0

def tickCount (c : ℕ) (tr : Trace) : ℕ := tr.countP fun e => e.act.ticks c

def hasAnswered (c : ℕ) (tr : Trace) : Bool := tr.any fun e => e.act.answers c

section

variable {K : Constants} {J : JsonText} {s t : Server} {e : Event Server Action (List Effect)}
  {tr : Trace} {c : ℕ}

theorem unanswered_snoc : unanswered c (tr ++ [e]) =
    if e.act.answers c then 0 else unanswered c tr + pingsTo c e.out := by
  simp [unanswered]

theorem tickCount_snoc : tickCount c (tr ++ [e]) =
    tickCount c tr + if e.act.ticks c then 1 else 0 := by
  simp [tickCount, List.countP_cons]

theorem hasAnswered_snoc : hasAnswered c (tr ++ [e]) =
    (hasAnswered c tr || e.act.answers c) := by
  simp [hasAnswered]

theorem answers_iff {a : Action} :
    a.answers c = true ↔ s.changeOf a c = .answered := by
  rw [changeOf_eq_answered_iff]
  cases a with
  | onMessage d msg timeNow =>
      simp only [Action.answers, decide_eq_true_eq]
      constructor
      · rintro ⟨rfl, hans⟩
        exact ⟨msg, timeNow, rfl, hans⟩
      · rintro ⟨_, _, hact, hans⟩
        obtain ⟨rfl, rfl, rfl⟩ := Action.onMessage.inj hact
        exact ⟨rfl, hans⟩
  | accept | close d | tick d timeNow => simp [Action.answers]

theorem ticks_iff {a : Action} : a.ticks c = true ↔ s.changeOf a c = .ticked := by
  cases a with
  | accept => simp [Action.ticks, changeOf, ite_eq_iff]
  | close d => simp [Action.ticks, changeOf, ite_eq_iff]
  | tick d timeNow => simp [Action.ticks, changeOf, eq_comm]
  | onMessage d msg timeNow =>
      simp only [Action.ticks, changeOf]
      split
      · split <;> simp
      · split <;> simp

/-! ### Who sends pings -/

theorem pingsTo_messageAllLoop {isOpen : ℕ → Bool} {msg : Message} {ignore : Option ℕ}
    {ids : List ℕ} (hmsg : msg.header.type ≠ .clientPing) :
    pingsTo c (messageAllLoop isOpen msg ignore ids).2 = 0 := by
  induction ids with
  | nil => rfl
  | cons conn rest ih =>
      simp only [pingsTo, messageAllLoop] at ih ⊢
      split
      · split <;> simp [Effect.pings, hmsg, ih]
      · simp [Effect.pings, ih]

theorem pingsTo_giveUp {d : ℕ} : pingsTo c (s.giveUp d).2 = 0 := by
  simp only [giveUp, disconnect, pingsTo]
  split <;> simp [Effect.pings]

theorem pingsTo_onMessage {s s' : Server} {d : ℕ} {msg : Message} {timeNow : Int64}
    {effects : List Effect} (h : s.onMessage J d msg timeNow = .ok (s', effects)) :
    pingsTo c effects = 0 := by
  rcases onMessage_cases h with
    ⟨_, _, _, _, rfl⟩ | ⟨_, heq⟩ | ⟨_, left, newMsgAll, rcvBuf, _, htext, _, heq⟩ |
      ⟨_, _, _, rfl⟩
  · rfl
  · rw [show effects = _ from congrArg Prod.snd heq]
    exact pingsTo_messageAllLoop (by simp [serverMessage])
  · obtain ⟨_, rfl, _⟩ := Relay.serverText_ok htext
    have hloop : pingsTo c (messageAllLoop s.isOpen (Relay.forward msg) (some d)
        s.connectionsContainer.ids).2 = 0 :=
      pingsTo_messageAllLoop (by simp [Relay.forward_type])
    have hout : effects =
        .send d { header := { type := .serverACK, id := left.header.id } } ::
          (messageAllLoop s.isOpen (Relay.forward msg) (some d)
            s.connectionsContainer.ids).2 := congrArg Prod.snd heq
    rw [hout]
    simpa [pingsTo, Effect.pings] using hloop
  · split
    · rename_i htype
      simp [pingsTo, Effect.pings, htype]
    · rfl

/-- Only the tick of a client sends it pings. -/
theorem pingsTo_of_not_ticks (h : (serverMachine K J).Takes e) (hnot : e.act.ticks c = false) :
    pingsTo c e.out = 0 := by
  rcases takes_cases h with
    ⟨_, heq⟩ | ⟨d, _, _, _, hout⟩ | ⟨d, msg, timeNow, _, _, hret⟩ |
      ⟨d, timeNow, entry, hact, _, _, hswitch⟩
  · rw [show e.out = e.src.accept.2 from congrArg Prod.snd heq]
    simp [accept, onClientConnect, pingsTo, Effect.pings]
  · rw [hout]
    rfl
  · exact pingsTo_onMessage hret
  · have hne : d ≠ c := by simpa [hact, Action.ticks] using hnot
    rcases lockedSwitch_cases hswitch with
      ⟨_, hgive⟩ | ⟨_, _, _, hout⟩ | ⟨_, _, _, _, hout⟩ | ⟨_, _, hout⟩
    · rw [show e.out = _ from congrArg Prod.snd hgive]
      exact pingsTo_giveUp
    · rw [hout]
      rfl
    · simp [hout, pingsTo, Effect.pings, hne]
    · rw [hout]
      rfl

theorem pingsTo_of_ticks (h : (serverMachine K J).Takes e) (hticks : e.act.ticks c = true)
    {status : ConnectionStatus} {count : ℕ}
    (hentry : (e.src.standing c).entry = some (status, count)) :
    pingsTo c e.out = if status = .live ∧ count ≤ K.maxFailPings then 1 else 0 := by
  rcases takes_cases h with
    ⟨hact, _⟩ | ⟨d, hact, _⟩ | ⟨d, msg, timeNow, hact, _⟩ |
      ⟨d, timeNow, entry, hact, _, hstatus, hswitch⟩
  · simp [hact, Action.ticks] at hticks
  · simp [hact, Action.ticks] at hticks
  · simp [hact, Action.ticks] at hticks
  · obtain rfl : d = c := by simpa [hact, Action.ticks] using hticks
    have hstanding : (e.src.standing d).entry = some (entry.status, entry.count) :=
      entry_standing hstatus
    obtain ⟨rfl, rfl⟩ : entry.status = status ∧ entry.count = count := by
      simpa [hstanding] using hentry
    rcases lockedSwitch_cases hswitch with
      ⟨hgive, heq⟩ | ⟨hst, _, _, hout⟩ | ⟨hst, hcount, _, _, hout⟩ | ⟨hst, _, hout⟩
    · rw [show e.out = _ from congrArg Prod.snd heq, if_neg, pingsTo_giveUp]
      rcases hgive with ⟨hst, _⟩ | ⟨_, hlt⟩
      · simp [hst]
      · exact fun hle => absurd hle.2 (not_le.mpr hlt)
    · simp [hst, hout, pingsTo]
    · simp [hst, hout, hcount, pingsTo, Effect.pings, clientPing]
    · rcases hst with hst | hst <;> simp [hst, hout, pingsTo]

/-! ### The accounts -/

/-- The last thing that happened to the client is the tick that sent the
ping after which it is given up. -/
def LastPing (K : Constants) (c : ℕ) (tr : Trace) : Prop :=
  ∃ pre e mid, tr = pre ++ e :: mid ∧ e.act.ticks c = true ∧ pingsTo c e.out = 1 ∧
    unanswered c (pre ++ [e]) = K.maxFailPings + 1 ∧
    ∀ e' ∈ mid, e'.act.ticks c = false ∧ e'.act.answers c = false

/-- What the registries hold about a client, in terms of the trace. -/
def Accounted (K : Constants) (c : ℕ) (tr : Trace) (v : Standing) : Prop :=
  match v.entry with
  | none => v.waits = 0 ∧ tickCount c tr = 0 ∧ hasAnswered c tr = false
  | some (.waiting, count) =>
      v.waits = 1 ∧ count = tickCount c tr ∧ count ≤ K.maxTimeClientAccept + 1 ∧
        hasAnswered c tr = false
  | some (.live, count) =>
      hasAnswered c tr = true ∧ (v.waits = 0 ∨
        v.waits = 1 ∧ count = unanswered c tr ∧ count ≤ K.maxFailPings + 1 ∧
          (count = K.maxFailPings + 1 → LastPing K c tr))
  | some (.dead, _) => v.waits = 0
  | some (.unstable, _) => False

theorem LastPing.snoc (h : LastPing K c tr) (hticks : e.act.ticks c = false)
    (hanswers : e.act.answers c = false) : LastPing K c (tr ++ [e]) := by
  obtain ⟨pre, e₀, mid, rfl, htick, hping, hcount, hmid⟩ := h
  refine ⟨pre, e₀, mid ++ [e], by simp, htick, hping, hcount, fun e' he' => ?_⟩
  rcases List.mem_append.mp he' with he' | he'
  · exact hmid e' he'
  · obtain rfl := List.mem_singleton.mp he'
    exact ⟨hticks, hanswers⟩

/-- What concerns other clients leaves the accounts as they are. -/
theorem Accounted.other {v w : Standing} (h : Accounted K c tr v)
    (htakes : (serverMachine K J).Takes e) (hticks : e.act.ticks c = false)
    (hanswers : e.act.answers c = false) (hentry : w.entry = v.entry)
    (hwaits : w.waits = v.waits) : Accounted K c (tr ++ [e]) w := by
  have hpings := pingsTo_of_not_ticks htakes hticks
  have htickCount : tickCount c (tr ++ [e]) = tickCount c tr := by
    simp [tickCount_snoc, hticks]
  have hanswered : hasAnswered c (tr ++ [e]) = hasAnswered c tr := by
    simp [hasAnswered_snoc, hanswers]
  have hunanswered : unanswered c (tr ++ [e]) = unanswered c tr := by
    simp [unanswered_snoc, hanswers, hpings]
  rw [Accounted, hentry, hwaits, htickCount, hanswered, hunanswered]
  rw [Accounted] at h
  split at h
  · exact h
  · exact h
  · obtain ⟨hans, hlive⟩ := h
    refine ⟨hans, hlive.imp id fun ⟨hone, heq, hle, hlast⟩ => ⟨hone, heq, hle, fun hmax => ?_⟩⟩
    exact (hlast hmax).snoc hticks hanswers
  · exact h
  · exact h

/-- An answer starts a new account. -/
theorem Accounted.answered {v : Standing} (h : Accounted K c tr v)
    (hanswers : e.act.answers c = true) :
    Accounted K c (tr ++ [e]) (v.change K .answered) := by
  have hwaits : v.waits = 0 ∨ v.waits = 1 := by
    rw [Accounted] at h
    split at h
    · exact Or.inl h.1
    · exact Or.inr h.1
    · exact h.2.imp id And.left
    · exact Or.inl h
    · exact h.elim
  refine ⟨by simp [hasAnswered_snoc, hanswers], hwaits.imp id fun hone => ⟨hone, ?_, ?_, ?_⟩⟩
  · simp [unanswered_snoc, hanswers]
  · exact Nat.zero_le _
  · exact fun hmax => absurd hmax (Nat.succ_ne_zero _).symm

/-- A tick raises the count or gives up. -/
theorem Accounted.ticked (h : Accounted K c tr (e.src.standing c))
    (htakes : (serverMachine K J).Takes e) (hticks : e.act.ticks c = true)
    (hwaits : 0 < (e.src.standing c).waits) :
    Accounted K c (tr ++ [e]) ((e.src.standing c).change K .ticked) := by
  have hanswers : e.act.answers c = false := by
    by_contra hans
    rw [Bool.not_eq_false, answers_iff (s := e.src), ticks_iff.mp hticks] at hans
    cases hans
  -- A tick that does not give up keeps the status.
  have hrearm (status : ConnectionStatus) (count : ℕ)
      (hentry : (e.src.standing c).entry = some (status, count)) :
      ((e.src.standing c).expire.rearm (count + 1)).entry = some (status, count + 1) := by
    simp [Standing.rearm, Standing.expire, hentry]
  cases hentry : (e.src.standing c).entry with
  | none =>
      rw [Accounted, hentry] at h
      omega
  | some entry =>
      obtain ⟨status, count⟩ := entry
      have hpings := pingsTo_of_ticks htakes hticks hentry
      rw [Accounted, hentry] at h
      simp only [Standing.change, hentry]
      cases status with
      | waiting =>
          obtain ⟨hone, heq, hle, hans⟩ := h
          by_cases hcount : count > K.maxTimeClientAccept
          · simp [Standing.switch, hcount, Standing.giveUp, Standing.expire, Accounted, hentry,
              hone]
          · simp only [Standing.switch, if_neg hcount]
            rw [Accounted, hrearm _ _ hentry]
            refine ⟨by simp [Standing.rearm, Standing.expire, hone], ?_, by omega, ?_⟩
            · simp [tickCount_snoc, hticks, heq]
            · simp [hasAnswered_snoc, hans, hanswers]
      | live =>
          obtain ⟨hans, hlive⟩ := h
          obtain ⟨hone, heq, hle, hlast⟩ := hlive.resolve_left hwaits.ne'
          by_cases hcount : count > K.maxFailPings
          · simp [Standing.switch, hcount, Standing.giveUp, Standing.expire, Accounted, hentry,
              hone]
          · have hsent : pingsTo c e.out = 1 := by
              rw [hpings, if_pos ⟨rfl, not_lt.mp hcount⟩]
            have hnew : unanswered c (tr ++ [e]) = count + 1 := by
              simp [unanswered_snoc, hanswers, hsent, heq]
            simp only [Standing.switch, if_neg hcount]
            rw [Accounted, hrearm _ _ hentry]
            refine ⟨by simp [hasAnswered_snoc, hans],
              Or.inr ⟨by simp [Standing.rearm, Standing.expire, hone], hnew.symm, by omega, ?_⟩⟩
            exact fun hmax => ⟨tr, e, [], rfl, hticks, hsent, by omega, by simp⟩
      | dead => exact absurd h hwaits.ne'
      | unstable => exact h.elim

theorem accounted_run (h : (serverMachine K J).Run initial tr t) (c : ℕ) :
    t.Numbered ∧ Accounted K c tr (t.standing c) := by
  refine h.history (I := fun tr s => s.Numbered ∧ Accounted K c tr (s.standing c)) ?_ ?_
  · rw [standing_initial]
    exact ⟨numbered_initial, rfl, rfl, rfl⟩
  · rintro tr e _ htakes ⟨hnum, hacc⟩
    refine ⟨hnum.step htakes, ?_⟩
    rw [standing_step htakes]
    have hoffers := offers_step hnum htakes c
    have hother (hticks : e.src.changeOf e.act c ≠ .ticked)
        (hanswers : e.src.changeOf e.act c ≠ .answered) (w : Standing)
        (hentry : w.entry = (e.src.standing c).entry)
        (hwaits : w.waits = (e.src.standing c).waits) : Accounted K c (tr ++ [e]) w := by
      refine hacc.other htakes ?_ ?_ hentry hwaits
      · rwa [← Bool.not_eq_true, ticks_iff]
      · rwa [← Bool.not_eq_true, answers_iff (s := e.src)]
    cases hch : e.src.changeOf e.act c with
    | none | closed | pruned => exact hother (by simp [hch]) (by simp [hch]) _ rfl rfl
    | answered => exact hacc.answered (answers_iff.mpr hch)
    | ticked =>
        rw [hch] at hoffers
        exact hacc.ticked htakes (ticks_iff.mpr hch) hoffers.1
    | accepted =>
        -- The client was not heard of before, so its account is empty.
        rw [hch, Standing.Offers] at hoffers
        have hfresh := hother (by simp [hch]) (by simp [hch]) {} (by rw [hoffers]) (by rw [hoffers])
        obtain ⟨_, htick, hans⟩ := hfresh
        rw [hoffers]
        exact ⟨rfl, htick.symm, Nat.zero_le _, hans⟩

/-- Whenever a tick sends the last ping, an answer is handled before the
next tick of the client. -/
def AnswersLastPing (K : Constants) (c : ℕ) (tr : Trace) : Prop :=
  ∀ pre e mid e' post, tr = pre ++ e :: (mid ++ e' :: post) →
    e.act.ticks c = true → pingsTo c e.out = 1 →
    unanswered c (pre ++ [e]) = K.maxFailPings + 1 →
    e'.act.ticks c = true → (∀ m ∈ mid, m.act.ticks c = false) →
    ∃ m ∈ mid, m.act.answers c = true

theorem statusOf_tick (htakes : (serverMachine K J).Takes e) (hticks : e.act.ticks c = true) :
    e.dst.statusOf c = ((e.src.standing c).change K .ticked).entry.map Prod.fst := by
  rw [statusOf_eq, standing_step htakes, ticks_iff.mp hticks]

/-- A tick gives up on a `Live` client whose pings have run out. -/
theorem live_dead_iff (h : (serverMachine K J).Run initial tr e.src)
    (htakes : (serverMachine K J).Takes e) (hticks : e.act.ticks c = true)
    (hlive : e.src.statusOf c = some .live) :
    e.dst.statusOf c = some .dead ↔ K.maxFailPings + 1 ≤ unanswered c tr := by
  obtain ⟨hnum, hacc⟩ := accounted_run h c
  have hoffers := offers_step hnum htakes c
  rw [ticks_iff.mp hticks] at hoffers
  rw [statusOf_tick htakes hticks]
  rw [statusOf_eq] at hlive
  obtain ⟨⟨status, count⟩, hentry, rfl⟩ := Option.map_eq_some_iff.mp hlive
  rw [Accounted, hentry] at hacc
  obtain ⟨_, heq, hle, _⟩ := hacc.2.resolve_left hoffers.1.ne'
  by_cases hcount : count > K.maxFailPings
  · simp [Standing.change, hentry, Standing.switch, hcount, Standing.giveUp, Standing.expire]
    omega
  · simp [Standing.change, hentry, Standing.switch, hcount, Standing.rearm, Standing.expire]
    omega

/-- A tick gives up on a `Waiting` client that has had its time. -/
theorem waiting_dead_iff (h : (serverMachine K J).Run initial tr e.src)
    (htakes : (serverMachine K J).Takes e) (hticks : e.act.ticks c = true) :
    e.src.statusOf c = some .waiting ∧ e.dst.statusOf c = some .dead ↔
      tickCount c tr + 1 = K.maxTimeClientAccept + 2 ∧ hasAnswered c tr = false := by
  obtain ⟨hnum, hacc⟩ := accounted_run h c
  have hoffers := offers_step hnum htakes c
  rw [ticks_iff.mp hticks] at hoffers
  rw [statusOf_tick htakes hticks, statusOf_eq]
  cases hentry : (e.src.standing c).entry with
  | none =>
      rw [Accounted, hentry] at hacc
      exact absurd hacc.1 hoffers.1.ne'
  | some entry =>
      obtain ⟨status, count⟩ := entry
      rw [Accounted, hentry] at hacc
      cases status with
      | waiting =>
          obtain ⟨_, heq, hle, hans⟩ := hacc
          by_cases hcount : count > K.maxTimeClientAccept
          · simp [Standing.change, hentry, Standing.switch, hcount, Standing.giveUp,
              Standing.expire, hans]
            omega
          · simp [Standing.change, hentry, Standing.switch, hcount, Standing.rearm,
              Standing.expire, hans]
            omega
      | live => simp [hacc.1]
      | dead => exact absurd hacc hoffers.1.ne'
      | unstable => exact hacc.elim

theorem AnswersLastPing.prefix {tr' : Trace} (h : AnswersLastPing K c (tr ++ tr')) :
    AnswersLastPing K c tr := by
  intro pre e mid e' post htr
  exact h pre e mid e' (post ++ tr') (by simp [htr])

/-- A `Live` client that answers its last ping in time stays `Live`. -/
theorem live_step (h : (serverMachine K J).Run initial tr e.src)
    (htakes : (serverMachine K J).Takes e) (hlast : AnswersLastPing K c (tr ++ [e]))
    (hlive : e.src.statusOf c = some .live) : e.dst.statusOf c = some .live := by
  obtain ⟨hnum, hacc⟩ := accounted_run h c
  have hoffers := offers_step hnum htakes c
  rw [statusOf_eq] at hlive
  obtain ⟨⟨status, count⟩, hentry, rfl⟩ := Option.map_eq_some_iff.mp hlive
  rw [statusOf_eq, standing_step htakes]
  cases hch : e.src.changeOf e.act c with
  | none | closed | pruned => simp [Standing.change, hentry]
  | accepted =>
      rw [hch, Standing.Offers] at hoffers
      simp [hoffers] at hentry
  | answered => rfl
  | ticked =>
      have hticks := ticks_iff.mpr hch
      rw [hch] at hoffers
      rw [Accounted, hentry] at hacc
      obtain ⟨_, _, hle, hmax⟩ := hacc.2.resolve_left hoffers.1.ne'
      by_cases hcount : count > K.maxFailPings
      · obtain ⟨pre, e₀, mid, rfl, htick, hping, hsent, hmid⟩ := hmax (by omega)
        obtain ⟨m, hm, hans⟩ := hlast pre e₀ mid e [] (by simp) htick hping hsent hticks
          fun m hm => (hmid m hm).1
        simp [(hmid m hm).2] at hans
      · simp [Standing.change, hentry, Standing.switch, hcount, Standing.rearm, Standing.expire]

theorem live_run {s : Server} {post : Trace} (h : (serverMachine K J).Run initial tr s)
    (hpost : (serverMachine K J).Run s post t) (hlast : AnswersLastPing K c (tr ++ post))
    (hlive : s.statusOf c = some .live) : t.statusOf c = some .live := by
  induction hpost with
  | nil => exact hlive
  | @snoc post e hrun htakes ih =>
      rw [← List.append_assoc] at hlast
      exact live_step (h.append hrun) htakes hlast (ih hlast.prefix)

/-- **The accounts of the heartbeat.** -/
theorem heartbeat_accounting (h : (serverMachine K J).Run initial tr t) (c : ℕ) :
    (t.statusOf c = some .live → c ∈ t.waits →
      t.countOf c = some (unanswered c tr) ∧ unanswered c tr ≤ K.maxFailPings + 1) ∧
    (∀ pre e post, tr = pre ++ e :: post → e.act.ticks c = true →
      e.src.statusOf c = some .live →
      (e.dst.statusOf c = some .dead ↔ K.maxFailPings + 1 ≤ unanswered c pre)) ∧
    (∀ pre e post, tr = pre ++ e :: post → e.act.ticks c = true →
      (e.src.statusOf c = some .waiting ∧ e.dst.statusOf c = some .dead ↔
        tickCount c pre + 1 = K.maxTimeClientAccept + 2 ∧ hasAnswered c pre = false)) ∧
    (AnswersLastPing K c tr → ∀ pre post s, tr = pre ++ post →
      (serverMachine K J).Run initial pre s → s.statusOf c = some .live →
      t.statusOf c = some .live) := by
  refine ⟨fun hlive hwait => ?_, ?_, ?_, ?_⟩
  · have hacc := (accounted_run h c).2
    have hwaits : 0 < (t.standing c).waits := Multiset.count_pos.mpr hwait
    obtain ⟨entry, hstatus, hst⟩ := Option.map_eq_some_iff.mp hlive
    rw [Accounted, entry_standing hstatus, hst] at hacc
    obtain ⟨_, heq, hle, _⟩ := hacc.2.resolve_left hwaits.ne'
    rw [countOf, hstatus, Option.map_some, ← heq]
    exact ⟨rfl, hle⟩
  · rintro pre e post rfl hticks hlive
    obtain ⟨hpre, htakes, _⟩ := h.split
    exact live_dead_iff hpre htakes hticks hlive
  · rintro pre e post rfl hticks
    obtain ⟨hpre, htakes, _⟩ := h.split
    exact waiting_dead_iff hpre htakes hticks
  · rintro hlast pre post s rfl hpre hlive
    obtain ⟨m, hm, hpost⟩ := Machine.run_append_iff.mp h
    obtain rfl := hpre.end_unique hm
    exact live_run hpre hpost hlast hlive

/-- A client that has one unanswered ping, of a second session of pings. -/
theorem heartbeat_accounting_ping :
    ∃ tr t, (serverMachine constants .gameState1).Run initial tr t ∧
      unanswered 10001 tr = 1 ∧ t.countOf 10001 = some 1 := by
  have hexec : (((serverMachine constants .gameState1).exec initial
      [.accept, .onMessage 10001 { header := { type := .clientAccept } } 0, .tick 10001 0,
        .onMessage 10001 (clientPing 0) 0, .tick 10001 0]).map fun r =>
      (unanswered 10001 r.1, r.2.statusOf 10001, decide (10001 ∈ r.2.waits))) =
        some (1, some .live, true) := by
    decide +kernel
  obtain ⟨⟨tr, t⟩, hrun, hview⟩ := Option.map_eq_some_iff.mp hexec
  simp only [Prod.mk.injEq, decide_eq_true_eq] at hview
  obtain ⟨hcount, hlive, hwait⟩ := hview
  have hacc := heartbeat_accounting (Machine.run_of_exec hrun) 10001
  refine ⟨tr, t, Machine.run_of_exec hrun, hcount, ?_⟩
  rw [(hacc.1 hlive hwait).1, hcount]

end

end Server

end AmongUs
