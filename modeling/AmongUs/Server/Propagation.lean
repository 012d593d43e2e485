import AmongUs.Client.HandleNetworking
import AmongUs.Server.Standing

/-!
What becomes of an update.

The server applies it to its own database and passes it on to every other
client whose connection it knows and whose socket is open. The one that sent
it gets a `ServerACK` only. `database_step` and `updateWrites_sentTo` say
this for any step of the server machine: the writes that a step makes to the
database of the server are the writes that the messages it posts will make
to the database of a client, unless the client is the sender.
-/

namespace AmongUs

open Networking Transition

/-- The messages that the effects post on one connection, in order. -/
def sentTo (client : ℕ) (effects : List Effect) : List Message :=
  effects.filterMap fun
    | .send c msg => if c = client then some msg else none
    | _ => none

/-- The update that an action hands to the server, with its sender. -/
def Server.Action.update (J : JsonText) : Server.Action → Option (ℕ × Json)
  | .onMessage c msg _ =>
      if msg.header.type = .clientUpdateGS then
        (J.parse (Relay.text msg)).map fun updates => (c, updates)
      else none
  | _ => none

/-- The `ClientUpdateGS` that an action hands to the server, with its sender. -/
def Server.Action.clientUpdate : Server.Action → Option (ℕ × Message)
  | .onMessage c msg _ => if msg.header.type = .clientUpdateGS then some (c, msg) else none
  | _ => none

/-- The writes of a list of updates. -/
def writesOf (log : List (ℕ × Json)) : List (String × Json) := log.flatMap fun u => u.2.items

@[simp] theorem writesOf_nil : writesOf [] = [] := rfl

theorem writesOf_append (log log' : List (ℕ × Json)) :
    writesOf (log ++ log') = writesOf log ++ writesOf log' := List.flatMap_append

section

variable {J : JsonText} {msg : Message}

@[simp] theorem mem_sentTo {c : ℕ} {effects : List Effect} :
    msg ∈ sentTo c effects ↔ .send c msg ∈ effects := by
  simp only [sentTo, List.mem_filterMap]
  constructor
  · rintro ⟨effect, heffect, hsend⟩
    cases effect with
    | send d m =>
        obtain ⟨rfl, rfl⟩ : d = c ∧ m = msg := by simpa using hsend
        exact heffect
    | onClientDisconnect d | close d => simp at hsend
  · intro h
    exact ⟨_, h, by simp⟩

theorem sentTo_send_cons (c d : ℕ) (msg : Message) (effects : List Effect) :
    sentTo c (.send d msg :: effects) =
      if d = c then msg :: sentTo c effects else sentTo c effects := by
  by_cases hdc : d = c <;> simp [sentTo, hdc]

@[simp] theorem sentTo_onClientDisconnect_cons (c d : ℕ) (effects : List Effect) :
    sentTo c (.onClientDisconnect d :: effects) = sentTo c effects := rfl

end

namespace Server

variable {K : Constants} {J : JsonText}

/-- The loop posts the message once on every open connection but one. -/
theorem sentTo_messageAllLoop {isOpen : ℕ → Bool} {msg : Message} {ignoreClient : Option ℕ}
    {ids : List ℕ} (hnodup : ids.Nodup) (c : ℕ) :
    sentTo c (messageAllLoop isOpen msg ignoreClient ids).2 =
      if c ∈ ids ∧ isOpen c = true ∧ some c ≠ ignoreClient then [msg] else [] := by
  induction ids with
  | nil => rfl
  | cons conn rest ih =>
      obtain ⟨hconn, hrest⟩ := List.nodup_cons.mp hnodup
      have hsnd : sentTo c (messageAllLoop isOpen msg ignoreClient (conn :: rest)).2 =
          if isOpen conn = true ∧ some conn ≠ ignoreClient ∧ conn = c then
            msg :: sentTo c (messageAllLoop isOpen msg ignoreClient rest).2
          else sentTo c (messageAllLoop isOpen msg ignoreClient rest).2 := by
        simp only [messageAllLoop]
        split
        · rename_i hopen
          split
          · rename_i hne
            simp [sentTo_send_cons, hopen, hne]
          · rename_i heq
            simp [hopen, heq]
        · rename_i hopen
          simp [hopen]
      rw [hsnd, ih hrest]
      by_cases hc : conn = c
      · subst hc
        simp [hconn]
      · simp [hc, Ne.symm hc]

theorem sentTo_messageAllClients (s : Server) (msg : Message) (ignoreClient : Option ℕ)
    (c : ℕ) :
    sentTo c (s.messageAllClients msg ignoreClient).2 =
      if c ∈ s.connectionsContainer ∧ s.isOpen c = true ∧ some c ≠ ignoreClient then [msg]
      else [] :=
  sentTo_messageAllLoop s.connectionsContainer.nodup c

section

variable {s s' : Server} {c d : ℕ} {msg : Message} {timeNow : Int64} {effects : List Effect}

theorem gameInstance_lockedSwitch {status : ConnectionStatus} {count : ℕ}
    (h : s.lockedSwitch K d status count timeNow = .ok (s', effects)) :
    s'.gameInstance = s.gameInstance := by
  rcases lockedSwitch_cases h with
    ⟨_, heq⟩ | ⟨_, _, rfl, _⟩ | ⟨_, _, rfl, _⟩ | ⟨_, rfl, _⟩
  · obtain rfl : s' = (s.giveUp d).1 := congrArg Prod.fst heq
    rfl
  all_goals rfl

/-- A tick posts at most a ping. -/
theorem sent_lockedSwitch {status : ConnectionStatus} {count : ℕ}
    (h : s.lockedSwitch K d status count timeNow = .ok (s', effects))
    (hmsg : .send c msg ∈ effects) : msg.header.type = .clientPing := by
  rcases lockedSwitch_cases h with ⟨_, heq⟩ | ⟨_, _, _, rfl⟩ | ⟨_, _, _, _, rfl⟩ | ⟨_, _, rfl⟩
  · obtain rfl : effects = (s.giveUp d).2 := congrArg Prod.snd heq
    simp only [giveUp, disconnect, List.mem_cons, reduceCtorEq, false_or] at hmsg
    split at hmsg <;> simp at hmsg
  · simp at hmsg
  · obtain ⟨rfl, rfl⟩ : c = d ∧ msg = clientPing timeNow := by simpa using hmsg
    rfl
  · simp at hmsg

theorem update_of_ne (h : msg.header.type ≠ .clientUpdateGS) :
    (Action.onMessage d msg timeNow).update J = none := if_neg h

/-- An update that was handled was taken apart, parsed and applied. -/
theorem onMessage_clientUpdate (htype : msg.header.type = .clientUpdateGS)
    (h : s.onMessage J d msg timeNow = .ok (s', effects)) :
    ∃ updates, J.parse (Relay.text msg) = some updates ∧
      (s', effects) = s.applyUpdates d msg.header.id (Relay.forward msg) updates := by
  rcases onMessage_cases h with
    ⟨_, hcast, _⟩ | ⟨hall, _⟩ | ⟨_, left, newMsgAll, rcvBuf, updates, htext, hparse, heq⟩ |
      ⟨_, hcast, _⟩
  · exact absurd (Or.inr htype) hcast
  · simp [htype] at hall
  · obtain ⟨_, rfl, rfl, hid⟩ := Relay.serverText_ok htext
    exact ⟨updates, hparse, by rw [← hid, heq]⟩
  · exact absurd (Or.inr htype) hcast

/-- Only an update is acknowledged, and only an update is passed on. -/
theorem sent_of_ne (htype : msg.header.type ≠ .clientUpdateGS)
    (h : s.onMessage J d msg timeNow = .ok (s', effects)) {m : Message}
    (hm : .send c m ∈ effects) :
    m.header.type ≠ .serverACK ∧ m.header.type ≠ .serverUpdateGS := by
  rcases onMessage_cases h with
    ⟨_, _, dur, _, rfl⟩ | ⟨_, heq⟩ | ⟨hupdate, _⟩ | ⟨_, _, _, rfl⟩
  · simp at hm
  · obtain rfl := congrArg Prod.snd heq
    rw [← mem_sentTo, sentTo_messageAllClients] at hm
    split at hm
    · obtain rfl := List.mem_singleton.mp hm
      simp [serverMessage, Message.push, Message.setBody]
    · simp at hm
  · exact absurd hupdate htype
  · split at hm
    · rename_i hping
      obtain ⟨_, rfl⟩ : c = d ∧ m = msg := by simpa using hm
      simp [hping]
    · simp at hm

theorem gameInstance_of_ne (htype : msg.header.type ≠ .clientUpdateGS)
    (h : s.onMessage J d msg timeNow = .ok (s', effects)) : s'.gameInstance = s.gameInstance := by
  rcases onMessage_cases h with
    ⟨_, _, dur, rfl, _⟩ | ⟨_, heq⟩ | ⟨hupdate, _⟩ | ⟨_, _, rfl, _⟩
  · rfl
  · obtain rfl := congrArg Prod.fst heq
    rfl
  · exact absurd hupdate htype
  · rfl

/-- What is done with a message: either it is no update and no update is
posted because of it, or it is applied, acknowledged and passed on. -/
theorem update_cases (h : s.onMessage J d msg timeNow = .ok (s', effects)) :
    ((Action.onMessage d msg timeNow).update J = none ∧ s'.gameInstance = s.gameInstance ∧
      ∀ c m, .send c m ∈ effects → m.header.type ≠ .serverUpdateGS) ∨
    ∃ updates id, (Action.onMessage d msg timeNow).update J = some (d, updates) ∧
      J.parse (Relay.text msg) = some updates ∧
      (s', effects) = s.applyUpdates d id (Relay.forward msg) updates := by
  by_cases htype : msg.header.type = .clientUpdateGS
  · obtain ⟨updates, hparse, heq⟩ := onMessage_clientUpdate htype h
    exact Or.inr ⟨updates, _, by simp [Action.update, htype, hparse], hparse, heq⟩
  · refine Or.inl ⟨update_of_ne htype, gameInstance_of_ne htype h, fun c m hm => ?_⟩
    exact (sent_of_ne htype h hm).2

/-- What the server posts because of an update. -/
theorem sentTo_applyUpdates (s : Server) (c d : ℕ) (id : UInt16) (newMsgAll : Message)
    (updates : Json) :
    sentTo c (s.applyUpdates d id newMsgAll updates).2 =
      if c = d then [{ header := { type := .serverACK, id := id } }]
      else if c ∈ s.connectionsContainer ∧ s.isOpen c = true then [newMsgAll] else [] := by
  simp only [applyUpdates, GameInstance.updateDatabase_eq, if_true, sentTo_send_cons,
    sentTo_messageAllClients, ne_eq, Option.some.injEq]
  by_cases hc : c = d
  · simp [hc]
  · simp [hc, Ne.symm hc]

end

section

variable {e : Event Server Action (List Effect)}

/-- A step that handles no update posts no acknowledgement and passes
nothing on; one that does applies the update. -/
theorem clientUpdate_cases (h : (serverMachine K J).Takes e) :
    (e.act.clientUpdate = none ∧ ∀ c m, .send c m ∈ e.out →
      m.header.type ≠ .serverACK ∧ m.header.type ≠ .serverUpdateGS) ∨
    ∃ d msg updates, e.act.clientUpdate = some (d, msg) ∧
      J.parse (Relay.text msg) = some updates ∧
      (e.dst, e.out) = e.src.applyUpdates d msg.header.id (Relay.forward msg) updates := by
  rcases takes_cases h with
    ⟨hact, heq⟩ | ⟨d, hact, _, _, hout⟩ | ⟨d, msg, timeNow, hact, _, hret⟩ |
      ⟨d, timeNow, entry, hact, _, _, hswitch⟩
  · refine Or.inl ⟨by rw [hact]; rfl, fun c m hm => ?_⟩
    rw [show e.out = e.src.accept.2 from congrArg Prod.snd heq] at hm
    obtain ⟨_, rfl⟩ : c = e.src.nIDCounter + 1 ∧
        m = { header := { type := .serverAccept } } := by
      simpa [accept, onClientConnect] using hm
    simp
  · exact Or.inl ⟨by rw [hact]; rfl, fun c m hm => by simp [hout] at hm⟩
  · by_cases htype : msg.header.type = .clientUpdateGS
    · obtain ⟨updates, hparse, heq⟩ := onMessage_clientUpdate htype hret
      exact Or.inr ⟨d, msg, updates, by rw [hact]; exact if_pos htype, hparse, heq⟩
    · exact Or.inl ⟨by rw [hact]; exact if_neg htype, fun c m hm => sent_of_ne htype hret hm⟩
  · refine Or.inl ⟨by rw [hact]; rfl, fun c m hm => ?_⟩
    simp [sent_lockedSwitch hswitch hm]

/-- What a step writes to the database of the server. -/
theorem database_step (h : (serverMachine K J).Takes e) :
    e.dst.gameInstance.database =
      Replica.writeAll e.src.gameInstance.database (writesOf (e.act.update J).toList) := by
  rcases takes_cases h with
    ⟨hact, heq⟩ | ⟨d, hact, _, hdst, _⟩ | ⟨d, msg, timeNow, hact, _, hret⟩ |
      ⟨d, timeNow, entry, hact, _, _, hswitch⟩
  · rw [hact, show e.dst = e.src.accept.1 from congrArg Prod.fst heq]
    rfl
  · rw [hact, hdst]
    rfl
  · rcases update_cases hret with ⟨hnone, hsame, _⟩ | ⟨updates, id, hsome, _, heq⟩
    · rw [hact, hnone, hsame]
      rfl
    · rw [hact, hsome, show e.dst = _ from congrArg Prod.fst heq]
      simp [writesOf, applyUpdates, GameInstance.updateDatabase_eq, messageAllClients]
  · rw [hact, gameInstance_lockedSwitch hswitch]
    rfl

/-- The messages that a step posts to one client write what the step wrote,
if the client is there and is not the sender, and else nothing. -/
theorem updateWrites_sentTo (h : (serverMachine K J).Takes e) (c : ℕ) :
    (sentTo c e.out).flatMap (Client.updateWrites J) =
      if c ∈ e.src.connectionsContainer ∧ e.src.isOpen c = true then
        writesOf ((e.act.update J).toList.filter fun u => u.1 ≠ c)
      else [] := by
  have hquiet (hupdate : e.act.update J = none)
      (hsent : ∀ d msg, .send d msg ∈ e.out → msg.header.type ≠ .serverUpdateGS) :
      (sentTo c e.out).flatMap (Client.updateWrites J) =
        if c ∈ e.src.connectionsContainer ∧ e.src.isOpen c = true then
          writesOf ((e.act.update J).toList.filter fun u => u.1 ≠ c)
        else [] := by
    have hnil : (sentTo c e.out).flatMap (Client.updateWrites J) = [] :=
      List.flatMap_eq_nil_iff.mpr fun msg hmsg =>
        Client.updateWrites_of_ne (hsent c msg (mem_sentTo.mp hmsg))
    simp [hnil, hupdate]
  rcases takes_cases h with
    ⟨hact, heq⟩ | ⟨d, hact, _, _, hout⟩ | ⟨d, msg, timeNow, hact, _, hret⟩ |
      ⟨d, timeNow, entry, hact, _, _, hswitch⟩
  · refine hquiet (by rw [hact]; rfl) fun d msg hmsg => ?_
    rw [show e.out = e.src.accept.2 from congrArg Prod.snd heq] at hmsg
    obtain ⟨_, rfl⟩ : d = e.src.nIDCounter + 1 ∧
        msg = { header := { type := .serverAccept } } := by
      simpa [accept, onClientConnect] using hmsg
    simp
  · exact hquiet (by rw [hact]; rfl) fun d msg hmsg => by simp [hout] at hmsg
  · rcases update_cases hret with ⟨hnone, _, hsent⟩ | ⟨updates, id, hsome, hparse, heq⟩
    · exact hquiet (by rw [hact, hnone]) hsent
    · -- The acknowledgement writes nothing, the broadcast the update.
      rw [hact, hsome, show e.out = _ from congrArg Prod.snd heq, sentTo_applyUpdates]
      by_cases hc : c = d
      · simp [hc, Client.updateWrites]
      · by_cases hthere : c ∈ e.src.connectionsContainer ∧ e.src.isOpen c = true
        · simp [hc, hthere, Ne.symm hc, Client.updateWrites_forward hparse, writesOf]
        · simp [hc, hthere]
  · refine hquiet (by rw [hact]; rfl) fun d msg hmsg => ?_
    simp [sent_lockedSwitch hswitch hmsg]

/-! ### Runs -/

variable {tr : List (Event Server Action (List Effect))} {s t : Server}

/-- The updates that were applied, oldest first. -/
def updates (J : JsonText) (tr : List (Event Server Action (List Effect))) : List (ℕ × Json) :=
  tr.filterMap fun e => e.act.update J

/-- The updates of others that were applied after the client was accepted. -/
def heard (J : JsonText) (c : ℕ) (tr : List (Event Server Action (List Effect))) :
    List (ℕ × Json) :=
  (updates J (tr.filter fun e => e.src.Accepted c)).filter fun u => u.1 ≠ c

theorem updates_snoc (tr : List (Event Server Action (List Effect)))
    (e : Event Server Action (List Effect)) :
    updates J (tr ++ [e]) = updates J tr ++ (e.act.update J).toList := by
  cases h : e.act.update J <;> simp [updates, h]

theorem heard_snoc (c : ℕ) (tr : List (Event Server Action (List Effect)))
    (e : Event Server Action (List Effect)) :
    heard J c (tr ++ [e]) = heard J c tr ++
      if e.src.Accepted c then (e.act.update J).toList.filter fun u => u.1 ≠ c else [] := by
  rw [heard, List.filter_append]
  by_cases hc : e.src.Accepted c
  · rw [List.filter_singleton, decide_eq_true hc, cond_true, updates_snoc, List.filter_append,
      if_pos hc, heard]
  · rw [List.filter_singleton, decide_eq_false hc, cond_false, List.append_nil, if_neg hc,
      List.append_nil, heard]

/-- The database of the server is what its updates make of it. -/
theorem database_run (h : (serverMachine K J).Run s tr t) :
    t.gameInstance.database =
      Replica.writeAll s.gameInstance.database (writesOf (updates J tr)) := by
  induction h with
  | nil => rfl
  | snoc _ htakes ih =>
      rw [database_step htakes, ih, updates_snoc, writesOf_append, Replica.writeAll_append]

theorem connected_change {v : Standing} {ch : Change} (hch : ch ≠ .closed)
    (h : v.registered = true ∧ v.isOpen = true) :
    (v.change K ch).registered = true ∧ (v.change K ch).isOpen = true := by
  obtain ⟨hreg, hopen⟩ := h
  cases ch with
  | none | answered => exact ⟨hreg, hopen⟩
  | accepted => exact ⟨rfl, rfl⟩
  | closed => exact absurd rfl hch
  | pruned => exact ⟨by simp [Standing.change, hreg, hopen], hopen⟩
  | ticked =>
      obtain ⟨_ | ⟨status, count⟩, waits, timer, registered, isOpen⟩ := v
      · exact ⟨hreg, hopen⟩
      · simp only [Standing.change, Standing.switch]
        split
        · split <;> exact ⟨hreg, hopen⟩
        · split <;> exact ⟨hreg, hopen⟩
        · exact ⟨hreg, hopen⟩
        · exact ⟨hreg, hopen⟩

theorem changeOf_ne_closed {s : Server} {a : Action} {c : ℕ} (ha : a ≠ .close c) :
    s.changeOf a c ≠ .closed := by
  cases a with
  | accept => simp [changeOf, ite_eq_iff]
  | tick d timeNow => simp [changeOf, ite_eq_iff]
  | onMessage d msg timeNow => simp [changeOf, ite_eq_iff]
  | close d =>
      have hne : c ≠ d := by
        rintro rfl
        exact ha rfl
      simp [changeOf, hne]

/-- While no socket is closed, every accepted client is in the container and
its socket is open. -/
theorem connected_run (h : (serverMachine K J).Run initial tr t)
    (hopen : ∀ c, .close c ∉ tr.map Event.act) :
    t.Numbered ∧ ∀ c, t.Accepted c → c ∈ t.connectionsContainer ∧ t.isOpen c = true := by
  have hall := h.visited_invariant (g := fun _ a => ∀ c, a ≠ .close c)
    (I := fun s => s.Numbered ∧
      ∀ c, s.Accepted c → (s.standing c).registered = true ∧ (s.standing c).isOpen = true)
    ⟨numbered_initial, fun c hc => ?_⟩
    (fun e he c hact => hopen c (List.mem_map.mpr ⟨e, he, hact⟩))
    fun e htakes hact hsrc => ⟨hsrc.1.step htakes, fun c hc => ?_⟩
  · obtain ⟨hnum, hstanding⟩ := hall t h.end_mem_visited
    exact ⟨hnum, fun c hc => by simpa [standing] using hstanding c hc⟩
  · obtain ⟨hlow, hhigh⟩ := hc
    exact absurd (hlow.trans_le hhigh) (by simp [initial])
  · rw [standing_step htakes]
    rcases (accepted_step htakes hsrc.1 c).mp hc with hold | hnew
    · exact connected_change (changeOf_ne_closed (hact c)) (hsrc.2 c hold)
    · rw [hnew]
      exact ⟨rfl, rfl⟩

/-- While all clients stay, a step posts to each of them what it lets the
client hear. -/
theorem writes_heard (h : (serverMachine K J).Takes e) (hnum : e.src.Numbered)
    (hconn : ∀ c, e.src.Accepted c → c ∈ e.src.connectionsContainer ∧ e.src.isOpen c = true)
    (c : ℕ) :
    (sentTo c e.out).flatMap (Client.updateWrites J) =
      writesOf (if e.src.Accepted c then (e.act.update J).toList.filter fun u => u.1 ≠ c
        else []) := by
  rw [updateWrites_sentTo h]
  by_cases hc : e.src.Accepted c
  · rw [if_pos (hconn c hc), if_pos hc]
  · have hstanding := hnum.fresh c hc
    have hout : c ∉ e.src.connectionsContainer := by
      simpa [standing] using congrArg Standing.registered hstanding
    rw [if_neg fun hin => hout hin.1, if_neg hc, writesOf_nil]

end

end Server

end AmongUs
