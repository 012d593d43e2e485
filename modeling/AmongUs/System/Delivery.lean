import AmongUs.System.Channels

/-!
What becomes of the updates of one client at the others.

The server acknowledges every update it handles to its sender, once, and
relays it to the other clients that it finds connected. A connection keeps
the order, so what a client has handled is the beginning of what was relayed
to it (`textsHandled_append`), and two clients that an update was relayed to
handle it in the same place (`seen_comparable`).
-/

namespace AmongUs

open Networking Transition

theorem flatMap_ite {α β : Type*} (l : List α) (p : α → Bool) (f : α → β) :
    (l.flatMap fun a => if p a then [f a] else []) = (l.filter p).map f := by
  induction l with
  | nil => rfl
  | cons a l ih =>
      by_cases hp : p a
      · simp [hp, ih]
      · simp [hp, ih]

/-- The acknowledgement of an update. -/
def Server.ackMessage (id : UInt16) : Message := { header := { type := .serverACK, id := id } }

/-- The acknowledgements among the effects of a step, with their receivers. -/
def acks (effects : List Effect) : List (ℕ × Message) :=
  effects.filterMap fun
    | .send c msg => if msg.header.type = .serverACK then some (c, msg) else none
    | _ => none

theorem acks_eq_nil {effects : List Effect}
    (h : ∀ c msg, .send c msg ∈ effects → msg.header.type ≠ .serverACK) : acks effects = [] := by
  refine List.filterMap_eq_nil_iff.mpr fun effect heffect => ?_
  cases effect with
  | send c msg => exact if_neg (h c msg heffect)
  | onClientDisconnect c | close c => rfl

/-- An update has one acknowledgement. -/
theorem Server.acks_applyUpdates (s : Server) (d : ℕ) (id : UInt16) (msg : Message)
    (updates : Json) :
    acks (s.applyUpdates d id (Relay.forward msg) updates).2 =
      [(d, ackMessage id)] := by
  have hrest : acks (s.messageAllClients (Relay.forward msg) (some d)).2 = [] := by
    refine acks_eq_nil fun c m hm => ?_
    rw [← mem_sentTo, sentTo_messageAllClients] at hm
    split at hm
    · obtain rfl := List.mem_singleton.mp hm
      simp [Relay.forward_type]
    · simp at hm
  have hcons : acks (s.applyUpdates d id (Relay.forward msg) updates).2 =
      (d, ackMessage id) :: acks (s.messageAllClients (Relay.forward msg) (some d)).2 := by
    rw [applyUpdates, GameInstance.updateDatabase_eq]
    rfl
  rw [hcons, hrest]

/-- The text that a client takes out of a `ServerUpdateGS`. -/
def Client.updateText (msg : Message) : Option (List UInt8) :=
  if msg.header.type = .serverUpdateGS then (Relay.clientText msg).toOption.map Prod.snd
  else none

theorem Client.updateText_of_ne {msg : Message} (h : msg.header.type ≠ .serverUpdateGS) :
    updateText msg = none := if_neg h

theorem Client.updateText_forward (msg : Message) :
    updateText (Relay.forward msg) = some (Relay.text msg) := by
  obtain ⟨left, htext, _⟩ := Relay.clientText_forward msg
  simp [updateText, Relay.forward_type, htext, Except.toOption]

namespace System

variable {K : Constants} {J : JsonText} {S : System} {e : Event System Action (List Effect)}
  {tr : List (Event System Action (List Effect))}

/-- The `ClientUpdateGS` that a step handles, with its sender. -/
def updateOf (e : Event System Action (List Effect)) : Option (ℕ × Message) :=
  (e.src.serverAction e.act).bind fun b => b.1.clientUpdate

/-- The text of the update that a step handles. -/
def textOf (e : Event System Action (List Effect)) : List UInt8 :=
  ((updateOf e).map fun u => Relay.text u.2).getD []

/-- The step handles an update of another client while this one is in the
container and its socket is open. -/
def relaysTo (c : ℕ) (e : Event System Action (List Effect)) : Bool :=
  (updateOf e).any fun u => u.1 ≠ c ∧ c ∈ e.src.server.connectionsContainer ∧
    e.src.server.isOpen c = true

/-- The texts of the updates that a client has handled. -/
def textsHandled (c : ℕ) (tr : List (Event System Action (List Effect))) : List (List UInt8) :=
  (tr.flatMap (taken c)).filterMap Client.updateText

/-- The steps whose updates a client has handled. -/
def seen (c : ℕ) (tr : List (Event System Action (List Effect))) :
    List (Event System Action (List Effect)) :=
  (tr.filter (relaysTo c)).take (textsHandled c tr).length

/-- The update that a client requests in a step. -/
def updateRequested (J : JsonText) (c : ℕ) (e : Event System Action (List Effect)) :
    Option Message :=
  match e.act with
  | .request d (.updateGameState id updates) =>
      if d = c then some (Client.updateGameState id (J.dump updates)) else none
  | _ => none

/-- What a step does with an update, if it handles one. -/
theorem updateOf_cases (h : (systemMachine K J).Takes e) :
    (updateOf e = none ∧ ∀ c m, .send c m ∈ e.out →
      m.header.type ≠ .serverACK ∧ m.header.type ≠ .serverUpdateGS) ∨
    ∃ d msg updates, updateOf e = some (d, msg) ∧ J.parse (Relay.text msg) = some updates ∧
      (e.dst.server, e.out) =
        e.src.server.applyUpdates d msg.header.id (Relay.forward msg) updates := by
  cases hb : e.src.serverAction e.act with
  | none => exact Or.inl ⟨by simp [updateOf, hb], by simp [(takes_elsewhere h hb).1]⟩
  | some b =>
      have hupdate : updateOf e = b.1.clientUpdate := by simp [updateOf, hb]
      rw [hupdate]
      exact Server.clientUpdate_cases (takes_server h hb).1

/-- Sockets are not opened or closed while an update is applied. -/
theorem isOpen_applyUpdates (s : Server) (d : ℕ) (id : UInt16) (newMsgAll : Message)
    (updates : Json) : (s.applyUpdates d id newMsgAll updates).1.isOpen = s.isOpen := by
  rw [Server.applyUpdates, GameInstance.updateDatabase_eq]
  rfl

/-! ### One step -/

theorem acks_step (h : (systemMachine K J).Takes e) :
    acks e.out =
      (updateOf e).toList.map fun u => (u.1, Server.ackMessage u.2.header.id) := by
  rcases updateOf_cases h with ⟨hnone, hsent⟩ | ⟨d, msg, updates, hsome, _, heq⟩
  · rw [hnone, acks_eq_nil fun c m hm => (hsent c m hm).1]
    rfl
  · rw [hsome, show e.out = _ from congrArg Prod.snd heq, Server.acks_applyUpdates]
    rfl

/-- The sender of an update gets no `ServerUpdateGS`. -/
theorem not_sent_to_originator (h : (systemMachine K J).Takes e) {u : ℕ × Message}
    (hu : updateOf e = some u) :
    ∀ m, .send u.1 m ∈ e.out → m.header.type ≠ .serverUpdateGS := by
  intro m hm
  rcases updateOf_cases h with ⟨_, hsent⟩ | ⟨d, msg, updates, hsome, _, heq⟩
  · exact (hsent _ m hm).2
  · obtain rfl : (d, msg) = u := Option.some.inj (hsome.symm.trans hu)
    rw [← mem_sentTo, show e.out = _ from congrArg Prod.snd heq, Server.sentTo_applyUpdates,
      if_pos rfl, List.mem_singleton] at hm
    simp [hm]

/-- What a step posts to a client holds the text of its update if the
update is relayed to this client, and else no text. -/
theorem texts_step (h : (systemMachine K J).Takes e) (c : ℕ) :
    (posts c e).filterMap Client.updateText = if relaysTo c e then [textOf e] else [] := by
  rcases updateOf_cases h with ⟨hnone, hsent⟩ | ⟨d, msg, updates, hsome, _, heq⟩
  · have hquiet : (posts c e).filterMap Client.updateText = [] := by
      refine List.filterMap_eq_nil_iff.mpr fun m hm => Client.updateText_of_ne ?_
      rw [posts] at hm
      split at hm
      · exact (hsent c m (mem_sentTo.mp hm)).2
      · simp at hm
    simp [hquiet, relaysTo, hnone]
  · have hopen : e.dst.server.isOpen = e.src.server.isOpen := by
      rw [show e.dst.server = _ from congrArg Prod.fst heq, isOpen_applyUpdates]
    have htext : textOf e = Relay.text msg := by simp [textOf, hsome]
    rw [posts, hopen, show e.out = _ from congrArg Prod.snd heq, Server.sentTo_applyUpdates,
      htext]
    by_cases hc : c = d
    · -- The acknowledgement holds no text.
      subst hc
      have hack : Client.updateText (Server.ackMessage msg.header.id) = none :=
        Client.updateText_of_ne (by simp [Server.ackMessage])
      rw [Server.ackMessage] at hack
      by_cases hopen' : e.src.server.isOpen c = true
      · simp [relaysTo, hsome, hack, hopen']
      · simp [relaysTo, hsome, hopen']
    · by_cases hthere : c ∈ e.src.server.connectionsContainer ∧ e.src.server.isOpen c = true
      · simp [relaysTo, hsome, hc, Ne.symm hc, hthere, Client.updateText_forward]
      · by_cases hopen' : e.src.server.isOpen c = true
        · have hout : c ∉ e.src.server.connectionsContainer := fun hin => hthere ⟨hin, hopen'⟩
          simp [relaysTo, hsome, hc, hout, hopen']
        · simp [relaysTo, hsome, hopen']

/-- What a client posts holds an update where it requested one. -/
theorem updates_answers (c : ℕ) (e : Event System Action (List Effect)) :
    (answers J c e).filter (fun m => m.header.type = .clientUpdateGS) =
      (updateRequested J c e).toList := by
  cases hact : e.act with
  | request d r =>
      by_cases hd : d = c
      · cases r with
        | pingServer timeNow =>
            simp [answers, updateRequested, hact, hd, Request.message, Client.pingServer,
              Message.push, Message.setBody]
        | messageAll =>
            simp [answers, updateRequested, hact, hd, Request.message, Client.messageAll]
        | updateGameState id updates =>
            simp [answers, updateRequested, hact, hd, Request.message, Client.updateGameState]
      · cases r <;> simp [answers, updateRequested, hact, hd]
  | connect | close d | tick d timeNow | arrive d | serve timeNow =>
      simp [answers, updateRequested, taken, hact]
  | receive d =>
      simp only [answers, updateRequested, hact, Option.toList_none, List.filter_eq_nil_iff]
      intro m hm
      obtain ⟨msg, _, hm⟩ := List.mem_flatMap.mp hm
      simpa using Client.type_of_replies hm

/-! ### Runs -/

/-- **Nothing is lost on the way down.** The texts that a client has handled
and those on their way to it are the ones that were relayed to it. -/
theorem textsHandled_append (h : (systemMachine K J).Run initial tr S) (c : ℕ) :
    textsHandled c tr ++ (S.toClient c).filterMap Client.updateText =
      (tr.filter (relaysTo c)).map textOf := by
  have hrelayed : (tr.flatMap (posts c)).filterMap Client.updateText =
      (tr.filter (relaysTo c)).map textOf := by
    rw [List.filterMap_flatMap, List.flatMap_congr fun e he => texts_step (h.takes e he) c]
    exact flatMap_ite _ _ _
  rw [textsHandled, ← List.filterMap_append, run_toClient h c, hrelayed]

theorem textsHandled_eq (h : (systemMachine K J).Run initial tr S) (c : ℕ) :
    textsHandled c tr = (seen c tr).map textOf := by
  have hprefix := textsHandled_append h c
  rw [seen, List.map_take, ← hprefix, List.take_left]

/-- Of the updates that were relayed to two clients, both have seen a
beginning of the same list. -/
theorem seen_comparable (c d : ℕ) (tr : List (Event System Action (List Effect))) :
    (seen c tr).filter (relaysTo d) <+: (seen d tr).filter (relaysTo c) ∨
      (seen d tr).filter (relaysTo c) <+: (seen c tr).filter (relaysTo d) := by
  have hc : (seen c tr).filter (relaysTo d) <+: (tr.filter (relaysTo c)).filter (relaysTo d) :=
    (List.take_prefix _ _).filter _
  have hd : (seen d tr).filter (relaysTo c) <+: (tr.filter (relaysTo d)).filter (relaysTo c) :=
    (List.take_prefix _ _).filter _
  rw [List.filter_filter] at hc hd
  rw [List.filter_congr fun e _ => Bool.and_comm (relaysTo c e) (relaysTo d e)] at hd
  exact List.prefix_or_prefix_of_prefix hc hd

/-- **Exactly once and in order.** The server acknowledges each update it
handles once, to its sender and under its identifier, and posts no update to
its sender. What a client has handled is a beginning of what was relayed to
it, and the rest is on its way; two clients see what was relayed to both in
one order. And the server has handled, in order, the updates that a client
has requested, but for those on their way. -/
theorem relay_exactlyOnce (h : (systemMachine K J).Run initial tr S) :
    (∀ e ∈ tr, acks e.out =
      (updateOf e).toList.map fun u => (u.1, Server.ackMessage u.2.header.id)) ∧
    (∀ e ∈ tr, ∀ u, updateOf e = some u →
      ∀ m, .send u.1 m ∈ e.out → m.header.type ≠ .serverUpdateGS) ∧
    (∀ c, textsHandled c tr = (seen c tr).map textOf ∧
      textsHandled c tr ++ (S.toClient c).filterMap Client.updateText =
        (tr.filter (relaysTo c)).map textOf) ∧
    (∀ c d, (seen c tr).filter (relaysTo d) <+: (seen d tr).filter (relaysTo c) ∨
      (seen d tr).filter (relaysTo c) <+: (seen c tr).filter (relaysTo d)) ∧
    ∀ c, (tr.flatMap (handled c) ++ pending c S).filter
      (fun m => m.header.type = .clientUpdateGS) = tr.filterMap (updateRequested J c) := by
  refine ⟨fun e he => acks_step (h.takes e he),
    fun e he u hu => not_sent_to_originator (h.takes e he) hu,
    fun c => ⟨textsHandled_eq h c, textsHandled_append h c⟩,
    fun c d => seen_comparable c d tr, fun c => ?_⟩
  rw [run_toServer h c, List.filter_flatMap, List.filterMap_eq_flatMap_toList]
  exact List.flatMap_congr fun e _ => updates_answers c e

/-- An update of one client reaches the other. -/
theorem relay_exactlyOnce_two :
    ∃ tr S, (systemMachine constants .gameState1).Run initial tr S ∧
      textsHandled 10002 tr = [JsonText.gameState1.gameState1Text] ∧
      textsHandled 10002 tr = (seen 10002 tr).map textOf := by
  have hexec : (((systemMachine constants .gameState1).exec initial
      [.connect, .connect, .receive 10002, .request 10001 (.updateGameState 7 .gameState1),
        .arrive 10001, .serve 0, .receive 10002]).map fun r => textsHandled 10002 r.1) =
        some [JsonText.gameState1.gameState1Text] := by
    decide +kernel
  obtain ⟨⟨tr, S⟩, hrun, hview⟩ := Option.map_eq_some_iff.mp hexec
  exact ⟨tr, S, Machine.run_of_exec hrun, hview,
    ((relay_exactlyOnce (Machine.run_of_exec hrun)).2.2.1 10002).1⟩

end System

end AmongUs
