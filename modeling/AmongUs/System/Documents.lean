import AmongUs.Database
import AmongUs.System.Joining
import AmongUs.System.Sound

/-!
The documents, from the client that requests an update to every database.

Between two databases a document is a text in the body of a message, twice
reversed. Here the bytes are forgotten: the server applies the documents of
each client in the order of the requests, every other client that is there
applies them in the order of the server, and a database is what the documents
make of the constructor's (`documents_delivered`). So the server puts the
updates in one order, that of each client among them, and whoever was there
from the start and has caught up has applied all but its own in this order
(`one_order`).
-/

namespace AmongUs

open Networking Transition

/-- The document of an update that a client has posted. -/
def JsonText.document (J : JsonText) (msg : Message) : Option Json :=
  if msg.header.type = .clientUpdateGS then J.parse (Relay.text msg) else none

/-- The document of an update that was relayed. -/
def JsonText.relayed (J : JsonText) (msg : Message) : Option Json :=
  (Client.updateText msg).bind J.parse

namespace GameInstance

theorem updateAll_writesOf (us : List (ℕ × Json)) :
    (initial.updateAll (us.map Prod.snd)).database =
      Replica.writeAll initial.database (writesOf us) := by
  rw [updateAll_eq, List.flatMap_map, writesOf]

end GameInstance

/-- The update of an action of the server, from its message. -/
theorem Server.Action.update_eq (J : JsonText) (a : Server.Action) :
    a.update J =
      a.clientUpdate.bind fun u =>
        (J.parse (Relay.text u.2)).map fun updates => (u.1, updates) := by
  cases a with
  | onMessage c msg timeNow =>
      rw [update, clientUpdate]
      split <;> rfl
  | accept | close c | tick c timeNow => rfl

/-- While no socket is closed, a client is there once it is accepted. -/
theorem Server.updateFor_eq {K : Constants} {J : JsonText} {t : Server}
    {tr : List (Event Server Server.Action (List Effect))}
    (h : (serverMachine K J).Run initial tr t) (hopen : ∀ c, .close c ∉ tr.map Event.act)
    {e : Event Server Server.Action (List Effect)} (he : e ∈ tr) (c : ℕ) :
    updateFor J c e = if e.src.Accepted c then (e.act.update J).toList else [] := by
  obtain ⟨pre, post, rfl⟩ := List.append_of_mem he
  obtain ⟨hnum, hconn⟩ := connected_run h.split.1 fun d hd => hopen d (by simp_all)
  rw [updateFor]
  by_cases hc : e.src.Accepted c
  · rw [if_pos (hconn c hc), if_pos hc]
  · have hout : c ∉ e.src.connectionsContainer := by
      simpa [standing] using congrArg Standing.registered (hnum.fresh c hc)
    rw [if_neg fun hin => hout hin.1, if_neg hc]

theorem Server.flatMap_updateFor {K : Constants} {J : JsonText} {t : Server}
    {tr : List (Event Server Server.Action (List Effect))}
    (h : (serverMachine K J).Run initial tr t) (hopen : ∀ c, .close c ∉ tr.map Event.act)
    (c : ℕ) : tr.flatMap (updateFor J c) = updates J (tr.filter fun e => e.src.Accepted c) := by
  rw [updates, List.filterMap_filter, List.filterMap_eq_flatMap_toList]
  refine List.flatMap_congr fun e he => ?_
  rw [updateFor_eq h hopen he c]
  by_cases hc : e.src.Accepted c <;> simp [hc]

namespace System

variable {K : Constants} {J : JsonText} {S : System} {e : Event System Action (List Effect)}
  {tr : List (Event System Action (List Effect))}

/-- The document that a client requests an update with. -/
def Action.document (c : ℕ) : Action → Option Json
  | .request d (.updateGameState _ updates) => if d = c then some updates else none
  | _ => none

def documentRequested (c : ℕ) (e : Event System Action (List Effect)) : Option Json :=
  e.act.document c

theorem documentsRequested_eq (c : ℕ) (tr : List (Event System Action (List Effect))) :
    tr.filterMap (documentRequested c) = (tr.map Event.act).filterMap (Action.document c) := by
  rw [List.filterMap_map]
  rfl

/-- The documents that a client has applied. -/
def documentsApplied (J : JsonText) (c : ℕ) (tr : List (Event System Action (List Effect))) :
    List Json :=
  (tr.flatMap (taken c)).filterMap J.relayed

/-! ### Up -/

theorem filterMap_document (msgs : List Message) :
    msgs.filterMap J.document =
      (msgs.filter fun m => m.header.type = .clientUpdateGS).filterMap fun m =>
        J.parse (Relay.text m) := by
  rw [List.filterMap_filter]
  refine List.filterMap_congr fun m _ => ?_
  simp [JsonText.document]

/-- What a client posts in a step holds the document that it requests an
update with, and no other. -/
theorem documents_answers (hdocs : e.act.ReadsBack J) (c : ℕ) :
    (answers J c e).filterMap J.document = (documentRequested c e).toList := by
  rw [filterMap_document, updates_answers]
  cases hact : e.act with
  | request d r =>
      cases r with
      | updateGameState id updates =>
          rw [hact] at hdocs
          obtain ⟨hparse, hlen⟩ := hdocs
          by_cases hd : d = c
          · simp [updateRequested, documentRequested, Action.document, hact, hd,
              Relay.text_updateGameState id hlen, hparse]
          · simp [updateRequested, documentRequested, Action.document, hact, hd]
      | pingServer timeNow | messageAll =>
          simp [updateRequested, documentRequested, Action.document, hact]
  | connect | close d | tick d timeNow | arrive d | serve timeNow | receive d =>
      simp [updateRequested, documentRequested, Action.document, hact]

theorem update_serverEvent (e : Event System Action (List Effect)) :
    (serverEvent e).bind (fun e' => e'.act.update J) =
      (servedMessage e).bind fun p => (J.document p.2).map fun updates => (p.1, updates) := by
  cases hact : e.act with
  | serve timeNow =>
      cases hqueue : e.src.messagesIn with
      | nil => simp [serverEvent, servedMessage, serverAction, hact, hqueue]
      | cons p queue =>
          simp only [serverEvent, servedMessage, serverAction, hact, hqueue, Option.map_some,
            Option.bind_some, List.head?_cons, Server.Action.update, JsonText.document]
          split <;> rfl
  | connect | close d | tick d timeNow | request d r | arrive d | receive d =>
      simp [serverEvent, servedMessage, serverAction, hact, Server.Action.update]

/-- What the server handles of a client in a step holds the document that it
applies for the client. -/
theorem documents_handled (c : ℕ) (e : Event System Action (List Effect)) :
    (handled c e).filterMap J.document =
      (((serverEvent e).bind fun e' => e'.act.update J).toList.filter fun u => u.1 = c).map
        Prod.snd := by
  rw [update_serverEvent, handled]
  cases servedMessage e with
  | none => rfl
  | some p =>
      obtain ⟨d, msg⟩ := p
      by_cases hd : d = c
      · cases hdoc : J.document msg <;> simp [hd, hdoc]
      · cases hdoc : J.document msg <;> simp [hd, hdoc]

theorem updates_eq (J : JsonText) (tr : List (Event System Action (List Effect))) :
    updates J tr = tr.flatMap fun e =>
      ((serverEvent e).bind fun e' => e'.act.update J).toList := by
  rw [updates, Server.updates, List.filterMap_filterMap, List.filterMap_eq_flatMap_toList]

theorem documents_run (h : (systemMachine K J).Run initial tr S)
    (hdocs : ∀ e ∈ tr, e.act.ReadsBack J) (c : ℕ) :
    ((updates J tr).filter fun u => u.1 = c).map Prod.snd ++
        (pending c S).filterMap J.document =
      tr.filterMap (documentRequested c) := by
  have hhandled : ((updates J tr).filter fun u => u.1 = c).map Prod.snd =
      (tr.flatMap (handled c)).filterMap J.document := by
    rw [updates_eq, List.filter_flatMap, List.map_flatMap, List.filterMap_flatMap]
    exact List.flatMap_congr fun e _ => (documents_handled c e).symm
  rw [hhandled, ← List.filterMap_append, run_toServer h c, List.filterMap_flatMap,
    List.filterMap_eq_flatMap_toList]
  exact List.flatMap_congr fun e he => documents_answers (hdocs e he) c

/-! ### Down -/

/-- What a step posts to a client holds the document that it applies, if the
client is there and is not the sender. -/
theorem documents_posts (h : (systemMachine K J).Takes e) (c : ℕ) :
    (posts c e).filterMap J.relayed =
      (((serverEvent e).toList.flatMap (Server.updateFor J c)).filter fun u => u.1 ≠ c).map
        Prod.snd := by
  have htexts : (posts c e).filterMap J.relayed =
      ((posts c e).filterMap Client.updateText).filterMap J.parse := by
    rw [List.filterMap_filterMap]
    rfl
  rw [htexts, texts_step h]
  cases hb : e.src.serverAction e.act with
  | none => simp [relaysTo, updateOf, serverEvent, hb]
  | some b =>
      have hevent : serverEvent e = some ⟨e.src.server, b.1, e.out, e.dst.server⟩ := by
        simp [serverEvent, hb]
      have hupdate : updateOf e = b.1.clientUpdate := by simp [updateOf, hb]
      rw [hevent, Option.toList_some, List.flatMap_singleton, Server.updateFor,
        Server.Action.update_eq, ← hupdate]
      rcases updateOf_cases h with ⟨hnone, _⟩ | ⟨d, msg, updates, hsome, hparse, _⟩
      · simp [relaysTo, hnone]
      · by_cases hthere : c ∈ e.src.server.connectionsContainer ∧ e.src.server.isOpen c = true
        · by_cases hc : d = c
          · simp [relaysTo, hsome, hthere, hc, hparse]
          · simp [relaysTo, hsome, hthere, hc, textOf, hparse]
        · simp [relaysTo, hsome, hthere]

theorem documentsApplied_append (h : (systemMachine K J).Run initial tr S) (c : ℕ) :
    documentsApplied J c tr ++ (S.toClient c).filterMap J.relayed =
      ((appliedFor J c tr).filter fun u => u.1 ≠ c).map Prod.snd := by
  rw [documentsApplied, ← List.filterMap_append, run_toClient h c, List.filterMap_flatMap,
    List.flatMap_congr fun e he => documents_posts (h.takes e he) c, appliedFor,
    List.filterMap_eq_flatMap_toList, List.flatMap_assoc, List.filter_flatMap, List.map_flatMap]

theorem items_relayed (J : JsonText) (msg : Message) :
    Client.updateWrites J msg = (J.relayed msg).toList.flatMap Json.items := by
  rw [Client.updateWrites, JsonText.relayed, Client.updateText]
  split
  · cases Relay.clientText msg with
    | error fault => rfl
    | ok r => cases hparse : J.parse r.2 <;> simp [Except.toOption, hparse]
  · rfl

/-- A client holds what the documents that it applied make of the
constructor's database. -/
theorem gameInstance_documents (h : (systemMachine K J).Run initial tr S) (c : ℕ) :
    S.gameInstance c = GameInstance.initial.updateAll (documentsApplied J c tr) := by
  have hwrites : (tr.flatMap (taken c)).flatMap (Client.updateWrites J) =
      (documentsApplied J c tr).flatMap Json.items := by
    conv_rhs => rw [documentsApplied, List.filterMap_eq_flatMap_toList, List.flatMap_assoc]
    exact List.flatMap_congr fun msg _ => items_relayed J msg
  rw [GameInstance.updateAll_eq, ← hwrites, ← gameInstance_run h c]

theorem server_documents (h : (systemMachine K J).Run initial tr S) :
    S.server.gameInstance =
      GameInstance.initial.updateAll ((updates J tr).map Prod.snd) := by
  have hdatabase : S.server.gameInstance.database =
      Replica.writeAll GameInstance.initial.database (writesOf (updates J tr)) :=
    Server.database_run (server_run h)
  rw [← GameInstance.updateAll_writesOf] at hdatabase
  exact congrArg GameInstance.mk hdatabase

/-- **Every document arrives.** The server has applied, for each client, the
documents that the client requested, in order and but for those on their way.
A client has applied, in order and but for those on their way, the documents
that the server applied for others while the client was there. And each
database is what its documents make of the constructor's. -/
theorem documents_delivered {Φ : Json.FloatText}
    (h : (systemMachine K (.nlohmann Φ)).Run initial tr S)
    (hdocs : ∀ e ∈ tr, e.act.Fits Φ) :
    (∀ c, ((updates (.nlohmann Φ) tr).filter fun u => u.1 = c).map Prod.snd ++
        (pending c S).filterMap (JsonText.nlohmann Φ).document =
      tr.filterMap (documentRequested c)) ∧
    (∀ d, documentsApplied (.nlohmann Φ) d tr ++
        (S.toClient d).filterMap (JsonText.nlohmann Φ).relayed =
      ((appliedFor (.nlohmann Φ) d tr).filter fun u => u.1 ≠ d).map Prod.snd) ∧
    S.server.gameInstance =
      GameInstance.initial.updateAll ((updates (.nlohmann Φ) tr).map Prod.snd) ∧
    ∀ d, S.gameInstance d =
      GameInstance.initial.updateAll (documentsApplied (.nlohmann Φ) d tr) :=
  ⟨documents_run h fun e he => (hdocs e he).readsBack, documentsApplied_append h,
    server_documents h, gameInstance_documents h⟩

/-- An update of one client at the other. -/
theorem documents_delivered_gameState1 :
    ∃ tr S, (systemMachine constants (.nlohmann .twoAndAHalf)).Run initial tr S ∧
      ((updates (.nlohmann .twoAndAHalf) tr).filter fun u => u.1 = 10001).map Prod.snd ++
          (pending 10001 S).filterMap (JsonText.nlohmann .twoAndAHalf).document =
        [.gameState1] ∧
      S.gameInstance 10002 =
        GameInstance.initial.updateAll (documentsApplied (.nlohmann .twoAndAHalf) 10002 tr) := by
  have hexec : ((systemMachine constants .gameState1).exec initial
      [.connect, .connect, .receive 10002, .request 10001 (.updateGameState 7 .gameState1),
        .arrive 10001, .serve 0, .receive 10002]).isSome := by
    decide +kernel
  obtain ⟨⟨tr, S⟩, hexec⟩ := Option.isSome_iff_exists.mp hexec
  obtain ⟨hrun, hfits⟩ := run_gameState1 hexec (by simp)
  obtain ⟨hup, _, _, hclient⟩ := documents_delivered hrun hfits
  refine ⟨tr, S, hrun, (hup 10001).trans ?_, hclient 10002⟩
  rw [documentsRequested_eq, Machine.map_act_of_exec hexec]
  rfl

/-! ### One order -/

/-- While no socket is closed, the updates that are applied for a client are
those that it hears of. -/
theorem appliedFor_eq_heard (h : (systemMachine K J).Run initial tr S)
    (hopen : ∀ c, .close c ∉ tr.map Event.act) (c : ℕ) :
    (appliedFor J c tr).filter (fun u => u.1 ≠ c) = heard J c tr := by
  rw [appliedFor, Server.flatMap_updateFor (server_run h) (fun d hd =>
    hopen d (close_mem_of_serverEvent hd)) c]
  rfl

/-- Let all clients connect before the first update is requested, and none
be disconnected. Once nothing is on its way there is one order of all the
documents, in which those of each client come as it requested them, such that
the server has applied all of them in this order and every client all but its
own. -/
theorem one_order (h : (systemMachine K J).Run initial tr S)
    (hdocs : ∀ e ∈ tr, e.act.ReadsBack J)
    (hconnect : (tr.map Event.act).Pairwise fun a b => a.IsUpdate → b ≠ .connect)
    (hopen : ∀ c, .close c ∉ tr.map Event.act) (hquiet : S.Quiet) :
    ∃ order : List (ℕ × Json),
      (∀ c, S.server.Accepted c →
        (order.filter fun u => u.1 = c).map Prod.snd = tr.filterMap (documentRequested c)) ∧
      S.server.gameInstance = GameInstance.initial.updateAll (order.map Prod.snd) ∧
      ∀ d, S.server.Accepted d → S.gameInstance d = GameInstance.initial.updateAll
        ((order.filter fun u => u.1 ≠ d).map Prod.snd) := by
  refine ⟨updates J tr, fun c hc => ?_, server_documents h, fun d hd => ?_⟩
  · have hup := documents_run h hdocs c
    rwa [pending, hquiet.1, (hquiet.2 c hc).1, List.filter_nil, List.map_nil, List.append_nil,
      List.filterMap_nil, List.append_nil] at hup
  · have hdown := documentsApplied_append h d
    rw [(hquiet.2 d hd).2, List.filterMap_nil, List.append_nil, appliedFor_eq_heard h hopen,
      heard_eq h hconnect hd] at hdown
    rw [gameInstance_documents h d, hdown]

end System

end AmongUs
