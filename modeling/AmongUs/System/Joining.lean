import AmongUs.System.Agreement
import AmongUs.System.Channels

/-!
What a client holds that has joined at some time.

Nothing hands the game state of the server to a client that connects. A
client starts with what the constructor gives it and applies the updates
that come after it was accepted, so what the server applied before shows at
the client only where a later update writes the same key.
-/

namespace AmongUs

open Networking Transition

namespace Server

variable {K : Constants} {J : JsonText} {e : Event Server Action (List Effect)}

/-- An action that hands an update to the server hands it a `ClientUpdateGS`. -/
theorem Action.update_eq_some {a : Action} {u : ℕ × Json} (h : a.update J = some u) :
    ∃ msg timeNow, a = .onMessage u.1 msg timeNow ∧ msg.header.type = .clientUpdateGS := by
  cases a with
  | onMessage d msg timeNow =>
      simp only [update] at h
      split at h
      · rename_i htype
        obtain ⟨updates, _, rfl⟩ := Option.map_eq_some_iff.mp h
        exact ⟨msg, timeNow, rfl, htype⟩
      · cases h
  | accept | close d | tick d timeNow => simp [update] at h

/-- A step that handles an update leaves all sockets as they are. -/
theorem isOpen_of_update (h : (serverMachine K J).Takes e) {u : ℕ × Json}
    (hu : e.act.update J = some u) : e.dst.isOpen = e.src.isOpen := by
  obtain ⟨msg, timeNow, hact, htype⟩ := Action.update_eq_some hu
  rcases clientUpdate_cases h with ⟨hnone, _⟩ | ⟨d, msg', updates, _, _, heq⟩
  · rw [hact, Action.clientUpdate, if_pos htype] at hnone
    cases hnone
  · rw [show e.dst = _ from congrArg Prod.fst heq, applyUpdates,
      GameInstance.updateDatabase_eq]
    rfl

/-- The update of a step, if a client is in the container and its socket is
open. -/
def updateFor (J : JsonText) (c : ℕ) (e : Event Server Action (List Effect)) :
    List (ℕ × Json) :=
  if c ∈ e.src.connectionsContainer ∧ e.src.isOpen c = true then (e.act.update J).toList else []

end Server

namespace System

variable {K : Constants} {J : JsonText} {S : System} {e : Event System Action (List Effect)}
  {tr : List (Event System Action (List Effect))} {c : ℕ}

/-- The updates that the server applied while a client was in the container
with an open socket. -/
def appliedFor (J : JsonText) (c : ℕ) (tr : List (Event System Action (List Effect))) :
    List (ℕ × Json) :=
  (tr.filterMap serverEvent).flatMap (Server.updateFor J c)

/-- A client writes what the messages it handles say. -/
theorem gameInstance_step (h : (systemMachine K J).Takes e) (c : ℕ) :
    (e.dst.gameInstance c).database = Replica.writeAll (e.src.gameInstance c).database
      ((taken c e).flatMap (Client.updateWrites J)) := by
  rcases takes_cases h with
    ⟨b, queue, hb, _, hdst⟩ | ⟨d, r, hact, hdst⟩ | ⟨d, msg, rest, hact, _, hdst⟩ |
      ⟨d, msg, rest, g, replies, hact, hqueue, hhandle, hdst⟩
  · have htaken : taken c e = [] := by
      rcases serverAction_cases hb with
        ⟨hact, _⟩ | ⟨_, hact, _⟩ | ⟨_, _, hact, _⟩ | ⟨_, _, _, hact, _⟩ <;> simp [taken, hact]
    rw [hdst, htaken]
    rfl
  · rw [hdst, taken, hact]
    rfl
  · rw [hdst, taken, hact]
    rfl
  · rw [hdst, taken, hact]
    by_cases hd : d = c
    · subst hd
      simp [System.post, System.received, hqueue, (Client.handleMessage_ok hhandle).1]
    · simp [System.post, System.received, hd, Ne.symm hd]

theorem gameInstance_run (h : (systemMachine K J).Run initial tr S) (c : ℕ) :
    (S.gameInstance c).database = Replica.writeAll GameInstance.initial.database
      ((tr.flatMap (taken c)).flatMap (Client.updateWrites J)) := by
  induction h with
  | nil => rfl
  | snoc _ htakes ih =>
      rw [gameInstance_step htakes, ih, List.flatMap_append, List.flatMap_append,
        Replica.writeAll_append, List.flatMap_singleton]

/-- What is posted to a client writes the updates of the others that are
applied for it. -/
theorem writes_posts (h : (systemMachine K J).Takes e) (c : ℕ) :
    (posts c e).flatMap (Client.updateWrites J) =
      writesOf (((serverEvent e).toList.flatMap (Server.updateFor J c)).filter
        fun u => u.1 ≠ c) := by
  cases hb : e.src.serverAction e.act with
  | none => simp [posts_eq_nil h hb, serverEvent, hb]
  | some b =>
      obtain ⟨hserver, _⟩ := takes_server h hb
      have hwrites := Server.updateWrites_sentTo hserver c
      have hevent : serverEvent e = some ⟨e.src.server, b.1, e.out, e.dst.server⟩ := by
        simp [serverEvent, hb]
      rw [hevent, Option.toList_some, List.flatMap_singleton, Server.updateFor]
      cases hu : b.1.update J with
      | none =>
          have hnil : (sentTo c e.out).flatMap (Client.updateWrites J) = [] := by
            simpa [hu] using hwrites
          rw [posts]
          split <;> simp [hnil]
      | some u =>
          have hopen : e.dst.server.isOpen = e.src.server.isOpen :=
            Server.isOpen_of_update hserver hu
          simp only [hu] at hwrites ⊢
          rw [posts, hopen]
          by_cases hc : e.src.server.isOpen c = true
          · rw [if_pos hc, hwrites]
            split <;> rfl
          · simp [hc]

/-- The database of a client with no message on its way. -/
theorem database_of_quiet (h : (systemMachine K J).Run initial tr S)
    (hquiet : S.toClient c = []) :
    (S.gameInstance c).database = Replica.writeAll GameInstance.initial.database
      (writesOf ((appliedFor J c tr).filter fun u => u.1 ≠ c)) := by
  have hchannel := run_toClient h c
  rw [hquiet, List.append_nil] at hchannel
  have hwrites : (tr.flatMap (posts c)).flatMap (Client.updateWrites J) =
      writesOf ((appliedFor J c tr).filter fun u => u.1 ≠ c) := by
    rw [List.flatMap_assoc, List.flatMap_congr fun e he => writes_posts (h.takes e he) c,
      appliedFor, List.filterMap_eq_flatMap_toList, List.flatMap_assoc, List.filter_flatMap,
      writesOf, List.flatMap_assoc]
    rfl
  rw [gameInstance_run h c, hchannel, hwrites]

/-- No update comes from a client that requests none. -/
theorem sender_ne_of_applied (h : (systemMachine K J).Run initial tr S)
    (hnever : ∀ e ∈ tr, ∀ id updates, e.act ≠ .request c (.updateGameState id updates)) :
    ∀ u ∈ appliedFor J c tr, u.1 ≠ c := by
  rintro u hu rfl
  obtain ⟨e', he', hupdate⟩ := List.mem_flatMap.mp hu
  obtain ⟨e, he, hserver⟩ := List.mem_filterMap.mp he'
  obtain ⟨⟨b, queue⟩, hb, rfl⟩ := Option.map_eq_some_iff.mp hserver
  replace hupdate : b.update J = some u := by
    rw [Server.updateFor] at hupdate
    split at hupdate
    · simpa using hupdate
    · simp at hupdate
  obtain ⟨msg, timeNow, rfl, htype⟩ := Server.Action.update_eq_some hupdate
  -- The message was handled, so the client has posted it.
  have hhandled : msg ∈ tr.flatMap (handled u.1) := by
    refine List.mem_flatMap.mpr ⟨e, he, ?_⟩
    rcases serverAction_cases hb with
      ⟨_, hact, _⟩ | ⟨_, _, hact, _⟩ | ⟨_, _, _, hact, _⟩ | ⟨_, d, m, hact, hmsg, hq⟩
    · cases hact
    · cases hact
    · cases hact
    · cases hmsg
      simp [handled, servedMessage, hact, hq]
  obtain ⟨x, hx, hpost⟩ := List.mem_flatMap.mp (mem_answers_of_handled h hhandled)
  rcases answer_of_answers hpost with ⟨r, hact, rfl⟩ | ⟨m, _, hreply⟩
  · cases r with
    | pingServer timeNow =>
        simp [Request.message, Client.pingServer, Message.push, Message.setBody] at htype
    | messageAll => simp [Request.message, Client.messageAll] at htype
    | updateGameState id updates => exact hnever x hx id updates hact
  · exact Client.type_of_replies hreply htype

theorem joined_eq (h : (systemMachine K J).Run initial tr S)
    (hnever : ∀ e ∈ tr, ∀ id updates, e.act ≠ .request c (.updateGameState id updates))
    (hquiet : S.toClient c = []) :
    (S.gameInstance c).database =
      Replica.writeAll GameInstance.initial.database (writesOf (appliedFor J c tr)) := by
  have hall : (appliedFor J c tr).filter (fun u => u.1 ≠ c) = appliedFor J c tr :=
    List.filter_eq_self.mpr fun u hu => by simpa using sender_ne_of_applied h hnever u hu
  simpa only [hall] using database_of_quiet h hquiet

theorem joined_eq_server_iff (h : (systemMachine K J).Run initial tr S)
    (hnever : ∀ e ∈ tr, ∀ id updates, e.act ≠ .request c (.updateGameState id updates))
    (hquiet : S.toClient c = []) :
    (S.gameInstance c).database = S.server.gameInstance.database ↔
      ∀ key v, GameInstance.initial.database key = some v →
        (Replica.lastValue (writesOf (appliedFor J c tr)) key).getD v =
          (Replica.lastValue (writesOf (updates J tr)) key).getD v := by
  have hserver : S.server.gameInstance.database = Replica.writeAll GameInstance.initial.database
      (writesOf (updates J tr)) := Server.database_run (server_run h)
  rw [joined_eq h hnever hquiet, hserver, Replica.writeAll_eq_iff]

/-- **What a client has that never sends an update.** With no message on its
way to it, it holds what the updates that were applied while it was there
make of the constructor's database. That is the database of the server
exactly when for every key these updates end in the value that all updates
end in. -/
theorem joined_database (h : (systemMachine K J).Run initial tr S)
    (hnever : ∀ e ∈ tr, ∀ id updates, e.act ≠ .request c (.updateGameState id updates))
    (hquiet : S.toClient c = []) :
    (S.gameInstance c).database =
        Replica.writeAll GameInstance.initial.database (writesOf (appliedFor J c tr)) ∧
      ((S.gameInstance c).database = S.server.gameInstance.database ↔
        ∀ key v, GameInstance.initial.database key = some v →
          (Replica.lastValue (writesOf (appliedFor J c tr)) key).getD v =
            (Replica.lastValue (writesOf (updates J tr)) key).getD v) :=
  ⟨joined_eq h hnever hquiet, joined_eq_server_iff h hnever hquiet⟩

/-- What is applied while a client is there is applied. -/
theorem mem_updates_of_applied {u : ℕ × Json} (hu : u ∈ appliedFor J c tr) :
    u ∈ updates J tr := by
  obtain ⟨e, he, hupdate⟩ := List.mem_flatMap.mp hu
  rw [Server.updateFor] at hupdate
  split at hupdate
  · exact List.mem_filterMap.mpr ⟨e, he, Option.mem_toList.mp hupdate⟩
  · cases hupdate

theorem appliedFor_gameState1 {cs : List ℕ}
    (h : (appliedFor .gameState1 c tr).map Prod.fst = cs) :
    appliedFor .gameState1 c tr = cs.map fun d => (d, Json.gameState1) := by
  rw [← h, List.map_map]
  refine (List.map_id _).symm.trans (List.map_congr_left fun u hu => ?_)
  have hmem := mem_updates_of_applied hu
  rw [updates_gameState1 rfl, List.map_map] at hmem
  obtain ⟨u', -, rfl⟩ := List.mem_map.mp hmem
  rfl

/-- A client joins after an update, and sees the next one. -/
theorem joined_database_later :
    ∃ tr S, (systemMachine constants .gameState1).Run initial tr S ∧
      updates .gameState1 tr = [(10001, .gameState1), (10001, .gameState1)] ∧
      appliedFor .gameState1 10002 tr = [(10001, .gameState1)] ∧
      (S.gameInstance 10002).database =
        Replica.writeAll GameInstance.initial.database (writesOf [(10001, .gameState1)]) ∧
      (S.gameInstance 10002).database = S.server.gameInstance.database := by
  have hexec : (((systemMachine constants .gameState1).exec initial
      [.connect, .request 10001 (.updateGameState 7 .gameState1), .arrive 10001, .serve 0,
        .connect, .receive 10002, .arrive 10002, .serve 0,
        .request 10001 (.updateGameState 7 .gameState1), .arrive 10001, .serve 0,
        .receive 10002]).map fun r =>
      (r.2.toClient 10002, (updates .gameState1 r.1).map Prod.fst,
        (appliedFor .gameState1 10002 r.1).map Prod.fst)) = some ([], [10001, 10001], [10001]) := by
    decide +kernel
  obtain ⟨⟨tr, S⟩, hrun, hview⟩ := Option.map_eq_some_iff.mp hexec
  obtain ⟨hquiet, hview⟩ := Prod.mk.inj hview
  obtain ⟨hsenders, hwhile⟩ := Prod.mk.inj hview
  have hact := Machine.map_act_of_exec hrun
  have hnever : ∀ e ∈ tr, ∀ id updates,
      e.act ≠ .request 10002 (.updateGameState id updates) := by
    intro e he id updates hrequest
    have hmem : e.act ∈ tr.map Event.act := List.mem_map_of_mem he
    simp [hact, hrequest] at hmem
  have hupdates := updates_gameState1 hsenders
  have happlied := appliedFor_gameState1 hwhile
  obtain ⟨hdatabase, hserver⟩ := joined_database (Machine.run_of_exec hrun) hnever hquiet
  refine ⟨tr, S, Machine.run_of_exec hrun, hupdates, happlied, ?_, hserver.mpr fun key v _ => ?_⟩
  · rw [hdatabase, happlied]
    rfl
  · rw [hupdates, happlied]
    by_cases hkey : "game_state1" = key <;>
      simp [writesOf, Json.items, Json.gameState1, Replica.lastValue, hkey]

/-- A client joins after an update, and nobody tells it. -/
theorem joined_after_update :
    ¬∀ tr S, (systemMachine constants .gameState1).Run initial tr S →
      ∀ c, S.server.Accepted c →
        (∃ m ∈ tr.flatMap (handled c), m.header.type = .clientAccept) →
        (∀ e ∈ tr, ∀ id updates, e.act ≠ .request c (.updateGameState id updates)) →
        S.toClient c = [] →
        (S.gameInstance c).database = S.server.gameInstance.database := by
  intro hall
  have hexec : (((systemMachine constants .gameState1).exec initial
      [.connect, .request 10001 (.updateGameState 7 .gameState1), .arrive 10001, .serve 0,
        .connect, .receive 10002, .arrive 10002, .serve 0]).map fun r =>
      (decide (r.2.server.Accepted 10002 ∧
          ∃ m ∈ r.1.flatMap (handled 10002), m.header.type = .clientAccept),
        r.2.toClient 10002, (updates .gameState1 r.1).map Prod.fst,
        (appliedFor .gameState1 10002 r.1).map Prod.fst)) = some (true, [], [10001], []) := by
    decide +kernel
  obtain ⟨⟨tr, S⟩, hrun, hview⟩ := Option.map_eq_some_iff.mp hexec
  obtain ⟨hdecide, hrest⟩ := Prod.mk.inj hview
  obtain ⟨hquiet, hrest⟩ := Prod.mk.inj hrest
  obtain ⟨hsenders, happlied⟩ := Prod.mk.inj hrest
  obtain ⟨hacc, hhandshake⟩ := of_decide_eq_true hdecide
  have hact := Machine.map_act_of_exec hrun
  have hnever : ∀ e ∈ tr, ∀ id updates,
      e.act ≠ .request 10002 (.updateGameState id updates) := by
    intro e he id updates hrequest
    have hmem : e.act ∈ tr.map Event.act := List.mem_map_of_mem he
    simp [hact, hrequest] at hmem
  have hagree := hall tr S (Machine.run_of_exec hrun) 10002 hacc hhandshake hnever hquiet
  rw [joined_eq_server_iff (Machine.run_of_exec hrun) hnever hquiet,
    updates_gameState1 hsenders, List.map_eq_nil_iff.mp happlied] at hagree
  have hvalue := hagree "game_state1" (.integer 1) rfl
  simp [writesOf, Json.items, Json.gameState1, Replica.lastValue] at hvalue

end System

end AmongUs
