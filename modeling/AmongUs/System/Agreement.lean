import AmongUs.System.Machine

/-!
Whether the clients hold what the server holds.

Every client starts with the database of the server and applies the updates
of the others in the order of the server, so it is a copy behind a queue: the
one of the updates it hears of (`follows_run`). Its own updates are not among
them. The server applies them and acknowledges them, the client does not
apply them, neither when it sends them nor when the acknowledgement comes.
So once nothing is on its way, a client agrees with the server exactly when
its own updates have left nothing behind.
-/

namespace AmongUs.System

open Networking Transition

variable {K : Constants} {J : JsonText} {S : System}
  {tr : List (Event System Action (List Effect))}

/-- The updates that the server applied in a run, with their senders. -/
def updates (J : JsonText) (tr : List (Event System Action (List Effect))) : List (ℕ × Json) :=
  Server.updates J (tr.filterMap serverEvent)

/-- The updates of others that came after the client was accepted. -/
def heard (J : JsonText) (c : ℕ) (tr : List (Event System Action (List Effect))) :
    List (ℕ × Json) :=
  Server.heard J c (tr.filterMap serverEvent)

/-- **A client is a copy behind a queue.** The messages on their way to it
bring it from what it holds to what the updates it has heard of make of the
initial database. -/
theorem follows_run (h : (systemMachine K J).Run initial tr S)
    (hopen : ∀ c, .close c ∉ tr.map Event.act) (c : ℕ) :
    Replica.Follows GameInstance.initial.database (S.gameInstance c).database
      ((S.toClient c).flatMap (Client.updateWrites J)) (writesOf (heard J c tr)) := by
  induction h with
  | nil => exact Replica.Follows.refl _
  | @snoc tr e hrun htakes ih =>
      have hpre : ∀ c, .close c ∉ tr.map Event.act := fun c hc => hopen c (by simp [hc])
      have hfollows := ih hpre
      rcases takes_cases htakes with
        ⟨b, queue, hb, hserver, hdst⟩ | ⟨d, r, hact, hdst⟩ | ⟨d, msg, rest, hact, _, hdst⟩ |
          ⟨d, msg, rest, g, replies, hact, hqueue, hhandle, hdst⟩
      · have hevent : (tr ++ [e]).filterMap serverEvent =
            tr.filterMap serverEvent ++ [⟨e.src.server, b, e.out, e.dst.server⟩] := by
          simp [serverEvent, hb]
        obtain ⟨hnum, hconn⟩ := Server.connected_run (server_run hrun)
          fun c hc => hpre c (close_mem_of_serverEvent hc)
        obtain ⟨_, hconn'⟩ := Server.connected_run (server_run (hrun.snoc htakes))
          fun c hc => hopen c (close_mem_of_serverEvent hc)
        have hwrites := Server.writes_heard hserver hnum hconn c
        rw [heard, hevent, Server.heard_snoc, writesOf_append, ← hwrites]
        have hgame : e.dst.gameInstance = e.src.gameInstance := by rw [hdst]; rfl
        have hchan : e.dst.toClient c = if e.dst.server.isOpen c then
            e.src.toClient c ++ sentTo c e.out else e.src.toClient c := by
          conv_lhs => rw [hdst]
          rfl
        rw [hgame, hchan]
        split
        · rw [List.flatMap_append]
          exact hfollows.append _
        · -- Only a client that is not connected yet has no open socket.
          rename_i hclosed
          have hfresh : ¬e.src.server.Accepted c := fun hacc =>
            hclosed (hconn' c ((Server.accepted_step hserver hnum c).mpr (Or.inl hacc))).2
          rw [hwrites, if_neg hfresh, writesOf_nil, List.append_nil]
          exact hfollows
      all_goals
        have hheard : heard J c (tr ++ [e]) = heard J c tr := by
          simp [heard, serverEvent, hact, serverAction]
        rw [hheard, hdst]
      · exact hfollows
      · exact hfollows
      · by_cases hc : c = d
        · subst hc
          rw [hqueue, List.flatMap_cons] at hfollows
          have hdb := (Client.handleMessage_ok hhandle).1
          simpa [post, received, hdb] using hfollows.apply
        · simpa [post, received, hc] using hfollows

/-- What decides whether a client without pending messages agrees with the
server. -/
theorem agrees_iff (h : (systemMachine K J).Run initial tr S)
    (hopen : ∀ c, .close c ∉ tr.map Event.act) {c : ℕ} (hquiet : S.toClient c = []) :
    (S.gameInstance c).database = S.server.gameInstance.database ↔
      ∀ key v, GameInstance.initial.database key = some v →
        (Replica.lastValue (writesOf (updates J tr)) key).getD v =
          (Replica.lastValue (writesOf (heard J c tr)) key).getD v := by
  have hclient := follows_run h hopen c
  rw [hquiet, List.flatMap_nil] at hclient
  have hserver : Replica.Follows GameInstance.initial.database S.server.gameInstance.database []
      (writesOf (updates J tr)) := Server.database_run (server_run h)
  rw [eq_comm, hserver.agree_iff hclient]

/-! ### Connected before the first update -/

/-- No update has been requested yet. -/
def Untouched (S : System) : Prop :=
  (∀ c, ∀ m ∈ S.toServer c, m.header.type ≠ .clientUpdateGS) ∧
    ∀ p ∈ S.messagesIn, p.2.header.type ≠ .clientUpdateGS

/-- Then the server handles none either. -/
theorem Untouched.served (h : S.Untouched) {a : Action} {b : Server.Action}
    {queue : List (ℕ × Message)} (hb : S.serverAction a = some (b, queue)) :
    b.update J = none ∧ ∀ p ∈ queue, p.2.header.type ≠ .clientUpdateGS := by
  rcases serverAction_cases hb with
    ⟨_, rfl, rfl⟩ | ⟨c, _, rfl, rfl⟩ | ⟨c, timeNow, _, rfl, rfl⟩ |
      ⟨timeNow, c, msg, _, rfl, hqueue⟩
  · exact ⟨rfl, h.2⟩
  · exact ⟨rfl, h.2⟩
  · exact ⟨rfl, h.2⟩
  · have hall := h.2
    rw [hqueue, List.forall_mem_cons] at hall
    exact ⟨Server.update_of_ne hall.1, hall.2⟩

theorem Untouched.post (h : S.Untouched) (d : ℕ) {msgs : List Message}
    (hmsgs : ∀ m ∈ msgs, m.header.type ≠ .clientUpdateGS) : (S.post d msgs).Untouched := by
  refine ⟨fun c m hm => ?_, h.2⟩
  by_cases hc : c = d
  · subst hc
    replace hm : m ∈ S.toServer c ∨ m ∈ msgs := by simpa [System.post] using hm
    exact hm.elim (h.1 c m) (hmsgs m)
  · exact h.1 c m (by simpa [System.post, hc] using hm)

theorem Untouched.arrived (h : S.Untouched) {d : ℕ} {msg : Message} {rest : List Message}
    (hqueue : S.toServer d = msg :: rest) : (S.arrived d msg rest).Untouched := by
  have hd := h.1 d
  rw [hqueue, List.forall_mem_cons] at hd
  refine ⟨fun c m hm => ?_, fun p hp => ?_⟩
  · by_cases hc : c = d
    · subst hc
      exact hd.2 m (by simpa [System.arrived] using hm)
    · exact h.1 c m (by simpa [System.arrived, hc] using hm)
  · replace hp : p ∈ S.messagesIn ∨ p = (d, msg) := by simpa [System.arrived] using hp
    rcases hp with hp | rfl
    · exact h.2 p hp
    · exact hd.1

theorem untouched_run (h : (systemMachine K J).Run initial tr S)
    (hrequest : ∀ e ∈ tr, ¬e.act.IsUpdate) : S.Untouched := by
  refine h.visited_invariant (I := Untouched) (g := fun _ a => ¬a.IsUpdate)
    ⟨fun c m hm => by simp [initial] at hm, fun p hp => by simp [initial] at hp⟩ hrequest ?_ S
    h.end_mem_visited
  intro e htakes hact hsrc
  rcases takes_cases htakes with
    ⟨b, queue, hb, _, hdst⟩ | ⟨c, r, ha, hdst⟩ | ⟨c, msg, rest, _, hqueue, hdst⟩ |
      ⟨c, msg, rest, g, replies, _, _, hhandle, hdst⟩
  · rw [hdst]
    exact ⟨hsrc.1, (hsrc.served (J := J) hb).2⟩
  · rw [hdst]
    refine hsrc.post c fun m hm => ?_
    obtain rfl := List.mem_singleton.mp hm
    rw [ha] at hact
    cases r with
    | pingServer timeNow =>
        simp [Request.message, Client.pingServer, Message.push, Message.setBody]
    | messageAll => simp [Request.message, Client.messageAll]
    | updateGameState id updates => exact absurd trivial hact
  · rw [hdst]
    exact hsrc.arrived hqueue
  · rw [hdst]
    have hreceived : (e.src.received c rest g).Untouched := hsrc
    exact hreceived.post c (Client.handleMessage_ok hhandle).2

/-- The clients that are there at the end were there when the first update
was handled. -/
theorem heard_eq (h : (systemMachine K J).Run initial tr S)
    (hconnect : (tr.map Event.act).Pairwise fun a b => a.IsUpdate → b ≠ .connect)
    {c : ℕ} (hc : S.server.Accepted c) :
    heard J c tr = (updates J tr).filter fun u => u.1 ≠ c := by
  have hupdates : Server.updates J ((tr.filterMap serverEvent).filter fun e => e.src.Accepted c) =
      updates J tr := by
    rw [updates, Server.updates, Server.updates, List.filterMap_filter]
    refine List.filterMap_congr fun e' he' => ?_
    obtain ⟨e, he, hserver⟩ := List.mem_filterMap.mp he'
    obtain ⟨⟨b, queue⟩, hb, rfl⟩ := Option.map_eq_some_iff.mp hserver
    obtain ⟨pre, post, rfl⟩ := List.append_of_mem he
    obtain ⟨hpre, htakes, hpost⟩ := h.split
    by_cases hrequest : ∀ e ∈ pre, ¬e.act.IsUpdate
    · -- No update was requested before, so this is none.
      have hnone := ((untouched_run hpre hrequest).served (J := J) hb).1
      simp [hnone]
    · -- An update was requested before, so nobody connects any more.
      obtain ⟨x, hx, hupdate⟩ : ∃ x ∈ pre, x.act.IsUpdate := by simpa using hrequest
      rw [List.map_append, List.pairwise_append] at hconnect
      have hnever : .connect ∉ (e :: post).map Event.act := fun hmem =>
        hconnect.2.2 x.act (List.mem_map_of_mem hx) _ hmem hupdate rfl
      have hrest : (systemMachine K J).Run e.src (e :: post) S :=
        (Machine.Run.snoc .nil htakes).append hpost
      have hacc : e.src.server.Accepted c := by
        rwa [Server.Accepted, ← nIDCounter_run hrest hnever]
      simp [hacc]
  rw [heard, Server.heard, hupdates]

/-- **Replica agreement.** When all clients were connected before the first
update and none is disconnected, then, once nothing is queued or on its way,
every client holds the database of the server exactly when for every client
and every key the updates of the others end in the value that all updates
end in. -/
theorem agreement_iff (h : (systemMachine K J).Run initial tr S)
    (hconnect : (tr.map Event.act).Pairwise fun a b => a.IsUpdate → b ≠ .connect)
    (hopen : ∀ c, .close c ∉ tr.map Event.act) (hquiet : S.Quiet) :
    (∀ c, S.server.Accepted c →
        (S.gameInstance c).database = S.server.gameInstance.database) ↔
      ∀ c, S.server.Accepted c → ∀ key v, GameInstance.initial.database key = some v →
        (Replica.lastValue (writesOf (updates J tr)) key).getD v =
          (Replica.lastValue (writesOf ((updates J tr).filter fun u => u.1 ≠ c)) key).getD v := by
  refine forall_congr' fun c => forall_congr' fun hc => ?_
  rw [← heard_eq h hconnect hc]
  exact agrees_iff h hopen (hquiet.2 c hc).2

/-- The fixed parser reads one update only. -/
theorem updates_gameState1 {cs : List ℕ} (h : (updates .gameState1 tr).map Prod.fst = cs) :
    updates .gameState1 tr = cs.map fun c => (c, Json.gameState1) := by
  have hone : ∀ u ∈ updates .gameState1 tr, (u.1, Json.gameState1) = u := by
    rintro ⟨c, updates⟩ hu
    obtain ⟨e, _, hupdate⟩ := List.mem_filterMap.mp hu
    cases hact : e.act with
    | onMessage d msg timeNow =>
        simp only [hact, Server.Action.update] at hupdate
        split at hupdate
        · obtain ⟨j, hparse, hu⟩ := Option.map_eq_some_iff.mp hupdate
          rw [← hu, JsonText.gameState1_parse hparse]
        · simp at hupdate
    | accept | close d | tick d timeNow => simp [hact, Server.Action.update] at hupdate
  rw [← h, List.map_map]
  exact (List.map_id _).symm.trans (List.map_congr_left fun u hu => (hone u hu).symm)

/-- Two clients send the same update. -/
theorem agreement_iff_both :
    ∃ tr S, (systemMachine constants .gameState1).Run initial tr S ∧ S.Quiet ∧
      updates .gameState1 tr = [(10002, .gameState1), (10001, .gameState1)] ∧
      ∀ c, S.server.Accepted c →
        (S.gameInstance c).database = S.server.gameInstance.database := by
  have hexec : (((systemMachine constants .gameState1).exec initial
      [.connect, .connect, .receive 10001, .receive 10002,
        .request 10001 (.updateGameState 7 .gameState1),
        .request 10002 (.updateGameState 8 .gameState1),
        .arrive 10001, .arrive 10002, .arrive 10002, .arrive 10001,
        .serve 0, .serve 0, .serve 0, .serve 0,
        .receive 10001, .receive 10002, .receive 10002, .receive 10001]).map fun r =>
      (decide r.2.Quiet, r.2.server.nIDCounter, (updates .gameState1 r.1).map Prod.fst)) =
        some (true, 10002, [10002, 10001]) := by
    decide +kernel
  obtain ⟨⟨tr, S⟩, hrun, hview⟩ := Option.map_eq_some_iff.mp hexec
  obtain ⟨hdecide, hrest⟩ := Prod.mk.inj hview
  obtain ⟨hcounter, hsenders⟩ := Prod.mk.inj hrest
  have hact := Machine.map_act_of_exec hrun
  have hquiet : S.Quiet := of_decide_eq_true hdecide
  have hupdates := updates_gameState1 hsenders
  refine ⟨tr, S, Machine.run_of_exec hrun, hquiet, hupdates,
    (agreement_iff (Machine.run_of_exec hrun) (by simp [hact, Action.IsUpdate])
      (by simp [hact]) hquiet).mpr fun c hc key v _ => ?_⟩
  have hboth : c = 10001 ∨ c = 10002 := by
    obtain ⟨hlow, hhigh⟩ := hc
    rw [hcounter] at hhigh
    omega
  rw [hupdates]
  by_cases hkey : "game_state1" = key
  · rcases hboth with rfl | rfl <;>
      simp [writesOf, Json.items, Json.gameState1, Replica.lastValue, hkey]
  · rcases hboth with rfl | rfl <;>
      simp [writesOf, Json.items, Json.gameState1, Replica.lastValue, hkey]

/-- One client, and its own update. -/
theorem update_not_agreed :
    ¬∀ tr S, (systemMachine constants .gameState1).Run initial tr S →
      ((tr.map Event.act).Pairwise fun a b => a.IsUpdate → b ≠ .connect) →
      (∀ c, .close c ∉ tr.map Event.act) → S.Quiet →
      ∀ c, S.server.Accepted c →
        (S.gameInstance c).database = S.server.gameInstance.database := by
  intro hall
  have hexec : (((systemMachine constants .gameState1).exec initial
      [.connect, .receive 10001, .arrive 10001, .serve 0,
        .request 10001 (.updateGameState 7 .gameState1), .arrive 10001, .serve 0,
        .receive 10001]).map fun r =>
      (decide (r.2.Quiet ∧ r.2.server.Accepted 10001), (updates .gameState1 r.1).map Prod.fst,
        (heard .gameState1 10001 r.1).map Prod.fst)) = some (true, [10001], []) := by
    decide +kernel
  obtain ⟨⟨tr, S⟩, hrun, hview⟩ := Option.map_eq_some_iff.mp hexec
  obtain ⟨hdecide, hrest⟩ := Prod.mk.inj hview
  obtain ⟨hsenders, hheard⟩ := Prod.mk.inj hrest
  obtain ⟨hquiet, hacc⟩ := of_decide_eq_true hdecide
  have hact := Machine.map_act_of_exec hrun
  have hopen : ∀ c, .close c ∉ tr.map Event.act := by simp [hact]
  have hagree := hall tr S (Machine.run_of_exec hrun) (by simp [hact, Action.IsUpdate]) hopen
    hquiet 10001 hacc
  rw [agrees_iff (Machine.run_of_exec hrun) hopen (hquiet.2 10001 hacc).2,
    updates_gameState1 hsenders, List.map_eq_nil_iff.mp hheard] at hagree
  have hvalue := hagree "game_state1" (.integer 1) rfl
  simp [writesOf, Json.items, Json.gameState1, Replica.lastValue] at hvalue

end AmongUs.System
