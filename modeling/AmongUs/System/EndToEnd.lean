import AmongUs.System.Documents
import AmongUs.System.Wired

/-!
What the program does over the bytes of its connections.

`wired_refines` leaves the bytes behind, so what holds of the channels holds
of the bytes. Where ticks and handlers are not interleaved with one another,
nothing that the program sends makes a handler fail, on either side and in any
order of reads and writes (`faults_iff`). And from the
requests of the clients to the databases, through the JSON text, the messages
and the bytes, there is one order of the updates for all
(`one_order_over_bytes`).
-/

namespace AmongUs

open Networking Transition

namespace Wired

variable {K : Constants} {J : JsonText} {W X : Wired} {S : System}
  {tr : List (Event Wired Action (List Effect))}

/-! ### A run with the library -/

theorem takes_of_readsMore {J' : JsonText} (hJ : System.ReadsMore J J')
    {e : Event Wired Action (List Effect)} (h : (wiredMachine K J).Takes e)
    (hrequest : ∀ c r, e.act = .program (.request c r) → r.message J' = r.message J) :
    (wiredMachine K J').Takes e := by
  obtain ⟨W, a, effects, X⟩ := e
  obtain ⟨henabled, hstep⟩ := h
  refine ⟨henabled, ?_⟩
  have hserver {b : Server.Action} {r : Server × List Effect}
      (hb : (serverMachine K J).step W.server b = .ok r) :
      (serverMachine K J').step W.server b = .ok r := by
    cases b with
    | onMessage c msg timeNow => exact System.onMessage_of_readsMore hJ hb
    | accept | close c | tick c timeNow => exact hb
  cases a with
  | send side c | written side c write pad | failed side c write pad n | read side c =>
      exact hstep
  | program a =>
      cases a with
      | request c r =>
          simp only [wiredMachine, hrequest c r rfl] at hstep ⊢
          exact hstep
      | arrive c => exact hstep
      | receive c =>
          simp only [wiredMachine] at hstep ⊢
          split at hstep
          · obtain ⟨r, hhandle, hret⟩ := bind_eq_ok.mp hstep
            exact bind_eq_ok.mpr ⟨r, System.handleMessage_of_readsMore hJ hhandle, hret⟩
          · exact hstep
      | connect | close c | tick c timeNow | serve timeNow =>
          simp only [wiredMachine] at hstep ⊢
          split at hstep
          · obtain ⟨r, hb, hret⟩ := bind_eq_ok.mp hstep
            exact bind_eq_ok.mpr ⟨r, hserver hb, hret⟩
          · exact hstep

theorem run_of_readsMore {J' : JsonText} (hJ : System.ReadsMore J J')
    (h : (wiredMachine K J).Run W tr X)
    (hrequest : ∀ e ∈ tr, ∀ c r, e.act = .program (.request c r) → r.message J' = r.message J) :
    (wiredMachine K J').Run W tr X := by
  induction h with
  | nil => exact .nil
  | snoc _ htakes ih =>
      exact .snoc (ih fun e he => hrequest e (by simp [he]))
        (takes_of_readsMore hJ htakes (hrequest _ (by simp)))

/-- A run on the one text is a run with the library. -/
theorem run_gameState1 {acts : List Action}
    (h : (wiredMachine K .gameState1).exec W acts = some (tr, X))
    (hacts : ∀ c r, .program (.request c r) ∈ acts → ∃ id, r = .updateGameState id .gameState1) :
    (wiredMachine K (.nlohmann .twoAndAHalf)).Run W tr X ∧
      ∀ e ∈ tr, e.act.Fits .twoAndAHalf := by
  have hmem (e) (he : e ∈ tr) : e.act ∈ acts := by
    rw [← Machine.map_act_of_exec h]
    exact List.mem_map_of_mem he
  refine ⟨run_of_readsMore System.readsMore_gameState1 (Machine.run_of_exec h)
    fun e he c r hact => ?_, fun e he => ?_⟩
  · obtain ⟨id, rfl⟩ := hacts c r (hact ▸ hmem e he)
    exact congrArg (Client.updateGameState id) System.compact_gameState1
  · cases hact : e.act with
    | send side c | written side c write pad | failed side c write pad n | read side c => trivial
    | program a =>
        cases a with
        | request c r =>
            obtain ⟨id, rfl⟩ := hacts c r (hact ▸ hmem e he)
            exact System.fits_updateGameState1 c id
        | connect | close c | tick c timeNow | arrive c | serve timeNow | receive c => trivial

/-- What carries one message over an idle link. -/
def carry (side : Side) (c : ℕ) (msg : Message) : List Action :=
  [.send side c, .written side c (.header msg) 0] ++
    (if msg.body = [] then [] else [.written side c (.body msg) 0]) ++
    List.replicate (headerSize + msg.body.length) (.read side c)

/-! ### The bytes forgotten -/

/-- **The bytes can be forgotten.** Whatever the server and its clients do
over their byte streams, with writes and reads in any order and with failing
writes, there is a run over message channels that shows the same steps with
the same effects and ends with the same server and the same clients. When
nothing is queued or on the wire, no channel holds a message. -/
theorem wired_refines {Φ : Json.FloatText}
    (h : (wiredMachine K (.nlohmann Φ)).Run initial tr W)
    (hdocs : ∀ e ∈ tr, e.act.Fits Φ) :
    ∃ tr' S, (systemMachine K (.nlohmann Φ)).Run .initial tr' S ∧
      S.server = W.server ∧ S.gameInstance = W.gameInstance ∧
      tr'.flatMap System.shown = tr.flatMap shown ∧ (W.Quiet → S.Quiet) := by
  obtain ⟨tr', S, hrun, hsim, hshown⟩ := simulates_run h fun e he => (hdocs e he).readsBack
  exact ⟨tr', S, hrun, hsim.refines.server, hsim.refines.gameInstance, hshown,
    hsim.refines.quiet⟩

/-- An update of a client reaches the server, and its acknowledgement the
client. -/
theorem wired_refines_update :
    ∃ tr W tr' S, (wiredMachine constants (.nlohmann .twoAndAHalf)).Run initial tr W ∧
      (systemMachine constants (.nlohmann .twoAndAHalf)).Run .initial tr' S ∧
      S.server = W.server ∧ S.gameInstance = W.gameInstance ∧
      tr'.flatMap System.shown = tr.flatMap shown := by
  have hexec : ((wiredMachine constants .gameState1).exec initial
      ([.program .connect] ++ carry .server 10001 { header := { type := .serverAccept } } ++
        [.program (.receive 10001), .program (.request 10001 (.updateGameState 7 .gameState1))] ++
        carry .client 10001 Client.acceptServerConnection ++
        carry .client 10001 (Client.updateGameState 7 JsonText.gameState1.gameState1Text) ++
        [.program (.serve 0), .program (.serve 0)] ++
        carry .server 10001 (Server.ackMessage 7) ++ [.program (.receive 10001)])).isSome := by
    decide +kernel
  obtain ⟨⟨tr, W⟩, hexec⟩ := Option.isSome_iff_exists.mp hexec
  obtain ⟨hrun, hfits⟩ := run_gameState1 hexec (by simp [carry])
  obtain ⟨tr', S, hrun', hserver, hgame, hshown, _⟩ := wired_refines hrun hfits
  exact ⟨tr, W, tr', S, hrun, hrun', hserver, hgame, hshown⟩

/-! ### Faults -/

theorem carries_of_refines (h : Refines W S) (side : Side) (c : ℕ) :
    ∃ msgs, (W.links (side, c)).Carries msgs := by
  cases side with
  | client =>
      obtain ⟨sent, hcarries, _⟩ := h.toServer c
      exact ⟨sent, hcarries⟩
  | server =>
      obtain ⟨_, _, _, _, sent, hcarries, _⟩ := h.toClient c
      exact ⟨sent, hcarries⟩

/-- The fault of a step of the server. -/
theorem tick_of_serverAction (href : Refines W S) (hnum : S.server.Numbered)
    (hsound : S.Sound J) {a : System.Action} {b : Server.Action} {queue : List (ℕ × Message)}
    (hb : S.serverAction a = some (b, queue))
    (henabled : (serverMachine K J).enabled S.server b = true) {fault : Fault}
    (hstep : (serverMachine K J).step S.server b = .error fault) :
    fault = .nullPointer ∧ ∃ c timeNow, Action.program a = .program (.tick c timeNow) ∧
      W.server.AwaitsPing K c ∧ c ∉ W.server.connectionsContainer := by
  obtain ⟨hfault, c, timeNow, rfl, hawaits, hc⟩ :=
    Server.fault_of_sound hnum (hsound.served hb).1 henabled hstep
  rw [href.server] at hawaits hc
  refine ⟨hfault, c, timeNow, ?_, hawaits, hc⟩
  rcases System.serverAction_cases hb with
    ⟨_, hact, _⟩ | ⟨_, _, hact, _⟩ | ⟨_, _, rfl, hact, _⟩ | ⟨_, _, _, _, hact, _⟩
  · cases hact
  · cases hact
  · cases hact
    rfl
  · cases hact

theorem tick_of_fault (h : Simulates J W S) {a : Action}
    (ha : (wiredMachine K J).enabled W a = true) {fault : Fault}
    (hstep : (wiredMachine K J).step W a = .error fault) :
    fault = .nullPointer ∧ ∃ c timeNow, a = .program (.tick c timeNow) ∧
      W.server.AwaitsPing K c ∧ c ∉ W.server.connectionsContainer := by
  obtain ⟨href, hsound, hnum⟩ := h
  cases a with
  | program a =>
      cases a with
      | request c r | arrive c => cases hstep
      | receive c =>
          simp only [wiredMachine] at hstep
          split at hstep
          · rename_i m rest hqueue
            have hhandle := bind_eq_error (fun _ => ⟨_, rfl⟩) hstep
            obtain ⟨msg, rest', hto, hmsg, _⟩ := href.received hqueue
            have hm : msg.Sound J := hsound.toClient c msg (by simp [hto])
            obtain ⟨r, hok⟩ := Client.handleMessage_of_sound hm (W.gameInstance c)
            rw [Client.handleMessage_arrivesAs hmsg hm, hok] at hhandle
            cases hhandle
          · cases hstep
      | connect | close c | tick c timeNow | serve timeNow =>
          simp only [wiredMachine] at ha hstep
          split at hstep
          · rename_i b queue hb
            have hserver := bind_eq_error (fun _ => ⟨_, rfl⟩) hstep
            obtain ⟨b', queue', hb', henabled, hsame, _⟩ := href.serverAction (K := K) hsound hb
            rw [hb, Option.any_some] at ha
            exact tick_of_serverAction href hnum hsound hb' (henabled.trans ha)
              (hsame.trans hserver)
          · cases hstep
  | send side c =>
      obtain ⟨l, hl⟩ := (W.links (side, c)).runSend_ok
      rw [show (wiredMachine K J).step W (.send side c) = .ok (W.setLink (side, c) l, []) by
        simp [wiredMachine, hl, bind, Except.bind, pure, Except.pure]] at hstep
      cases hstep
  | written side c write pad =>
      simp only [wiredMachine, Bool.and_eq_true] at ha
      obtain ⟨msgs, hcarries⟩ := carries_of_refines href side c
      obtain ⟨l, hl⟩ := hcarries.write_ok ha.2
      simp [wiredMachine, hl, bind, Except.bind, pure, Except.pure] at hstep
  | failed side c write pad n =>
      simp only [wiredMachine, Bool.and_eq_true] at ha
      obtain ⟨msgs, hcarries⟩ := carries_of_refines href side c
      obtain ⟨l, hl⟩ := hcarries.write_ok ha.2
      cases side <;> simp [wiredMachine, hl, bind, Except.bind, pure, Except.pure] at hstep
  | read side c => cases hstep

theorem step_tick_error {c : ℕ} (hawaits : W.server.AwaitsPing K c)
    (hc : c ∉ W.server.connectionsContainer) (timeNow : Int64) :
    (wiredMachine K J).step W (.program (.tick c timeNow)) = .error .nullPointer := by
  have hstep : (serverMachine K J).step W.server (.tick c timeNow) = .error .nullPointer :=
    (Server.tick_nullPointer_iff hawaits.1 timeNow).mpr ⟨hawaits, hc⟩
  simp only [wiredMachine, view, System.serverAction, hstep]
  rfl

/-- The steps of the programs, in order. -/
def actions (tr : List (Event Wired Action (List Effect))) : List System.Action :=
  (tr.flatMap shown).map Prod.fst

/-- The steps of the programs among those that an action shows. -/
def Action.seen : Action → List System.Action
  | .program a => [a]
  | .failed .server c _ _ _ => [.close c]
  | _ => []

theorem actions_eq_seen (tr : List (Event Wired Action (List Effect))) :
    actions tr = (tr.map Event.act).flatMap Action.seen := by
  rw [actions, List.map_flatMap, List.flatMap_map]
  refine List.flatMap_congr fun e _ => ?_
  cases hact : e.act with
  | program a | send side c | written side c write pad | read side c =>
      simp [shown, Action.seen, hact]
  | failed side c write pad n => cases side <;> simp [shown, Action.seen, hact]

theorem seen_carry (side : Side) (c : ℕ) (msg : Message) :
    (carry side c msg).flatMap Action.seen = [] := by
  rw [carry]
  split <;> simp [Action.seen]

def isArrival : System.Action → Bool
  | .arrive _ => true
  | _ => false

theorem map_shown (tr : List (Event System System.Action (List Effect))) :
    (tr.flatMap System.shown).map Prod.fst =
      (tr.map Event.act).filter fun a => !isArrival a := by
  induction tr with
  | nil => rfl
  | cons e tr ih =>
      rw [List.flatMap_cons, List.map_append, ih, List.map_cons, List.filter_cons]
      cases hact : e.act <;> simp [System.shown, isArrival, hact]

/-- The steps of a matching run, without the arrivals. -/
theorem actions_eq {tr' : List (Event System System.Action (List Effect))}
    (h : tr'.flatMap System.shown = tr.flatMap shown) :
    actions tr = (tr'.map Event.act).filter fun a => !isArrival a := by
  rw [actions, ← h, map_shown]

theorem close_not_mem {tr' : List (Event System System.Action (List Effect))}
    (h : tr'.flatMap System.shown = tr.flatMap shown) {c : ℕ} (hopen : .close c ∉ actions tr) :
    .close c ∉ tr'.map Event.act := by
  intro hmem
  rw [actions_eq h] at hopen
  exact hopen (List.mem_filter.mpr ⟨hmem, rfl⟩)

/-- **What can fail.** In every state that a run over the bytes reaches, a
step that is offered fails if and only if it is the tick of a client that is
to be pinged and whose connection has been erased, and then on the null
pointer. No message of the program makes the server or a client fail, and no
handler of a writer finds its queue empty; so while no socket of the server
has been closed nothing fails at all. A step is a whole tick or handler here,
as `wiredMachine` has it. -/
theorem faults_iff {Φ : Json.FloatText}
    (h : (wiredMachine K (.nlohmann Φ)).Run initial tr W)
    (hdocs : ∀ e ∈ tr, e.act.Fits Φ) {a : Action}
    (ha : (wiredMachine K (.nlohmann Φ)).enabled W a = true) :
    (∀ fault, (wiredMachine K (.nlohmann Φ)).step W a = .error fault ↔
      fault = .nullPointer ∧ ∃ c timeNow, a = .program (.tick c timeNow) ∧
        W.server.AwaitsPing K c ∧ c ∉ W.server.connectionsContainer) ∧
    ((∀ c, .close c ∉ actions tr) →
      ∃ X effects, (wiredMachine K (.nlohmann Φ)).step W a = .ok (X, effects)) := by
  obtain ⟨tr', S, hrun, hsim, hshown⟩ := simulates_run h fun e he => (hdocs e he).readsBack
  refine ⟨fun fault => ⟨tick_of_fault hsim ha, ?_⟩, fun hopen => ?_⟩
  · rintro ⟨rfl, c, timeNow, rfl, hawaits, hc⟩
    exact step_tick_error hawaits hc timeNow
  · cases hstep : (wiredMachine K (.nlohmann Φ)).step W a with
    | ok r => exact ⟨r.1, r.2, rfl⟩
    | error fault =>
        -- Without a closed socket every client with a wait is in the container.
        obtain ⟨_, c, _, _, hawaits, hc⟩ := tick_of_fault hsim ha hstep
        rw [← hsim.refines.server] at hawaits hc
        have hconn := (Server.connected_run (System.server_run hrun) fun d hd =>
          close_not_mem hshown (hopen d) (System.close_mem_of_serverEvent hd)).2 c
            (hsim.numbered.accepted (Server.standing_ne_of_waits hawaits.1))
        exact absurd hconn.1 hc

/-- The connection of a client is erased between its answer and its ping. -/
theorem faults_iff_erased :
    ∃ tr W, (wiredMachine constants (.nlohmann .twoAndAHalf)).Run initial tr W ∧
      (wiredMachine constants (.nlohmann .twoAndAHalf)).step W (.program (.tick 10001 0)) =
        .error .nullPointer := by
  have hexec : (((wiredMachine constants .gameState1).exec initial
      ([.program .connect, .program .connect] ++
        carry .server 10001 { header := { type := .serverAccept } } ++
        [.program (.receive 10001)] ++ carry .client 10001 Client.acceptServerConnection ++
        [.program (.serve 0), .program (.close 10001),
          .program (.request 10002 (.updateGameState 7 .gameState1))] ++
        carry .client 10002 (Client.updateGameState 7 JsonText.gameState1.gameState1Text) ++
        [.program (.serve 0)])).map fun r =>
      (decide (10001 ∈ r.2.server.waits), r.2.server.clientStatus 10001,
        decide (10001 ∈ r.2.server.connectionsContainer))) =
        some (true, some ⟨.live, 0, some (-1000000000)⟩, false) := by
    decide +kernel
  obtain ⟨⟨tr, W⟩, hexec, hview⟩ := Option.map_eq_some_iff.mp hexec
  obtain ⟨hwait, hview⟩ := Prod.mk.inj hview
  obtain ⟨hentry, hout⟩ := Prod.mk.inj hview
  obtain ⟨hrun, hfits⟩ := run_gameState1 hexec (by simp [carry])
  have hwait : 10001 ∈ W.server.waits := of_decide_eq_true hwait
  have hawaits : W.server.AwaitsPing constants 10001 := ⟨hwait, _, hentry, rfl, by decide⟩
  refine ⟨tr, W, hrun, ((faults_iff hrun hfits ?_).1 .nullPointer).mpr
    ⟨rfl, 10001, 0, rfl, hawaits, of_decide_eq_false hout⟩⟩
  simpa [wiredMachine, view, System.serverAction, serverMachine] using hwait

/-! ### One order -/

theorem pairwise_connect {tr' : List (Event System System.Action (List Effect))}
    (h : tr'.flatMap System.shown = tr.flatMap shown)
    (hconnect : (actions tr).Pairwise fun a b => a.IsUpdate → b ≠ .connect) :
    (tr'.map Event.act).Pairwise fun a b => a.IsUpdate → b ≠ .connect := by
  rw [actions_eq h, List.pairwise_filter] at hconnect
  refine hconnect.imp fun {a b} hab hupdate => ?_
  cases a with
  | connect | close c | tick c timeNow | arrive c | serve timeNow | receive c => cases hupdate
  | request c r =>
      rintro rfl
      exact hab rfl rfl hupdate rfl

theorem documents_eq {tr' : List (Event System System.Action (List Effect))}
    (h : tr'.flatMap System.shown = tr.flatMap shown) (c : ℕ) :
    tr'.filterMap (System.documentRequested c) =
      (actions tr).filterMap (System.Action.document c) := by
  rw [System.documentsRequested_eq, actions_eq h, List.filterMap_filter]
  refine List.filterMap_congr fun a _ => ?_
  cases a <;> rfl

/-- **One order, from the requests to the databases.** Let all clients connect
before the first update is requested, and no socket of the server be closed.
Once nothing is queued and nothing is on the wire, there is one order of all
the documents, in which those of each client come as it requested them, such
that the database of the server is what all of them make of the constructor's,
and that of each client what all but its own make of it. -/
theorem one_order_over_bytes {Φ : Json.FloatText}
    (h : (wiredMachine K (.nlohmann Φ)).Run initial tr W)
    (hdocs : ∀ e ∈ tr, e.act.Fits Φ)
    (hconnect : (actions tr).Pairwise fun a b => a.IsUpdate → b ≠ .connect)
    (hopen : ∀ c, .close c ∉ actions tr) (hquiet : W.Quiet) :
    ∃ order : List (ℕ × Json),
      (∀ c, W.server.Accepted c → (order.filter fun u => u.1 = c).map Prod.snd =
        (actions tr).filterMap (System.Action.document c)) ∧
      W.server.gameInstance = GameInstance.initial.updateAll (order.map Prod.snd) ∧
      ∀ d, W.server.Accepted d → W.gameInstance d = GameInstance.initial.updateAll
        ((order.filter fun u => u.1 ≠ d).map Prod.snd) := by
  have hback := fun e he => (hdocs e he).readsBack
  obtain ⟨tr', S, hrun, hsim, hshown⟩ := simulates_run h hback
  obtain ⟨order, hup, hserver, hclient⟩ := System.one_order hrun
    (readsBack_of_shown hshown hback) (pairwise_connect hshown hconnect)
    (fun c => close_not_mem hshown (hopen c)) (hsim.refines.quiet hquiet)
  rw [hsim.refines.server] at hup hserver hclient
  rw [hsim.refines.gameInstance] at hclient
  exact ⟨order, fun c hc => (hup c hc).trans (documents_eq hshown c), hserver, hclient⟩

/-- Two clients send the same update. -/
theorem one_order_over_bytes_both :
    ∃ tr W, (wiredMachine constants (.nlohmann .twoAndAHalf)).Run initial tr W ∧
      ∃ order : List (ℕ × Json),
        (order.filter fun u => u.1 = 10001).map Prod.snd = [.gameState1] ∧
        W.server.gameInstance = GameInstance.initial.updateAll (order.map Prod.snd) ∧
        W.gameInstance 10002 = GameInstance.initial.updateAll
          ((order.filter fun u => u.1 ≠ 10002).map Prod.snd) := by
  have hexec : (((wiredMachine constants .gameState1).exec initial
      ([.program .connect, .program .connect] ++
        carry .server 10001 { header := { type := .serverAccept } } ++
        carry .server 10002 { header := { type := .serverAccept } } ++
        [.program (.receive 10001), .program (.receive 10002),
          .program (.request 10001 (.updateGameState 7 .gameState1)),
          .program (.request 10002 (.updateGameState 8 .gameState1))] ++
        carry .client 10001 Client.acceptServerConnection ++
        carry .client 10002 Client.acceptServerConnection ++
        carry .client 10002 (Client.updateGameState 8 JsonText.gameState1.gameState1Text) ++
        carry .client 10001 (Client.updateGameState 7 JsonText.gameState1.gameState1Text) ++
        [.program (.serve 0), .program (.serve 0), .program (.serve 0), .program (.serve 0)] ++
        carry .server 10002 (Server.ackMessage 8) ++
        carry .server 10001 (Relay.forward
          (Client.updateGameState 8 JsonText.gameState1.gameState1Text)) ++
        carry .server 10001 (Server.ackMessage 7) ++
        carry .server 10002 (Relay.forward
          (Client.updateGameState 7 JsonText.gameState1.gameState1Text)) ++
        [.program (.receive 10001), .program (.receive 10001), .program (.receive 10002),
          .program (.receive 10002)])).map fun r =>
      decide (r.2.Quiet ∧ r.2.server.Accepted 10001 ∧ r.2.server.Accepted 10002)) =
        some true := by
    decide +kernel
  obtain ⟨⟨tr, W⟩, hexec, hview⟩ := Option.map_eq_some_iff.mp hexec
  obtain ⟨hquiet, hfirst, hsecond⟩ := of_decide_eq_true hview
  obtain ⟨hrun, hfits⟩ := run_gameState1 hexec (by simp [carry, or_imp, forall_and])
  have hactions := actions_eq_seen tr
  rw [Machine.map_act_of_exec hexec] at hactions
  simp only [List.flatMap_append, seen_carry, List.append_nil] at hactions
  simp only [List.flatMap_cons, List.flatMap_nil, Action.seen, List.cons_append,
    List.nil_append] at hactions
  obtain ⟨order, hup, hserver, hclient⟩ := one_order_over_bytes hrun hfits
    (by simp [hactions, System.Action.IsUpdate]) (by simp [hactions]) hquiet
  refine ⟨tr, W, hrun, order, (hup 10001 hfirst).trans ?_, hserver, hclient 10002 hsecond⟩
  rw [hactions]
  rfl

end Wired

end AmongUs
