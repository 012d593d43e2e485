import AmongUs.System.Channels

/-!
The order of the handshake, for clients that answer as `Client` does.

A status becomes `Live` when a client has answered, with a `ClientAccept` or
with a `ClientPing`. A ping is answered only where one was sent, and one is
sent only to a client that is `Live`. So whatever is on its way in between,
it all goes back to one `ClientAccept` (`accepted_before`), and the pings
that come back are those that were sent, in order (`pings_prefix`).
-/

namespace AmongUs

open Networking Transition

namespace Server

variable {K : Constants} {J : JsonText} {e : Event Server Action (List Effect)} {c : ℕ}
  {m : Message}

def serverAcceptMessage : Message := { header := { type := .serverAccept } }

/-- What a handled message sends is no ping: a relayed message or update, or
the answer to a ping of the client. -/
theorem sent_onMessage {s s' : Server} {effects : List Effect} {d : ℕ} {msg : Message}
    {timeNow : Int64} (hacc : s.Accepted d)
    (hret : s.onMessage J d msg timeNow = .ok (s', effects)) (hm : .send c m ∈ effects) :
    ¬msg.IsAnswer ∧ (c = d ∧ s.Accepted d ∨ c ∈ s.connectionsContainer) ∧
      m.header.type ≠ .clientPing := by
  rcases onMessage_cases hret with
    ⟨_, _, dur, _, hout⟩ | ⟨htype, heq⟩ |
    ⟨htype, left, newMsgAll, rcvBuf, updates, htext, _, heq⟩ |
      ⟨hans, _, _, hout⟩
  · simp [hout] at hm
  · rw [← mem_sentTo, show effects = _ from congrArg Prod.snd heq,
      sentTo_messageAllClients] at hm
    split at hm
    · rename_i hc
      obtain rfl := List.mem_singleton.mp hm
      exact ⟨by simp [Message.IsAnswer, htype], Or.inr hc.1,
        by simp [serverMessage, Message.push, Message.setBody]⟩
    · simp at hm
  · obtain ⟨_, rfl, _, _⟩ := Relay.serverText_ok htext
    rw [← mem_sentTo, show effects = _ from congrArg Prod.snd heq, sentTo_applyUpdates] at hm
    refine ⟨by simp [Message.IsAnswer, htype], ?_⟩
    split at hm
    · rename_i hc
      obtain rfl := List.mem_singleton.mp hm
      exact ⟨Or.inl ⟨hc, hacc⟩, by simp⟩
    · split at hm
      · rename_i hc
        obtain rfl := List.mem_singleton.mp hm
        exact ⟨Or.inr hc.1, by simp [Relay.forward_type]⟩
      · simp at hm
  · rw [hout] at hm
    split at hm
    · rename_i hping
      obtain ⟨rfl, rfl⟩ : c = d ∧ m = msg := by simpa using hm
      exact ⟨hans, Or.inl ⟨rfl, hacc⟩, by simp [hping]⟩
    · simp at hm

/-- The steps that post a message to a client. -/
theorem sent_cases (h : (serverMachine K J).Takes e) (hm : .send c m ∈ e.out) :
    (e.act = .accept ∧ c = e.src.nIDCounter + 1 ∧ m = serverAcceptMessage) ∨
    (∃ timeNow, e.act = .tick c timeNow ∧ e.src.statusOf c = some .live ∧
      c ∈ e.src.connectionsContainer ∧ m = clientPing timeNow) ∨
    (∃ d msg timeNow, e.act = .onMessage d msg timeNow ∧ ¬msg.IsAnswer ∧
      (c = d ∧ e.src.Accepted d ∨ c ∈ e.src.connectionsContainer) ∧
      m.header.type ≠ .clientPing) := by
  rcases takes_cases h with
    ⟨hact, heq⟩ | ⟨d, hact, _, _, hout⟩ | ⟨d, msg, timeNow, hact, hacc, hret⟩ |
      ⟨d, timeNow, entry, hact, _, hentry, hswitch⟩
  · rw [show e.out = e.src.accept.2 from congrArg Prod.snd heq] at hm
    obtain ⟨rfl, rfl⟩ : c = e.src.nIDCounter + 1 ∧ m = serverAcceptMessage := by
      simpa [accept, onClientConnect, serverAcceptMessage] using hm
    exact Or.inl ⟨hact, rfl, rfl⟩
  · simp [hout] at hm
  · exact Or.inr (Or.inr ⟨d, msg, timeNow, hact, sent_onMessage hacc hret hm⟩)
  · rcases lockedSwitch_cases hswitch with
      ⟨_, heq⟩ | ⟨_, _, _, hout⟩ | ⟨hlive, _, _, hmem, hout⟩ | ⟨_, _, hout⟩
    · rw [show e.out = ((e.src.expire d).giveUp d).2 from congrArg Prod.snd heq] at hm
      simp only [giveUp, disconnect, List.mem_cons, reduceCtorEq, false_or] at hm
      split at hm <;> simp at hm
    · simp [hout] at hm
    · obtain ⟨rfl, rfl⟩ : c = d ∧ m = clientPing timeNow := by simpa [hout] using hm
      refine Or.inr (Or.inl ⟨timeNow, hact, ?_, hmem, rfl⟩)
      simp [statusOf, hentry, hlive]
    · simp [hout] at hm

/-- A status becomes live by an answer only. -/
theorem status_live_step (h : (serverMachine K J).Takes e) (hlive : e.dst.statusOf c = some .live) :
    e.src.statusOf c = some .live ∨
      ∃ msg timeNow, e.act = .onMessage c msg timeNow ∧ msg.IsAnswer := by
  rw [statusOf_eq, standing_step h] at hlive
  rw [statusOf_eq, ← changeOf_eq_answered_iff (s := e.src)]
  generalize e.src.standing c = v at hlive
  cases hch : e.src.changeOf e.act c with
  | none | closed | pruned => exact Or.inl (by simpa [hch, Standing.change] using hlive)
  | accepted => simp [hch, Standing.change] at hlive
  | answered => exact Or.inr rfl
  | ticked =>
      apply Or.inl
      obtain ⟨_ | ⟨status, count⟩, waits, timer, registered, isOpen⟩ := v
      · simp [hch, Standing.change] at hlive
      · cases status with
        | waiting =>
            by_cases hcount : K.maxTimeClientAccept < count <;>
              simp [hch, Standing.change, Standing.switch, Standing.expire, Standing.giveUp,
                Standing.rearm, hcount] at hlive
        | live => rfl
        | dead | unstable =>
            simp [hch, Standing.change, Standing.switch, Standing.expire] at hlive

theorem changeOf_eq_accepted_iff {s : Server} {a : Action} :
    s.changeOf a c = .accepted ↔ a = .accept ∧ c = s.nIDCounter + 1 := by
  cases a with
  | accept => simp [changeOf]
  | close d | tick d timeNow => simp [changeOf, ite_eq_iff]
  | onMessage d msg timeNow => by_cases hans : msg.IsAnswer <;> simp [changeOf, hans, ite_eq_iff]

theorem out_of_accept (h : (serverMachine K J).Takes e) (hact : e.act = .accept) :
    e.out = [.send (e.src.nIDCounter + 1) serverAcceptMessage] := by
  obtain ⟨s, a, effects, s'⟩ := e
  obtain rfl : a = .accept := hact
  exact congrArg Prod.snd (Except.ok.inj h.2).symm

theorem Numbered.accepted_of_mem {s : Server} (hs : s.Numbered)
    (hc : c ∈ s.connectionsContainer) : s.Accepted c := by
  refine hs.accepted fun hblank => ?_
  have hreg := congrArg Standing.registered hblank
  simp [standing, hc] at hreg

end Server

namespace System

variable {K : Constants} {J : JsonText} {S : System} {e : Event System Action (List Effect)}
  {tr : List (Event System Action (List Effect))} {c : ℕ} {m : Message}

/-- The messages a step posts to a client, on an open socket or not. -/
def sent (c : ℕ) (e : Event System Action (List Effect)) : List Message := sentTo c e.out

def pings (msgs : List Message) : List Message :=
  msgs.filter fun m => m.header.type = .clientPing

theorem mem_sent_of_posts (h : m ∈ posts c e) : m ∈ sent c e := by
  rw [posts] at h
  split at h
  · exact h
  · simp at h

/-- A step that posts something is a step of the server. -/
theorem serverAction_of_sent (h : (systemMachine K J).Takes e) (hm : m ∈ sent c e) :
    ∃ b, e.src.serverAction e.act = some b ∧
      (serverMachine K J).Takes ⟨e.src.server, b.1, e.out, e.dst.server⟩ := by
  cases hb : e.src.serverAction e.act with
  | none => simp [sent, (takes_elsewhere h hb).1, sentTo] at hm
  | some b => exact ⟨b, rfl, (takes_server h hb).1⟩

theorem server_of_client (h : (systemMachine K J).Takes e)
    (hb : e.src.serverAction e.act = none) : e.dst.server = e.src.server := by
  rcases takes_cases h with
    ⟨b, queue, hsome, _⟩ | ⟨_, _, _, hdst⟩ | ⟨_, _, _, _, _, hdst⟩ | ⟨_, _, _, _, _, _, _, _, hdst⟩
  · rw [hb] at hsome
    cases hsome
  all_goals
    rw [hdst]
    rfl

/-! ### The first message -/

/-- What was posted to a client starts with `ServerAccept`, and nothing was
posted to a client that was not accepted. -/
theorem sent_run (h : (systemMachine K J).Run initial tr S) (c : ℕ) :
    (¬S.server.Accepted c → tr.flatMap (sent c) = []) ∧
      (S.server.Accepted c → ∃ rest, tr.flatMap (sent c) = Server.serverAcceptMessage :: rest) := by
  induction h with
  | nil =>
      refine ⟨fun _ => rfl, fun hacc => ?_⟩
      obtain ⟨hlow, hhigh⟩ := hacc
      exact absurd (hlow.trans_le hhigh) (by simp [initial, Server.initial])
  | @snoc tr e hrun htakes ih =>
      rw [List.flatMap_append, List.flatMap_singleton]
      cases hb : e.src.serverAction e.act with
      | none =>
          rw [server_of_client htakes hb]
          simpa [sent, (takes_elsewhere htakes hb).1, sentTo] using ih
      | some b =>
          have hserver := (takes_server htakes hb).1
          have hnum : e.src.server.Numbered := Server.numbered_initial.run (server_run hrun)
          rw [show e.dst.server.Accepted c ↔ _ from Server.accepted_step hserver hnum c]
          by_cases hold : e.src.server.Accepted c
          · obtain ⟨rest, hrest⟩ := ih.2 hold
            exact ⟨fun hnot => absurd (Or.inl hold) hnot, fun _ => ⟨rest ++ sent c e, by
              rw [hrest, List.cons_append]⟩⟩
          · rw [ih.1 hold, List.nil_append]
            rw [Server.changeOf_eq_accepted_iff]
            refine ⟨fun hnot => ?_, fun hacc => ?_⟩
            · refine List.eq_nil_iff_forall_not_mem.mpr fun m hm => ?_
              rcases Server.sent_cases hserver (mem_sentTo.mp hm) with
                ⟨hact, hc, _⟩ | ⟨_, _, _, hmem, _⟩ | ⟨_, _, _, _, _, ⟨rfl, hacc⟩ | hmem, _⟩
              · exact hnot (Or.inr ⟨hact, hc⟩)
              · exact hold (hnum.accepted_of_mem hmem)
              · exact hold hacc
              · exact hold (hnum.accepted_of_mem hmem)
            · obtain ⟨hact, hc⟩ := hacc.resolve_left hold
              refine ⟨[], ?_⟩
              rw [sent, Server.out_of_accept hserver hact, sentTo_send_cons, if_pos hc.symm]
              rfl

/-! ### Pings and what they go back to -/

/-- The server handles the head of its queue. -/
theorem served_of_onMessage {b : Server.Action × List (ℕ × Message)}
    (hb : e.src.serverAction e.act = some b) {timeNow : Int64}
    (hact : b.1 = .onMessage c m timeNow) : servedMessage e = some (c, m) := by
  rcases serverAction_cases hb with
    ⟨_, h, _⟩ | ⟨_, _, h, _⟩ | ⟨_, _, _, h, _⟩ | ⟨_, d, msg, hserve, h, hq⟩
  · cases hact.symm.trans h
  · cases hact.symm.trans h
  · cases hact.symm.trans h
  · cases hact.symm.trans h
    simp [servedMessage, hserve, hq]

theorem onMessage_of_served {p : ℕ × Message} (hp : servedMessage e = some p) :
    ∃ timeNow queue, e.src.serverAction e.act = some (.onMessage p.1 p.2 timeNow, queue) := by
  cases hact : e.act with
  | serve timeNow =>
      obtain ⟨queue, hqueue⟩ : ∃ queue, e.src.messagesIn = p :: queue :=
        List.head?_eq_some_iff.mp (by simpa [servedMessage, hact] using hp)
      exact ⟨timeNow, queue, by simp [serverAction, hqueue]⟩
  | connect | close d | tick d timeNow | request d r | arrive d | receive d =>
      simp [servedMessage, hact] at hp

theorem mem_handled_iff : m ∈ handled c e ↔ servedMessage e = some (c, m) := by
  cases hserved : servedMessage e with
  | none => simp [handled, hserved]
  | some p =>
      obtain ⟨d, msg⟩ := p
      by_cases hd : d = c
      · simp [handled, hserved, hd, eq_comm]
      · simp [handled, hserved, hd]

/-- Of what a client posts, the pings are the ones it handles. -/
theorem pings_answers (c : ℕ) (e : Event System Action (List Effect)) :
    pings (answers J c e) = pings (taken c e) := by
  have hreplies (msg : Message) : pings (Client.replies msg) = pings [msg] := by
    rw [Client.replies]
    split
    · rename_i htype
      simp [pings, Client.acceptServerConnection, htype]
    · rfl
    · rename_i hne
      exact (List.filter_eq_nil_iff.mpr (by simpa using hne)).symm
  cases hact : e.act with
  | request d r =>
      have htaken : taken c e = [] := by simp [taken, hact]
      rw [htaken]
      refine List.filter_eq_nil_iff.mpr fun m hm => ?_
      rcases answer_of_answers hm with ⟨r, _, rfl⟩ | ⟨_, hnone, _⟩
      · cases r <;> simp [Request.message, Client.pingServer, Client.messageAll,
          Client.updateGameState, Message.push, Message.setBody]
      · simp [htaken] at hnone
  | connect | close d | tick d timeNow | arrive d | serve timeNow | receive d =>
      have hanswers : answers J c e = (taken c e).flatMap Client.replies := by
        simp [answers, hact]
      rw [hanswers]
      induction taken c e with
      | nil => rfl
      | cons msg rest ih =>
          rw [List.flatMap_cons, pings, List.filter_append, ← pings, ← pings, hreplies, ih,
            pings, pings, pings, ← List.filter_append]
          rfl

theorem pings_flatMap (f : Event System Action (List Effect) → List Message) :
    pings (tr.flatMap f) = tr.flatMap fun e => pings (f e) := List.filter_flatMap

/-- **Pings come back as they were sent.** The pings that the server has
handled from a client are the first of those it has posted to it. -/
theorem pings_run (h : (systemMachine K J).Run initial tr S) (c : ℕ) :
    pings (tr.flatMap (handled c)) <+: pings (tr.flatMap (posts c)) := by
  have hdown : pings (tr.flatMap (taken c)) <+: pings (tr.flatMap (posts c)) := by
    rw [← run_toClient h c]
    exact (List.prefix_append _ _).filter _
  refine List.IsPrefix.trans ?_ hdown
  have hanswers : pings (tr.flatMap (taken c)) = pings (tr.flatMap (answers J c)) := by
    rw [pings_flatMap, pings_flatMap]
    exact List.flatMap_congr fun e _ => (pings_answers c e).symm
  rw [hanswers, ← run_toServer h c]
  exact (List.prefix_append _ _).filter _

/-- A step that handles an answer posts nothing. -/
theorem posts_of_answer (h : (systemMachine K J).Takes e) {d : ℕ} (hm : m ∈ handled d e)
    (hans : m.IsAnswer) : posts c e = [] := by
  obtain ⟨timeNow, queue, hb⟩ := onMessage_of_served (mem_handled_iff.mp hm)
  refine List.eq_nil_iff_forall_not_mem.mpr fun m' hm' => ?_
  rcases Server.sent_cases (takes_server h hb).1 (mem_sentTo.mp (mem_sent_of_posts hm')) with
    ⟨hact, _⟩ | ⟨_, hact, _⟩ | ⟨_, _, _, hact, hnot, _⟩
  · cases hact
  · cases hact
  · cases hact
    exact hnot hans

/-- The ping that a step handles was posted before, after as many others as
were handled before. -/
theorem pings_prefix {pre post : List (Event System Action (List Effect))}
    (h : (systemMachine K J).Run initial (pre ++ e :: post) S) (hm : m ∈ handled c e)
    (hping : m.header.type = .clientPing) :
    pings (pre.flatMap (handled c)) ++ [m] <+: pings (pre.flatMap (posts c)) := by
  obtain ⟨hpre, htakes, _⟩ := h.split
  have hone : handled c e = [m] := by simp [handled, mem_handled_iff.mp hm]
  have hprefix := pings_run (hpre.snoc htakes) c
  rw [List.flatMap_append, List.flatMap_append, List.flatMap_singleton, List.flatMap_singleton,
    posts_of_answer htakes hm (Or.inl hping), List.append_nil, hone, pings,
    List.filter_append] at hprefix
  simpa [pings, hping] using hprefix

/-- A ping is posted to a client that is live. -/
theorem live_of_ping (h : (systemMachine K J).Takes e) (hm : m ∈ sent c e)
    (hping : m.header.type = .clientPing) : e.src.server.statusOf c = some .live := by
  obtain ⟨b, _, hserver⟩ := serverAction_of_sent h hm
  rcases Server.sent_cases hserver (mem_sentTo.mp hm) with
    ⟨_, _, rfl⟩ | ⟨_, _, hlive, _⟩ | ⟨_, _, _, _, _, _, hne⟩
  · simp [Server.serverAcceptMessage] at hping
  · exact hlive
  · exact absurd hping hne

/-- **A live client has accepted.** Wherever a status is live, the server
has handled a `ClientAccept` of that client. -/
theorem accepted_before (h : (systemMachine K J).Run initial tr S) (c : ℕ)
    (hlive : S.server.statusOf c = some .live) :
    ∃ m ∈ tr.flatMap (handled c), m.header.type = .clientAccept := by
  -- By induction, for every client that is live or was sent a ping.
  suffices H : S.server.statusOf c = some .live ∨
      (∃ m ∈ tr.flatMap (sent c), m.header.type = .clientPing) →
        ∃ m ∈ tr.flatMap (handled c), m.header.type = .clientAccept from H (Or.inl hlive)
  clear hlive
  induction h with
  | nil => simp [initial, Server.initial, Server.statusOf]
  | @snoc tr e hrun htakes ih =>
      have hgrow (hold : ∃ m ∈ tr.flatMap (handled c), m.header.type = .clientAccept) :
          ∃ m ∈ (tr ++ [e]).flatMap (handled c), m.header.type = .clientAccept := by
        obtain ⟨m, hm, hacc⟩ := hold
        exact ⟨m, by rw [List.flatMap_append]; exact List.mem_append_left _ hm, hacc⟩
      have hpinged (hping : ∃ m ∈ (tr ++ [e]).flatMap (sent c), m.header.type = .clientPing) :
          ∃ m ∈ (tr ++ [e]).flatMap (handled c), m.header.type = .clientAccept := by
        obtain ⟨m, hm, hping⟩ := hping
        rw [List.flatMap_append, List.flatMap_singleton, List.mem_append] at hm
        rcases hm with hm | hm
        · exact hgrow (ih (Or.inr ⟨m, hm, hping⟩))
        · exact hgrow (ih (Or.inl (live_of_ping htakes hm hping)))
      rintro (hlive | hping)
      · cases hb : e.src.serverAction e.act with
        | none =>
            rw [server_of_client htakes hb] at hlive
            exact hgrow (ih (Or.inl hlive))
        | some b =>
            rcases Server.status_live_step (takes_server htakes hb).1 hlive with
              hlive | ⟨msg, timeNow, hact, hans⟩
            · exact hgrow (ih (Or.inl hlive))
            · have hmem : msg ∈ (tr ++ [e]).flatMap (handled c) := by
                rw [List.flatMap_append, List.flatMap_singleton]
                exact List.mem_append_right _ (mem_handled_iff.mpr (served_of_onMessage hb hact))
              rcases hans with hping | haccept
              · -- The ping was sent before, and only after a `ClientAccept`.
                have hposted : msg ∈ pings ((tr ++ [e]).flatMap (posts c)) :=
                  (pings_run (hrun.snoc htakes) c).subset
                    (List.mem_filter.mpr ⟨hmem, by simpa using hping⟩)
                obtain ⟨x, hx, hpost⟩ := List.mem_flatMap.mp (List.mem_filter.mp hposted).1
                exact hpinged ⟨msg, List.mem_flatMap.mpr ⟨x, hx, mem_sent_of_posts hpost⟩, hping⟩
              · exact ⟨msg, hmem, haccept⟩
      · exact hpinged hping

/-- **The handshake.** Of the messages the server posts to a client the
first is `ServerAccept`; a ping is posted only after a `ClientAccept` of the
client was handled; the pings that are handled are, one by one, the pings
that were posted before; and only a client whose `ClientAccept` was handled
is live. -/
theorem handshake_order (h : (systemMachine K J).Run initial tr S) (c : ℕ) :
    (∀ m, (tr.flatMap (sent c)).head? = some m → m = Server.serverAcceptMessage) ∧
    (∀ pre e post, tr = pre ++ e :: post →
      (∃ m ∈ sent c e, m.header.type = .clientPing) →
        ∃ a ∈ pre.flatMap (handled c), a.header.type = .clientAccept) ∧
    (∀ pre e post, tr = pre ++ e :: post →
      ∀ m ∈ handled c e, m.header.type = .clientPing →
        pings (pre.flatMap (handled c)) ++ [m] <+: pings (pre.flatMap (posts c))) ∧
    (S.server.statusOf c = some .live →
      ∃ a ∈ tr.flatMap (handled c), a.header.type = .clientAccept) := by
  refine ⟨fun m hm => ?_, ?_, ?_, accepted_before h c⟩
  · obtain ⟨hnone, hsome⟩ := sent_run h c
    by_cases hacc : S.server.Accepted c
    · obtain ⟨rest, hrest⟩ := hsome hacc
      simpa [hrest, eq_comm] using hm
    · simp [hnone hacc] at hm
  · rintro pre e post rfl ⟨m, hm, hping⟩
    obtain ⟨hpre, htakes, _⟩ := h.split
    exact accepted_before hpre c (live_of_ping htakes hm hping)
  · rintro pre e post rfl m hm hping
    exact pings_prefix h hm hping

/-- A client that has accepted, was pinged and has answered. -/
theorem handshake_order_pinged :
    ∃ tr S, (systemMachine constants .gameState1).Run initial tr S ∧
      S.server.statusOf 10001 = some .live ∧
      pings (tr.flatMap (handled 10001)) = [Server.clientPing 5] ∧
      ∃ a ∈ tr.flatMap (handled 10001), a.header.type = .clientAccept := by
  have hexec : (((systemMachine constants .gameState1).exec initial
      [.connect, .receive 10001, .arrive 10001, .serve 0, .tick 10001 5, .receive 10001,
        .arrive 10001, .serve 6]).map fun r =>
      (r.2.server.statusOf 10001, pings (r.1.flatMap (handled 10001)))) =
        some (some .live, [Server.clientPing 5]) := by
    decide +kernel
  obtain ⟨⟨tr, S⟩, hrun, hview⟩ := Option.map_eq_some_iff.mp hexec
  obtain ⟨hlive, hpings⟩ := Prod.mk.inj hview
  exact ⟨tr, S, Machine.run_of_exec hrun, hlive, hpings,
    (handshake_order (Machine.run_of_exec hrun) 10001).2.2.2 hlive⟩

end System

end AmongUs
