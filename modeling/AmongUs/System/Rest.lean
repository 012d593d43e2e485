import AmongUs.Networking.LinkRest
import AmongUs.System.EndToEnd
import Mathlib.Algebra.Order.BigOperators.Group.Finset
import Mathlib.Order.Interval.Finset.Nat

/-!
The system comes to rest.

No message goes to and fro for ever. What the server sends because of a
message no client answers, and what a client answers the server only notes.
So a message asks for a number of steps that can be told when it is posted:
the handlers and the reads that bring it over, and one step of the program at
the other end, with what that posts (`serveCost`, `receiveCost`). The sum of
all this, over the messages that the links hold, is made smaller by every
step that is not a request, a new client, a timer or a closed socket
(`Bounded.step`), so only finitely many such steps follow one another, under
any schedule (`comes_to_quiet`).
-/

namespace AmongUs

open Networking Transition

/-! ### What a message asks for -/

/-- The most that the server sends to one client because of a message. -/
def answerCost (msg : Message) : ℕ := 4 + headerSize + max msg.body.length 4

/-- What a message asks for that the server has received, with `n` clients. -/
def serveCost (n : ℕ) (msg : Message) : ℕ := 1 + n * answerCost msg

/-- What a message asks for that a client has received. -/
def receiveCost (n : ℕ) (msg : Message) : ℕ :=
  1 + ((Client.replies msg).map fun reply => reply.cost + 1 + serveCost n reply).sum

theorem cost_add_receiveCost_le {n : ℕ} {msg reply : Message} (h : Client.replies reply = [])
    (hlen : reply.body.length ≤ max msg.body.length 4) :
    reply.cost + 1 + receiveCost n reply ≤ answerCost msg := by
  rw [receiveCost, h, List.map_nil, List.sum_nil, Message.cost, answerCost]
  omega

/-- No client answers what the server sends because of a message. -/
theorem Server.cost_onMessage_le {J : JsonText} {s s' : Server} {client : ℕ} {msg : Message}
    {timeNow : Int64} {effects : List Effect}
    (hret : s.onMessage J client msg timeNow = .ok (s', effects)) (n c : ℕ) :
    ((sentTo c effects).map fun reply => reply.cost + 1 + receiveCost n reply).sum ≤
      answerCost msg := by
  have hnone : ((([] : List Message)).map fun reply =>
      reply.cost + 1 + receiveCost n reply).sum ≤ answerCost msg := Nat.zero_le _
  have hone {reply : Message} (h : Client.replies reply = [])
      (hlen : reply.body.length ≤ max msg.body.length 4) :
      (([reply]).map fun reply => reply.cost + 1 + receiveCost n reply).sum ≤
        answerCost msg := by
    rw [List.map_singleton, List.sum_singleton]
    exact cost_add_receiveCost_le h hlen
  rcases onMessage_cases hret with
    ⟨_, _, dur, _, hout⟩ | ⟨_, heq⟩ | ⟨_, left, newMsgAll, rcvBuf, updates, htext, hparse, heq⟩ |
      ⟨_, _, _, hout⟩
  · rw [hout]
    exact hnone
  · rw [show effects = _ from congrArg Prod.snd heq, sentTo_messageAllClients]
    split
    · exact hone rfl (by simp [serverMessage])
    · exact hnone
  · obtain ⟨_, rfl, rfl, _⟩ := Relay.serverText_ok htext
    rw [show effects = _ from congrArg Prod.snd heq, sentTo_applyUpdates]
    split
    · exact hone rfl (Nat.zero_le _)
    · split
      · refine hone ?_ ?_
        · rw [Client.replies, Relay.forward_type]
        · rw [Relay.forward_body, Relay.text]
          have hle := List.length_take_le' msg.header.size.toNat msg.body.reverse
          rw [List.length_reverse] at hle
          omega
      · exact hnone
  · rw [hout]
    split
    · rename_i htype
      rw [sentTo_send_cons]
      split
      · exact hone (by rw [Client.replies, htype]) (le_max_left _ _)
      · exact hnone
    · exact hnone

namespace Wired

variable {K : Constants} {J : JsonText} {W X : Wired} {S T : System}
  {e : Event Wired Action (List Effect)} {tr : List (Event Wired Action (List Effect))}

/-- The steps that go on by themselves. -/
def Action.IsOwn : Action → Prop
  | .program (.serve _) => True
  | .program (.receive _) => True
  | .program _ => False
  | _ => True

/-! ### The clients that there are -/

/-- Only the clients that were accepted have sent or been sent anything. -/
structure OnlyAccepted (W : Wired) : Prop where
  messagesIn : ∀ p ∈ W.messagesIn, W.server.Accepted p.1
  links : ∀ c, ¬W.server.Accepted c → ∀ side, W.links (side, c) = {}
  clientIn : ∀ c, ¬W.server.Accepted c → W.clientIn c = []

theorem onlyAccepted_initial : OnlyAccepted initial where
  messagesIn p hp := by cases hp
  links _ _ _ := rfl
  clientIn _ _ := rfl

theorem OnlyAccepted.of_links (h : W.OnlyAccepted) (side : Side) {c : ℕ}
    (hne : W.links (side, c) ≠ {}) : W.server.Accepted c := by
  by_contra hc
  exact hne (h.links c hc side)

theorem OnlyAccepted.of_clientIn (h : W.OnlyAccepted) {c : ℕ} (hne : W.clientIn c ≠ []) :
    W.server.Accepted c := by
  by_contra hc
  exact hne (h.clientIn c hc)

theorem links_ne_of_moves {l l' : Link} (h : l.Moves l') : l ≠ {} := by
  rintro rfl
  cases h with
  | runSend hposted _ => exact hposted rfl
  | @write a henabled ha _ =>
      cases a with
      | send msg => exact ha msg rfl
      | written write pad | failed write pad n => simp [writerMachine] at henabled

theorem OnlyAccepted.setLink (h : W.OnlyAccepted) (side : Side) {c : ℕ}
    (hc : W.server.Accepted c) (l : Link) : (W.setLink (side, c) l).OnlyAccepted where
  messagesIn := h.messagesIn
  links d hd side' := by
    have hne : (side', d) ≠ (side, c) := by
      rintro heq
      obtain ⟨_, rfl⟩ := Prod.mk.inj heq
      exact hd hc
    rw [setLink_links, if_neg hne]
    exact h.links d hd side'
  clientIn := h.clientIn

theorem OnlyAccepted.clientIn_update (h : W.OnlyAccepted) {c : ℕ} (hc : W.server.Accepted c)
    (queue : List Message) {d : ℕ} (hd : ¬W.server.Accepted d) :
    Function.update W.clientIn c queue d = [] := by
  have hne : d ≠ c := by
    rintro rfl
    exact hd hc
  rw [Function.update_of_ne hne]
  exact h.clientIn d hd

theorem OnlyAccepted.received (h : W.OnlyAccepted) {c : ℕ} (hc : W.server.Accepted c)
    (rest : List Message) (g : GameInstance) : (W.received c rest g).OnlyAccepted where
  messagesIn := h.messagesIn
  links := h.links
  clientIn _ hd := h.clientIn_update hc rest hd

theorem OnlyAccepted.served (h : W.OnlyAccepted) {queue : List (ℕ × Message)} {server : Server}
    {effects : List Effect} (hqueue : ∀ p ∈ queue, p ∈ W.messagesIn)
    (hacc : ∀ c, W.server.Accepted c → server.Accepted c) (hnum : server.Numbered) :
    (W.served queue server effects).OnlyAccepted where
  messagesIn p hp := hacc _ (h.messagesIn p (hqueue p hp))
  links c hc side := by
    have hsame := h.links c fun hold => hc (hacc c hold)
    cases side with
    | client => exact hsame .client
    | server =>
        -- Nothing is posted to a client that has no open socket.
        have hclosed : ¬server.isOpen c = true := fun hopen => hc (accepted_of_isOpen hnum hopen)
        exact (if_neg hclosed).trans (hsame .server)
  clientIn c hc := h.clientIn c fun hold => hc (hacc c hold)

theorem OnlyAccepted.read (h : W.OnlyAccepted) {side : Side} {c : ℕ}
    (hc : W.server.Accepted c) : (W.read side c).OnlyAccepted := by
  have hlinks := h.setLink side hc (W.links (side, c)).read
  cases side with
  | client =>
      refine ⟨fun p hp => ?_, hlinks.links, hlinks.clientIn⟩
      rcases List.mem_append.mp hp with hp | hp
      · exact h.messagesIn p hp
      · obtain ⟨m, _, rfl⟩ := List.mem_map.mp hp
        exact hc
  | server =>
      exact ⟨hlinks.messagesIn, hlinks.links, fun _ hd => h.clientIn_update hc _ hd⟩

theorem OnlyAccepted.step (h : e.src.OnlyAccepted) (hnum : e.src.server.Numbered)
    (htakes : (wiredMachine K J).Takes e) : e.dst.OnlyAccepted := by
  rcases takes_cases htakes with
    ⟨a, b, queue, _, hb, hserver, hdst⟩ | ⟨c, r, _, _, hacc, hdst⟩ |
      ⟨c, m, rest, g, replies, _, _, hqueue, _, hdst⟩ | ⟨⟨side, c⟩, l, _, hmoves, hdst⟩ |
      ⟨c, l, _, hopen, _, hdst⟩ | ⟨side, c, _, _, hflight, hdst⟩
  · rw [hdst]
    refine h.served (fun p hp => ?_) (fun c hc => ?_) (hnum.step hserver)
    · rcases System.serverAction_cases hb with
        ⟨_, _, rfl⟩ | ⟨_, _, _, rfl⟩ | ⟨_, _, _, _, rfl⟩ | ⟨_, _, _, _, _, hin⟩
      · exact hp
      · exact hp
      · exact hp
      · exact (show e.src.messagesIn = _ from hin) ▸ List.mem_cons_of_mem _ hp
    · exact (Server.accepted_step hserver hnum c).mpr (Or.inl hc)
  · rw [hdst]
    exact h.setLink .client hacc _
  · have hc := h.of_clientIn (c := c) (by simp [hqueue])
    rw [hdst]
    exact (h.received hc rest g).setLink .client hc _
  · rw [hdst]
    exact h.setLink side (h.of_links side (links_ne_of_moves hmoves)) l
  · rw [hdst]
    obtain ⟨hin, hlinks, hclient⟩ := h.setLink .server (accepted_of_isOpen hnum hopen) l
    exact ⟨hin, hlinks, hclient⟩
  · have hc : e.src.server.Accepted c := h.of_links side fun hlink =>
      hflight (by rw [hlink])
    rw [hdst]
    exact h.read hc

/-! ### The steps that are left -/

def clients (s : Server) : Finset ℕ := Finset.Icc 10001 s.nIDCounter

theorem mem_clients {s : Server} {c : ℕ} : c ∈ clients s ↔ s.Accepted c := Finset.mem_Icc

/-- What the links of a client ask for, and the messages that they hold. -/
def clientCost (W : Wired) (S : System) (n c : ℕ) : ℕ :=
  (W.links (.client, c)).cost + ((S.toServer c).map (serveCost n)).sum +
    ((W.links (.server, c)).cost + ((S.toClient c).map (receiveCost n)).sum)

def cost (W : Wired) (S : System) : ℕ :=
  (S.messagesIn.map fun p => serveCost (clients W.server).card p.2).sum +
    ∑ c ∈ clients W.server, clientCost W S (clients W.server).card c

/-- The messages of the channels say how many steps are left. -/
def Bounded (J : JsonText) (W : Wired) (n : ℕ) : Prop :=
  ∃ S, Simulates J W S ∧ W.OnlyAccepted ∧ W.cost S = n

/-- A step that has to do with one client, and queues some of its messages. -/
theorem cost_lt {c : ℕ} (hc : W.server.Accepted c)
    (hcounter : X.server.nIDCounter = W.server.nIDCounter) (more : List (ℕ × Message))
    (hin : T.messagesIn = S.messagesIn ++ more)
    (hother : ∀ n d, d ≠ c → clientCost X T n d = clientCost W S n d)
    (hless : ∀ n, clientCost X T n c + (more.map fun p => serveCost n p.2).sum <
      clientCost W S n c) : X.cost T < W.cost S := by
  have hclients : clients X.server = clients W.server := by rw [clients, clients, hcounter]
  have hmem : c ∈ clients W.server := mem_clients.mpr hc
  rw [cost, cost, hclients, hin, List.map_append, List.sum_append]
  generalize (clients W.server).card = n
  have hrest : ∑ d ∈ (clients W.server).erase c, clientCost X T n d =
      ∑ d ∈ (clients W.server).erase c, clientCost W S n d :=
    Finset.sum_congr rfl fun d hd => hother n d (Finset.ne_of_mem_erase hd)
  rw [← Finset.add_sum_erase _ _ hmem, ← Finset.add_sum_erase _ (clientCost W S n) hmem, hrest]
  have hstep := hless n
  omega

/-- The server handles a message. -/
theorem cost_served_lt {queue : List (ℕ × Message)} {c : ℕ} {msg : Message} {server : Server}
    {effects : List Effect} (hin : S.messagesIn = (c, msg) :: queue)
    (hcounter : server.nIDCounter = W.server.nIDCounter)
    (hless : ∀ n d, ((sentTo d effects).map fun reply =>
      reply.cost + 1 + receiveCost n reply).sum ≤ answerCost msg) (queue' : List (ℕ × Message)) :
    (W.served queue' server effects).cost (S.served queue server effects) < W.cost S := by
  have hclients : clients server = clients W.server := by rw [clients, clients, hcounter]
  rw [cost, cost, show (W.served queue' server effects).server = server from rfl, hclients, hin,
    List.map_cons, List.sum_cons]
  generalize hn : (clients W.server).card = n
  have hclient (d : ℕ) : clientCost (W.served queue' server effects)
      (S.served queue server effects) n d ≤ clientCost W S n d + answerCost msg := by
    have hposted := hless n d
    rw [List.sum_map_add] at hposted
    simp only [clientCost, Wired.served, System.served]
    split
    · rw [Link.cost_post, List.map_append, List.sum_append]
      omega
    · omega
  have hsum := Finset.sum_le_sum fun d (_ : d ∈ clients W.server) => hclient d
  rw [Finset.sum_add_distrib, Finset.sum_const_nat fun _ _ => rfl, hn] at hsum
  have hserve : serveCost n msg = 1 + n * answerCost msg := rfl
  dsimp only [System.served] at hsum ⊢
  omega

theorem clientCost_setLink_of_ne {c d : ℕ} (hd : d ≠ c) (side : Side) (l : Link) (n : ℕ) :
    clientCost (W.setLink (side, c) l) S n d = clientCost W S n d := by
  simp [clientCost, setLink_links, hd]

theorem clientCost_setLink_lt {side : Side} {c : ℕ} {l : Link}
    (hless : l.cost < (W.links (side, c)).cost) (n : ℕ) :
    clientCost (W.setLink (side, c) l) S n c < clientCost W S n c := by
  cases side <;> simpa [clientCost, setLink_links] using hless

/-- A handler of a link runs. -/
theorem cost_setLink_lt {side : Side} {c : ℕ} {l : Link} (hc : W.server.Accepted c)
    (hless : l.cost < (W.links (side, c)).cost) : (W.setLink (side, c) l).cost S < W.cost S :=
  cost_lt hc rfl [] (by simp) (fun n _ hd => clientCost_setLink_of_ne hd side l n)
    (clientCost_setLink_lt hless)

/-- A client handles a message, and posts its answer. -/
theorem cost_receive_lt {c : ℕ} {msg : Message} {rest rest' : List Message}
    (hc : W.server.Accepted c) (hto : S.toClient c = msg :: rest') (g : GameInstance) :
    ((W.received c rest g).post c (Client.replies msg)).cost
      ((S.received c rest' g).post c (Client.replies msg)) < W.cost S := by
  refine cost_lt hc rfl [] (by simp [System.post, System.received]) ?_ ?_
  · intro n d hd
    simp [clientCost, Wired.post, Wired.received, System.post, System.received, setLink_links, hd]
  · intro n
    have hreceive : receiveCost n msg = 1 + (((Client.replies msg).map fun reply =>
        reply.cost + 1).sum + ((Client.replies msg).map (serveCost n)).sum) := by
      rw [receiveCost, List.sum_map_add]
    simp only [clientCost, Wired.post, Wired.received, System.post, System.received,
      setLink_links, hto, hreceive, Link.cost_post, Function.update_self, List.map_append,
      List.sum_append, List.map_cons, List.sum_cons, List.map_nil, List.sum_nil, reduceCtorEq,
      Prod.mk.injEq, false_and, if_true, if_false]
    omega

/-- A byte is read. -/
theorem cost_read_lt (href : Refines W S) {side : Side} {c : ℕ} (hc : W.server.Accepted c)
    (hlistens : W.listens side c = true) (hflight : (W.links (side, c)).inFlight ≠ []) :
    ∃ tr T, (systemMachine K J).Run S tr T ∧ (∀ e ∈ tr, e.act.ReadsBack J) ∧
      Refines (W.read side c) T ∧ (W.read side c).cost T < W.cost S := by
  have hless : (W.links (side, c)).read.cost < (W.links (side, c)).cost := by
    have hread := Link.cost_read hflight
    omega
  -- The reads change what the programs have queued, and the cost leaves that out.
  have hsame : (W.read side c).cost S < W.cost S := by
    have hlink := cost_setLink_lt (S := S) hc hless
    cases side <;> exact hlink
  cases side with
  | server =>
      obtain ⟨queue, msgs, hto, harrived, hmsgs⟩ := href.toClient c
      rcases hmsgs.read with ⟨hnone, _⟩ | ⟨msg, m, rest, rfl, hmsg, hnew, hholds⟩
      · exact ⟨[], S, .nil, by simp, href.read_same hnone, hsame⟩
      · exact ⟨[], S, .nil, by simp, href.read_server hto harrived hmsg hnew hholds, hsame⟩
  | client =>
      rcases (href.toServer c).read with ⟨hnone, _⟩ | ⟨msg, m, rest, hqueue, hmsg, hnew, hholds⟩
      · exact ⟨[], S, .nil, by simp, href.read_same hnone, hsame⟩
      · have hopen : S.server.isOpen c = true := by
          rw [href.server]
          exact hlistens
        refine ⟨_, _, .snoc .nil (System.takes_arrive hopen hqueue),
          by simp [System.Action.ReadsBack], href.read_client hqueue hmsg hnew hholds, ?_⟩
        -- The message is counted in the queue of the server from now on.
        refine cost_lt hc rfl [(c, msg)] rfl (fun n d hd => ?_) fun n => ?_
        · simp [clientCost, Wired.read, System.arrived, setLink_links, hd]
        · have hlink := clientCost_setLink_lt (S := S) hless n
          simp only [clientCost, Wired.read, System.arrived, setLink_links, hqueue,
            Function.update_self, List.map_cons, List.sum_cons, List.map_nil, List.sum_nil,
            reduceCtorEq, Prod.mk.injEq, false_and, if_true, if_false] at hlink ⊢
          omega

/-- **One step less.** -/
theorem Simulates.cost_step (h : Simulates J e.src S) (honly : e.src.OnlyAccepted)
    (htakes : (wiredMachine K J).Takes e) (hown : e.act.IsOwn) :
    ∃ tr T, (systemMachine K J).Run S tr T ∧ (∀ e ∈ tr, e.act.ReadsBack J) ∧
      Refines e.dst T ∧ e.dst.cost T < e.src.cost S := by
  obtain ⟨href, hsound, hnum⟩ := h
  rcases takes_cases htakes with
    ⟨a, b, queue, hact, hb, hserver, hdst⟩ | ⟨c, r, hact, _, _, _⟩ |
      ⟨c, m, rest, g, replies, _, _, hqueue, hhandle, hdst⟩ | ⟨⟨side, c⟩, l, _, hmoves, hdst⟩ |
      ⟨c, l, _, hopen, hmoves, hdst⟩ | ⟨side, c, _, hlistens, hflight, hdst⟩
  · -- Of the steps of the server only the handling of a message goes on by itself.
    rw [hact] at hown
    obtain ⟨b', queue', hb', henabled, hstep, hqueue⟩ := href.serverAction (K := K) hsound hb
    have hserver' : (serverMachine K J).Takes ⟨S.server, b', e.out, e.dst.server⟩ :=
      ⟨henabled.trans hserver.1, hstep.trans hserver.2⟩
    have htakes' := System.takes_of_server hb' hserver'
    rcases System.serverAction_cases hb' with
      ⟨rfl, _, _⟩ | ⟨_, rfl, _, _⟩ | ⟨_, _, rfl, _, _⟩ | ⟨timeNow, c, msg, rfl, rfl, hin⟩
    · cases hown
    · cases hown
    · cases hown
    · have hcounter := Server.nIDCounter_step hserver'
      refine ⟨_, _, .snoc .nil htakes', by simp [System.Action.ReadsBack], ?_, ?_⟩
      · rw [hdst]
        exact href.served hqueue _ fun c m hm => (Server.sound_step hserver'
          (hsound.served hb').1 (mem_sentTo.mp hm)).sized
      · rw [hdst]
        exact cost_served_lt hin (hcounter.trans (by rw [href.server]))
          (Server.cost_onMessage_le hserver'.2) queue
  · rw [hact] at hown
    cases hown
  · obtain ⟨msg, rest', hto, hmsg, hrec⟩ := href.received hqueue
    have hm : msg.Sound J := hsound.toClient c msg (by simp [hto])
    rw [Client.handleMessage_arrivesAs hmsg hm, ← href.gameInstance] at hhandle
    obtain rfl := Client.replies_of_handleMessage hhandle
    refine ⟨_, _, .snoc .nil (System.takes_receive hto hhandle), by simp [System.Action.ReadsBack],
      ?_, ?_⟩
    · rw [hdst]
      exact (hrec g).post c fun reply hreply => (Client.sound_replies hm reply hreply).sized
    · rw [hdst]
      exact cost_receive_lt (honly.of_clientIn (by simp [hqueue])) hto g
  · obtain ⟨msgs, hcarries⟩ := carries_of_refines href side c
    refine ⟨[], S, .nil, by simp, ?_, ?_⟩
    · rw [hdst]
      exact href.setLink fun _ hmsgs => hmsgs.moves hmoves
    · rw [hdst]
      exact cost_setLink_lt (honly.of_links side (links_ne_of_moves hmoves))
        (hmoves.cost_lt hcarries)
  · -- Over the channels a failed write of the server is a closed socket.
    obtain ⟨msgs, hcarries⟩ := carries_of_refines href .server c
    have hclose : S.serverAction (.close c) = some (.close c, S.messagesIn) := rfl
    have hacc : S.server.Accepted c := accepted_of_isOpen hnum (by rw [href.server]; exact hopen)
    have hserver : (serverMachine K J).Takes
        ⟨S.server, .close c, [], S.server.closeSocket c⟩ := ⟨decide_eq_true hacc, rfl⟩
    refine ⟨_, _, .snoc .nil (System.takes_of_server hclose hserver),
      by simp [System.Action.ReadsBack], ?_, ?_⟩
    · rw [hdst]
      exact (href.setLink fun _ hmsgs => hmsgs.moves hmoves).close c
    · have hto : (S.served S.messagesIn (S.server.closeSocket c) []).toClient = S.toClient := by
        funext d
        simp [System.served, sentTo]
      have hclient (n d : ℕ) : clientCost e.dst
          (S.served S.messagesIn (S.server.closeSocket c) []) n d =
            clientCost (e.src.setLink (.server, c) l) S n d := by
        rw [hdst, clientCost, hto]
        rfl
      refine cost_lt (href.server ▸ hacc) (by rw [hdst]; rfl) []
        (List.append_nil _).symm (fun n d hd => ?_) fun n => ?_
      · exact (hclient n d).trans (clientCost_setLink_of_ne hd .server l n)
      · exact (hclient n c).trans_lt (clientCost_setLink_lt (hmoves.cost_lt hcarries) n)
  · rw [hdst]
    exact cost_read_lt href (honly.of_links side fun hlink => hflight (by rw [hlink]))
      hlistens hflight

theorem Bounded.step {n : ℕ} (h : Bounded J e.src n) (htakes : (wiredMachine K J).Takes e)
    (hown : e.act.IsOwn) : ∃ m, m < n ∧ Bounded J e.dst m := by
  obtain ⟨S, hsim, honly, rfl⟩ := h
  obtain ⟨tr, T, hrun, hdocs, hT, hless⟩ := hsim.cost_step honly htakes hown
  have hnum : e.src.server.Numbered := hsim.refines.server ▸ hsim.numbered
  exact ⟨_, hless, T, hsim.of_run hrun hdocs hT, honly.step hnum htakes, rfl⟩

theorem onlyAccepted_run (h : (wiredMachine K J).Run initial tr W)
    (hdocs : ∀ e ∈ tr, e.act.ReadsBack J) : W.OnlyAccepted := by
  induction h with
  | nil => exact onlyAccepted_initial
  | @snoc tr e hrun htakes ih =>
      have hpre : ∀ e ∈ tr, e.act.ReadsBack J := fun e' he' => hdocs e' (by simp [he'])
      obtain ⟨_, S, _, hsim, _⟩ := simulates_run hrun hpre
      exact (ih hpre).step (hsim.refines.server ▸ hsim.numbered) htakes

/-! ### Nothing left to do -/

/-- No step goes on by itself. -/
def AtRest (K : Constants) (J : JsonText) (W : Wired) : Prop :=
  ∀ a : Action, a.IsOwn → (wiredMachine K J).enabled W a = false

/-- The connection is open, and no write on it has failed. -/
def Whole (W : Wired) (c : ℕ) : Prop :=
  W.server.isOpen c = true ∧ ∀ side, (W.links (side, c)).writer.isOpen = true

theorem AtRest.messagesIn (h : AtRest K J W) (honly : W.OnlyAccepted) : W.messagesIn = [] := by
  cases hin : W.messagesIn with
  | nil => rfl
  | cons p queue =>
      have hc : W.server.Accepted p.1 := honly.messagesIn p (by simp [hin])
      have hserve := h (.program (.serve 0)) trivial
      simp [wiredMachine, view, System.serverAction, serverMachine, hin, hc] at hserve

theorem AtRest.clientIn (h : AtRest K J W) (c : ℕ) : W.clientIn c = [] := by
  simpa [wiredMachine] using h (.program (.receive c)) trivial

theorem Whole.connected {c : ℕ} (h : W.Whole c) (side : Side) :
    W.connected side c = true ∧ W.listens side c = true := by
  cases side with
  | client => exact ⟨rfl, h.1⟩
  | server => exact ⟨h.1, rfl⟩

/-- On a connection that is whole everything has come out. -/
theorem AtRest.idle (h : AtRest K J W) (href : Refines W S) {c : ℕ} (hwhole : W.Whole c)
    (side : Side) : (W.links (side, c)).Idle := by
  obtain ⟨hconnected, hlistens⟩ := hwhole.connected side
  obtain ⟨msgs, hcarries⟩ := carries_of_refines href side c
  apply hcarries.idle_of_still (hwhole.2 side)
  · simpa [wiredMachine] using h (.send side c) trivial
  · simpa [wiredMachine, hlistens] using h (.read side c) trivial
  · intro write pad
    simpa only [wiredMachine, hconnected, Bool.true_and] using h (.written side c write pad) trivial

/-- **The system comes to rest.** From every state that a run over the bytes
reaches there is a number such that, whatever the schedule, no more steps than
this follow before a client requests something, a new client connects, a timer
runs out or a socket is closed. When none is left, the server and all clients
have handled what they have received, and nothing is queued or on the wire of a
connection that is whole. -/
theorem comes_to_quiet {Φ : Json.FloatText}
    (h : (wiredMachine K (.nlohmann Φ)).Run initial tr W)
    (hdocs : ∀ e ∈ tr, e.act.Fits Φ) :
    ∃ n, ∀ tr' X, (wiredMachine K (.nlohmann Φ)).Run W tr' X → (∀ e ∈ tr', e.act.IsOwn) →
      tr'.length ≤ n ∧
      (AtRest K (.nlohmann Φ) X → X.messagesIn = [] ∧
        ∀ c, X.clientIn c = [] ∧ (X.Whole c → ∀ side, (X.links (side, c)).Idle)) := by
  have hback := fun e he => (hdocs e he).readsBack
  obtain ⟨_, S, _, hsim, _⟩ := simulates_run h hback
  refine ⟨W.cost S, fun tr' X hrun hown => ?_⟩
  obtain ⟨m, hlength, T, hsimX, honlyX, _⟩ := hrun.countdown (P := Bounded (.nlohmann Φ))
    (g := fun e => e.act.IsOwn) ⟨S, hsim, onlyAccepted_run h hback, rfl⟩ hown
    fun _ _ htakes hact hsrc => hsrc.step htakes hact
  exact ⟨Nat.le_of_add_right_le hlength, fun hrest => ⟨hrest.messagesIn honlyX, fun c =>
    ⟨hrest.clientIn c, fun hwhole => hrest.idle hsimX.refines hwhole⟩⟩⟩

theorem isOwn_carry (side : Side) (c : ℕ) (msg : Message) :
    ∀ a ∈ carry side c msg, a.IsOwn := by
  intro a ha
  cases a with
  | program a =>
      rw [carry] at ha
      split at ha <;> simp at ha
  | send side c | written side c write pad | failed side c write pad n | read side c => trivial

/-- A client has requested an update. -/
theorem comes_to_quiet_update :
    ∃ tr W tr' X n, (wiredMachine constants (.nlohmann .twoAndAHalf)).Run initial tr W ∧
      (wiredMachine constants (.nlohmann .twoAndAHalf)).Run W tr' X ∧
      (∀ e ∈ tr', e.act.IsOwn) ∧ X.Quiet ∧ tr'.length ≤ n ∧
      ∀ tr'' Y, (wiredMachine constants (.nlohmann .twoAndAHalf)).Run W tr'' Y →
        (∀ e ∈ tr'', e.act.IsOwn) → tr''.length ≤ n := by
  have hexec : ((wiredMachine constants .gameState1).exec initial
      [.program .connect, .program (.request 10001 (.updateGameState 7 .gameState1))]).bind
        (fun r => ((wiredMachine constants .gameState1).exec r.2
          (carry .server 10001 { header := { type := .serverAccept } } ++
            carry .client 10001 (Client.updateGameState 7 JsonText.gameState1.gameState1Text) ++
            [.program (.receive 10001), .program (.serve 0)] ++
            carry .client 10001 Client.acceptServerConnection ++ [.program (.serve 0)] ++
            carry .server 10001 (Server.ackMessage 7) ++ [.program (.receive 10001)])).map
              fun r => decide r.2.Quiet) = some true := by
    decide +kernel
  obtain ⟨⟨tr, W⟩, hfirst, hrest⟩ := Option.bind_eq_some_iff.mp hexec
  obtain ⟨⟨tr', X⟩, hsecond, hquiet⟩ := Option.map_eq_some_iff.mp hrest
  obtain ⟨hrun, hfits⟩ := run_gameState1 hfirst (by simp)
  obtain ⟨hrun', _⟩ := run_gameState1 hsecond (by simp [carry])
  have hown : ∀ e ∈ tr', e.act.IsOwn := by
    rw [← List.forall_mem_map (f := Event.act) (P := Action.IsOwn),
      Machine.map_act_of_exec hsecond]
    simp only [List.forall_mem_append, List.forall_mem_cons, List.not_mem_nil, false_imp_iff,
      implies_true, and_true]
    exact ⟨⟨⟨⟨⟨⟨isOwn_carry _ _ _, isOwn_carry _ _ _⟩, trivial, trivial⟩, isOwn_carry _ _ _⟩,
      trivial⟩, isOwn_carry _ _ _⟩, trivial⟩
  obtain ⟨n, hn⟩ := comes_to_quiet hrun hfits
  exact ⟨tr, W, tr', X, n, hrun, hrun', hown, of_decide_eq_true hquiet, (hn tr' X hrun' hown).1,
    fun tr'' Y hrun'' hown'' => (hn tr'' Y hrun'' hown'').1⟩

end Wired

end AmongUs
