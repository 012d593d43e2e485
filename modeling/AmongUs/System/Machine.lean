import AmongUs.Server.Propagation

/-!
The server and its clients.

Two FIFO channels join a client to the server: what is posted on the one end
and not yet taken at the other, whether it waits in an outgoing queue, in the
network or in the incoming queue of a client. The server takes what arrives
into one queue for all clients and handles it from there. Messages arrive as
they were posted; what a connection does to them is not looked at here.

The server part of a step is a step of the server machine (`serverAction`,
`server_run`). A message that is posted on a closed socket is lost, and
nothing arrives from a closed socket. A tick and a handler are one step each.
So no handler finds `clientStatusLock` held by another thread, and a posted
`Disconnect` is seen only where it closes the socket.
-/

namespace AmongUs

open Networking Transition

/-- What a client does of its own accord. -/
inductive Request
  | pingServer (timeNow : Int64)
  | messageAll
  | updateGameState (id : UInt16) (updates : Json)

def Request.message (J : JsonText) : Request → Message
  | .pingServer timeNow => Client.pingServer timeNow
  | .messageAll => Client.messageAll
  | .updateGameState id updates => Client.updateGameState id (J.dump updates)

/-- `messagesIn` is the queue of the server, `gameInstance` the game state
that each client holds. -/
structure System where
  server : Server
  messagesIn : List (ℕ × Message)
  gameInstance : ℕ → GameInstance
  toServer : ℕ → List Message
  toClient : ℕ → List Message

inductive System.Action
  | connect
  | close (client : ℕ)
  | tick (client : ℕ) (timeNow : Int64)
  | request (client : ℕ) (r : Request)
  /-- The server reads a message from a connection. -/
  | arrive (client : ℕ)
  /-- `OnMessage` is called with the head of the queue. -/
  | serve (timeNow : Int64)
  /-- A client handles a message. -/
  | receive (client : ℕ)

namespace System

def initial : System where
  server := .initial
  messagesIn := []
  gameInstance _ := .initial
  toServer _ := []
  toClient _ := []

/-- What an action makes the server do, and the queue it leaves. -/
def serverAction (S : System) : Action → Option (Server.Action × List (ℕ × Message))
  | .connect => some (.accept, S.messagesIn)
  | .close c => some (.close c, S.messagesIn)
  | .tick c timeNow => some (.tick c timeNow, S.messagesIn)
  | .serve timeNow =>
      match S.messagesIn with
      | (c, msg) :: queue => some (.onMessage c msg timeNow, queue)
      | [] => none
  | .request _ _ => none
  | .arrive _ => none
  | .receive _ => none

/-- After a step of the server. -/
def served (S : System) (queue : List (ℕ × Message)) (server : Server)
    (effects : List Effect) : System :=
  { S with
    server := server
    messagesIn := queue
    toClient := fun c =>
      if server.isOpen c then S.toClient c ++ sentTo c effects else S.toClient c }

def post (S : System) (c : ℕ) (msgs : List Message) : System :=
  { S with toServer := Function.update S.toServer c (S.toServer c ++ msgs) }

def arrived (S : System) (c : ℕ) (msg : Message) (rest : List Message) : System :=
  { S with
    toServer := Function.update S.toServer c rest
    messagesIn := S.messagesIn ++ [(c, msg)] }

def received (S : System) (c : ℕ) (rest : List Message) (g : GameInstance) : System :=
  { S with
    toClient := Function.update S.toClient c rest
    gameInstance := Function.update S.gameInstance c g }

@[simp] theorem post_server (S : System) (c : ℕ) (msgs : List Message) :
    (S.post c msgs).server = S.server := rfl

@[simp] theorem arrived_server (S : System) (c : ℕ) (msg : Message) (rest : List Message) :
    (S.arrived c msg rest).server = S.server := rfl

@[simp] theorem received_server (S : System) (c : ℕ) (rest : List Message) (g : GameInstance) :
    (S.received c rest g).server = S.server := rfl

end System

def systemMachine (K : Constants) (J : JsonText) :
    Machine System System.Action (List Effect) Fault where
  enabled S a :=
    match a with
    | .request c _ => decide (S.server.Accepted c)
    | .arrive c => S.server.isOpen c && !(S.toServer c).isEmpty
    | .receive c => !(S.toClient c).isEmpty
    | a => (S.serverAction a).any fun b => (serverMachine K J).enabled S.server b.1
  step S a :=
    match a with
    | .request c r => .ok (S.post c [r.message J], [])
    | .arrive c =>
        match S.toServer c with
        | msg :: rest => .ok (S.arrived c msg rest, [])
        | [] => .ok (S, [])
    | .receive c =>
        match S.toClient c with
        | msg :: rest => do
            let (g, replies) ← Client.handleMessage J (S.gameInstance c) msg
            return ((S.received c rest g).post c replies, [])
        | [] => .ok (S, [])
    | a =>
        match S.serverAction a with
        | some (b, queue) => do
            let (server, effects) ← (serverMachine K J).step S.server b
            return (S.served queue server effects, effects)
        | none => .ok (S, [])

namespace System

/-- No message is queued or on its way. -/
def Quiet (S : System) : Prop :=
  S.messagesIn = [] ∧ ∀ c, S.server.Accepted c → S.toServer c = [] ∧ S.toClient c = []

theorem quiet_iff {S : System} : S.Quiet ↔ S.messagesIn = [] ∧
    ∀ c ∈ List.range' 10001 (S.server.nIDCounter - 10000),
      S.toServer c = [] ∧ S.toClient c = [] := by
  refine and_congr_right fun _ => forall_congr' fun c => imp_congr_left ?_
  rw [List.mem_range'_1, Server.Accepted]
  omega

instance (S : System) : Decidable S.Quiet := decidable_of_iff' _ quiet_iff

/-- The client calls `UpdateGameState`. -/
def Action.IsUpdate : Action → Prop
  | .request _ (.updateGameState _ _) => True
  | _ => False

variable {K : Constants} {J : JsonText} {e : Event System Action (List Effect)}
  {S T : System} {tr : List (Event System Action (List Effect))}

/-- A step that the server takes is a step of its machine. -/
theorem takes_server (h : (systemMachine K J).Takes e)
    {b : Server.Action × List (ℕ × Message)} (hb : e.src.serverAction e.act = some b) :
    (serverMachine K J).Takes ⟨e.src.server, b.1, e.out, e.dst.server⟩ ∧
      e.dst = e.src.served b.2 e.dst.server e.out := by
  obtain ⟨S, a, effects, T⟩ := e
  obtain ⟨henabled, hstep⟩ := h
  replace hb : S.serverAction a = some b := hb
  have hserver : (serverMachine K J).enabled S.server b.1 = true ∧
      ((serverMachine K J).step S.server b.1 >>= fun r =>
        pure (S.served b.2 r.1 r.2, r.2)) = .ok (T, effects) := by
    cases a with
    | request c r | arrive c | receive c => simp [serverAction] at hb
    | connect | close c | tick c timeNow | serve timeNow =>
        simp only [systemMachine, hb, Option.any_some] at henabled hstep
        exact ⟨henabled, hstep⟩
  obtain ⟨⟨server, effects'⟩, hok, hret⟩ := bind_eq_ok.mp hserver.2
  obtain ⟨rfl, rfl⟩ : S.served b.2 server effects' = T ∧ effects' = effects := by
    simpa [pure, Except.pure] using hret
  exact ⟨⟨hserver.1, hok⟩, rfl⟩

/-- A step that the server has no part in, and that has no effects. -/
theorem takes_elsewhere (h : (systemMachine K J).Takes e)
    (hb : e.src.serverAction e.act = none) :
    e.out = [] ∧
    ((∃ c r, e.act = .request c r ∧ e.dst = e.src.post c [r.message J]) ∨
    (∃ c msg rest, e.act = .arrive c ∧ e.src.toServer c = msg :: rest ∧
      e.dst = e.src.arrived c msg rest) ∨
    (∃ c msg rest g replies, e.act = .receive c ∧ e.src.toClient c = msg :: rest ∧
      Client.handleMessage J (e.src.gameInstance c) msg = .ok (g, replies) ∧
      e.dst = (e.src.received c rest g).post c replies)) := by
  obtain ⟨S, a, effects, T⟩ := e
  obtain ⟨henabled, hstep⟩ := h
  replace hb : S.serverAction a = none := hb
  cases a with
  | connect | close c | tick c timeNow => simp [serverAction] at hb
  | serve timeNow => simp [systemMachine, hb] at henabled
  | request c r =>
      obtain ⟨rfl, rfl⟩ : S.post c [r.message J] = T ∧ [] = effects := by
        simpa [systemMachine] using hstep
      exact ⟨rfl, Or.inl ⟨c, r, rfl, rfl⟩⟩
  | arrive c =>
      cases hqueue : S.toServer c with
      | nil => simp [systemMachine, hqueue] at henabled
      | cons msg rest =>
          obtain ⟨rfl, rfl⟩ : S.arrived c msg rest = T ∧ [] = effects := by
            simpa [systemMachine, hqueue] using hstep
          exact ⟨rfl, Or.inr (Or.inl ⟨c, msg, rest, rfl, hqueue, rfl⟩)⟩
  | receive c =>
      cases hqueue : S.toClient c with
      | nil => simp [systemMachine, hqueue] at henabled
      | cons msg rest =>
          simp only [systemMachine, hqueue] at hstep
          obtain ⟨⟨g, replies⟩, hhandle, hret⟩ := bind_eq_ok.mp hstep
          obtain ⟨rfl, rfl⟩ : (S.received c rest g).post c replies = T ∧ [] = effects := by
            simpa [pure, Except.pure] using hret
          exact ⟨rfl, Or.inr (Or.inr ⟨c, msg, rest, g, replies, rfl, hqueue, hhandle, rfl⟩)⟩

/-- The ways a step is taken: by the server, by a client of its own accord,
by the network, or by a client that handles a message. -/
theorem takes_cases (h : (systemMachine K J).Takes e) :
    (∃ b queue, e.src.serverAction e.act = some (b, queue) ∧
      (serverMachine K J).Takes ⟨e.src.server, b, e.out, e.dst.server⟩ ∧
      e.dst = e.src.served queue e.dst.server e.out) ∨
    (∃ c r, e.act = .request c r ∧ e.dst = e.src.post c [r.message J]) ∨
    (∃ c msg rest, e.act = .arrive c ∧ e.src.toServer c = msg :: rest ∧
      e.dst = e.src.arrived c msg rest) ∨
    (∃ c msg rest g replies, e.act = .receive c ∧ e.src.toClient c = msg :: rest ∧
      Client.handleMessage J (e.src.gameInstance c) msg = .ok (g, replies) ∧
      e.dst = (e.src.received c rest g).post c replies) := by
  cases hb : e.src.serverAction e.act with
  | some b => exact Or.inl ⟨b.1, b.2, rfl, takes_server h hb⟩
  | none => exact Or.inr (takes_elsewhere h hb).2

/-! ### The server inside -/

/-- The part of an event that the server plays. -/
def serverEvent (e : Event System Action (List Effect)) :
    Option (Event Server Server.Action (List Effect)) :=
  (e.src.serverAction e.act).map fun b => ⟨e.src.server, b.1, e.out, e.dst.server⟩

/-- The server of a system runs like the server alone. -/
theorem server_run (h : (systemMachine K J).Run S tr T) :
    (serverMachine K J).Run S.server (tr.filterMap serverEvent) T.server := by
  induction h with
  | nil => exact .nil
  | @snoc tr e _ htakes ih =>
      rw [List.filterMap_append]
      rcases takes_cases htakes with
        ⟨b, queue, hb, hserver, _⟩ | ⟨c, r, hact, hdst⟩ | ⟨c, msg, rest, hact, _, hdst⟩ |
          ⟨c, msg, rest, g, replies, hact, _, _, hdst⟩
      · rw [List.filterMap_cons_some (b := ⟨e.src.server, b, e.out, e.dst.server⟩)
          (by simp [serverEvent, hb])]
        exact .snoc ih hserver
      all_goals
        rw [List.filterMap_cons_none (by simp [serverEvent, hact, serverAction]), hdst]
        simpa using ih

/-- Where an action of the server comes from. -/
theorem serverAction_cases {a : Action} {b : Server.Action} {queue : List (ℕ × Message)}
    (h : S.serverAction a = some (b, queue)) :
    (a = .connect ∧ b = .accept ∧ queue = S.messagesIn) ∨
    (∃ c, a = .close c ∧ b = .close c ∧ queue = S.messagesIn) ∨
    (∃ c timeNow, a = .tick c timeNow ∧ b = .tick c timeNow ∧ queue = S.messagesIn) ∨
    (∃ timeNow c msg, a = .serve timeNow ∧ b = .onMessage c msg timeNow ∧
      S.messagesIn = (c, msg) :: queue) := by
  cases a with
  | connect =>
      obtain ⟨rfl, rfl⟩ := Prod.mk.inj (Option.some.inj h)
      exact Or.inl ⟨rfl, rfl, rfl⟩
  | close c =>
      obtain ⟨rfl, rfl⟩ := Prod.mk.inj (Option.some.inj h)
      exact Or.inr (Or.inl ⟨c, rfl, rfl, rfl⟩)
  | tick c timeNow =>
      obtain ⟨rfl, rfl⟩ := Prod.mk.inj (Option.some.inj h)
      exact Or.inr (Or.inr (Or.inl ⟨c, timeNow, rfl, rfl, rfl⟩))
  | serve timeNow =>
      cases hqueue : S.messagesIn with
      | nil => simp [serverAction, hqueue] at h
      | cons p rest =>
          obtain ⟨rfl, rfl⟩ : Server.Action.onMessage p.1 p.2 timeNow = b ∧ rest = queue := by
            simpa [serverAction, hqueue] using h
          exact Or.inr (Or.inr (Or.inr ⟨timeNow, p.1, p.2, rfl, rfl, rfl⟩))
  | request c r | arrive c | receive c => simp [serverAction] at h

theorem close_mem_of_serverEvent {c : ℕ}
    (h : .close c ∈ (tr.filterMap serverEvent).map Event.act) : .close c ∈ tr.map Event.act := by
  obtain ⟨e', he', hact⟩ := List.mem_map.mp h
  obtain ⟨e, he, hserver⟩ := List.mem_filterMap.mp he'
  obtain ⟨⟨b, queue⟩, hb, rfl⟩ := Option.map_eq_some_iff.mp hserver
  obtain rfl : b = .close c := hact
  refine List.mem_map.mpr ⟨e, he, ?_⟩
  rcases serverAction_cases hb with
    ⟨_, hclose, _⟩ | ⟨d, ha, hclose, _⟩ | ⟨_, _, _, hclose, _⟩ | ⟨_, _, _, _, hclose, _⟩
  · cases hclose
  · cases hclose
    exact ha
  · cases hclose
  · cases hclose

/-- Identifiers are given out by `connect` only. -/
theorem nIDCounter_run (h : (systemMachine K J).Run S tr T)
    (hconnect : .connect ∉ tr.map Event.act) : T.server.nIDCounter = S.server.nIDCounter := by
  induction h with
  | nil => rfl
  | @snoc tr e _ htakes ih =>
      rw [List.map_append, List.mem_append, not_or] at hconnect
      rw [← ih hconnect.1]
      rcases takes_cases htakes with
        ⟨b, queue, hb, hserver, _⟩ | ⟨_, _, _, hdst⟩ | ⟨_, _, _, _, _, hdst⟩ |
          ⟨_, _, _, _, _, _, _, _, hdst⟩
      · have hcounter := Server.nIDCounter_step hserver
        rcases serverAction_cases hb with
          ⟨hact, _, _⟩ | ⟨_, _, rfl, _⟩ | ⟨_, _, _, rfl, _⟩ | ⟨_, _, _, _, rfl, _⟩
        · exact absurd (by simp [hact]) hconnect.2
        all_goals exact hcounter
      all_goals
        rw [hdst]
        rfl

end System

end AmongUs
