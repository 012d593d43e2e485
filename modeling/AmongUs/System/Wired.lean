import AmongUs.Networking.Link
import AmongUs.System.Sound

/-!
The server and its clients over the bytes of their connections.

Here every client has two links to the server, one in each direction, and a
message is bytes while it is on its way: the handlers of the writers and the
readers run between the steps of the programs, in any order, and a write may
fail in the middle of a message. A message that is posted on a closed socket
is lost.

A message without a body comes out with the body of an earlier one. No handler
looks at it (`onMessage_arrivesAs`, `handleMessage_arrivesAs`), so the bytes
can be forgotten: whatever this system does, the system of `Machine` does
with its channels (`wired_refines`).
-/

namespace AmongUs

open Networking Transition

/-- The end of a connection that sends. -/
inductive Side
  | client
  | server
  deriving DecidableEq

/-- `messagesIn` is the incoming queue of the server, `clientIn` that of each
client. -/
structure Wired where
  server : Server
  messagesIn : List (ℕ × Message)
  gameInstance : ℕ → GameInstance
  clientIn : ℕ → List Message
  links : Side × ℕ → Link

inductive Wired.Action
  /-- A step of the server or of a client. -/
  | program (a : System.Action)
  /-- A handler that `Send` posted runs. -/
  | send (side : Side) (client : ℕ)
  | written (side : Side) (client : ℕ) (write : Write) (pad : UInt16)
  /-- The write fails after its first `n` bytes, and the socket is closed. -/
  | failed (side : Side) (client : ℕ) (write : Write) (pad : UInt16) (n : ℕ)
  /-- A byte is read at the other end. -/
  | read (side : Side) (client : ℕ)

namespace Wired

def initial : Wired where
  server := .initial
  messagesIn := []
  gameInstance _ := .initial
  clientIn _ := []
  links _ := {}

/-- What the programs see: the queues that they take from. -/
def view (W : Wired) : System where
  server := W.server
  messagesIn := W.messagesIn
  gameInstance := W.gameInstance
  toServer _ := []
  toClient := W.clientIn

def setLink (W : Wired) (p : Side × ℕ) (l : Link) : Wired :=
  { W with links := Function.update W.links p l }

/-- After a step of the server. -/
def served (W : Wired) (queue : List (ℕ × Message)) (server : Server)
    (effects : List Effect) : Wired :=
  { W with
    server := server
    messagesIn := queue
    links := fun p =>
      match p with
      | (.server, c) =>
          if server.isOpen c then (W.links (.server, c)).post (sentTo c effects)
          else W.links (.server, c)
      | (.client, c) => W.links (.client, c) }

def post (W : Wired) (c : ℕ) (msgs : List Message) : Wired :=
  W.setLink (.client, c) ((W.links (.client, c)).post msgs)

def received (W : Wired) (c : ℕ) (rest : List Message) (g : GameInstance) : Wired :=
  { W with
    clientIn := Function.update W.clientIn c rest
    gameInstance := Function.update W.gameInstance c g }

/-- A byte of the link is read; a message that it completes is queued. -/
def read (W : Wired) (side : Side) (c : ℕ) : Wired :=
  let l := W.links (side, c)
  let more := l.read.delivered.drop l.delivered.length
  match side with
  | .client =>
      { W.setLink (side, c) l.read with
        messagesIn := W.messagesIn ++ more.map fun m => (c, m) }
  | .server =>
      { W.setLink (side, c) l.read with
        clientIn := Function.update W.clientIn c (W.clientIn c ++ more) }

/-- The socket at the end that writes is open, as far as the server knows. -/
def connected (W : Wired) : Side → ℕ → Bool
  | .client, _ => true
  | .server, c => W.server.isOpen c

/-- The end that reads still reads. -/
def listens (W : Wired) : Side → ℕ → Bool
  | .client, c => W.server.isOpen c
  | .server, _ => true

end Wired

/-- A tick and a handler are one step each. So no handler finds
`clientStatusLock` held by another thread, and a posted `Disconnect` is seen
only where it closes the socket: what fails in between is left out. -/
def wiredMachine (K : Constants) (J : JsonText) :
    Machine Wired Wired.Action (List Effect) Fault where
  enabled W a :=
    match a with
    | .program (.request c _) => decide (W.server.Accepted c)
    -- Messages arrive with their bytes.
    | .program (.arrive _) => false
    | .program (.receive c) => !(W.clientIn c).isEmpty
    | .program a =>
        (W.view.serverAction a).any fun b => (serverMachine K J).enabled W.server b.1
    | .send side c => !(W.links (side, c)).posted.isEmpty
    | .written side c write pad =>
        W.connected side c &&
          writerMachine.enabled (W.links (side, c)).writer (.written write pad)
    | .failed side c write pad n =>
        W.connected side c &&
          writerMachine.enabled (W.links (side, c)).writer (.failed write pad n)
    | .read side c => W.listens side c && !(W.links (side, c)).inFlight.isEmpty
  step W a :=
    match a with
    | .program (.request c r) => .ok (W.post c [r.message J], [])
    | .program (.arrive _) => .ok (W, [])
    | .program (.receive c) =>
        match W.clientIn c with
        | msg :: rest => do
            let (g, replies) ← Client.handleMessage J (W.gameInstance c) msg
            return ((W.received c rest g).post c replies, [])
        | [] => .ok (W, [])
    | .program a =>
        match W.view.serverAction a with
        | some (b, queue) => do
            let (server, effects) ← (serverMachine K J).step W.server b
            return (W.served queue server effects, effects)
        | none => .ok (W, [])
    | .send side c => do
        let l ← (W.links (side, c)).runSend
        return (W.setLink (side, c) l, [])
    | .written side c write pad => do
        let l ← (W.links (side, c)).write (.written write pad)
        return (W.setLink (side, c) l, [])
    | .failed side c write pad n => do
        let l ← (W.links (side, c)).write (.failed write pad n)
        match side with
        | .client => return (W.setLink (side, c) l, [])
        | .server =>
            return ({ W.setLink (side, c) l with server := W.server.closeSocket c }, [])
    | .read side c => .ok (W.read side c, [])

/-! ### A message without a body -/

section

variable {K : Constants} {J : JsonText} {msg m : Message}

theorem Networking.Message.Sized.size_eq_zero (h : msg.Sized) (hbody : msg.body = []) :
    msg.header.size.toNat = 0 := by
  rw [show msg.header.size.toNat = msg.body.length from h, hbody]
  rfl

theorem Server.onMessage_arrivesAs (h : msg.ArrivesAs m) (hsound : msg.Sound J) (s : Server)
    (client : ℕ) (timeNow : Int64) :
    s.onMessage J client m timeNow = s.onMessage J client msg timeNow := by
  by_cases hbody : msg.body = []
  · obtain ⟨hsized, hlegible⟩ := hsound
    have hsize := hsized.size_eq_zero hbody
    obtain ⟨header, body⟩ := m
    obtain rfl : header = msg.header := h.1
    rw [Message.Legible] at hlegible
    rw [onMessage, onMessage]
    dsimp only
    split
    case h_1 htype | h_2 htype => simp [htype, hbody] at hlegible
    case h_4 htype =>
      simp only [Relay.serverText, hsize, Relay.serverUnpack, bind, Except.bind]
    all_goals rfl
  · rw [h.eq hsound.sized hbody]

theorem Client.handleMessage_arrivesAs (h : msg.ArrivesAs m) (hsound : msg.Sound J)
    (g : GameInstance) : handleMessage J g m = handleMessage J g msg := by
  by_cases hbody : msg.body = []
  · obtain ⟨hsized, hlegible⟩ := hsound
    have hsize := hsized.size_eq_zero hbody
    obtain ⟨header, body⟩ := m
    obtain rfl : header = msg.header := h.1
    rw [Message.Legible] at hlegible
    rw [handleMessage, handleMessage]
    dsimp only
    split
    case h_2 htype | h_3 htype | h_4 htype => simp [htype, hbody] at hlegible
    case h_6 htype =>
      simp only [Relay.clientText, hsize, Relay.clientUnpack, bind, Except.bind]
      rfl
    all_goals rfl
  · rw [h.eq hsound.sized hbody]

end

/-! ### The steps of the channels -/

namespace System

variable {K : Constants} {J : JsonText} {S : System}

theorem takes_of_server {a : Action} {b : Server.Action} {queue : List (ℕ × Message)}
    {server : Server} {effects : List Effect} (hb : S.serverAction a = some (b, queue))
    (h : (serverMachine K J).Takes ⟨S.server, b, effects, server⟩) :
    (systemMachine K J).Takes ⟨S, a, effects, S.served queue server effects⟩ := by
  obtain ⟨henabled, hstep⟩ := h
  cases a with
  | request c r | arrive c | receive c => cases hb
  | connect | close c | tick c timeNow | serve timeNow =>
      constructor
      · simpa only [systemMachine, hb, Option.any_some] using henabled
      · simp only [systemMachine, hb]
        exact bind_eq_ok.mpr ⟨(server, effects), hstep, rfl⟩

theorem takes_request {c : ℕ} (hc : S.server.Accepted c) (r : Request) :
    (systemMachine K J).Takes ⟨S, .request c r, [], S.post c [r.message J]⟩ :=
  ⟨decide_eq_true hc, rfl⟩

theorem takes_arrive {c : ℕ} {msg : Message} {rest : List Message}
    (hopen : S.server.isOpen c = true) (hqueue : S.toServer c = msg :: rest) :
    (systemMachine K J).Takes ⟨S, .arrive c, [], S.arrived c msg rest⟩ := by
  constructor
  · simp [systemMachine, hopen, hqueue]
  · simp [systemMachine, hqueue]

theorem takes_receive {c : ℕ} {msg : Message} {rest : List Message} {g : GameInstance}
    {replies : List Message} (hqueue : S.toClient c = msg :: rest)
    (hhandle : Client.handleMessage J (S.gameInstance c) msg = .ok (g, replies)) :
    (systemMachine K J).Takes ⟨S, .receive c, [], (S.received c rest g).post c replies⟩ := by
  constructor
  · simp [systemMachine, hqueue]
  · simp only [systemMachine, hqueue]
    exact bind_eq_ok.mpr ⟨(g, replies), hhandle, rfl⟩

/-- What is seen of a step: the step itself, unless it is an arrival. -/
def shown (e : Event System Action (List Effect)) : List (Action × List Effect) :=
  match e.act with
  | .arrive _ => []
  | a => [(a, e.out)]

end System

namespace Wired

variable {K : Constants} {J : JsonText} {e : Event Wired Action (List Effect)}

/-- A failed write of the server is seen as a closed socket. -/
def shown (e : Event Wired Action (List Effect)) : List (System.Action × List Effect) :=
  match e.act with
  | .program a => [(a, e.out)]
  | .failed .server c _ _ _ => [(.close c, [])]
  | _ => []

/-- The link still holds what is to come out of it. -/
def Keeps (l l' : Link) : Prop := ∀ msgs, l.Holds msgs → l'.Holds msgs

/-- The ways a step is taken: by the server, by a client of its own accord,
by a client that handles a message, by a writer, by a writer of the server
that fails, or by a reader. -/
theorem takes_cases (h : (wiredMachine K J).Takes e) :
    (∃ a b queue, e.act = .program a ∧ e.src.view.serverAction a = some (b, queue) ∧
      (serverMachine K J).Takes ⟨e.src.server, b, e.out, e.dst.server⟩ ∧
      e.dst = e.src.served queue e.dst.server e.out) ∨
    (∃ c r, e.act = .program (.request c r) ∧ e.out = [] ∧ e.src.server.Accepted c ∧
      e.dst = e.src.post c [r.message J]) ∨
    (∃ c m rest g replies, e.act = .program (.receive c) ∧ e.out = [] ∧
      e.src.clientIn c = m :: rest ∧
      Client.handleMessage J (e.src.gameInstance c) m = .ok (g, replies) ∧
      e.dst = (e.src.received c rest g).post c replies) ∨
    (∃ p l, shown e = [] ∧ (e.src.links p).Moves l ∧ e.dst = e.src.setLink p l) ∨
    (∃ c l, shown e = [(.close c, [])] ∧ e.src.server.isOpen c = true ∧
      (e.src.links (.server, c)).Moves l ∧
      e.dst = { e.src.setLink (.server, c) l with server := e.src.server.closeSocket c }) ∨
    (∃ side c, shown e = [] ∧ e.src.listens side c = true ∧
      (e.src.links (side, c)).inFlight ≠ [] ∧ e.dst = e.src.read side c) := by
  obtain ⟨W, a, effects, X⟩ := e
  obtain ⟨henabled, hstep⟩ := h
  cases a with
  | program a =>
      cases a with
      | request c r =>
          obtain ⟨rfl, rfl⟩ : W.post c [r.message J] = X ∧ [] = effects := by
            simpa [wiredMachine] using hstep
          exact Or.inr (Or.inl ⟨c, r, rfl, rfl, of_decide_eq_true henabled, rfl⟩)
      | arrive c => cases henabled
      | receive c =>
          refine Or.inr (Or.inr (Or.inl ?_))
          cases hqueue : W.clientIn c with
          | nil => simp [wiredMachine, hqueue] at henabled
          | cons m rest =>
              simp only [wiredMachine, hqueue] at hstep
              obtain ⟨⟨g, replies⟩, hhandle, hret⟩ := bind_eq_ok.mp hstep
              obtain ⟨rfl, rfl⟩ := Prod.mk.inj (Except.ok.inj hret)
              exact ⟨c, m, rest, g, replies, rfl, rfl, hqueue, hhandle, rfl⟩
      | connect | close c | tick c timeNow | serve timeNow =>
          apply Or.inl
          simp only [wiredMachine] at henabled hstep
          split at hstep
          · rename_i b queue hb
            obtain ⟨⟨server, effects'⟩, hserver, hret⟩ := bind_eq_ok.mp hstep
            obtain ⟨rfl, rfl⟩ := Prod.mk.inj (Except.ok.inj hret)
            rw [hb, Option.any_some] at henabled
            exact ⟨_, b, queue, rfl, hb, ⟨henabled, hserver⟩, rfl⟩
          · rename_i hb
            rw [hb, Option.any_none] at henabled
            cases henabled
  | send side c =>
      obtain ⟨l, hl, hret⟩ := bind_eq_ok.mp hstep
      obtain ⟨rfl, rfl⟩ : W.setLink (side, c) l = X ∧ [] = effects :=
        Prod.mk.inj (Except.ok.inj hret)
      have hposted : (W.links (side, c)).posted ≠ [] := by simpa [wiredMachine] using henabled
      exact Or.inr (Or.inr (Or.inr (Or.inl ⟨(side, c), l, rfl, .runSend hposted hl, rfl⟩)))
  | written side c write pad =>
      obtain ⟨l, hl, hret⟩ := bind_eq_ok.mp hstep
      obtain ⟨rfl, rfl⟩ : W.setLink (side, c) l = X ∧ [] = effects :=
        Prod.mk.inj (Except.ok.inj hret)
      simp only [wiredMachine, Bool.and_eq_true] at henabled
      exact Or.inr (Or.inr (Or.inr (Or.inl
        ⟨(side, c), l, rfl, .write henabled.2 (fun msg => by simp) hl, rfl⟩)))
  | failed side c write pad n =>
      obtain ⟨l, hl, hret⟩ := bind_eq_ok.mp hstep
      simp only [wiredMachine, Bool.and_eq_true] at henabled
      have hmoves : (W.links (side, c)).Moves l :=
        .write henabled.2 (fun msg => by simp) hl
      cases side with
      | client =>
          obtain ⟨rfl, rfl⟩ : W.setLink (.client, c) l = X ∧ [] = effects :=
            Prod.mk.inj (Except.ok.inj hret)
          exact Or.inr (Or.inr (Or.inr (Or.inl ⟨(.client, c), l, rfl, hmoves, rfl⟩)))
      | server =>
          obtain ⟨rfl, rfl⟩ : { W.setLink (.server, c) l with
              server := W.server.closeSocket c } = X ∧ [] = effects :=
            Prod.mk.inj (Except.ok.inj hret)
          exact Or.inr (Or.inr (Or.inr (Or.inr (Or.inl ⟨c, l, rfl, henabled.1, hmoves, rfl⟩))))
  | read side c =>
      obtain ⟨rfl, rfl⟩ : W.read side c = X ∧ [] = effects :=
        Prod.mk.inj (Except.ok.inj hstep)
      simp only [wiredMachine, Bool.and_eq_true] at henabled
      exact Or.inr (Or.inr (Or.inr (Or.inr (Or.inr
        ⟨side, c, rfl, henabled.1, by simpa using henabled.2, rfl⟩))))

/-! ### The bytes forgotten -/

/-- The queued message stands for the one of the channel. -/
def Queued (p q : ℕ × Message) : Prop := q.1 = p.1 ∧ p.2.ArrivesAs q.2

/-- The channels hold what is queued and what is to come out of the links. -/
structure Refines (W : Wired) (S : System) : Prop where
  server : S.server = W.server
  gameInstance : S.gameInstance = W.gameInstance
  messagesIn : List.Forall₂ Queued S.messagesIn W.messagesIn
  toServer : ∀ c, (W.links (.client, c)).Holds (S.toServer c)
  toClient : ∀ c, ∃ queue msgs, S.toClient c = queue ++ msgs ∧
    List.Forall₂ Message.ArrivesAs queue (W.clientIn c) ∧ (W.links (.server, c)).Holds msgs

variable {W : Wired} {S : System}

theorem refines_initial : Refines initial .initial where
  server := rfl
  gameInstance := rfl
  messagesIn := .nil
  toServer _ := Link.holds_empty
  toClient _ := ⟨[], [], rfl, .nil, Link.holds_empty⟩

theorem setLink_links (W : Wired) (p q : Side × ℕ) (l : Link) :
    (W.setLink p l).links q = if q = p then l else W.links q := by
  simp [setLink, Function.update_apply]

theorem Keeps.setLink {p : Side × ℕ} {l : Link} (h : Keeps (W.links p) l) (q : Side × ℕ) :
    Keeps (W.links q) ((W.setLink p l).links q) := by
  rw [setLink_links]
  split
  · rename_i hq
    rwa [hq]
  · exact fun _ hmsgs => hmsgs

theorem Refines.setLink (h : Refines W S) {p : Side × ℕ} {l : Link}
    (hkeeps : Keeps (W.links p) l) : Refines (W.setLink p l) S where
  server := h.server
  gameInstance := h.gameInstance
  messagesIn := h.messagesIn
  toServer c := hkeeps.setLink _ _ (h.toServer c)
  toClient c := by
    obtain ⟨queue, msgs, hqueue, harrived, hholds⟩ := h.toClient c
    exact ⟨queue, msgs, hqueue, harrived, hkeeps.setLink _ _ hholds⟩

/-- The server and the queue are replaced. -/
theorem Refines.served (h : Refines W S) {queue queue' : List (ℕ × Message)}
    (hqueue : List.Forall₂ Queued queue queue') (server : Server) {effects : List Effect}
    (hsized : ∀ c, ∀ m ∈ sentTo c effects, m.Sized) :
    Refines (W.served queue' server effects) (S.served queue server effects) where
  server := rfl
  gameInstance := h.gameInstance
  messagesIn := hqueue
  toServer := h.toServer
  toClient c := by
    obtain ⟨queue, msgs, hqueue, harrived, hholds⟩ := h.toClient c
    simp only [Wired.served, System.served]
    split
    · refine ⟨queue, msgs ++ sentTo c effects, ?_, harrived, hholds.post (hsized c)⟩
      rw [hqueue, List.append_assoc]
    · exact ⟨queue, msgs, hqueue, harrived, hholds⟩

theorem Refines.close (h : Refines W S) (c : ℕ) :
    Refines { W with server := W.server.closeSocket c }
      (S.served S.messagesIn (S.server.closeSocket c) []) where
  server := by rw [← h.server]; rfl
  gameInstance := h.gameInstance
  messagesIn := h.messagesIn
  toServer := h.toServer
  toClient d := by
    have hsame : (S.served S.messagesIn (S.server.closeSocket c) []).toClient d = S.toClient d := by
      simp [System.served, sentTo]
    rw [hsame]
    exact h.toClient d

theorem Refines.post (h : Refines W S) (c : ℕ) {msgs : List Message}
    (hsized : ∀ m ∈ msgs, m.Sized) : Refines (W.post c msgs) (S.post c msgs) where
  server := h.server
  gameInstance := h.gameInstance
  messagesIn := h.messagesIn
  toServer d := by
    rw [Wired.post, setLink_links]
    by_cases hd : d = c
    · subst hd
      simpa [System.post] using (h.toServer d).post hsized
    · simpa [System.post, hd] using h.toServer d
  toClient d := by
    have hlink : (W.post c msgs).links (.server, d) = W.links (.server, d) := by
      simp [Wired.post, setLink_links]
    rw [hlink]
    exact h.toClient d

/-- A client takes the head of its queue. -/
theorem Refines.received (h : Refines W S) {c : ℕ} {m : Message} {rest : List Message}
    (hqueue : W.clientIn c = m :: rest) :
    ∃ msg rest', S.toClient c = msg :: rest' ∧ msg.ArrivesAs m ∧
      ∀ g, Refines (W.received c rest g) (S.received c rest' g) := by
  obtain ⟨queue, msgs, hto, harrived, hholds⟩ := h.toClient c
  rw [hqueue] at harrived
  cases harrived with
  | @cons msg _ queue _ hmsg harrived =>
      refine ⟨msg, queue ++ msgs, hto, hmsg, fun g => ?_⟩
      refine ⟨h.server, ?_, h.messagesIn, h.toServer, fun d => ?_⟩
      · simp only [System.received, Wired.received, h.gameInstance]
      · by_cases hd : d = c
        · subst hd
          exact ⟨queue, msgs, by simp [System.received], by simpa [Wired.received], hholds⟩
        · obtain ⟨queue', msgs', hto', harrived', hholds'⟩ := h.toClient d
          exact ⟨queue', msgs', by simpa [System.received, hd],
            by simpa [Wired.received, hd], hholds'⟩

theorem keeps_read {l : Link} (h : l.read.delivered = l.delivered) : Keeps l l.read := by
  intro msgs hmsgs
  rcases hmsgs.read with ⟨_, hsame⟩ | ⟨_, m, _, _, _, hnew, _⟩
  · exact hsame
  · rw [h] at hnew
    simp at hnew

/-- A byte that completes no message is not seen. -/
theorem Refines.read_same (h : Refines W S) {side : Side} {c : ℕ}
    (hsame : (W.links (side, c)).read.delivered = (W.links (side, c)).delivered) :
    Refines (W.read side c) S := by
  have hnone : (W.links (side, c)).read.delivered.drop (W.links (side, c)).delivered.length =
      [] := by
    rw [hsame, List.drop_length]
  have heq : W.read side c = W.setLink (side, c) (W.links (side, c)).read := by
    cases side with
    | client =>
        simp only [Wired.read, hnone, List.map_nil, List.append_nil]
        rfl
    | server =>
        simp only [Wired.read, hnone, List.append_nil, Function.update_eq_self]
        rfl
  rw [heq]
  exact h.setLink (keeps_read hsame)

/-- A byte that completes a message to the server is an arrival. -/
theorem Refines.read_client (h : Refines W S) {c : ℕ} {msg m : Message} {rest : List Message}
    (hqueue : S.toServer c = msg :: rest) (hmsg : msg.ArrivesAs m)
    (hnew : (W.links (.client, c)).read.delivered = (W.links (.client, c)).delivered ++ [m])
    (hholds : (W.links (.client, c)).read.Holds rest) :
    Refines (W.read .client c) (S.arrived c msg rest) where
  server := h.server
  gameInstance := h.gameInstance
  messagesIn := by
    simp only [Wired.read, System.arrived, hnew, List.drop_left, List.map_cons, List.map_nil]
    exact List.rel_append h.messagesIn (.cons ⟨rfl, hmsg⟩ .nil)
  toServer d := by
    simp only [Wired.read, setLink_links, System.arrived]
    by_cases hd : d = c
    · subst hd
      simpa using hholds
    · simpa [hd] using h.toServer d
  toClient d := by
    have hlink : (W.read .client c).links (.server, d) = W.links (.server, d) := by
      simp [Wired.read, setLink_links]
    rw [hlink]
    exact h.toClient d

/-- A byte that completes a message to a client moves it into the queue. -/
theorem Refines.read_server (h : Refines W S) {c : ℕ} {queue rest : List Message}
    {msg m : Message} (hto : S.toClient c = queue ++ msg :: rest)
    (harrived : List.Forall₂ Message.ArrivesAs queue (W.clientIn c)) (hmsg : msg.ArrivesAs m)
    (hnew : (W.links (.server, c)).read.delivered = (W.links (.server, c)).delivered ++ [m])
    (hholds : (W.links (.server, c)).read.Holds rest) : Refines (W.read .server c) S where
  server := h.server
  gameInstance := h.gameInstance
  messagesIn := h.messagesIn
  toServer d := by
    simp only [Wired.read, setLink_links]
    simpa using h.toServer d
  toClient d := by
    by_cases hd : d = c
    · subst hd
      refine ⟨queue ++ [msg], rest, by simp [hto], ?_, ?_⟩
      · simp only [Wired.read, hnew, List.drop_left, Function.update_self]
        exact List.rel_append harrived (.cons hmsg .nil)
      · simpa [Wired.read, setLink_links] using hholds
    · simp only [Wired.read, setLink_links]
      simpa [hd] using h.toClient d

theorem Refines.read (h : Refines W S) {side : Side} {c : ℕ}
    (hlistens : W.listens side c = true) :
    ∃ tr T, (systemMachine K J).Run S tr T ∧ Refines (W.read side c) T ∧
      ∀ e ∈ tr, ∃ d, e.act = .arrive d := by
  cases side with
  | client =>
      rcases (h.toServer c).read with ⟨hsame, _⟩ | ⟨msg, m, rest, hqueue, hmsg, hnew, hholds⟩
      · exact ⟨[], S, .nil, h.read_same hsame, by simp⟩
      · have hopen : S.server.isOpen c = true := by
          rw [h.server]
          exact hlistens
        exact ⟨_, _, .snoc .nil (System.takes_arrive hopen hqueue),
          h.read_client hqueue hmsg hnew hholds, by simp⟩
  | server =>
      obtain ⟨queue, msgs, hto, harrived, hmsgs⟩ := h.toClient c
      rcases hmsgs.read with ⟨hsame, _⟩ | ⟨msg, m, rest, rfl, hmsg, hnew, hholds⟩
      · exact ⟨[], S, .nil, h.read_same hsame, by simp⟩
      · exact ⟨[], S, .nil, h.read_server hto harrived hmsg hnew hholds, by simp⟩

/-- The server can take the same step over the channels. -/
theorem Refines.serverAction (h : Refines W S) (hsound : S.Sound J) {a : System.Action}
    {b : Server.Action} {queue' : List (ℕ × Message)}
    (hb : W.view.serverAction a = some (b, queue')) :
    ∃ b' queue, S.serverAction a = some (b', queue) ∧
      (serverMachine K J).enabled S.server b' = (serverMachine K J).enabled W.server b ∧
      (serverMachine K J).step S.server b' = (serverMachine K J).step W.server b ∧
      List.Forall₂ Queued queue queue' := by
  rw [h.server]
  rcases System.serverAction_cases hb with
    ⟨rfl, rfl, rfl⟩ | ⟨c, rfl, rfl, rfl⟩ | ⟨c, timeNow, rfl, rfl, rfl⟩ |
      ⟨timeNow, c, m, rfl, rfl, hqueue⟩
  · exact ⟨_, _, rfl, rfl, rfl, h.messagesIn⟩
  · exact ⟨_, _, rfl, rfl, rfl, h.messagesIn⟩
  · exact ⟨_, _, rfl, rfl, rfl, h.messagesIn⟩
  · replace hqueue : W.messagesIn = (c, m) :: queue' := hqueue
    have hin := h.messagesIn
    rw [hqueue] at hin
    cases hS : S.messagesIn with
    | nil =>
        rw [hS] at hin
        cases hin
    | cons p queue =>
        rw [hS] at hin
        obtain ⟨⟨hc, hmsg⟩, hrest⟩ := List.forall₂_cons.mp hin
        obtain ⟨d, msg⟩ := p
        obtain rfl : c = d := hc
        have hm : msg.Sound J := hsound.messagesIn (c, msg) (by simp [hS])
        exact ⟨.onMessage c msg timeNow, queue, by simp [System.serverAction, hS], rfl,
          (Server.onMessage_arrivesAs hmsg hm W.server c timeNow).symm, hrest⟩

theorem shown_of_server {a : System.Action} {b : Server.Action × List (ℕ × Message)}
    (h : S.serverAction a = some b) (effects : List Effect) (T : System) :
    System.shown ⟨S, a, effects, T⟩ = [(a, effects)] := by
  cases a with
  | connect | close c | tick c timeNow | serve timeNow => rfl
  | request c r | arrive c | receive c => cases h

theorem accepted_of_isOpen {s : Server} (h : s.Numbered) {c : ℕ} (hopen : s.isOpen c = true) :
    s.Accepted c := by
  refine h.accepted fun hblank => ?_
  have hclosed : s.isOpen c = false := congrArg Standing.isOpen hblank
  rw [hopen] at hclosed
  cases hclosed

/-- Related states, with the invariants of the channels. -/
structure Simulates (J : JsonText) (W : Wired) (S : System) : Prop where
  refines : Refines W S
  sound : S.Sound J
  numbered : S.server.Numbered

/-- The documents of a step are read back. -/
def Action.ReadsBack (J : JsonText) : Action → Prop
  | .program a => a.ReadsBack J
  | _ => True

/-- **One step.** It is matched over the channels by a step that shows the
same, by an arrival, or by nothing. -/
theorem Simulates.refines_step (h : Simulates J e.src S) (htakes : (wiredMachine K J).Takes e)
    (hdocs : e.act.ReadsBack J) :
    ∃ tr T, (systemMachine K J).Run S tr T ∧ Refines e.dst T ∧
      tr.flatMap System.shown = shown e := by
  obtain ⟨href, hsound, hnum⟩ := h
  rcases takes_cases htakes with
    ⟨a, b, queue, hact, hb, hserver, hdst⟩ | ⟨c, r, hact, hout, hacc, hdst⟩ |
      ⟨c, m, rest, g, replies, hact, hout, hqueue, hhandle, hdst⟩ | ⟨p, l, hshown, hmoves, hdst⟩ |
      ⟨c, l, hshown, hopen, hmoves, hdst⟩ | ⟨side, c, hshown, hlistens, _, hdst⟩
  · obtain ⟨b', queue', hb', henabled, hstep, hqueue⟩ :=
      href.serverAction (K := K) hsound hb
    have hserver' : (serverMachine K J).Takes ⟨S.server, b', e.out, e.dst.server⟩ :=
      ⟨henabled.trans hserver.1, hstep.trans hserver.2⟩
    refine ⟨_, _, .snoc .nil (System.takes_of_server hb' hserver'), ?_, ?_⟩
    · rw [hdst]
      exact href.served hqueue _ fun c m hm => (Server.sound_step hserver'
        (hsound.served hb').1 (mem_sentTo.mp hm)).sized
    · simpa [shown, hact] using shown_of_server hb' _ _
  · rw [hact] at hdocs
    refine ⟨_, _, .snoc .nil (System.takes_request (by rwa [href.server]) r), ?_, ?_⟩
    · rw [hdst]
      exact href.post c (List.forall_mem_singleton.mpr (Request.sound_message hdocs).sized)
    · simp [shown, System.shown, hact, hout]
  · obtain ⟨msg, rest', hto, hmsg, hrec⟩ := href.received hqueue
    have hm : msg.Sound J := hsound.toClient c msg (by simp [hto])
    rw [Client.handleMessage_arrivesAs hmsg hm, ← href.gameInstance] at hhandle
    refine ⟨_, _, .snoc .nil (System.takes_receive hto hhandle), ?_, ?_⟩
    · rw [hdst]
      refine (hrec g).post c fun reply hreply => ?_
      rw [Client.replies_of_handleMessage hhandle] at hreply
      exact (Client.sound_replies hm reply hreply).sized
    · simp [shown, System.shown, hact, hout]
  · refine ⟨[], S, .nil, ?_, hshown.symm⟩
    rw [hdst]
    exact href.setLink fun _ hmsgs => hmsgs.moves hmoves
  · have hclose : S.serverAction (.close c) = some (.close c, S.messagesIn) := rfl
    have hacc : S.server.Accepted c := accepted_of_isOpen hnum (by rw [href.server]; exact hopen)
    have hserver : (serverMachine K J).Takes
        ⟨S.server, .close c, [], S.server.closeSocket c⟩ := ⟨decide_eq_true hacc, rfl⟩
    refine ⟨_, _, .snoc .nil (System.takes_of_server hclose hserver), ?_, ?_⟩
    · rw [hdst]
      exact (href.setLink fun _ hmsgs => hmsgs.moves hmoves).close c
    · simp [hshown, System.shown]
  · obtain ⟨tr, T, hrun, hT, harrive⟩ := href.read hlistens
    refine ⟨tr, T, hrun, hdst ▸ hT, ?_⟩
    rw [hshown, List.flatMap_eq_nil_iff]
    intro e' he'
    obtain ⟨d, hd⟩ := harrive e' he'
    rw [System.shown, hd]

/-- What the matching steps request was requested. -/
theorem readsBack_of_shown {tr : List (Event System System.Action (List Effect))}
    {tr' : List (Event Wired Action (List Effect))}
    (h : tr.flatMap System.shown = tr'.flatMap shown)
    (hdocs : ∀ e ∈ tr', e.act.ReadsBack J) : ∀ e ∈ tr, e.act.ReadsBack J := by
  intro e he
  cases hact : e.act with
  | connect | close c | tick c timeNow | arrive c | serve timeNow | receive c => trivial
  | request c r =>
      have hmem : (System.Action.request c r, e.out) ∈ tr'.flatMap shown := by
        rw [← h]
        exact List.mem_flatMap.mpr ⟨e, he, by simp [System.shown, hact]⟩
      obtain ⟨e', he', hshown⟩ := List.mem_flatMap.mp hmem
      have hdoc := hdocs e' he'
      rw [shown] at hshown
      split at hshown
      · rename_i a ha
        rw [ha] at hdoc
        obtain ⟨rfl, _⟩ := Prod.mk.inj (List.mem_singleton.mp hshown)
        exact hdoc
      · simp at hshown
      · cases hshown

theorem simulates_initial : Simulates J initial .initial where
  refines := refines_initial
  sound := System.sound_initial
  numbered := Server.numbered_initial

theorem Simulates.of_run (h : Simulates J W S) {T : System} {X : Wired}
    {tr : List (Event System System.Action (List Effect))}
    (hrun : (systemMachine K J).Run S tr T) (hdocs : ∀ e ∈ tr, e.act.ReadsBack J)
    (hT : Refines X T) : Simulates J X T :=
  ⟨hT, h.sound.run hrun hdocs, h.numbered.run (System.server_run hrun)⟩

theorem Simulates.step (h : Simulates J e.src S) (htakes : (wiredMachine K J).Takes e)
    (hdocs : e.act.ReadsBack J) :
    ∃ tr T, (systemMachine K J).Run S tr T ∧ Simulates J e.dst T ∧
      tr.flatMap System.shown = shown e := by
  obtain ⟨tr, T, hrun, hT, hshown⟩ := h.refines_step htakes hdocs
  refine ⟨tr, T, hrun, h.of_run hrun ?_ hT, hshown⟩
  exact readsBack_of_shown (by rw [hshown, List.flatMap_singleton])
    (List.forall_mem_singleton.mpr hdocs)

/-- No message is queued or on its way. -/
def Quiet (W : Wired) : Prop :=
  W.messagesIn = [] ∧ ∀ c, W.server.Accepted c →
    W.clientIn c = [] ∧ (W.links (.client, c)).Idle ∧ (W.links (.server, c)).Idle

theorem quiet_iff {W : Wired} : W.Quiet ↔ W.messagesIn = [] ∧
    ∀ c ∈ List.range' 10001 (W.server.nIDCounter - 10000),
      W.clientIn c = [] ∧ (W.links (.client, c)).Idle ∧ (W.links (.server, c)).Idle := by
  refine and_congr_right fun _ => forall_congr' fun c => imp_congr_left ?_
  rw [List.mem_range'_1, Server.Accepted]
  omega

instance (W : Wired) : Decidable W.Quiet := decidable_of_iff' _ quiet_iff

theorem Refines.quiet (h : Refines W S) (hquiet : W.Quiet) : S.Quiet := by
  obtain ⟨hin, hclients⟩ := hquiet
  have hmessages := h.messagesIn
  rw [hin, List.forall₂_nil_right_iff] at hmessages
  refine ⟨hmessages, fun c hc => ?_⟩
  rw [h.server] at hc
  obtain ⟨hclient, hup, hdown⟩ := hclients c hc
  obtain ⟨queue, msgs, hto, harrived, hholds⟩ := h.toClient c
  rw [hclient, List.forall₂_nil_right_iff] at harrived
  refine ⟨(h.toServer c).eq_nil hup, ?_⟩
  rw [hto, harrived, hholds.eq_nil hdown]
  rfl

/-- The library can hold the document of a step, and its text fits in a
message. -/
def Action.Fits (Φ : Json.FloatText) : Action → Prop
  | .program a => a.Fits Φ
  | _ => True

theorem Action.Fits.readsBack {Φ : Json.FloatText} {a : Action} (h : a.Fits Φ) :
    a.ReadsBack (.nlohmann Φ) := by
  cases a with
  | program a => exact System.Action.Fits.readsBack h
  | send side c | written side c write pad | failed side c write pad n | read side c => trivial

/-- Every run over the bytes is a run over channels. -/
theorem simulates_run {tr : List (Event Wired Action (List Effect))}
    (h : (wiredMachine K J).Run initial tr W) (hdocs : ∀ e ∈ tr, e.act.ReadsBack J) :
    ∃ tr' S, (systemMachine K J).Run .initial tr' S ∧ Simulates J W S ∧
      tr'.flatMap System.shown = tr.flatMap shown :=
  h.simulate_rel (g := fun e => e.act.ReadsBack J) simulates_initial hdocs
    fun _ _ htakes hact hsim => hsim.step htakes hact

end Wired

end AmongUs
