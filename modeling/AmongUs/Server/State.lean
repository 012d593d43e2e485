import AmongUs.GameInstance
import AmongUs.Relay
import Mathlib.Data.Finset.Basic
import Mathlib.Data.Multiset.AddSub

/-!
The server: its registries, and the handlers that read and write them.

A client is known by the identifier that `nIDCounter` gave its connection,
and a connection is stored under its own identifier, so the identifier also
stands for the connection. Identifiers are natural numbers here. The counter
is a `uint32_t` that starts at 10000, so this is what the source does in runs
that accept fewer than `2 ^ 32 - 10000` connections (`nIDCounter_lt`). The
socket of a connection is open or closed (`isOpen`), and `waits` holds one
entry for each pending `async_wait` of `checkClientConnStatus`; when it
expires is left open, so the expiry times are not part of the state.

A handler returns the new state and its effects in order, or the fault it
ends with. What happens after a fault is not its business: the exception, or
the signal, leaves the thread that called it.
-/

namespace AmongUs

open Networking

inductive ConnectionStatus
  | waiting
  | live
  | dead
  | unstable
  deriving DecidableEq

/-- An entry of `clientStatus`. `dur` is the last ping duration, in
nanoseconds; it starts as minus one second. -/
structure ClientStatus where
  status : ConnectionStatus
  count : ℕ
  dur : Option Int64
  deriving DecidableEq

structure Constants where
  maxFailPings : ℕ
  maxTimeClientAccept : ℕ

/-- The values of `Constants.h`. -/
def constants : Constants where
  maxFailPings := 1
  maxTimeClientAccept := 1

/-- The container of connections, in the order of its iteration. -/
structure Connections where
  ids : List ℕ
  nodup : ids.Nodup

namespace Connections

instance : Membership ℕ Connections := ⟨fun cs c => c ∈ cs.ids⟩

instance (c : ℕ) (cs : Connections) : Decidable (c ∈ cs) :=
  inferInstanceAs (Decidable (c ∈ cs.ids))

def empty : Connections := ⟨[], List.nodup_nil⟩

/-- An entry that is there already stays. -/
def emplace (cs : Connections) (c : ℕ) : Connections :=
  if h : c ∈ cs.ids then cs else ⟨c :: cs.ids, List.nodup_cons.mpr ⟨h, cs.nodup⟩⟩

theorem mem_iff {cs : Connections} {c : ℕ} : c ∈ cs ↔ c ∈ cs.ids := Iff.rfl

@[simp] theorem not_mem_empty (c : ℕ) : ¬c ∈ empty := List.not_mem_nil

@[simp] theorem mem_emplace {cs : Connections} {c d : ℕ} :
    d ∈ cs.emplace c ↔ d = c ∨ d ∈ cs := by
  by_cases h : c ∈ cs.ids
  · simp only [emplace, h, dif_pos, mem_iff]
    constructor
    · exact Or.inr
    · rintro (rfl | hd)
      · exact h
      · exact hd
  · simp [emplace, h, mem_iff]

end Connections

/-- What a handler makes the rest of the program do. -/
inductive Effect
  /-- The message is posted on the connection. -/
  | send (client : ℕ) (msg : Message)
  | onClientDisconnect (client : ℕ)
  /-- The handler that closes the socket is posted. -/
  | close (client : ℕ)
  deriving DecidableEq

structure Server where
  gameInstance : GameInstance
  clientStatus : ℕ → Option ClientStatus
  timersContainer : Finset ℕ
  connectionsContainer : Connections
  /-- A `uint32_t`, which does not come round here. -/
  nIDCounter : ℕ
  isOpen : ℕ → Bool
  waits : Multiset ℕ

namespace Server

def initial : Server where
  gameInstance := .initial
  clientStatus _ := none
  timersContainer := ∅
  connectionsContainer := .empty
  nIDCounter := 10000
  isOpen _ := false
  waits := 0

/-! ### Connecting and disconnecting -/

/-- Sends `ServerAccept`, starts the status entry and the timer; never
denies the connection. -/
def onClientConnect (s : Server) (client : ℕ) : Bool × Server × List Effect :=
  let s := { s with
    clientStatus := Function.update s.clientStatus client
      (some { status := .waiting, count := 0, dur := some (-1000000000) })
    timersContainer := insert client s.timersContainer
    waits := client ::ₘ s.waits }
  (true, s, [.send client { header := { type := .serverAccept } }])

/-- The handler of `WaitForClientConnection`. -/
def accept (s : Server) : Server × List Effect :=
  let nIDCounter := s.nIDCounter + 1
  let s := { s with
    nIDCounter := nIDCounter
    isOpen := Function.update s.isOpen nIDCounter true }
  let (approved, s, effects) := s.onClientConnect nIDCounter
  if approved then
    ({ s with connectionsContainer := s.connectionsContainer.emplace nIDCounter }, effects)
  else (s, effects)

/-- `Disconnect` of a connection. -/
def disconnect (s : Server) (client : ℕ) : List Effect :=
  if s.isOpen client then [.close client] else []

/-- A read or a write failed, or a posted `Disconnect` ran. -/
def closeSocket (s : Server) (client : ℕ) : Server :=
  { s with isOpen := Function.update s.isOpen client false }

/-! ### Broadcasting -/

/-- The loop of `MessageAllClients`: what stays in the container, and what
is done on the way. -/
def messageAllLoop (isOpen : ℕ → Bool) (msg : Message) (ignoreClient : Option ℕ) :
    List ℕ → List ℕ × List Effect
  | [] => ([], [])
  | conn :: rest =>
      let (kept, effects) := messageAllLoop isOpen msg ignoreClient rest
      if isOpen conn then
        (conn :: kept,
          if some conn ≠ ignoreClient then .send conn msg :: effects else effects)
      -- The iterator moves on before the entry is erased.
      else (kept, .onClientDisconnect conn :: effects)

theorem messageAllLoop_fst (isOpen : ℕ → Bool) (msg : Message)
    (ignoreClient : Option ℕ) (ids : List ℕ) :
    (messageAllLoop isOpen msg ignoreClient ids).1 = ids.filter isOpen := by
  induction ids with
  | nil => rfl
  | cons conn rest ih =>
      by_cases hopen : isOpen conn
      · simp [messageAllLoop, hopen, ih]
      · simp [messageAllLoop, hopen, ih]

/-- `MessageAllClients`. -/
def messageAllClients (s : Server) (msg : Message) (ignoreClient : Option ℕ) :
    Server × List Effect :=
  let ids := s.connectionsContainer.ids
  ({ s with connectionsContainer :=
      { ids := (messageAllLoop s.isOpen msg ignoreClient ids).1
        nodup := by
          rw [messageAllLoop_fst]
          exact s.connectionsContainer.nodup.filter _ } },
    (messageAllLoop s.isOpen msg ignoreClient ids).2)

/-! ### The heartbeat -/

def clientPing (timeNow : Int64) : Message :=
  Message.push { header := { type := .clientPing } } (timePointBytes timeNow)

/-- `connectionsContainer[clientID]->Send(msg)`: without an entry it inserts
a null pointer and calls through it. -/
def pingClient (s : Server) (clientID : ℕ) (timeNow : Int64) :
    Except Fault (List Effect) :=
  if clientID ∈ s.connectionsContainer then
    .ok [.send clientID (clientPing timeNow)]
  else .error .nullPointer

/-- Writes to the fields of an entry that is there. -/
def setClientStatus (s : Server) (client : ℕ) (f : ClientStatus → ClientStatus) :
    Server :=
  { s with clientStatus :=
      Function.update s.clientStatus client ((s.clientStatus client).map f) }

/-- The reads at the start of `checkClientConnStatus`. An entry that is not
there is null, and null is no number. -/
def readStatus (s : Server) (client : ℕ) : Except Fault (ConnectionStatus × ℕ) :=
  match s.clientStatus client with
  | some entry => .ok (entry.status, entry.count)
  | none => .error .typeError

/-- Both ways to give up on a client. -/
def giveUp (s : Server) (client : ℕ) : Server × List Effect :=
  let s := s.setClientStatus client fun entry => { entry with status := .dead }
  ({ s with timersContainer := s.timersContainer.erase client },
    .onClientDisconnect client :: s.disconnect client)

/-- The new count is stored, and the timer waits again. -/
def rearm (s : Server) (client : ℕ) (count : ℕ) : Server :=
  let s := s.setClientStatus client fun entry => { entry with count := count }
  { s with waits := client ::ₘ s.waits }

/-- The part of `checkClientConnStatus` under the lock, on the status and
the count that were read before. -/
def lockedSwitch (K : Constants) (s : Server) (client : ℕ) (status : ConnectionStatus)
    (count : ℕ) (timeNow : Int64) : Except Fault (Server × List Effect) :=
  match status with
  | .waiting =>
      if count > K.maxTimeClientAccept then .ok (s.giveUp client)
      else .ok (s.rearm client (count + 1), [])
  | .live =>
      if count > K.maxFailPings then .ok (s.giveUp client)
      else do
        let s := s.rearm client (count + 1)
        let effects ← s.pingClient client timeNow
        return (s, effects)
  | .dead => .ok (s, [])
  | .unstable => .ok (s, [])

def checkClientConnStatus (K : Constants) (s : Server) (client : ℕ) (timeNow : Int64) :
    Except Fault (Server × List Effect) := do
  let (status, count) ← s.readStatus client
  s.lockedSwitch K client status count timeNow

/-! ### Messages -/

/-- The locked part of `ClientPing` and `ClientAccept`. Only a ping brings a
new duration. -/
def answered (s : Server) (client : ℕ) (dur : Option Int64) : Server :=
  let entry : ClientStatus :=
    { status := .live
      count := 0
      dur := dur.or ((s.clientStatus client).bind ClientStatus.dur) }
  { s with clientStatus := Function.update s.clientStatus client (some entry) }

def serverMessage (client : ℕ) : Message :=
  Message.push { header := { type := .serverMessage } } (uint32Bytes client)

/-- The rest of `ClientUpdateGS`, after the text was parsed. -/
def applyUpdates (s : Server) (client : ℕ) (id : UInt16) (newMsgAll : Message)
    (updates : Json) : Server × List Effect :=
  let (updated, gameInstance) := s.gameInstance.updateDatabase updates
  let s := { s with gameInstance := gameInstance }
  if updated then
    -- The acknowledgement is posted first.
    let (s, effects) := s.messageAllClients newMsgAll (some client)
    (s, .send client { header := { type := .serverACK, id := id } } :: effects)
  else (s, [])

def onMessage (J : JsonText) (s : Server) (client : ℕ) (msg : Message)
    (timeNow : Int64) : Except Fault (Server × List Effect) :=
  match msg.header.type with
  | .serverPing => .ok (s, [.send client msg])
  | .clientPing => do
      let (timeThen, _) ← msg.pop 8
      return (s.answered client (some (timeNow - timePointOfBytes timeThen)), [])
  | .messageAll => .ok (s.messageAllClients (serverMessage client) (some client))
  | .clientUpdateGS => do
      let (msg, newMsgAll, rcvBuf) ← Relay.serverText msg
      match J.parse rcvBuf with
      | some updates => return s.applyUpdates client msg.header.id newMsgAll updates
      | none => .error .parseError
  | .clientAccept => .ok (s.answered client none, [])
  | _ => .ok (s, [])

end Server

end AmongUs
