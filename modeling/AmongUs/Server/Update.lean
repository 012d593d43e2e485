import AmongUs.Server.Handlers

/-!
The loop of the main thread, and updates that are no JSON.

`Update` hands the queued messages to `OnMessage` one after the other. An
exception in a handler leaves the loop, and `main` does not catch it either,
so a handler that fails takes the rest of the queue with it. `json::parse`
throws on a text that is not JSON, and the text comes from the peer. The
case `ClientUpdateGS` is sound up to there: it has changed and sent nothing
when the parser is called.
-/

namespace AmongUs.Server

open Networking Transition

/-- The loop of `Update`, with `nMessageCount` messages handled so far. The
result is the state, what is left in the queue, and the effects. -/
def updateLoop (J : JsonText) (now : ℕ → Int64) (nMaxMessages : ℕ) :
    Server → ℕ → List (ℕ × Message) →
      Except Fault (Server × List (ℕ × Message) × List Effect)
  | s, _, [] => .ok (s, [], [])
  | s, nMessageCount, (client, msg) :: queue =>
      if nMessageCount < nMaxMessages then do
        let (s, effects) ← s.onMessage J client msg (now nMessageCount)
        let (s, queue, more) ← updateLoop J now nMaxMessages s (nMessageCount + 1) queue
        return (s, queue, effects ++ more)
      else .ok (s, (client, msg) :: queue, [])

/-- What is asked of the handling of an update: it returns, and an update
that is no JSON changes and sends nothing, and `Update` goes on with the
messages behind it. -/
def RejectsMalformed (J : JsonText) (s : Server) (client : ℕ) (msg : Message) : Prop :=
  ∀ timeNow, (∃ s' effects, s.onMessage J client msg timeNow = .ok (s', effects)) ∧
    (J.parse (Relay.text msg) = none →
      s.onMessage J client msg timeNow = .ok (s, []) ∧
        ∀ now nMaxMessages n queue, n < nMaxMessages →
          updateLoop J now nMaxMessages s n ((client, msg) :: queue) =
            updateLoop J now nMaxMessages s (n + 1) queue)

variable {J : JsonText} {s : Server} {client : ℕ} {msg : Message} {timeNow : Int64}

/-- An update whose text is JSON is applied, acknowledged and passed on. -/
theorem onMessage_update (htype : msg.header.type = .clientUpdateGS)
    (hsize : msg.header.size.toNat ≤ msg.body.length) {updates : Json}
    (hparse : J.parse (Relay.text msg) = some updates) :
    s.onMessage J client msg timeNow =
      .ok (s.applyUpdates client msg.header.id (Relay.forward msg) updates) := by
  obtain ⟨left, htext, _, hid, _⟩ := Relay.serverText_eq hsize
  rw [onMessage, htype]
  simp only [htext, bind, Except.bind, hparse, hid]
  rfl

/-- The exception of the parser leaves `OnMessage`. -/
theorem onMessage_malformed (htype : msg.header.type = .clientUpdateGS)
    (hsize : msg.header.size.toNat ≤ msg.body.length)
    (hparse : J.parse (Relay.text msg) = none) :
    s.onMessage J client msg timeNow = .error .parseError := by
  obtain ⟨left, htext, _, _, _⟩ := Relay.serverText_eq hsize
  rw [onMessage, htype]
  simp only [htext, bind, Except.bind, hparse]

/-- A fault of a handler is the end of the loop. -/
theorem updateLoop_fault {now : ℕ → Int64} {nMaxMessages n : ℕ} {fault : Fault}
    (hn : n < nMaxMessages) (h : s.onMessage J client msg (now n) = .error fault)
    (queue : List (ℕ × Message)) :
    updateLoop J now nMaxMessages s n ((client, msg) :: queue) = .error fault := by
  rw [updateLoop, if_pos hn, h]
  rfl

/-- **Malformed updates.** For every state of the server and every update
that a connection can deliver, the server does what is asked exactly when
the text of the update is JSON. Where it is not, the exception ends
`Update`, whatever is queued behind. -/
theorem rejectsMalformed_iff {bs : List UInt8} (s : Server) (client : ℕ)
    (hmsg : msg ∈ (({} : Reader).feedAll bs).messagesIn)
    (htype : msg.header.type = .clientUpdateGS) :
    (s.RejectsMalformed J client msg ↔ (J.parse (Relay.text msg)).isSome) ∧
      (J.parse (Relay.text msg) = none → ∀ now nMaxMessages queue, 0 < nMaxMessages →
        updateLoop J now nMaxMessages s 0 ((client, msg) :: queue) = .error .parseError) := by
  rw [Reader.messagesIn_stream] at hmsg
  have hsize := received_size_le msg hmsg
  refine ⟨?_, fun hparse now nMaxMessages queue hpos =>
    updateLoop_fault hpos (onMessage_malformed htype hsize hparse) queue⟩
  constructor
  · intro h
    by_contra hnot
    obtain ⟨s', effects, hok⟩ := (h 0).1
    rw [onMessage_malformed htype hsize (by simpa using hnot)] at hok
    cases hok
  · intro hsome timeNow
    obtain ⟨updates, hparse⟩ := Option.isSome_iff_exists.mp hsome
    refine ⟨⟨_, _, onMessage_update htype hsize hparse⟩, fun hnone => ?_⟩
    rw [hnone] at hparse
    cases hparse

/-- The update `{"game_state1":7}` of a first client. -/
theorem rejectsMalformed_iff_gameState1 :
    initial.accept.1.RejectsMalformed .gameState1 10001
      (Client.updateGameState 7 (JsonText.gameState1.dump .gameState1)) :=
  let msg := Client.updateGameState 7 (JsonText.gameState1.dump .gameState1)
  have hmsg : msg ∈ (({} : Reader).feedAll (headerBytes msg.header 0 ++ msg.body)).messagesIn := by
    decide +kernel
  (rejectsMalformed_iff initial.accept.1 10001 hmsg (by decide +kernel)).1.mpr (by decide +kernel)

/-- An update with an empty body, the first message of its connection. -/
theorem emptyUpdate_not_rejected :
    ¬∀ (bs : List UInt8) (s : Server) (client : ℕ) (msg : Message),
      msg ∈ (({} : Reader).feedAll bs).messagesIn → msg.header.type = .clientUpdateGS →
        s.RejectsMalformed .gameState1 client msg := by
  intro hall
  let msg : Message := { header := { type := .clientUpdateGS } }
  obtain ⟨s', effects, hok⟩ := (hall (headerBytes msg.header 0) initial.accept.1 10001 msg
    (by decide +kernel) rfl 0).1
  rw [onMessage_malformed rfl (by decide) (by decide)] at hok
  cases hok

end AmongUs.Server
