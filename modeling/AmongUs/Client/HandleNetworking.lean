import AmongUs.GameInstance
import AmongUs.Relay

/-!
The messages a client receives.

`handleNetworking` takes them from the queue one after the other; each sets
the game state of the client and may be answered. The results are the new
game state and the messages that are sent to the server.
-/

namespace AmongUs.Client

open Networking Transition

/-- One round of the loop of `handleNetworking`. -/
def handleMessage (J : JsonText) (gameInstance : GameInstance) (msg : Message) :
    Except Fault (GameInstance × List Message) :=
  match msg.header.type with
  | .serverAccept => .ok (gameInstance, [acceptServerConnection])
  | .serverPing => do
      let (_timeThen, _) ← msg.pop 8
      return (gameInstance, [])
  | .clientPing => .ok (gameInstance, [msg])
  | .serverMessage => do
      let (_clientID, _) ← msg.pop 4
      return (gameInstance, [])
  | .serverACK => .ok (gameInstance, [])
  | .serverUpdateGS => do
      let (_, rcvBuf) ← Relay.clientText msg
      match J.parse rcvBuf with
      | some updates => return ((gameInstance.updateDatabase updates).2, [])
      | none => .error .parseError
  | _ => .ok (gameInstance, [])

/-- What a message writes to the database of the client that handles it. -/
def updateWrites (J : JsonText) (msg : Message) : List (String × Json) :=
  if msg.header.type = .serverUpdateGS then
    match Relay.clientText msg with
    | .ok (_, rcvBuf) => ((J.parse rcvBuf).map Json.items).getD []
    | .error _ => []
  else []

variable {J : JsonText} {msg : Message}

theorem updateWrites_of_ne (h : msg.header.type ≠ .serverUpdateGS) : updateWrites J msg = [] :=
  if_neg h

/-- The message that the server makes of an update writes what the update
says. -/
theorem updateWrites_forward {updates : Json} (h : J.parse (Relay.text msg) = some updates) :
    updateWrites J (Relay.forward msg) = updates.items := by
  obtain ⟨left, htext, _⟩ := Relay.clientText_forward msg
  simp [updateWrites, Relay.forward_type, htext, h]

/-- What a handled message does to the database; no reply is an update. -/
theorem handleMessage_ok {g g' : GameInstance} {replies : List Message}
    (h : handleMessage J g msg = .ok (g', replies)) :
    g'.database = Replica.writeAll g.database (updateWrites J msg) ∧
      ∀ m ∈ replies, m.header.type ≠ .clientUpdateGS := by
  rw [handleMessage] at h
  split at h
  case h_6 htype =>
    obtain ⟨⟨left, rcvBuf⟩, htext, hrest⟩ := bind_eq_ok.mp h
    cases hparse : J.parse rcvBuf with
    | none => simp [hparse] at hrest
    | some updates =>
        obtain ⟨rfl, rfl⟩ : (g.updateDatabase updates).2 = g' ∧ [] = replies := by
          simpa [hparse, pure, Except.pure] using hrest
        simp [updateWrites, htype, htext, hparse, GameInstance.updateDatabase_eq]
  case h_2 htype | h_4 htype =>
    obtain ⟨_, _, hret⟩ := bind_eq_ok.mp h
    obtain ⟨rfl, rfl⟩ : g = g' ∧ [] = replies := by simpa [pure, Except.pure] using hret
    simp [updateWrites, htype]
  case h_1 htype | h_3 htype | h_5 htype =>
    obtain ⟨rfl, rfl⟩ := Prod.mk.inj (Except.ok.inj h)
    simp [updateWrites, htype, acceptServerConnection]
  case h_7 hupdate =>
    obtain ⟨rfl, rfl⟩ := Prod.mk.inj (Except.ok.inj h)
    rw [updateWrites_of_ne hupdate]
    simp

/-- What a client answers to a message. -/
def replies (msg : Message) : List Message :=
  match msg.header.type with
  | .serverAccept => [acceptServerConnection]
  | .clientPing => [msg]
  | _ => []

/-- No answer is an update. -/
theorem type_of_replies {m : Message} (h : m ∈ replies msg) :
    m.header.type ≠ .clientUpdateGS := by
  rw [replies] at h
  split at h
  · obtain rfl := List.mem_singleton.mp h
    simp [acceptServerConnection]
  · rename_i hping
    obtain rfl := List.mem_singleton.mp h
    simp [hping]
  · simp at h

theorem replies_of_handleMessage {g g' : GameInstance} {answers : List Message}
    (h : handleMessage J g msg = .ok (g', answers)) : answers = replies msg := by
  rw [handleMessage] at h
  rw [replies]
  split at h
  case h_6 htype =>
    obtain ⟨⟨left, rcvBuf⟩, _, hrest⟩ := bind_eq_ok.mp h
    cases hparse : J.parse rcvBuf with
    | none => simp [hparse] at hrest
    | some updates =>
        obtain ⟨_, rfl⟩ : (g.updateDatabase updates).2 = g' ∧ [] = answers := by
          simpa [hparse, pure, Except.pure] using hrest
        simp [htype]
  case h_2 htype | h_4 htype =>
    obtain ⟨_, _, hret⟩ := bind_eq_ok.mp h
    obtain ⟨_, rfl⟩ : g = g' ∧ [] = answers := by simpa [pure, Except.pure] using hret
    simp [htype]
  case h_1 htype | h_3 htype | h_5 htype =>
    obtain ⟨_, rfl⟩ := Prod.mk.inj (Except.ok.inj h)
    simp [htype]
  case h_7 haccept _ hping _ _ _ =>
    obtain ⟨_, rfl⟩ := Prod.mk.inj (Except.ok.inj h)
    split
    · exact absurd ‹_› haccept
    · exact absurd ‹_› hping
    · rfl

end AmongUs.Client
