import AmongUs.Server.State
import AmongUs.Transition.Machine

/-!
How the handlers of the server return.

One lemma for each handler lists the ways in which it comes to its end, with
the tests it has passed and the state it leaves. Everything that follows
about the server rests on these and does not open the handlers again.
-/

namespace AmongUs

open Networking Transition

/-- `ClientPing` and `ClientAccept` answer the server. -/
def Networking.Message.IsAnswer (msg : Message) : Prop :=
  msg.header.type = .clientPing ∨ msg.header.type = .clientAccept

/-- `MessageAll` and `ClientUpdateGS` are passed on to all clients. -/
def Networking.Message.IsBroadcast (msg : Message) : Prop :=
  msg.header.type = .messageAll ∨ msg.header.type = .clientUpdateGS

instance (msg : Message) : Decidable msg.IsAnswer :=
  inferInstanceAs (Decidable (_ ∨ _))

instance (msg : Message) : Decidable msg.IsBroadcast :=
  inferInstanceAs (Decidable (_ ∨ _))

namespace Server

variable {K : Constants} {J : JsonText} {s s' : Server} {c d : ℕ} {effects : List Effect}

theorem mem_messageAllClients (s : Server) (c : ℕ) (msg : Message)
    (ignoreClient : Option ℕ) :
    c ∈ (s.messageAllClients msg ignoreClient).1.connectionsContainer ↔
      c ∈ s.connectionsContainer ∧ s.isOpen c = true := by
  simp [messageAllClients, Connections.mem_iff, messageAllLoop_fst]

theorem pingClient_eq_ok {timeNow : Int64} :
    s.pingClient d timeNow = .ok effects ↔
      d ∈ s.connectionsContainer ∧ effects = [.send d (clientPing timeNow)] := by
  by_cases hd : d ∈ s.connectionsContainer
  · simp [pingClient, hd, eq_comm]
  · simp [pingClient, hd]

/-- The four ways the switch of a tick returns. -/
theorem lockedSwitch_cases {status : ConnectionStatus} {count : ℕ} {timeNow : Int64}
    (h : s.lockedSwitch K d status count timeNow = .ok (s', effects)) :
    ((status = .waiting ∧ K.maxTimeClientAccept < count ∨
        status = .live ∧ K.maxFailPings < count) ∧ (s', effects) = s.giveUp d) ∨
    (status = .waiting ∧ count ≤ K.maxTimeClientAccept ∧
      s' = s.rearm d (count + 1) ∧ effects = []) ∨
    (status = .live ∧ count ≤ K.maxFailPings ∧ s' = s.rearm d (count + 1) ∧
      d ∈ s.connectionsContainer ∧ effects = [.send d (clientPing timeNow)]) ∨
    ((status = .dead ∨ status = .unstable) ∧ s' = s ∧ effects = []) := by
  cases status with
  | waiting =>
      by_cases hcount : count > K.maxTimeClientAccept
      · refine Or.inl ⟨Or.inl ⟨rfl, hcount⟩, ?_⟩
        simpa [lockedSwitch, hcount, eq_comm] using h
      · refine Or.inr (Or.inl ⟨rfl, not_lt.mp hcount, ?_⟩)
        simpa [lockedSwitch, hcount, eq_comm] using h
  | live =>
      by_cases hcount : count > K.maxFailPings
      · refine Or.inl ⟨Or.inr ⟨rfl, hcount⟩, ?_⟩
        simpa [lockedSwitch, hcount, eq_comm] using h
      · rw [lockedSwitch, if_neg hcount] at h
        obtain ⟨sent, hping, hret⟩ := bind_eq_ok.mp h
        obtain ⟨rfl, rfl⟩ : s.rearm d (count + 1) = s' ∧ sent = effects := by
          simpa [pure, Except.pure] using hret
        obtain ⟨hmem, rfl⟩ := pingClient_eq_ok.mp hping
        exact Or.inr (Or.inr (Or.inl ⟨rfl, not_lt.mp hcount, rfl, hmem, rfl⟩))
  | dead =>
      refine Or.inr (Or.inr (Or.inr ⟨Or.inl rfl, ?_⟩))
      simpa [lockedSwitch, eq_comm] using h
  | unstable =>
      refine Or.inr (Or.inr (Or.inr ⟨Or.inr rfl, ?_⟩))
      simpa [lockedSwitch, eq_comm] using h

/-- The switch of a tick fails where it pings a client that has no
connection. -/
theorem lockedSwitch_eq_error_iff {status : ConnectionStatus} {count : ℕ} {timeNow : Int64}
    {fault : Fault} :
    s.lockedSwitch K d status count timeNow = .error fault ↔
      fault = .nullPointer ∧ status = .live ∧ count ≤ K.maxFailPings ∧
        d ∉ s.connectionsContainer := by
  cases status with
  | waiting => by_cases hcount : count > K.maxTimeClientAccept <;> simp [lockedSwitch, hcount]
  | live =>
      by_cases hcount : count > K.maxFailPings
      · simp [lockedSwitch, hcount, not_le.mpr hcount]
      · have hcont : (s.rearm d (count + 1)).connectionsContainer = s.connectionsContainer := rfl
        by_cases hmem : d ∈ s.connectionsContainer
        · simp [lockedSwitch, hcount, pingClient, hcont, hmem, bind, Except.bind, pure,
            Except.pure]
        · simp [lockedSwitch, hcount, pingClient, hcont, hmem, bind, Except.bind, eq_comm,
            not_lt.mp hcount]
  | dead => simp [lockedSwitch]
  | unstable => simp [lockedSwitch]

theorem readStatus_ok {status : ConnectionStatus} {count : ℕ}
    (h : s.readStatus d = .ok (status, count)) :
    ∃ entry, s.clientStatus d = some entry ∧ entry.status = status ∧ entry.count = count := by
  cases hentry : s.clientStatus d with
  | none => simp [readStatus, hentry] at h
  | some entry => exact ⟨entry, rfl, by simpa [readStatus, hentry] using h⟩

/-- A tick that returned has found an entry. -/
theorem checkClientConnStatus_ok {timeNow : Int64}
    (h : s.checkClientConnStatus K d timeNow = .ok (s', effects)) :
    ∃ entry, s.clientStatus d = some entry ∧
      s.lockedSwitch K d entry.status entry.count timeNow = .ok (s', effects) := by
  obtain ⟨⟨status, count⟩, hread, hswitch⟩ := bind_eq_ok.mp h
  obtain ⟨entry, hentry, rfl, rfl⟩ := readStatus_ok hread
  exact ⟨entry, hentry, hswitch⟩

/-- The ways `OnMessage` returns: an answer is noted, a broadcast is passed
on, and of the rest only `ServerPing` is sent back. -/
theorem onMessage_cases {msg : Message} {timeNow : Int64}
    (h : s.onMessage J d msg timeNow = .ok (s', effects)) :
    (msg.IsAnswer ∧ ¬msg.IsBroadcast ∧ ∃ dur, s' = s.answered d dur ∧ effects = []) ∨
    (msg.header.type = .messageAll ∧
      (s', effects) = s.messageAllClients (serverMessage d) (some d)) ∨
    (msg.header.type = .clientUpdateGS ∧ ∃ left newMsgAll rcvBuf updates,
      Relay.serverText msg = .ok (left, newMsgAll, rcvBuf) ∧
      J.parse rcvBuf = some updates ∧
      (s', effects) = s.applyUpdates d left.header.id newMsgAll updates) ∨
    (¬msg.IsAnswer ∧ ¬msg.IsBroadcast ∧ s' = s ∧
      effects = if msg.header.type = .serverPing then [.send d msg] else []) := by
  rw [onMessage] at h
  split at h
  case h_1 htype =>
    refine Or.inr (Or.inr (Or.inr ?_))
    simpa [Message.IsAnswer, Message.IsBroadcast, htype, eq_comm] using h
  case h_2 htype =>
    obtain ⟨⟨timeThen, left⟩, _, hret⟩ := bind_eq_ok.mp h
    refine Or.inl ⟨Or.inl htype, by simp [Message.IsBroadcast, htype],
      some (timeNow - timePointOfBytes timeThen), ?_⟩
    simpa [pure, Except.pure, eq_comm] using hret
  case h_3 htype =>
    refine Or.inr (Or.inl ⟨htype, ?_⟩)
    simpa [eq_comm] using h
  case h_4 htype =>
    obtain ⟨⟨left, newMsgAll, rcvBuf⟩, htext, hrest⟩ := bind_eq_ok.mp h
    refine Or.inr (Or.inr (Or.inl ⟨htype, left, newMsgAll, rcvBuf, ?_⟩))
    cases hparse : J.parse rcvBuf with
    | none => simp [hparse] at hrest
    | some updates =>
        refine ⟨updates, htext, rfl, ?_⟩
        simpa [hparse, pure, Except.pure, eq_comm] using hrest
  case h_5 htype =>
    refine Or.inl ⟨Or.inr htype, by simp [Message.IsBroadcast, htype], none, ?_⟩
    simpa [eq_comm] using h
  case h_6 hping hanswer hall hupdate haccept =>
    obtain ⟨rfl, rfl⟩ : s = s' ∧ effects = [] := by simpa [eq_comm] using h
    refine Or.inr (Or.inr (Or.inr ⟨?_, ?_, rfl, (if_neg hping).symm⟩))
    · rintro (htype | htype)
      exacts [hanswer htype, haccept htype]
    · rintro (htype | htype)
      exacts [hall htype, hupdate htype]

end Server

end AmongUs
