import AmongUs.PopBounds
import AmongUs.Server.Propagation

/-!
What a handler sends back, on whatever a peer has sent.

A reply is written as its header and then as many bytes as its body has, and
the other side reads as many as the header says. The replies that a handler
makes itself are made by `operator<<` and are sized. The echo of a ping is
the object that the reader has filled, and where the ping came without a
payload its body is the one of an earlier message.
-/

namespace AmongUs

open Networking Transition

namespace Networking

/-- The other side reads the message as one frame, whatever follows. -/
def Message.ReadAsFrame (msg : Message) : Prop :=
  ∀ pad rest, ∃ f : Frame, f.message = msg ∧
    takeFrame (headerBytes msg.header pad ++ msg.body ++ rest) = some (f, rest)

theorem Message.readAsFrame_iff {msg : Message} : msg.ReadAsFrame ↔ msg.Sized := by
  constructor
  · intro h
    obtain ⟨f, rfl, _⟩ := h 0 []
    exact f.size_header
  · intro h pad rest
    refine ⟨.ofMessage msg pad h, Frame.message_ofMessage msg pad h, ?_⟩
    rw [← Frame.bytes_ofMessage msg pad h, takeFrame_bytes_append]

theorem lastPayload_snoc (pre : List Frame) (f : Frame) :
    lastPayload (pre ++ [f]) = if f.payload = [] then lastPayload pre else f.payload := by
  simp [lastPayload]

/-- A delivered message is sized unless its header announces nothing and an
earlier payload is left in the body. -/
theorem sized_delivered_iff (pre : List Frame) (f : Frame) :
    Message.Sized { header := f.header, body := lastPayload (pre ++ [f]) } ↔
      (f.payload = [] → lastPayload pre = []) := by
  rw [Message.Sized, Frame.size_header, lastPayload_snoc]
  by_cases hempty : f.payload = []
  · rw [if_pos hempty, hempty, List.length_nil, eq_comm, List.length_eq_zero_iff]
    exact ⟨fun h _ => h, fun h => h rfl⟩
  · simp [hempty]

end Networking

section

variable {J : JsonText} {m : Message}

/-- The server sends sized messages only, except that it sends a
`ServerPing` back as it is. -/
theorem Server.sized_of_onMessage {s s' : Server} {client : ℕ} {timeNow : Int64}
    {effects : List Effect} (h : s.onMessage J client m timeNow = .ok (s', effects)) {d : ℕ}
    {reply : Message} (hsend : .send d reply ∈ effects) :
    reply.Sized ∨ m.header.type = .serverPing ∧ reply = m := by
  rcases onMessage_cases h with
    ⟨_, _, dur, _, rfl⟩ | ⟨_, heq⟩ | ⟨_, left, newMsgAll, rcvBuf, updates, htext, _, heq⟩ |
      ⟨_, _, _, rfl⟩
  · simp at hsend
  · rw [← mem_sentTo, show effects = _ from congrArg Prod.snd heq,
      sentTo_messageAllClients] at hsend
    split at hsend
    · obtain rfl := List.mem_singleton.mp hsend
      exact Or.inl (Message.sized_setBody _ (by simp))
    · simp at hsend
  · obtain ⟨_, rfl, _, _⟩ := Relay.serverText_ok htext
    rw [← mem_sentTo, show effects = _ from congrArg Prod.snd heq, sentTo_applyUpdates] at hsend
    split at hsend
    · obtain rfl := List.mem_singleton.mp hsend
      exact Or.inl (Message.sized_empty _ _)
    · split at hsend
      · obtain rfl := List.mem_singleton.mp hsend
        exact Or.inl (Relay.forward_sized m)
      · simp at hsend
  · split at hsend
    · rename_i hping
      obtain ⟨_, rfl⟩ : d = client ∧ reply = m := by simpa using hsend
      exact Or.inr ⟨hping, rfl⟩
    · simp at hsend

/-- A client sends its `ClientAccept`, and a `ClientPing` back as it is. -/
theorem Client.sized_of_replies {reply : Message} (h : reply ∈ replies m) :
    reply.Sized ∨ m.header.type = .clientPing ∧ reply = m := by
  rw [replies] at h
  split at h
  · obtain rfl := List.mem_singleton.mp h
    exact Or.inl (Message.sized_empty _ _)
  · rename_i hping
    exact Or.inr ⟨hping, List.mem_singleton.mp h⟩
  · simp at h

/-- A ping is always sent back. -/
theorem Server.onMessage_serverPing (s : Server) (client : ℕ) (timeNow : Int64)
    (h : m.header.type = .serverPing) :
    s.onMessage J client m timeNow = .ok (s, [.send client m]) := by
  rw [onMessage, h]

theorem Client.handleMessage_clientPing (g : GameInstance) (h : m.header.type = .clientPing) :
    handleMessage J g m = .ok (g, [m]) := by
  rw [handleMessage, h]

end

/-- Every message that the server sends while it handles `m` is sized, and
is read as one frame. -/
def Server.RepliesInFrames (J : JsonText) (m : Message) : Prop :=
  ∀ (s s' : Server) client timeNow effects,
    s.onMessage J client m timeNow = .ok (s', effects) →
      ∀ d reply, .send d reply ∈ effects → reply.Sized ∧ reply.ReadAsFrame

/-- The same for a client. -/
def Client.RepliesInFrames (J : JsonText) (m : Message) : Prop :=
  ∀ (g g' : GameInstance) replies, handleMessage J g m = .ok (g', replies) →
    ∀ reply ∈ replies, reply.Sized ∧ reply.ReadAsFrame

theorem Server.repliesInFrames_iff {J : JsonText} {m : Message} :
    RepliesInFrames J m ↔ (m.header.type = .serverPing → m.Sized) := by
  constructor
  · intro h htype
    exact (h .initial _ 0 0 _ (onMessage_serverPing _ _ _ htype) 0 m (by simp)).1
  · intro h s s' client timeNow effects hret d reply hsend
    rw [Message.readAsFrame_iff, and_self]
    rcases sized_of_onMessage hret hsend with hsized | ⟨hping, rfl⟩
    · exact hsized
    · exact h hping

theorem Client.repliesInFrames_iff {J : JsonText} {m : Message} :
    RepliesInFrames J m ↔ (m.header.type = .clientPing → m.Sized) := by
  constructor
  · intro h htype
    exact (h .initial _ _ (handleMessage_clientPing _ htype) m (by simp)).1
  · intro h g g' answers hret reply hreply
    rw [Message.readAsFrame_iff, and_self]
    rw [replies_of_handleMessage hret] at hreply
    rcases sized_of_replies hreply with hsized | ⟨hping, rfl⟩
    · exact hsized
    · exact h hping

/-- A property of the messages that a stream delivers, frame by frame. -/
theorem Networking.forall_messagesIn_iff {bs : List UInt8} {P : Message → Prop} :
    (∀ m ∈ (({} : Reader).feedAll bs).messagesIn, P m) ↔
      ∀ pre f post, frames bs = pre ++ f :: post →
        P { header := f.header, body := lastPayload (pre ++ [f]) } := by
  constructor
  · intro h pre f post hfs
    exact h _ (mem_messagesIn_iff.mpr ⟨pre, f, post, hfs, rfl⟩)
  · intro h m hm
    obtain ⟨pre, f, post, hfs, rfl⟩ := mem_messagesIn_iff.mp hm
    exact h pre f post hfs

/-- **Replies in frames.** On the stream that a peer sends, the replies of
the server are sized exactly when no `ServerPing` without a payload comes
after a payload, and the replies of a client exactly when no such
`ClientPing` does. -/
theorem replies_in_frames_iff (J : JsonText) (bs : List UInt8) :
    ((∀ m ∈ (({} : Reader).feedAll bs).messagesIn, Server.RepliesInFrames J m) ↔
      ∀ pre f post, frames bs = pre ++ f :: post →
        f.type = .serverPing → f.payload = [] → ∀ g ∈ pre, g.payload = []) ∧
    ((∀ m ∈ (({} : Reader).feedAll bs).messagesIn, Client.RepliesInFrames J m) ↔
      ∀ pre f post, frames bs = pre ++ f :: post →
        f.type = .clientPing → f.payload = [] → ∀ g ∈ pre, g.payload = []) := by
  have hlast (pre : List Frame) : lastPayload pre = [] ↔ ∀ g ∈ pre, g.payload = [] := by
    induction pre using List.reverseRecOn with
    | nil => simp [lastPayload]
    | append_singleton pre f ih =>
        rw [lastPayload_snoc]
        by_cases hempty : f.payload = []
        · simp [hempty, ih, or_imp, forall_and]
        · simp [hempty, or_imp, forall_and]
  have htype (f : Frame) : f.header.type = f.type := rfl
  simp only [forall_messagesIn_iff, Server.repliesInFrames_iff, Client.repliesInFrames_iff,
    sized_delivered_iff, hlast, htype, and_self]

/-- A message with one byte, and then a `ServerPing` with none. -/
theorem emptyPing_echoed :
    ¬∀ bs : List UInt8, ∀ m ∈ (({} : Reader).feedAll bs).messagesIn,
      Server.RepliesInFrames .gameState1 m ∧ Client.RepliesInFrames .gameState1 m := by
  intro hall
  let first : Message := { header := { type := .messageAll, size := 1 }, body := [7] }
  let ping : Message := { header := { type := .serverPing }, body := [7] }
  have hping := (hall (headerBytes first.header 0 ++ first.body ++ headerBytes ping.header 0) ping
    (by decide +kernel)).1
  exact absurd (Server.repliesInFrames_iff.mp hping rfl) (by decide)

end AmongUs
