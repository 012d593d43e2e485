import AmongUs.Client.Requests
import AmongUs.Networking.Framing

/-!
The text of an update, from the client that sends it through the server to
every other client.

The sender pushes the text backwards, so the server's pops read it forwards.
While it pops, the server pushes each character on the message for the other
clients, which holds the text forwards and is popped backwards; the receiving
client reverses what it popped. Both loops run as often as the size field
said when they started.
-/

namespace AmongUs.Relay

open Networking

/-- The loop of the server: pops a character, pushes it on `newMsgAll`,
appends it to `rcvBuf`. -/
def serverUnpack : ℕ → Message → Message → List UInt8 →
    Except Fault (Message × Message × List UInt8)
  | 0, incoming, newMsgAll, rcvBuf => .ok (incoming, newMsgAll, rcvBuf)
  | i + 1, incoming, newMsgAll, rcvBuf => do
      let (c, incoming) ← incoming.pop 1
      serverUnpack i incoming (newMsgAll.push c) (rcvBuf ++ c)

/-- The loop of the client. -/
def clientUnpack : ℕ → Message → List UInt8 → Except Fault (Message × List UInt8)
  | 0, incoming, rcvBuf => .ok (incoming, rcvBuf)
  | i + 1, incoming, rcvBuf => do
      let (c, incoming) ← incoming.pop 1
      clientUnpack i incoming (rcvBuf ++ c)

/-- The server takes an update apart: what is left of it, the message for
the other clients, and the text for the parser. -/
def serverText (incoming : Message) : Except Fault (Message × Message × List UInt8) :=
  serverUnpack incoming.header.size.toNat incoming { header := { type := .serverUpdateGS } } []

/-- A client takes an update apart: what is left of it, and the text for
the parser. -/
def clientText (incoming : Message) : Except Fault (Message × List UInt8) := do
  let (incoming, rcvBuf) ← clientUnpack incoming.header.size.toNat incoming []
  return (incoming, rcvBuf.reverse)

theorem serverUnpack_succ {msg newMsgAll : Message} {rest : List UInt8} {c : UInt8}
    (h : msg.body = rest ++ [c]) (i : ℕ) (rcvBuf : List UInt8) :
    serverUnpack (i + 1) msg newMsgAll rcvBuf =
      serverUnpack i (msg.setBody rest) (newMsgAll.push [c]) (rcvBuf ++ [c]) := by
  have hpop : msg.pop 1 = .ok ([c], msg.setBody rest) := Message.pop_of_append h
  rw [serverUnpack, hpop]
  rfl

theorem clientUnpack_succ {msg : Message} {rest : List UInt8} {c : UInt8}
    (h : msg.body = rest ++ [c]) (i : ℕ) (rcvBuf : List UInt8) :
    clientUnpack (i + 1) msg rcvBuf = clientUnpack i (msg.setBody rest) (rcvBuf ++ [c]) := by
  have hpop : msg.pop 1 = .ok ([c], msg.setBody rest) := Message.pop_of_append h
  rw [clientUnpack, hpop]
  rfl

/-- The end of the body that the loop pops, and what it leaves. -/
theorem serverUnpack_eq {msg : Message} {rest tail : List UInt8}
    (h : msg.body = rest ++ tail) (newMsgAll : Message) (rcvBuf : List UInt8) :
    ∃ left, serverUnpack tail.length msg newMsgAll rcvBuf =
        .ok (left, newMsgAll.pushChars tail.reverse, rcvBuf ++ tail.reverse) ∧
      left.body = rest ∧ left.header.id = msg.header.id ∧ (msg.Sized → left.Sized) := by
  -- From the end of the body, where the loop pops.
  induction tail using List.reverseRecOn generalizing msg newMsgAll rcvBuf with
  | nil => exact ⟨msg, by simp [serverUnpack], by simpa using h, rfl, id⟩
  | append_singleton tail c ih =>
      have hbody : msg.body = (rest ++ tail) ++ [c] := by
        rw [h, List.append_assoc]
      obtain ⟨left, heq, hleft, hid, hsized⟩ :=
        ih (Message.setBody_body msg (rest ++ tail)) (newMsgAll.push [c]) (rcvBuf ++ [c])
      refine ⟨left, ?_, hleft, hid, fun hmsg => hsized (Message.sized_setBody msg ?_)⟩
      · rw [List.length_append, List.length_singleton, serverUnpack_succ hbody, heq,
          List.reverse_append, List.reverse_singleton, List.append_assoc,
          List.singleton_append, Message.pushChars_cons]
      · have hlen := congrArg List.length hbody
        have hlt := msg.header.size.toNat_lt
        rw [Message.Sized] at hmsg
        simp only [List.length_append, List.length_singleton] at hlen ⊢
        omega

theorem clientUnpack_eq {msg : Message} {rest tail : List UInt8}
    (h : msg.body = rest ++ tail) (rcvBuf : List UInt8) :
    ∃ left, clientUnpack tail.length msg rcvBuf = .ok (left, rcvBuf ++ tail.reverse) ∧
      left.body = rest := by
  induction tail using List.reverseRecOn generalizing msg rcvBuf with
  | nil => exact ⟨msg, by simp [clientUnpack], by simpa using h⟩
  | append_singleton tail c ih =>
      have hbody : msg.body = (rest ++ tail) ++ [c] := by
        rw [h, List.append_assoc]
      obtain ⟨left, heq, hleft⟩ :=
        ih (Message.setBody_body msg (rest ++ tail)) (rcvBuf ++ [c])
      refine ⟨left, ?_, hleft⟩
      rw [List.length_append, List.length_singleton, clientUnpack_succ hbody, heq,
        List.reverse_append, List.reverse_singleton, List.append_assoc, List.singleton_append]

/-- The text of an update: as many bytes as the header says, from the end
of the body backwards. -/
def text (msg : Message) : List UInt8 := msg.body.reverse.take msg.header.size.toNat

/-- The message for the other clients. -/
def forward (msg : Message) : Message :=
  Message.pushChars { header := { type := .serverUpdateGS } } (text msg)

theorem forward_body (msg : Message) : (forward msg).body = text msg := by
  simp [forward]

theorem length_text_lt (msg : Message) : (text msg).length < 2 ^ 32 :=
  (List.length_take_le _ _).trans_lt msg.header.size.toNat_lt

theorem forward_sized (msg : Message) : (forward msg).Sized :=
  (Message.sized_empty .serverUpdateGS 0).pushChars (by simpa using length_text_lt msg)

theorem forward_type (msg : Message) : (forward msg).header.type = .serverUpdateGS := by
  simp [forward]

/-- The part of the body that is popped is the text, backwards. -/
theorem body_eq_append_text {msg : Message} (h : msg.header.size.toNat ≤ msg.body.length) :
    msg.body = msg.body.take (msg.body.length - msg.header.size.toNat) ++
      (text msg).reverse ∧ (text msg).length = msg.header.size.toNat := by
  constructor
  · rw [text, List.take_reverse, List.reverse_reverse, List.take_append_drop]
  · rw [text, List.length_take, List.length_reverse, Nat.min_eq_left h]

/-- A message whose body has the bytes its header announces is taken apart
by the server into its text and the message for the other clients. -/
theorem serverText_eq {msg : Message} (h : msg.header.size.toNat ≤ msg.body.length) :
    ∃ left, serverText msg = .ok (left, forward msg, text msg) ∧
      left.body = msg.body.take (msg.body.length - msg.header.size.toNat) ∧
      left.header.id = msg.header.id ∧ (msg.Sized → left.Sized) := by
  obtain ⟨hbody, hlen⟩ := body_eq_append_text h
  obtain ⟨left, heq, hleft⟩ :=
    serverUnpack_eq hbody { header := { type := .serverUpdateGS } } []
  refine ⟨left, ?_, hleft⟩
  rw [List.length_reverse, hlen, List.reverse_reverse] at heq
  exact heq

theorem clientText_eq {msg : Message} (h : msg.header.size.toNat ≤ msg.body.length) :
    ∃ left, clientText msg = .ok (left, (text msg).reverse) ∧
      left.body = msg.body.take (msg.body.length - msg.header.size.toNat) := by
  obtain ⟨hbody, hlen⟩ := body_eq_append_text h
  obtain ⟨left, heq, hleft⟩ := clientUnpack_eq hbody []
  refine ⟨left, ?_, hleft⟩
  rw [List.length_reverse, hlen, List.reverse_reverse] at heq
  rw [clientText, heq]
  rfl

/-- The loop needs as many bytes as it takes. -/
theorem serverUnpack_short {n : ℕ} {msg : Message} (h : msg.body.length < n)
    (newMsgAll : Message) (rcvBuf : List UInt8) :
    serverUnpack n msg newMsgAll rcvBuf = .error .outOfBounds := by
  induction n generalizing msg newMsgAll rcvBuf with
  | zero => omega
  | succ n ih =>
      obtain hnil | ⟨rest, c, hbody⟩ := msg.body.eq_nil_or_concat
      · rw [serverUnpack, Message.pop_eq_error (by simp [hnil])]
        rfl
      · rw [List.concat_eq_append] at hbody
        rw [serverUnpack_succ hbody]
        refine ih ?_ _ _
        have hlen := congrArg List.length hbody
        simp only [List.length_append, List.length_singleton] at hlen
        simp only [Message.setBody_body]
        omega

theorem serverText_short {msg : Message} (h : msg.body.length < msg.header.size.toNat) :
    serverText msg = .error .outOfBounds := serverUnpack_short h _ _

/-- Taking an update apart succeeds in one way only. -/
theorem serverText_ok {msg left newMsgAll : Message} {rcvBuf : List UInt8}
    (h : serverText msg = .ok (left, newMsgAll, rcvBuf)) :
    msg.header.size.toNat ≤ msg.body.length ∧ newMsgAll = forward msg ∧ rcvBuf = text msg ∧
      left.header.id = msg.header.id := by
  have hle : msg.header.size.toNat ≤ msg.body.length := by
    by_contra hlt
    rw [serverText_short (not_le.mp hlt)] at h
    cases h
  obtain ⟨left', heq, _, hid, _⟩ := serverText_eq hle
  obtain ⟨rfl, rfl, rfl⟩ : left' = left ∧ forward msg = newMsgAll ∧ text msg = rcvBuf := by
    simpa [heq] using h
  exact ⟨hle, rfl, rfl, hid⟩

/-- Whatever the server parses, the other clients parse. -/
theorem clientText_forward (msg : Message) :
    ∃ left, clientText (forward msg) = .ok (left, text msg) ∧ left.body = [] := by
  have hsize : (forward msg).header.size.toNat = (forward msg).body.length := forward_sized msg
  obtain ⟨left, heq, hleft⟩ := clientText_eq hsize.le
  have htext : (text (forward msg)).reverse = text msg := by
    rw [text, hsize, ← List.length_reverse, List.take_length, List.reverse_reverse,
      forward_body]
  refine ⟨left, by rw [heq, htext], ?_⟩
  rw [hleft, hsize]
  simp

/-- A sized message is read off the stream as it was, whatever was read
before it, if it has a body. -/
theorem delivered_of_body {msg : Message} (h : msg.Sized) (hbody : msg.body ≠ [])
    {r : Reader} (hr : r.AtFrame) (pad : UInt16) :
    (r.feedAll (headerBytes msg.header pad ++ msg.body)).messagesIn = r.messagesIn ++ [msg] := by
  have hover : (Frame.ofMessage msg pad h).overBody r.msgTemporaryIn.body = msg := by
    rw [(Frame.overBody_eq_message_iff _ _).mpr fun hempty => absurd hempty hbody,
      Frame.message_ofMessage]
  rw [← Frame.bytes_ofMessage msg pad h, Reader.feedAll_frame hr, hover]
  rfl

/-- **The relay.** The text `s` of an update reaches the parser of the
server and the parser of every other client unchanged. On every hop the
size field of the message is the size of its body, and the message that is
read off the stream is the one that was sent. -/
theorem relay_roundTrip (id : UInt16) (s : List UInt8) (hpos : 0 < s.length)
    (hlt : s.length < 2 ^ 31) :
    ∃ left forwarded,
      serverText (Client.updateGameState id s) = .ok (left, forwarded, s) ∧
      left.body = [] ∧ left.Sized ∧
      (∃ left', clientText forwarded = .ok (left', s) ∧ left'.body = []) ∧
      ∀ msg ∈ [Client.updateGameState id s, forwarded], msg.Sized ∧
        ∀ r : Reader, r.AtFrame → ∀ pad,
          (r.feedAll (headerBytes msg.header pad ++ msg.body)).messagesIn =
            r.messagesIn ++ [msg] := by
  have hsized : (Client.updateGameState id s).Sized :=
    Client.updateGameState_sized id (by omega)
  have hbody : (Client.updateGameState id s).body = s.reverse :=
    Client.updateGameState_body id s
  generalize Client.updateGameState id s = sent at hsized hbody
  have hsize : sent.header.size.toNat = sent.body.length := hsized
  have htext : text sent = s := by
    rw [text, hsize, hbody, List.reverse_reverse, List.length_reverse, List.take_length]
  have hne : s ≠ [] := List.length_pos_iff.mp hpos
  obtain ⟨left, heq, hleft, _, hleftSized⟩ := serverText_eq hsize.le
  refine ⟨left, forward sent, by rw [heq, htext], by simp [hleft, hsize],
    hleftSized hsized, ?_, ?_⟩
  · simpa only [htext] using clientText_forward sent
  · intro msg hmsg
    obtain rfl | rfl : msg = sent ∨ msg = forward sent := by simpa using hmsg
    · exact ⟨hsized, fun r hr pad => delivered_of_body hsized (by simpa [hbody]) hr pad⟩
    · have hforward : (forward sent).body ≠ [] := by
        rwa [forward_body, htext]
      exact ⟨forward_sized sent, fun r hr pad =>
        delivered_of_body (forward_sized sent) hforward hr pad⟩

/-- The text `{}`. -/
theorem relay_roundTrip_braces :
    ∃ left forwarded,
      serverText (Client.updateGameState 7 [123, 125]) = .ok (left, forwarded, [123, 125]) ∧
      left.body = [] ∧ left.Sized ∧
      (∃ left', clientText forwarded = .ok (left', [123, 125]) ∧ left'.body = []) ∧
      ∀ msg ∈ [Client.updateGameState 7 [123, 125], forwarded], msg.Sized ∧
        ∀ r : Reader, r.AtFrame → ∀ pad,
          (r.feedAll (headerBytes msg.header pad ++ msg.body)).messagesIn =
            r.messagesIn ++ [msg] :=
  relay_roundTrip 7 [123, 125] (by decide) (by decide)

end AmongUs.Relay
