import AmongUs.Client.HandleNetworking
import AmongUs.Server.Handlers

/-!
The pops of the handlers, on whatever a peer sends.

`operator>>` takes as many bytes as the type of its target has, and does not
look at the size of the body. The loops over the characters of an update
take no more than the header announces, and a delivered body is never
shorter than that. The other pops take a fixed number of bytes: eight for a
time point, four for an identifier. Their messages come with whatever body
the peer chose, or with the body of an earlier message where the header
announces none.
-/

namespace AmongUs

open Networking Transition

/-- The body that the frames of a stream leave in the temporary message:
the last payload that is not empty. -/
def Networking.lastPayload (fs : List Frame) : List UInt8 :=
  fs.foldl (fun held f => if f.payload = [] then held else f.payload) []

theorem Networking.mem_received_iff {held : List UInt8} {fs : List Frame} {m : Message} :
    m ∈ received held fs ↔ ∃ pre f post, fs = pre ++ f :: post ∧
      m = { header := f.header
            body := (pre ++ [f]).foldl
              (fun held f => if f.payload = [] then held else f.payload) held } := by
  induction fs generalizing held with
  | nil => simp [received]
  | cons g fs ih =>
      rw [received, List.mem_cons, ih]
      constructor
      · rintro (rfl | ⟨pre, f, post, rfl, rfl⟩)
        · exact ⟨[], g, fs, rfl, rfl⟩
        · exact ⟨g :: pre, f, post, rfl, rfl⟩
      · rintro ⟨pre, f, post, hfs, rfl⟩
        cases pre with
        | nil =>
            obtain ⟨rfl, rfl⟩ := List.cons.inj hfs
            exact Or.inl rfl
        | cons p pre =>
            obtain ⟨rfl, rfl⟩ := List.cons.inj hfs
            exact Or.inr ⟨pre, f, post, rfl, rfl⟩

/-- The messages a stream delivers, frame by frame. -/
theorem Networking.mem_messagesIn_iff {bs : List UInt8} {m : Message} :
    m ∈ (({} : Reader).feedAll bs).messagesIn ↔ ∃ pre f post, frames bs = pre ++ f :: post ∧
      m = { header := f.header, body := lastPayload (pre ++ [f]) } := by
  rw [Reader.messagesIn_stream]
  exact mem_received_iff

/-- The server pops too much where a ping is too short. -/
theorem Server.onMessage_outOfBounds_iff {J : JsonText} {s : Server} {client : ℕ}
    {msg : Message} {timeNow : Int64} (hsize : msg.header.size.toNat ≤ msg.body.length) :
    s.onMessage J client msg timeNow = .error .outOfBounds ↔
      msg.header.type = .clientPing ∧ msg.body.length < 8 := by
  rw [onMessage]
  split
  case h_1 htype => simp [htype]
  case h_2 htype =>
    by_cases hlen : 8 ≤ msg.body.length
    · simp [Message.pop_eq_ok hlen, bind, Except.bind, pure, Except.pure, not_lt.mpr hlen]
    · simp [Message.pop_eq_error (not_le.mp hlen), bind, Except.bind, htype, not_le.mp hlen]
  case h_3 htype => simp [htype]
  case h_4 htype =>
    obtain ⟨left, htext, _⟩ := Relay.serverText_eq hsize
    simp only [htext, bind, Except.bind]
    split <;> simp [pure, Except.pure, htype]
  case h_5 htype => simp [htype]
  case h_6 hping hanswer hall hupdate haccept =>
    simp only [reduceCtorEq, false_iff, not_and]
    exact fun htype => (hanswer htype).elim

theorem Client.handleMessage_outOfBounds_iff {J : JsonText} {gameInstance : GameInstance}
    {msg : Message} (hsize : msg.header.size.toNat ≤ msg.body.length) :
    handleMessage J gameInstance msg = .error .outOfBounds ↔
      msg.header.type = .serverPing ∧ msg.body.length < 8 ∨
        msg.header.type = .serverMessage ∧ msg.body.length < 4 := by
  rw [handleMessage]
  split
  case h_1 htype => simp [htype]
  case h_2 htype =>
    by_cases hlen : 8 ≤ msg.body.length
    · simp [Message.pop_eq_ok hlen, bind, Except.bind, pure, Except.pure, htype,
        not_lt.mpr hlen]
    · simp [Message.pop_eq_error (not_le.mp hlen), bind, Except.bind, htype, not_le.mp hlen]
  case h_3 htype => simp [htype]
  case h_4 htype =>
    by_cases hlen : 4 ≤ msg.body.length
    · simp [Message.pop_eq_ok hlen, bind, Except.bind, pure, Except.pure, htype,
        not_lt.mpr hlen]
    · simp [Message.pop_eq_error (not_le.mp hlen), bind, Except.bind, htype, not_le.mp hlen]
  case h_5 htype => simp [htype]
  case h_6 htype =>
    obtain ⟨left, htext, _⟩ := Relay.clientText_eq hsize
    simp only [htext, bind, Except.bind]
    split <;> simp [pure, Except.pure, htype]
  case h_7 haccept hping hecho hmessage hack hupdate =>
    simp only [reduceCtorEq, false_iff, not_or, not_and]
    exact ⟨fun htype => (hping htype).elim, fun htype => (hmessage htype).elim⟩

/-- **Pops within bounds.** On the stream that a peer sends, the server
never pops more than the body holds exactly when each `ClientPing` finds at
least eight bytes, its own or the ones left by the last payload before it;
and a client exactly when each `ServerPing` finds eight and each
`ServerMessage` four. -/
theorem pops_in_bounds_iff (J : JsonText) (bs : List UInt8) :
    ((∀ m ∈ (({} : Reader).feedAll bs).messagesIn, ∀ (s : Server) client timeNow,
        s.onMessage J client m timeNow ≠ .error .outOfBounds) ↔
      ∀ pre f post, frames bs = pre ++ f :: post →
        f.type = .clientPing → 8 ≤ (lastPayload (pre ++ [f])).length) ∧
    ((∀ m ∈ (({} : Reader).feedAll bs).messagesIn, ∀ gameInstance,
        Client.handleMessage J gameInstance m ≠ .error .outOfBounds) ↔
      ∀ pre f post, frames bs = pre ++ f :: post →
        (f.type = .serverPing → 8 ≤ (lastPayload (pre ++ [f])).length) ∧
        (f.type = .serverMessage → 4 ≤ (lastPayload (pre ++ [f])).length)) := by
  have hsize (m : Message) (hm : m ∈ (({} : Reader).feedAll bs).messagesIn) :
      m.header.size.toNat ≤ m.body.length := by
    rw [Reader.messagesIn_stream] at hm
    exact received_size_le m hm
  constructor
  · constructor
    · intro h pre f post hfs htype
      have hm := Networking.mem_messagesIn_iff.mpr ⟨pre, f, post, hfs, rfl⟩
      by_contra hlt
      refine h _ hm .initial 0 0 ((Server.onMessage_outOfBounds_iff (hsize _ hm)).mpr ?_)
      exact ⟨htype, not_le.mp hlt⟩
    · intro h m hm s client timeNow hfault
      obtain ⟨htype, hlt⟩ := (Server.onMessage_outOfBounds_iff (hsize m hm)).mp hfault
      obtain ⟨pre, f, post, hfs, rfl⟩ := Networking.mem_messagesIn_iff.mp hm
      exact absurd (h pre f post hfs htype) (not_le.mpr hlt)
  · constructor
    · intro h pre f post hfs
      have hm := Networking.mem_messagesIn_iff.mpr ⟨pre, f, post, hfs, rfl⟩
      have hnot := h _ hm .initial
      rw [ne_eq, Client.handleMessage_outOfBounds_iff (hsize _ hm), not_or] at hnot
      exact ⟨fun htype => not_lt.mp fun hlt => hnot.1 ⟨htype, hlt⟩,
        fun htype => not_lt.mp fun hlt => hnot.2 ⟨htype, hlt⟩⟩
    · intro h m hm gameInstance hfault
      rw [Client.handleMessage_outOfBounds_iff (hsize m hm)] at hfault
      obtain ⟨pre, f, post, hfs, rfl⟩ := Networking.mem_messagesIn_iff.mp hm
      rcases hfault with ⟨htype, hlt⟩ | ⟨htype, hlt⟩
      · exact absurd ((h pre f post hfs).1 htype) (not_le.mpr hlt)
      · exact absurd ((h pre f post hfs).2 htype) (not_le.mpr hlt)

/-- A `ClientPing` without a body, the first message of its connection. -/
theorem emptyPing_outOfBounds :
    ¬∀ (bs : List UInt8), ∀ m ∈ (({} : Reader).feedAll bs).messagesIn,
      (∀ (s : Server) client timeNow,
        s.onMessage .gameState1 client m timeNow ≠ .error .outOfBounds) ∧
      ∀ gameInstance, Client.handleMessage .gameState1 gameInstance m ≠ .error .outOfBounds := by
  intro hall
  let msg : Message := { header := { type := .clientPing } }
  have hserver := (hall (headerBytes msg.header 0) msg (by decide +kernel)).1 .initial 10001 0
  exact hserver ((Server.onMessage_outOfBounds_iff (by decide)).mpr ⟨rfl, by decide⟩)

end AmongUs
