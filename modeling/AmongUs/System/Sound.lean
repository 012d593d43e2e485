import AmongUs.Json.RoundTrip
import AmongUs.Server.Registration
import AmongUs.System.Delivery

/-!
Messages that can be handled.

A message that one of the programs builds can be handled by the other: a ping
carries a time, a server message an identifier, and an update a text that the
parser reads (`Message.Sound`). Every step posts such messages only, as long
as the documents that are requested are read back from their own text, which
the library does for all that it can hold. What the server can still fail on
is the ping of a client whose connection was erased (`fault_of_sound`).
-/

namespace AmongUs

open Networking Transition

/-- The conversions of the library. -/
def JsonText.nlohmann (Φ : Json.FloatText) : JsonText where
  dump := Json.compact Φ
  parse := Json.Parser.parse Φ

/-- The document is read back from its text, and the text fits in a message. -/
def JsonText.ReadsBack (J : JsonText) (v : Json) : Prop :=
  J.parse (J.dump v) = some v ∧ (J.dump v).length < 2 ^ 32

theorem JsonText.readsBack_nlohmann {Φ : Json.FloatText} {v : Json}
    (hv : Json.Serializer.Fits Φ v) (hlen : (Json.compact Φ v).length < 2 ^ 32) :
    (nlohmann Φ).ReadsBack v :=
  ⟨Json.parse_compact hv, hlen⟩

/-- The message has the contents that its handlers ask for. -/
def Networking.Message.Legible (J : JsonText) (msg : Message) : Prop :=
  match msg.header.type with
  | .serverPing | .clientPing => 8 ≤ msg.body.length
  | .serverMessage => 4 ≤ msg.body.length
  | .clientUpdateGS => (J.parse (Relay.text msg)).isSome
  | .serverUpdateGS => ∃ left text, Relay.clientText msg = .ok (left, text) ∧
      (J.parse text).isSome
  | _ => True

/-- Whoever takes the message out of a queue can handle it. -/
structure Networking.Message.Sound (J : JsonText) (msg : Message) : Prop where
  sized : msg.Sized
  legible : msg.Legible J

variable {K : Constants} {J : JsonText} {msg : Message}

theorem Networking.Message.sound_empty {type : MsgTypes} (id : UInt16)
    (h : Legible J { header := { type := type, id := id } }) :
    Sound J { header := { type := type, id := id } } := ⟨sized_empty type id, h⟩

theorem Client.sound_pingServer (timeNow : Int64) : (pingServer timeNow).Sound J :=
  ⟨Message.sized_setBody _ (by simp), le_refl 8⟩

theorem Server.sound_clientPing (timeNow : Int64) : (clientPing timeNow).Sound J :=
  ⟨Message.sized_setBody _ (by simp), le_refl 8⟩

theorem Server.sound_serverMessage (client : ℕ) : (serverMessage client).Sound J :=
  ⟨Message.sized_setBody _ (by simp), le_refl 4⟩

theorem Relay.text_updateGameState (id : UInt16) {s : List UInt8} (h : s.length < 2 ^ 32) :
    text (Client.updateGameState id s) = s := by
  have hsize : (Client.updateGameState id s).header.size.toNat =
      (Client.updateGameState id s).body.length := Client.updateGameState_sized id h
  rw [text, hsize, Client.updateGameState_body, List.reverse_reverse, List.length_reverse,
    List.take_length]

/-! ### What is posted -/

/-- The documents among the requests are read back. -/
def Request.ReadsBack (J : JsonText) : Request → Prop
  | .updateGameState _ updates => J.ReadsBack updates
  | _ => True

theorem Request.sound_message {r : Request} (h : r.ReadsBack J) : (r.message J).Sound J := by
  cases r with
  | pingServer timeNow => exact Client.sound_pingServer timeNow
  | messageAll => exact Message.sound_empty 0 trivial
  | updateGameState id updates =>
      obtain ⟨hparse, hlen⟩ := h
      refine ⟨Client.updateGameState_sized id hlen, ?_⟩
      have htype : (Client.updateGameState id (J.dump updates)).header.type = .clientUpdateGS := by
        simp [Client.updateGameState]
      rw [message, Message.Legible, htype]
      dsimp only
      rw [Relay.text_updateGameState id hlen, hparse]
      rfl

theorem Relay.sound_forward (h : (J.parse (text msg)).isSome) : (forward msg).Sound J := by
  obtain ⟨left, htext, _⟩ := clientText_forward msg
  refine ⟨forward_sized msg, ?_⟩
  rw [Message.Legible, forward_type]
  exact ⟨left, text msg, htext, h⟩

/-- A client answers with a message of no contents, or sends a ping back. -/
theorem Client.sound_replies (h : msg.Sound J) : ∀ m ∈ replies msg, m.Sound J := by
  intro m hm
  rw [replies] at hm
  split at hm
  · rw [List.mem_singleton.mp hm]
    exact Message.sound_empty _ trivial
  · rwa [List.mem_singleton.mp hm]
  · cases hm

/-- The server sends an acknowledgement, a message of its own, a ping back,
or an update that it has parsed. -/
theorem Server.sound_onMessage {s s' : Server} {client : ℕ} {timeNow : Int64}
    {effects : List Effect} (h : msg.Sound J)
    (hret : s.onMessage J client msg timeNow = .ok (s', effects)) {c : ℕ} {m : Message}
    (hm : .send c m ∈ effects) : m.Sound J := by
  rcases onMessage_cases hret with
    ⟨_, _, dur, _, hout⟩ | ⟨_, heq⟩ | ⟨_, left, newMsgAll, rcvBuf, updates, htext, hparse, heq⟩ |
      ⟨_, _, _, hout⟩
  · rw [hout] at hm
    cases hm
  · rw [← mem_sentTo, show effects = _ from congrArg Prod.snd heq,
      sentTo_messageAllClients] at hm
    split at hm
    · rw [List.mem_singleton.mp hm]
      exact sound_serverMessage client
    · cases hm
  · obtain ⟨_, rfl, rfl, _⟩ := Relay.serverText_ok htext
    rw [← mem_sentTo, show effects = _ from congrArg Prod.snd heq, sentTo_applyUpdates] at hm
    split at hm
    · rw [List.mem_singleton.mp hm]
      exact Message.sound_empty _ trivial
    · split at hm
      · rw [List.mem_singleton.mp hm]
        exact Relay.sound_forward (by rw [hparse]; rfl)
      · cases hm
  · rw [hout] at hm
    split at hm
    · obtain ⟨rfl, rfl⟩ : c = client ∧ m = msg := by simpa using hm
      exact h
    · cases hm

theorem Server.sound_step {e : Event Server Server.Action (List Effect)}
    (h : (serverMachine K J).Takes e)
    (hact : ∀ c msg timeNow, e.act = .onMessage c msg timeNow → msg.Sound J) {c : ℕ}
    {m : Message} (hm : .send c m ∈ e.out) : m.Sound J := by
  rcases takes_cases h with
    ⟨_, heq⟩ | ⟨d, _, _, _, hout⟩ | ⟨d, msg, timeNow, ha, _, hret⟩ |
      ⟨d, timeNow, entry, _, _, _, hswitch⟩
  · rw [show e.out = e.src.accept.2 from congrArg Prod.snd heq] at hm
    obtain ⟨_, rfl⟩ : c = e.src.nIDCounter + 1 ∧
        m = { header := { type := .serverAccept } } := by
      simpa [accept, onClientConnect] using hm
    exact Message.sound_empty _ trivial
  · rw [hout] at hm
    cases hm
  · exact sound_onMessage (hact d msg timeNow ha) hret hm
  · rcases lockedSwitch_cases hswitch with
      ⟨_, heq⟩ | ⟨_, _, _, hout⟩ | ⟨_, _, _, _, hout⟩ | ⟨_, _, hout⟩
    · rw [show e.out = _ from congrArg Prod.snd heq] at hm
      simp only [giveUp, disconnect, List.mem_cons, reduceCtorEq, false_or] at hm
      split at hm <;> simp at hm
    · rw [hout] at hm
      cases hm
    · obtain ⟨_, rfl⟩ : c = d ∧ m = clientPing timeNow := by simpa [hout] using hm
      exact sound_clientPing timeNow
    · rw [hout] at hm
      cases hm

/-! ### What is handled -/

theorem Server.onMessage_of_sound (h : msg.Sound J) (s : Server) (client : ℕ)
    (timeNow : Int64) : ∃ r, s.onMessage J client msg timeNow = .ok r := by
  obtain ⟨hsized, h⟩ := h
  rw [onMessage]
  rw [Message.Legible] at h
  split
  case h_2 htype =>
    rw [htype] at h
    rw [Message.pop_eq_ok h]
    exact ⟨_, rfl⟩
  case h_4 htype =>
    rw [htype] at h
    obtain ⟨updates, hparse⟩ := Option.isSome_iff_exists.mp h
    obtain ⟨left, htext, _⟩ := Relay.serverText_eq (Nat.le_of_eq hsized)
    rw [htext]
    simp only [bind, Except.bind, hparse]
    exact ⟨_, rfl⟩
  all_goals exact ⟨_, rfl⟩

theorem Client.handleMessage_of_sound (h : msg.Sound J) (g : GameInstance) :
    ∃ r, handleMessage J g msg = .ok r := by
  obtain ⟨_, h⟩ := h
  rw [handleMessage]
  rw [Message.Legible] at h
  split
  case h_2 htype | h_4 htype =>
    rw [htype] at h
    rw [Message.pop_eq_ok h]
    exact ⟨_, rfl⟩
  case h_6 htype =>
    rw [htype] at h
    obtain ⟨left, text, htext, hparse⟩ := h
    obtain ⟨updates, hparse⟩ := Option.isSome_iff_exists.mp hparse
    rw [htext]
    simp only [bind, Except.bind, hparse]
    exact ⟨_, rfl⟩
  all_goals exact ⟨_, rfl⟩

theorem Server.standing_ne_of_waits {s : Server} {c : ℕ} (hc : c ∈ s.waits) :
    s.standing c ≠ {} := by
  intro hblank
  have hwaits : s.waits.count c = 0 := congrArg Standing.waits hblank
  exact (Multiset.count_pos.mpr hc).ne' hwaits

/-- A tick that fails has reached the null pointer: every client that has a
wait has an entry. -/
theorem Server.tick_error {s : Server} (hs : s.Numbered) {c : ℕ} (hc : c ∈ s.waits)
    {timeNow : Int64} {fault : Fault}
    (h : (s.expire c).checkClientConnStatus K c timeNow = .error fault) :
    fault = .nullPointer := by
  have hentry := hs.known c (hs.accepted (standing_ne_of_waits hc))
  obtain ⟨entry, hentry⟩ : ∃ entry, s.clientStatus c = some entry := by
    rw [standing, Option.isSome_map] at hentry
    exact Option.isSome_iff_exists.mp hentry
  have hstatus : (s.expire c).clientStatus c = some entry := hentry
  simp only [checkClientConnStatus, readStatus, hstatus, bind, Except.bind] at h
  exact (lockedSwitch_eq_error_iff.mp h).1

/-- On messages that can be handled the server fails only where it pings a
client without a connection. -/
theorem Server.fault_of_sound {s : Server} (hs : s.Numbered) {b : Action}
    (hb : ∀ c msg timeNow, b = .onMessage c msg timeNow → msg.Sound J)
    (henabled : (serverMachine K J).enabled s b = true) {fault : Fault}
    (h : (serverMachine K J).step s b = .error fault) :
    fault = .nullPointer ∧ ∃ c timeNow, b = .tick c timeNow ∧ s.AwaitsPing K c ∧
      c ∉ s.connectionsContainer := by
  cases b with
  | accept | close c => cases h
  | onMessage c msg timeNow =>
      obtain ⟨r, hok⟩ := onMessage_of_sound (hb c msg timeNow rfl) s c timeNow
      rw [show (serverMachine K J).step s (.onMessage c msg timeNow) = .ok r from hok] at h
      cases h
  | tick c timeNow =>
      have hwait : c ∈ s.waits := of_decide_eq_true henabled
      obtain rfl := tick_error hs hwait h
      exact ⟨rfl, c, timeNow, rfl, (tick_nullPointer_iff hwait timeNow).mp h⟩

namespace System

variable {S : System} {tr : List (Event System Action (List Effect))}

/-- Every message on its way can be handled. -/
structure Sound (J : JsonText) (S : System) : Prop where
  messagesIn : ∀ p ∈ S.messagesIn, p.2.Sound J
  toServer : ∀ c, ∀ m ∈ S.toServer c, m.Sound J
  toClient : ∀ c, ∀ m ∈ S.toClient c, m.Sound J

theorem sound_initial : Sound J initial where
  messagesIn p hp := by cases hp
  toServer c m hm := by cases hm
  toClient c m hm := by cases hm

theorem Sound.post (h : S.Sound J) (d : ℕ) {msgs : List Message}
    (hmsgs : ∀ m ∈ msgs, m.Sound J) : (S.post d msgs).Sound J := by
  refine ⟨h.messagesIn, fun c m hm => ?_, h.toClient⟩
  by_cases hc : c = d
  · subst hc
    replace hm : m ∈ S.toServer c ∨ m ∈ msgs := by simpa [System.post] using hm
    exact hm.elim (h.toServer c m) (hmsgs m)
  · exact h.toServer c m (by simpa [System.post, hc] using hm)

theorem Sound.arrived (h : S.Sound J) {d : ℕ} {rest : List Message}
    (hqueue : S.toServer d = msg :: rest) : (S.arrived d msg rest).Sound J := by
  have hd := h.toServer d
  rw [hqueue, List.forall_mem_cons] at hd
  refine ⟨fun p hp => ?_, fun c m hm => ?_, h.toClient⟩
  · replace hp : p ∈ S.messagesIn ∨ p = (d, msg) := by simpa [System.arrived] using hp
    rcases hp with hp | rfl
    · exact h.messagesIn p hp
    · exact hd.1
  · by_cases hc : c = d
    · subst hc
      exact hd.2 m (by simpa [System.arrived] using hm)
    · exact h.toServer c m (by simpa [System.arrived, hc] using hm)

theorem Sound.received (h : S.Sound J) {d : ℕ} {rest : List Message}
    (hqueue : S.toClient d = msg :: rest) (g : GameInstance) :
    (S.received d rest g).Sound J := by
  have hd := h.toClient d
  rw [hqueue, List.forall_mem_cons] at hd
  refine ⟨h.messagesIn, h.toServer, fun c m hm => ?_⟩
  by_cases hc : c = d
  · subst hc
    exact hd.2 m (by simpa [System.received] using hm)
  · exact h.toClient c m (by simpa [System.received, hc] using hm)

/-- The message that an action of the server handles was queued. -/
theorem Sound.served (h : S.Sound J) {a : Action} {b : Server.Action}
    {queue : List (ℕ × Message)} (hb : S.serverAction a = some (b, queue)) :
    (∀ c msg timeNow, b = .onMessage c msg timeNow → msg.Sound J) ∧
      ∀ p ∈ queue, p.2.Sound J := by
  rcases serverAction_cases hb with
    ⟨_, rfl, rfl⟩ | ⟨d, _, rfl, rfl⟩ | ⟨d, now, _, rfl, rfl⟩ | ⟨now, d, m, _, rfl, hqueue⟩
  · exact ⟨fun c msg timeNow hb => (nomatch hb), h.messagesIn⟩
  · exact ⟨fun c msg timeNow hb => (nomatch hb), h.messagesIn⟩
  · exact ⟨fun c msg timeNow hb => (nomatch hb), h.messagesIn⟩
  · have hall := h.messagesIn
    rw [hqueue, List.forall_mem_cons] at hall
    refine ⟨fun c msg timeNow hb => ?_, hall.2⟩
    obtain ⟨rfl, rfl, rfl⟩ : d = c ∧ m = msg ∧ now = timeNow := by simpa using hb
    exact hall.1

/-- The documents of a step are read back. -/
def Action.ReadsBack (J : JsonText) : Action → Prop
  | .request _ r => r.ReadsBack J
  | _ => True

/-- The library can hold the document of a step, and its text fits in a
message. -/
def Action.Fits (Φ : Json.FloatText) : Action → Prop
  | .request _ (.updateGameState _ updates) =>
      Json.Serializer.Fits Φ updates ∧ (Json.compact Φ updates).length < 2 ^ 32
  | _ => True

theorem Action.Fits.readsBack {Φ : Json.FloatText} {a : Action} (h : a.Fits Φ) :
    a.ReadsBack (.nlohmann Φ) := by
  cases a with
  | request c r =>
      cases r with
      | updateGameState id updates => exact JsonText.readsBack_nlohmann h.1 h.2
      | pingServer timeNow | messageAll => trivial
  | connect | close c | tick c timeNow | arrive c | serve timeNow | receive c => trivial

theorem Sound.step {e : Event System Action (List Effect)} (h : (systemMachine K J).Takes e)
    (hact : e.act.ReadsBack J) (hsrc : e.src.Sound J) : e.dst.Sound J := by
  rcases takes_cases h with
    ⟨b, queue, hb, hserver, hdst⟩ | ⟨c, r, ha, hdst⟩ | ⟨c, msg, rest, _, hqueue, hdst⟩ |
      ⟨c, msg, rest, g, replies, _, hqueue, hhandle, hdst⟩
  · obtain ⟨hhandled, hrest⟩ := hsrc.served hb
    rw [hdst]
    refine ⟨hrest, hsrc.toServer, fun c m hm => ?_⟩
    simp only [System.served] at hm
    split at hm
    · rcases List.mem_append.mp hm with hm | hm
      · exact hsrc.toClient c m hm
      · exact Server.sound_step hserver hhandled (mem_sentTo.mp hm)
    · exact hsrc.toClient c m hm
  · rw [hdst]
    rw [ha] at hact
    refine hsrc.post c fun m hm => ?_
    rw [List.mem_singleton.mp hm]
    exact Request.sound_message hact
  · rw [hdst]
    exact hsrc.arrived hqueue
  · have hmsg : msg.Sound J := hsrc.toClient c msg (by simp [hqueue])
    rw [hdst, Client.replies_of_handleMessage hhandle]
    exact (hsrc.received hqueue g).post c (Client.sound_replies hmsg)

theorem Sound.run {T : System} (hS : S.Sound J) (h : (systemMachine K J).Run S tr T)
    (hdocs : ∀ e ∈ tr, e.act.ReadsBack J) : T.Sound J :=
  h.visited_invariant (g := fun _ a => a.ReadsBack J) hS hdocs
    (fun _ htakes hact hsrc => hsrc.step htakes hact) T h.end_mem_visited

/-! ### A run with the library -/

/-- The one conversion reads whatever the other reads. -/
def ReadsMore (J J' : JsonText) : Prop :=
  ∀ text v, J.parse text = some v → J'.parse text = some v

theorem onMessage_of_readsMore {J' : JsonText} (hJ : ReadsMore J J') {s : Server} {client : ℕ}
    {timeNow : Int64} {r : Server × List Effect}
    (h : s.onMessage J client msg timeNow = .ok r) :
    s.onMessage J' client msg timeNow = .ok r := by
  rw [Server.onMessage] at h ⊢
  split
  case h_4 htype =>
    rw [htype] at h
    obtain ⟨⟨left, newMsgAll, rcvBuf⟩, htext, hrest⟩ := bind_eq_ok.mp h
    cases hparse : J.parse rcvBuf with
    | none => simp [hparse] at hrest
    | some updates => simpa [htext, bind, Except.bind, hJ _ _ hparse, hparse] using hrest
  all_goals simpa [*] using h

theorem handleMessage_of_readsMore {J' : JsonText} (hJ : ReadsMore J J') {g : GameInstance}
    {r : GameInstance × List Message} (h : Client.handleMessage J g msg = .ok r) :
    Client.handleMessage J' g msg = .ok r := by
  rw [Client.handleMessage] at h ⊢
  split
  case h_6 htype =>
    rw [htype] at h
    obtain ⟨⟨left, rcvBuf⟩, htext, hrest⟩ := bind_eq_ok.mp h
    cases hparse : J.parse rcvBuf with
    | none => simp [hparse] at hrest
    | some updates => simpa [htext, bind, Except.bind, hJ _ _ hparse, hparse] using hrest
  all_goals simpa [*] using h

theorem takes_of_readsMore {J' : JsonText} (hJ : ReadsMore J J')
    {e : Event System Action (List Effect)} (h : (systemMachine K J).Takes e)
    (hrequest : ∀ c r, e.act = .request c r → r.message J' = r.message J) :
    (systemMachine K J').Takes e := by
  obtain ⟨S, a, effects, T⟩ := e
  obtain ⟨henabled, hstep⟩ := h
  refine ⟨henabled, ?_⟩
  have hserver {b : Server.Action} {r : Server × List Effect}
      (hb : (serverMachine K J).step S.server b = .ok r) :
      (serverMachine K J').step S.server b = .ok r := by
    cases b with
    | onMessage c msg timeNow => exact onMessage_of_readsMore hJ hb
    | accept | close c | tick c timeNow => exact hb
  cases a with
  | request c r =>
      simp only [systemMachine, hrequest c r rfl] at hstep ⊢
      exact hstep
  | arrive c => exact hstep
  | receive c =>
      simp only [systemMachine] at hstep ⊢
      split at hstep
      · rename_i msg rest hqueue
        obtain ⟨r, hhandle, hret⟩ := bind_eq_ok.mp hstep
        exact bind_eq_ok.mpr ⟨r, handleMessage_of_readsMore hJ hhandle, hret⟩
      · exact hstep
  | connect | close c | tick c timeNow | serve timeNow =>
      simp only [systemMachine] at hstep ⊢
      split at hstep
      · obtain ⟨r, hb, hret⟩ := bind_eq_ok.mp hstep
        exact bind_eq_ok.mpr ⟨r, hserver hb, hret⟩
      · exact hstep

theorem run_of_readsMore {J' : JsonText} {T : System} (hJ : ReadsMore J J')
    (h : (systemMachine K J).Run S tr T)
    (hrequest : ∀ e ∈ tr, ∀ c r, e.act = .request c r → r.message J' = r.message J) :
    (systemMachine K J').Run S tr T := by
  induction h with
  | nil => exact .nil
  | snoc _ htakes ih =>
      exact .snoc (ih fun e he => hrequest e (by simp [he]))
        (takes_of_readsMore hJ htakes (hrequest _ (by simp)))

theorem compact_gameState1 :
    Json.compact .twoAndAHalf .gameState1 = JsonText.gameState1.gameState1Text := by
  decide +kernel

theorem fits_gameState1 : Json.Serializer.Fits .twoAndAHalf .gameState1 :=
  fun _ => ⟨by norm_num, by norm_num⟩

theorem readsMore_gameState1 : ReadsMore .gameState1 (.nlohmann .twoAndAHalf) := by
  intro text v hparse
  obtain rfl := JsonText.gameState1_parse hparse
  obtain rfl : text = JsonText.gameState1.gameState1Text := by
    simp only [JsonText.gameState1, Option.ite_none_right_eq_some] at hparse
    exact hparse.1
  rw [← compact_gameState1]
  exact Json.parse_compact fits_gameState1

theorem fits_updateGameState1 (c : ℕ) (id : UInt16) :
    Action.Fits .twoAndAHalf (.request c (.updateGameState id .gameState1)) := by
  refine ⟨fits_gameState1, ?_⟩
  rw [compact_gameState1]
  decide

/-- A run on the one text is a run with the library. -/
theorem run_gameState1 {T : System} {acts : List Action}
    (h : (systemMachine K .gameState1).exec S acts = some (tr, T))
    (hacts : ∀ c r, .request c r ∈ acts → ∃ id, r = .updateGameState id .gameState1) :
    (systemMachine K (.nlohmann .twoAndAHalf)).Run S tr T ∧
      ∀ e ∈ tr, e.act.Fits .twoAndAHalf := by
  have hmem (e) (he : e ∈ tr) : e.act ∈ acts := by
    rw [← Machine.map_act_of_exec h]
    exact List.mem_map_of_mem he
  refine ⟨run_of_readsMore readsMore_gameState1 (Machine.run_of_exec h) fun e he c r hact => ?_,
    fun e he => ?_⟩
  · obtain ⟨id, rfl⟩ := hacts c r (hact ▸ hmem e he)
    exact congrArg (Client.updateGameState id) compact_gameState1
  · cases hact : e.act with
    | request c r =>
        obtain ⟨id, rfl⟩ := hacts c r (hact ▸ hmem e he)
        exact fits_updateGameState1 c id
    | connect | close c | tick c timeNow | arrive c | serve timeNow | receive c => trivial

end System

end AmongUs
