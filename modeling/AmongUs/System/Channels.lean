import AmongUs.System.Machine

/-!
What a client and the server post to each other, and what they handle of it.

Either direction is a queue. A client handles the messages that the server
posted while its socket was open, in the order of the posts, and what it has
not handled is on its way (`run_toClient`). The server handles the messages
of each client in the order in which the client posted them, whatever other
clients send in between (`run_toServer`). A client posts what it requests,
and what it answers to the messages it handles (`answer_of_answers`).
-/

namespace AmongUs.System

open Networking Transition

variable {K : Constants} {J : JsonText} {S : System} {e : Event System Action (List Effect)}
  {tr : List (Event System Action (List Effect))}

/-- What a step of the server posts to a client whose socket is open. -/
def posts (c : ℕ) (e : Event System Action (List Effect)) : List Message :=
  if e.dst.server.isOpen c then sentTo c e.out else []

/-- What a client handles in a step. -/
def taken (c : ℕ) (e : Event System Action (List Effect)) : List Message :=
  match e.act with
  | .receive d => if d = c then (e.src.toClient c).head?.toList else []
  | _ => []

/-- What a client posts in a step. -/
def answers (J : JsonText) (c : ℕ) (e : Event System Action (List Effect)) : List Message :=
  match e.act with
  | .request d r => if d = c then [r.message J] else []
  | _ => (taken c e).flatMap Client.replies

/-- The message that `OnMessage` is called with, and its sender. -/
def servedMessage (e : Event System Action (List Effect)) : Option (ℕ × Message) :=
  match e.act with
  | .serve _ => e.src.messagesIn.head?
  | _ => none

/-- What the server handles of a client in a step. -/
def handled (c : ℕ) (e : Event System Action (List Effect)) : List Message :=
  ((servedMessage e).toList.filter fun p => p.1 = c).map Prod.snd

/-- What a client has posted and the server has not handled. -/
def pending (c : ℕ) (S : System) : List Message :=
  (S.messagesIn.filter fun p => p.1 = c).map Prod.snd ++ S.toServer c

/-- Only the server has effects. -/
theorem posts_eq_nil (h : (systemMachine K J).Takes e) (hb : e.src.serverAction e.act = none)
    (c : ℕ) : posts c e = [] := by
  rw [posts, (takes_elsewhere h hb).1]
  exact ite_self _

/-! ### To the client -/

theorem toClient_step (h : (systemMachine K J).Takes e) (c : ℕ) :
    taken c e ++ e.dst.toClient c = e.src.toClient c ++ posts c e := by
  rcases takes_cases h with
    ⟨b, queue, hb, _, hdst⟩ | ⟨d, r, hact, hdst⟩ | ⟨d, msg, rest, hact, _, hdst⟩ |
      ⟨d, msg, rest, g, replies, hact, hqueue, _, hdst⟩
  · have htaken : taken c e = [] := by
      rcases serverAction_cases hb with
        ⟨hact, _⟩ | ⟨_, hact, _⟩ | ⟨_, _, hact, _⟩ | ⟨_, _, _, hact, _⟩ <;> simp [taken, hact]
    have hchan : e.dst.toClient c = if e.dst.server.isOpen c then
        e.src.toClient c ++ sentTo c e.out else e.src.toClient c := by
      conv_lhs => rw [hdst]
      rfl
    rw [htaken, hchan, posts]
    split <;> simp
  all_goals
    rw [posts_eq_nil h (by rw [hact]; rfl), taken, hact, hdst]
  · simp [System.post]
  · simp [System.arrived]
  · by_cases hd : d = c
    · subst hd
      simp [System.post, System.received, hqueue]
    · simp [System.post, System.received, hd, Ne.symm hd]

/-- **Down the connection.** A client has handled, in order, what was
posted to it, but for what is on its way. -/
theorem run_toClient (h : (systemMachine K J).Run initial tr S) (c : ℕ) :
    tr.flatMap (taken c) ++ S.toClient c = tr.flatMap (posts c) := by
  simpa [initial] using h.queue (q := fun S => S.toClient c) fun e he => toClient_step he c

/-! ### To the server -/

theorem pending_step (h : (systemMachine K J).Takes e) (c : ℕ) :
    handled c e ++ pending c e.dst = pending c e.src ++ answers J c e := by
  rcases takes_cases h with
    ⟨b, queue, hb, _, hdst⟩ | ⟨d, r, hact, hdst⟩ | ⟨d, msg, rest, hact, hqueue, hdst⟩ |
      ⟨d, msg, rest, g, replies, hact, hqueue, hhandle, hdst⟩
  · have hqueue : e.dst.messagesIn = queue := by rw [hdst]; rfl
    have hsame : e.dst.toServer = e.src.toServer := by rw [hdst]; rfl
    rw [pending, pending, hqueue, hsame]
    rcases serverAction_cases hb with
      ⟨hact, _, hq⟩ | ⟨_, hact, _, hq⟩ | ⟨_, _, hact, _, hq⟩ | ⟨_, d, msg, hact, _, hq⟩
    · simp [handled, servedMessage, answers, taken, hact, hq]
    · simp [handled, servedMessage, answers, taken, hact, hq]
    · simp [handled, servedMessage, answers, taken, hact, hq]
    · by_cases hd : d = c
      · simp [handled, servedMessage, answers, taken, hact, hq, hd]
      · simp [handled, servedMessage, answers, taken, hact, hq, hd]
  · rw [hdst]
    by_cases hd : d = c
    · subst hd
      simp [handled, servedMessage, answers, hact, pending, System.post]
    · simp [handled, servedMessage, answers, hact, pending, System.post, hd, Ne.symm hd]
  · rw [hdst]
    by_cases hd : d = c
    · subst hd
      simp [handled, servedMessage, answers, taken, hact, pending, System.arrived, hqueue]
    · simp [handled, servedMessage, answers, taken, hact, pending, System.arrived, hd,
        Ne.symm hd]
  · rw [hdst, Client.replies_of_handleMessage hhandle]
    by_cases hd : d = c
    · subst hd
      simp [handled, servedMessage, answers, taken, hact, pending, System.post,
        System.received, hqueue]
    · simp [handled, servedMessage, answers, taken, hact, pending, System.post,
        System.received, hd, Ne.symm hd]

/-- **Up the connection.** The server has handled, in order, what a client
has posted, but for what is on its way. -/
theorem run_toServer (h : (systemMachine K J).Run initial tr S) (c : ℕ) :
    tr.flatMap (handled c) ++ pending c S = tr.flatMap (answers J c) := by
  simpa [initial, pending] using h.queue (q := pending c) fun e he => pending_step he c

/-- A message that a client posts is a request of its own or an answer. -/
theorem answer_of_answers {c : ℕ} {m : Message} (h : m ∈ answers J c e) :
    (∃ r, e.act = .request c r ∧ m = r.message J) ∨
      ∃ msg ∈ taken c e, m ∈ Client.replies msg := by
  rw [answers] at h
  split at h
  · rename_i d r hact
    split at h
    · rename_i hd
      exact Or.inl ⟨r, by rw [hact, hd], List.mem_singleton.mp h⟩
    · simp at h
  · exact Or.inr (by simpa using h)

/-- What the server has handled was posted before. -/
theorem mem_answers_of_handled (h : (systemMachine K J).Run initial tr S) {c : ℕ} {m : Message}
    (hm : m ∈ tr.flatMap (handled c)) : m ∈ tr.flatMap (answers J c) := by
  rw [← run_toServer h c]
  exact List.mem_append_left _ hm

end AmongUs.System
