import AmongUs.Server.Broadcast

/-!
A message to one client, and the same message to each client in turn.

Where `MessageAllClients` erases a closed connection through its iterator,
`MessageClient` erases it by its identifier, and it asks for the identifier
after it has reset the pointer. So it ends at the first closed connection,
which is still in the container then, and the two ways to reach every client
agree only where there is none (`messageClients_agree_iff`).
-/

namespace AmongUs

open Networking

namespace Server

/-- `client->GetID()`. -/
def getID : Option ℕ → Except Fault ℕ
  | some conn => .ok conn
  | none => .error .nullPointer

/-- `MessageClient`; the pointer is passed by value. -/
def messageClient (isOpen : ℕ → Bool) (msg : Message) (connectionsContainer : ConnectionMap)
    (client : Option ℕ) : Except Fault (ConnectionMap × List Effect) :=
  if client.any isOpen then
    .ok (connectionsContainer, client.toList.map fun conn => .send conn msg)
  else do
    let effects := client.toList.map .onClientDisconnect
    -- The pointer is reset first.
    let client := none
    let id ← getID client
    return (connectionsContainer.erase id, effects)

/-- `MessageClient` for each client of a list. -/
def messageClients (isOpen : ℕ → Bool) (msg : Message) :
    ConnectionMap → List (Option ℕ) → Except Fault (ConnectionMap × List Effect)
  | connectionsContainer, [] => .ok (connectionsContainer, [])
  | connectionsContainer, client :: clients => do
      let (container, effects) ← messageClient isOpen msg connectionsContainer client
      let (container, more) ← messageClients isOpen msg container clients
      return (container, effects ++ more)

/-- What is asked of the calls for the clients of a list: they return, and
they do what one `MessageAllClients` does, up to the order. -/
def AgreesWithBroadcast (isOpen : ℕ → Bool) (msg : Message) (connectionsContainer : ConnectionMap)
    (clients : List (Option ℕ)) : Prop :=
  ∃ container effects effects',
    messageClients isOpen msg connectionsContainer clients = .ok (container, effects) ∧
    messageAllWhile isOpen msg none connectionsContainer.entries.length connectionsContainer
      connectionsContainer.begin = .ok (some (container, effects')) ∧
    effects.Perm effects'

variable {isOpen : ℕ → Bool} {msg : Message} {m : ConnectionMap} {clients : List (Option ℕ)}

/-- What `MessageClient` posts. -/
def posted (msg : Message) (client : Option ℕ) : List Effect :=
  client.toList.map fun conn => .send conn msg

theorem messageClient_open {client : Option ℕ} (h : client.any isOpen = true) :
    messageClient isOpen msg m client = .ok (m, posted msg client) := if_pos h

/-- A closed connection, or none at all. -/
theorem messageClient_closed {client : Option ℕ} (h : ¬client.any isOpen = true) :
    messageClient isOpen msg m client = .error .nullPointer := if_neg h

theorem messageClients_open (h : ∀ client ∈ clients, client.any isOpen = true) :
    messageClients isOpen msg m clients = .ok (m, clients.flatMap (posted msg)) := by
  induction clients with
  | nil => rfl
  | cons client clients ih =>
      obtain ⟨hclient, hrest⟩ := List.forall_mem_cons.mp h
      rw [messageClients, messageClient_open hclient]
      simp only [bind, Except.bind, ih hrest, pure, Except.pure, List.flatMap_cons]

/-- The first closed connection is the end, whatever was posted before. -/
theorem messageClients_closed {client : Option ℕ} (hmem : client ∈ clients)
    (h : ¬client.any isOpen = true) :
    messageClients isOpen msg m clients = .error .nullPointer := by
  induction clients with
  | nil => cases hmem
  | cons first clients ih =>
      rw [messageClients]
      by_cases hfirst : first.any isOpen = true
      · have hne : client ≠ first := fun heq => h (heq ▸ hfirst)
        rw [messageClient_open hfirst]
        simp only [bind, Except.bind, ih ((List.mem_cons.mp hmem).resolve_left hne)]
      · rw [messageClient_closed hfirst]
        rfl

/-- At an open connection `MessageAllClients` does the same. -/
theorem nodeEffects_open {e : ℕ × Option ℕ} (h : nodeOpen isOpen e = true) :
    nodeEffects isOpen msg none e = posted msg e.2 := by
  obtain ⟨k, value⟩ := e
  cases value with
  | none => cases h
  | some conn =>
      have hopen : isOpen conn = true := h
      simp [nodeEffects, posted, hopen]

/-- **Single sends and the broadcast.** The calls of `MessageClient` for all
clients, in any order, agree with `MessageAllClients` if and only if every
connection in the container is open. -/
theorem messageClients_agree_iff (isOpen : ℕ → Bool) (msg : Message) (m : ConnectionMap)
    (hnull : ∀ e ∈ m.entries, e.2 ≠ none) {clients : List (Option ℕ)}
    (hclients : clients.Perm (m.entries.map Prod.snd)) :
    AgreesWithBroadcast isOpen msg m clients ↔ ∀ e ∈ m.entries, nodeOpen isOpen e = true := by
  constructor
  · rintro ⟨container, effects, -, hcalls, -, -⟩ e he
    by_contra hclosed
    have hmem : e.2 ∈ clients := hclients.mem_iff.mpr (List.mem_map_of_mem he)
    rw [messageClients_closed hmem hclosed] at hcalls
    cases hcalls
  · intro hopen
    have hclient : ∀ client ∈ clients, client.any isOpen = true := by
      intro client hmem
      obtain ⟨e, he, rfl⟩ := List.mem_map.mp (hclients.mem_iff.mp hmem)
      exact hopen e he
    obtain ⟨m', hwhile, hentries⟩ := messageAllWhile_append isOpen msg none
      (List.nil_append m.entries).symm hnull le_rfl
    rw [List.nil_append, List.filter_eq_self.mpr hopen] at hentries
    obtain rfl : m' = m := NodeMap.ext hentries
    refine ⟨m', _, _, messageClients_open hclient, hwhile, ?_⟩
    have heffects : m'.entries.flatMap (nodeEffects isOpen msg none) =
        (m'.entries.map Prod.snd).flatMap (posted msg) := by
      rw [List.flatMap_map]
      exact List.flatMap_congr fun e he => nodeEffects_open (hopen e he)
    rw [heffects]
    exact hclients.flatMap_right (posted msg)

/-- Three open connections, the last one first. -/
theorem messageClients_agree_iff_three :
    AgreesWithBroadcast (fun _ => true) {} threeConnections [some 10003, some 10001, some 10002] :=
  (messageClients_agree_iff (fun _ => true) {} threeConnections (by decide) (by decide)).mpr
    (by decide)

/-- One of the three is closed. -/
theorem messageClients_disagree :
    ¬∀ (isOpen : ℕ → Bool) (msg : Message) (m : ConnectionMap) (clients : List (Option ℕ)),
      (∀ e ∈ m.entries, e.2 ≠ none) → clients.Perm (m.entries.map Prod.snd) →
        AgreesWithBroadcast isOpen msg m clients := by
  intro hall
  obtain ⟨container, effects, -, hcalls, -, -⟩ := hall (fun c => c != 10002) {} threeConnections
    [some 10001, some 10002, some 10003] (by decide) (by decide)
  have hmem : some 10002 ∈ [some 10001, some 10002, some 10003] := by decide
  rw [messageClients_closed hmem (by decide)] at hcalls
  cases hcalls

end Server

end AmongUs
