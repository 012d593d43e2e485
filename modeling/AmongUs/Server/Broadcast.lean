import AmongUs.Containers.NodeMap
import AmongUs.Server.State
import Mathlib.Data.List.Count

/-!
The loop of `MessageAllClients`, with its iterator.

The loop walks the hash map that it erases from. At a closed connection it
resets the pointer of the node, moves the iterator on and erases the node it
has left; at an open one it only moves on. So the nodes that it has passed
are the open ones of those that were there, in their order, and the ones to
come are untouched (`messageAllWhile_append`). With every connection stored
under its own identifier this is the recursion that the server machine uses
(`messageAllWhile_connections`).
-/

namespace AmongUs

open Networking

namespace Server

/-- `connectionsContainer`, from identifiers to pointers. -/
abbrev ConnectionMap := NodeMap ℕ (Option ℕ)

variable (isOpen : ℕ → Bool) (msg : Message) (pIgnoreClient : Option ℕ)

/-- The body of the loop: the container and the iterator after it, and what
was done. -/
def messageAllBody (connectionsContainer : ConnectionMap) (conn_it : ℕ) :
    Except Fault (ConnectionMap × Option ℕ × List Effect) :=
  match connectionsContainer.find? conn_it with
  | some (some conn) =>
      if isOpen conn then
        .ok (connectionsContainer, connectionsContainer.next conn_it,
          if some conn ≠ pIgnoreClient then [.send conn msg] else [])
      else
        let container := connectionsContainer.set conn_it none
        .ok (container.erase conn_it, container.next conn_it, [.onClientDisconnect conn])
  | _ => .error .nullPointer

/-- The loop, for at most so many rounds. -/
def messageAllWhile :
    ℕ → ConnectionMap → Option ℕ → Except Fault (Option (ConnectionMap × List Effect))
  | _, connectionsContainer, none => .ok (some (connectionsContainer, []))
  | 0, _, some _ => .ok none
  | rounds + 1, connectionsContainer, some conn_it => do
      let (container, it, effects) ←
        messageAllBody isOpen msg pIgnoreClient connectionsContainer conn_it
      let result ← messageAllWhile rounds container it
      return result.map fun r => (r.1, effects ++ r.2)

/-- What is done at a node. -/
def nodeEffects (e : ℕ × Option ℕ) : List Effect :=
  match e.2 with
  | some conn =>
      if isOpen conn then if some conn ≠ pIgnoreClient then [.send conn msg] else []
      else [.onClientDisconnect conn]
  | none => []

/-- The pointer is to an open connection. -/
def nodeOpen (e : ℕ × Option ℕ) : Bool := e.2.any isOpen

variable {isOpen msg pIgnoreClient} {m : ConnectionMap} {pre post : List (ℕ × Option ℕ)}

/-- One round. -/
theorem messageAllBody_append {k conn : ℕ} (h : m.entries = pre ++ (k, some conn) :: post) :
    ∃ m', messageAllBody isOpen msg pIgnoreClient m k =
        .ok (m', NodeMap.firstKey post, nodeEffects isOpen msg pIgnoreClient (k, some conn)) ∧
      m'.entries = pre ++ [(k, some conn)].filter (nodeOpen isOpen) ++ post := by
  unfold messageAllBody
  rw [NodeMap.find?_of_entries h]
  dsimp only
  by_cases hopen : isOpen conn
  · refine ⟨m, ?_, ?_⟩
    · rw [if_pos hopen, NodeMap.next_of_entries h]
      simp [nodeEffects, hopen]
    · simp [h, nodeOpen, hopen]
  · have hset := NodeMap.entries_set h none
    refine ⟨(m.set k none).erase k, ?_, ?_⟩
    · rw [if_neg hopen, NodeMap.next_of_entries hset]
      simp [nodeEffects, hopen]
    · rw [NodeMap.entries_erase hset]
      simp [nodeOpen, hopen]

variable (isOpen msg pIgnoreClient) in
/-- The rest of the loop, from a node on. -/
theorem messageAllWhile_append {rounds : ℕ} (h : m.entries = pre ++ post)
    (hnull : ∀ e ∈ post, e.2 ≠ none) (hrounds : post.length ≤ rounds) :
    ∃ m', messageAllWhile isOpen msg pIgnoreClient rounds m (NodeMap.firstKey post) =
        .ok (some (m', post.flatMap (nodeEffects isOpen msg pIgnoreClient))) ∧
      m'.entries = pre ++ post.filter (nodeOpen isOpen) := by
  induction post generalizing m pre rounds with
  | nil => exact ⟨m, by cases rounds <;> rfl, by simpa using h⟩
  | cons e post ih =>
      obtain ⟨k, value⟩ := e
      obtain ⟨hfirst, hrest⟩ := List.forall_mem_cons.mp hnull
      obtain ⟨conn, rfl⟩ := Option.ne_none_iff_exists'.mp hfirst
      obtain ⟨rounds, rfl⟩ : ∃ n, rounds = n + 1 :=
        Nat.exists_eq_succ_of_ne_zero (Nat.ne_of_gt (Nat.lt_of_lt_of_le (Nat.succ_pos _) hrounds))
      obtain ⟨m₁, hbody, hentries⟩ := messageAllBody_append h
      obtain ⟨m', hwhile, hentries'⟩ := ih hentries hrest (Nat.le_of_succ_le_succ hrounds)
      refine ⟨m', ?_, ?_⟩
      · show messageAllWhile isOpen msg pIgnoreClient (rounds + 1) m (some k) = _
        rw [messageAllWhile, hbody]
        simp only [bind, Except.bind, hwhile, pure, Except.pure, Option.map_some,
          List.flatMap_cons]
      · rw [hentries', List.append_assoc, ← List.filter_append]
        rfl

/-- The map in which every connection is under its own identifier. -/
def Connections.toMap (cs : Connections) : ConnectionMap where
  entries := cs.ids.map fun c => (c, some c)
  nodup := by
    rw [List.map_map]
    exact (List.map_id cs.ids).symm ▸ cs.nodup

theorem messageAllLoop_snd (ids : List ℕ) :
    (messageAllLoop isOpen msg pIgnoreClient ids).2 =
      (ids.map fun c => (c, some c)).flatMap (nodeEffects isOpen msg pIgnoreClient) := by
  induction ids with
  | nil => rfl
  | cons conn rest ih =>
      rw [List.map_cons, List.flatMap_cons, ← ih]
      by_cases hopen : isOpen conn
      · by_cases hignore : some conn = pIgnoreClient
        · simp [messageAllLoop, nodeEffects, hopen, hignore]
        · simp [messageAllLoop, nodeEffects, hopen, hignore]
      · simp [messageAllLoop, nodeEffects, hopen]

/-- On the connections of the server the loop does what `messageAllClients`
does. -/
theorem messageAllWhile_connections (s : Server) (msg : Message) (ignoreClient : Option ℕ) :
    messageAllWhile s.isOpen msg ignoreClient s.connectionsContainer.ids.length
        (Connections.toMap s.connectionsContainer)
        (Connections.toMap s.connectionsContainer).begin =
      .ok (some (Connections.toMap (s.messageAllClients msg ignoreClient).1.connectionsContainer,
        (s.messageAllClients msg ignoreClient).2)) := by
  have hentries : (Connections.toMap s.connectionsContainer).entries =
      s.connectionsContainer.ids.map fun c => (c, some c) := rfl
  obtain ⟨m', hwhile, hm'⟩ := messageAllWhile_append s.isOpen msg ignoreClient
    (hentries.trans (List.nil_append _).symm) (by simp) (by rw [List.length_map])
  rw [NodeMap.begin, hentries, hwhile]
  have hmap :
      m' = Connections.toMap (s.messageAllClients msg ignoreClient).1.connectionsContainer := by
    apply NodeMap.ext
    rw [hm', List.nil_append, List.filter_map]
    exact congrArg (List.map _) (messageAllLoop_fst s.isOpen msg ignoreClient _).symm
  rw [hmap]
  exact congrArg (fun effects => Except.ok (some (_, effects)))
    (messageAllLoop_snd s.connectionsContainer.ids).symm

/-! ### What is done in all -/

/-- How many nodes hold a pointer to a connection. -/
def holders (m : ConnectionMap) (conn : ℕ) : ℕ := m.entries.countP fun e => e.2 = some conn

theorem mem_nodeEffects {e : ℕ × Option ℕ} {effect : Effect}
    (h : effect ∈ nodeEffects isOpen msg pIgnoreClient e) :
    ∃ conn, e.2 = some conn ∧ (effect = .send conn msg ∨ effect = .onClientDisconnect conn) := by
  unfold nodeEffects at h
  split at h
  · next conn hconn =>
      split_ifs at h
      · exact ⟨conn, hconn, Or.inl (List.mem_singleton.mp h)⟩
      · exact absurd h List.not_mem_nil
      · exact ⟨conn, hconn, Or.inr (List.mem_singleton.mp h)⟩
  · exact absurd h List.not_mem_nil

/-- At the node of another connection nothing is done to this one. -/
theorem count_nodeEffects_of_ne {e : ℕ × Option ℕ} {conn : ℕ} (h : e.2 ≠ some conn) :
    (nodeEffects isOpen msg pIgnoreClient e).count (.send conn msg) = 0 ∧
      (nodeEffects isOpen msg pIgnoreClient e).count (.onClientDisconnect conn) = 0 := by
  constructor
  · refine List.count_eq_zero.mpr fun hmem => ?_
    obtain ⟨c, hc, heq | heq⟩ := mem_nodeEffects hmem
    · exact h (hc.trans (congrArg some (Effect.send.inj heq).1.symm))
    · cases heq
  · refine List.count_eq_zero.mpr fun hmem => ?_
    obtain ⟨c, hc, heq | heq⟩ := mem_nodeEffects hmem
    · cases heq
    · exact h (hc.trans (congrArg some (Effect.onClientDisconnect.inj heq).symm))

/-- An effect that every node of a connection has so often, and no other
node has. -/
theorem count_nodes {effect : Effect} {conn n : ℕ} (nodes : List (ℕ × Option ℕ))
    (hown : ∀ k, (nodeEffects isOpen msg pIgnoreClient (k, some conn)).count effect = n)
    (hother : ∀ e : ℕ × Option ℕ, e.2 ≠ some conn →
      (nodeEffects isOpen msg pIgnoreClient e).count effect = 0) :
    (nodes.flatMap (nodeEffects isOpen msg pIgnoreClient)).count effect =
      (nodes.countP fun e => e.2 = some conn) * n := by
  induction nodes with
  | nil => exact (Nat.zero_mul n).symm
  | cons e nodes ih =>
      obtain ⟨k, value⟩ := e
      rw [List.flatMap_cons, List.count_append, ih, List.countP_cons]
      by_cases hvalue : value = some conn
      · subst hvalue
        rw [hown k, if_pos (decide_eq_true rfl), Nat.succ_mul, Nat.add_comm]
      · rw [hother (k, value) hvalue, if_neg (by simpa using hvalue), Nat.zero_add, Nat.add_zero]

theorem count_send (nodes : List (ℕ × Option ℕ)) (conn : ℕ) :
    (nodes.flatMap (nodeEffects isOpen msg pIgnoreClient)).count (.send conn msg) =
      if isOpen conn = true ∧ some conn ≠ pIgnoreClient then
        nodes.countP fun e => e.2 = some conn
      else 0 := by
  have hown (k : ℕ) : (nodeEffects isOpen msg pIgnoreClient (k, some conn)).count
      (.send conn msg) = if isOpen conn = true ∧ some conn ≠ pIgnoreClient then 1 else 0 := by
    by_cases hopen : isOpen conn
    · by_cases hignore : some conn = pIgnoreClient
      · simp [nodeEffects, hopen, hignore]
      · simp [nodeEffects, hopen, hignore]
    · simp [nodeEffects, hopen]
  rw [count_nodes nodes hown fun e he => (count_nodeEffects_of_ne he).1, mul_ite, mul_one,
    mul_zero]

theorem count_onClientDisconnect (nodes : List (ℕ × Option ℕ)) (conn : ℕ) :
    (nodes.flatMap (nodeEffects isOpen msg pIgnoreClient)).count (.onClientDisconnect conn) =
      if isOpen conn = true then 0 else nodes.countP fun e => e.2 = some conn := by
  have hown (k : ℕ) : (nodeEffects isOpen msg pIgnoreClient (k, some conn)).count
      (.onClientDisconnect conn) = if isOpen conn = true then 0 else 1 := by
    by_cases hopen : isOpen conn
    · simp only [nodeEffects, hopen, if_true]
      split <;> simp
    · simp [nodeEffects, hopen]
  rw [count_nodes nodes hown fun e he => (count_nodeEffects_of_ne he).2, mul_ite, mul_one,
    mul_zero]

theorem holders_eq_one (h : (m.entries.map Prod.snd).Nodup) {k conn : ℕ}
    (hmem : (k, some conn) ∈ m.entries) : holders m conn = 1 := by
  have hcount : holders m conn = (m.entries.map Prod.snd).count (some conn) := by
    rw [holders, List.count, List.countP_map]
    exact List.countP_congr fun e _ => by simp
  rw [hcount]
  exact List.count_eq_one_of_mem h (List.mem_map_of_mem hmem)

/-- The broadcast ends. It posts the message on each open connection other
than the ignored one, and reports each closed one, once for each node that
holds it, and does nothing else; and it leaves the open nodes. -/
theorem broadcast_prune (m : ConnectionMap) (isOpen : ℕ → Bool) (msg : Message)
    (pIgnoreClient : Option ℕ) (hnull : ∀ e ∈ m.entries, e.2 ≠ none) :
    ∃ m' effects,
      (∀ rounds, m.entries.length ≤ rounds →
        messageAllWhile isOpen msg pIgnoreClient rounds m m.begin = .ok (some (m', effects))) ∧
      m'.entries = m.entries.filter (nodeOpen isOpen) ∧
      (∀ conn, effects.count (.send conn msg) =
        if isOpen conn = true ∧ some conn ≠ pIgnoreClient then holders m conn else 0) ∧
      (∀ conn, effects.count (.onClientDisconnect conn) =
        if isOpen conn = true then 0 else holders m conn) ∧
      (∀ effect ∈ effects,
        ∃ conn, effect = .send conn msg ∨ effect = .onClientDisconnect conn) ∧
      ((m.entries.map Prod.snd).Nodup → ∀ k conn, (k, some conn) ∈ m.entries →
        holders m conn = 1) := by
  have hstart : m.entries = [] ++ m.entries := (List.nil_append _).symm
  obtain ⟨m', -, hentries⟩ :=
    messageAllWhile_append isOpen msg pIgnoreClient hstart hnull le_rfl
  refine ⟨m', m.entries.flatMap (nodeEffects isOpen msg pIgnoreClient), ?_, hentries, ?_, ?_, ?_,
    fun hnodup k conn => holders_eq_one hnodup⟩
  · intro rounds hrounds
    obtain ⟨m'', hwhile, hentries'⟩ :=
      messageAllWhile_append isOpen msg pIgnoreClient hstart hnull hrounds
    obtain rfl : m'' = m' := NodeMap.ext (hentries'.trans hentries.symm)
    exact hwhile
  · exact count_send m.entries
  · exact count_onClientDisconnect m.entries
  · intro effect heffect
    obtain ⟨e, -, he⟩ := List.mem_flatMap.mp heffect
    obtain ⟨conn, -, heq⟩ := mem_nodeEffects he
    exact ⟨conn, heq⟩

/-- Two closed connections around an open one. -/
def threeConnections : ConnectionMap where
  entries := [(10001, some 10001), (10002, some 10002), (10003, some 10003)]
  nodup := by decide

theorem broadcast_prune_three : ∃ m' effects,
    messageAllWhile (fun c => c == 10002) {} (some 10003) 3 threeConnections
      threeConnections.begin = .ok (some (m', effects)) ∧
    m'.entries = [(10002, some 10002)] ∧ effects.count (.onClientDisconnect 10003) = 1 := by
  obtain ⟨m', effects, hwhile, hentries, -, hcount, -, hone⟩ :=
    broadcast_prune threeConnections (fun c => c == 10002) {} (some 10003) (by decide)
  refine ⟨m', effects, hwhile 3 le_rfl, hentries, ?_⟩
  rw [hcount, hone (by decide) 10003 10003 (by decide)]
  rfl

end Server

end AmongUs
