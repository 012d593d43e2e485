import AmongUs.Server.Standing
import AmongUs.Transition.UniqueLock

/-!
The lock around `clientStatus`.

The thread of the timers runs the ticks, the main thread runs `OnMessage`,
and the thread of the sockets accepts and closes; the first two use the one
object `clientStatusLock`. A tick reads the status and the count, and a
`ClientPing` computes its duration, before the lock; what is left to do
under the lock is a `Section`. Preparing a request and running its section
at once is the step of `serverMachine` (`step_eq`).
-/

namespace AmongUs

open Networking Transition

inductive Thread
  | timers
  | main
  | sockets
  deriving DecidableEq

/-- What is done between `clientStatusLock.lock()` and `unlock()`. -/
inductive Section
  | switch (client : ℕ) (status : ConnectionStatus) (count : ℕ) (timeNow : Int64)
  | answered (client : ℕ) (dur : Option Int64)

namespace Server

def Action.thread : Action → Thread
  | .accept => .sockets
  | .close _ => .sockets
  | .onMessage _ _ _ => .main
  | .tick _ _ => .timers

/-- A request up to `clientStatusLock.lock()`, or to its end where it does
not take the lock. -/
def prepare (K : Constants) (J : JsonText) (s : Server) (a : Action) :
    Except Fault (Server × List Effect × Option Section) :=
  let unlocked := do
    let (s, effects) ← (serverMachine K J).step s a
    return (s, effects, none)
  match a with
  | .tick client timeNow => do
      -- Both reads come before `lock()`.
      let s := s.expire client
      let (status, count) ← s.readStatus client
      return (s, [], some (.switch client status count timeNow))
  | .onMessage client msg timeNow =>
      match msg.header.type with
      | .clientPing => do
          let (timeThen, _) ← msg.pop 8
          let dur := timeNow - timePointOfBytes timeThen
          return (s, [], some (.answered client (some dur)))
      | .clientAccept => return (s, [], some (.answered client none))
      | _ => unlocked
  | .accept => unlocked
  | .close _ => unlocked

def underLock (K : Constants) (s : Server) : Section → Except Fault (Server × List Effect)
  | .switch client status count timeNow => s.lockedSwitch K client status count timeNow
  | .answered client dur => .ok (s.answered client dur, [])

end Server

/-- Each thread starts the requests that are its own. -/
def statusProgram (K : Constants) (J : JsonText) :
    Program Thread Server.Action Section Server (List Effect) Fault where
  offers s i a := decide (a.thread = i) && (serverMachine K J).enabled s a
  prepare := Server.prepare K J
  underLock := Server.underLock K

def statusLockMachine (K : Constants) (J : JsonText) := UniqueLock.machine (statusProgram K J)

namespace Server

variable {K : Constants} {J : JsonText}

/-- Without a section there is nothing left to do. -/
theorem bind_unlocked (x : Except Fault (Server × List Effect)) :
    ((do
        let (s, effects) ← x
        return (s, effects, none)) >>= (statusProgram K J).finish) = x := by
  cases x with
  | error fault => rfl
  | ok r => rfl

/-- A step of the server is its preparation and its section. -/
theorem step_eq (s : Server) (a : Action) :
    (serverMachine K J).step s a = (s.prepare K J a >>= (statusProgram K J).finish) := by
  cases a with
  | accept => exact (bind_unlocked _).symm
  | close c => exact (bind_unlocked _).symm
  | tick c timeNow =>
      change (s.expire c).checkClientConnStatus K c timeNow = _
      rw [checkClientConnStatus, prepare]
      cases (s.expire c).readStatus c with
      | error fault => rfl
      | ok r => rfl
  | onMessage c msg timeNow =>
      change s.onMessage J c msg timeNow = _
      simp only [prepare]
      split
      · rename_i htype
        rw [onMessage, htype]
        cases msg.pop 8 with
        | error fault => rfl
        | ok r => rfl
      · rename_i htype
        rw [onMessage, htype]
        rfl
      · exact (bind_unlocked _).symm

/-- **The status lock.** No call of `clientStatusLock` throws, and the
threads are never in their sections at once, exactly in the runs in which
`lock()` is never called while a thread is in its section. -/
theorem statusLock_iff {tr t}
    (h : (statusLockMachine K J).Run { data := initial } tr t) :
    ((∀ e ∈ tr, e.out ≠ .threw) ∧
      ∀ s ∈ Machine.visited { data := initial } tr, ∀ i j,
        (s.point i).critical = true → (s.point j).critical = true → i = j) ↔
      ∀ e ∈ tr, ∀ i, e.act = .lock i → ∀ j, (e.src.point j).critical = false := by
  constructor
  · exact fun hsafe => (UniqueLock.throws_iff h).mp hsafe.1
  · intro hfree
    refine ⟨(UniqueLock.throws_iff h).mpr hfree, fun s hs i j hi hj => ?_⟩
    obtain ⟨pre, _, _, hpre, _⟩ := h.of_mem_visited hs
    exact UniqueLock.exclusive hpre hi hj

/-- A tick, and after it the answer of the client. -/
theorem statusLock_iff_turns :
    ∃ tr t, (statusLockMachine constants .gameState1).Run { data := initial } tr t ∧
      t.data.statusOf 10001 = some .live ∧ ∀ e ∈ tr, e.out ≠ .threw := by
  have hexec : (((statusLockMachine constants .gameState1).exec { data := initial }
      [.start .sockets .accept, .start .timers (.tick 10001 0), .lock .timers,
        .acquire .timers, .run .timers, .unlock .timers,
        .start .main (.onMessage 10001 { header := { type := .clientAccept } } 0),
        .lock .main, .acquire .main, .run .main, .unlock .main]).map fun r =>
      (r.1.all fun e => match e.act with
        | .lock _ => !((e.src.point .timers).critical || (e.src.point .main).critical ||
            (e.src.point .sockets).critical)
        | _ => true, r.2.data.statusOf 10001)) = some (true, some .live) := by
    decide +kernel
  obtain ⟨⟨tr, t⟩, hrun, hview⟩ := Option.map_eq_some_iff.mp hexec
  obtain ⟨hfree, hlive⟩ := Prod.mk.inj hview
  have h := Machine.run_of_exec hrun
  refine ⟨tr, t, h, hlive, ((statusLock_iff h).mpr fun e he i hact j => ?_).1⟩
  have hpoints := List.all_eq_true.mp hfree e he
  simp only [hact, Bool.not_eq_true', Bool.or_eq_false_iff] at hpoints
  cases j with
  | timers => exact hpoints.1.1
  | main => exact hpoints.1.2
  | sockets => exact hpoints.2

/-- The main thread calls `lock()` while a tick is in its section. -/
theorem overlap_throws :
    ¬∀ tr t, (statusLockMachine constants .gameState1).Run { data := initial } tr t →
      (∀ e ∈ tr, e.out ≠ .threw) ∧
        ∀ s ∈ Machine.visited { data := initial } tr, ∀ i j,
          (s.point i).critical = true → (s.point j).critical = true → i = j := by
  intro hall
  have hexec : (((statusLockMachine constants .gameState1).exec { data := initial }
      [.start .sockets .accept, .start .timers (.tick 10001 0), .lock .timers,
        .acquire .timers,
        .start .main (.onMessage 10001 { header := { type := .clientAccept } } 0),
        .lock .main]).map fun r =>
      r.1.any fun e => match e.out with
        | .threw => true
        | _ => false) = some true := by
    decide +kernel
  obtain ⟨⟨tr, t⟩, hrun, hthrew⟩ := Option.map_eq_some_iff.mp hexec
  obtain ⟨e, he, hout⟩ := List.any_eq_true.mp hthrew
  have hquiet := (hall tr t (Machine.run_of_exec hrun)).1 e he
  cases hcase : e.out with
  | threw => exact hquiet hcase
  | did w => simp [hcase] at hout
  | quiet => simp [hcase] at hout

/-! ### One request after the other -/

/-- A step of the server, taken by its thread from the call to the end. -/
theorem step_locked {e : Event Server Action (List Effect)}
    (h : (serverMachine K J).Takes e) :
    ∃ tr, (statusLockMachine K J).Run { data := e.src } tr { data := e.dst } := by
  obtain ⟨s, a, effects, s'⟩ := e
  obtain ⟨henabled, hstep⟩ := h
  simp only [step_eq] at hstep
  obtain ⟨⟨s₁, effects₁, todo⟩, hprepare, hrest⟩ := bind_eq_ok.mp hstep
  have hoffers : (statusProgram K J).offers s a.thread a = true := by
    have hen : (serverMachine K J).enabled s a = true := henabled
    simp [statusProgram, hen]
  exact UniqueLock.run_alone hoffers hprepare hrest

/-- **Refinement.** The runs of the server are runs under the lock in which
no two requests overlap. -/
theorem run_locked {s t : Server} {tr : List (Event Server Action (List Effect))}
    (h : (serverMachine K J).Run s tr t) :
    ∃ tr', (statusLockMachine K J).Run { data := s } tr' { data := t } :=
  h.simulate (f := fun s => ({ data := s } : UniqueLock.State Thread Section Server))
    fun _ htakes => step_locked htakes

end Server

end AmongUs
