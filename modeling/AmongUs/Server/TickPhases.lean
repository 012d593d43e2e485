import AmongUs.Server.Heartbeat

/-!
A tick in two steps.

`checkClientConnStatus` reads the status and the count before it takes the
lock, and decides on what it has read. So a message can be handled between
the two, and an answer handled there is not seen by the decision. The one
thread of the timers has at most one tick under way. The machine of this
module takes the two parts of a tick as steps of their own, and everything
else as `serverMachine` does; a run of `serverMachine` is one of its runs
(`run_phased`).
-/

namespace AmongUs

open Networking Transition

/-- `reading` is the tick under way, with what it has read. -/
structure Phased where
  server : Server
  reading : Option (ℕ × ConnectionStatus × ℕ) := none

inductive Phased.Action
  | handler (a : Server.Action)
  | read (client : ℕ)
  | switch (timeNow : Int64)

namespace Phased

def Action.isSwitch : Action → Bool
  | .switch _ => true
  | _ => false

/-- The step handles a `ClientPing` or a `ClientAccept` of the client. -/
def Action.answers (c : ℕ) : Action → Bool
  | .handler a => a.answers c
  | _ => false

def initial : Phased := { server := .initial }

end Phased

def phasedMachine (K : Constants) (J : JsonText) :
    Machine Phased Phased.Action (List Effect) Fault where
  enabled x
    | .handler (.tick _ _) => false
    | .handler a => (serverMachine K J).enabled x.server a
    | .read c => x.reading.isNone && decide (c ∈ x.server.waits)
    | .switch _ => x.reading.isSome
  step x
    | .handler a => do
        let (server, effects) ← (serverMachine K J).step x.server a
        return ({ x with server := server }, effects)
    | .read c => do
        let server := x.server.expire c
        let (status, count) ← server.readStatus c
        return ({ server := server, reading := some (c, status, count) }, [])
    | .switch timeNow =>
        match x.reading with
        | some (c, status, count) => do
            let (server, effects) ← x.server.lockedSwitch K c status count timeNow
            return ({ server := server }, effects)
        | none => .ok (x, [])

namespace Phased

variable {K : Constants} {J : JsonText} {x y : Phased} {e : Event Phased Action (List Effect)}
  {tr : List (Event Phased Action (List Effect))}

/-! ### One step -/

/-- What is not a part of a tick is a step of the server. -/
theorem handler_step {a : Server.Action} (h : (phasedMachine K J).Takes e)
    (hact : e.act = .handler a) :
    (serverMachine K J).Takes ⟨e.src.server, a, e.out, e.dst.server⟩ ∧
      e.dst.reading = e.src.reading ∧ ∀ c, a.ticks c = false := by
  obtain ⟨henabled, hstep⟩ := h
  rw [hact] at henabled hstep
  obtain ⟨⟨server, effects⟩, hserver, hret⟩ := bind_eq_ok.mp hstep
  obtain ⟨hdst, hout⟩ : ({ e.src with server := server } : Phased) = e.dst ∧
      effects = e.out := by simpa [pure, Except.pure] using hret
  rw [← hdst, ← hout]
  cases a with
  | tick d timeNow => simp [phasedMachine] at henabled
  | accept | close d | onMessage d msg timeNow =>
      exact ⟨⟨henabled, hserver⟩, rfl, fun c => rfl⟩

theorem read_step {c : ℕ} (h : (phasedMachine K J).Takes e) (hact : e.act = .read c) :
    e.src.reading = none ∧ c ∈ e.src.server.waits ∧
      ∃ entry, e.src.server.clientStatus c = some entry ∧
        e.dst = { server := e.src.server.expire c,
                  reading := some (c, entry.status, entry.count) } := by
  obtain ⟨henabled, hstep⟩ := h
  rw [hact] at henabled hstep
  obtain ⟨⟨status, count⟩, hread, hret⟩ := bind_eq_ok.mp hstep
  obtain ⟨hnone, hwait⟩ : e.src.reading = none ∧ c ∈ e.src.server.waits := by
    simpa [phasedMachine] using henabled
  obtain ⟨entry, hentry, rfl, rfl⟩ := Server.readStatus_ok hread
  refine ⟨hnone, hwait, entry, hentry, ?_⟩
  simpa [pure, Except.pure, eq_comm] using (Prod.mk.inj (Except.ok.inj hret)).1

theorem switch_step {timeNow : Int64} (h : (phasedMachine K J).Takes e)
    (hact : e.act = .switch timeNow) :
    ∃ c status count, e.src.reading = some (c, status, count) ∧ e.dst.reading = none ∧
      e.src.server.lockedSwitch K c status count timeNow = .ok (e.dst.server, e.out) := by
  obtain ⟨henabled, hstep⟩ := h
  rw [hact] at henabled hstep
  have hsome : e.src.reading.isSome = true := henabled
  obtain ⟨⟨c, status, count⟩, hreading⟩ := Option.isSome_iff_exists.mp hsome
  simp only [phasedMachine, hreading] at hstep
  obtain ⟨⟨server, effects⟩, hserver, hret⟩ := bind_eq_ok.mp hstep
  obtain ⟨hdst, hout⟩ : ({ server := server } : Phased) = e.dst ∧ effects = e.out := by
    simpa [pure, Except.pure] using hret
  rw [← hdst, ← hout]
  exact ⟨c, status, count, hreading, rfl, hserver⟩

/-! ### The invariant -/

/-- At most one tick is pending or under way for a client, and then the
client has not been given up. -/
def Armed (v : Standing) (reading : Bool) : Prop :=
  v.waits + reading.toNat ≤ 1 ∧ (0 < v.waits + reading.toNat →
    ∃ count, v.entry = some (.waiting, count) ∨ v.entry = some (.live, count))

def isReading (x : Phased) (c : ℕ) : Bool := x.reading.any fun r => decide (r.1 = c)

structure Sound (x : Phased) : Prop where
  numbered : x.server.Numbered
  armed : ∀ c, Armed (x.server.standing c) (x.isReading c)
  read : ∀ c status count, x.reading = some (c, status, count) →
    status = .waiting ∨ status = .live

theorem sound_initial : initial.Sound where
  numbered := Server.numbered_initial
  armed c := by
    rw [show initial.server.standing c = {} from Server.standing_initial c]
    simp [Armed, isReading, initial]
  read c status count h := by
    simp [initial] at h

/-- A change that comes from elsewhere than a tick. -/
theorem Armed.change {v : Standing} {reading : Bool} {ch : Change} (h : Armed v reading)
    (hoffers : v.Offers K ch) (hch : ch ≠ .ticked) : Armed (v.change K ch) reading := by
  cases ch with
  | none | closed | pruned => exact h
  | ticked => exact absurd rfl hch
  | answered => exact ⟨h.1, fun _ => ⟨0, Or.inr rfl⟩⟩
  | accepted =>
      obtain rfl : v = {} := hoffers
      cases reading with
      | false => simp [Armed, Standing.change]
      | true =>
          obtain ⟨count, hentry⟩ := h.2 (by simp)
          simp at hentry

theorem Sound.handler {a : Server.Action} (hx : e.src.Sound) (h : (phasedMachine K J).Takes e)
    (hact : e.act = .handler a) : e.dst.Sound := by
  obtain ⟨hserver, hreading, hticks⟩ := handler_step h hact
  have hisReading (c : ℕ) : e.dst.isReading c = e.src.isReading c := by
    rw [isReading, hreading]
    rfl
  constructor
  · exact Server.Numbered.step hx.numbered hserver
  · intro c
    rw [hisReading]
    have hstanding := Server.standing_step hserver c
    rw [show e.dst.server.standing c = _ from hstanding]
    refine (hx.armed c).change (Server.offers_step hx.numbered hserver c) fun hticked => ?_
    rw [← Server.ticks_iff, hticks c] at hticked
    cases hticked
  · intro c status count hsome
    rw [hreading] at hsome
    exact hx.read c status count hsome

/-- The client of a tick that is pending or under way. -/
theorem Armed.ne_blank {v : Standing} {reading : Bool} (h : Armed v reading)
    (hpos : 0 < v.waits + reading.toNat) : v ≠ {} := by
  rintro rfl
  obtain ⟨count, hentry⟩ := h.2 hpos
  simp at hentry

theorem Sound.read_step {c : ℕ} (hx : e.src.Sound) (h : (phasedMachine K J).Takes e)
    (hact : e.act = .read c) : e.dst.Sound := by
  obtain ⟨hnone, hwait, entry, hentry, hdst⟩ := Phased.read_step h hact
  have hpos : 0 < (e.src.server.standing c).waits := Multiset.count_pos.mpr hwait
  have hstanding (d : ℕ) : e.dst.server.standing d =
      if d = c then (e.src.server.standing d).expire else e.src.server.standing d := by
    rw [hdst]
    exact Server.standing_expire e.src.server d c
  have hsrc (d : ℕ) : e.src.isReading d = false := by simp [isReading, hnone]
  have hreading (d : ℕ) : e.dst.isReading d = decide (c = d) := by simp [isReading, hdst]
  have harmed := hx.armed c
  rw [hsrc] at harmed
  obtain ⟨count, hstatus⟩ := harmed.2 (by simpa using hpos)
  have hone : (e.src.server.standing c).waits = 1 := by
    have hle := harmed.1
    simp only [Bool.toNat_false] at hle
    omega
  constructor
  · apply hx.numbered.of_client (harmed.ne_blank (by simpa using hpos))
    · rw [hdst]
      rfl
    · exact fun d hd => by rw [hstanding, if_neg hd]
    · rw [hstanding, if_pos rfl]
      rcases hstatus with hstatus | hstatus <;> simp [Standing.expire, hstatus]
  · intro d
    rw [hstanding, hreading]
    by_cases hd : d = c
    · subst hd
      simpa [Armed, Standing.expire, hone] using ⟨count, hstatus⟩
    · have hother := hx.armed d
      rw [hsrc] at hother
      simpa [hd, Ne.symm hd] using hother
  · intro d status' count' hsome
    rw [hdst] at hsome
    obtain ⟨rfl, rfl, rfl⟩ : c = d ∧ entry.status = status' ∧ entry.count = count' := by
      simpa using hsome
    rw [Server.entry_standing hentry] at hstatus
    simpa using hstatus.imp (fun h => (Prod.mk.inj (Option.some.inj h)).1)
      fun h => (Prod.mk.inj (Option.some.inj h)).1

/-- The switch gives up, or arms the timer again. -/
theorem Armed.switch {v : Standing} {status : ConnectionStatus} {count : ℕ}
    (h : Armed v true) (hstatus : status = .waiting ∨ status = .live) :
    Armed (v.switch K status count) false ∧ (v.switch K status count).entry.isSome := by
  obtain ⟨count', hentry⟩ := h.2 (by simp)
  have hzero : v.waits = 0 := by simpa using h.1
  have hdead : Armed v.giveUp false ∧ v.giveUp.entry.isSome := by
    rcases hentry with hentry | hentry <;> simp [Armed, Standing.giveUp, hzero, hentry]
  have hrearm : Armed (v.rearm (count + 1)) false ∧ (v.rearm (count + 1)).entry.isSome := by
    rcases hentry with hentry | hentry <;> simp [Armed, Standing.rearm, hzero, hentry]
  rcases hstatus with rfl | rfl
  · by_cases hcount : count > K.maxTimeClientAccept
    · simpa [Standing.switch, hcount] using hdead
    · simpa [Standing.switch, hcount] using hrearm
  · by_cases hcount : count > K.maxFailPings
    · simpa [Standing.switch, hcount] using hdead
    · simpa [Standing.switch, hcount] using hrearm

theorem Sound.switch {timeNow : Int64} (hx : e.src.Sound) (h : (phasedMachine K J).Takes e)
    (hact : e.act = .switch timeNow) : e.dst.Sound := by
  obtain ⟨c, status, count, hsome, hnone, hswitch⟩ := switch_step h hact
  have hstanding := Server.standing_lockedSwitch hswitch
  have hsrc (d : ℕ) : e.src.isReading d = decide (c = d) := by simp [isReading, hsome]
  have hdst (d : ℕ) : e.dst.isReading d = false := by simp [isReading, hnone]
  have harmed := hx.armed c
  rw [hsrc] at harmed
  rw [decide_eq_true rfl] at harmed
  have hstatus := hx.read c status count hsome
  constructor
  · refine hx.numbered.of_client (harmed.ne_blank (by simp))
      (Server.nIDCounter_lockedSwitch hswitch) (fun d hd => by rw [hstanding, if_neg hd]) ?_
    rw [hstanding, if_pos rfl]
    exact (harmed.switch hstatus).2
  · intro d
    rw [hstanding, hdst]
    by_cases hd : d = c
    · subst hd
      rw [if_pos rfl]
      exact (harmed.switch hstatus).1
    · have hother := hx.armed d
      rw [hsrc] at hother
      simpa [hd, Ne.symm hd] using hother
  · intro d status' count' hsome'
    rw [hnone] at hsome'
    cases hsome'

theorem Sound.step (hx : e.src.Sound) (h : (phasedMachine K J).Takes e) : e.dst.Sound := by
  cases hact : e.act with
  | handler a => exact hx.handler h hact
  | read c => exact hx.read_step h hact
  | switch timeNow => exact hx.switch h hact

/-! ### Between the reads and the switch -/

/-- While a tick is under way its reads stay as they are, and an answer of
the client leaves it `Live` with nothing counted. -/
theorem between_run {c : ℕ} {status : ConnectionStatus} {count : ℕ}
    (h : (phasedMachine K J).Run x tr y) (hx : x.Sound)
    (hreading : x.reading = some (c, status, count))
    (htr : ∀ m ∈ tr, m.act.isSwitch = false) :
    y.Sound ∧ y.reading = some (c, status, count) ∧
      ((∃ m ∈ tr, m.act.answers c = true) → (y.server.standing c).entry = some (.live, 0)) := by
  induction h with
  | nil => exact ⟨hx, hreading, by simp⟩
  | @snoc tr e hrun htakes ih =>
      obtain ⟨hsound, hreading', hanswered⟩ :=
        ih fun m hm => htr m (List.mem_append_left _ hm)
      refine ⟨hsound.step htakes, ?_⟩
      cases hact : e.act with
      | read d =>
          have hnone := (read_step htakes hact).1
          rw [hreading'] at hnone
          cases hnone
      | switch timeNow =>
          have hnot := htr e (by simp)
          simp [hact, Action.isSwitch] at hnot
      | handler a =>
          obtain ⟨hserver, hkeep, hticks⟩ := handler_step htakes hact
          refine ⟨hkeep.trans hreading', fun ⟨m, hm, hans⟩ => ?_⟩
          have hoffers : (e.src.server.standing c).Offers K (e.src.server.changeOf a c) :=
            Server.offers_step hsound.numbered hserver c
          have hstanding := Server.standing_step hserver c
          rw [show e.dst.server.standing c = _ from hstanding]
          -- An answer before this step is kept by it, and a new one is noted.
          have hkept (hch : e.src.server.changeOf a c ≠ .answered) :
              (e.src.server.standing c).entry = some (.live, 0) := by
            rcases List.mem_append.mp hm with hm | hm
            · exact hanswered ⟨m, hm, hans⟩
            · obtain rfl := List.mem_singleton.mp hm
              rw [hact, Action.answers, Server.answers_iff (s := m.src.server)] at hans
              exact absurd hans hch
          cases hch : e.src.server.changeOf a c with
          | none | closed | pruned => simpa [Standing.change] using hkept (by simp [hch])
          | answered => rfl
          | ticked =>
              rw [← Server.ticks_iff, hticks c] at hch
              cases hch
          | accepted =>
              have harmed := hsound.armed c
              rw [isReading, hreading'] at harmed
              rw [hch] at hoffers
              exact absurd hoffers (harmed.ne_blank (by simp))

theorem sound_run (h : (phasedMachine K J).Run initial tr x) : x.Sound :=
  h.invariant sound_initial fun _ htakes hsrc => hsrc.step htakes

/-- The switch of a tick on a client that has just answered. -/
theorem switch_answered_iff {v : Standing} {status : ConnectionStatus} {count : ℕ}
    (hv : v.entry = some (.live, 0)) (hstatus : status = .waiting ∨ status = .live) :
    ((v.switch K status count).entry.map Prod.fst ≠ some .dead ∧
      (v.switch K status count).entry.map Prod.fst = some .live ∧
      ∃ n ≤ 1, (v.switch K status count).entry.map Prod.snd = some n) ↔ count = 0 := by
  have hdead : v.giveUp.entry.map Prod.fst = some .dead := by simp [Standing.giveUp, hv]
  have hrearm : (v.rearm (count + 1)).entry = some (.live, count + 1) := by
    simp [Standing.rearm, hv]
  have hiff (limit : ℕ) : (((if count > limit then v.giveUp else v.rearm (count + 1)).entry.map
        Prod.fst ≠ some .dead ∧
      (if count > limit then v.giveUp else v.rearm (count + 1)).entry.map Prod.fst =
        some .live ∧
      ∃ n ≤ 1, (if count > limit then v.giveUp else v.rearm (count + 1)).entry.map Prod.snd =
        some n) ↔ count = 0) := by
    by_cases hcount : count > limit
    · simp only [if_pos hcount, hdead, ne_eq, not_true_eq_false, false_and, false_iff]
      omega
    · simp only [if_neg hcount, hrearm]
      simp
  rcases hstatus with rfl | rfl
  · exact hiff K.maxTimeClientAccept
  · exact hiff K.maxFailPings

/-- **An answer between the reads and the switch.** It is kept, that is the
tick leaves the client `Live` with at most one unanswered ping, exactly when
the count that was read is zero. -/
theorem answer_kept_iff {c : ℕ} {timeNow : Int64}
    {pre mid post : List (Event Phased Action (List Effect))}
    {r w : Event Phased Action (List Effect)} (h : (phasedMachine K J).Run initial tr x)
    (htr : tr = pre ++ r :: (mid ++ w :: post)) (hr : r.act = .read c)
    (hw : w.act = .switch timeNow) (hmid : ∀ m ∈ mid, m.act.isSwitch = false)
    (hanswer : ∃ m ∈ mid, m.act.answers c = true) :
    (w.dst.server.statusOf c ≠ some .dead ∧ w.dst.server.statusOf c = some .live ∧
      ∃ count ≤ 1, w.dst.server.countOf c = some count) ↔
      r.src.server.countOf c = some 0 := by
  subst htr
  obtain ⟨hpre, hread, hrest⟩ := h.split
  obtain ⟨hbetween, hwrite, _⟩ := hrest.split
  obtain ⟨_, _, entry, hentry, hdst⟩ := read_step hread hr
  have hsound := (sound_run hpre).step hread
  obtain ⟨_, hreading, hlive⟩ := between_run hbetween hsound (by rw [hdst]) hmid
  obtain ⟨c', status, count, hsome, _, hswitch⟩ := switch_step hwrite hw
  obtain ⟨rfl, rfl, rfl⟩ : c = c' ∧ entry.status = status ∧ entry.count = count := by
    simpa [hreading] using hsome
  have hstatus := hsound.read c entry.status entry.count (by rw [hdst])
  have hread0 : r.src.server.countOf c = some entry.count := by
    rw [Server.countOf, hentry, Option.map_some]
  rw [hread0, Server.statusOf_eq, Server.countOf_eq, Server.standing_lockedSwitch hswitch c,
    if_pos rfl]
  rw [switch_answered_iff (hlive hanswer) hstatus, Option.some.injEq]

/-- A list of actions that ends with the two parts of a tick. -/
theorem tick_of_exec {c : ℕ} {timeNow : Int64} {acts mids : List Action}
    (h : (phasedMachine K J).exec initial (acts ++ .read c :: (mids ++ [.switch timeNow])) =
      some (tr, x)) :
    ∃ pre r mid w, tr = pre ++ r :: (mid ++ [w]) ∧ pre.length = acts.length ∧
      r.act = .read c ∧ mid.map Event.act = mids ∧ w.act = .switch timeNow ∧ w.dst = x := by
  obtain ⟨pre, rest, rfl, hpre, hrest⟩ :=
    List.map_eq_append_iff.mp (Machine.map_act_of_exec h)
  obtain ⟨r, rest, rfl, hr, hrest⟩ := List.map_eq_cons_iff.mp hrest
  obtain ⟨mid, last, rfl, hmid, hlast⟩ := List.map_eq_append_iff.mp hrest
  obtain ⟨w, rfl, hw⟩ := List.map_eq_singleton_iff.mp hlast
  have hend := (Machine.run_of_exec h).split.2.2.split.2.2
  refine ⟨pre, r, mid, w, rfl, ?_, hr, hmid, hw, (Machine.run_nil_iff.mp hend).symm⟩
  rw [← hpre, List.length_map]

/-- The first tick of a client that accepts while the tick is under way. -/
theorem answer_kept_iff_first :
    ∃ x pre r mid w, (phasedMachine constants .gameState1).Run initial
        (pre ++ r :: (mid ++ [w])) x ∧
      r.act = .read 10001 ∧ w.act = .switch 0 ∧ mid ≠ [] ∧
      w.dst.server.statusOf 10001 = some .live := by
  have hexec : (((phasedMachine constants .gameState1).exec initial
      ([.handler .accept] ++ .read 10001 ::
        ([.handler (.onMessage 10001 { header := { type := .clientAccept } } 0)] ++
          [.switch 0]))).map fun r =>
      r.1.map fun e => e.src.server.countOf 10001) = some [none, some 0, some 0, some 0] := by
    decide +kernel
  obtain ⟨⟨tr, x⟩, hrun, hcounts⟩ := Option.map_eq_some_iff.mp hexec
  obtain ⟨pre, r, mid, w, rfl, hlen, hr, hmid, hw, _⟩ := tick_of_exec hrun
  obtain ⟨m, rfl, hm⟩ := List.map_eq_singleton_iff.mp hmid
  have hcount : r.src.server.countOf 10001 = some 0 := by
    have hget := congrArg (fun l => l[1]?) hcounts
    rw [List.length_singleton] at hlen
    simpa [List.getElem?_append_right, hlen] using hget
  have h := Machine.run_of_exec hrun
  have hkept := (answer_kept_iff h rfl hr hw (by simp [hm, Action.isSwitch])
    (by simp [hm, Action.answers, Server.Action.answers, Message.IsAnswer])).mpr hcount
  exact ⟨x, pre, r, [m], w, h, hr, hw, by simp, hkept.2.1⟩

/-- Two seconds have been counted when the third tick reads; the client
accepts, and the switch gives up on it. -/
theorem lateSwitch_marks_dead :
    ¬∀ x pre r mid w c timeNow, (phasedMachine constants .gameState1).Run initial
        (pre ++ r :: (mid ++ [w])) x →
      r.act = .read c → w.act = .switch timeNow → (∀ m ∈ mid, m.act.isSwitch = false) →
      (∃ m ∈ mid, m.act.answers c = true) →
      w.dst.server.statusOf c ≠ some .dead ∧ w.dst.server.statusOf c = some .live ∧
        ∃ count ≤ 1, w.dst.server.countOf c = some count := by
  intro hall
  have hexec : (((phasedMachine constants .gameState1).exec initial
      ([.handler .accept, .read 10001, .switch 0, .read 10001, .switch 0] ++ .read 10001 ::
        ([.handler (.onMessage 10001 { header := { type := .clientAccept } } 0)] ++
          [.switch 0]))).map fun r => r.2.server.statusOf 10001) = some (some .dead) := by
    decide +kernel
  obtain ⟨⟨tr, x⟩, hrun, hdead⟩ := Option.map_eq_some_iff.mp hexec
  obtain ⟨pre, r, mid, w, rfl, _, hr, hmid, hw, rfl⟩ := tick_of_exec hrun
  obtain ⟨m, rfl, hm⟩ := List.map_eq_singleton_iff.mp hmid
  exact (hall _ pre r [m] w 10001 0 (Machine.run_of_exec hrun) hr hw
    (by simp [hm, Action.isSwitch])
    (by simp [hm, Action.answers, Server.Action.answers, Message.IsAnswer])).1 hdead

/-! ### Atomic ticks -/

/-- A tick of `serverMachine` is its two parts, one after the other. -/
theorem step_phased {e : Event Server Server.Action (List Effect)}
    (h : (serverMachine K J).Takes e) :
    ∃ tr, (phasedMachine K J).Run { server := e.src } tr { server := e.dst } := by
  obtain ⟨s, a, effects, s'⟩ := e
  obtain ⟨henabled, hstep⟩ := h
  have hother (hen : (phasedMachine K J).enabled { server := s } (.handler a) = true) :
      ∃ tr, (phasedMachine K J).Run { server := s } tr { server := s' } := by
    have htakes : (phasedMachine K J).Takes
        ⟨{ server := s }, .handler a, effects, { server := s' }⟩ :=
      ⟨hen, bind_eq_ok.mpr ⟨(s', effects), hstep, rfl⟩⟩
    exact ⟨_, .snoc .nil htakes⟩
  cases a with
  | accept | close c | onMessage c msg timeNow => exact hother henabled
  | tick c timeNow =>
      obtain ⟨entry, hentry, hswitch⟩ := Server.checkClientConnStatus_ok hstep
      let mid : Phased :=
        { server := s.expire c, reading := some (c, entry.status, entry.count) }
      have hread : (phasedMachine K J).Takes ⟨{ server := s }, .read c, [], mid⟩ := by
        refine ⟨?_, ?_⟩
        · simpa [phasedMachine, serverMachine] using henabled
        · simp [phasedMachine, Server.readStatus, hentry, mid, bind, Except.bind, pure,
            Except.pure]
      have hwrite : (phasedMachine K J).Takes
          ⟨mid, .switch timeNow, effects, { server := s' }⟩ := by
        refine ⟨rfl, ?_⟩
        have hswitch' : mid.server.lockedSwitch K c entry.status entry.count timeNow =
            .ok (s', effects) := hswitch
        simp only [phasedMachine, mid] at hswitch' ⊢
        rw [hswitch']
        rfl
      exact ⟨_, .snoc (.snoc .nil hread) hwrite⟩

/-- **Refinement.** The runs of the server with atomic ticks are runs with
ticks in two steps. -/
theorem run_phased {s t : Server} {tr : Server.Trace} (h : (serverMachine K J).Run s tr t) :
    ∃ tr', (phasedMachine K J).Run { server := s } tr' { server := t } :=
  h.simulate (f := fun s => ({ server := s } : Phased)) fun _ htakes => step_phased htakes

end Phased

end AmongUs
