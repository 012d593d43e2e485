import AmongUs.Server.Standing

/-!
Whether every client stays under the eyes of the heartbeat.

A client is supervised when its status is `Waiting` or `Live` exactly as
long as one `async_wait` is pending for it and its timer is kept. A tick
that gives up on the client ends all three at once, but an answer that was
queued before that sets the status back to `Live`, and nothing arms the
timer again. That is the only way out, so a run keeps every client
supervised if and only if no answer of a `Dead` client is handled
(`supervised_iff`).
-/

namespace AmongUs

open Networking Transition

/-- The status and the timer of a client agree. -/
def Standing.Watched (v : Standing) : Prop :=
  match v.entry with
  | none => True
  | some (.waiting, _) => v.waits = 1 ∧ v.timer = true
  | some (.live, _) => v.waits = 1 ∧ v.timer = true
  | some (.dead, _) => v.waits = 0 ∧ v.timer = false
  | some (.unstable, _) => False

namespace Server

def Supervised (s : Server) : Prop :=
  ∀ c, s.Accepted c →
    ((s.statusOf c = some .waiting ∨ s.statusOf c = some .live) ↔
      s.waits.count c = 1 ∧ c ∈ s.timersContainer)

/-- The step handles an answer of a client that was given up. -/
def AnswersDead (s : Server) : Action → Prop
  | .onMessage c msg _ => msg.IsAnswer ∧ s.statusOf c = some .dead
  | _ => False

instance (s : Server) : ∀ a, Decidable (s.AnswersDead a)
  | .onMessage c msg _ =>
      inferInstanceAs (Decidable (msg.IsAnswer ∧ s.statusOf c = some .dead))
  | .accept | .close _ | .tick _ _ => inferInstanceAs (Decidable False)

end Server

namespace Standing

variable {K : Constants} {v : Standing} {ch : Change}

theorem watched_blank : ({} : Standing).Watched := trivial

/-- An answer of a client that is not dead keeps the watch, and so does
every other change. -/
theorem Watched.change (h : v.Watched) (hoffers : v.Offers K ch)
    (hdead : ch = .answered → ∀ count, v.entry ≠ some (.dead, count)) :
    (v.change K ch).Watched := by
  obtain ⟨entry, waits, timer, registered, isOpen⟩ := v
  cases ch with
  | none | closed | pruned => exact h
  | accepted =>
      obtain ⟨rfl, rfl, rfl, rfl, rfl⟩ : entry = none ∧ waits = 0 ∧ timer = false ∧
          registered = false ∧ isOpen = false := by simpa [Offers] using hoffers
      simp [Watched, Standing.change]
  | answered =>
      cases entry with
      | none => simp [Offers] at hoffers
      | some entry =>
          obtain ⟨status, count⟩ := entry
          cases status with
          | waiting => exact h
          | live => exact h
          -- The status alone would come back, without a timer.
          | dead => exact absurd rfl (hdead rfl count)
          | unstable => exact h.elim
  | ticked =>
      cases entry with
      | none => exact h
      | some entry =>
          obtain ⟨status, count⟩ := entry
          cases status with
          | waiting | live =>
              -- The tick took the one wait: it gives up, or arms the timer again.
              obtain ⟨rfl, rfl⟩ : waits = 1 ∧ timer = true := h
              simp only [Standing.change, switch, expire]
              split <;> simp [Watched, giveUp, rearm]
          | dead =>
              obtain ⟨rfl, rfl⟩ : waits = 0 ∧ timer = false := h
              simp [Offers] at hoffers
          | unstable => exact h.elim

end Standing

namespace Server

variable {K : Constants} {J : JsonText} {s t : Server} {e : Event Server Action (List Effect)}
  {tr : List (Event Server Action (List Effect))}

theorem answersDead_iff {a : Action} :
    s.AnswersDead a ↔ ∃ c, s.changeOf a c = .answered ∧ s.statusOf c = some .dead := by
  simp only [changeOf_eq_answered_iff]
  constructor
  · intro h
    cases a with
    | onMessage c msg timeNow => exact ⟨c, ⟨msg, timeNow, rfl, h.1⟩, h.2⟩
    | accept | close c | tick c timeNow => exact h.elim
  · rintro ⟨c, ⟨msg, timeNow, rfl, hans⟩, hstatus⟩
    exact ⟨hans, hstatus⟩

theorem supervised_of_watched (h : ∀ c, (s.standing c).Watched) (hs : s.Numbered) :
    s.Supervised := by
  intro c hacc
  obtain ⟨⟨status, count⟩, hentry⟩ := Option.isSome_iff_exists.mp (hs.known c hacc)
  have hwaits : (s.standing c).waits = s.waits.count c := rfl
  have htimer : (s.standing c).timer = true ↔ c ∈ s.timersContainer := by simp [standing]
  have hwatched := h c
  rw [statusOf_eq, hentry, ← hwaits, ← htimer]
  cases status <;> simp_all [Standing.Watched]

/-- The answer of a client that was given up revives its status alone. -/
theorem not_supervised_of_answersDead (hs : e.src.Numbered)
    (hwatched : ∀ c, (e.src.standing c).Watched) (h : (serverMachine K J).Takes e)
    (hdead : e.src.AnswersDead e.act) : ¬e.dst.Supervised := by
  obtain ⟨c, hanswered, hstatus⟩ := answersDead_iff.mp hdead
  have hdst : e.dst.standing c = { e.src.standing c with entry := some (.live, 0) } := by
    rw [standing_step h, hanswered]
    rfl
  have hacc : e.dst.Accepted c := by
    by_contra hnot
    have hblank := (hs.step h).fresh c hnot
    simp [hdst] at hblank
  have hwaits : e.dst.waits.count c = 0 := by
    have hsrc := hwatched c
    rw [statusOf_eq] at hstatus
    obtain ⟨⟨status, count⟩, hentry, rfl⟩ := Option.map_eq_some_iff.mp hstatus
    rw [Standing.Watched, hentry] at hsrc
    exact (congrArg Standing.waits hdst).trans hsrc.1
  intro hsup
  have hlive : e.dst.statusOf c = some .live := by
    rw [statusOf_eq, hdst]
    rfl
  have hone := ((hsup c hacc).mp (Or.inr hlive)).1
  omega

theorem watched_step (hs : e.src.Numbered) (hwatched : ∀ c, (e.src.standing c).Watched)
    (h : (serverMachine K J).Takes e) (hdead : ¬e.src.AnswersDead e.act) (c : ℕ) :
    (e.dst.standing c).Watched := by
  rw [standing_step h]
  refine (hwatched c).change (offers_step hs h c) fun hanswered count hentry => hdead ?_
  refine answersDead_iff.mpr ⟨c, hanswered, ?_⟩
  rw [statusOf_eq, hentry]
  rfl

/-- A `Dead` client has no timer left, and stays dead. -/
theorem dead_step (hwatched : ∀ c, (e.src.standing c).Watched) (hs : e.src.Numbered)
    (h : (serverMachine K J).Takes e) (hdead : ¬e.src.AnswersDead e.act) {c : ℕ}
    (hc : e.src.statusOf c = some .dead) : e.dst.statusOf c = some .dead := by
  have hoffers := offers_step hs h c
  have hw := hwatched c
  rw [statusOf_eq] at hc
  obtain ⟨⟨status, count⟩, hentry, rfl⟩ := Option.map_eq_some_iff.mp hc
  rw [Standing.Watched, hentry] at hw
  rw [statusOf_eq, standing_step h]
  cases hch : e.src.changeOf e.act c with
  | none | closed | pruned => simp [Standing.change, hentry]
  | accepted =>
      rw [hch, Standing.Offers] at hoffers
      simp [hoffers] at hentry
  | answered =>
      refine absurd (answersDead_iff.mpr ⟨c, hch, ?_⟩) hdead
      rw [statusOf_eq, hentry]
      rfl
  | ticked =>
      rw [hch, Standing.Offers, hw.1] at hoffers
      exact absurd hoffers.1 (lt_irrefl 0)

/-- **Supervision.** The status and the timer of every client agree in all
states of a run, and no `Dead` client comes back, exactly when the run
handles no answer of a `Dead` client. -/
theorem supervised_iff (h : (serverMachine K J).Run initial tr t) :
    ((∀ s ∈ Machine.visited initial tr, s.Supervised) ∧
      ∀ e ∈ tr, ∀ c, e.src.statusOf c = some .dead → e.dst.statusOf c = some .dead) ↔
      ∀ e ∈ tr, ¬e.src.AnswersDead e.act := by
  let J' (s : Server) : Prop := s.Numbered ∧ ∀ c, (s.standing c).Watched
  have hblank : J' initial := by
    refine ⟨numbered_initial, fun c => ?_⟩
    rw [standing_initial]
    exact Standing.watched_blank
  have hkeep (e : Event Server Action (List Effect)) (htakes : (serverMachine K J).Takes e)
      (hdead : ¬e.src.AnswersDead e.act) (hsrc : J' e.src) : J' e.dst :=
    ⟨hsrc.1.step htakes, watched_step hsrc.1 hsrc.2 htakes hdead⟩
  have hiff : (∀ s ∈ Machine.visited initial tr, s.Supervised) ↔
      ∀ e ∈ tr, ¬e.src.AnswersDead e.act := by
    refine h.visited_iff (J := J') (g := fun s a => ¬s.AnswersDead a)
      (supervised_of_watched hblank.2 hblank.1) hblank ?_ ?_
    · intro e htakes _ hsrc hsup
      by_cases hdead : e.src.AnswersDead e.act
      · exact absurd hsup (not_supervised_of_answersDead hsrc.1 hsrc.2 htakes hdead)
      · exact hkeep e htakes hdead hsrc
    · intro e htakes _ hsrc
      constructor
      · exact fun hsup hdead => not_supervised_of_answersDead hsrc.1 hsrc.2 htakes hdead hsup
      · intro hdead
        obtain ⟨hnum, hwatched⟩ := hkeep e htakes hdead hsrc
        exact supervised_of_watched hwatched hnum
  constructor
  · exact fun hsup => hiff.mp hsup.1
  · intro hnone
    refine ⟨hiff.mpr hnone, fun e he c hc => ?_⟩
    have hsrc : J' e.src :=
      h.visited_invariant (g := fun s a => ¬s.AnswersDead a) hblank hnone hkeep _
        (h.src_mem_visited e he)
    exact dead_step hsrc.2 hsrc.1 (h.takes e he) (hnone e he) hc

/-- A client that answers its handshake and its first ping. -/
theorem supervised_iff_ping :
    ∃ tr t, (serverMachine constants .gameState1).Run initial tr t ∧
      t.statusOf 10001 = some .live ∧
      (∀ s ∈ Machine.visited initial tr, s.Supervised) ∧
      ∀ e ∈ tr, ∀ c, e.src.statusOf c = some .dead → e.dst.statusOf c = some .dead := by
  have hexec : (((serverMachine constants .gameState1).exec initial
      [.accept, .onMessage 10001 { header := { type := .clientAccept } } 0, .tick 10001 0,
        .onMessage 10001 (clientPing 0) 0]).map fun r =>
      (r.1.all fun e => !decide (e.src.AnswersDead e.act), r.2.statusOf 10001)) =
        some (true, some .live) := by
    decide +kernel
  obtain ⟨⟨tr, t⟩, hrun, hview⟩ := Option.map_eq_some_iff.mp hexec
  obtain ⟨hnone, hlive⟩ := Prod.mk.inj hview
  refine ⟨tr, t, Machine.run_of_exec hrun, hlive,
    (supervised_iff (Machine.run_of_exec hrun)).mpr ?_⟩
  simpa using hnone

/-- The third tick gives up on a client whose `ClientAccept` was queued but
not handled yet; then it is handled. -/
theorem lateAccept_not_supervised :
    ¬∀ tr t, (serverMachine constants .gameState1).Run initial tr t →
      (∀ s ∈ Machine.visited initial tr, s.Supervised) ∧
        ∀ e ∈ tr, ∀ c, e.src.statusOf c = some .dead → e.dst.statusOf c = some .dead := by
  intro hall
  have hexec : (((serverMachine constants .gameState1).exec initial
      [.accept, .tick 10001 0, .tick 10001 0, .tick 10001 0,
        .onMessage 10001 { header := { type := .clientAccept } } 0]).map fun r =>
      (decide (r.2.Accepted 10001), r.2.statusOf 10001, r.2.waits.count 10001)) =
        some (true, some .live, 0) := by
    decide +kernel
  obtain ⟨⟨tr, t⟩, hrun, hview⟩ := Option.map_eq_some_iff.mp hexec
  simp only [Prod.mk.injEq, decide_eq_true_eq] at hview
  obtain ⟨hacc, hlive, hnone⟩ := hview
  have h := Machine.run_of_exec hrun
  have hwait := (((hall tr t h).1 t h.end_mem_visited 10001 hacc).mp (Or.inr hlive)).1
  omega

end Server

end AmongUs
