import AmongUs.Transition.Machine

/-!
Threads that share one lock object.

A `unique_lock` is a mutex with a flag that says whether the object owns it.
The flag belongs to the object and not to a thread. `lock()` throws where
the flag is set and waits for the mutex otherwise; `unlock()` throws where
the flag is clear. So two threads that use one object are not two waiters
for one mutex: the second finds the flag of the first.

A `Program` says what the threads do around the lock: a request is prepared
without it, and may leave a section to be run under it. The machine takes
the call of `lock()`, the acquisition, the section and the call of
`unlock()` as steps of their own, and stops when a call throws. Mutual
exclusion holds in every run (`exclusive`), and a call throws exactly
when `lock()` is called while a thread is in its critical section
(`throws_iff`).
-/

namespace Transition

/-- Threads `ι`, requests `ρ`, sections `β`, on data `σ`. -/
structure Program (ι ρ β σ ω ε : Type) where
  offers : σ → ι → ρ → Bool
  prepare : σ → ρ → Except ε (σ × ω × Option β)
  underLock : σ → β → Except ε (σ × ω)

/-- What is left of a prepared request. -/
def Program.finish {ι ρ β σ ω ε : Type} (P : Program ι ρ β σ ω ε) :
    σ × ω × Option β → Except ε (σ × ω)
  | (d, w, none) => .ok (d, w)
  | (d, _, some b) => P.underLock d b

namespace UniqueLock

/-- Where a thread is in its use of the lock. -/
inductive Point (β : Type)
  | idle
  | calling (b : β)
  | waiting (b : β)
  | inside (b : β)
  | leaving

/-- Between the acquisition and `unlock()`. -/
def Point.critical {β : Type} : Point β → Bool
  | .inside _ => true
  | .leaving => true
  | _ => false

structure State (ι β σ : Type) where
  data : σ
  owns : Bool := false
  locked : Bool := false
  point : ι → Point β := fun _ => .idle
  terminated : Bool := false

inductive Action (ι ρ : Type)
  | start (i : ι) (r : ρ)
  | lock (i : ι)
  | acquire (i : ι)
  | run (i : ι)
  | unlock (i : ι)

/-- What a step shows: the outcome of a request or a section, or that a
call of the lock object threw. -/
inductive Outcome (ω : Type)
  | did (w : ω)
  | quiet
  | threw

variable {ι ρ β σ ω ε : Type} [DecidableEq ι]

namespace State

def goto (s : State ι β σ) (i : ι) (p : Point β) : State ι β σ :=
  { s with point := Function.update s.point i p }

/-- `lock()` after its check: it waits. -/
def lock (s : State ι β σ) (i : ι) (b : β) : State ι β σ × Outcome ω :=
  if s.owns then ({ s with terminated := true }, .threw) else (s.goto i (.waiting b), .quiet)

def unlock (s : State ι β σ) (i : ι) : State ι β σ × Outcome ω :=
  if s.owns then ({ s with owns := false, locked := false }.goto i .idle, .quiet)
  else ({ s with terminated := true }, .threw)

end State

def machine (P : Program ι ρ β σ ω ε) :
    Machine (State ι β σ) (Action ι ρ) (Outcome ω) ε where
  enabled s a := !s.terminated &&
    match a with
    | .start i r => (match s.point i with | .idle => true | _ => false) && P.offers s.data i r
    | .lock i => match s.point i with | .calling _ => true | _ => false
    | .acquire i => (match s.point i with | .waiting _ => true | _ => false) && !s.locked
    | .run i => match s.point i with | .inside _ => true | _ => false
    | .unlock i => match s.point i with | .leaving => true | _ => false
  step s
    | .start i r => do
        let (data, out, next) ← P.prepare s.data r
        let p := match next with | some b => Point.calling b | none => .idle
        return ({ s with data := data }.goto i p, .did out)
    | .lock i =>
        match s.point i with
        | .calling b => .ok (s.lock i b)
        | _ => .ok (s, .quiet)
    | .acquire i =>
        match s.point i with
        | .waiting b => .ok ({ s with owns := true, locked := true }.goto i (.inside b), .quiet)
        | _ => .ok (s, .quiet)
    | .run i =>
        match s.point i with
        | .inside b => do
            let (data, out) ← P.underLock s.data b
            return ({ s with data := data }.goto i .leaving, .did out)
        | _ => .ok (s, .quiet)
    | .unlock i => .ok (s.unlock i)

/-- The thread `o`, if there is one, holds the lock: it is the one thread
in its critical section, and the flag and the mutex are set for it. -/
structure Held (o : Option ι) (s : State ι β σ) : Prop where
  owns : s.owns = o.isSome
  locked : s.locked = o.isSome
  critical : ∀ j, (s.point j).critical = decide (o = some j)

section

variable {P : Program ι ρ β σ ω ε} {s t : State ι β σ} {o : Option ι} {i : ι}
  {e : Event (State ι β σ) (Action ι ρ) (Outcome ω)}
  {tr : List (Event (State ι β σ) (Action ι ρ) (Outcome ω))}

theorem held_initial (data : σ) : Held none ({ data := data } : State ι β σ) :=
  ⟨rfl, rfl, fun _ => rfl⟩

theorem Held.eq_some (h : Held o s) (hi : (s.point i).critical = true) : o = some i := by
  simpa [h.critical i] using hi

/-- One thread moves. For the others the holder is who it was. -/
theorem Held.goto (h : Held o s) {o' : Option ι} {p : Point β} {data : σ} {owns locked : Bool}
    (howns : owns = o'.isSome) (hlocked : locked = o'.isSome)
    (hp : p.critical = decide (o' = some i)) (hothers : ∀ j, j ≠ i → (o' = some j ↔ o = some j)) :
    Held o' ({ s with data := data, owns := owns, locked := locked }.goto i p) where
  owns := howns
  locked := hlocked
  critical j := by
    by_cases hj : j = i
    · subst hj
      simpa [State.goto] using hp
    · simpa [State.goto, hj, hothers j hj] using h.critical j

/-- A thread outside its critical section goes on outside of it. -/
theorem Held.goto_outside (h : Held o s) {p : Point β} (hi : (s.point i).critical = false)
    (hp : p.critical = false) {data : σ} : Held o ({ s with data := data }.goto i p) :=
  h.goto h.owns h.locked (by rw [hp, ← h.critical i, hi]) fun _ _ => Iff.rfl

theorem Held.terminated (h : Held o s) : Held o { s with terminated := true } :=
  ⟨h.owns, h.locked, h.critical⟩

/-- **One step.** The lock stays with one thread, and a call throws only
where `lock()` finds it held. -/
theorem held_step (htakes : (machine P).Takes e) (h : Held o e.src) :
    (∃ o', Held o' e.dst) ∧
      (e.out = .threw ↔ ∃ i, e.act = .lock i ∧ o.isSome = true) := by
  obtain ⟨s, a, out, s'⟩ := e
  obtain ⟨henabled, hstep⟩ := htakes
  simp only [machine, Bool.and_eq_true] at henabled hstep h ⊢
  cases a with
  | start i r =>
      cases hp : s.point i with
      | idle =>
          obtain ⟨⟨data, w, next⟩, _, hret⟩ := bind_eq_ok.mp hstep
          obtain ⟨rfl, rfl⟩ := Prod.mk.inj (Except.ok.inj hret)
          exact ⟨⟨o, h.goto_outside (by rw [hp]; rfl) (by cases next <;> rfl)⟩, by simp⟩
      | _ => simp [hp] at henabled
  | lock i =>
      cases hp : s.point i with
      | calling b =>
          simp only [hp, Except.ok.injEq] at hstep
          -- The flag is set exactly where some thread is inside.
          by_cases howns : s.owns = true
          · rw [State.lock, if_pos howns] at hstep
            obtain ⟨rfl, rfl⟩ := Prod.mk.inj hstep
            have hsome : o.isSome = true := h.owns.symm.trans howns
            exact ⟨⟨o, h.terminated⟩, by simp [hsome]⟩
          · rw [State.lock, if_neg howns] at hstep
            obtain ⟨rfl, rfl⟩ := Prod.mk.inj hstep
            have hnone : ¬o.isSome = true := by rwa [← h.owns]
            exact ⟨⟨o, h.goto_outside (by rw [hp]; rfl) rfl⟩, by simp [hnone]⟩
      | _ => simp [hp] at henabled
  | acquire i =>
      cases hp : s.point i with
      | waiting b =>
          simp only [hp, Except.ok.injEq] at hstep
          obtain ⟨rfl, rfl⟩ := Prod.mk.inj hstep
          -- The mutex is free, so nobody was inside.
          have hfree : s.locked = false := by simpa [hp] using henabled.2
          obtain rfl : o = none := by
            simpa [hfree] using h.locked
          refine ⟨⟨some i, h.goto rfl rfl (by simp [Point.critical]) fun j hj => ?_⟩, by simp⟩
          simp [Ne.symm hj]
      | _ => simp [hp] at henabled
  | run i =>
      cases hp : s.point i with
      | inside b =>
          simp only [hp] at hstep
          obtain ⟨⟨data, w⟩, _, hret⟩ := bind_eq_ok.mp hstep
          obtain ⟨rfl, rfl⟩ := Prod.mk.inj (Except.ok.inj hret)
          obtain rfl := h.eq_some (i := i) (by rw [hp]; rfl)
          exact ⟨⟨some i, h.goto h.owns h.locked (by simp [Point.critical]) fun _ _ => Iff.rfl⟩,
            by simp⟩
      | _ => simp [hp] at henabled
  | unlock i =>
      cases hp : s.point i with
      | leaving =>
          obtain rfl := h.eq_some (i := i) (by rw [hp]; rfl)
          have howns : s.owns = true := h.owns
          obtain ⟨rfl, rfl⟩ := Prod.mk.inj (by simpa [State.unlock, howns] using hstep)
          refine ⟨⟨none, h.goto rfl rfl (by simp [Point.critical]) fun j hj => ?_⟩, by simp⟩
          simp [Ne.symm hj]
      | _ => simp [hp] at henabled

theorem held_run {data : σ} (h : (machine P).Run { data := data } tr t) : ∃ o, Held o t :=
  h.invariant (I := fun s => ∃ o, Held o s) ⟨none, held_initial data⟩
    fun _ htakes ⟨_, hheld⟩ => (held_step htakes hheld).1

/-- **Mutual exclusion.** -/
theorem exclusive {data : σ} (h : (machine P).Run { data := data } tr t) {i j : ι}
    (hi : (t.point i).critical = true) (hj : (t.point j).critical = true) : i = j := by
  obtain ⟨o, hheld⟩ := held_run h
  exact Option.some.inj ((hheld.eq_some hi).symm.trans (hheld.eq_some hj))

/-- **What throws.** A run is free of throwing calls exactly when no thread
calls `lock()` while one is in its critical section. -/
theorem throws_iff {data : σ} (h : (machine P).Run { data := data } tr t) :
    (∀ e ∈ tr, e.out ≠ .threw) ↔
      ∀ e ∈ tr, ∀ i, e.act = .lock i → ∀ j, (e.src.point j).critical = false := by
  refine forall₂_congr fun e he => ?_
  obtain ⟨pre, post, rfl⟩ := List.append_of_mem he
  obtain ⟨hpre, htakes, _⟩ := h.split
  obtain ⟨o, hheld⟩ := held_run hpre
  rw [ne_eq, (held_step htakes hheld).2]
  simp only [hheld.critical, decide_eq_false_iff_not, not_exists, not_and]
  refine forall₂_congr fun i _ => ?_
  cases o with
  | none => simp
  | some j => simp

/-- A request that is alone runs to its end. -/
theorem run_alone {d d₁ d₂ : σ} {r : ρ} {w w₂ : ω} {todo : Option β}
    (hoffers : P.offers d i r = true) (hprepare : P.prepare d r = .ok (d₁, w, todo))
    (hrest : P.finish (d₁, w, todo) = .ok (d₂, w₂)) :
    ∃ tr, (machine P).Run { data := d } tr { data := d₂ } := by
  cases todo with
  | none =>
      obtain ⟨rfl, rfl⟩ := Prod.mk.inj (Except.ok.inj hrest)
      have hexec : (machine P).exec { data := d } [.start i r] =
          some ([⟨{ data := d }, .start i r, .did w, { data := d₁ }⟩], { data := d₁ }) := by
        simp [Machine.exec, machine, hoffers, hprepare, bind, Except.bind, pure, Except.pure,
          State.goto]
      exact ⟨_, Machine.run_of_exec hexec⟩
  | some b =>
      have hbody : P.underLock d₁ b = .ok (d₂, w₂) := hrest
      have hexec : ∃ tr, (machine P).exec { data := d }
          [.start i r, .lock i, .acquire i, .run i, .unlock i] =
            some (tr, { data := d₂ }) := by
        simp [Machine.exec, machine, hoffers, hprepare, hbody, bind, Except.bind, pure,
          Except.pure, State.goto, State.lock, State.unlock]
      obtain ⟨tr, hexec⟩ := hexec
      exact ⟨tr, Machine.run_of_exec hexec⟩

end

end UniqueLock

end Transition
