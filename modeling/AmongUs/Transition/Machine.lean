import Mathlib.Data.List.Induction
import Mathlib.Tactic.TypeStar

/-!
Labelled machines whose steps may fail, and the runs they have.

A `Machine` says which actions the environment may take in a state
(`enabled`) and what the code does on one of them (`step`): it moves to a
new state and shows an output, or it fails. A failed step ends the run, so
a state is reached only through steps that returned.

A run keeps its events, and an event keeps the state it started from. A
property of what has happened so far is then a property of a list, and it
is proved like an invariant, by induction on the run from its last event.
A result under an assumption on the steps speaks of the runs whose events
all meet a condition, and there are rules for invariants that hold under a
condition (`Run.visited_invariant`) and exactly under it (`Run.visited_iff`).
-/

namespace Transition

/-- One executed step. -/
structure Event (σ α ω : Type*) where
  src : σ
  act : α
  out : ω
  dst : σ

/-- The actions a state offers, and what the code does on each. -/
structure Machine (σ α ω ε : Type*) where
  enabled : σ → α → Bool
  step : σ → α → Except ε (σ × ω)

universe v

variable {σ α ω ε : Type*}

/-- A computation that returns is made of parts that return. -/
theorem bind_eq_ok {β γ : Type v} {x : Except ε β} {f : β → Except ε γ} {c : γ} :
    (x >>= f) = .ok c ↔ ∃ b, x = .ok b ∧ f b = .ok c := by
  cases x with
  | error e => simp [bind, Except.bind]
  | ok b => simp [bind, Except.bind]

/-- Where only the first part can fail, it has failed. -/
theorem bind_eq_error {β γ : Type v} {x : Except ε β} {f : β → Except ε γ} {e : ε}
    (hf : ∀ b, ∃ c, f b = .ok c) (h : (x >>= f) = .error e) : x = .error e := by
  cases x with
  | error e' => simpa [bind, Except.bind] using h
  | ok b =>
      obtain ⟨c, hc⟩ := hf b
      simp [bind, Except.bind, hc] at h

/-- The event is a step of the machine. -/
def Machine.Takes (M : Machine σ α ω ε) (e : Event σ α ω) : Prop :=
  M.enabled e.src e.act = true ∧ M.step e.src e.act = .ok (e.dst, e.out)

/-- `M.Run s tr t`: the events `tr`, oldest first, lead from `s` to `t`. -/
inductive Machine.Run (M : Machine σ α ω ε) (s : σ) : List (Event σ α ω) → σ → Prop
  | nil : M.Run s [] s
  | snoc {tr : List (Event σ α ω)} {e : Event σ α ω} :
      M.Run s tr e.src → M.Takes e → M.Run s (tr ++ [e]) e.dst

namespace Machine

variable {M : Machine σ α ω ε} {s t u : σ} {tr tr' : List (Event σ α ω)}

theorem run_nil_iff : M.Run s [] t ↔ t = s := by
  constructor
  · intro h
    generalize hnil : ([] : List (Event σ α ω)) = tr at h
    cases h with
    | nil => rfl
    | snoc _ _ => simp at hnil
  · rintro rfl
    exact .nil

/-- The last event of a run starts where the rest of the run ends. -/
theorem run_snoc_iff {e : Event σ α ω} :
    M.Run s (tr ++ [e]) t ↔ M.Run s tr e.src ∧ M.Takes e ∧ t = e.dst := by
  constructor
  · intro h
    generalize hsnoc : tr ++ [e] = tr' at h
    cases h with
    | nil => simp at hsnoc
    | snoc hrun htakes =>
        obtain ⟨rfl, hlast⟩ := List.append_inj' hsnoc rfl
        obtain rfl : e = _ := by simpa using hlast
        exact ⟨hrun, htakes, rfl⟩
  · rintro ⟨hrun, htakes, rfl⟩
    exact .snoc hrun htakes

theorem run_append_iff :
    M.Run s (tr ++ tr') t ↔ ∃ m, M.Run s tr m ∧ M.Run m tr' t := by
  induction tr' using List.reverseRecOn generalizing t with
  | nil => simp [run_nil_iff]
  | append_singleton tr' e ih =>
      rw [← List.append_assoc, run_snoc_iff, ih]
      constructor
      · rintro ⟨⟨m, hm, hsrc⟩, htakes, rfl⟩
        exact ⟨m, hm, .snoc hsrc htakes⟩
      · rintro ⟨m, hm, hrun⟩
        obtain ⟨hsrc, htakes, rfl⟩ := run_snoc_iff.mp hrun
        exact ⟨⟨m, hm, hsrc⟩, htakes, rfl⟩

theorem Run.append (h : M.Run s tr t) (h' : M.Run t tr' u) : M.Run s (tr ++ tr') u :=
  run_append_iff.mpr ⟨t, h, h'⟩

/-- The events say where the run ends. -/
theorem Run.end_unique (h : M.Run s tr t) (h' : M.Run s tr u) : t = u := by
  cases h with
  | nil => exact (run_nil_iff.mp h').symm
  | snoc _ _ => exact (run_snoc_iff.mp h').2.2.symm

/-- An event of a run splits the run around it. -/
theorem Run.split {e : Event σ α ω} {pre post : List (Event σ α ω)}
    (h : M.Run s (pre ++ e :: post) t) :
    M.Run s pre e.src ∧ M.Takes e ∧ M.Run e.dst post t := by
  rw [show pre ++ e :: post = (pre ++ [e]) ++ post by simp] at h
  obtain ⟨m, hpre, hpost⟩ := run_append_iff.mp h
  obtain ⟨hsrc, htakes, rfl⟩ := run_snoc_iff.mp hpre
  exact ⟨hsrc, htakes, hpost⟩

/-- **The invariant rule.** What holds at the start and is kept by every
step holds wherever a run ends. -/
theorem Run.invariant {I : σ → Prop} (h : M.Run s tr t) (hs : I s)
    (hstep : ∀ e : Event σ α ω, M.Takes e → I e.src → I e.dst) : I t := by
  induction h with
  | nil => exact hs
  | snoc _ htakes ih => exact hstep _ htakes ih

/-- **The history rule.** Like the invariant rule, for a property of the
state and of the events that led to it. -/
theorem Run.history {I : List (Event σ α ω) → σ → Prop} (h : M.Run s tr t) (hs : I [] s)
    (hstep : ∀ tr e, M.Run s tr e.src → M.Takes e → I tr e.src → I (tr ++ [e]) e.dst) :
    I tr t := by
  induction h with
  | nil => exact hs
  | snoc hrun htakes ih => exact hstep _ _ hrun htakes ih

/-- **The simulation rule.** Where every step of `M` is a run of `N`, so is
every run. -/
theorem Run.simulate {σ' α' ω' ε' : Type*} {N : Machine σ' α' ω' ε'} {f : σ → σ'}
    (h : M.Run s tr t)
    (hstep : ∀ e : Event σ α ω, M.Takes e → ∃ tr', N.Run (f e.src) tr' (f e.dst)) :
    ∃ tr', N.Run (f s) tr' (f t) := by
  induction h with
  | nil => exact ⟨[], .nil⟩
  | snoc _ htakes ih =>
      obtain ⟨tr₁, hrun⟩ := ih
      obtain ⟨tr₂, hlast⟩ := hstep _ htakes
      exact ⟨tr₁ ++ tr₂, hrun.append hlast⟩

/-- **The simulation rule for a relation.** Where every step of `M` is matched
by a run of `N` that keeps the states related and shows the same, so is every
run. -/
theorem Run.simulate_rel {σ' α' ω' ε' β : Type*} {N : Machine σ' α' ω' ε'} {s' : σ'}
    {R : σ → σ' → Prop} {g : Event σ α ω → Prop} {shown : Event σ α ω → List β}
    {shown' : Event σ' α' ω' → List β} (h : M.Run s tr t) (hs : R s s') (hg : ∀ e ∈ tr, g e)
    (hstep : ∀ (e : Event σ α ω) s', M.Takes e → g e → R e.src s' →
      ∃ tr' t', N.Run s' tr' t' ∧ R e.dst t' ∧ tr'.flatMap shown' = shown e) :
    ∃ tr' t', N.Run s' tr' t' ∧ R t t' ∧ tr'.flatMap shown' = tr.flatMap shown := by
  induction h with
  | nil => exact ⟨[], s', .nil, hs, rfl⟩
  | @snoc tr e _ htakes ih =>
      obtain ⟨tr₁, m, hrun, hm, hshown⟩ := ih fun e' he' => hg e' (List.mem_append_left _ he')
      obtain ⟨tr₂, t', hlast, ht', hshown'⟩ := hstep e m htakes (hg e (by simp)) hm
      refine ⟨tr₁ ++ tr₂, t', hrun.append hlast, ht', ?_⟩
      rw [List.flatMap_append, List.flatMap_append, List.flatMap_singleton, hshown, hshown']

/-- **The queue rule.** When every step takes from the head of a queue what
it takes and puts at the end what it puts, a run has taken, in order, what
was there and what was put, but for what is still queued. -/
theorem Run.queue {β : Type*} {q : σ → List β} {taken put : Event σ α ω → List β}
    (h : M.Run s tr t) (hstep : ∀ e : Event σ α ω, M.Takes e →
      taken e ++ q e.dst = q e.src ++ put e) :
    tr.flatMap taken ++ q t = q s ++ tr.flatMap put := by
  induction h with
  | nil => simp
  | @snoc tr e _ htakes ih =>
      rw [List.flatMap_append, List.flatMap_singleton, List.append_assoc, hstep e htakes,
        ← List.append_assoc, ih, List.flatMap_append, List.flatMap_singleton,
        List.append_assoc]

/-- **The countdown rule.** Where every step from a state that may take `n`
more leads to one that may take fewer, a run is no longer than its first
number. -/
theorem Run.countdown {P : σ → ℕ → Prop} {g : Event σ α ω → Prop} {n : ℕ}
    (h : M.Run s tr t) (hs : P s n) (hg : ∀ e ∈ tr, g e)
    (hstep : ∀ e n, M.Takes e → g e → P e.src n → ∃ m, m < n ∧ P e.dst m) :
    ∃ m, tr.length + m ≤ n ∧ P t m := by
  induction h with
  | nil => exact ⟨n, by simp, hs⟩
  | @snoc tr e _ htakes ih =>
      obtain ⟨m, hm, hsrc⟩ := ih fun e' he' => hg e' (List.mem_append_left _ he')
      obtain ⟨m', hless, hdst⟩ := hstep e m htakes (hg e (by simp)) hsrc
      refine ⟨m', ?_, hdst⟩
      rw [List.length_append, List.length_singleton]
      omega

/-- **The measure rule.** Where every step from a state with `I` keeps it and
makes `Φ` smaller, a run has no more steps than `Φ` says at its start. -/
theorem Run.length_add_le {I : σ → Prop} {Φ : σ → ℕ} {g : Event σ α ω → Prop}
    (h : M.Run s tr t) (hs : I s) (hg : ∀ e ∈ tr, g e)
    (hstep : ∀ e, M.Takes e → g e → I e.src → I e.dst ∧ Φ e.dst < Φ e.src) :
    I t ∧ tr.length + Φ t ≤ Φ s := by
  obtain ⟨_, hlength, ht, rfl⟩ := h.countdown (P := fun s n => I s ∧ Φ s = n) ⟨hs, rfl⟩ hg
    fun e n htakes hact hsrc => by
      obtain ⟨hsrc, rfl⟩ := hsrc
      obtain ⟨hdst, hless⟩ := hstep e htakes hact hsrc
      exact ⟨_, hless, hdst, rfl⟩
  exact ⟨ht, hlength⟩

theorem Run.takes (h : M.Run s tr t) : ∀ e ∈ tr, M.Takes e := by
  intro e he
  obtain ⟨pre, post, rfl⟩ := List.append_of_mem he
  exact h.split.2.1

/-! ### The states a run visits -/

/-- The first state of the run, and the state after each of its events. -/
def visited (s : σ) (tr : List (Event σ α ω)) : List σ := s :: tr.map Event.dst

theorem visited_snoc (s : σ) (tr : List (Event σ α ω)) (e : Event σ α ω) :
    visited s (tr ++ [e]) = visited s tr ++ [e.dst] := by
  simp [visited]

theorem Run.end_mem_visited (h : M.Run s tr t) : t ∈ visited s tr := by
  cases h with
  | nil => simp [visited]
  | snoc _ _ => simp [visited]

theorem Run.src_mem_visited (h : M.Run s tr t) : ∀ e ∈ tr, e.src ∈ visited s tr := by
  intro e he
  obtain ⟨pre, post, rfl⟩ := List.append_of_mem he
  have hsrc := h.split.1.end_mem_visited
  simp only [visited, List.mem_cons, List.map_append, List.mem_append] at hsrc ⊢
  exact hsrc.imp id Or.inl

/-- Every state a run visits is reached by the part of the run before it. -/
theorem Run.of_mem_visited (h : M.Run s tr t) {m : σ} (hm : m ∈ visited s tr) :
    ∃ pre post, tr = pre ++ post ∧ M.Run s pre m ∧ M.Run m post t := by
  simp only [visited, List.mem_cons, List.mem_map] at hm
  rcases hm with rfl | ⟨e, he, rfl⟩
  · exact ⟨[], tr, rfl, .nil, h⟩
  · obtain ⟨pre, post, rfl⟩ := List.append_of_mem he
    obtain ⟨hsrc, htakes, hpost⟩ := h.split
    exact ⟨pre ++ [e], post, by simp, .snoc hsrc htakes, hpost⟩

/-- **The invariant rule under a condition on the steps.** -/
theorem Run.visited_invariant {I : σ → Prop} {g : σ → α → Prop} (h : M.Run s tr t) (hs : I s)
    (hg : ∀ e ∈ tr, g e.src e.act)
    (hstep : ∀ e : Event σ α ω, M.Takes e → g e.src e.act → I e.src → I e.dst) :
    ∀ m ∈ visited s tr, I m := by
  induction h with
  | nil => simpa [visited] using hs
  | @snoc tr e hrun htakes ih =>
      have hpre := ih fun e' he' => hg e' (List.mem_append_left _ he')
      have hlast : I e.dst :=
        hstep e htakes (hg e (by simp)) (hpre _ hrun.end_mem_visited)
      rw [visited_snoc]
      intro m hm
      rcases List.mem_append.mp hm with hm | hm
      · exact hpre m hm
      · rwa [List.mem_singleton.mp hm]

/-- **The exact-condition rule.** Let `I` be kept by the steps that meet
the condition `g`, and broken by every other step that a state with `I`
offers. Then a run visits only states with `I` if and only if all its
steps meet `g`. The auxiliary invariant `J` is whatever holds along every
run whose states have `I`. -/
theorem Run.visited_iff {I J : σ → Prop} {g : σ → α → Prop} (h : M.Run s tr t)
    (hI : I s) (hJ : J s)
    (hkeepJ : ∀ e : Event σ α ω, M.Takes e → I e.src → J e.src → I e.dst → J e.dst)
    (hiff : ∀ e : Event σ α ω, M.Takes e → I e.src → J e.src →
      (I e.dst ↔ g e.src e.act)) :
    (∀ m ∈ visited s tr, I m) ↔ ∀ e ∈ tr, g e.src e.act := by
  -- `J` is carried along as long as `I` has held everywhere.
  suffices H : ((∀ m ∈ visited s tr, I m) ↔ ∀ e ∈ tr, g e.src e.act) ∧
      ((∀ m ∈ visited s tr, I m) → J t) from H.1
  induction h with
  | nil => simp [visited, hI, hJ]
  | @snoc tr e hrun htakes ih =>
      have hdst : (∀ m ∈ visited s (tr ++ [e]), I m) ↔
          (∀ m ∈ visited s tr, I m) ∧ I e.dst := by
        rw [visited_snoc]
        simp [or_imp, forall_and]
      have hacts : (∀ e' ∈ tr ++ [e], g e'.src e'.act) ↔
          (∀ e' ∈ tr, g e'.src e'.act) ∧ g e.src e.act := by
        simp [or_imp, forall_and]
      have hlast (hall : ∀ m ∈ visited s tr, I m) : I e.dst ↔ g e.src e.act :=
        hiff e htakes (hall _ hrun.end_mem_visited) (ih.2 hall)
      refine ⟨?_, fun hall => ?_⟩
      · rw [hdst, hacts, ← ih.1]
        exact and_congr_right hlast
      · obtain ⟨hpre, hI'⟩ := hdst.mp hall
        exact hkeepJ e htakes (hpre _ hrun.end_mem_visited) (ih.2 hpre) hI'

/-! ### Running a list of actions -/

/-- Takes the actions in order; nothing when one of them is not offered
or fails. -/
def exec (M : Machine σ α ω ε) : σ → List α → Option (List (Event σ α ω) × σ)
  | s, [] => some ([], s)
  | s, a :: acts =>
      if M.enabled s a then
        match M.step s a with
        | .ok (t, o) => (M.exec t acts).map fun r => (⟨s, a, o, t⟩ :: r.1, r.2)
        | .error _ => none
      else none

theorem run_of_exec {acts : List α} (h : M.exec s acts = some (tr, t)) : M.Run s tr t := by
  induction acts generalizing s tr with
  | nil =>
      obtain ⟨rfl, rfl⟩ : tr = [] ∧ t = s := by simpa [exec, eq_comm] using h
      exact .nil
  | cons a acts ih =>
      rw [exec] at h
      split at h
      · rename_i hen
        split at h
        · rename_i m o hok
          obtain ⟨⟨rest, u⟩, hrest, hr⟩ := Option.map_eq_some_iff.mp h
          obtain ⟨rfl, rfl⟩ : ⟨s, a, o, m⟩ :: rest = tr ∧ u = t := by simpa using hr
          exact (Run.snoc (e := ⟨s, a, o, m⟩) .nil ⟨hen, hok⟩).append (ih hrest)
        · cases h
      · cases h

theorem map_act_of_exec {acts : List α} (h : M.exec s acts = some (tr, t)) :
    tr.map Event.act = acts := by
  induction acts generalizing s tr with
  | nil =>
      obtain ⟨rfl, _⟩ : tr = [] ∧ t = s := by simpa [exec, eq_comm] using h
      rfl
  | cons a acts ih =>
      rw [exec] at h
      split at h
      · split at h
        · obtain ⟨⟨rest, u⟩, hrest, hr⟩ := Option.map_eq_some_iff.mp h
          obtain ⟨rfl, rfl⟩ := Prod.mk.inj hr
          rw [List.map_cons, ih hrest]
        · cases h
      · cases h

end Machine

end Transition
