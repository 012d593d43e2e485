import Mathlib.Logic.Function.Basic
import Mathlib.Tactic.TypeStar

/-!
Threads that lock and unlock a mutex.

What a thread holds is read off from where it is, so the mutex itself is
only a flag. The flag tells the truth, and one thread at most holds the mutex
(`Guards`), as long as each step of the program locks a free mutex, unlocks a
mutex for the thread that holds it, or does neither (`MutexStep`).
-/

namespace Transition

variable {τ : Type*} {locked locked' : Bool} {holds holds' : τ → Bool} {i j : τ}

/-- The mutex is locked while one thread holds it. -/
structure Guards (locked : Bool) (holds : τ → Bool) : Prop where
  locked_iff : locked = true ↔ ∃ i, holds i = true
  unique : ∀ i j, holds i = true → holds j = true → i = j

/-- One thread locks the mutex or unlocks it, or nobody does. -/
inductive MutexStep [DecidableEq τ] :
    Bool → (τ → Bool) → Bool → (τ → Bool) → Prop
  | lock {holds : τ → Bool} (i : τ) : MutexStep false holds true (Function.update holds i true)
  | unlock {locked : Bool} {holds : τ → Bool} (i : τ) :
      holds i = true → MutexStep locked holds false (Function.update holds i false)
  | keep {locked : Bool} {holds : τ → Bool} : MutexStep locked holds locked holds

theorem guards_free (h : ∀ i, holds i = false) : Guards false holds where
  locked_iff := by simp [h]
  unique := fun i _ hi => by simp [h i] at hi

theorem Guards.not_holds (h : Guards false holds) (i : τ) : holds i = false := by
  cases hi : holds i with
  | false => rfl
  | true => exact (h.locked_iff.mpr ⟨i, hi⟩).symm

variable [DecidableEq τ]

/-- One thread moves, and the mutex with it. -/
theorem mutexStep_update {b : Bool}
    (h : locked' = locked ∧ b = holds i ∨ locked = false ∧ locked' = true ∧ b = true ∨
      holds i = true ∧ locked' = false ∧ b = false) :
    MutexStep locked holds locked' (Function.update holds i b) := by
  rcases h with ⟨rfl, rfl⟩ | ⟨rfl, rfl, rfl⟩ | ⟨hi, rfl, rfl⟩
  · rw [Function.update_eq_self]
    exact .keep
  · exact .lock i
  · exact .unlock i hi

theorem Guards.lock (h : Guards false holds) (i : τ) :
    Guards true (Function.update holds i true) where
  locked_iff := by
    refine ⟨fun _ => ⟨i, Function.update_self ..⟩, fun _ => rfl⟩
  unique := by
    have honly : ∀ j, Function.update holds i true j = true → j = i := by
      intro j hj
      by_contra hne
      rw [Function.update_of_ne hne, h.not_holds j] at hj
      cases hj
    intro j k hj hk
    rw [honly j hj, honly k hk]

theorem Guards.unlock (h : Guards locked holds) (hi : holds i = true) :
    Guards false (Function.update holds i false) := by
  apply guards_free
  intro j
  by_cases hj : j = i
  · rw [hj, Function.update_self]
  · rw [Function.update_of_ne hj, Bool.eq_false_iff]
    exact fun hholds => hj (h.unique j i hholds hi)

/-- **The lock rule.** -/
theorem Guards.step (h : Guards locked holds) (hstep : MutexStep locked holds locked' holds') :
    Guards locked' holds' := by
  cases hstep with
  | lock i => exact h.lock i
  | unlock i hi => exact h.unlock hi
  | keep => exact h

end Transition
