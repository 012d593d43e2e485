import Mathlib.Data.List.Perm.Basic

/-!
A fold over a list that is sorted up to ties.

A sort that is not stable may leave tied elements in any order (`IsSort`).
The fold does not notice when two tied elements that stand next to each
other can be taken in either order, from the state in which the fold reaches
them (`Exchanges`): an element of the first list is found in the second one
behind elements that it is tied with, and moves to the front past one of
them after the other (`foldl_to_front`).
-/

namespace SortedFold

variable {α β : Type*} (lt : α → α → Prop) (f : β → α → β)

/-- An order of `l` in which no element stands behind a greater one. -/
def IsSort (l l' : List α) : Prop := l'.Perm l ∧ l'.Pairwise fun a b => ¬lt b a

/-- Neighbours that are tied can be exchanged, wherever the fold reaches them. -/
def Exchanges (s : β) (l : List α) : Prop :=
  ∀ pre x y post, IsSort lt l (pre ++ x :: y :: post) → ¬lt x y →
    f (f (pre.foldl f s) x) y = f (f (pre.foldl f s) y) x

variable {lt f} {s : β} {l l' l₁ l₂ pre post : List α} {a : α}

theorem IsSort.cons (h : IsSort lt l l') (ha : ∀ x ∈ l, ¬lt x a) :
    IsSort lt (a :: l) (a :: l') :=
  ⟨h.1.cons a, List.pairwise_cons.mpr ⟨fun x hx => ha x (h.1.mem_iff.mp hx), h.2⟩⟩

theorem Exchanges.perm (h : Exchanges lt f s l) (hperm : l'.Perm l) : Exchanges lt f s l' :=
  fun pre x y post hsort => h pre x y post ⟨hsort.1.trans hperm, hsort.2⟩

/-- After a least element of the list. -/
theorem Exchanges.tail (h : Exchanges lt f s (a :: l)) (ha : ∀ x ∈ l, ¬lt x a) :
    Exchanges lt f (f s a) l :=
  fun pre x y post hsort => h (a :: pre) x y post (hsort.cons ha)

theorem pairwise_to_front (h : (pre ++ a :: post).Pairwise fun a b => ¬lt b a)
    (hle : ∀ x ∈ pre, ¬lt x a) : (a :: (pre ++ post)).Pairwise fun a b => ¬lt b a := by
  have hsub : (pre ++ post).Sublist (pre ++ a :: post) :=
    (List.sublist_cons_self a post).append_left pre
  refine List.pairwise_cons.mpr ⟨fun x hx => ?_, h.sublist hsub⟩
  rcases List.mem_append.mp hx with hx | hx
  · exact hle x hx
  · exact List.rel_of_pairwise_cons (List.pairwise_append.mp h).2.1 hx

theorem foldl_to_front (h : Exchanges lt f s (pre ++ a :: post))
    (hsorted : (pre ++ a :: post).Pairwise fun a b => ¬lt b a) (hle : ∀ x ∈ pre, ¬lt x a) :
    (pre ++ a :: post).foldl f s = (a :: (pre ++ post)).foldl f s := by
  induction pre generalizing s with
  | nil => rfl
  | cons x pre ih =>
      obtain ⟨hx, htail⟩ := List.pairwise_cons.mp hsorted
      have hle' : ∀ z ∈ pre, ¬lt z a := fun z hz => hle z (List.mem_cons_of_mem x hz)
      have hfront : IsSort lt (x :: (pre ++ a :: post)) (x :: a :: (pre ++ post)) :=
        IsSort.cons ⟨List.perm_middle.symm, pairwise_to_front htail hle'⟩ hx
      have hexchange : f (f s x) a = f (f s a) x :=
        h [] x a (pre ++ post) hfront (hle x List.mem_cons_self)
      calc (x :: (pre ++ a :: post)).foldl f s
          = (a :: (pre ++ post)).foldl f (f s x) := ih (h.tail hx) htail hle'
        _ = (pre ++ post).foldl f (f (f s x) a) := rfl
        _ = (pre ++ post).foldl f (f (f s a) x) := by rw [hexchange]

/-- All sorted orders are folded to the same state. -/
theorem foldl_eq (h : Exchanges lt f s l) (h₁ : IsSort lt l l₁) (h₂ : IsSort lt l l₂) :
    l₁.foldl f s = l₂.foldl f s := by
  induction l₁ generalizing s l l₂ with
  | nil =>
      have hnil : l₂ = [] := (h₂.1.trans h₁.1.symm).eq_nil
      rw [hnil]
  | cons a t ih =>
      have hperm : l₂.Perm (a :: t) := h₂.1.trans h₁.1.symm
      obtain ⟨pre, post, rfl⟩ := List.append_of_mem (hperm.mem_iff.mpr List.mem_cons_self)
      obtain ⟨hleast, hsorted⟩ := List.pairwise_cons.mp h₁.2
      have hperm' : (pre ++ post).Perm t := List.perm_middle.symm.trans hperm |>.cons_inv
      have hle : ∀ x ∈ pre, ¬lt x a := fun x hx =>
        hleast x (hperm'.mem_iff.mp (List.mem_append_left post hx))
      rw [foldl_to_front (h.perm h₂.1) h₂.2 hle]
      have htail : Exchanges lt f (f s a) t := (h.perm h₁.1).tail hleast
      exact ih htail ⟨List.Perm.refl t, hsorted⟩
        ⟨hperm', (List.pairwise_cons.mp (pairwise_to_front h₂.2 hle)).2⟩

end SortedFold
