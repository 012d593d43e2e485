import Mathlib.Data.List.Induction
import Mathlib.Data.Option.Basic
import Mathlib.Logic.Function.Basic
import Mathlib.Tactic.TypeStar

/-!
Stores with a fixed set of keys, and the writes that copies of them apply.

A store answers every key with a value or with nothing, and a write to a key
it does not know is ignored. So a list of writes never adds or removes a
key, and the value of a key is the one the last write to it gave, or the
value from before when there is none (`writeAll_apply`). Two copies that
start equal and apply different lists are therefore equal exactly when the
two lists end in the same value for every key (`writeAll_eq_iff`).

A copy that is fed through a queue follows the list of all writes that were
ever put into the queue (`Follows`): what it holds, after the writes that
are still queued, is what the list makes of the initial store.
-/

namespace Replica

abbrev Store (K V : Type*) := K → Option V

variable {K V : Type*} [DecidableEq K]

/-- A write to a key that the store has. -/
def write (db : Store K V) (k : K) (v : V) : Store K V :=
  if (db k).isSome then Function.update db k (some v) else db

def writeAll (db : Store K V) (ws : List (K × V)) : Store K V :=
  ws.foldl (fun db w => write db w.1 w.2) db

/-- What the last write to a key gave. -/
def lastValue (ws : List (K × V)) (k : K) : Option V :=
  ws.foldl (fun v w => if w.1 = k then some w.2 else v) none

theorem write_apply (db : Store K V) (k k' : K) (v : V) :
    write db k v k' = if k = k' then (db k').map fun _ => v else db k' := by
  by_cases hk : k = k'
  · subst hk
    cases hdb : db k <;> simp [write, hdb]
  · by_cases hdb : (db k).isSome
    · simp [write, hdb, hk, Ne.symm hk]
    · simp [write, hdb, hk]

@[simp] theorem writeAll_nil (db : Store K V) : writeAll db [] = db := rfl

theorem writeAll_append (db : Store K V) (ws ws' : List (K × V)) :
    writeAll db (ws ++ ws') = writeAll (writeAll db ws) ws' := List.foldl_append ..

@[simp] theorem lastValue_nil (k : K) : lastValue ([] : List (K × V)) k = none := rfl

theorem lastValue_snoc (ws : List (K × V)) (w : K × V) (k : K) :
    lastValue (ws ++ [w]) k = if w.1 = k then some w.2 else lastValue ws k := by
  simp [lastValue]

theorem lastValue_append (ws ws' : List (K × V)) (k : K) :
    lastValue (ws ++ ws') k = (lastValue ws' k).or (lastValue ws k) := by
  induction ws' using List.reverseRecOn with
  | nil => rw [List.append_nil, lastValue_nil, Option.none_or]
  | append_singleton ws' w ih =>
      rw [← List.append_assoc, lastValue_snoc, lastValue_snoc]
      by_cases hk : w.1 = k
      · rw [if_pos hk, if_pos hk, Option.some_or]
      · rw [if_neg hk, if_neg hk, ih]

theorem lastValue_eq_none_iff {ws : List (K × V)} {k : K} :
    lastValue ws k = none ↔ ∀ w ∈ ws, w.1 ≠ k := by
  induction ws using List.reverseRecOn with
  | nil => simp
  | append_singleton ws w ih =>
      rw [lastValue_snoc]
      by_cases hk : w.1 = k
      · rw [if_pos hk]
        refine iff_of_false (Option.some_ne_none w.2) fun h => ?_
        exact h w (List.mem_append_right ws List.mem_cons_self) hk
      · simp [hk, ih, or_imp, forall_and]

/-- Where no key is written twice, the last write to a key is the first. -/
theorem lastValue_eq_lookup [BEq K] [LawfulBEq K] {ws : List (K × V)}
    (h : (ws.map Prod.fst).Nodup) (k : K) : lastValue ws k = ws.lookup k := by
  induction ws with
  | nil => rfl
  | cons w ws ih =>
      obtain ⟨k', v⟩ := w
      rw [List.map_cons, List.nodup_cons] at h
      obtain ⟨hnew, hrest⟩ := h
      have hcons := lastValue_append [(k', v)] ws k
      rw [List.singleton_append] at hcons
      rw [hcons, List.lookup_cons]
      by_cases hk : k' = k
      · subst hk
        have hnone : lastValue ws k' = none := by
          refine lastValue_eq_none_iff.mpr fun w hw hkey => hnew ?_
          exact List.mem_map.mpr ⟨w, hw, hkey⟩
        rw [hnone, beq_self_eq_true]
        simp [lastValue]
      · rw [beq_false_of_ne (Ne.symm hk), ← ih hrest]
        simp [lastValue, hk]

/-- The value of a key after a list of writes. -/
theorem writeAll_apply (db : Store K V) (ws : List (K × V)) (k : K) :
    writeAll db ws k = (db k).map fun v => (lastValue ws k).getD v := by
  induction ws using List.reverseRecOn with
  | nil => simp
  | append_singleton ws w ih =>
      -- The last write decides its own key and leaves the others alone.
      have hlast : writeAll db (ws ++ [w]) = write (writeAll db ws) w.1 w.2 :=
        List.foldl_append ..
      rw [hlast, write_apply, ih, lastValue_snoc]
      by_cases hk : w.1 = k
      · simp [hk, Function.comp_def]
      · simp [hk]

theorem writeAll_eq_iff (db : Store K V) (ws ws' : List (K × V)) :
    writeAll db ws = writeAll db ws' ↔
      ∀ k v, db k = some v → (lastValue ws k).getD v = (lastValue ws' k).getD v := by
  constructor
  · intro h k v hk
    have happ := congrFun h k
    simpa [writeAll_apply, hk] using happ
  · intro h
    ext1 k
    rw [writeAll_apply, writeAll_apply]
    cases hk : db k with
    | none => rfl
    | some v => simpa using h k v hk

theorem isSome_writeAll (db : Store K V) (ws : List (K × V)) (k : K) :
    (writeAll db ws k).isSome = (db k).isSome := by
  rw [writeAll_apply, Option.isSome_map]

/-- The same writes again change nothing. -/
theorem writeAll_self (db : Store K V) (ws : List (K × V)) :
    writeAll db (ws ++ ws) = writeAll db ws := by
  rw [writeAll_eq_iff]
  intro k v _
  rw [lastValue_append, Option.or_self]

/-- Writes to different keys can be done in either order. -/
theorem writeAll_comm {db : Store K V} {ws ws' : List (K × V)}
    (h : ∀ k, (db k).isSome → lastValue ws k = none ∨ lastValue ws' k = none) :
    writeAll db (ws ++ ws') = writeAll db (ws' ++ ws) := by
  rw [writeAll_eq_iff]
  intro k v hk
  rw [lastValue_append, lastValue_append]
  obtain hnone | hnone := h k (hk ▸ rfl)
  · rw [hnone, Option.or_none, Option.none_or]
  · rw [hnone, Option.or_none, Option.none_or]

/-! ### Copies behind a queue -/

/-- The copy `db` has still to apply `pending`, and has then applied `log`. -/
def Follows (init db : Store K V) (pending log : List (K × V)) : Prop :=
  writeAll db pending = writeAll init log

namespace Follows

variable {init db db' : Store K V} {pending log log' ws : List (K × V)}

theorem refl (init : Store K V) : Follows init init [] [] := rfl

/-- New writes come to the end of the queue. -/
theorem append (h : Follows init db pending log) (ws : List (K × V)) :
    Follows init db (pending ++ ws) (log ++ ws) := by
  rw [Follows, writeAll_append, h, writeAll_append]

/-- The copy applies the head of the queue. -/
theorem apply (h : Follows init db (ws ++ pending) log) :
    Follows init (writeAll db ws) pending log := by
  rwa [Follows, writeAll_append] at h

theorem eq_writeAll (h : Follows init db [] log) : db = writeAll init log := h

/-- Two copies with nothing left to apply. -/
theorem agree_iff (h : Follows init db [] log) (h' : Follows init db' [] log') :
    db = db' ↔ ∀ k v, init k = some v → (lastValue log k).getD v = (lastValue log' k).getD v := by
  rw [h.eq_writeAll, h'.eq_writeAll, writeAll_eq_iff]

end Follows

end Replica
