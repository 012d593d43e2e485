import AmongUs.GameInstance
import Mathlib.Data.List.OfFn

/-!
What a sequence of updates makes of the database.

An update document is any JSON value, and `UpdateDatabase` assigns the items
of its range one by one. An array has the numbers of its places for keys,
and a value that is no container the empty key; no key of the database is
one of these, so only the members of objects reach it. Every key then has
the value that the last object with this member gave it
(`database_semantics`).
-/

namespace AmongUs

/-- The value of a member, where the document is an object that has it. -/
def Json.member : Json → String → Option Json
  | .object keys _ value, key => (List.ofFn fun i => (keys.get i, value i)).lookup key
  | _, _ => none

namespace GameInstance

/-- The documents are passed to `UpdateDatabase` in order. -/
def updateAll (g : GameInstance) (documents : List Json) : GameInstance :=
  documents.foldl (fun g updates => (g.updateDatabase updates).2) g

theorem updateAll_eq (g : GameInstance) (documents : List Json) :
    g.updateAll documents = ⟨Replica.writeAll g.database (documents.flatMap Json.items)⟩ := by
  induction documents generalizing g with
  | nil => rfl
  | cons updates documents ih =>
      have hfirst : g.updateAll (updates :: documents) =
          (g.updateDatabase updates).2.updateAll documents := rfl
      rw [hfirst, updateDatabase_eq, ih, List.flatMap_cons, Replica.writeAll_append]

/-- Each key of the database has an underscore. -/
theorem underscore_mem_of_key {key : String} (h : (initial.database key).isSome) :
    '_' ∈ key.toList := by
  dsimp only [initial] at h
  split at h
  · decide
  · decide
  · decide
  · cases h

/-- Of the items of a document the database takes the members of objects. -/
theorem lastValue_items (updates : Json) {key : String} (h : (initial.database key).isSome) :
    Replica.lastValue updates.items key = updates.member key := by
  have hmem := underscore_mem_of_key h
  have hempty : "" ≠ key := by
    rintro rfl
    cases hmem
  cases updates with
  | null => rfl
  | boolean b => exact Replica.lastValue_eq_none_iff.mpr (by simpa [Json.items] using hempty)
  | integer n => exact Replica.lastValue_eq_none_iff.mpr (by simpa [Json.items] using hempty)
  | float x => exact Replica.lastValue_eq_none_iff.mpr (by simpa [Json.items] using hempty)
  | string s => exact Replica.lastValue_eq_none_iff.mpr (by simpa [Json.items] using hempty)
  | array size elem =>
      refine Replica.lastValue_eq_none_iff.mpr fun item hitem => ?_
      obtain ⟨i, rfl⟩ := List.mem_ofFn.mp hitem
      -- The number of a place is written with digits.
      rintro rfl
      rw [Nat.toString_eq_repr, Nat.toList_repr] at hmem
      exact Nat.underscore_not_in_toDigits hmem
  | object keys sorted value =>
      refine Replica.lastValue_eq_lookup ?_ key
      have hkeys : (List.ofFn fun i => (keys.get i, value i)).map Prod.fst = keys := by
        rw [List.map_ofFn]
        exact List.ofFn_get keys
      rw [Json.items, hkeys]
      exact sorted.imp fun hlt => ne_of_lt hlt

/-- The last write to a key is in the last object that has it. -/
theorem lastValue_documents (documents : List Json) {key : String}
    (h : (initial.database key).isSome) :
    Replica.lastValue (documents.flatMap Json.items) key =
      documents.reverse.findSome? fun updates => updates.member key := by
  induction documents using List.reverseRecOn with
  | nil => rfl
  | append_singleton documents updates ih =>
      rw [List.flatMap_append, List.flatMap_singleton, Replica.lastValue_append,
        lastValue_items updates h, ih, List.reverse_append, List.reverse_singleton,
        List.singleton_append, List.findSome?_cons]
      cases updates.member key with
      | none => rfl
      | some value => rfl

/-- **Database semantics.** Updates never add or remove a key. A key has the
value of the last document that is an object with this member, and without
one the value that the constructor gave it. So a document that is applied
again changes nothing, and two documents with no key of the database in
common commute. -/
theorem database_semantics (documents : List Json) :
    (∀ key, ((initial.updateAll documents).database key).isSome =
      (initial.database key).isSome) ∧
    (∀ key, (initial.updateAll documents).database key =
      (initial.database key).map fun value =>
        (documents.reverse.findSome? fun updates => updates.member key).getD value) ∧
    (∀ updates, initial.updateAll (documents ++ [updates, updates]) =
      initial.updateAll (documents ++ [updates])) ∧
    ∀ updates updates', (∀ key, (initial.database key).isSome →
        updates.member key = none ∨ updates'.member key = none) →
      initial.updateAll (documents ++ [updates, updates']) =
        initial.updateAll (documents ++ [updates', updates]) := by
  have hdatabase : (initial.updateAll documents).database =
      Replica.writeAll initial.database (documents.flatMap Json.items) := by
    rw [updateAll_eq]
  refine ⟨fun key => ?_, fun key => ?_, fun updates => ?_, fun updates updates' hapart => ?_⟩
  · rw [hdatabase, Replica.isSome_writeAll]
  · rw [hdatabase, Replica.writeAll_apply]
    cases hkey : initial.database key with
    | none => rfl
    | some value => rw [lastValue_documents documents (by rw [hkey]; rfl)]
  · rw [updateAll_eq, updateAll_eq]
    simp only [List.flatMap_append, List.flatMap_cons, List.flatMap_nil, List.append_nil]
    rw [Replica.writeAll_append, Replica.writeAll_self, ← Replica.writeAll_append]
  · have happly (key : String) (hkey : (Replica.writeAll initial.database
        (documents.flatMap Json.items) key).isSome) :
        Replica.lastValue updates.items key = none ∨
          Replica.lastValue updates'.items key = none := by
      rw [Replica.isSome_writeAll] at hkey
      rw [lastValue_items updates hkey, lastValue_items updates' hkey]
      exact hapart key hkey
    rw [updateAll_eq, updateAll_eq]
    simp only [List.flatMap_append, List.flatMap_cons, List.flatMap_nil, List.append_nil]
    rw [Replica.writeAll_append, Replica.writeAll_comm happly, ← Replica.writeAll_append]

end GameInstance

end AmongUs
