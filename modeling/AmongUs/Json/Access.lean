import AmongUs.Json.Serializer
import Mathlib.Data.List.Pairwise

/-!
Reading and writing the parts of a value.

An object is a map from keys to values, and two objects are the same when
they have the same value under every key (`Members.ext_find`). `operator[]`
makes an object of `null` and an element that is missing, and throws on
everything else that is no object; `contains` is false there. A number is
compared with an integer and converted to one whatever its kind is.
-/

namespace AmongUs.Json

namespace Members

variable {ms ms' : Members} {key key' : String} {v : Json} {pairs : List (String × Json)}

def find (ms : Members) (key : String) : Option Json := ms.list.lookup key

def erase (ms : Members) (key : String) : Members where
  list := ms.list.filter fun a => a.1 ≠ key
  sorted := ms.sorted.filter _

theorem lookup_eq_some_iff {list : List (String × Json)}
    (h : list.Pairwise fun a b => a.1 ≠ b.1) :
    list.lookup key = some v ↔ (key, v) ∈ list := by
  induction list with
  | nil => simp
  | cons a list ih =>
      obtain ⟨ha, hlist⟩ := List.pairwise_cons.mp h
      obtain ⟨key', v'⟩ := a
      rw [List.lookup_cons, List.mem_cons, Prod.mk.injEq]
      by_cases hkey : key = key'
      · subst hkey
        rw [beq_self_eq_true, Option.some.injEq]
        constructor
        · exact fun heq => Or.inl ⟨rfl, heq.symm⟩
        · rintro (⟨-, heq⟩ | hmem)
          · exact heq.symm
          · exact absurd rfl (ha (key, v) hmem)
      · rw [beq_false_of_ne hkey, ih hlist]
        exact (or_iff_right fun heq => hkey heq.1).symm

theorem mem_list_iff : (key, v) ∈ ms.list ↔ ms.find key = some v :=
  (lookup_eq_some_iff (ms.sorted.imp fun h => ne_of_lt h)).symm

/-- An object is what it has under its keys. -/
theorem ext_find (h : ∀ key, ms.find key = ms'.find key) : ms = ms' := by
  have hnodup (ms : Members) : ms.list.Nodup :=
    ms.sorted.imp fun hlt heq => (ne_of_lt hlt) (congrArg Prod.fst heq)
  have hperm : ms.list.Perm ms'.list := by
    refine (List.perm_ext_iff_of_nodup (hnodup ms) (hnodup ms')).mpr ?_
    rintro ⟨key, v⟩
    rw [mem_list_iff, mem_list_iff, h key]
  have hlist : ms.list = ms'.list := by
    refine hperm.eq_of_pairwise ?_ ms.sorted ms'.sorted
    exact fun a b _ _ hab hba => absurd hba (lt_asymm hab)
  obtain ⟨list, sorted⟩ := ms
  obtain ⟨list', sorted'⟩ := ms'
  obtain rfl : list = list' := hlist
  rfl

@[simp] theorem find_empty (key : String) : empty.find key = none := rfl

theorem mem_insertList_of_ne {list : List (String × Json)} {a : String × Json} (hne : a.1 ≠ key) :
    a ∈ insertList key v list ↔ a ∈ list := by
  have hcons (list : List (String × Json)) : a ∈ (key, v) :: list ↔ a ∈ list := by
    rw [List.mem_cons, or_iff_right]
    rintro rfl
    exact hne rfl
  induction list with
  | nil => exact hcons []
  | cons b list ih =>
      rw [insertList]
      split
      · exact hcons _
      split
      · rename_i heq
        rw [hcons, List.mem_cons, or_iff_right]
        rintro rfl
        exact hne heq.symm
      · exact (List.mem_cons.trans (or_congr_right ih)).trans List.mem_cons.symm

theorem mem_insertList_self (list : List (String × Json)) :
    (key, v) ∈ insertList key v list := by
  induction list with
  | nil => exact List.mem_cons_self
  | cons b list ih =>
      rw [insertList]
      split
      · exact List.mem_cons_self
      split
      · exact List.mem_cons_self
      · exact List.mem_cons_of_mem _ ih

@[simp] theorem find_insert_self : (ms.insert key v).find key = some v :=
  mem_list_iff.mp (mem_insertList_self _)

theorem find_insert_of_ne (h : key' ≠ key) : (ms.insert key v).find key' = ms.find key' := by
  ext w
  rw [← Option.mem_def, Option.mem_def, ← mem_list_iff, ← mem_list_iff]
  exact mem_insertList_of_ne h

theorem find_insert (ms : Members) (key : String) (v : Json) (key' : String) :
    (ms.insert key v).find key' = if key' = key then some v else ms.find key' := by
  split
  · next h => rw [h, find_insert_self]
  · next h => exact find_insert_of_ne h

theorem find_erase (ms : Members) (key key' : String) :
    (ms.erase key).find key' = if key' = key then none else ms.find key' := by
  ext w
  rw [← mem_list_iff, erase, List.mem_filter, mem_list_iff]
  by_cases h : key' = key <;> simp [h]

/-- Assigns only a value that is there. -/
def insert? (ms : Members) (key : String) : Option Json → Members
  | none => ms
  | some v => ms.insert key v

theorem find_insert? (ms : Members) (key : String) (v : Option Json) (key' : String) :
    (ms.insert? key v).find key' = if key' = key then v.or (ms.find key') else ms.find key' := by
  cases v with
  | none => exact (ite_self _).symm
  | some v => exact find_insert ms key v key'

/-- The values of a list of pairs, in front of what was there. -/
theorem find_insertAll (h : pairs.Pairwise fun a b => a.1 ≠ b.1) (ms : Members) (key : String) :
    (ms.insertAll pairs).find key = (pairs.lookup key).or (ms.find key) := by
  induction pairs generalizing ms with
  | nil => rfl
  | cons a pairs ih =>
      obtain ⟨ha, hpairs⟩ := List.pairwise_cons.mp h
      rw [insertAll, List.foldl_cons, ← insertAll, ih hpairs, List.lookup_cons]
      by_cases hkey : key = a.1
      · subst hkey
        have hnone : pairs.lookup a.1 = none := by
          rw [List.lookup_eq_none_iff]
          exact fun b hb => bne_iff_ne.mpr (ha b hb)
        rw [hnone, beq_self_eq_true, find_insert_self]
        rfl
      · rw [beq_false_of_ne hkey, find_insert_of_ne hkey]

end Members

/-! ### Elements of a value -/

/-- The map of an object. -/
def members : Json → Option Members
  | .object keys sorted value => some
      { list := List.ofFn fun i => (keys.get i, value i)
        sorted := List.pairwise_ofFn.mpr fun _ _ hij => sorted.rel_get_of_lt hij }
  | _ => none

@[simp] theorem members_ofMembers (ms : Members) : (ofMembers ms).members = some ms := by
  obtain ⟨list, sorted⟩ := ms
  simp only [ofMembers, members, Option.some.injEq, Members.mk.injEq]
  refine List.ext_get (by simp) fun i hi hi' => ?_
  simp

theorem items_ofMembers (ms : Members) : (ofMembers ms).items = ms.list := by
  have h := members_ofMembers ms
  rw [ofMembers, members, Option.some.injEq] at h
  exact congrArg Members.list h

/-- `contains`, and the value where there is one. -/
def find? (j : Json) (key : String) : Option Json := j.members.bind fun ms => ms.find key

/-- The map that `operator[]` looks into. -/
def asMembers : Json → Option Members
  | .null => some .empty
  | j => j.members

/-- `operator[]` with a key: the write `f` through the reference. -/
def modifyAt (j : Json) (key : String) (f : Json → Option Json) : Option Json := do
  let ms ← j.asMembers
  let v ← f ((ms.find key).getD .null)
  return ofMembers (ms.insert key v)

def eraseKey (j : Json) (key : String) : Option Json :=
  j.members.map fun ms => ofMembers (ms.erase key)

/-- `operator[]` with an index. The array is filled up with `null`. -/
def element (j : Json) (i : ℕ) : Option Json :=
  match j with
  | .null => some .null
  | .array size elem => some (if h : i < size then elem ⟨i, h⟩ else .null)
  | _ => none

/-- `operator==` with an integer. -/
def equalsInt (j : Json) (n : ℤ) : Bool :=
  match j with
  | .integer m => m == n
  | .float x => x == n
  | _ => false

/-- The conversion to `int32_t`. What a `static_cast` makes of a floating
point number that does not fit is not defined. -/
def toInt32 : Json → Option ℤ
  | .boolean b => some b.toNat
  | .integer n => some (n.bmod (2 ^ 32))
  | .float x =>
      let n := x.num.tdiv x.den
      if -2 ^ 31 ≤ n ∧ n < 2 ^ 31 then some n else none
  | _ => none

theorem toInt32_integer {n : ℤ} (h : -2 ^ 31 ≤ n ∧ n < 2 ^ 31) :
    (Json.integer n).toInt32 = some n := by
  rw [toInt32, Option.some.injEq]
  exact Int.bmod_eq_of_le (by omega) (by omega)

@[simp] theorem asMembers_ofMembers (ms : Members) : (ofMembers ms).asMembers = some ms :=
  members_ofMembers ms

theorem modifyAt_of_asMembers {j : Json} {ms : Members} (h : j.asMembers = some ms) (key : String)
    (f : Json → Option Json) : j.modifyAt key f =
      (f ((ms.find key).getD .null)).map fun v => ofMembers (ms.insert key v) := by
  rw [modifyAt, h, Option.bind_eq_bind, Option.bind_some]
  cases f ((ms.find key).getD .null) <;> rfl

theorem eraseKey_ofMembers (ms : Members) (key : String) :
    (ofMembers ms).eraseKey key = some (ofMembers (ms.erase key)) := by
  rw [eraseKey, members_ofMembers]
  rfl

@[simp] theorem find?_ofMembers (ms : Members) (key : String) :
    (ofMembers ms).find? key = ms.find key := by
  rw [find?, members_ofMembers]
  rfl

/-! ### Any value that can be written to -/

section

variable {j j' : Json} {ms : Members} {key : String}

theorem items_of_members (h : j.members = some ms) : j.items = ms.list := by
  cases j with
  | object keys sorted value =>
      rw [members, Option.some.injEq] at h
      rw [← h]
      rfl
  | null | boolean | integer | float | string | array => cases h

theorem asMembers_eq_some (h : j.asMembers = some ms) :
    j.members = some ms ∨ j = .null ∧ ms = .empty := by
  cases j with
  | null => exact .inr ⟨rfl, (Option.some.inj h).symm⟩
  | object keys sorted value => exact .inl h
  | boolean | integer | float | string | array => cases h

theorem asMembers_of_members (h : j.members = some ms) : j.asMembers = some ms := by
  cases j with
  | object keys sorted value => exact h
  | null | boolean | integer | float | string | array => cases h

/-- The elements that `operator[]` finds are items. -/
theorem mem_items_of_asMembers (h : j.asMembers = some ms) {a : String × Json} (ha : a ∈ ms.list) :
    a ∈ j.items := by
  rcases asMembers_eq_some h with h | ⟨-, rfl⟩
  · rwa [items_of_members h]
  · exact absurd ha List.not_mem_nil

theorem Serializer.Fits.of_asMembers {Φ : FloatText} (hj : Fits Φ j) (h : j.asMembers = some ms)
    {a : String × Json} (ha : a ∈ ms.list) : Fits Φ a.2 := by
  rcases asMembers_eq_some h with h | ⟨-, rfl⟩
  · cases j with
    | object keys sorted value =>
        rw [members, Option.some.injEq] at h
        rw [← h] at ha
        obtain ⟨i, rfl⟩ := List.mem_ofFn.mp ha
        exact hj i
    | null | boolean | integer | float | string | array => cases h
  · exact absurd ha List.not_mem_nil

theorem find?_of_asMembers (h : j.asMembers = some ms) (key : String) :
    j.find? key = ms.find key := by
  rcases asMembers_eq_some h with h | ⟨rfl, rfl⟩
  · rw [find?, h]
    rfl
  · rfl

theorem modifyAt_eq_some_iff {f : Json → Option Json} : j.modifyAt key f = some j' ↔
    ∃ ms v, j.asMembers = some ms ∧ f ((ms.find key).getD .null) = some v ∧
      j' = ofMembers (ms.insert key v) := by
  simp only [modifyAt, Option.bind_eq_bind, Option.bind_eq_some_iff, pure, Option.some.injEq,
    eq_comm (a := j')]
  constructor
  · rintro ⟨ms, hms, v, hv, hj⟩
    exact ⟨ms, v, hms, hv, hj⟩
  · rintro ⟨ms, v, hms, hv, hj⟩
    exact ⟨ms, hms, v, hv, hj⟩

theorem eraseKey_eq_some_iff : j.eraseKey key = some j' ↔
    ∃ ms, j.members = some ms ∧ j' = ofMembers (ms.erase key) := by
  simp only [eraseKey, Option.map_eq_some_iff, eq_comm (a := j')]

end

end AmongUs.Json
