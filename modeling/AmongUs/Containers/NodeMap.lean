import Mathlib.Data.List.Nodup
import Mathlib.Tactic.TypeStar

/-!
A hash map, as the list of its nodes in the order of iteration.

An iterator is the key of a node, or nothing at the end. Erasing a node
leaves the order of the others, and an iterator to another node stays good.
What the operations do at a node is said by the split of the list there: the
nodes before it, the node, and the nodes after it.
-/

@[ext] structure NodeMap (κ α : Type*) where
  entries : List (κ × α)
  nodup : (entries.map Prod.fst).Nodup

namespace NodeMap

variable {κ α : Type*} {m : NodeMap κ α} {pre post : List (κ × α)} {k : κ} {a : α}

/-- The key of the first node of a list. -/
def firstKey (nodes : List (κ × α)) : Option κ := nodes.head?.map Prod.fst

def begin (m : NodeMap κ α) : Option κ := firstKey m.entries

/-- The other nodes have other keys. -/
theorem ne_of_entries (h : m.entries = pre ++ (k, a) :: post) :
    (∀ e ∈ pre, e.1 ≠ k) ∧ ∀ e ∈ post, e.1 ≠ k := by
  have hnodup := m.nodup
  rw [h, List.map_append, List.map_cons, List.nodup_append] at hnodup
  obtain ⟨-, htail, hdisjoint⟩ := hnodup
  constructor
  · intro e he
    exact hdisjoint e.1 (List.mem_map_of_mem he) k List.mem_cons_self
  · intro e he hkey
    exact (List.nodup_cons.mp htail).1 (List.mem_map.mpr ⟨e, he, hkey⟩)

variable [DecidableEq κ]

/-- The value of the node that an iterator stands on. -/
def find? (m : NodeMap κ α) (k : κ) : Option α :=
  (m.entries.find? fun e => e.1 = k).map Prod.snd

/-- The iterator, moved on. -/
def next (m : NodeMap κ α) (k : κ) : Option κ :=
  firstKey (m.entries.dropWhile fun e => e.1 ≠ k).tail

/-- A write through an iterator. -/
def set (m : NodeMap κ α) (k : κ) (a : α) : NodeMap κ α where
  entries := m.entries.map fun e => if e.1 = k then (k, a) else e
  nodup := by
    have hkeys : (m.entries.map fun e => if e.1 = k then (k, a) else e).map Prod.fst =
        m.entries.map Prod.fst := by
      rw [List.map_map]
      refine List.map_congr_left fun e _ => ?_
      by_cases h : e.1 = k
      · simp [h]
      · simp [h]
    rw [hkeys]
    exact m.nodup

def erase (m : NodeMap κ α) (k : κ) : NodeMap κ α where
  entries := m.entries.filter fun e => e.1 ≠ k
  nodup := m.nodup.sublist (List.filter_sublist.map Prod.fst)

theorem find?_of_entries (h : m.entries = pre ++ (k, a) :: post) : m.find? k = some a := by
  obtain ⟨hpre, -⟩ := ne_of_entries h
  have hnone : (pre.find? fun e => e.1 = k) = none :=
    List.find?_eq_none.mpr fun e he => by simpa using hpre e he
  rw [find?, h, List.find?_append, hnone]
  simp

theorem next_of_entries (h : m.entries = pre ++ (k, a) :: post) : m.next k = firstKey post := by
  obtain ⟨hpre, -⟩ := ne_of_entries h
  rw [next, h, List.dropWhile_append_of_pos fun e he => by simpa using hpre e he]
  simp

theorem entries_set (h : m.entries = pre ++ (k, a) :: post) (b : α) :
    (m.set k b).entries = pre ++ (k, b) :: post := by
  obtain ⟨hpre, hpost⟩ := ne_of_entries h
  have hkeep (nodes : List (κ × α)) (hne : ∀ e ∈ nodes, e.1 ≠ k) :
      (nodes.map fun e => if e.1 = k then (k, b) else e) = nodes := by
    refine (List.map_congr_left fun e he => ?_).trans (List.map_id nodes)
    rw [if_neg (hne e he)]
    rfl
  have hentries : (m.set k b).entries = m.entries.map fun e => if e.1 = k then (k, b) else e := rfl
  rw [hentries, h, List.map_append, List.map_cons, hkeep pre hpre, hkeep post hpost, if_pos rfl]

theorem entries_erase (h : m.entries = pre ++ (k, a) :: post) :
    (m.erase k).entries = pre ++ post := by
  obtain ⟨hpre, hpost⟩ := ne_of_entries h
  have hkeep (nodes : List (κ × α)) (hne : ∀ e ∈ nodes, e.1 ≠ k) :
      nodes.filter (fun e => e.1 ≠ k) = nodes :=
    List.filter_eq_self.mpr fun e he => decide_eq_true (hne e he)
  have hentries : (m.erase k).entries = m.entries.filter fun e => e.1 ≠ k := rfl
  rw [hentries, h, List.filter_append, List.filter_cons_of_neg (by simp), hkeep pre hpre,
    hkeep post hpost]

end NodeMap
