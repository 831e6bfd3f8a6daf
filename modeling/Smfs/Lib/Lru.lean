/-
# A cache that drops what was used longest ago

The entries of the cache, the most recently used one first, with distinct keys
and no more of them than its capacity. `get` and `put` bring their key to the
front, and `put` drops the last entry of a full cache.

Key definitions: `Lru`, `Lru.peek`, `Lru.get`, `Lru.put`, `Lru.pop`.
Key theorems: `Lru.peek_put`, `Lru.peek_pop`, `Lru.peek_get`.
-/
import Smfs.Lib.Table
import Mathlib.Data.List.Nodup

structure Lru (κ ν : Type*) where
  cap : ℕ
  entries : List (κ × ν)
  cap_pos : 0 < cap
  distinct : (entries.map Prod.fst).Nodup
  bounded : entries.length ≤ cap

namespace Lru

variable {κ ν : Type*} [DecidableEq κ] {c : Lru κ ν} {k k' : κ} {v w : ν}

/-- An empty cache. -/
def empty (κ ν : Type*) (cap : ℕ) (h : 0 < cap) : Lru κ ν := ⟨cap, [], h, List.nodup_nil, Nat.zero_le _⟩

/-- What the cache holds under a key. -/
def peek (c : Lru κ ν) (k : κ) : Option ν := (Table.get Prod.fst c.entries k).map Prod.snd

theorem nodup_erase (c : Lru κ ν) (k : κ) : ((Table.erase Prod.fst c.entries k).map Prod.fst).Nodup :=
  ((Table.erase_sublist c.entries k).map Prod.fst).nodup c.distinct

theorem nodup_front (c : Lru κ ν) (e : κ × ν) : ((e :: Table.erase Prod.fst c.entries e.1).map Prod.fst).Nodup := by
  rw [List.map_cons, List.nodup_cons]
  refine ⟨fun h => ?_, nodup_erase c e.1⟩
  obtain ⟨x, hx, hk⟩ := List.mem_map.mp h
  exact (Table.mem_erase.mp hx).2 hk

/-- The entry comes to the front, and what no longer fits goes. -/
def front (c : Lru κ ν) (e : κ × ν) : Lru κ ν where
  cap := c.cap
  entries := (e :: Table.erase Prod.fst c.entries e.1).take c.cap
  cap_pos := c.cap_pos
  distinct := ((List.take_sublist _ _).map Prod.fst).nodup (nodup_front c e)
  bounded := (List.length_take_le _ _)

/-- `LruCache::get`. -/
def get (c : Lru κ ν) (k : κ) : Option ν × Lru κ ν :=
  match Table.get Prod.fst c.entries k with
  | none => (none, c)
  | some e => (some e.2, c.front e)

/-- `LruCache::put`. -/
def put (c : Lru κ ν) (k : κ) (v : ν) : Lru κ ν := c.front (k, v)

/-- `LruCache::pop`. -/
def pop (c : Lru κ ν) (k : κ) : Lru κ ν where
  cap := c.cap
  entries := Table.erase Prod.fst c.entries k
  cap_pos := c.cap_pos
  distinct := nodup_erase c k
  bounded := Nat.le_trans (Table.erase_sublist c.entries k).length_le c.bounded

theorem peek_front {e : κ × ν} (h : (c.front e).peek k' = some w) :
    k' = e.1 ∧ w = e.2 ∨ k' ≠ e.1 ∧ c.peek k' = some w := by
  obtain ⟨x, hx, rfl⟩ := Option.map_eq_some_iff.mp h
  obtain ⟨hm, rfl⟩ := Table.get_some hx
  rcases List.mem_cons.mp (List.mem_of_mem_take hm) with rfl | hm
  · exact .inl ⟨rfl, rfl⟩
  · obtain ⟨hm, hne⟩ := Table.mem_erase.mp hm
    refine .inr ⟨hne, ?_⟩
    unfold peek
    rw [Table.get_of_mem c.distinct hm]
    rfl

/-- What a cache holds after a `put` is the new entry, or an old one under another key. -/
theorem peek_put (h : (c.put k v).peek k' = some w) : k' = k ∧ w = v ∨ k' ≠ k ∧ c.peek k' = some w := peek_front h

theorem peek_pop : (c.pop k).peek k' = if k' = k then none else c.peek k' := by
  unfold peek pop
  rw [Table.get_erase]
  split_ifs <;> rfl

theorem get_fst : (c.get k).1 = c.peek k := by
  unfold get peek
  cases Table.get Prod.fst c.entries k <;> rfl

/-- A `get` changes the order of the entries only. -/
theorem peek_get (h : (c.get k).2.peek k' = some w) : c.peek k' = some w := by
  unfold get at h
  cases hg : Table.get Prod.fst c.entries k with
  | none =>
    rw [hg] at h
    exact h
  | some e =>
    rw [hg] at h
    rcases peek_front h with ⟨rfl, rfl⟩ | ⟨-, h⟩
    · obtain ⟨-, rfl⟩ := Table.get_some hg
      unfold peek
      rw [hg]
      rfl
    · exact h

end Lru
