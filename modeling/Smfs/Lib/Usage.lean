/-
# The history of a cache

A history says, the newest event first, what was written under a key, used,
dropped, or all cleared. `standing` is the value written last under a key and
not dropped since, `last` the moment of a key's last use. A list of entries
tracks a history when it holds what stands in it, in the order of last use,
but for values gone stale, which it may have forgotten. The operations of a
cache whose order is the order of use keep that: a use and a write bring the
entry to the end, a removal drops it, and dropping the oldest entries is a
series of removals.

Key definitions: `Use`, `Use.standing`, `Use.last`, `Tracks`.
Key theorems: `Tracks.used`, `Tracks.wrote`, `Tracks.dropped`, `Tracks.drops`, `Tracks.forget`.
-/
import Smfs.Lib.Table

/-- An event of a cache. -/
inductive Use (κ ν : Type*)
  | wrote (k : κ) (v : ν)
  | used (k : κ)
  | dropped (k : κ)
  | cleared

namespace Use

variable {κ ν : Type*} [DecidableEq κ]

/-- What was written last under a key, if nothing has dropped it. -/
def standing : List (Use κ ν) → κ → Option ν
  | [], _ => none
  | .wrote k v :: log, k' => if k' = k then some v else standing log k'
  | .used _ :: log, k' => standing log k'
  | .dropped k :: log, k' => if k' = k then none else standing log k'
  | .cleared :: _, _ => none

/-- The moment at which a key was last written or used. -/
def last : List (Use κ ν) → κ → ℕ
  | [], _ => 0
  | .wrote k _ :: log, k' => if k' = k then log.length + 1 else last log k'
  | .used k :: log, k' => if k' = k then log.length + 1 else last log k'
  | .dropped _ :: log, k' => last log k'
  | .cleared :: log, k' => last log k'

theorem last_le (log : List (Use κ ν)) (k : κ) : last log k ≤ log.length := by
  induction log with
  | nil => exact Nat.le_refl 0
  | cons e log ih =>
    cases e <;> simp only [last, List.length_cons]
    · split_ifs <;> omega
    · split_ifs <;> omega
    · omega
    · omega

end Use

open Use

/-- The entries hold what stands in the history, the least recently used
first, but for what is stale. -/
structure Tracks {κ ν : Type*} [DecidableEq κ] (stale : ν → Prop) (log : List (Use κ ν)) (entries : List (κ × ν)) :
    Prop where
  held : ∀ e ∈ entries, standing log e.1 = some e.2
  kept : ∀ k v, standing log k = some v → (k, v) ∈ entries ∨ stale v
  order : entries.Pairwise fun a b => last log a.1 < last log b.1

namespace Tracks

variable {κ ν : Type*} [DecidableEq κ] {stale : ν → Prop} {log : List (Use κ ν)} {entries : List (κ × ν)} {k k' : κ}
  {v : ν}

theorem nodup (h : Tracks stale log entries) : (entries.map Prod.fst).Nodup := by
  rw [List.Nodup, List.pairwise_map]
  exact h.order.imp fun {a b} hlt he => Nat.ne_of_lt hlt (congrArg (last log) he)

theorem start (stale : ν → Prop) : Tracks (κ := κ) stale [] [] :=
  ⟨fun _ he => absurd he List.not_mem_nil, fun _ _ h => (nomatch h), List.Pairwise.nil⟩

/-- More may be forgotten when more is stale. -/
theorem mono {stale' : ν → Prop} (hs : ∀ v, stale v → stale' v) (h : Tracks stale log entries) :
    Tracks stale' log entries :=
  ⟨h.held, fun k v hv => (h.kept k v hv).imp_right (hs v), h.order⟩

/-- What a lookup finds stands. -/
theorem standing_of_get {e : κ × ν} (h : Tracks stale log entries) (hg : Table.get Prod.fst entries k = some e) :
    standing log k = some e.2 := by
  obtain ⟨hmem, rfl⟩ := Table.get_some hg
  exact h.held e hmem

/-- What a lookup misses is stale. -/
theorem stale_of_get (h : Tracks stale log entries) (hg : Table.get Prod.fst entries k = none)
    (hv : standing log k = some v) : stale v :=
  (h.kept k v hv).resolve_left fun hmem => Table.get_none.mp hg _ hmem rfl

theorem erase_order (h : Tracks stale log entries) (k : κ) :
    (Table.erase Prod.fst entries k).Pairwise fun a b => last log a.1 < last log b.1 :=
  h.order.sublist (Table.erase_sublist entries k)

/-- The entries with one of them brought to the end by an event that makes its
key the last one used. -/
theorem order_concat (h : Tracks stale log entries) {e : Use κ ν}
    (he : ∀ k', last (e :: log) k' = if k' = k then log.length + 1 else last log k') :
    (Table.erase Prod.fst entries k ++ [(k, v)]).Pairwise fun a b => last (e :: log) a.1 < last (e :: log) b.1 := by
  rw [List.pairwise_append]
  refine ⟨?_, List.pairwise_singleton _ _, ?_⟩
  · apply (h.erase_order k).imp_of_mem
    intro a b ha hb hlt
    rw [he, he, if_neg (Table.mem_erase.mp ha).2, if_neg (Table.mem_erase.mp hb).2]
    exact hlt
  · intro a ha b hb
    obtain rfl := List.mem_singleton.mp hb
    rw [he, he, if_neg (Table.mem_erase.mp ha).2, if_pos rfl]
    exact Nat.lt_succ_of_le (last_le log a.1)

/-- A use brings the entry to the end. -/
theorem used (h : Tracks stale log entries) (hv : (k, v) ∈ entries) :
    Tracks stale (.used k :: log) (Table.erase Prod.fst entries k ++ [(k, v)]) := by
  refine ⟨?_, ?_, h.order_concat fun _ => rfl⟩
  · intro e he
    rcases List.mem_append.mp he with he | he
    · exact h.held e (Table.mem_erase.mp he).1
    · exact List.mem_singleton.mp he ▸ h.held _ hv
  · intro k' v' hv'
    apply (h.kept k' v' hv').imp_left
    intro hmem
    by_cases hk : k' = k
    · subst hk
      have hsame : some v' = some v := hv'.symm.trans (h.held _ hv)
      simp [Option.some.inj hsame]
    · exact List.mem_append_left _ (Table.mem_erase.mpr ⟨hmem, hk⟩)

/-- A write puts the entry at the end. -/
theorem wrote (h : Tracks stale log entries) (k : κ) (v : ν) :
    Tracks stale (.wrote k v :: log) (Table.erase Prod.fst entries k ++ [(k, v)]) := by
  refine ⟨?_, ?_, h.order_concat fun _ => rfl⟩
  · intro e he
    rcases List.mem_append.mp he with he | he
    · obtain ⟨hmem, hne⟩ := Table.mem_erase.mp he
      simp only [standing, if_neg hne]
      exact h.held e hmem
    · obtain rfl := List.mem_singleton.mp he
      simp [standing]
  · intro k' v' hv'
    simp only [standing] at hv'
    split_ifs at hv' with hk
    · left
      simp [hk, Option.some.inj hv']
    · apply (h.kept k' v' hv').imp_left
      exact fun hmem => List.mem_append_left _ (Table.mem_erase.mpr ⟨hmem, hk⟩)

/-- A removal drops the entry. -/
theorem dropped (h : Tracks stale log entries) (k : κ) :
    Tracks stale (.dropped k :: log) (Table.erase Prod.fst entries k) := by
  refine ⟨?_, ?_, h.erase_order k⟩
  · intro e he
    obtain ⟨hmem, hne⟩ := Table.mem_erase.mp he
    simp only [standing, if_neg hne]
    exact h.held e hmem
  · intro k' v' hv'
    simp only [standing] at hv'
    split_ifs at hv' with hk
    exact (h.kept k' v' hv').imp_left fun hmem => Table.mem_erase.mpr ⟨hmem, hk⟩

/-- A series of removals. -/
theorem drops (h : Tracks stale log entries) (ks : List κ) :
    Tracks stale (ks.map .dropped ++ log) (entries.filter fun e => e.1 ∉ ks) := by
  induction ks with
  | nil => simpa using h
  | cons k ks ih =>
    have hfilter : entries.filter (fun e => e.1 ∉ k :: ks) = Table.erase Prod.fst (entries.filter fun e => e.1 ∉ ks) k := by
      unfold Table.erase
      rw [List.filter_filter]
      apply List.filter_congr
      intro e _
      simp
    rw [hfilter]
    exact ih.dropped k

/-- A stale entry may be forgotten. -/
theorem forget (h : Tracks stale log entries) (hv : (k, v) ∈ entries) (hs : stale v) :
    Tracks stale log (Table.erase Prod.fst entries k) := by
  refine ⟨fun e he => h.held e (Table.mem_erase.mp he).1, ?_, h.erase_order k⟩
  intro k' v' hv'
  by_cases hk : k' = k
  · subst hk
    have hsame : some v' = some v := hv'.symm.trans (h.held _ hv)
    exact .inr (Option.some.inj hsame ▸ hs)
  · exact (h.kept k' v' hv').imp_left fun hmem => Table.mem_erase.mpr ⟨hmem, hk⟩

theorem cleared (stale : ν → Prop) (log : List (Use κ ν)) : Tracks stale (.cleared :: log) [] :=
  ⟨fun _ he => absurd he List.not_mem_nil, fun _ _ h => (nomatch h), List.Pairwise.nil⟩

end Tracks
