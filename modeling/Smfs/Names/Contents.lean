/-
# Operations on contents

`write`, `truncate`, `flush` and `setattr` change bytes, sizes and dates, and
the queue. The tree is as it was: the entries, the sorts and link counts of the
inodes, the symlinks and the mappings (`SameTree`).

Key definitions: `Cache.SameTree`.
Key theorems: `Cache.write_sameTree`, `Cache.truncate_sameTree`, `Cache.flush_sameTree`, `Cache.setattr_sameTree`.
-/
import Smfs.Names.Cache

namespace Smfs
namespace Cache

open Db Fs

/-- The tree is the same. -/
structure SameTree (db db' : Db) : Prop where
  dentries : db'.dentries = db.dentries
  sorts : ∀ i, sortOf db' i = sortOf db i
  nlinks : ∀ i, (db'.getInode i).map Inode.nlink = (db.getInode i).map Inode.nlink
  symlinks : db'.symlinks = db.symlinks
  next : db'.nextIno = db.nextIno
  remotes : db'.remotes = db.remotes
  bounded : db.Bounded → db'.Bounded
  plain : (∀ x ∈ db.inodes, x.derived = false) → ∀ x ∈ db'.inodes, x.derived = false

section Lemmas

variable {db db' db₁ : Db} {i : Ino} {nowMs : ℤ}

theorem SameTree.refl (db : Db) : SameTree db db := ⟨rfl, fun _ => rfl, fun _ => rfl, rfl, rfl, rfl, id, id⟩

theorem SameTree.wf (h : SameTree db db') (hwf : WellFormed db) : WellFormed db' :=
  hwf.congr (h.bounded hwf.bounded) h.dentries h.next h.sorts

/-- Of the tables that count here only the sizes and dates of rows change. -/
theorem SameTree.content {f : Inode → Inode} {rows : List Chunk} (hrows : db.Bounded → ∀ c ∈ rows, c.ino < db.nextIno)
    (hf : ∀ x, (f x).ino = x.ino) (hs : ∀ x, ((f x).kind, (f x).derived, (f x).nlink) = (x.kind, x.derived, x.nlink)) :
    SameTree db (({ db with data := rows } : Db).updInode i f) := by
  have hsort (j : Ino) : sortOf (({ db with data := rows } : Db).updInode i f) j = sortOf db j :=
    sortOf_updInode hf fun x => congrArg (fun s => (s.1, s.2.1)) (hs x)
  have hlinks (j : Ino) : ((({ db with data := rows } : Db).updInode i f).getInode j).map Inode.nlink =
      (db.getInode j).map Inode.nlink := by
    rw [getInode_updInode hf]
    split_ifs with hj
    · rw [hj, Option.map_map]
      exact congrArg (fun g => (db.getInode i).map g) (funext fun x => congrArg (fun s => s.2.2) (hs x))
    · rfl
  refine ⟨rfl, hsort, hlinks, rfl, rfl, rfl, fun hb => ?_, fun hp x hx => ?_⟩
  · have hdata : ({ db with data := rows } : Db).Bounded := ⟨hb.inodes, hb.dentries, hrows hb, hb.remotes, hb.sorted⟩
    exact hdata.updInode hf
  · obtain ⟨y, hy, rfl⟩ := Table.mem_modify.mp hx
    have hderived : (f y).derived = y.derived := congrArg (fun s => s.2.1) (hs y)
    split_ifs
    · rw [hderived, hp y hy]
    · exact hp y hy

theorem writeChunks_data {ino : Ino} (fuel offset : ℕ) (data : Bytes) {db : Db} (hi : ino < db.nextIno)
    (hrows : ∀ c ∈ db.data, c.ino < db.nextIno) :
    ∃ rows, SqliteFile.writeChunks db ino fuel offset data = { db with data := rows } ∧ ∀ c ∈ rows,
      c.ino < db.nextIno := by
  induction fuel generalizing db offset data with
  | zero => exact ⟨db.data, rfl, hrows⟩
  | succ fuel ih =>
    unfold SqliteFile.writeChunks
    split_ifs
    · exact ⟨db.data, rfl, hrows⟩
    · dsimp only
      generalize (if min (CHUNK_SIZE - offset % CHUNK_SIZE) data.length ≠ CHUNK_SIZE then _ else _ : Bytes) = chunk
      have hput : ∀ c ∈ (db.putChunk ino (offset / CHUNK_SIZE) chunk).data, c.ino < db.nextIno := by
        intro c hc
        rcases List.mem_append.mp hc with hc | hc
        · exact hrows c (List.mem_filter.mp hc).1
        · obtain rfl := List.mem_singleton.mp hc
          exact hi
      obtain ⟨rows, heq, hrest⟩ := ih (offset + min (CHUNK_SIZE - offset % CHUNK_SIZE) data.length)
        (data.drop (min (CHUNK_SIZE - offset % CHUNK_SIZE) data.length)) (show ino < (db.putChunk ino _ chunk).nextIno from hi) hput
      exact ⟨rows, heq, hrest⟩

theorem write_sameTree {f : SqliteFile} {offset : ℕ} {data : Bytes} (hb : db.Bounded) :
    SameTree db (f.write db offset data nowMs).2 := by
  unfold SqliteFile.write
  split_ifs
  · exact .refl db
  · exact .refl db
  · cases hx : db.getInode f.ino with
    | none => exact .refl db
    | some x =>
      dsimp only
      obtain ⟨rows, heq, hrows⟩ := writeChunks_data data.length offset data (hb.getInode hx) hb.data
      rw [heq]
      exact .content (fun _ => hrows) (fun _ => rfl) fun _ => rfl

theorem truncate_sameTree {f : SqliteFile} {size : ℕ} : SameTree db (f.truncate db size) := by
  have hsub {rows : List Chunk} (hrows : rows ⊆ db.data) : db.Bounded → ∀ c ∈ rows, c.ino < db.nextIno := fun hb c hc =>
    hb.data c (hrows hc)
  unfold SqliteFile.truncate
  dsimp only
  split_ifs with hzero
  · exact .content (hsub (List.filter_subset_self _)) (fun _ => rfl) fun _ => rfl
  · have hcut : db.Bounded → ∀ c ∈ db.data.filter fun c => !(c.ino = f.ino && (size - 1) / CHUNK_SIZE < c.index),
        c.ino < db.nextIno := hsub (List.filter_subset_self _)
    split
    · rename_i chunk hchunk
      split_ifs
      · -- the last chunk is shortened
        refine .content (fun hb c hc => ?_) (fun _ => rfl) fun _ => rfl
        rcases List.mem_append.mp hc with hc | hc
        · exact hcut hb c (List.mem_filter.mp hc).1
        · obtain rfl := List.mem_singleton.mp hc
          obtain ⟨c, hc, -⟩ := Option.map_eq_some_iff.mp hchunk
          have hmem := List.mem_filter.mp (List.mem_of_find?_eq_some hc)
          have hino : c.ino = f.ino := of_decide_eq_true hmem.2
          exact hino ▸ hcut hb c hmem.1
      · exact .content hcut (fun _ => rfl) fun _ => rfl
    · exact .content hcut (fun _ => rfl) fun _ => rfl

theorem flush_sameTree {f : SqliteFile} : SameTree db (f.flush db nowMs) := by
  have hcases : f.flush db nowMs = db ∨ _ := SqliteFile.flush_queue
  rcases hcases with he | ⟨fp, op, rid, -, he⟩
  · rw [he]
    exact .refl db
  · rw [he]
    exact ⟨rfl, fun _ => rfl, fun _ => rfl, rfl, rfl, rfl, fun hb => ⟨hb.inodes, hb.dentries, hb.data, hb.remotes, hb.sorted⟩,
      id⟩

theorem setattr_sameTree {size : ℕ} : SameTree db (setattrSize db i size).2 := by
  unfold setattrSize
  cases db.getInode i with
  | none => exact .refl db
  | some x =>
    dsimp only
    split
    · exact .refl db
    · exact .refl db
    · exact truncate_sameTree

end Lemmas

end Cache
end Smfs
