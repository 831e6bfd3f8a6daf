/-
# Open files

`SqliteFile` (`cache/file.rs`): a handle is an inode number and the filepath
the file had when it was opened. `write` and `truncate` work on the chunks of
`fs_data`, `read` puts the bytes together again; `flush` enqueues a push of the whole file under the handle's
filepath.

Key definitions: `SqliteFile`, `SqliteFile.read`, `SqliteFile.write`, `SqliteFile.truncate`,
`SqliteFile.flush`.
-/
import Smfs.Tree

namespace Smfs

/-- `MAX_FILE_SIZE`. -/
def MAX_FILE_SIZE : ℕ := 100 * 1024 * 1024

/-- `PUSH_DEBOUNCE_MS`. -/
def PUSH_DEBOUNCE_MS : ℤ := 500

/-- `n as u64` of a signed integer. -/
def asU64 (n : ℤ) : ℕ := (n % 2 ^ 64).toNat

/-- `n as i64` of an unsigned integer. -/
def asI64 (n : ℕ) : ℤ := if n < 2 ^ 63 then n else (n : ℤ) - 2 ^ 64

/-- `SqliteFile`. `online` says that the mount has an API client. -/
structure SqliteFile where
  ino : Ino
  online : Bool
  filepath : Option String
  deriving DecidableEq, Repr

namespace SqliteFile

/-- The buffer of a chunk with bytes written into it at an offset. -/
def overwrite (buf : Bytes) (off : ℕ) (bytes : Bytes) : Bytes :=
  let buf := buf ++ List.replicate (off + bytes.length - buf.length) 0
  buf.take off ++ bytes ++ buf.drop (off + bytes.length)

/-- The loop of `write`, for at most `fuel` chunks. -/
def writeChunks (db : Db) (ino : Ino) : ℕ → ℕ → Bytes → Db
  | 0, _, _ => db
  | fuel + 1, offset, data =>
    if data.isEmpty then db
    else
      let toWrite := min (CHUNK_SIZE - offset % CHUNK_SIZE) data.length
      let chunk := if toWrite ≠ CHUNK_SIZE
        then overwrite ((db.getChunk ino (offset / CHUNK_SIZE)).getD []) (offset % CHUNK_SIZE)
          (data.take toWrite)
        else data.take toWrite
      writeChunks (db.putChunk ino (offset / CHUNK_SIZE) chunk) ino fuel (offset + toWrite)
        (data.drop toWrite)

/-- `write`: the bytes written, or an error that leaves the tables alone. -/
def write (db : Db) (f : SqliteFile) (offset : ℕ) (data : Bytes) (nowMs : ℤ) : Except VfsError ℕ × Db :=
  if data.isEmpty then (.ok 0, db)
  else if offset + data.length > MAX_FILE_SIZE then
    (.error (.invalidPath "file exceeds 100 MB cap"), db)
  else
    match db.getInode f.ino with
    | none => (.error .notFound, db)
    | some i =>
      let newSize := max (asU64 i.size) (offset + data.length)
      (.ok data.length, (writeChunks db f.ino data.length offset data).updInode f.ino fun i =>
        { i with size := asI64 newSize, dirtySince := some nowMs })

/-- `truncate`. The dirty mark stays as it is. -/
def truncate (db : Db) (f : SqliteFile) (size : ℕ) : Db :=
  let db := if size = 0 then db.delData f.ino
    else
      let lastChunk := (size - 1) / CHUNK_SIZE
      let db := { db with data := db.data.filter fun c => !(c.ino = f.ino && lastChunk < c.index) }
      let remainder := size % CHUNK_SIZE
      match db.getChunk f.ino lastChunk with
      | some chunk =>
        if 0 < remainder && remainder < chunk.length then db.putChunk f.ino lastChunk (chunk.take remainder)
        else db
      | none => db
  db.updInode f.ino fun i => { i with size := asI64 size }

/-- Zeros for `gap` chunks that are missing before a row, from the chunk
`next` on: the inner loop of `read`. -/
def fillGap (startChunk startOffset readSize : ℕ) : ℕ → ℕ → Bytes → Bytes
  | 0, _, result => result
  | gap + 1, next, result =>
    if result.length < readSize then
      let skip := if next = startChunk then startOffset else 0
      fillGap startChunk startOffset readSize gap (next + 1)
        (result ++ List.replicate (min (CHUNK_SIZE - skip) (readSize - result.length)) 0)
    else result

/-- The loop of `read` over the rows; `none` where the slice of a row is out
of its range, which panics. -/
def readRows (startChunk startOffset readSize : ℕ) : List Chunk → ℕ → Bytes → Option Bytes
  | [], _, result => some result
  | row :: rows, next, result =>
    let result := fillGap startChunk startOffset readSize (row.index - next) next result
    if readSize ≤ result.length then some result
    else
      let skip := if row.index = startChunk then startOffset else 0
      let take := min (row.data.length - skip) (readSize - result.length)
      if row.data.length < skip + take then none
      else readRows startChunk startOffset readSize rows (row.index + 1)
        (result ++ (row.data.drop skip).take take)

/-- `read`; `none` is a panic. -/
def read (db : Db) (f : SqliteFile) (offset size : ℕ) : Option (Except VfsError Bytes) :=
  match db.getInode f.ino with
  | none => some (.error .notFound)
  | some i =>
    let fileSize := asU64 i.size
    if offset ≥ fileSize then some (.ok [])
    else
      let readSize := min size (fileSize - offset)
      let startChunk := offset / CHUNK_SIZE
      let endChunk := (offset + readSize - 1) / CHUNK_SIZE
      let rows := ((db.chunksOf f.ino).filter fun c => startChunk ≤ c.index && c.index ≤ endChunk).insertionSort
        fun a b => a.index ≤ b.index
      (readRows startChunk (offset % CHUNK_SIZE) readSize rows startChunk []).map fun result =>
        .ok (result ++ List.replicate (readSize - result.length) 0)

/-- `flush`: the push of a file that is not empty. -/
def flush (db : Db) (f : SqliteFile) (nowMs : ℤ) : Db :=
  match f.online, f.filepath with
  | true, some filepath =>
    let size := ((db.getInode f.ino).map Inode.size).getD 0
    if size = 0 then db
    else
      let existingRemoteId := db.getRemoteId f.ino
      let op := if existingRemoteId.isSome then PushOp.update else PushOp.create
      { db with queue := db.queue.upsert filepath ⟨op, some f.ino, none⟩ existingRemoteId
                  (nowMs + PUSH_DEBOUNCE_MS) }
  | _, _ => db

/-! ### What the calls leave alone -/

section Lemmas

open Db

variable {db : Db} {f : SqliteFile} {i : Ino} {nowMs : ℤ}

theorem writeChunks_keeps {ino : Ino} (h : i ≠ ino) : ∀ {fuel offset : ℕ} {data : Bytes} {db : Db},
    Keeps i db (writeChunks db ino fuel offset data) := by
  intro fuel
  induction fuel with
  | zero => exact fun {_ _ _} => .refl _ _
  | succ fuel ih =>
    intro offset data db
    unfold writeChunks
    split_ifs
    · exact .refl _ _
    · exact (keeps_putChunk h).trans ih

theorem writeChunks_sameSync {ino : Ino} : ∀ {fuel offset : ℕ} {data : Bytes} {db : Db},
    SameSync db (writeChunks db ino fuel offset data) := by
  intro fuel
  induction fuel with
  | zero => exact fun {_ _ _} => .refl _
  | succ fuel ih =>
    intro offset data db
    unfold writeChunks
    split_ifs
    · exact .refl _
    · exact putChunk_sameSync.trans ih

theorem write_keeps {offset : ℕ} {data : Bytes} (h : i ≠ f.ino) :
    Keeps i db (f.write db offset data nowMs).2 := by
  unfold write
  split_ifs
  · exact .refl _ _
  · exact .refl _ _
  · split
    · exact .refl _ _
    · exact (writeChunks_keeps h).trans (keeps_updInode (fun _ => rfl) h)

theorem write_sameSync {offset : ℕ} {data : Bytes} : SameSync db (f.write db offset data nowMs).2 := by
  unfold write
  split_ifs
  · exact .refl _
  · exact .refl _
  · split
    · exact .refl _
    · have h : SameSync db (writeChunks db f.ino data.length offset data) := writeChunks_sameSync
      exact h.trans ⟨rfl, rfl, rfl⟩

theorem writeChunks_inodes {ino : Ino} : ∀ {fuel offset : ℕ} {data : Bytes} {db : Db},
    (writeChunks db ino fuel offset data).inodes = db.inodes ∧
      (writeChunks db ino fuel offset data).nextIno = db.nextIno := by
  intro fuel
  induction fuel with
  | zero => exact fun {_ _ _} => ⟨rfl, rfl⟩
  | succ fuel ih =>
    intro offset data db
    unfold writeChunks
    split_ifs
    · exact ⟨rfl, rfl⟩
    · exact ih

theorem writeChunks_bounded {ino : Ino} : ∀ {fuel offset : ℕ} {data : Bytes} {db : Db}, db.Bounded →
    ino < db.nextIno → (writeChunks db ino fuel offset data).Bounded := by
  intro fuel
  induction fuel with
  | zero => exact fun h _ => h
  | succ fuel ih =>
    intro offset data db h hi
    unfold writeChunks
    split_ifs
    · exact h
    · exact ih (h.putChunk hi) hi

theorem write_bounded {offset : ℕ} {data : Bytes} (h : db.Bounded) :
    (f.write db offset data nowMs).2.Bounded := by
  unfold write
  split_ifs
  · exact h
  · exact h
  · split
    · exact h
    · rename_i x hx
      exact (writeChunks_bounded h (h.getInode hx)).updInode fun _ => rfl

/-- A write that writes nothing changes nothing. -/
theorem write_none {offset : ℕ} {data : Bytes} (h : ∀ n, (f.write db offset data nowMs).1 ≠ .ok (n + 1)) :
    (f.write db offset data nowMs).2 = db := by
  unfold write at h ⊢
  split_ifs at h ⊢ with h0 h1
  · rfl
  · rfl
  · split at h
    · rfl
    · exfalso
      obtain ⟨b, data, rfl⟩ : ∃ b t, data = b :: t := by
        cases data with
        | nil => exact absurd rfl h0
        | cons b t => exact ⟨b, t, rfl⟩
      exact h data.length rfl

/-- A write gives its inode a new size and marks it dirty. -/
theorem write_file {offset n : ℕ} {data : Bytes} {db' : Db}
    (h : f.write db offset data nowMs = (.ok (n + 1), db')) :
    db'.nextIno = db.nextIno ∧ ∃ x size, db.fileOf f.ino = some x ∧
      db'.fileOf f.ino = some { x with size := size, dirtySince := some nowMs } := by
  unfold write at h
  split_ifs at h
  · cases h
  · cases h
  · split at h
    · cases h
    · rename_i x hx
      simp only [Prod.mk.injEq] at h
      obtain ⟨-, rfl⟩ := h
      obtain ⟨hi, hn⟩ : (writeChunks db f.ino data.length offset data).inodes = db.inodes ∧ _ :=
        writeChunks_inodes
      refine ⟨hn, { x with nlink := 0 }, asI64 (max (asU64 x.size) (offset + data.length)), ?_, ?_⟩
      · rw [fileOf, hx]
        rfl
      · have hg : (writeChunks db f.ino data.length offset data).getInode f.ino = some x := by
          unfold getInode
          rw [hi]
          exact hx
        rw [fileOf, getInode_updInode, if_pos rfl, hg]
        · rfl
        · exact fun _ => rfl

theorem truncate_sameSync {size : ℕ} : SameSync db (f.truncate db size) := by
  unfold truncate
  split_ifs
  · exact ⟨rfl, rfl, rfl⟩
  · dsimp only
    split
    · split_ifs <;> exact ⟨rfl, rfl, rfl⟩
    · exact ⟨rfl, rfl, rfl⟩

/-- A flush enqueues one push at most, and touches nothing else. -/
theorem flush_queue : f.flush db nowMs = db ∨ ∃ filepath op rid, f.filepath = some filepath ∧
    f.flush db nowMs = { db with queue := db.queue.upsert filepath ⟨op, some f.ino, none⟩ rid
                                   (nowMs + PUSH_DEBOUNCE_MS) } := by
  unfold flush
  split
  · rename_i filepath _ hf
    dsimp only
    by_cases hs : ((db.getInode f.ino).map Inode.size).getD 0 = 0
    · rw [if_pos hs]
      exact .inl rfl
    · rw [if_neg hs]
      exact .inr ⟨filepath, _, _, hf, rfl⟩
  · exact .inl rfl

theorem flush_keeps : Keeps i db (f.flush db nowMs) := by
  rcases (flush_queue : f.flush db nowMs = db ∨ _) with h | ⟨p, op, rid, -, h⟩
  · rw [h]
    exact .refl _ _
  · rw [h]
    exact .of_eq rfl rfl rfl

end Lemmas

end SqliteFile
end Smfs
