/-
# The cache database

The tables of `cache/schema.sql` and the functions of `Db` (`cache/db.rs`)
that read and write them one statement at a time; the functions on
`push_queue` are in `Smfs.Queue`. A table is the list of its rows: `fs_inode`
and `fs_remote` in the order of `ino`, `fs_dentry` in the order of `id`,
`fs_data` in the order of insertion (its readers sort by `chunk_index`).
Columns that nothing here reads (owners, permissions, times) are left out.
Statements do not fail, except where a `UNIQUE` constraint makes them.

Key definitions: `Db`, `Db.openDb`, `Db.setRemoteId`, `Db.setMirroredState`,
`Db.clearRemoteIdAfter404`, `Db.readAllContent`.
Key theorems: `Db.readAllContent_congr`; `Db.Keeps`, `Db.SameSync` and `Db.Bounded` with what keeps them.
-/
import Smfs.Queue
import Smfs.Text
import Mathlib.Data.List.Sort

namespace Smfs

/-- The type bits of `fs_inode.mode`. -/
inductive FileKind
  | dir
  | reg
  | lnk
  deriving DecidableEq, Repr

/-- A row of `fs_inode`. -/
structure Inode where
  ino : Ino
  kind : FileKind
  nlink : ℤ
  size : ℤ
  dirtySince : Option ℤ
  derived : Bool
  deriving DecidableEq, Repr

/-- A row of `fs_dentry`. -/
structure Dentry where
  name : String
  parentIno : Ino
  ino : Ino
  deriving DecidableEq, Repr

/-- A row of `fs_data`. -/
structure Chunk where
  ino : Ino
  index : ℕ
  data : Bytes
  deriving DecidableEq, Repr

/-- A row of `fs_remote`. -/
structure Remote where
  ino : Ino
  remoteId : String
  mirroredUpdatedAt : Option ℤ
  lastStatus : Option String
  lastStatusAt : Option ℤ
  deriving DecidableEq, Repr

/-- The database. `nextIno` is the counter behind `AUTOINCREMENT`. -/
structure Db where
  inodes : List Inode
  nextIno : Ino
  dentries : List Dentry
  data : List Chunk
  symlinks : List (Ino × String)
  remotes : List Remote
  queue : PushQueue
  syncMeta : List (String × String)
  deriving DecidableEq

def ROOT_INO : Ino := 1

/-- `DEFAULT_CHUNK_SIZE`. -/
def CHUNK_SIZE : ℕ := 4096

/-- The row that `ensure_root` inserts. -/
def rootInode : Inode := ⟨ROOT_INO, .dir, 2, 0, none, false⟩

namespace Db

/-! ### Inodes -/

def getInode (db : Db) (ino : Ino) : Option Inode := Table.get Inode.ino db.inodes ino

/-- `UPDATE fs_inode SET … WHERE ino = ?`. -/
def updInode (db : Db) (ino : Ino) (f : Inode → Inode) : Db :=
  { db with inodes := Table.modify Inode.ino db.inodes ino f }

/-- `INSERT INTO fs_inode`, and `last_insert_rowid`. -/
def addInode (db : Db) (kind : FileKind) (nlink size : ℤ) (derived : Bool) : Db × Ino :=
  ({ db with inodes := db.inodes ++ [⟨db.nextIno, kind, nlink, size, none, derived⟩],
             nextIno := db.nextIno + 1 }, db.nextIno)

/-- `DELETE FROM fs_inode WHERE ino = ?`. -/
def delInode (db : Db) (ino : Ino) : Db := { db with inodes := Table.erase Inode.ino db.inodes ino }

/-- `set_dirty_since`. -/
def setDirtySince (db : Db) (ino : Ino) (epochMs : Option ℤ) : Db :=
  db.updInode ino fun i => { i with dirtySince := epochMs }

/-- `get_dirty_since`. -/
def getDirtySince (db : Db) (ino : Ino) : Option ℤ := (db.getInode ino).bind Inode.dirtySince

/-! ### Directory entries -/

/-- `SELECT … FROM fs_dentry WHERE parent_ino = ? AND name = ?`. -/
def child (db : Db) (parentIno : Ino) (name : String) : Option Dentry :=
  db.dentries.find? fun d => d.parentIno = parentIno && d.name = name

/-- `SELECT ino FROM fs_dentry WHERE parent_ino = ? AND name = ?`. -/
def childIno (db : Db) (parentIno : Ino) (name : String) : Option Ino :=
  (db.child parentIno name).map Dentry.ino

/-- `SELECT name, parent_ino FROM fs_dentry WHERE ino = ?`. -/
def dentryOf (db : Db) (ino : Ino) : Option Dentry := Table.get Dentry.ino db.dentries ino

/-- `INSERT INTO fs_dentry`. -/
def addDentry (db : Db) (name : String) (parentIno ino : Ino) : Db :=
  { db with dentries := db.dentries ++ [⟨name, parentIno, ino⟩] }

/-- `DELETE FROM fs_dentry WHERE parent_ino = ? AND name = ?`. -/
def delChild (db : Db) (parentIno : Ino) (name : String) : Db :=
  { db with dentries := db.dentries.filter fun d => !(d.parentIno = parentIno && d.name = name) }

/-- `DELETE FROM fs_dentry WHERE ino = ?`. -/
def delDentriesOf (db : Db) (ino : Ino) : Db :=
  { db with dentries := Table.erase Dentry.ino db.dentries ino }

/-! ### File data -/

/-- The chunks of an inode. -/
def chunksOf (db : Db) (ino : Ino) : List Chunk := db.data.filter fun c => c.ino = ino

def getChunk (db : Db) (ino : Ino) (index : ℕ) : Option Bytes :=
  ((db.chunksOf ino).find? fun c => c.index = index).map Chunk.data

/-- `INSERT OR REPLACE INTO fs_data`. -/
def putChunk (db : Db) (ino : Ino) (index : ℕ) (data : Bytes) : Db :=
  { db with data := (db.data.filter fun c => !(c.ino = ino && c.index = index)) ++ [⟨ino, index, data⟩] }

/-- `DELETE FROM fs_data WHERE ino = ?`. -/
def delData (db : Db) (ino : Ino) : Db := { db with data := db.data.filter fun c => c.ino ≠ ino }

/-- `read_all_content`. -/
def readAllContent (db : Db) (ino : Ino) : Bytes :=
  match db.getInode ino with
  | none => []
  | some i =>
    if i.size ≤ 0 then []
    else
      let rows := (db.chunksOf ino).insertionSort fun a b => a.index ≤ b.index
      (rows.flatMap Chunk.data).take i.size.toNat

/-! ### Symlinks -/

def delSymlink (db : Db) (ino : Ino) : Db := { db with symlinks := db.symlinks.filter fun s => s.1 ≠ ino }

/-! ### Remote documents -/

def getRemote (db : Db) (ino : Ino) : Option Remote := Table.get Remote.ino db.remotes ino

/-- `get_remote_id`. -/
def getRemoteId (db : Db) (ino : Ino) : Option String := (db.getRemote ino).map Remote.remoteId

/-- `set_remote_id`: the row is replaced as a whole, so its other columns are `NULL`. -/
def setRemoteId (db : Db) (ino : Ino) (remoteId : String) : Db :=
  { db with remotes := Table.put Remote.ino ⟨ino, remoteId, none, none, none⟩ db.remotes }

/-- `delete_remote_id`. -/
def deleteRemoteId (db : Db) (ino : Ino) : Db :=
  { db with remotes := Table.erase Remote.ino db.remotes ino }

/-- `set_mirrored_state`: a `NULL` argument keeps the column. -/
def setMirroredState (db : Db) (ino : Ino) (mirroredUpdatedAt : Option ℤ) (lastStatus : Option String)
    (lastStatusAt : Option ℤ) : Db :=
  { db with remotes := Table.modify Remote.ino db.remotes ino fun r =>
      { r with mirroredUpdatedAt := mirroredUpdatedAt.or r.mirroredUpdatedAt,
               lastStatus := lastStatus.or r.lastStatus,
               lastStatusAt := lastStatusAt.or r.lastStatusAt } }

/-- The `mirrored_updated_at` that `get_mirrored_state` returns. -/
def getMirrored (db : Db) (ino : Ino) : Option ℤ := (db.getRemote ino).bind Remote.mirroredUpdatedAt

/-- `ino_by_remote_id`. -/
def inoByRemoteId (db : Db) (remoteId : String) : Option Ino :=
  (db.remotes.find? fun r => r.remoteId = remoteId).map Remote.ino

/-- `clear_remote_id_after_404`. -/
def clearRemoteIdAfter404 (db : Db) (filepath remoteId : String) : Db :=
  { db with queue := db.queue.setRemoteId filepath none,
            remotes := db.remotes.filter fun r => r.remoteId ≠ remoteId }

/-- A row of `inodes_awaiting_done`. -/
structure AwaitingDone where
  ino : Ino
  remoteId : String
  lastStatus : Option String
  lastStatusAt : Option ℤ
  deriving DecidableEq, Repr

/-- `inodes_awaiting_done`. -/
def inodesAwaitingDone (db : Db) : List AwaitingDone :=
  (db.remotes.filter fun r => r.lastStatus ≠ some "done").map fun r =>
    ⟨r.ino, r.remoteId, r.lastStatus, r.lastStatusAt⟩

/-! ### Settings and opening -/

/-- `sync_meta_get`. -/
def syncMetaGet (db : Db) (key : String) : Option String :=
  (Table.get Prod.fst db.syncMeta key).map Prod.snd

/-- `sync_meta_set`. -/
def syncMetaSet (db : Db) (key value : String) : Db :=
  { db with syncMeta := Table.put Prod.fst (key, value) db.syncMeta }

/-- `Db::open` on the tables of an earlier run: `configure_and_init` creates
what is missing, and `ensure_root` inserts the root. No other row changes. -/
def openDb (db : Db) : Db :=
  if (db.getInode ROOT_INO).isSome then db else { db with inodes := rootInode :: db.inodes }

/-- The database of a first mount. -/
def fresh : Db where
  inodes := [rootInode]
  nextIno := 2
  dentries := []
  data := []
  symlinks := []
  remotes := []
  queue := .empty
  syncMeta := []

/-! ### What an update leaves at an inode -/

section Lemmas

variable {db db' : Db} {i j : Ino}

theorem getInode_updInode {f : Inode → Inode} (hf : ∀ x, (f x).ino = x.ino) :
    (db.updInode i f).getInode j = if j = i then (db.getInode i).map f else db.getInode j :=
  Table.get_modify _ _ _ _ fun x h => (hf x).trans h

theorem getInode_ino {x : Inode} (h : db.getInode i = some x) : x.ino = i := (Table.get_some h).2

theorem getInode_updInode_self {f : Inode → Inode} {x : Inode} (hf : ∀ x, (f x).ino = x.ino)
    (h : db.getInode i = some x) : (db.updInode i f).getInode i = some (f x) := by
  rw [getInode_updInode hf, if_pos rfl, h]
  rfl

theorem getInode_setDirtySince {d : Option ℤ} : (db.setDirtySince i d).getInode j =
    if j = i then (db.getInode i).map fun x => { x with dirtySince := d } else db.getInode j :=
  getInode_updInode fun _ => rfl

theorem getInode_addInode {kind : FileKind} {nlink size : ℤ} {derived : Bool} (h : j < db.nextIno) :
    (db.addInode kind nlink size derived).1.getInode j = db.getInode j := by
  have hne : ¬ db.nextIno = j := h.ne'
  show Table.get Inode.ino (db.inodes ++ [_]) j = _
  rw [Table.get_append, Table.get_cons, if_neg hne, Table.get_nil, Option.or_none]
  rfl

theorem getInode_delInode : (db.delInode i).getInode j = if j = i then none else db.getInode j :=
  Table.get_erase _ _ _

theorem chunksOf_putChunk {index : ℕ} {data : Bytes} (h : j ≠ i) :
    (db.putChunk i index data).chunksOf j = db.chunksOf j := by
  simp only [chunksOf, putChunk, List.filter_append, List.filter_filter]
  rw [List.filter_cons_of_neg (by simpa using Ne.symm h), List.filter_nil, List.append_nil]
  refine List.filter_congr fun c _ => ?_
  by_cases hc : c.ino = j
  · simp [hc, h]
  · simp [hc]

theorem chunksOf_delData : (db.delData i).chunksOf j = if j = i then [] else db.chunksOf j := by
  simp only [chunksOf, delData, List.filter_filter]
  split_ifs with h
  · subst h
    simp
  · refine List.filter_congr fun c _ => ?_
    by_cases hc : c.ino = j
    · simp [hc, h]
    · simp [hc]

/-! ### Names -/

/-- An entry is found by its directory and its name. -/
def nameOf (d : Dentry) : Ino × String := (d.parentIno, d.name)

theorem child_eq {name : String} : db.child i name = Table.get nameOf db.dentries (i, name) := by
  unfold child Table.get nameOf
  congr 1
  funext d
  simp

theorem delChild_eq {name : String} : db.delChild i name =
    { db with dentries := Table.erase nameOf db.dentries (i, name) } := by
  unfold delChild Table.erase nameOf
  congr 2
  funext d
  simp

theorem childIno_some {name : String} (h : db.childIno i name = some j) : ⟨name, i, j⟩ ∈ db.dentries := by
  obtain ⟨d, hd, rfl⟩ := Option.map_eq_some_iff.mp h
  rw [child_eq] at hd
  obtain ⟨hm, hk⟩ := Table.get_some hd
  cases d
  cases hk
  exact hm

theorem childIno_isSome {d : Dentry} (h : d ∈ db.dentries) : (db.childIno d.parentIno d.name).isSome = true := by
  unfold childIno
  rw [Option.isSome_map, child_eq]
  have hsome : (Table.get nameOf db.dentries (nameOf d)).isSome = true := Table.get_isSome_of_mem h
  exact hsome

theorem childIno_addDentry {name n : String} {k q : Ino} :
    (db.addDentry name i k).childIno q n = (db.childIno q n).or (if q = i ∧ n = name then some k else none) := by
  unfold childIno
  rw [child_eq, child_eq]
  show (Table.get nameOf (db.dentries ++ [⟨name, i, k⟩]) (q, n)).map Dentry.ino = _
  rw [Table.get_append, Table.get_cons, Table.get_nil]
  by_cases h : q = i ∧ n = name
  · obtain ⟨rfl, rfl⟩ := h
    rw [if_pos (show nameOf ⟨n, q, k⟩ = (q, n) from rfl), if_pos ⟨rfl, rfl⟩]
    cases Table.get nameOf db.dentries (q, n) <;> rfl
  · have hne : ¬ nameOf ⟨name, i, k⟩ = (q, n) := fun he => h ⟨(congrArg Prod.fst he).symm, (congrArg Prod.snd he).symm⟩
    rw [if_neg hne, if_neg h, Option.or_none, Option.or_none]

theorem childIno_delChild {name n : String} {q : Ino} :
    (db.delChild i name).childIno q n = if q = i ∧ n = name then none else db.childIno q n := by
  unfold childIno
  rw [child_eq, child_eq, delChild_eq, Table.get_erase]
  by_cases h : q = i ∧ n = name
  · rw [if_pos h, if_pos (by rw [h.1, h.2])]
    rfl
  · rw [if_neg h, if_neg fun he => h ⟨congrArg Prod.fst he, congrArg Prod.snd he⟩]

/-- The row of an inode but for its link count. -/
def fileOf (db : Db) (ino : Ino) : Option Inode := (db.getInode ino).map fun i => { i with nlink := 0 }

theorem getDirtySince_eq : db.getDirtySince i = (db.fileOf i).bind Inode.dirtySince := by
  unfold getDirtySince fileOf
  cases db.getInode i <;> rfl

/-- The content that is pushed depends on the size and the chunks of the file only. -/
theorem readAllContent_congr (hf : db'.fileOf i = db.fileOf i) (hc : db'.chunksOf i = db.chunksOf i) :
    db'.readAllContent i = db.readAllContent i := by
  have key : ∀ d : Db, d.readAllContent i = match d.fileOf i with
      | none => []
      | some x => if x.size ≤ 0 then [] else
        (((d.chunksOf i).insertionSort fun a b => a.index ≤ b.index).flatMap Chunk.data).take
          x.size.toNat := by
    intro d
    unfold readAllContent fileOf
    cases d.getInode i <;> rfl
  rw [key, key, hf, hc]

/-- Nothing of a file changes but its link count, and inode numbers are only
given out. -/
structure Keeps (i : Ino) (db db' : Db) : Prop where
  file : db'.fileOf i = db.fileOf i
  chunks : db'.chunksOf i = db.chunksOf i
  next : db.nextIno ≤ db'.nextIno

theorem Keeps.refl (i : Ino) (db : Db) : Keeps i db db := ⟨rfl, rfl, le_rfl⟩

theorem Keeps.trans {db₁ db₂ db₃ : Db} (h : Keeps i db₁ db₂) (h' : Keeps i db₂ db₃) : Keeps i db₁ db₃ :=
  ⟨h'.file.trans h.file, h'.chunks.trans h.chunks, h.next.trans h'.next⟩

theorem Keeps.content (h : Keeps i db db') : db'.readAllContent i = db.readAllContent i :=
  readAllContent_congr h.file h.chunks

theorem Keeps.dirty (h : Keeps i db db') : db'.getDirtySince i = db.getDirtySince i := by
  rw [getDirtySince_eq, getDirtySince_eq, h.file]

/-- Only tables that a file is not kept in change. -/
theorem Keeps.of_eq (hi : db'.inodes = db.inodes) (hd : db'.data = db.data)
    (hn : db'.nextIno = db.nextIno) : Keeps i db db' := by
  refine ⟨?_, ?_, hn.ge⟩
  · unfold fileOf getInode; rw [hi]
  · unfold chunksOf; rw [hd]

theorem keeps_updInode {f : Inode → Inode} (hf : ∀ x, (f x).ino = x.ino) (h : i ≠ j) :
    Keeps i db (db.updInode j f) :=
  ⟨by rw [fileOf, getInode_updInode hf, if_neg h]; rfl, rfl, le_rfl⟩

theorem keeps_updNlink {f : ℤ → ℤ} : Keeps i db (db.updInode j fun x => { x with nlink := f x.nlink }) := by
  refine ⟨?_, rfl, le_rfl⟩
  unfold fileOf
  have hf : ∀ x : Inode, ({ x with nlink := f x.nlink } : Inode).ino = x.ino := fun _ => rfl
  rw [getInode_updInode hf]
  split_ifs with h
  · subst h
    cases db.getInode i <;> rfl
  · rfl

theorem keeps_addInode {kind : FileKind} {nlink size : ℤ} {derived : Bool} (h : i < db.nextIno) :
    Keeps i db (db.addInode kind nlink size derived).1 :=
  ⟨by rw [fileOf, getInode_addInode h]; rfl, rfl, Nat.le_succ _⟩

theorem keeps_delInode (h : i ≠ j) : Keeps i db (db.delInode j) :=
  ⟨by rw [fileOf, getInode_delInode, if_neg h]; rfl, rfl, le_rfl⟩

theorem keeps_delData (h : i ≠ j) : Keeps i db (db.delData j) :=
  ⟨rfl, by rw [chunksOf_delData, if_neg h], le_rfl⟩

theorem keeps_putChunk {index : ℕ} {data : Bytes} (h : i ≠ j) : Keeps i db (db.putChunk j index data) :=
  ⟨rfl, chunksOf_putChunk h, le_rfl⟩

theorem keeps_addChunks {rows : List Chunk} (h : ∀ c ∈ rows, c.ino ≠ i) :
    Keeps i db { db with data := db.data ++ rows } := by
  refine ⟨rfl, ?_, le_rfl⟩
  have : (rows.filter fun c => c.ino = i) = [] := by
    rw [List.filter_eq_nil_iff]
    exact fun c hc => by simpa using h c hc
  simp [chunksOf, this]

theorem keeps_addDentry {name : String} {parentIno : Ino} : Keeps i db (db.addDentry name parentIno j) :=
  .of_eq rfl rfl rfl

theorem keeps_delChild {name : String} {parentIno : Ino} : Keeps i db (db.delChild parentIno name) :=
  .of_eq rfl rfl rfl

/-- Nothing that the sync engine keeps changes. -/
structure SameSync (db db' : Db) : Prop where
  queue : db'.queue = db.queue
  remotes : db'.remotes = db.remotes
  syncMeta : db'.syncMeta = db.syncMeta

theorem SameSync.refl (db : Db) : SameSync db db := ⟨rfl, rfl, rfl⟩

theorem SameSync.trans {db₁ db₂ db₃ : Db} (h : SameSync db₁ db₂) (h' : SameSync db₂ db₃) :
    SameSync db₁ db₃ :=
  ⟨h'.queue.trans h.queue, h'.remotes.trans h.remotes, h'.syncMeta.trans h.syncMeta⟩

/-- The push queue and the settings stay. -/
structure SameQueue (db db' : Db) : Prop where
  queue : db'.queue = db.queue
  syncMeta : db'.syncMeta = db.syncMeta

theorem SameQueue.trans {db₁ db₂ db₃ : Db} (h : SameQueue db₁ db₂) (h' : SameQueue db₂ db₃) :
    SameQueue db₁ db₃ := ⟨h'.queue.trans h.queue, h'.syncMeta.trans h.syncMeta⟩

theorem SameSync.sameQueue {db₁ db₂ : Db} (h : SameSync db₁ db₂) : SameQueue db₁ db₂ := ⟨h.queue, h.syncMeta⟩

theorem putChunk_sameSync {index : ℕ} {data : Bytes} : SameSync db (db.putChunk i index data) :=
  ⟨rfl, rfl, rfl⟩

/-! ### Inode numbers -/

/-- Every inode number in the tables has been given out, and `fs_remote` has
one row for an inode. -/
structure Bounded (db : Db) : Prop where
  inodes : ∀ x ∈ db.inodes, x.ino < db.nextIno
  dentries : ∀ d ∈ db.dentries, d.ino < db.nextIno
  data : ∀ c ∈ db.data, c.ino < db.nextIno
  remotes : ∀ r ∈ db.remotes, r.ino < db.nextIno
  sorted : db.remotes.Pairwise fun r r' => r.ino < r'.ino

theorem Bounded.getInode {x : Inode} (h : db.Bounded) (hx : db.getInode i = some x) : i < db.nextIno := by
  obtain ⟨hm, rfl⟩ := Table.get_some hx
  exact h.inodes x hm

/-- A new row has a number that no row has had. -/
theorem Bounded.getInode_addInode {kind : FileKind} {nlink size : ℤ} {derived : Bool} (h : db.Bounded) :
    (db.addInode kind nlink size derived).1.getInode j =
      if j = db.nextIno then some ⟨db.nextIno, kind, nlink, size, none, derived⟩ else db.getInode j := by
  show Table.get Inode.ino (db.inodes ++ [_]) j = _
  rw [Table.get_append, Table.get_cons, Table.get_nil]
  by_cases hj : j = db.nextIno
  · have hnone : Table.get Inode.ino db.inodes j = none :=
      Table.get_none.mpr fun x hx he => absurd (h.inodes x hx) (by rw [he, hj]; exact lt_irrefl _)
    rw [hnone, if_pos hj, if_pos hj.symm]
    rfl
  · rw [if_neg hj, if_neg (Ne.symm hj), Option.or_none]
    rfl

theorem Bounded.childIno {parentIno : Ino} {name : String} (h : db.Bounded)
    (hc : db.childIno parentIno name = some i) : i < db.nextIno := by
  obtain ⟨d, hd, rfl⟩ := Option.map_eq_some_iff.mp hc
  exact h.dentries d (List.mem_of_find?_eq_some hd)

theorem Bounded.inoByRemoteId {rid : String} (h : db.Bounded) (hi : db.inoByRemoteId rid = some i) :
    i < db.nextIno := by
  obtain ⟨r, hr, rfl⟩ := Option.map_eq_some_iff.mp hi
  exact h.remotes r (List.mem_of_find?_eq_some hr)

/-- An id that is found is that of the file's row. -/
theorem getRemoteId_of_ino {rid : String} (hs : db.remotes.Pairwise fun r r' => r.ino < r'.ino)
    (hi : db.inoByRemoteId rid = some i) : db.getRemoteId i = some rid := by
  obtain ⟨r, hr, rfl⟩ := Option.map_eq_some_iff.mp hi
  have hg : db.getRemote r.ino = some r := Table.get_of_mem (Table.nodup_of_sorted hs) (List.mem_of_find?_eq_some hr)
  unfold Db.getRemoteId
  rw [hg]
  have hid : r.remoteId = rid := by simpa using List.find?_some hr
  exact congrArg some hid

theorem Bounded.getRemoteId (h : db.Bounded) (hn : db.nextIno ≤ i) : db.getRemoteId i = none := by
  have hg : db.getRemote i = none := by
    refine Table.get_none.mpr fun r hr he => ?_
    have := h.remotes r hr
    rw [he] at this
    exact absurd this (not_lt.mpr hn)
  unfold Db.getRemoteId
  rw [hg]
  rfl

theorem Bounded.chunksOf (h : db.Bounded) (hn : db.nextIno ≤ i) : db.chunksOf i = [] := by
  refine List.filter_eq_nil_iff.mpr fun c hc he => ?_
  have := h.data c hc
  rw [of_decide_eq_true he] at this
  exact absurd this (not_lt.mpr hn)

theorem Bounded.updInode {f : Inode → Inode} (h : db.Bounded) (hf : ∀ x, (f x).ino = x.ino) :
    (db.updInode i f).Bounded := by
  refine ⟨fun x hx => ?_, h.dentries, h.data, h.remotes, h.sorted⟩
  obtain ⟨y, hy, rfl⟩ := Table.mem_modify.mp hx
  show (if y.ino = i then f y else y).ino < db.nextIno
  split_ifs
  · rw [hf]
    exact h.inodes y hy
  · exact h.inodes y hy

theorem Bounded.addInode {kind : FileKind} {nlink size : ℤ} {derived : Bool} (h : db.Bounded) :
    (db.addInode kind nlink size derived).1.Bounded := by
  have hlt : db.nextIno < db.nextIno + 1 := Nat.lt_succ_self _
  refine ⟨fun x hx => ?_, fun d hd => (h.dentries d hd).trans hlt, fun c hc => (h.data c hc).trans hlt,
    fun r hr => (h.remotes r hr).trans hlt, h.sorted⟩
  rcases List.mem_append.mp hx with hx | hx
  · exact (h.inodes x hx).trans hlt
  · obtain rfl := List.mem_singleton.mp hx
    exact hlt

theorem Bounded.addDentry {name : String} {parentIno : Ino} (h : db.Bounded) (hi : i < db.nextIno) :
    (db.addDentry name parentIno i).Bounded := by
  refine ⟨h.inodes, fun d hd => ?_, h.data, h.remotes, h.sorted⟩
  rcases List.mem_append.mp hd with hd | hd
  · exact h.dentries d hd
  · obtain rfl := List.mem_singleton.mp hd
    exact hi

theorem Bounded.addChunks {rows : List Chunk} (h : db.Bounded) (hr : ∀ c ∈ rows, c.ino < db.nextIno) :
    ({ db with data := db.data ++ rows } : Db).Bounded :=
  ⟨h.inodes, h.dentries, fun c hc => (List.mem_append.mp hc).elim (h.data c) (hr c), h.remotes, h.sorted⟩

theorem Bounded.delData (h : db.Bounded) : (db.delData i).Bounded :=
  ⟨h.inodes, h.dentries, fun c hc => h.data c (List.mem_filter.mp hc).1, h.remotes, h.sorted⟩

theorem Bounded.putChunk {index : ℕ} {data : Bytes} (h : db.Bounded) (hi : i < db.nextIno) :
    (db.putChunk i index data).Bounded := by
  refine ⟨h.inodes, h.dentries, fun c hc => ?_, h.remotes, h.sorted⟩
  rcases List.mem_append.mp hc with hc | hc
  · exact h.data c (List.mem_filter.mp hc).1
  · obtain rfl := List.mem_singleton.mp hc
    exact hi

theorem Bounded.setRemoteId {rid : String} (h : db.Bounded) (hi : i < db.nextIno) :
    (db.setRemoteId i rid).Bounded := by
  refine ⟨h.inodes, h.dentries, h.data, fun r hr => ?_, Table.put_sorted h.sorted⟩
  rcases Table.mem_put hr with rfl | hr
  · exact hi
  · exact h.remotes r hr

theorem Bounded.setMirroredState {u : Option ℤ} {st : Option String} {t : Option ℤ} (h : db.Bounded) :
    (db.setMirroredState i u st t).Bounded := by
  refine ⟨h.inodes, h.dentries, h.data, fun r hr => ?_, Table.modify_sorted (fun _ => rfl) h.sorted⟩
  obtain ⟨x, hx, rfl⟩ := Table.mem_modify.mp hr
  have := h.remotes x hx
  split_ifs <;> exact this

/-- Rows may go, and the tables without inode numbers may change. -/
theorem Bounded.of_subset {db' : Db} (h : db.Bounded) (hn : db'.nextIno = db.nextIno)
    (hi : db'.inodes ⊆ db.inodes) (hd : db'.dentries ⊆ db.dentries) (hc : db'.data ⊆ db.data)
    (hr : db'.remotes.Sublist db.remotes) : db'.Bounded := by
  refine ⟨fun x hx => ?_, fun d hd' => ?_, fun c hc' => ?_, fun r hr' => ?_, h.sorted.sublist hr⟩ <;> rw [hn]
  · exact h.inodes x (hi hx)
  · exact h.dentries d (hd hd')
  · exact h.data c (hc hc')
  · exact h.remotes r (hr.subset hr')

/-! ### The mapping of an inode -/

theorem getRemote_setRemoteId {rid : String} : (db.setRemoteId i rid).getRemote j =
    if j = i then some ⟨i, rid, none, none, none⟩ else db.getRemote j :=
  Table.get_put _ _ _

theorem getRemote_setMirroredState {u : Option ℤ} {st : Option String} {t : Option ℤ} :
    (db.setMirroredState i u st t).getRemote j =
      if j = i then (db.getRemote i).map fun r =>
        { r with mirroredUpdatedAt := u.or r.mirroredUpdatedAt, lastStatus := st.or r.lastStatus,
                 lastStatusAt := t.or r.lastStatusAt }
      else db.getRemote j :=
  Table.get_modify _ _ _ _ fun _ h => h

theorem getRemoteId_setMirroredState {u : Option ℤ} {st : Option String} {t : Option ℤ} :
    (db.setMirroredState i u st t).getRemoteId j = db.getRemoteId j := by
  unfold Db.getRemoteId
  rw [getRemote_setMirroredState]
  split_ifs with h
  · rw [h]
    cases db.getRemote i <;> rfl
  · rfl

theorem getMirrored_setMirroredState {u : Option ℤ} {st : Option String} {t : Option ℤ} :
    (db.setMirroredState i u st t).getMirrored j =
      if j = i then (db.getRemote i).bind fun r => u.or r.mirroredUpdatedAt else db.getMirrored j := by
  unfold getMirrored
  rw [getRemote_setMirroredState]
  split_ifs
  · cases db.getRemote i <;> rfl
  · rfl

theorem SameSync.getRemote {db' : Db} (h : SameSync db db') : db'.getRemote i = db.getRemote i := by
  unfold Db.getRemote
  rw [h.remotes]

theorem SameSync.getRemoteId {db' : Db} (h : SameSync db db') : db'.getRemoteId i = db.getRemoteId i := by
  unfold Db.getRemoteId
  rw [h.getRemote]

theorem SameSync.getMirrored {db' : Db} (h : SameSync db db') : db'.getMirrored i = db.getMirrored i := by
  unfold Db.getMirrored
  rw [h.getRemote]

theorem getRemote_filter {p : Remote → Bool} (hs : db.remotes.Pairwise fun r r' => r.ino < r'.ino) :
    ({ db with remotes := db.remotes.filter p } : Db).getRemote i = db.getRemote i ∨
      ({ db with remotes := db.remotes.filter p } : Db).getRemote i = none := by
  cases hg : ({ db with remotes := db.remotes.filter p } : Db).getRemote i with
  | none => exact .inr rfl
  | some r =>
    obtain ⟨hm, hi⟩ := Table.get_some hg
    have hr : db.getRemote r.ino = some r :=
      Table.get_of_mem (Table.nodup_of_sorted hs) (List.mem_filter.mp hm).1
    rw [hi] at hr
    exact .inl hr.symm

theorem getRemoteId_setRemoteId {rid : String} :
    (db.setRemoteId i rid).getRemoteId j = if j = i then some rid else db.getRemoteId j := by
  unfold Db.getRemoteId
  rw [getRemote_setRemoteId]
  split_ifs <;> rfl

theorem getMirrored_setRemoteId {rid : String} :
    (db.setRemoteId i rid).getMirrored j = if j = i then none else db.getMirrored j := by
  unfold Db.getMirrored
  rw [getRemote_setRemoteId]
  split_ifs <;> rfl

theorem SameSync.setMirroredState {db' : Db} {u : Option ℤ} {st : Option String} {t : Option ℤ}
    (h : SameSync db db') : SameSync (db.setMirroredState i u st t) (db'.setMirroredState i u st t) := by
  refine ⟨h.queue, ?_, h.syncMeta⟩
  unfold Db.setMirroredState
  rw [h.remotes]

/-- A version is recorded where the inode is mapped. -/
theorem getMirrored_set {rid : String} {u : ℤ} {st : Option String} {t : Option ℤ}
    (h : db.getRemoteId i = some rid) : (db.setMirroredState i (some u) st t).getMirrored i = some u := by
  rw [getMirrored_setMirroredState, if_pos rfl]
  obtain ⟨r, hr, -⟩ := Option.map_eq_some_iff.mp h
  rw [hr]
  rfl

/-- Without a version to record the old one stays. -/
theorem getMirrored_set_none {st : Option String} {t : Option ℤ} :
    (db.setMirroredState j none st t).getMirrored i = db.getMirrored i := by
  rw [getMirrored_setMirroredState]
  split_ifs with h
  · rw [h]
    rfl
  · rfl

end Lemmas

end Db
end Smfs
