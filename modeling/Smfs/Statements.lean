/-
# The operations, statement by statement

The operations of `SupermemoryFs` on names (`cache/fs.rs`), `write` and
`truncate` of `SqliteFile` (`cache/file.rs`) and the functions of `Db` they
call, as programs of SQL statements of which any may fail. An operation turns
a failed statement into its error, or goes on as if there were no row, or does
not look at it; what it does between `BEGIN` and `COMMIT` is undone when it
ends without a commit. A constraint refuses a second entry of one name and a
second row of one filepath.

Key definitions: `Statements.Sqlite`, `Statements.mkdir`, `Statements.unlink`, `Statements.link`,
`Statements.rename`, `Statements.write`, `Statements.VfsOp`.
-/
import Smfs.Lib.Sql
import Smfs.DentryCache

namespace Smfs
namespace Statements

open Sql

/-- A program on the database and the dentry cache. -/
abbrev Sqlite (α : Type) := Prog VfsError Db (Lru (Ino × String) Ino) α

/-! ### Single statements -/

/-- `SELECT mode FROM fs_inode WHERE ino = ?`. -/
def selectMode (ino : Ino) : Sqlite (Option FileKind) := query fun db => (db.getInode ino).map Inode.kind

/-- `SELECT ino FROM fs_dentry WHERE parent_ino = ? AND name = ?`. -/
def selectChild (parentIno : Ino) (name : String) : Sqlite (Option Ino) := query fun db => db.childIno parentIno name

/-- `SELECT COUNT(*) FROM fs_dentry WHERE parent_ino = ?`. -/
def countChildren (ino : Ino) : Sqlite (Option ℕ) :=
  query fun db => some (db.dentries.filter fun d => d.parentIno = ino).length

/-- `INSERT INTO fs_inode`, and `last_insert_rowid`. -/
def insertInode (kind : FileKind) (nlink size : ℤ) (derived : Bool) : Sqlite (Option Ino) :=
  statement fun db => some ((db.addInode kind nlink size derived).2, (db.addInode kind nlink size derived).1)

/-- `INSERT INTO fs_dentry`. -/
def insertDentry (name : String) (parentIno ino : Ino) : Sqlite (Option Unit) :=
  execute fun db => if (db.child parentIno name).isSome then none else some (db.addDentry name parentIno ino)

/-- `UPDATE fs_inode SET … WHERE ino = ?`. -/
def updateInode (ino : Ino) (f : Inode → Inode) : Sqlite (Option Unit) := execute fun db => some (db.updInode ino f)

/-- `UPDATE fs_inode` of columns that hold times. -/
def updateTimes : Sqlite (Option Unit) := execute some

def deleteChild (parentIno : Ino) (name : String) : Sqlite (Option Unit) :=
  execute fun db => some (db.delChild parentIno name)

def deleteData (ino : Ino) : Sqlite (Option Unit) := execute fun db => some (db.delData ino)

def deleteSymlink (ino : Ino) : Sqlite (Option Unit) := execute fun db => some (db.delSymlink ino)

def deleteRemote (ino : Ino) : Sqlite (Option Unit) := execute fun db => some (db.deleteRemoteId ino)

def deleteInode (ino : Ino) : Sqlite (Option Unit) := execute fun db => some (db.delInode ino)

def putChunk (ino : Ino) (index : ℕ) (data : Bytes) : Sqlite (Option Unit) :=
  execute fun db => some (db.putChunk ino index data)

def putEntry (parentIno : Ino) (name : String) (ino : Ino) : Sqlite Unit :=
  touch fun cache => cache.put (parentIno, name) ino

def popEntry (parentIno : Ino) (name : String) : Sqlite Unit := touch fun cache => cache.pop (parentIno, name)

/-- A transaction that is committed unless something in it throws. -/
def committed {α : Type} (body : Sqlite α) : Sqlite α := transaction .io (fun _ => true) body

/-! ### The functions of `Db` -/

/-- `get_remote_id`. -/
def getRemoteId (ino : Ino) : Sqlite (Option String) := query fun db => db.getRemoteId ino

/-- `set_remote_id`. -/
def setRemoteId (ino : Ino) (remoteId : String) : Sqlite Unit :=
  ignore (execute fun db => some (db.setRemoteId ino remoteId))

/-- A statement on `push_queue`. -/
def executeQueue (f : PushQueue → PushQueue) : Sqlite (Option Unit) :=
  execute fun db => some { db with queue := f db.queue }

/-- `INSERT INTO push_queue … ON CONFLICT(filepath) DO UPDATE`. -/
def insertOnConflict (filepath : String) (pl : Payload) (remoteId : Option String) (nowMs : ℤ) (q : PushQueue) :
    PushQueue :=
  if (q.get filepath).isSome then q.modify filepath (PushQueue.replaced pl remoteId nowMs)
  else
    { rows := q.rows ++ [PushQueue.newRow q.nextRowid filepath pl remoteId nowMs],
      nextRowid := q.nextRowid + 1 }

/-- `push_queue_upsert`. -/
def pushQueueUpsert (filepath : String) (pl : Payload) (remoteId : Option String) (nowMs : ℤ) : Sqlite Unit :=
  if isMacosNoisePath filepath then pure ()
  else do
    let inflightStarted ← query fun db => (db.queue.get filepath).bind PushRow.inflightStartedAt
    if inflightStarted.isSome then
      ignore (executeQueue fun q => q.modify filepath (PushQueue.parked pl nowMs))
    else ignore (executeQueue (insertOnConflict filepath pl remoteId nowMs))

/-- The `UPDATE` of `push_queue_retarget_pending_create`, and how many rows it
changes. A row that still has the new filepath refuses it. -/
def retarget (oldFp newFp : String) (rebind : Option String) (nowMs : ℤ) (q : PushQueue) : Option (ℕ × PushQueue) :=
  match q.get oldFp with
  | none => some (0, q)
  | some r =>
    if (r.main.op = .create || r.main.op = .uploadBinary) && !r.inflight then
      if newFp ≠ oldFp ∧ (q.get newFp).isSome then none
      else some (1, q.modify oldFp fun r => PushQueue.retargeted r newFp rebind nowMs)
    else some (0, q)

/-- `push_queue_retarget_pending_create`. -/
def pushQueueRetargetPendingCreate (oldFp newFp : String) (rebind : Option String) (nowMs : ℤ) : Sqlite Bool := do
  let eligible ← query fun db => some ((db.queue.get oldFp).any PushQueue.retargetable)
  if eligible.getD false then
    ignore (executeQueue fun q => q.drop newFp)
    let updated ← statement fun db =>
      (retarget oldFp newFp rebind nowMs db.queue).map fun r => (r.1, { db with queue := r.2 })
    pure (updated = some 1)
  else pure false

/-! ### The helpers of `SupermemoryFs` -/

/-- The loop of `resolve_filepath`, for at most `fuel` steps. -/
def resolveParts : ℕ → Ino → Sqlite (Option (List String))
  | 0, current => pure (if current = ROOT_INO then some [] else none)
  | fuel + 1, current =>
    if current = ROOT_INO then pure (some [])
    else
      query (fun db => db.dentryOf current) >>= fun row =>
      match row with
      | some d => resolveParts fuel d.parentIno >>= fun parts => pure (parts.map (· ++ [d.name]))
      | none => pure none

/-- `resolve_filepath`. -/
def resolveFilepath (ino : Ino) : Sqlite (Option String) :=
  if ino = ROOT_INO then pure (some "/")
  else do
    let db ← peek
    let parts ← resolveParts db.dentries.length ino
    pure (parts.map fun parts => "/" ++ "/".intercalate parts)

/-- The filepath of a name in a directory. -/
def childPath (parentIno : Ino) (name : String) : Sqlite (Option String) := do
  let path ← resolveFilepath parentIno
  pure (path.map fun p => joinPath p name)

/-- `remove_derived_sibling`. -/
def removeDerivedSibling (parentIno : Ino) (name : String) : Sqlite Unit := do
  let row ← query fun db => Fs.childInode db parentIno name
  match row with
  | none => pure ()
  | some i =>
    if i.derived then
      ignore (deleteChild parentIno name)
      ignore (deleteData i.ino)
      ignore (deleteInode i.ino)
      popEntry parentIno name
    else pure ()

/-- `rename_derived_sibling`. -/
def renameDerivedSibling (oldParent : Ino) (oldName : String) (newParent : Ino) (newName : String) : Sqlite Unit := do
  let row ← query fun db => Fs.childInode db oldParent oldName
  match row with
  | none => pure ()
  | some i =>
    if i.derived then
      ignore (deleteChild newParent newName)
      ignore (execute fun db => Fs.moveDentries db i.ino newParent newName)
      touch fun cache => (cache.pop (oldParent, oldName)).put (newParent, newName) i.ino
    else pure ()

/-- One program after the other. -/
def eachSuffix (f : String → Sqlite Unit) : List String → Sqlite Unit
  | [] => pure ()
  | suffix :: suffixes => f suffix >>= fun _ => eachSuffix f suffixes

/-- `cascade_unlink_derived_siblings`. -/
def cascadeUnlinkDerivedSiblings (parentIno : Ino) (name : String) : Sqlite Unit :=
  eachSuffix (fun suffix => removeDerivedSibling parentIno (name ++ suffix)) Fs.derivedSiblingSuffixes

/-- `cascade_rename_derived_siblings`. -/
def cascadeRenameDerivedSiblings (oldParent : Ino) (oldName : String) (newParent : Ino) (newName : String) :
    Sqlite Unit :=
  eachSuffix (fun suffix => renameDerivedSibling oldParent (oldName ++ suffix) newParent (newName ++ suffix))
    Fs.derivedSiblingSuffixes

/-! ### The operations on names -/

/-- Whether there is an entry of the name. A count that fails finds none. -/
def exists_ (parentIno : Ino) (name : String) : Sqlite Bool := do
  let count ← query fun db => some (db.child parentIno name).isSome
  pure (count.getD false)

/-- The checks on the place of a new name. -/
def vacant (parentIno : Ino) (name : String) : Sqlite Unit := do
  let mode ← orRaise .notFound (selectMode parentIno)
  if mode ≠ .dir then raise .notADirectory
  else
    let taken ← exists_ parentIno name
    if taken then raise .alreadyExists else pure ()

/-- The transaction of `mkdir`. -/
def mkdirTables (parentIno : Ino) (name : String) : Sqlite Ino := do
  let ino ← orRaise .io (insertInode .dir 2 0 false)
  orRaise .io (insertDentry name parentIno ino)
  orRaise .io (updateInode parentIno fun i => { i with nlink := i.nlink + 1 })
  pure ino

/-- `mkdir`. -/
def mkdir (parentIno : Ino) (name : String) : Sqlite Ino := do
  ofExcept (Fs.validateName name)
  vacant parentIno name
  let ino ← committed (mkdirTables parentIno name)
  putEntry parentIno name ino
  pure ino

/-- The transaction of `rmdir`. -/
def rmdirTables (parentIno : Ino) (name : String) (childIno : Ino) : Sqlite Unit := do
  orRaise .io (deleteChild parentIno name)
  orRaise .io (deleteInode childIno)
  orRaise .io (updateInode parentIno fun p => { p with nlink := max (p.nlink - 1) 2 })

/-- `rmdir`. -/
def rmdir (parentIno : Ino) (name : String) : Sqlite Unit := do
  ofExcept (Fs.validateName name)
  let childIno ← orRaise .notFound (selectChild parentIno name)
  let mode ← orRaise .notFound (selectMode childIno)
  if mode ≠ .dir then raise .notADirectory
  else
    let count ← orRaise .io (countChildren childIno)
    if count > 0 then raise .notEmpty
    else
      committed (rmdirTables parentIno name childIno)
      popEntry parentIno name

/-- The transaction of `create_file`. -/
def createTables (parentIno : Ino) (name : String) : Sqlite Ino := do
  let ino ← orRaise .io (insertInode .reg 1 0 false)
  orRaise .io (insertDentry name parentIno ino)
  orRaise .io updateTimes
  pure ino

/-- `create_file`. -/
def createFile (online : Bool) (parentIno : Ino) (name : String) : Sqlite SqliteFile := do
  ofExcept (Fs.validateName name)
  vacant parentIno name
  let ino ← committed (createTables parentIno name)
  putEntry parentIno name ino
  let filepath ← childPath parentIno name
  pure ⟨ino, online, filepath⟩

/-- Everything of an inode that has lost its last name. -/
def purge (ino : Ino) : Sqlite Unit := do
  orRaise .io (deleteData ino)
  orRaise .io (deleteSymlink ino)
  orRaise .io (deleteRemote ino)
  orRaise .io (deleteInode ino)

/-- The transaction of `unlink`. -/
def unlinkTables (parentIno : Ino) (name : String) (childIno : Ino) : Sqlite Unit := do
  orRaise .io (deleteChild parentIno name)
  orRaise .io updateTimes
  orRaise .io (updateInode childIno fun i => { i with nlink := i.nlink - 1 })
  let nlink ← orRaise .io (query fun db => (db.getInode childIno).map Inode.nlink)
  if nlink ≤ 0 then purge childIno else pure ()

/-- The delete that `unlink` enqueues. -/
def unlinkEnqueue (online : Bool) (filepath : Option String) (childIno : Ino) (nowMs : ℤ) : Sqlite Unit :=
  match online, filepath with
  | true, some fp => do
    let remoteId ← getRemoteId childIno
    pushQueueUpsert fp ⟨.delete, none, none⟩ remoteId nowMs
  | _, _ => pure ()

/-- `unlink`. -/
def unlink (online : Bool) (parentIno : Ino) (name : String) (nowMs : ℤ) : Sqlite Unit := do
  ofExcept (Fs.validateName name)
  if parentIno = ROOT_INO && name = Fs.PROFILE_NAME then raise .permissionDenied
  else
    let filepathForApi ← childPath parentIno name
    let childIno ← orRaise .notFound (selectChild parentIno name)
    let mode ← orRaise .notFound (selectMode childIno)
    if mode = .dir then raise .isADirectory
    else
      committed (unlinkTables parentIno name childIno)
      popEntry parentIno name
      unlinkEnqueue online filepathForApi childIno nowMs
      cascadeUnlinkDerivedSiblings parentIno name

/-- The transaction of `symlink`. -/
def symlinkTables (parentIno : Ino) (name target : String) : Sqlite Ino := do
  let ino ← orRaise .io (insertInode .lnk 1 target.utf8ByteSize false)
  orRaise .io (execute fun db => some (Fs.addSymlink db ino target))
  orRaise .io (insertDentry name parentIno ino)
  orRaise .io updateTimes
  pure ino

/-- `symlink`. -/
def symlink (parentIno : Ino) (name target : String) : Sqlite Ino := do
  ofExcept (Fs.validateName name)
  vacant parentIno name
  let ino ← committed (symlinkTables parentIno name target)
  putEntry parentIno name ino
  pure ino

/-- The transaction of `link`. -/
def linkTables (ino newParentIno : Ino) (newName : String) : Sqlite Unit := do
  orRaise .io (updateInode ino fun i => { i with nlink := i.nlink + 1 })
  orRaise .io (insertDentry newName newParentIno ino)
  orRaise .io updateTimes

/-- `link` up to the cache. -/
def linkNames (ino newParentIno : Ino) (newName : String) : Sqlite Unit := do
  ofExcept (Fs.validateName newName)
  let mode ← orRaise .notFound (selectMode ino)
  if mode = .dir then raise .isADirectory
  else
    vacant newParentIno newName
    committed (linkTables ino newParentIno newName)
    putEntry newParentIno newName ino

/-- `link`: the attributes it answers with are read once all is done. -/
def link (ino newParentIno : Ino) (newName : String) : Sqlite Inode := do
  linkNames ino newParentIno newName
  orRaise .notFound (query fun db => db.getInode ino)

/-- Whether an inode may replace another one under its name. -/
def mayReplace (srcIsDir : Bool) (dstIno : Ino) : Sqlite Unit := do
  let dstMode ← orRaise .io (selectMode dstIno)
  if srcIsDir then
    if dstMode ≠ .dir then raise .notADirectory
    else
      let count ← orRaise .io (countChildren dstIno)
      if count > 0 then raise .notEmpty else pure ()
  else if dstMode = .dir then raise .isADirectory
  else pure ()

/-- What `rename` removes from under the new name; the mapping it had is
read before it goes. -/
def removeDestination (newParent : Ino) (newName : String) (dstIno : Ino) : Sqlite (Option String) := do
  orRaise .io (deleteChild newParent newName)
  orRaise .io (deleteData dstIno)
  orRaise .io (deleteSymlink dstIno)
  let dstRemoteId ← getRemoteId dstIno
  orRaise .io (deleteRemote dstIno)
  orRaise .io (deleteInode dstIno)
  pure dstRemoteId

/-- `UPDATE fs_dentry SET parent_ino = ?, name = ? WHERE parent_ino = ? AND name = ?`. -/
def updateDentry (oldParent : Ino) (oldName : String) (newParent : Ino) (newName : String) : Sqlite (Option Unit) :=
  execute fun db =>
    if (oldParent, oldName) ≠ (newParent, newName) ∧ (db.child oldParent oldName).isSome ∧
        (db.child newParent newName).isSome then none
    else some (Fs.moveChild db oldParent oldName newParent newName)

/-- The move itself, and the times of what it touches. -/
def moveEntry (oldParent : Ino) (oldName : String) (newParent : Ino) (newName : String) : Sqlite Unit := do
  orRaise .io (updateDentry oldParent oldName newParent newName)
  orRaise .io updateTimes
  orRaise .io updateTimes
  if newParent ≠ oldParent then orRaise .io updateTimes else pure ()

/-- The transaction of `rename`: what was overwritten, and nothing for a name
that already is the file's. -/
def renameTables (srcIno : Ino) (srcIsDir : Bool) (dstExisting : Option Ino) (oldParent : Ino) (oldName : String)
    (newParent : Ino) (newName : String) : Sqlite (Option (Bool × Option String)) :=
  match dstExisting with
  | none => do
    moveEntry oldParent oldName newParent newName
    pure (some (false, none))
  | some dstIno =>
    if dstIno = srcIno then pure none
    else do
      mayReplace srcIsDir dstIno
      let dstRemoteId ← removeDestination newParent newName dstIno
      moveEntry oldParent oldName newParent newName
      pure (some (true, dstRemoteId))

/-- The delete that `rename` enqueues for what it overwrote. -/
def enqueueOverwritten (didOverwrite : Bool) (dstFp : Option String) (nowMs : ℤ) : Sqlite Unit :=
  match didOverwrite, dstFp with
  | true, some dstFp => pushQueueUpsert dstFp ⟨.delete, none, none⟩ none nowMs
  | _, _ => pure ()

/-- What `rename` enqueues once the entry has moved. -/
def renameEnqueue (srcIno : Ino) (oldFp newFp : String) (dstFp : Option String) (didOverwrite : Bool)
    (dstRemoteId : Option String) (nowMs : ℤ) : Sqlite Unit := do
  let retargeted ← pushQueueRetargetPendingCreate oldFp newFp dstRemoteId nowMs
  if retargeted then
    match dstRemoteId with
    | some rid => setRemoteId srcIno rid
    | none => pure ()
  else
    enqueueOverwritten didOverwrite dstFp nowMs
    let remoteId ← getRemoteId srcIno
    pushQueueUpsert oldFp ⟨.rename, none, some newFp⟩ remoteId nowMs

/-- What `rename` does once its transaction is committed. -/
def renamePush (online : Bool) (srcIno : Ino) (oldFp newFp dstFp : Option String) (didOverwrite : Bool)
    (dstRemoteId : Option String) (nowMs : ℤ) : Sqlite Unit :=
  match online, oldFp, newFp with
  | true, some oldFp, some newFp => renameEnqueue srcIno oldFp newFp dstFp didOverwrite dstRemoteId nowMs
  | _, _, _ => pure ()

/-- `rename`. -/
def rename (online : Bool) (oldParent : Ino) (oldName : String) (newParent : Ino) (newName : String)
    (nowMs : ℤ) : Sqlite Unit := do
  ofExcept (Fs.validateName oldName)
  ofExcept (Fs.validateName newName)
  let oldFilepath ← childPath oldParent oldName
  let dstFilepath ← childPath newParent newName
  let srcIno ← orRaise .notFound (selectChild oldParent oldName)
  let dstParentMode ← orRaise .notFound (selectMode newParent)
  if dstParentMode ≠ .dir then raise .notADirectory
  else
    let dstExisting ← selectChild newParent newName
    let srcMode ← orRaise .io (selectMode srcIno)
    -- the early return for a name that already is the file's drops the transaction
    let renamed ← transaction .io Option.isSome
      (renameTables srcIno (srcMode = .dir) dstExisting oldParent oldName newParent newName)
    match renamed with
    | none => pure ()
    | some (didOverwrite, dstRemoteId) =>
      touch fun cache =>
        ((cache.pop (oldParent, oldName)).pop (newParent, newName)).put (newParent, newName) srcIno
      let newFilepath ← childPath newParent newName
      renamePush online srcIno oldFilepath newFilepath dstFilepath didOverwrite dstRemoteId nowMs
      cascadeRenameDerivedSiblings oldParent oldName newParent newName

/-! ### Open files -/

/-- The chunk that `write` stores: a chunk that is written in part is read first. -/
def chunkToWrite (ino : Ino) (offset : ℕ) (data : Bytes) : Sqlite Bytes :=
  if data.length ≠ CHUNK_SIZE then do
    let existing ← query fun db => db.getChunk ino (offset / CHUNK_SIZE)
    pure (SqliteFile.overwrite (existing.getD []) (offset % CHUNK_SIZE) data)
  else pure data

/-- The loop of `write`, for at most `fuel` chunks. -/
def writeChunks (ino : Ino) : ℕ → ℕ → Bytes → Sqlite Unit
  | 0, _, _ => pure ()
  | fuel + 1, offset, data =>
    if data.isEmpty then pure ()
    else
      let toWrite := min (CHUNK_SIZE - offset % CHUNK_SIZE) data.length
      chunkToWrite ino offset (data.take toWrite) >>= fun chunk =>
      orRaise .io (putChunk ino (offset / CHUNK_SIZE) chunk) >>= fun _ =>
      writeChunks ino fuel (offset + toWrite) (data.drop toWrite)

/-- The transaction of `write`. -/
def writeTables (f : SqliteFile) (offset : ℕ) (data : Bytes) (nowMs : ℤ) : Sqlite ℕ := do
  let currentSize ← orRaise .notFound (query fun db => (db.getInode f.ino).map Inode.size)
  writeChunks f.ino data.length offset data
  let newSize := max (asU64 currentSize) (offset + data.length)
  orRaise .io (updateInode f.ino fun i => { i with size := asI64 newSize, dirtySince := some nowMs })
  pure data.length

/-- `write`. -/
def write (f : SqliteFile) (offset : ℕ) (data : Bytes) (nowMs : ℤ) : Sqlite ℕ :=
  if data.isEmpty then pure 0
  else if offset + data.length > MAX_FILE_SIZE then raise (.invalidPath "file exceeds 100 MB cap")
  else committed (writeTables f offset data nowMs)

/-- The last chunk that `truncate` keeps. -/
def trimChunk (ino : Ino) (lastChunk remainder : ℕ) : Sqlite Unit :=
  if remainder > 0 then do
    let existing ← query fun db => db.getChunk ino lastChunk
    match existing with
    | some chunk =>
      if chunk.length > remainder then orRaise .io (putChunk ino lastChunk (chunk.take remainder)) else pure ()
    | none => pure ()
  else pure ()

/-- The chunks past the new size go. -/
def dropChunks (ino : Ino) (size : ℕ) : Sqlite Unit :=
  if size = 0 then orRaise .io (deleteData ino)
  else do
    let lastChunk := (size - 1) / CHUNK_SIZE
    orRaise .io (execute fun db => some
      { db with data := db.data.filter fun c => !(c.ino = ino && lastChunk < c.index) })
    trimChunk ino lastChunk (size % CHUNK_SIZE)

/-- The transaction of `truncate`. -/
def truncateTables (f : SqliteFile) (size : ℕ) : Sqlite Unit := do
  dropChunks f.ino size
  orRaise .io (updateInode f.ino fun i => { i with size := asI64 size })

/-- `truncate`. -/
def truncate (f : SqliteFile) (size : ℕ) : Sqlite Unit := committed (truncateTables f size)

/-! ### All of them -/

/-- The operations that change names or contents. -/
inductive VfsOp
  | name (op : Fs.NameOp)
  | write (f : SqliteFile) (offset : ℕ) (data : Bytes)
  | truncate (f : SqliteFile) (size : ℕ)
  deriving DecidableEq, Repr

/-- An operation at a time, with an API client or without; its answer is left out. -/
def VfsOp.run (online : Bool) (nowMs : ℤ) : VfsOp → Sqlite Unit
  | .name (.mkdir p n) => Statements.mkdir p n >>= fun _ => pure ()
  | .name (.rmdir p n) => Statements.rmdir p n
  | .name (.createFile p n) => Statements.createFile online p n >>= fun _ => pure ()
  | .name (.unlink p n) => Statements.unlink online p n nowMs
  | .name (.symlink p n t) => Statements.symlink p n t >>= fun _ => pure ()
  | .name (.link i p n) => Statements.link i p n >>= fun _ => pure ()
  | .name (.rename p n p' n') => Statements.rename online p n p' n' nowMs
  | .write f offset data => Statements.write f offset data nowMs >>= fun _ => pure ()
  | .truncate f size => Statements.truncate f size

end Statements
end Smfs
