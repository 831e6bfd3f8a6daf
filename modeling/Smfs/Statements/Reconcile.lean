/-
# Reconciling, statement by statement

`reconcile_one`, `apply_deletion` and the helpers they call (`cache/fs.rs`) as
programs of SQL statements of which any may fail. None of them opens a
transaction: what is done before an error stays done. A chunk that is inserted
a second time is refused.

Key definitions: `Statements.ensureDirs`, `Statements.applyRenameTo`, `Statements.rewriteFileContent`,
`Statements.createDerivedSibling`, `Statements.reconcileOne`, `Statements.applyDeletion`.
-/
import Smfs.Statements

namespace Smfs
namespace Statements

open Sql

/-! ### The functions of `Db` -/

/-- `ino_by_remote_id`. -/
def inoByRemoteId (remoteId : String) : Sqlite (Option Ino) := query fun db => db.inoByRemoteId remoteId

/-- `get_dirty_since`. -/
def getDirtySince (ino : Ino) : Sqlite (Option ℤ) := query fun db => db.getDirtySince ino

/-- The `mirrored_updated_at` of `get_mirrored_state`. -/
def getMirrored (ino : Ino) : Sqlite (Option ℤ) := query fun db => db.getMirrored ino

/-- `set_mirrored_state`. -/
def setMirroredState (ino : Ino) (mirroredUpdatedAt : Option ℤ) (lastStatus : Option String)
    (lastStatusAt : Option ℤ) : Sqlite Unit :=
  ignore (execute fun db => some (db.setMirroredState ino mirroredUpdatedAt lastStatus lastStatusAt))

/-- `push_queue_set_remote_id`. -/
def pushQueueSetRemoteId (filepath remoteId : String) : Sqlite Unit :=
  ignore (executeQueue fun q => q.setRemoteId filepath (some remoteId))

/-! ### Directories and contents -/

/-- A directory that `ensure_dirs` makes. -/
def makeDir (parentIno : Ino) (part : String) : Sqlite Ino := do
  let newIno ← orRaise .io (insertInode .dir 2 0 false)
  orRaise .io (insertDentry part parentIno newIno)
  orRaise .io (updateInode parentIno fun i => { i with nlink := i.nlink + 1 })
  putEntry parentIno part newIno
  pure newIno

/-- One round of the loop of `ensure_dirs`. -/
def ensureDir (parentIno : Ino) (part : String) : Sqlite Ino := do
  let existing ← selectChild parentIno part
  match existing with
  | some ino => pure ino
  | none => makeDir parentIno part

/-- `ensure_dirs` over the names of a path. -/
def ensureParts : Ino → List String → Sqlite Ino
  | parentIno, [] => pure parentIno
  | parentIno, part :: parts => ensureDir parentIno part >>= fun ino => ensureParts ino parts

/-- `ensure_dirs`. -/
def ensureDirs (path : String) : Sqlite Ino := ensureParts ROOT_INO (components path)

/-- `INSERT INTO fs_data`. -/
def insertChunk (c : Chunk) : Sqlite (Option Unit) :=
  execute fun db => if (db.getChunk c.ino c.index).isSome then none else some { db with data := db.data ++ [c] }

/-- Each chunk in its turn. -/
def eachChunk (put : Chunk → Sqlite (Option Unit)) : List Chunk → Sqlite Unit
  | [] => pure ()
  | c :: chunks => orRaise .io (put c) >>= fun _ => eachChunk put chunks

/-- `rewrite_file_content`. -/
def rewriteFileContent (ino : Ino) (content : Bytes) : Sqlite Unit := do
  orRaise .io (deleteData ino)
  eachChunk insertChunk (Fs.chunkRows ino content.length 0 content)
  orRaise .io (updateInode ino fun i => { i with size := content.length })

/-- `apply_rename_to`. -/
def applyRenameTo (ino : Ino) (newDir newName : String) : Sqlite Unit := do
  let newParent ← ensureDirs newDir
  let old ← orRaise .io (query fun db => db.dentryOf ino)
  orRaise .io (execute fun db => Fs.moveDentries db ino newParent newName)
  touch fun cache => (cache.pop (old.parentIno, old.name)).put (newParent, newName) ino

/-! ### Siblings and stubs -/

/-- The derived file that `create_derived_sibling` makes. -/
def makeDerived (parentIno : Ino) (filename : String) (content : Bytes) : Sqlite Ino := do
  let newIno ← orRaise .io (insertInode .reg 1 content.length true)
  orRaise .io (insertDentry filename parentIno newIno)
  eachChunk insertChunk (Fs.chunkRows newIno content.length 0 content)
  putEntry parentIno filename newIno
  pure newIno

/-- The derived file that `create_derived_sibling` finds. -/
def refreshDerived (parentIno : Ino) (filename : String) (i : Inode) (content : Bytes) : Sqlite Ino :=
  if i.derived then do
    rewriteFileContent i.ino content
    putEntry parentIno filename i.ino
    pure i.ino
  else raise .alreadyExists

/-- `create_derived_sibling`. -/
def createDerivedSibling (filepath : String) (content : Bytes) : Sqlite Ino :=
  if filepath.toList.contains '/' = false then raise (.invalidPath "derived sibling needs path")
  else if (splitPath filepath).2.isEmpty then raise (.invalidPath "derived sibling needs filename")
  else do
    let parentIno ← ensureDirs (splitPath filepath).1
    let existing ← query fun db => Fs.childInode db parentIno (splitPath filepath).2
    match existing with
    | some i => refreshDerived parentIno (splitPath filepath).2 i content
    | none => makeDerived parentIno (splitPath filepath).2 content

/-- `sync_error_sibling`. What goes wrong is only logged. -/
def syncErrorSibling (doc : Document) (filepath : String) : Sqlite Unit :=
  if doc.status ≠ "failed" then pure ()
  else attempt (createDerivedSibling (filepath ++ ".smfs-error.txt") (bytesOf (Fs.extractionFailed doc)))

/-- `sync_transcription_sibling`. -/
def syncTranscriptionSibling (doc : Document) (filepath : String) : Sqlite Unit :=
  if doc.status ≠ "done" then pure ()
  else
    match doc.content, Fs.transcriptionSuffix doc with
    | some (b :: content), some suffix => attempt (createDerivedSibling (filepath ++ suffix) (b :: content))
    | _, _ => pure ()

/-- The file that `create_raw_stub` makes. -/
def makeStub (parentIno : Ino) (filename : String) : Sqlite Ino := do
  let ino ← orRaise .io (insertInode .reg 1 0 false)
  orRaise .io (insertDentry filename parentIno ino)
  putEntry parentIno filename ino
  pure ino

/-- `create_raw_stub`. -/
def createRawStub (filepath : String) : Sqlite Ino :=
  if filepath.toList.contains '/' = false then raise (.invalidPath "stub needs slashed path")
  else if (splitPath filepath).2.isEmpty then raise (.invalidPath "stub needs filename")
  else do
    let parentIno ← ensureDirs (splitPath filepath).1
    let existing ← selectChild parentIno (splitPath filepath).2
    match existing with
    | some ino => pure ino
    | none => makeStub parentIno (splitPath filepath).2

/-! ### `reconcile_one` -/

/-- The local write is newer than the version of the document. -/
def dirtyNewer (ino : Ino) (doc : Document) : Sqlite Bool := do
  let dirtySince ← getDirtySince ino
  pure (match dirtySince, doc.updatedMs with
    | some dirtySince, some ms => dirtySince > ms
    | _, _ => false)

/-- The version of the document is one the cache has mirrored. -/
def mirroredUpTo (ino : Ino) (doc : Document) : Sqlite Bool := do
  let mirrored ← getMirrored ino
  pure (match mirrored, doc.updatedMs with
    | some m, some u => m ≥ u && doc.status = "done"
    | _, _ => false)

/-- The content of a text document replaces that of the file. -/
def mirrorContent (ino : Ino) (doc : Document) : Sqlite Unit :=
  if doc.isBinaryType then pure ()
  else
    match doc.content with
    | some content => rewriteFileContent ino content
    | none => pure ()

/-- `reconcile_one` where the document is mapped to an inode, once the
inode's entry is where the document says. -/
def reconcileContent (ino : Ino) (doc : Document) (nowMs : ℤ) : Sqlite Unit :=
  if doc.status = "done" then do
    mirrorContent ino doc
    setMirroredState ino doc.updatedMs (some doc.status) (some nowMs)
    syncTranscriptionSibling doc doc.path
  else do
    setMirroredState ino none (some doc.status) (some nowMs)
    syncErrorSibling doc doc.path

/-- The entry of a mapped inode moves to where the document is. -/
def renameToDoc (ino : Ino) (doc : Document) : Sqlite Unit := do
  let currentFp ← resolveFilepath ino
  if currentFp = some doc.path then pure ()
  else applyRenameTo ino (splitPath doc.path).1 (splitPath doc.path).2

/-- `reconcile_one` where the document is mapped to an inode. -/
def reconcileMapped (ino : Ino) (doc : Document) (nowMs : ℤ) : Sqlite ReconcileOutcome := do
  let dirty ← dirtyNewer ino doc
  if dirty then pure .skippedDirty
  else
    let mirrored ← mirroredUpTo ino doc
    if mirrored then
      syncTranscriptionSibling doc doc.path
      syncErrorSibling doc doc.path
      pure .unchanged
    else
      renameToDoc ino doc
      reconcileContent ino doc nowMs
      pure .updated

/-- The content that `reconcile_one` brings to a file it attaches a document to. -/
def attachContent (ino : Ino) (doc : Document) : Sqlite Unit :=
  if doc.status = "done" then do
    mirrorContent ino doc
    syncTranscriptionSibling doc doc.path
  else pure ()

/-- `reconcile_one` where an entry already has the document's path. -/
def reconcileAttach (ino : Ino) (doc : Document) (nowMs : ℤ) : Sqlite ReconcileOutcome := do
  let dirty ← dirtyNewer ino doc
  if dirty then
    setRemoteId ino doc.id
    pushQueueSetRemoteId doc.path doc.id
    pure .skippedDirty
  else
    setRemoteId ino doc.id
    attachContent ino doc
    setMirroredState ino doc.updatedMs (some doc.status) (some nowMs)
    pure .attached

/-- The stub of a binary document that has a url. -/
def reconcileStub (doc : Document) (nowMs : ℤ) : Sqlite ReconcileOutcome := do
  let ino ← createRawStub doc.path
  setRemoteId ino doc.id
  setMirroredState ino doc.updatedMs (some doc.status) (some nowMs)
  pure .needsRehydrate

/-- `reconcile_one` where nothing has the document's path, and the document is binary. -/
def reconcileBinary (doc : Document) (nowMs : ℤ) : Sqlite ReconcileOutcome := do
  syncTranscriptionSibling doc doc.path
  syncErrorSibling doc doc.path
  if doc.url.isSome then reconcileStub doc nowMs else pure .deferredProcessing

/-- The new file of a document: inode, entry and chunks. -/
def addFile (parentIno : Ino) (filename : String) (content : Bytes) : Sqlite Ino := do
  let ino ← orRaise .io (insertInode .reg 1 content.length false)
  orRaise .io (insertDentry filename parentIno ino)
  eachChunk (fun c => putChunk c.ino c.index c.data) (Fs.chunkRows ino content.length 0 content)
  pure ino

/-- `reconcile_one` where nothing has the document's path, and the document is text. -/
def reconcileCreate (parentIno : Ino) (filename : String) (doc : Document) (nowMs : ℤ) : Sqlite ReconcileOutcome := do
  let fileIno ← addFile parentIno filename (doc.content.getD [])
  putEntry parentIno filename fileIno
  setRemoteId fileIno doc.id
  setMirroredState fileIno doc.updatedMs (some doc.status) (some nowMs)
  syncTranscriptionSibling doc doc.path
  pure .created

/-- `reconcile_one` where the document is mapped to no inode. -/
def reconcileUnmapped (doc : Document) (nowMs : ℤ) : Sqlite ReconcileOutcome :=
  if doc.status ≠ "done" then do
    syncErrorSibling doc doc.path
    pure .deferredProcessing
  else do
    let parentIno ← ensureDirs (splitPath doc.path).1
    let existing ← selectChild parentIno (splitPath doc.path).2
    match existing with
    | some ino => reconcileAttach ino doc nowMs
    | none =>
      if doc.isBinaryType then reconcileBinary doc nowMs
      else reconcileCreate parentIno (splitPath doc.path).2 doc nowMs

/-- `reconcile_one`. -/
def reconcileOne (doc : Document) (nowMs : ℤ) : Sqlite ReconcileOutcome := do
  let existing ← inoByRemoteId doc.id
  match existing with
  | some ino => reconcileMapped ino doc nowMs
  | none => reconcileUnmapped doc nowMs

/-! ### `apply_deletion` -/

/-- What `apply_deletion` deletes after the entries. -/
def deleteRows (ino : Ino) : Sqlite Unit := do
  orRaise .io (deleteData ino)
  orRaise .io (deleteInode ino)
  orRaise .io (deleteRemote ino)

/-- The deletes of `apply_deletion`. -/
def deleteFile (ino : Ino) (d : Dentry) : Sqlite Bool := do
  orRaise .io (execute fun db => some (db.delDentriesOf ino))
  deleteRows ino
  popEntry d.parentIno d.name
  pure true

/-- `apply_deletion` where the document is mapped to an inode. -/
def deleteMapped (ino : Ino) : Sqlite Bool := do
  let dirty ← getDirtySince ino
  if dirty.isSome then pure false
  else
    let entry ← query fun db => db.dentryOf ino
    match entry with
    | none => pure false
    | some d => deleteFile ino d

/-- `apply_deletion`. -/
def applyDeletion (remoteId : String) : Sqlite Bool := do
  let existing ← inoByRemoteId remoteId
  match existing with
  | none => pure false
  | some ino => deleteMapped ino

end Statements
end Smfs
