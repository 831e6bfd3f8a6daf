/-
# The dentry cache

`SupermemoryFs` keeps an LRU cache of entries next to the database
(`cache/fs.rs`). `lookup` asks it before `fs_dentry`, and whatever changes an
entry puts or pops the names it knows of. Each operation is the one on the
tables together with what it does to the cache; on the tables it is the same
(`SupermemoryFs.reconcileOne_tables`, `SupermemoryFs.rename_tables`).

Key definitions: `SupermemoryFs`, `SupermemoryFs.lookup`, `SupermemoryFs.reconcileOne`, `SupermemoryFs.rename`.
-/
import Smfs.Lib.Lru
import Smfs.Listing
import Smfs.Names
import Smfs.Reconcile

namespace Smfs

/-- `SupermemoryFs`: the database and the dentry cache. -/
structure SupermemoryFs where
  db : Db
  dentryCache : Lru (Ino × String) Ino

namespace Fs

/-- `lookup` without a cache. -/
def lookupTables (db : Db) (v : Ambient) (parentIno : Ino) (name : String) : Except VfsError (Option FileAttr) :=
  match validateName name with
  | .error e => .error e
  | .ok () =>
    match (if parentIno = ROOT_INO ∧ name = PROFILE_NAME then v.profileFile else none) with
    | some attr => .ok (some attr)
    | none =>
      match db.getInode parentIno with
      | none => .error .notFound
      | some parent =>
        if parent.kind ≠ .dir then .error .notADirectory
        else .ok ((db.childIno parentIno name).bind fun ino => attrOf db v ino)

end Fs

namespace SupermemoryFs

open Fs

/-- An answer, and what a success does to the cache. -/
def answer {ε α : Type} (s : SupermemoryFs) (r : Except ε α × Db)
    (touch : α → Lru (Ino × String) Ino → Lru (Ino × String) Ino) : Except ε α × SupermemoryFs :=
  match r with
  | (.error e, db) => (.error e, { s with db })
  | (.ok a, db) => (.ok a, ⟨db, touch a s.dentryCache⟩)

/-- `lookup`: what the cache holds under the name is not looked for in `fs_dentry`. -/
def lookup (s : SupermemoryFs) (v : Ambient) (parentIno : Ino) (name : String) :
    Except VfsError (Option FileAttr) × SupermemoryFs :=
  match validateName name with
  | .error e => (.error e, s)
  | .ok () =>
    match (if parentIno = ROOT_INO ∧ name = PROFILE_NAME then v.profileFile else none) with
    | some attr => (.ok (some attr), s)
    | none =>
      match s.db.getInode parentIno with
      | none => (.error .notFound, s)
      | some parent =>
        if parent.kind ≠ .dir then (.error .notADirectory, s)
        else
          match s.dentryCache.get (parentIno, name) with
          | (some childIno, cache) => (.ok (attrOf s.db v childIno), { s with dentryCache := cache })
          | (none, cache) =>
            match s.db.childIno parentIno name with
            | some childIno =>
              (.ok (attrOf s.db v childIno), { s with dentryCache := cache.put (parentIno, name) childIno })
            | none => (.ok none, { s with dentryCache := cache })

/-! ### The helpers -/

/-- One round of the loop of `ensure_dirs`. -/
def ensureDir (s : SupermemoryFs) (parentIno : Ino) (part : String) : SupermemoryFs × Ino :=
  let made := Fs.ensureDir s.db parentIno part
  match s.db.childIno parentIno part with
  | some _ => (s, made.2)
  | none => (⟨made.1, s.dentryCache.put (parentIno, part) made.2⟩, made.2)

/-- `ensure_dirs` over the names of a path. -/
def ensureParts (s : SupermemoryFs) (parentIno : Ino) : List String → SupermemoryFs × Ino
  | [] => (s, parentIno)
  | part :: parts => ensureParts (s.ensureDir parentIno part).1 (s.ensureDir parentIno part).2 parts

/-- `ensure_dirs`. -/
def ensureDirs (s : SupermemoryFs) (path : String) : SupermemoryFs × Ino := s.ensureParts ROOT_INO (components path)

/-- `apply_rename_to`. -/
def applyRenameTo (s : SupermemoryFs) (ino : Ino) (newDir newName : String) : Except VfsError Unit × SupermemoryFs :=
  let dirs := s.ensureDirs newDir
  match dirs.1.db.dentryOf ino with
  | none => (.error .io, dirs.1)
  | some old =>
    match moveDentries dirs.1.db ino dirs.2 newName with
    | none => (.error .io, dirs.1)
    | some db =>
      (.ok (), ⟨db, (dirs.1.dentryCache.pop (old.parentIno, old.name)).put (dirs.2, newName) ino⟩)

/-- `remove_derived_sibling`. -/
def removeDerivedSibling (s : SupermemoryFs) (parentIno : Ino) (name : String) : SupermemoryFs :=
  match childInode s.db parentIno name with
  | none => s
  | some i =>
    if i.derived then ⟨Fs.removeDerivedSibling s.db parentIno name, s.dentryCache.pop (parentIno, name)⟩ else s

/-- `cascade_unlink_derived_siblings`. -/
def cascadeUnlinkDerivedSiblings (s : SupermemoryFs) (parentIno : Ino) (name : String) : SupermemoryFs :=
  derivedSiblingSuffixes.foldl (fun s suffix => s.removeDerivedSibling parentIno (name ++ suffix)) s

/-- `rename_derived_sibling`: the cache is told whether or not the entry has moved. -/
def renameDerivedSibling (s : SupermemoryFs) (oldParent : Ino) (oldName : String) (newParent : Ino)
    (newName : String) : SupermemoryFs :=
  match childInode s.db oldParent oldName with
  | none => s
  | some i =>
    if i.derived then
      ⟨Fs.renameDerivedSibling s.db oldParent oldName newParent newName,
        (s.dentryCache.pop (oldParent, oldName)).put (newParent, newName) i.ino⟩
    else s

/-- `cascade_rename_derived_siblings`. -/
def cascadeRenameDerivedSiblings (s : SupermemoryFs) (oldParent : Ino) (oldName : String) (newParent : Ino)
    (newName : String) : SupermemoryFs :=
  derivedSiblingSuffixes.foldl (fun s suffix =>
    s.renameDerivedSibling oldParent (oldName ++ suffix) newParent (newName ++ suffix)) s

/-- `create_derived_sibling`. -/
def createDerivedSibling (s : SupermemoryFs) (filepath : String) (content : Bytes) :
    Except VfsError Ino × SupermemoryFs :=
  if filepath.toList.contains '/' = false then
    (.error (.invalidPath "derived sibling needs path"), s)
  else if (splitPath filepath).2.isEmpty then
    (.error (.invalidPath "derived sibling needs filename"), s)
  else
    let dirs := s.ensureDirs (splitPath filepath).1
    dirs.1.answer (createDerivedAt dirs.1.db dirs.2 (splitPath filepath).2 content) fun ino cache =>
      cache.put (dirs.2, (splitPath filepath).2) ino

/-- `create_raw_stub` once its directory is there. -/
def createStubAt (s : SupermemoryFs) (parentIno : Ino) (filename : String) : Ino × SupermemoryFs :=
  let stub := Fs.createStubAt s.db parentIno filename
  match s.db.childIno parentIno filename with
  | some _ => (stub.1, s)
  | none => (stub.1, ⟨stub.2, s.dentryCache.put (parentIno, filename) stub.1⟩)

/-- `create_raw_stub`. -/
def createRawStub (s : SupermemoryFs) (filepath : String) : Except VfsError Ino × SupermemoryFs :=
  if filepath.toList.contains '/' = false then (.error (.invalidPath "stub needs slashed path"), s)
  else if (splitPath filepath).2.isEmpty then (.error (.invalidPath "stub needs filename"), s)
  else
    let dirs := s.ensureDirs (splitPath filepath).1
    let stub := dirs.1.createStubAt dirs.2 (splitPath filepath).2
    (.ok stub.1, stub.2)

/-! ### The operations on names -/

def mkdir (s : SupermemoryFs) (parentIno : Ino) (name : String) : Except VfsError Ino × SupermemoryFs :=
  s.answer (Fs.mkdir s.db parentIno name) fun ino cache => cache.put (parentIno, name) ino

def rmdir (s : SupermemoryFs) (parentIno : Ino) (name : String) : Except VfsError Unit × SupermemoryFs :=
  s.answer (Fs.rmdir s.db parentIno name) fun _ cache => cache.pop (parentIno, name)

/-- `create_file`. -/
def createFile (s : SupermemoryFs) (online : Bool) (parentIno : Ino) (name : String) :
    Except VfsError SqliteFile × SupermemoryFs :=
  s.answer (Fs.createFile s.db online parentIno name) fun f cache => cache.put (parentIno, name) f.ino

def symlink (s : SupermemoryFs) (parentIno : Ino) (name target : String) : Except VfsError Ino × SupermemoryFs :=
  s.answer (Fs.symlink s.db parentIno name target) fun ino cache => cache.put (parentIno, name) ino

def link (s : SupermemoryFs) (ino newParentIno : Ino) (newName : String) : Except VfsError Unit × SupermemoryFs :=
  s.answer (Fs.link s.db ino newParentIno newName) fun _ cache => cache.put (newParentIno, newName) ino

def unlink (s : SupermemoryFs) (online : Bool) (parentIno : Ino) (name : String) (nowMs : ℤ) :
    Except VfsError Unit × SupermemoryFs :=
  match validateName name with
  | .error e => (.error e, s)
  | .ok () =>
    if parentIno = ROOT_INO && name = PROFILE_NAME then (.error .permissionDenied, s)
    else
      let filepathForApi := childPath s.db parentIno name
      match childInode s.db parentIno name with
      | none => (.error .notFound, s)
      | some i =>
        if i.kind = .dir then (.error .isADirectory, s)
        else
          let db := unlinkEnqueue (unlinkTables s.db parentIno name i) online filepathForApi i.ino nowMs
          (.ok (), (SupermemoryFs.mk db (s.dentryCache.pop (parentIno, name))).cascadeUnlinkDerivedSiblings
            parentIno name)

def rename (s : SupermemoryFs) (online : Bool) (oldParent : Ino) (oldName : String) (newParent : Ino)
    (newName : String) (nowMs : ℤ) : Except VfsError Unit × SupermemoryFs :=
  match validateName oldName, validateName newName with
  | .error e, _ => (.error e, s)
  | .ok (), .error e => (.error e, s)
  | .ok (), .ok () =>
    let oldFilepath := childPath s.db oldParent oldName
    let dstFilepath := childPath s.db newParent newName
    match s.db.childIno oldParent oldName with
    | none => (.error .notFound, s)
    | some srcIno =>
      match s.db.getInode newParent with
      | none => (.error .notFound, s)
      | some dstParent =>
        if dstParent.kind ≠ .dir then (.error .notADirectory, s)
        else
          match s.db.getInode srcIno with
          | none => (.error .io, s)
          | some src =>
            match renameTables s.db src oldParent oldName newParent newName with
            | .error e => (.error e, s)
            | .ok none => (.ok (), s)
            | .ok (some r) =>
              let cache := ((s.dentryCache.pop (oldParent, oldName)).pop (newParent, newName)).put
                (newParent, newName) srcIno
              let db := renamePush r online srcIno oldFilepath (childPath r.db newParent newName) dstFilepath nowMs
              (.ok (), (SupermemoryFs.mk db cache).cascadeRenameDerivedSiblings oldParent oldName newParent newName)

/-! ### The calls of a pull -/

/-- `sync_error_sibling`. -/
def syncErrorSibling (s : SupermemoryFs) (doc : Document) (filepath : String) : SupermemoryFs :=
  if doc.status ≠ "failed" then s
  else (s.createDerivedSibling (filepath ++ ".smfs-error.txt") (bytesOf (extractionFailed doc))).2

/-- `sync_transcription_sibling`. -/
def syncTranscriptionSibling (s : SupermemoryFs) (doc : Document) (filepath : String) : SupermemoryFs :=
  if doc.status ≠ "done" then s
  else
    match doc.content, transcriptionSuffix doc with
    | some (b :: content), some suffix => (s.createDerivedSibling (filepath ++ suffix) (b :: content)).2
    | _, _ => s

/-- `reconcile_one` where the document is mapped to an inode, once the
inode's entry is where the document says. -/
def reconcileContent (s : SupermemoryFs) (ino : Ino) (doc : Document) (nowMs : ℤ) : SupermemoryFs :=
  if doc.status = "done" then
    let db := (mirrorContent s.db ino doc).setMirroredState ino doc.updatedMs (some doc.status) (some nowMs)
    ({ s with db } : SupermemoryFs).syncTranscriptionSibling doc doc.path
  else
    let db := s.db.setMirroredState ino none (some doc.status) (some nowMs)
    ({ s with db } : SupermemoryFs).syncErrorSibling doc doc.path

/-- The entry of a mapped inode moves to where the document is. -/
def renameToDoc (s : SupermemoryFs) (ino : Ino) (doc : Document) : Except VfsError Unit × SupermemoryFs :=
  if resolveFilepath s.db ino = some doc.path then (.ok (), s)
  else s.applyRenameTo ino (splitPath doc.path).1 (splitPath doc.path).2

/-- `reconcile_one` where the document is mapped to an inode. -/
def reconcileMapped (s : SupermemoryFs) (ino : Ino) (doc : Document) (nowMs : ℤ) :
    Except VfsError ReconcileOutcome × SupermemoryFs :=
  if dirtyNewer s.db ino doc then (.ok .skippedDirty, s)
  else if mirroredUpTo s.db ino doc then
    (.ok .unchanged, (s.syncTranscriptionSibling doc doc.path).syncErrorSibling doc doc.path)
  else
    match s.renameToDoc ino doc with
    | (.error e, s) => (.error e, s)
    | (.ok (), s) => (.ok .updated, s.reconcileContent ino doc nowMs)

/-- The content that `reconcile_one` brings to a file it attaches a document to. -/
def attachContent (s : SupermemoryFs) (ino : Ino) (doc : Document) : SupermemoryFs :=
  if doc.status = "done" then
    ({ s with db := mirrorContent s.db ino doc } : SupermemoryFs).syncTranscriptionSibling doc doc.path
  else s

/-- `reconcile_one` where an entry already has the document's path. -/
def reconcileAttach (s : SupermemoryFs) (ino : Ino) (doc : Document) (nowMs : ℤ) :
    Except VfsError ReconcileOutcome × SupermemoryFs :=
  if dirtyNewer s.db ino doc then
    (.ok .skippedDirty, { s with db :=
      { s.db.setRemoteId ino doc.id with queue := s.db.queue.setRemoteId doc.path (some doc.id) } })
  else
    let attached := ({ s with db := s.db.setRemoteId ino doc.id } : SupermemoryFs).attachContent ino doc
    (.ok .attached, { attached with
      db := attached.db.setMirroredState ino doc.updatedMs (some doc.status) (some nowMs) })

/-- `reconcile_one` where nothing has the document's path, and the document is binary. -/
def reconcileBinary (s : SupermemoryFs) (doc : Document) (nowMs : ℤ) :
    Except VfsError ReconcileOutcome × SupermemoryFs :=
  let siblings := (s.syncTranscriptionSibling doc doc.path).syncErrorSibling doc doc.path
  if doc.url.isSome then
    match siblings.createRawStub doc.path with
    | (.error e, s) => (.error e, s)
    | (.ok ino, s) =>
      (.ok .needsRehydrate, { s with db :=
        (s.db.setRemoteId ino doc.id).setMirroredState ino doc.updatedMs (some doc.status) (some nowMs) })
  else (.ok .deferredProcessing, siblings)

/-- `reconcile_one` where nothing has the document's path, and the document is text. -/
def reconcileCreate (s : SupermemoryFs) (parentIno : Ino) (filename : String) (doc : Document) (nowMs : ℤ) :
    Except VfsError ReconcileOutcome × SupermemoryFs :=
  let added := addFile s.db parentIno filename (doc.content.getD [])
  let db := (added.1.setRemoteId added.2 doc.id).setMirroredState added.2 doc.updatedMs (some doc.status) (some nowMs)
  (.ok .created, (SupermemoryFs.mk db (s.dentryCache.put (parentIno, filename) added.2)).syncTranscriptionSibling
    doc doc.path)

/-- `reconcile_one` where the document is mapped to no inode. -/
def reconcileUnmapped (s : SupermemoryFs) (doc : Document) (nowMs : ℤ) :
    Except VfsError ReconcileOutcome × SupermemoryFs :=
  if doc.status ≠ "done" then (.ok .deferredProcessing, s.syncErrorSibling doc doc.path)
  else
    let dirs := s.ensureDirs (splitPath doc.path).1
    match dirs.1.db.childIno dirs.2 (splitPath doc.path).2 with
    | some ino => dirs.1.reconcileAttach ino doc nowMs
    | none =>
      if doc.isBinaryType then dirs.1.reconcileBinary doc nowMs
      else dirs.1.reconcileCreate dirs.2 (splitPath doc.path).2 doc nowMs

/-- `reconcile_one`. -/
def reconcileOne (s : SupermemoryFs) (doc : Document) (nowMs : ℤ) : Except VfsError ReconcileOutcome × SupermemoryFs :=
  match s.db.inoByRemoteId doc.id with
  | some ino => s.reconcileMapped ino doc nowMs
  | none => s.reconcileUnmapped doc nowMs

/-- `apply_deletion`: of the names of the inode one is popped. -/
def applyDeletion (s : SupermemoryFs) (remoteId : String) : Bool × SupermemoryFs :=
  match s.db.inoByRemoteId remoteId with
  | none => (false, s)
  | some ino =>
    if (s.db.getDirtySince ino).isSome then (false, s)
    else
      match s.db.dentryOf ino with
      | none => (false, s)
      | some d => (true, ⟨(Fs.applyDeletion s.db remoteId).2, s.dentryCache.pop (d.parentIno, d.name)⟩)

/-! ### On the tables every operation is the one without a cache -/

section Lemmas

variable {s : SupermemoryFs} {p p' : Ino} {name name' : String} {online : Bool} {nowMs : ℤ} {doc : Document}

@[simp] theorem answer_fst {ε α : Type} {r : Except ε α × Db}
    {touch : α → Lru (Ino × String) Ino → Lru (Ino × String) Ino} :
    (s.answer r touch).1 = r.1 := by
  obtain ⟨res, db⟩ := r
  cases res <;> rfl

@[simp] theorem answer_tables {ε α : Type} {r : Except ε α × Db}
    {touch : α → Lru (Ino × String) Ino → Lru (Ino × String) Ino} : (s.answer r touch).2.db = r.2 := by
  obtain ⟨res, db⟩ := r
  cases res <;> rfl

@[simp] theorem ensureDir_ino {part : String} : (s.ensureDir p part).2 = (Fs.ensureDir s.db p part).2 := by
  unfold ensureDir
  cases s.db.childIno p part <;> rfl

@[simp] theorem ensureDir_tables {part : String} : (s.ensureDir p part).1.db = (Fs.ensureDir s.db p part).1 := by
  unfold ensureDir Fs.ensureDir
  cases s.db.childIno p part <;> rfl

theorem ensureParts_eq {parts : List String} : (s.ensureParts p parts).2 = (Fs.ensureParts s.db p parts).2 ∧
    (s.ensureParts p parts).1.db = (Fs.ensureParts s.db p parts).1 := by
  induction parts generalizing s p with
  | nil => exact ⟨rfl, rfl⟩
  | cons part parts ih =>
    unfold ensureParts Fs.ensureParts
    rw [← ensureDir_ino, ← ensureDir_tables]
    exact ih

@[simp] theorem ensureDirs_ino {path : String} : (s.ensureDirs path).2 = (Fs.ensureDirs s.db path).2 := ensureParts_eq.1

@[simp] theorem ensureDirs_tables {path : String} : (s.ensureDirs path).1.db = (Fs.ensureDirs s.db path).1 :=
  ensureParts_eq.2

theorem applyRenameTo_eq {i : Ino} {dir : String} :
    (s.applyRenameTo i dir name).1 = (Fs.applyRenameTo s.db i dir name).1 ∧
    (s.applyRenameTo i dir name).2.db = (Fs.applyRenameTo s.db i dir name).2 := by
  unfold applyRenameTo Fs.applyRenameTo
  simp only [ensureDirs_tables, ensureDirs_ino]
  cases (Fs.ensureDirs s.db dir).1.dentryOf i with
  | none => exact ⟨rfl, ensureDirs_tables⟩
  | some d =>
    dsimp only
    cases moveDentries (Fs.ensureDirs s.db dir).1 i (Fs.ensureDirs s.db dir).2 name with
    | none => exact ⟨rfl, ensureDirs_tables⟩
    | some db => exact ⟨rfl, rfl⟩

@[simp] theorem removeDerivedSibling_tables :
    (s.removeDerivedSibling p name).db = Fs.removeDerivedSibling s.db p name := by
  unfold removeDerivedSibling Fs.removeDerivedSibling
  cases childInode s.db p name with
  | none => rfl
  | some i => cases h : i.derived <;> simp [h]

@[simp] theorem renameDerivedSibling_tables :
    (s.renameDerivedSibling p name p' name').db = Fs.renameDerivedSibling s.db p name p' name' := by
  unfold renameDerivedSibling Fs.renameDerivedSibling
  cases childInode s.db p name with
  | none => rfl
  | some i => cases h : i.derived <;> simp [h]

theorem foldl_tables {f : SupermemoryFs → String → SupermemoryFs} {g : Db → String → Db}
    (h : ∀ s x, (f s x).db = g s.db x) (xs : List String) : (xs.foldl f s).db = xs.foldl g s.db := by
  induction xs generalizing s with
  | nil => rfl
  | cons x xs ih => rw [List.foldl_cons, List.foldl_cons, ih, h]

@[simp] theorem cascadeUnlink_tables :
    (s.cascadeUnlinkDerivedSiblings p name).db = Fs.cascadeUnlinkDerivedSiblings s.db p name :=
  foldl_tables (fun _ _ => removeDerivedSibling_tables) _

@[simp] theorem cascadeRename_tables :
    (s.cascadeRenameDerivedSiblings p name p' name').db = Fs.cascadeRenameDerivedSiblings s.db p name p' name' :=
  foldl_tables (fun _ _ => renameDerivedSibling_tables) _

theorem createDerivedSibling_eq {filepath : String} {content : Bytes} :
    (s.createDerivedSibling filepath content).1 = (Fs.createDerivedSibling s.db filepath content).1 ∧
      (s.createDerivedSibling filepath content).2.db = (Fs.createDerivedSibling s.db filepath content).2 := by
  unfold createDerivedSibling Fs.createDerivedSibling
  split_ifs <;> simp

@[simp] theorem createStubAt_fst : (s.createStubAt p name).1 = (Fs.createStubAt s.db p name).1 := by
  unfold createStubAt
  cases s.db.childIno p name <;> rfl

@[simp] theorem createStubAt_tables : (s.createStubAt p name).2.db = (Fs.createStubAt s.db p name).2 := by
  unfold createStubAt Fs.createStubAt
  cases s.db.childIno p name <;> rfl

theorem createRawStub_eq {filepath : String} : (s.createRawStub filepath).1 = (Fs.createRawStub s.db filepath).1 ∧
    (s.createRawStub filepath).2.db = (Fs.createRawStub s.db filepath).2 := by
  unfold createRawStub Fs.createRawStub
  split_ifs <;> simp

theorem unlink_eq : (s.unlink online p name nowMs).1 = (Fs.unlink s.db online p name nowMs).1 ∧
    (s.unlink online p name nowMs).2.db = (Fs.unlink s.db online p name nowMs).2 := by
  unfold unlink Fs.unlink
  cases validateName name with
  | error e => exact ⟨rfl, rfl⟩
  | ok _ =>
    cases childInode s.db p name with
    | none => dsimp only; split_ifs <;> exact ⟨rfl, rfl⟩
    | some i => dsimp only; split_ifs <;> simp

/-- **A rename does to the tables what it does without a cache.** -/
theorem rename_tables : (s.rename online p name p' name' nowMs).1 = (Fs.rename s.db online p name p' name' nowMs).1 ∧
    (s.rename online p name p' name' nowMs).2.db = (Fs.rename s.db online p name p' name' nowMs).2 := by
  unfold rename Fs.rename
  cases validateName name with
  | error e => exact ⟨rfl, rfl⟩
  | ok _ =>
    cases validateName name' with
    | error e => exact ⟨rfl, rfl⟩
    | ok _ =>
      dsimp only
      cases s.db.childIno p name with
      | none => exact ⟨rfl, rfl⟩
      | some i =>
        cases s.db.getInode p' with
        | none => exact ⟨rfl, rfl⟩
        | some x =>
          dsimp only
          split_ifs
          · exact ⟨rfl, rfl⟩
          · cases s.db.getInode i with
            | none => exact ⟨rfl, rfl⟩
            | some src =>
              dsimp only
              cases renameTables s.db src p name p' name' with
              | error e => exact ⟨rfl, rfl⟩
              | ok r =>
                cases r with
                | none => exact ⟨rfl, rfl⟩
                | some r => exact ⟨rfl, cascadeRename_tables⟩

@[simp] theorem syncErrorSibling_tables {filepath : String} :
    (s.syncErrorSibling doc filepath).db = Fs.syncErrorSibling s.db doc filepath := by
  unfold syncErrorSibling Fs.syncErrorSibling
  split_ifs
  · rfl
  · exact createDerivedSibling_eq.2

@[simp] theorem syncTranscriptionSibling_tables {filepath : String} :
    (s.syncTranscriptionSibling doc filepath).db = Fs.syncTranscriptionSibling s.db doc filepath := by
  unfold syncTranscriptionSibling Fs.syncTranscriptionSibling
  split_ifs
  · rfl
  · cases doc.content with
    | none => rfl
    | some content =>
      cases content with
      | nil => rfl
      | cons b content =>
        cases transcriptionSuffix doc with
        | none => rfl
        | some suffix => exact createDerivedSibling_eq.2

@[simp] theorem reconcileContent_tables {i : Ino} :
    (s.reconcileContent i doc nowMs).db = Fs.reconcileContent s.db i doc nowMs := by
  unfold reconcileContent Fs.reconcileContent
  split_ifs <;> simp

theorem renameToDoc_eq {i : Ino} : (s.renameToDoc i doc).1 = (Fs.renameToDoc s.db i doc).1 ∧
    (s.renameToDoc i doc).2.db = (Fs.renameToDoc s.db i doc).2 := by
  unfold renameToDoc Fs.renameToDoc
  split_ifs
  · exact ⟨rfl, rfl⟩
  · exact applyRenameTo_eq

theorem reconcileMapped_eq {i : Ino} : (s.reconcileMapped i doc nowMs).1 = (Fs.reconcileMapped s.db i doc nowMs).1 ∧
    (s.reconcileMapped i doc nowMs).2.db = (Fs.reconcileMapped s.db i doc nowMs).2 := by
  unfold reconcileMapped Fs.reconcileMapped
  split_ifs
  · exact ⟨rfl, rfl⟩
  · exact ⟨rfl, by simp⟩
  · obtain ⟨hres, hdb⟩ := @renameToDoc_eq s doc i
    generalize s.renameToDoc i doc = r at hres hdb ⊢
    generalize Fs.renameToDoc s.db i doc = r' at hres hdb ⊢
    obtain ⟨res, t⟩ := r
    obtain ⟨res', db⟩ := r'
    obtain rfl : res = res' := hres
    obtain rfl : t.db = db := hdb
    cases res with
    | error e => exact ⟨rfl, rfl⟩
    | ok _ => exact ⟨rfl, reconcileContent_tables⟩

@[simp] theorem attachContent_tables {i : Ino} : (s.attachContent i doc).db = Fs.attachContent s.db i doc := by
  unfold attachContent Fs.attachContent
  split_ifs <;> simp

theorem reconcileAttach_eq {i : Ino} : (s.reconcileAttach i doc nowMs).1 = (Fs.reconcileAttach s.db i doc nowMs).1 ∧
    (s.reconcileAttach i doc nowMs).2.db = (Fs.reconcileAttach s.db i doc nowMs).2 := by
  unfold reconcileAttach Fs.reconcileAttach
  split_ifs <;> simp

theorem reconcileBinary_eq : (s.reconcileBinary doc nowMs).1 = (Fs.reconcileBinary s.db doc nowMs).1 ∧
    (s.reconcileBinary doc nowMs).2.db = (Fs.reconcileBinary s.db doc nowMs).2 := by
  unfold reconcileBinary Fs.reconcileBinary
  dsimp only
  rw [← syncTranscriptionSibling_tables, ← syncErrorSibling_tables]
  generalize (s.syncTranscriptionSibling doc doc.path).syncErrorSibling doc doc.path = t
  split_ifs
  · obtain ⟨hres, hdb⟩ := @createRawStub_eq t doc.path
    generalize t.createRawStub doc.path = r at hres hdb ⊢
    generalize Fs.createRawStub t.db doc.path = r' at hres hdb ⊢
    obtain ⟨res, u⟩ := r
    obtain ⟨res', db⟩ := r'
    obtain rfl : res = res' := hres
    obtain rfl : u.db = db := hdb
    cases res <;> exact ⟨rfl, rfl⟩
  · exact ⟨rfl, rfl⟩

theorem reconcileUnmapped_eq : (s.reconcileUnmapped doc nowMs).1 = (Fs.reconcileUnmapped s.db doc nowMs).1 ∧
    (s.reconcileUnmapped doc nowMs).2.db = (Fs.reconcileUnmapped s.db doc nowMs).2 := by
  unfold reconcileUnmapped Fs.reconcileUnmapped
  by_cases hdone : doc.status ≠ "done"
  · rw [if_pos hdone, if_pos hdone]
    exact ⟨rfl, syncErrorSibling_tables⟩
  · rw [if_neg hdone, if_neg hdone]
    dsimp only
    rw [← ensureDirs_tables, ← ensureDirs_ino]
    generalize s.ensureDirs (splitPath doc.path).1 = dirs
    cases dirs.1.db.childIno dirs.2 (splitPath doc.path).2 with
    | some i => exact reconcileAttach_eq
    | none =>
      dsimp only
      split_ifs
      · exact reconcileBinary_eq
      · exact ⟨rfl, syncTranscriptionSibling_tables⟩

/-- **A reconcile does to the tables what it does without a cache.** -/
theorem reconcileOne_tables : (s.reconcileOne doc nowMs).1 = (Fs.reconcileOne s.db doc nowMs).1 ∧
    (s.reconcileOne doc nowMs).2.db = (Fs.reconcileOne s.db doc nowMs).2 := by
  unfold reconcileOne Fs.reconcileOne
  cases s.db.inoByRemoteId doc.id with
  | some i => exact reconcileMapped_eq
  | none => exact reconcileUnmapped_eq

theorem applyDeletion_eq {rid : String} : (s.applyDeletion rid).1 = (Fs.applyDeletion s.db rid).1 ∧
    (s.applyDeletion rid).2.db = (Fs.applyDeletion s.db rid).2 := by
  unfold applyDeletion
  cases hi : s.db.inoByRemoteId rid with
  | none => unfold Fs.applyDeletion; rw [hi]; exact ⟨rfl, rfl⟩
  | some i =>
    dsimp only
    split_ifs with hd
    · unfold Fs.applyDeletion
      rw [hi]
      dsimp only
      rw [if_pos hd]
      exact ⟨rfl, rfl⟩
    · cases hp : s.db.dentryOf i with
      | none =>
        unfold Fs.applyDeletion
        rw [hi]
        dsimp only
        rw [if_neg hd, hp]
        exact ⟨rfl, rfl⟩
      | some d =>
        refine ⟨?_, rfl⟩
        unfold Fs.applyDeletion
        rw [hi]
        dsimp only
        rw [if_neg hd, hp]

/-- A lookup changes the cache only. -/
@[simp] theorem lookup_tables {v : Ambient} : (s.lookup v p name).2.db = s.db := by
  unfold lookup
  repeat' first | rfl | split

end Lemmas

end SupermemoryFs
end Smfs
