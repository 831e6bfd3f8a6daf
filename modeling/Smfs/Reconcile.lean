/-
# Reconciling the cache with a document

`SupermemoryFs::reconcile_one` brings one document of the server into the
cache, and `apply_deletion` removes the file of a document that is gone
(`cache/fs.rs`). `nowMs` is the clock at the call.

Key definitions: `Document`, `ReconcileOutcome`, `Fs.reconcileOne`, `Fs.applyDeletion`.
-/
import Smfs.Tree

namespace Smfs

/-- `Document`: the fields of the API's answer that the cache reads. -/
structure Document where
  id : String
  filepath : Option String
  content : Option Bytes
  status : String
  updatedAt : String
  type_ : Option String
  url : Option String
  deriving DecidableEq, Repr

/-- `ReconcileOutcome`. -/
inductive ReconcileOutcome
  | created
  | attached
  | updated
  | unchanged
  | skippedDirty
  | deferredProcessing
  | needsRehydrate
  deriving DecidableEq, Repr

namespace Document

/-- The path a document is materialised at. -/
def path (doc : Document) : String :=
  match doc.filepath with
  | some fp =>
    if fp.toList.contains '/' && fp.toList.getLast? ≠ some '/' then fp else "/" ++ doc.id ++ ".md"
  | none => "/" ++ doc.id ++ ".md"

/-- The types whose `content` is extracted text and not the file itself. -/
def isBinaryType (doc : Document) : Bool :=
  ["image", "pdf", "video", "audio", "webpage"].any fun t => doc.type_ = some t

def updatedMs (doc : Document) : Option ℤ := parseIsoToMs doc.updatedAt

end Document

namespace Fs

/-- The text of an error sibling. -/
def extractionFailed (doc : Document) : String :=
  "smfs: server-side extraction failed for this file.\n\n" ++
  "type: " ++ doc.type_.getD "<unknown>" ++ "\n" ++
  "doc id: " ++ doc.id ++ "\n\n" ++
  "The file is stored on the server but could not be processed.\n" ++
  "To retry, delete this error file and re-copy the source.\n"

/-- `sync_error_sibling`. A sibling that cannot be written is only logged. -/
def syncErrorSibling (db : Db) (doc : Document) (filepath : String) : Db :=
  if doc.status ≠ "failed" then db
  else (createDerivedSibling db (filepath ++ ".smfs-error.txt") (bytesOf (extractionFailed doc))).2

/-- The suffix of the transcription of a document of the type. -/
def transcriptionSuffix (doc : Document) : Option String :=
  match doc.type_ with
  | some "image" => some ".image-transcription.md"
  | some "pdf" => some ".pdf-transcription.md"
  | some "video" => some ".video-transcription.md"
  | some "audio" => some ".audio-transcription.md"
  | some "webpage" => some ".webpage-transcription.md"
  | _ => none

/-- `sync_transcription_sibling`. -/
def syncTranscriptionSibling (db : Db) (doc : Document) (filepath : String) : Db :=
  if doc.status ≠ "done" then db
  else
    match doc.content, transcriptionSuffix doc with
    | some (b :: content), some suffix => (createDerivedSibling db (filepath ++ suffix) (b :: content)).2
    | _, _ => db

/-- The local write is newer than the version of the document. -/
def dirtyNewer (db : Db) (ino : Ino) (doc : Document) : Bool :=
  match db.getDirtySince ino, doc.updatedMs with
  | some dirtySince, some ms => dirtySince > ms
  | _, _ => false

/-- The version of the document is one the cache has mirrored. -/
def mirroredUpTo (db : Db) (ino : Ino) (doc : Document) : Bool :=
  match db.getMirrored ino, doc.updatedMs with
  | some m, some u => m ≥ u && doc.status = "done"
  | _, _ => false

/-- The content of a text document replaces that of the file. -/
def mirrorContent (db : Db) (ino : Ino) (doc : Document) : Db :=
  if doc.isBinaryType then db
  else match doc.content with
    | some content => rewriteFileContent db ino content
    | none => db

/-- `reconcile_one` where the document is mapped to an inode, once the
inode's entry is where the document says. -/
def reconcileContent (db : Db) (ino : Ino) (doc : Document) (nowMs : ℤ) : Db :=
  if doc.status = "done" then
    syncTranscriptionSibling ((mirrorContent db ino doc).setMirroredState ino doc.updatedMs
      (some doc.status) (some nowMs)) doc doc.path
  else
    syncErrorSibling (db.setMirroredState ino none (some doc.status) (some nowMs)) doc doc.path

/-- The entry of a mapped inode moves to where the document is. -/
def renameToDoc (db : Db) (ino : Ino) (doc : Document) : Except VfsError Unit × Db :=
  if resolveFilepath db ino = some doc.path then (.ok (), db)
  else applyRenameTo db ino (splitPath doc.path).1 (splitPath doc.path).2

/-- `reconcile_one` where the document is mapped to an inode. -/
def reconcileMapped (db : Db) (ino : Ino) (doc : Document) (nowMs : ℤ) :
    Except VfsError ReconcileOutcome × Db :=
  if dirtyNewer db ino doc then (.ok .skippedDirty, db)
  else if mirroredUpTo db ino doc then
    (.ok .unchanged, syncErrorSibling (syncTranscriptionSibling db doc doc.path) doc doc.path)
  else
    match renameToDoc db ino doc with
    | (.error e, db) => (.error e, db)
    | (.ok (), db) => (.ok .updated, reconcileContent db ino doc nowMs)

/-- The content that `reconcile_one` brings to a file it attaches a document to. -/
def attachContent (db : Db) (ino : Ino) (doc : Document) : Db :=
  if doc.status = "done" then syncTranscriptionSibling (mirrorContent db ino doc) doc doc.path else db

/-- `reconcile_one` where an entry already has the document's path. -/
def reconcileAttach (db : Db) (ino : Ino) (doc : Document) (nowMs : ℤ) :
    Except VfsError ReconcileOutcome × Db :=
  if dirtyNewer db ino doc then
    (.ok .skippedDirty,
      { db.setRemoteId ino doc.id with queue := db.queue.setRemoteId doc.path (some doc.id) })
  else
    (.ok .attached, (attachContent (db.setRemoteId ino doc.id) ino doc).setMirroredState ino
      doc.updatedMs (some doc.status) (some nowMs))

/-- `reconcile_one` where nothing has the document's path, and the document is binary. -/
def reconcileBinary (db : Db) (doc : Document) (nowMs : ℤ) : Except VfsError ReconcileOutcome × Db :=
  let siblings := syncErrorSibling (syncTranscriptionSibling db doc doc.path) doc doc.path
  if doc.url.isSome then
    match createRawStub siblings doc.path with
    | (.error e, db) => (.error e, db)
    | (.ok ino, db) =>
      (.ok .needsRehydrate, (db.setRemoteId ino doc.id).setMirroredState ino doc.updatedMs
        (some doc.status) (some nowMs))
  else (.ok .deferredProcessing, siblings)

/-- The new file of a document: inode, entry and chunks. -/
def addFile (db : Db) (parentIno : Ino) (filename : String) (content : Bytes) : Db × Ino :=
  let added := db.addInode .reg 1 content.length false
  let db := added.1.addDentry filename parentIno added.2
  ({ db with data := db.data ++ chunkRows added.2 content.length 0 content }, added.2)

/-- `reconcile_one` where nothing has the document's path, and the document is text. -/
def reconcileCreate (db : Db) (parentIno : Ino) (filename : String) (doc : Document) (nowMs : ℤ) :
    Except VfsError ReconcileOutcome × Db :=
  let added := addFile db parentIno filename (doc.content.getD [])
  (.ok .created, syncTranscriptionSibling ((added.1.setRemoteId added.2 doc.id).setMirroredState added.2
    doc.updatedMs (some doc.status) (some nowMs)) doc doc.path)

/-- `reconcile_one` where the document is mapped to no inode. -/
def reconcileUnmapped (db : Db) (doc : Document) (nowMs : ℤ) : Except VfsError ReconcileOutcome × Db :=
  if doc.status ≠ "done" then (.ok .deferredProcessing, syncErrorSibling db doc doc.path)
  else
    let dirs := ensureDirs db (splitPath doc.path).1
    match dirs.1.childIno dirs.2 (splitPath doc.path).2 with
    | some ino => reconcileAttach dirs.1 ino doc nowMs
    | none =>
      if doc.isBinaryType then reconcileBinary dirs.1 doc nowMs
      else reconcileCreate dirs.1 dirs.2 (splitPath doc.path).2 doc nowMs

/-- `reconcile_one`. -/
def reconcileOne (db : Db) (doc : Document) (nowMs : ℤ) : Except VfsError ReconcileOutcome × Db :=
  match db.inoByRemoteId doc.id with
  | some ino => reconcileMapped db ino doc nowMs
  | none => reconcileUnmapped db doc nowMs

/-- `apply_deletion`: nothing for a document that is not mapped, a file with
local changes, or one without an entry. -/
def applyDeletion (db : Db) (remoteId : String) : Bool × Db :=
  match db.inoByRemoteId remoteId with
  | none => (false, db)
  | some ino =>
    if (db.getDirtySince ino).isSome then (false, db)
    else
      match db.dentryOf ino with
      | none => (false, db)
      | some _ => (true, (((db.delDentriesOf ino).delData ino).delInode ino).deleteRemoteId ino)

/-! ### What a reconcile does to a file and to the queue -/

section Lemmas

open Db

variable {db : Db} {i j : Ino} {doc : Document} {nowMs : ℤ}

theorem syncErrorSibling_keeps {filepath : String} (h : i < db.nextIno) (hd : NotDerived db i) :
    Keeps i db (syncErrorSibling db doc filepath) := by
  unfold syncErrorSibling
  split_ifs
  · exact .refl _ _
  · exact createDerivedSibling_keeps h hd

theorem syncErrorSibling_sameSync {filepath : String} : SameSync db (syncErrorSibling db doc filepath) := by
  unfold syncErrorSibling
  split_ifs
  · exact .refl _
  · exact createDerivedSibling_sameSync

theorem syncTranscriptionSibling_keeps {filepath : String} (h : i < db.nextIno) (hd : NotDerived db i) :
    Keeps i db (syncTranscriptionSibling db doc filepath) := by
  unfold syncTranscriptionSibling
  split_ifs
  · exact .refl _ _
  · split
    · exact createDerivedSibling_keeps h hd
    · exact .refl _ _

theorem syncTranscriptionSibling_sameSync {filepath : String} :
    SameSync db (syncTranscriptionSibling db doc filepath) := by
  unfold syncTranscriptionSibling
  split_ifs
  · exact .refl _
  · split
    · exact createDerivedSibling_sameSync
    · exact .refl _

theorem setMirroredState_keeps {u : Option ℤ} {st : Option String} {t : Option ℤ} :
    Keeps i db (db.setMirroredState j u st t) := .of_eq rfl rfl rfl

theorem setRemoteId_keeps {rid : String} : Keeps i db (db.setRemoteId j rid) := .of_eq rfl rfl rfl

theorem renameToDoc_keeps (h : i < db.nextIno) : Keeps i db (renameToDoc db j doc).2 := by
  unfold renameToDoc
  split_ifs
  · exact .refl _ _
  · exact applyRenameTo_keeps h

theorem renameToDoc_sameSync : SameSync db (renameToDoc db j doc).2 := by
  unfold renameToDoc
  split_ifs
  · exact .refl _
  · exact applyRenameTo_sameSync

/-- What a reconcile may do to a file: nothing, or give it the content of the
document. -/
def Mirrors (i : Ino) (doc : Document) (db db' : Db) : Prop :=
  Keeps i db db' ∨
    doc.status = "done" ∧ doc.isBinaryType = false ∧ ∃ c, doc.content = some c ∧ Rewrote i c db db'

theorem Mirrors.keeps {db₁ db₂ db₃ : Db} (h : Mirrors i doc db₁ db₂) (h' : Keeps i db₂ db₃) :
    Mirrors i doc db₁ db₃ :=
  h.imp (·.trans h') fun ⟨hs, hb, c, hc, hr⟩ => ⟨hs, hb, c, hc, hr.keeps h'⟩

theorem Keeps.mirrors {db₁ db₂ db₃ : Db} (h : Keeps i db₁ db₂) (h' : Mirrors i doc db₂ db₃) :
    Mirrors i doc db₁ db₃ :=
  h'.imp h.trans fun ⟨hs, hb, c, hc, hr⟩ => ⟨hs, hb, c, hc, Keeps.rewrote h hr⟩

theorem Mirrors.next {db' : Db} (h : Mirrors i doc db db') : db.nextIno ≤ db'.nextIno := by
  rcases h with h | ⟨-, -, c, -, h⟩
  · exact h.next
  · exact h.next

theorem Mirrors.dirty {db' : Db} (h : Mirrors i doc db db') :
    db'.getDirtySince i = db.getDirtySince i := by
  rcases h with h | ⟨-, -, c, -, h⟩
  · exact h.dirty
  · exact h.dirty

theorem Mirrors.notDerived {db' : Db} (h : Mirrors i doc db db') (hd : NotDerived db i) :
    NotDerived db' i := by
  rcases h with h | ⟨-, -, c, -, h⟩
  · exact hd.keeps h
  · exact hd.rewrote h

theorem mirrorContent_mirrors (hs : doc.status = "done") : Mirrors i doc db (mirrorContent db j doc) := by
  unfold mirrorContent
  split_ifs with hb
  · exact .inl (.refl _ _)
  · split
    · rename_i c hc
      by_cases h : i = j
      · subst h
        exact .inr ⟨hs, by simpa using hb, c, hc, rewriteFileContent_rewrote⟩
      · exact .inl (rewriteFileContent_keeps h)
    · exact .inl (.refl _ _)

theorem mirrorContent_keeps (h : i ≠ j) : Keeps i db (mirrorContent db j doc) := by
  unfold mirrorContent
  split_ifs
  · exact .refl _ _
  · split
    · exact rewriteFileContent_keeps h
    · exact .refl _ _

theorem mirrorContent_sameSync : SameSync db (mirrorContent db j doc) := by
  unfold mirrorContent
  split_ifs
  · exact .refl _
  · split
    · exact rewriteFileContent_sameSync
    · exact .refl _

theorem reconcileContent_keeps (hne : i ≠ j) (h : i < db.nextIno) (hd : NotDerived db i) :
    Keeps i db (reconcileContent db j doc nowMs) := by
  unfold reconcileContent
  split_ifs
  · have h1 : Keeps i db (mirrorContent db j doc) := mirrorContent_keeps hne
    have h2 : Keeps i db ((mirrorContent db j doc).setMirroredState j doc.updatedMs (some doc.status)
        (some nowMs)) := h1.trans setMirroredState_keeps
    exact h2.trans (syncTranscriptionSibling_keeps (h.trans_le h2.next) (hd.keeps h2))
  · have h1 : Keeps i db (db.setMirroredState j none (some doc.status) (some nowMs)) :=
      setMirroredState_keeps
    exact h1.trans (syncErrorSibling_keeps (h.trans_le h1.next) (hd.keeps h1))

theorem reconcileContent_mirrors (h : i < db.nextIno) (hd : NotDerived db i) :
    Mirrors i doc db (reconcileContent db j doc nowMs) := by
  unfold reconcileContent
  split_ifs with hs
  · have h1 : Mirrors i doc db (mirrorContent db j doc) := mirrorContent_mirrors hs
    have h2 : Mirrors i doc db ((mirrorContent db j doc).setMirroredState j doc.updatedMs
        (some doc.status) (some nowMs)) := h1.keeps setMirroredState_keeps
    exact h2.keeps (syncTranscriptionSibling_keeps (h.trans_le h2.next) (h2.notDerived hd))
  · have h1 : Keeps i db (db.setMirroredState j none (some doc.status) (some nowMs)) :=
      setMirroredState_keeps
    exact .inl (h1.trans (syncErrorSibling_keeps (h.trans_le h1.next) (hd.keeps h1)))

theorem setMirroredState_sameQueue {u : Option ℤ} {st : Option String} {t : Option ℤ} :
    SameQueue db (db.setMirroredState j u st t) := ⟨rfl, rfl⟩

theorem setRemoteId_sameQueue {rid : String} : SameQueue db (db.setRemoteId j rid) := ⟨rfl, rfl⟩

theorem reconcileContent_sameQueue : SameQueue db (reconcileContent db j doc nowMs) := by
  unfold reconcileContent
  split_ifs
  · have h1 : SameSync db (mirrorContent db j doc) := mirrorContent_sameSync
    exact (h1.sameQueue.trans setMirroredState_sameQueue).trans syncTranscriptionSibling_sameSync.sameQueue
  · exact setMirroredState_sameQueue.trans syncErrorSibling_sameSync.sameQueue

/-- A reconcile of a mapped document rewrites a file only if the file is not
newer, and never its dirty mark. -/
theorem reconcileMapped_mirrors (h : i < db.nextIno) (hd : NotDerived db i) :
    Mirrors i doc db (reconcileMapped db j doc nowMs).2 ∧
      (dirtyNewer db i doc = true → Keeps i db (reconcileMapped db j doc nowMs).2) := by
  unfold reconcileMapped
  split_ifs with hdirty hm
  · exact ⟨.inl (.refl _ _), fun _ => .refl _ _⟩
  · have h1 : Keeps i db (syncTranscriptionSibling db doc doc.path) := syncTranscriptionSibling_keeps h hd
    have h2 : Keeps i db (syncErrorSibling (syncTranscriptionSibling db doc doc.path) doc doc.path) :=
      h1.trans (syncErrorSibling_keeps (h.trans_le h1.next) (hd.keeps h1))
    exact ⟨.inl h2, fun _ => h2⟩
  · have h1 : Keeps i db (renameToDoc db j doc).2 := renameToDoc_keeps h
    split
    · rename_i e db' he
      rw [he] at h1
      exact ⟨.inl h1, fun _ => h1⟩
    · rename_i db' he
      rw [he] at h1
      have h' := h.trans_le h1.next
      have hd' := hd.keeps h1
      refine ⟨Keeps.mirrors h1 (reconcileContent_mirrors h' hd'), fun hi => ?_⟩
      -- the inode that is rewritten is another one
      have hne : i ≠ j := fun he => hdirty (he ▸ hi)
      exact h1.trans (reconcileContent_keeps hne h' hd')

theorem reconcileMapped_sameQueue : SameQueue db (reconcileMapped db j doc nowMs).2 := by
  unfold reconcileMapped
  split_ifs
  · exact (SameSync.refl _).sameQueue
  · exact (syncTranscriptionSibling_sameSync.trans syncErrorSibling_sameSync).sameQueue
  · have h1 : SameSync db (renameToDoc db j doc).2 := renameToDoc_sameSync
    split
    · rename_i he
      rw [he] at h1
      exact h1.sameQueue
    · rename_i he
      rw [he] at h1
      exact h1.sameQueue.trans reconcileContent_sameQueue

theorem dirtyNewer_keeps {db' : Db} (h : Keeps i db db') : dirtyNewer db' i doc = dirtyNewer db i doc := by
  unfold dirtyNewer
  rw [h.dirty]

theorem attachContent_keeps (hne : i ≠ j) (h : i < db.nextIno) (hd : NotDerived db i) :
    Keeps i db (attachContent db j doc) := by
  unfold attachContent
  split_ifs
  · have h1 : Keeps i db (mirrorContent db j doc) := mirrorContent_keeps hne
    exact h1.trans (syncTranscriptionSibling_keeps (h.trans_le h1.next) (hd.keeps h1))
  · exact .refl _ _

theorem attachContent_mirrors (h : i < db.nextIno) (hd : NotDerived db i) :
    Mirrors i doc db (attachContent db j doc) := by
  unfold attachContent
  split_ifs with hs
  · have h1 : Mirrors i doc db (mirrorContent db j doc) := mirrorContent_mirrors hs
    exact h1.keeps (syncTranscriptionSibling_keeps (h.trans_le h1.next) (h1.notDerived hd))
  · exact .inl (.refl _ _)

theorem attachContent_sameSync : SameSync db (attachContent db j doc) := by
  unfold attachContent
  split_ifs
  · exact mirrorContent_sameSync.trans syncTranscriptionSibling_sameSync
  · exact .refl _

theorem reconcileAttach_mirrors (h : i < db.nextIno) (hd : NotDerived db i) :
    Mirrors i doc db (reconcileAttach db j doc nowMs).2 ∧
      (dirtyNewer db i doc = true → Keeps i db (reconcileAttach db j doc nowMs).2) := by
  have h1 : Keeps i db (db.setRemoteId j doc.id) := setRemoteId_keeps
  unfold reconcileAttach
  split_ifs with hdirty
  · have h2 : Keeps i db { db.setRemoteId j doc.id with
        queue := db.queue.setRemoteId doc.path (some doc.id) } := .of_eq rfl rfl rfl
    exact ⟨.inl h2, fun _ => h2⟩
  · refine ⟨?_, fun hi => ?_⟩
    · have h2 : Mirrors i doc db (attachContent (db.setRemoteId j doc.id) j doc) :=
        Keeps.mirrors h1 (attachContent_mirrors h (hd.keeps h1))
      exact h2.keeps setMirroredState_keeps
    · have hne : i ≠ j := fun he => hdirty (he ▸ hi)
      exact (h1.trans (attachContent_keeps hne h (hd.keeps h1))).trans setMirroredState_keeps

/-- What a reconcile may do to the queue: nothing, or give the row at the
document's path the document's id. -/
structure QueueMapped (doc : Document) (db db' : Db) : Prop where
  queue : db'.queue = db.queue ∨ db'.queue = db.queue.setRemoteId doc.path (some doc.id)
  syncMeta : db'.syncMeta = db.syncMeta

theorem QueueMapped.of_same {db₁ db₂ : Db} (h : SameQueue db₁ db₂) : QueueMapped doc db₁ db₂ :=
  ⟨.inl h.queue, h.syncMeta⟩

theorem QueueMapped.after {db₁ db₂ db₃ : Db} (h : SameQueue db₁ db₂) (h' : QueueMapped doc db₂ db₃) :
    QueueMapped doc db₁ db₃ := by
  refine ⟨?_, h'.syncMeta.trans h.syncMeta⟩
  rw [← h.queue]
  exact h'.queue

theorem reconcileAttach_queue : QueueMapped doc db (reconcileAttach db j doc nowMs).2 := by
  unfold reconcileAttach
  split_ifs
  · exact ⟨.inr rfl, rfl⟩
  · have h1 : SameSync (db.setRemoteId j doc.id) (attachContent (db.setRemoteId j doc.id) j doc) :=
      attachContent_sameSync
    exact .of_same ((setRemoteId_sameQueue.trans h1.sameQueue).trans setMirroredState_sameQueue)

theorem siblings_keeps (h : i < db.nextIno) (hd : NotDerived db i) :
    Keeps i db (syncErrorSibling (syncTranscriptionSibling db doc doc.path) doc doc.path) := by
  have h1 : Keeps i db (syncTranscriptionSibling db doc doc.path) := syncTranscriptionSibling_keeps h hd
  exact h1.trans (syncErrorSibling_keeps (h.trans_le h1.next) (hd.keeps h1))

theorem siblings_sameSync :
    SameSync db (syncErrorSibling (syncTranscriptionSibling db doc doc.path) doc doc.path) :=
  syncTranscriptionSibling_sameSync.trans syncErrorSibling_sameSync

theorem reconcileBinary_keeps (h : i < db.nextIno) (hd : NotDerived db i) :
    Keeps i db (reconcileBinary db doc nowMs).2 := by
  unfold reconcileBinary
  dsimp only
  have h1 : Keeps i db (syncErrorSibling (syncTranscriptionSibling db doc doc.path) doc doc.path) :=
    siblings_keeps h hd
  generalize syncErrorSibling (syncTranscriptionSibling db doc doc.path) doc doc.path = db₁ at h1
  split_ifs
  · have h2 : Keeps i db₁ (createRawStub db₁ doc.path).2 := createRawStub_keeps (h.trans_le h1.next)
    split
    · rename_i he
      rw [he] at h2
      exact h1.trans h2
    · rename_i he
      rw [he] at h2
      exact ((h1.trans h2).trans setRemoteId_keeps).trans setMirroredState_keeps
  · exact h1

theorem reconcileBinary_sameQueue : SameQueue db (reconcileBinary db doc nowMs).2 := by
  unfold reconcileBinary
  dsimp only
  have h1 : SameSync db (syncErrorSibling (syncTranscriptionSibling db doc doc.path) doc doc.path) :=
    siblings_sameSync
  generalize syncErrorSibling (syncTranscriptionSibling db doc doc.path) doc doc.path = db₁ at h1
  split_ifs
  · have h2 : SameSync db (createRawStub db₁ doc.path).2 := h1.trans createRawStub_sameSync
    split
    · rename_i he
      rw [he] at h2
      exact h2.sameQueue
    · rename_i he
      rw [he] at h2
      exact (h2.sameQueue.trans setRemoteId_sameQueue).trans setMirroredState_sameQueue
  · exact h1.sameQueue

theorem addFile_keeps {parentIno : Ino} {filename : String} {content : Bytes} (h : i < db.nextIno) :
    Keeps i db (addFile db parentIno filename content).1 := by
  have h1 : Keeps i db (db.addInode .reg 1 content.length false).1 := keeps_addInode h
  have h2 : Keeps i db ((db.addInode .reg 1 content.length false).1.addDentry filename parentIno
      (db.addInode .reg 1 content.length false).2) := h1.trans keeps_addDentry
  exact h2.trans (keeps_addChunks fun c hc he => h.ne (he.symm.trans (chunkRows_ino hc)))

theorem reconcileCreate_keeps {parentIno : Ino} {filename : String} (h : i < db.nextIno)
    (hd : NotDerived db i) : Keeps i db (reconcileCreate db parentIno filename doc nowMs).2 := by
  unfold reconcileCreate
  dsimp only
  have h1 : Keeps i db (addFile db parentIno filename (doc.content.getD [])).1 := addFile_keeps h
  generalize addFile db parentIno filename (doc.content.getD []) = added at h1
  have h2 : Keeps i db ((added.1.setRemoteId added.2 doc.id).setMirroredState added.2 doc.updatedMs
      (some doc.status) (some nowMs)) := (h1.trans setRemoteId_keeps).trans setMirroredState_keeps
  exact h2.trans (syncTranscriptionSibling_keeps (h.trans_le h2.next) (hd.keeps h2))

theorem reconcileCreate_sameQueue {parentIno : Ino} {filename : String} :
    SameQueue db (reconcileCreate db parentIno filename doc nowMs).2 := by
  have h1 : SameQueue db (addFile db parentIno filename (doc.content.getD [])).1 := ⟨rfl, rfl⟩
  exact ((h1.trans setRemoteId_sameQueue).trans setMirroredState_sameQueue).trans
    syncTranscriptionSibling_sameSync.sameQueue

theorem reconcileUnmapped_mirrors (h : i < db.nextIno) (hd : NotDerived db i) :
    Mirrors i doc db (reconcileUnmapped db doc nowMs).2 ∧
      (dirtyNewer db i doc = true → Keeps i db (reconcileUnmapped db doc nowMs).2) := by
  unfold reconcileUnmapped
  split
  · have h1 : Keeps i db (syncErrorSibling db doc doc.path) := syncErrorSibling_keeps h hd
    exact ⟨.inl h1, fun _ => h1⟩
  · have h1 : Keeps i db (ensureDirs db (splitPath doc.path).1).1 := ensureDirs_keeps h
    have h' := h.trans_le h1.next
    have hd' := hd.keeps h1
    dsimp only
    generalize ensureDirs db (splitPath doc.path).1 = dirs at h1 h' hd' ⊢
    split
    · rename_i k hk
      obtain ⟨hm, hkeep⟩ : Mirrors i doc dirs.1 (reconcileAttach dirs.1 k doc nowMs).2 ∧ _ :=
        reconcileAttach_mirrors h' hd'
      exact ⟨Keeps.mirrors h1 hm, fun hi => h1.trans (hkeep ((dirtyNewer_keeps h1).trans hi))⟩
    · split_ifs
      · have h2 : Keeps i db (reconcileBinary dirs.1 doc nowMs).2 := h1.trans (reconcileBinary_keeps h' hd')
        exact ⟨.inl h2, fun _ => h2⟩
      · have h2 : Keeps i db (reconcileCreate dirs.1 dirs.2 (splitPath doc.path).2 doc nowMs).2 :=
          h1.trans (reconcileCreate_keeps h' hd')
        exact ⟨.inl h2, fun _ => h2⟩

theorem reconcileUnmapped_queue : QueueMapped doc db (reconcileUnmapped db doc nowMs).2 := by
  unfold reconcileUnmapped
  split
  · exact .of_same syncErrorSibling_sameSync.sameQueue
  · have h1 : SameQueue db (ensureDirs db (splitPath doc.path).1).1 := ensureDirs_sameSync.sameQueue
    dsimp only
    split
    · exact QueueMapped.after h1 reconcileAttach_queue
    · split_ifs
      · exact .of_same (h1.trans reconcileBinary_sameQueue)
      · exact .of_same (h1.trans reconcileCreate_sameQueue)

/-- **A reconcile rewrites a file only with the content of a version that the
file is not newer than.** Its dirty mark stays. -/
theorem reconcileOne_mirrors (h : i < db.nextIno) (hd : NotDerived db i) :
    Mirrors i doc db (reconcileOne db doc nowMs).2 ∧
      (dirtyNewer db i doc = true → Keeps i db (reconcileOne db doc nowMs).2) := by
  unfold reconcileOne
  split
  · exact reconcileMapped_mirrors h hd
  · exact reconcileUnmapped_mirrors h hd

/-- The one change a reconcile makes to the queue. -/
theorem reconcileOne_queue : QueueMapped doc db (reconcileOne db doc nowMs).2 := by
  unfold reconcileOne
  split
  · exact .of_same reconcileMapped_sameQueue
  · exact reconcileUnmapped_queue

/-- A file with local changes is not deleted. -/
theorem applyDeletion_keeps {rid : String} (h : (db.getDirtySince i).isSome = true) :
    Keeps i db (applyDeletion db rid).2 := by
  unfold applyDeletion
  split
  · exact .refl _ _
  · rename_i k hk
    split_ifs with hs
    · exact .refl _ _
    · have hne : i ≠ k := fun he => hs (he ▸ h)
      split
      · exact .refl _ _
      · have h1 : Keeps i db (db.delDentriesOf k) := .of_eq rfl rfl rfl
        exact ((h1.trans (keeps_delData hne)).trans (keeps_delInode hne)).trans (.of_eq rfl rfl rfl)

/-- A deletion takes a file whole or leaves it. -/
theorem applyDeletion_file {rid : String} : (applyDeletion db rid).2.nextIno = db.nextIno ∧
    ((applyDeletion db rid).2.fileOf i = db.fileOf i ∨ (applyDeletion db rid).2.fileOf i = none) := by
  unfold applyDeletion
  split
  · exact ⟨rfl, .inl rfl⟩
  · rename_i k hk
    split_ifs
    · exact ⟨rfl, .inl rfl⟩
    · split
      · exact ⟨rfl, .inl rfl⟩
      · refine ⟨rfl, ?_⟩
        have hdel : ((db.delDentriesOf k).delData k).getInode i = db.getInode i := rfl
        show Option.map _ ((((db.delDentriesOf k).delData k).delInode k).getInode i) = _ ∨
          Option.map _ ((((db.delDentriesOf k).delData k).delInode k).getInode i) = none
        rw [getInode_delInode]
        by_cases he : i = k
        · exact .inr (by rw [if_pos he]; rfl)
        · exact .inl (by rw [if_neg he, hdel]; rfl)

theorem applyDeletion_queue {rid : String} : (applyDeletion db rid).2.queue = db.queue := by
  unfold applyDeletion
  split
  · rfl
  · split_ifs
    · rfl
    · split <;> rfl

end Lemmas

end Fs
end Smfs
