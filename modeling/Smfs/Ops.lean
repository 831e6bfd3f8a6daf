/-
# The file operations

`create_file`, `open`, `unlink` and `rename` of `SupermemoryFs`
(`cache/fs.rs`). With an API client (`online`) the last two enqueue what the
server has to hear; `rename` first tries to move a create that is still
queued along with the file.

Key definitions: `Fs.validateName`, `Fs.createFile`, `Fs.openFile`, `Fs.unlink`, `Fs.rename`.
-/
import Smfs.File

namespace Smfs
namespace Fs

def MAX_NAME_LEN : ℕ := 255

def PROFILE_NAME : String := "profile.md"

/-- `validate_name`. -/
def validateName (name : String) : Except VfsError Unit :=
  if name.isEmpty || name = "." || name = ".." then .error (.invalidPath ("invalid name: " ++ name.quote))
  else if name.utf8ByteSize > MAX_NAME_LEN then .error (.nameTooLong name.utf8ByteSize)
  else if name.toList.contains '/' || name.toList.contains '\x00' then
    .error (.invalidPath ("invalid name: " ++ name.quote))
  else .ok ()

/-- The filepath of a name in a directory. -/
def childPath (db : Db) (parentIno : Ino) (name : String) : Option String :=
  (resolveFilepath db parentIno).map fun p => joinPath p name

/-- `create_file`. -/
def createFile (db : Db) (online : Bool) (parentIno : Ino) (name : String) :
    Except VfsError SqliteFile × Db :=
  match validateName name with
  | .error e => (.error e, db)
  | .ok () =>
    match db.getInode parentIno with
    | none => (.error .notFound, db)
    | some parent =>
      if parent.kind ≠ .dir then (.error .notADirectory, db)
      else if (db.child parentIno name).isSome then (.error .alreadyExists, db)
      else
        let added := db.addInode .reg 1 0 false
        let db := added.1.addDentry name parentIno added.2
        (.ok ⟨added.2, online, childPath db parentIno name⟩, db)

/-- `open`. The profile is not a file of the database. -/
def openFile (db : Db) (online : Bool) (ino : Ino) : Except VfsError SqliteFile :=
  match db.getInode ino with
  | none => .error .notFound
  | some i =>
    match i.kind with
    | .dir => .error .isADirectory
    | .lnk => .error .notSupported
    | .reg => .ok ⟨ino, online, resolveFilepath db ino⟩

/-- Everything of an inode that has lost its last name. -/
def purge (db : Db) (ino : Ino) : Db :=
  (((db.delData ino).delSymlink ino).deleteRemoteId ino).delInode ino

/-- The tables after `unlink`: the inode goes with its last name. -/
def unlinkTables (db : Db) (parentIno : Ino) (name : String) (i : Inode) : Db :=
  let db := (db.delChild parentIno name).updInode i.ino fun i => { i with nlink := i.nlink - 1 }
  if i.nlink - 1 ≤ 0 then purge db i.ino else db

/-- The delete that `unlink` enqueues. The mapping is read after the file is gone. -/
def unlinkEnqueue (db : Db) (online : Bool) (filepath : Option String) (childIno : Ino) (nowMs : ℤ) :
    Db :=
  match online, filepath with
  | true, some fp => { db with queue := db.queue.upsert fp ⟨.delete, none, none⟩ (db.getRemoteId childIno) nowMs }
  | _, _ => db

/-- `unlink`. -/
def unlink (db : Db) (online : Bool) (parentIno : Ino) (name : String) (nowMs : ℤ) :
    Except VfsError Unit × Db :=
  match validateName name with
  | .error e => (.error e, db)
  | .ok () =>
    if parentIno = ROOT_INO && name = PROFILE_NAME then (.error .permissionDenied, db)
    else
      let filepathForApi := childPath db parentIno name
      match childInode db parentIno name with
      | none => (.error .notFound, db)
      | some i =>
        if i.kind = .dir then (.error .isADirectory, db)
        else
          let db := unlinkTables db parentIno name i
          (.ok (), cascadeUnlinkDerivedSiblings (unlinkEnqueue db online filepathForApi i.ino nowMs)
            parentIno name)

/-- `UPDATE fs_dentry SET parent_ino = ?, name = ? WHERE parent_ino = ? AND name = ?`. -/
def moveChild (db : Db) (oldParent : Ino) (oldName : String) (newParent : Ino) (newName : String) : Db :=
  { db with dentries := db.dentries.map fun d =>
      if d.parentIno = oldParent && d.name = oldName
      then { d with parentIno := newParent, name := newName } else d }

/-- What `rename` enqueues once the entry has moved: the create that was
queued for the old path now goes to the new one, or else a delete of what was
overwritten and a rename of the document. -/
def renameEnqueue (db : Db) (srcIno : Ino) (oldFp newFp : String) (dstFp : Option String)
    (didOverwrite : Bool) (dstRemoteId : Option String) (nowMs : ℤ) : Db :=
  let moved := db.queue.retargetPendingCreate oldFp newFp dstRemoteId nowMs
  let db := { db with queue := moved.1 }
  if moved.2 then
    match dstRemoteId with
    | some rid => db.setRemoteId srcIno rid
    | none => db
  else
    let queue := match didOverwrite, dstFp with
      | true, some dstFp => db.queue.upsert dstFp ⟨.delete, none, none⟩ none nowMs
      | _, _ => db.queue
    { db with queue := queue.upsert oldFp ⟨.rename, none, some newFp⟩ (db.getRemoteId srcIno) nowMs }

/-- Whether an inode may replace another one under its name. -/
def mayReplace (db : Db) (src dst : Inode) : Except VfsError Unit :=
  if src.kind = .dir then
    if dst.kind ≠ .dir then .error .notADirectory
    else if (db.dentries.filter fun d => d.parentIno = dst.ino).length > 0 then .error .notEmpty
    else .ok ()
  else if dst.kind = .dir then .error .isADirectory
  else .ok ()

/-- The tables after a rename, and what was overwritten. -/
structure Renamed where
  db : Db
  didOverwrite : Bool
  dstRemoteId : Option String

/-- The transaction of `rename`; nothing for a name that already is the file's. -/
def renameTables (db : Db) (src : Inode) (oldParent : Ino) (oldName : String) (newParent : Ino)
    (newName : String) : Except VfsError (Option Renamed) :=
  match db.childIno newParent newName with
  | none => .ok (some ⟨moveChild db oldParent oldName newParent newName, false, none⟩)
  | some dstIno =>
    if dstIno = src.ino then .ok none
    else
      match db.getInode dstIno with
      | none => .error .io
      | some dst =>
        match mayReplace db src dst with
        | .error e => .error e
        | .ok () =>
          let dstRemoteId := db.getRemoteId dstIno
          let db := purge (db.delChild newParent newName) dstIno
          .ok (some ⟨moveChild db oldParent oldName newParent newName, true, dstRemoteId⟩)

/-- The database once `rename` has told the queue, if it has anything to tell. -/
def renamePush (r : Renamed) (online : Bool) (srcIno : Ino) (oldFp newFp dstFp : Option String)
    (nowMs : ℤ) : Db :=
  match online, oldFp, newFp with
  | true, some oldFp, some newFp =>
    renameEnqueue r.db srcIno oldFp newFp dstFp r.didOverwrite r.dstRemoteId nowMs
  | _, _, _ => r.db

/-- `rename`. -/
def rename (db : Db) (online : Bool) (oldParent : Ino) (oldName : String) (newParent : Ino)
    (newName : String) (nowMs : ℤ) : Except VfsError Unit × Db :=
  match validateName oldName, validateName newName with
  | .error e, _ => (.error e, db)
  | .ok (), .error e => (.error e, db)
  | .ok (), .ok () =>
    let oldFilepath := childPath db oldParent oldName
    let dstFilepath := childPath db newParent newName
    match db.childIno oldParent oldName with
    | none => (.error .notFound, db)
    | some srcIno =>
      match db.getInode newParent with
      | none => (.error .notFound, db)
      | some dstParent =>
        if dstParent.kind ≠ .dir then (.error .notADirectory, db)
        else
          match db.getInode srcIno with
          | none => (.error .io, db)
          | some src =>
            match renameTables db src oldParent oldName newParent newName with
            | .error e => (.error e, db)
            | .ok none => (.ok (), db)
            | .ok (some r) =>
              (.ok (), cascadeRenameDerivedSiblings
                (renamePush r online srcIno oldFilepath (childPath r.db newParent newName) dstFilepath nowMs)
                oldParent oldName newParent newName)

/-! ### Moved entries -/

theorem moveChild_eq {db : Db} {p p' : Ino} {n n' : String} : moveChild db p n p' n' =
    { db with dentries := Table.modify Db.nameOf db.dentries (p, n) fun d =>
        { d with parentIno := p', name := n' } } := by
  unfold moveChild Table.modify Db.nameOf
  congr 2
  funext d
  simp

/-- An entry that moves to a free name is found there and nowhere else. -/
theorem childIno_moveChild {db : Db} {p p' q : Ino} {n n' m : String} (hfree : db.childIno p' n' = none)
    (hne : (p, n) ≠ (p', n')) : (moveChild db p n p' n').childIno q m =
      if q = p' ∧ m = n' then db.childIno p n else if q = p ∧ m = n then none else db.childIno q m := by
  unfold Db.childIno at hfree ⊢
  rw [Db.child_eq, Db.child_eq, Db.child_eq, moveChild_eq]
  rw [Db.child_eq, Option.map_eq_none_iff] at hfree
  have hget : Table.get Db.nameOf (Table.modify Db.nameOf db.dentries (p, n) fun d =>
        { d with parentIno := p', name := n' }) (q, m) =
      if (q, m) = (p', n') then
        (Table.get Db.nameOf db.dentries (p, n)).map fun d => { d with parentIno := p', name := n' }
      else if (q, m) = (p, n) then none else Table.get Db.nameOf db.dentries (q, m) :=
    Table.get_rekey _ _ _ _ _ (fun _ _ => rfl) hne hfree
  dsimp only
  rw [hget]
  simp only [Prod.mk.injEq]
  split_ifs
  · cases Table.get Db.nameOf db.dentries (p, n) <;> rfl
  · rfl
  · rfl

/-! ### What the operations do to the queue and to other files -/

section Lemmas

open Db PushQueue

variable {db : Db} {i : Ino} {nowMs : ℤ}

theorem createFile_sameSync {online : Bool} {parentIno : Ino} {name : String} :
    SameSync db (createFile db online parentIno name).2 := by
  unfold createFile
  split
  · exact .refl _
  · split
    · exact .refl _
    · split_ifs
      · exact .refl _
      · exact .refl _
      · exact ⟨rfl, rfl, rfl⟩

theorem unlinkTables_queue {parentIno : Ino} {name : String} {x : Inode} :
    (unlinkTables db parentIno name x).queue = db.queue := by
  unfold unlinkTables
  dsimp only
  split_ifs <;> rfl

theorem unlinkEnqueue_calls {online : Bool} {filepath : Option String} {childIno : Ino} :
    ClientCalls db.queue (unlinkEnqueue db online filepath childIno nowMs).queue := by
  unfold unlinkEnqueue
  split
  · exact .single (.upsert _ _ _ _ _)
  · exact .refl

theorem unlink_calls {online : Bool} {parentIno : Ino} {name : String} :
    ClientCalls db.queue (unlink db online parentIno name nowMs).2.queue := by
  unfold unlink
  split
  · exact .refl
  · split_ifs
    · exact .refl
    · dsimp only
      split
      · exact .refl
      · rename_i x hx
        split_ifs
        · exact .refl
        · rw [cascadeUnlink_sameSync.queue]
          have h : ClientCalls (unlinkTables db parentIno name x).queue (unlinkEnqueue
              (unlinkTables db parentIno name x) online (childPath db parentIno name) x.ino nowMs).queue :=
            unlinkEnqueue_calls
          rwa [unlinkTables_queue] at h

theorem renameEnqueue_calls {srcIno : Ino} {oldFp newFp : String} {dstFp dstRemoteId : Option String}
    {didOverwrite : Bool} : ClientCalls db.queue
      (renameEnqueue db srcIno oldFp newFp dstFp didOverwrite dstRemoteId nowMs).queue := by
  have hmove : ClientCalls db.queue (db.queue.retargetPendingCreate oldFp newFp dstRemoteId nowMs).1 :=
    .single (.retarget _ _ _ _ _)
  unfold renameEnqueue
  dsimp only
  split_ifs
  · cases dstRemoteId <;> exact hmove
  · split
    · exact (hmove.tail (.upsert _ _ _ _ _)).tail (.upsert _ _ _ _ _)
    · exact hmove.tail (.upsert _ _ _ _ _)

theorem renameTables_queue {src : Inode} {oldParent newParent : Ino} {oldName newName : String}
    {r : Renamed} (h : renameTables db src oldParent oldName newParent newName = .ok (some r)) :
    r.db.queue = db.queue := by
  unfold renameTables at h
  split at h
  · cases h
    rfl
  · split at h
    · cases h
    · split at h
      · cases h
      · dsimp only at h
        split at h
        · cases h
        · cases h
          rfl

theorem rename_calls {online : Bool} {oldParent newParent : Ino} {oldName newName : String} :
    ClientCalls db.queue (rename db online oldParent oldName newParent newName nowMs).2.queue := by
  unfold rename
  split
  · exact .refl
  · exact .refl
  · dsimp only
    split
    · exact .refl
    · split
      · exact .refl
      · split_ifs
        · exact .refl
        · split
          · exact .refl
          · split
            · exact .refl
            · exact .refl
            · rename_i r hr
              rw [cascadeRename_sameSync.queue]
              unfold renamePush
              rw [← renameTables_queue hr]
              split
              · exact renameEnqueue_calls
              · exact .refl

end Lemmas

end Fs
end Smfs
