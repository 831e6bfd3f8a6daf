/-
# The operations on names

`mkdir`, `rmdir`, `symlink`, `link` and the size part of `setattr` of
`SupermemoryFs` (`cache/fs.rs`), and all the operations on names as one type,
so that a run of them is a list.

Key definitions: `Fs.mkdir`, `Fs.rmdir`, `Fs.symlink`, `Fs.link`, `Fs.NameOp`, `Fs.NameOp.apply`.
-/
import Smfs.Ops

namespace Smfs
namespace Fs

/-- The checks of `mkdir`, `create_file`, `symlink` and `link` on the place of
a new name. -/
def vacant (db : Db) (parentIno : Ino) (name : String) : Except VfsError Unit :=
  match db.getInode parentIno with
  | none => .error .notFound
  | some parent =>
    if parent.kind ≠ .dir then .error .notADirectory
    else if (db.child parentIno name).isSome then .error .alreadyExists
    else .ok ()

/-- `mkdir`. -/
def mkdir (db : Db) (parentIno : Ino) (name : String) : Except VfsError Ino × Db :=
  match validateName name with
  | .error e => (.error e, db)
  | .ok () =>
    match vacant db parentIno name with
    | .error e => (.error e, db)
    | .ok () =>
      let added := db.addInode .dir 2 0 false
      (.ok added.2, (added.1.addDentry name parentIno added.2).updInode parentIno fun i =>
        { i with nlink := i.nlink + 1 })

/-- `rmdir`. Of the parent only the entry is read. -/
def rmdir (db : Db) (parentIno : Ino) (name : String) : Except VfsError Unit × Db :=
  match validateName name with
  | .error e => (.error e, db)
  | .ok () =>
    match childInode db parentIno name with
    | none => (.error .notFound, db)
    | some i =>
      if i.kind ≠ .dir then (.error .notADirectory, db)
      else if (db.dentries.filter fun d => d.parentIno = i.ino).length > 0 then (.error .notEmpty, db)
      else
        (.ok (), ((db.delChild parentIno name).delInode i.ino).updInode parentIno fun p =>
          { p with nlink := max (p.nlink - 1) 2 })

/-- `INSERT INTO fs_symlink`. -/
def addSymlink (db : Db) (ino : Ino) (target : String) : Db :=
  { db with symlinks := db.symlinks ++ [(ino, target)] }

/-- `symlink`. -/
def symlink (db : Db) (parentIno : Ino) (name target : String) : Except VfsError Ino × Db :=
  match validateName name with
  | .error e => (.error e, db)
  | .ok () =>
    match vacant db parentIno name with
    | .error e => (.error e, db)
    | .ok () =>
      let added := db.addInode .lnk 1 target.utf8ByteSize false
      (.ok added.2, (addSymlink added.1 added.2 target).addDentry name parentIno added.2)

/-- `readlink`. -/
def readlink (db : Db) (ino : Ino) : Except VfsError (Option String) :=
  match db.getInode ino with
  | none => .ok none
  | some i =>
    if i.kind ≠ .lnk then .error .notASymlink
    else
      match Table.get Prod.fst db.symlinks ino with
      | none => .error .notFound
      | some row => .ok (some row.2)

/-- `link`. -/
def link (db : Db) (ino newParentIno : Ino) (newName : String) : Except VfsError Unit × Db :=
  match validateName newName with
  | .error e => (.error e, db)
  | .ok () =>
    match db.getInode ino with
    | none => (.error .notFound, db)
    | some i =>
      if i.kind = .dir then (.error .isADirectory, db)
      else
        match vacant db newParentIno newName with
        | .error e => (.error e, db)
        | .ok () =>
          (.ok (), (db.updInode ino fun i => { i with nlink := i.nlink + 1 }).addDentry newName newParentIno ino)

/-- `setattr` with a size: a handle without filepath truncates the file. -/
def setattrSize (db : Db) (ino : Ino) (size : ℕ) : Except VfsError Unit × Db :=
  match db.getInode ino with
  | none => (.error .notFound, db)
  | some i =>
    match i.kind with
    | .dir => (.error .isADirectory, db)
    | .lnk => (.error .notSupported, db)
    | .reg => (.ok (), SqliteFile.truncate db ⟨ino, false, none⟩ size)

/-- The operations on names. -/
inductive NameOp
  | mkdir (parentIno : Ino) (name : String)
  | rmdir (parentIno : Ino) (name : String)
  | createFile (parentIno : Ino) (name : String)
  | unlink (parentIno : Ino) (name : String)
  | symlink (parentIno : Ino) (name target : String)
  | link (ino newParentIno : Ino) (newName : String)
  | rename (oldParentIno : Ino) (oldName : String) (newParentIno : Ino) (newName : String)
  deriving DecidableEq, Repr

/-- Whether an answer is a success, or which error it is. -/
def outcome {α : Type} : Except VfsError α → Option VfsError
  | .ok _ => none
  | .error e => some e

/-- An operation at a time, with an API client or without. -/
def NameOp.apply (db : Db) (online : Bool) (nowMs : ℤ) : NameOp → Option VfsError × Db
  | .mkdir p n => (outcome (Fs.mkdir db p n).1, (Fs.mkdir db p n).2)
  | .rmdir p n => (outcome (Fs.rmdir db p n).1, (Fs.rmdir db p n).2)
  | .createFile p n => (outcome (Fs.createFile db online p n).1, (Fs.createFile db online p n).2)
  | .unlink p n => (outcome (Fs.unlink db online p n nowMs).1, (Fs.unlink db online p n nowMs).2)
  | .symlink p n t => (outcome (Fs.symlink db p n t).1, (Fs.symlink db p n t).2)
  | .link i p n => (outcome (Fs.link db i p n).1, (Fs.link db i p n).2)
  | .rename p n p' n' => (outcome (Fs.rename db online p n p' n' nowMs).1, (Fs.rename db online p n p' n' nowMs).2)

/-- `create_file` makes the checks of the other operations. -/
theorem createFile_eq {db : Db} {online : Bool} {p : Ino} {name : String} :
    createFile db online p name = match validateName name with
      | .error e => (.error e, db)
      | .ok () =>
        match vacant db p name with
        | .error e => (.error e, db)
        | .ok () =>
          let added := db.addInode .reg 1 0 false
          let db := added.1.addDentry name p added.2
          (.ok ⟨added.2, online, childPath db p name⟩, db) := by
  unfold createFile vacant
  cases validateName name with
  | error e => rfl
  | ok _ =>
    cases db.getInode p with
    | none => rfl
    | some parent =>
      dsimp only
      split_ifs <;> rfl

end Fs
end Smfs
