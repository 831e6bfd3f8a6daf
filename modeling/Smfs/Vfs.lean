/-
# What a mount asks of a file system

The traits `FileSystem` and `File` of `vfs/traits.rs`, as far as the two mounts
call them, and `SupermemoryFs` as a file system that has them. An open file is
a handle of the database or the profile (`cache/profile.rs`). Besides the
tables and the dentry cache a call reads an `Ambient` and the clock; the
columns of an inode that the tables here leave out are as the call leaves them.

Key definitions: `FileSystem`, `SetAttr`, `BoxedFile`, `ProfileFile.read`, `SupermemoryFs.fileSystem`.
-/
import Smfs.DentryCache
import Smfs.Mem

namespace Smfs

inductive TimeOrNow
  | now
  | time (sec : ℤ) (nsec : ℕ)
  deriving DecidableEq, Repr

/-- `SetAttr`: the fields that are not `none` change. -/
structure SetAttr where
  mode : Option ℕ
  uid : Option ℕ
  gid : Option ℕ
  size : Option ℕ
  atime : Option TimeOrNow
  mtime : Option TimeOrNow
  deriving DecidableEq, Repr

/-- The methods of `FileSystem` on a state, and those of `File` on the handles
that `openFile` and `createFile` give. A read that panics is `none`. -/
structure FileSystem (σ φ : Type) where
  lookup : Ino → String → σ → Except VfsError (Option FileAttr) × σ
  getattr : Ino → σ → Except VfsError (Option FileAttr)
  setattr : Ino → SetAttr → σ → Except VfsError FileAttr × σ
  readdirPlus : Ino → σ → Except VfsError (Option (List DirEntry))
  /-- The name, the mode, the owner and the group. -/
  mkdir : Ino → String → ℕ → ℕ → ℕ → σ → Except VfsError FileAttr × σ
  rmdir : Ino → String → σ → Except VfsError Unit × σ
  openFile : Ino → σ → Except VfsError φ
  createFile : Ino → String → ℕ → ℕ → ℕ → σ → Except VfsError (FileAttr × φ) × σ
  unlink : Ino → String → σ → Except VfsError Unit × σ
  readlink : Ino → σ → Except VfsError (Option String)
  /-- The name, the target, the owner and the group. -/
  symlink : Ino → String → String → ℕ → ℕ → σ → Except VfsError FileAttr × σ
  link : Ino → Ino → String → σ → Except VfsError FileAttr × σ
  rename : Ino → String → Ino → String → σ → Except VfsError Unit × σ
  read : φ → ℕ → ℕ → σ → Option (Except VfsError Bytes)
  write : φ → ℕ → Bytes → σ → Except VfsError ℕ × σ
  flush : φ → σ → Except VfsError Unit × σ
  fsync : φ → σ → Except VfsError Unit × σ
  fileAttr : φ → σ → Except VfsError FileAttr

/-! ### The profile -/

/-- What `open` of `SupermemoryFs` gives. -/
inductive BoxedFile
  | sqlite (f : SqliteFile)
  | profile
  deriving DecidableEq, Repr

/-- `read` of `ProfileFile`. -/
def ProfileFile.read (cache : Option Bytes) (offset size : ℕ) : Bytes :=
  match cache with
  | none => []
  | some content =>
    if offset ≥ content.length then []
    else (content.drop offset).take (min (offset + size) content.length - offset)

/-- The text of the profile, empty before it has come, is read as any file. -/
theorem ProfileFile.read_eq (cache : Option Bytes) (offset size : ℕ) :
    ProfileFile.read cache offset size = ((cache.getD []).drop offset).take size := by
  cases cache with
  | none => simp [ProfileFile.read]
  | some content =>
    simp only [ProfileFile.read, Option.getD_some]
    split_ifs with h
    · simp [List.drop_eq_nil_of_le h]
    · have hlen : (content.drop offset).length = content.length - offset := List.length_drop
      apply List.take_eq_take_iff.mpr
      omega

/-! ### The attributes of what was made -/

/-- `new_file_with`, `new_dir_with` and `new_symlink`. -/
def Ambient.newAttr (v : Ambient) (ino : Ino) (kind : FileKind) (perm nlink size uid gid : ℕ) : FileAttr :=
  ⟨ino, kind, perm, nlink, uid, gid, size, 0, v.now, v.now, v.now, 0, PREFERRED_BLOCK_SIZE⟩

/-- The permission bits of a mode. -/
def permBits (mode : ℕ) : ℕ := mode % 0o10000

/-- An inode that is not there is an error. -/
def found {α : Type} : Option α → Except VfsError α
  | none => .error .notFound
  | some a => .ok a

namespace SupermemoryFs

open Fs

section Methods

variable (v : Ambient) (nowMs : ℤ) (s : SupermemoryFs)

def getattr (ino : Ino) : Option FileAttr :=
  if ino = PROFILE_INO then v.profileFile.or (attrOf s.db v ino) else attrOf s.db v ino

def setattr (ino : Ino) (attr : SetAttr) : Except VfsError FileAttr × SupermemoryFs :=
  match attr.size with
  | none => (found (attrOf s.db v ino), s)
  | some size =>
    match setattrSize s.db ino size with
    | (.error e, db) => (.error e, { s with db })
    | (.ok (), db) => (found (attrOf db v ino), { s with db })

def openFile (ino : Ino) : Except VfsError BoxedFile :=
  if ino = PROFILE_INO then
    match v.profileFile with
    | some _ => .ok .profile
    | none => .error .notFound
  else (Fs.openFile s.db v.online ino).map .sqlite

/-- `create_file`, with the attributes it returns. -/
def makeFile (parentIno : Ino) (name : String) (mode uid gid : ℕ) :
    Except VfsError (FileAttr × BoxedFile) × SupermemoryFs :=
  match s.createFile v.online parentIno name with
  | (.error e, t) => (.error e, t)
  | (.ok f, t) => (.ok (v.newAttr f.ino .reg (permBits mode) 1 0 uid gid, .sqlite f), t)

/-- `mkdir`, with the attributes it returns. -/
def makeDir (parentIno : Ino) (name : String) (mode uid gid : ℕ) : Except VfsError FileAttr × SupermemoryFs :=
  match s.mkdir parentIno name with
  | (.error e, t) => (.error e, t)
  | (.ok ino, t) => (.ok (v.newAttr ino .dir (permBits mode) 2 0 uid gid), t)

/-- `symlink`, with the attributes it returns. -/
def makeSymlink (parentIno : Ino) (name target : String) (uid gid : ℕ) : Except VfsError FileAttr × SupermemoryFs :=
  match s.symlink parentIno name target with
  | (.error e, t) => (.error e, t)
  | (.ok ino, t) => (.ok (v.newAttr ino .lnk 0o777 1 target.utf8ByteSize uid gid), t)

/-- `link`, with the attributes it returns. -/
def makeLink (ino newParentIno : Ino) (newName : String) : Except VfsError FileAttr × SupermemoryFs :=
  match s.link ino newParentIno newName with
  | (.error e, t) => (.error e, t)
  | (.ok (), t) => (found (attrOf t.db v ino), t)

/-- `write` of an open file. -/
def writeFile (f : BoxedFile) (offset : ℕ) (data : Bytes) : Except VfsError ℕ × SupermemoryFs :=
  match f with
  | .profile => (.error .permissionDenied, s)
  | .sqlite f => ((f.write s.db offset data nowMs).1, { s with db := (f.write s.db offset data nowMs).2 })

/-- `flush` of an open file. -/
def flushFile (f : BoxedFile) : Except VfsError Unit × SupermemoryFs :=
  match f with
  | .profile => (.ok (), s)
  | .sqlite f => (.ok (), { s with db := f.flush s.db nowMs })

/-! Each is its call on the tables. -/

section Tables

variable {parentIno ino : Ino} {name target : String} {mode uid gid : ℕ}

@[simp] theorem makeFile_fst : (s.makeFile v parentIno name mode uid gid).1 =
    (Fs.createFile s.db v.online parentIno name).1.map fun f =>
      (v.newAttr f.ino .reg (permBits mode) 1 0 uid gid, .sqlite f) := by
  unfold makeFile createFile
  obtain ⟨_ | _, _⟩ := Fs.createFile s.db v.online parentIno name <;> rfl

@[simp] theorem makeFile_tables :
    (s.makeFile v parentIno name mode uid gid).2.db = (Fs.createFile s.db v.online parentIno name).2 := by
  unfold makeFile createFile
  obtain ⟨_ | _, _⟩ := Fs.createFile s.db v.online parentIno name <;> rfl

@[simp] theorem makeDir_fst : (s.makeDir v parentIno name mode uid gid).1 =
    (Fs.mkdir s.db parentIno name).1.map fun ino => v.newAttr ino .dir (permBits mode) 2 0 uid gid := by
  unfold makeDir mkdir
  obtain ⟨_ | _, _⟩ := Fs.mkdir s.db parentIno name <;> rfl

@[simp] theorem makeDir_tables :
    (s.makeDir v parentIno name mode uid gid).2.db = (Fs.mkdir s.db parentIno name).2 := by
  unfold makeDir mkdir
  obtain ⟨_ | _, _⟩ := Fs.mkdir s.db parentIno name <;> rfl

@[simp] theorem makeSymlink_fst : (s.makeSymlink v parentIno name target uid gid).1 =
    (Fs.symlink s.db parentIno name target).1.map fun ino =>
      v.newAttr ino .lnk 0o777 1 target.utf8ByteSize uid gid := by
  unfold makeSymlink symlink
  obtain ⟨_ | _, _⟩ := Fs.symlink s.db parentIno name target <;> rfl

@[simp] theorem makeSymlink_tables :
    (s.makeSymlink v parentIno name target uid gid).2.db = (Fs.symlink s.db parentIno name target).2 := by
  unfold makeSymlink symlink
  obtain ⟨_ | _, _⟩ := Fs.symlink s.db parentIno name target <;> rfl

@[simp] theorem makeLink_tables : (s.makeLink v ino parentIno name).2.db = (Fs.link s.db ino parentIno name).2 := by
  unfold makeLink link
  obtain ⟨_ | _, _⟩ := Fs.link s.db ino parentIno name <;> rfl

/-- `link` answers with the attributes that the inode has then. -/
theorem makeLink_attr {attr : FileAttr} (h : (s.makeLink v ino parentIno name).1 = .ok attr) :
    attrOf (s.makeLink v ino parentIno name).2.db v ino = some attr := by
  unfold makeLink at h ⊢
  split at h
  · cases h
  · dsimp only at h ⊢
    unfold found at h
    split at h
    · cases h
    · simp_all

end Tables

end Methods

/-- `SupermemoryFs` during a call. -/
def fileSystem (v : Ambient) (nowMs : ℤ) : FileSystem SupermemoryFs BoxedFile where
  lookup parentIno name s := s.lookup v parentIno name
  getattr ino s := .ok (s.getattr v ino)
  setattr ino attr s := s.setattr v ino attr
  readdirPlus ino s := .ok (readdirPlus s.db v ino)
  mkdir parentIno name mode uid gid s := s.makeDir v parentIno name mode uid gid
  rmdir parentIno name s := s.rmdir parentIno name
  openFile ino s := s.openFile v ino
  createFile parentIno name mode uid gid s := s.makeFile v parentIno name mode uid gid
  unlink parentIno name s := s.unlink v.online parentIno name nowMs
  readlink ino s := Fs.readlink s.db ino
  symlink parentIno name target uid gid s := s.makeSymlink v parentIno name target uid gid
  link ino newParentIno newName s := s.makeLink v ino newParentIno newName
  rename oldParentIno oldName newParentIno newName s :=
    s.rename v.online oldParentIno oldName newParentIno newName nowMs
  read f offset size s :=
    match f with
    | .profile => some (.ok (ProfileFile.read v.profile offset size))
    | .sqlite f => f.read s.db offset size
  write f offset data s := s.writeFile nowMs f offset data
  flush f s := s.flushFile nowMs f
  fsync _ s := (.ok (), s)
  fileAttr f s :=
    match f with
    | .profile => .ok v.profileAttr
    | .sqlite f => found (attrOf s.db v f.ino)

end SupermemoryFs
end Smfs
