/-
# The NFS mount

`NfsAdapter` (`mount/nfs.rs`) answers the requests of an NFSv3 client with the
methods of a file system. It keeps nothing between two requests: a read and a
write open the file anew, and a write flushes it, for no request says that a
file is closed. `readdir` is in `Smfs.Listing`. The clock stands still during a
request.

Key definitions: `NfsAdapter`, `Nfs.Request`, `Nfs.Reply`, `NfsAdapter.answer`, `Nfs.Step`.
-/
import Smfs.Vfs

namespace Smfs

/-- `nfsstat3`. -/
inductive Nfsstat3
  | NFS3ERR_NOENT
  | NFS3ERR_EXIST
  | NFS3ERR_NOTDIR
  | NFS3ERR_ISDIR
  | NFS3ERR_INVAL
  | NFS3ERR_NOTEMPTY
  | NFS3ERR_NAMETOOLONG
  | NFS3ERR_ACCES
  | NFS3ERR_IO
  | NFS3ERR_NOTSUPP
  deriving DecidableEq, Repr

/-- `vfs_err_to_nfsstat3`. -/
def VfsError.toNfsstat3 : VfsError → Nfsstat3
  | .notFound => .NFS3ERR_NOENT
  | .alreadyExists => .NFS3ERR_EXIST
  | .notADirectory => .NFS3ERR_NOTDIR
  | .isADirectory => .NFS3ERR_ISDIR
  | .notASymlink => .NFS3ERR_INVAL
  | .notEmpty => .NFS3ERR_NOTEMPTY
  | .invalidPath _ => .NFS3ERR_INVAL
  | .nameTooLong _ => .NFS3ERR_NAMETOOLONG
  | .rootOperation => .NFS3ERR_ACCES
  | .permissionDenied => .NFS3ERR_ACCES
  | .invalidRename => .NFS3ERR_INVAL
  | .symlinkLoop => Nfsstat3.NFS3ERR_IO
  | .notSupported => .NFS3ERR_NOTSUPP
  | .io => Nfsstat3.NFS3ERR_IO

namespace Nfs

/-- `nfstime3`. -/
structure Nfstime3 where
  seconds : ℕ
  nseconds : ℕ
  deriving DecidableEq, Repr

/-- `fattr3`. -/
structure Fattr3 where
  ftype : FileKind
  mode : ℕ
  nlink : ℕ
  uid : ℕ
  gid : ℕ
  size : ℕ
  used : ℕ
  rdev : ℕ × ℕ
  fsid : ℕ
  fileid : Ino
  atime : Nfstime3
  mtime : Nfstime3
  ctime : Nfstime3
  deriving DecidableEq, Repr

/-- `file_attr_to_fattr3`. -/
def fileAttrToFattr3 (attr : FileAttr) : Fattr3 where
  ftype := attr.kind
  mode := permBits attr.perm
  nlink := attr.nlink
  uid := attr.uid
  gid := attr.gid
  size := attr.size
  used := attr.size
  rdev := (0, 0)
  fsid := 0
  fileid := attr.ino
  atime := ⟨asU32 attr.atime.1, attr.atime.2⟩
  mtime := ⟨asU32 attr.mtime.1, attr.mtime.2⟩
  ctime := ⟨asU32 attr.ctime.1, attr.ctime.2⟩

/-- `set_atime` and `set_mtime`. -/
inductive SetTime
  | dontChange
  | toServerTime
  | toClientTime (t : Nfstime3)
  deriving DecidableEq, Repr

/-- `sattr3`; what is `Void` is `none`. -/
structure Sattr3 where
  mode : Option ℕ
  uid : Option ℕ
  gid : Option ℕ
  size : Option ℕ
  atime : SetTime
  mtime : SetTime
  deriving DecidableEq, Repr

def SetTime.toTimeOrNow : SetTime → Option TimeOrNow
  | .dontChange => none
  | .toServerTime => some .now
  | .toClientTime t => some (.time t.seconds t.nseconds)

/-- `sattr3_to_set_attr`. -/
def sattr3ToSetAttr (s : Sattr3) : SetAttr where
  mode := s.mode.map permBits
  uid := s.uid
  gid := s.gid
  size := s.size
  atime := s.atime.toTimeOrNow
  mtime := s.mtime.toTimeOrNow

/-- What a client asks. A name that is not UTF-8 is `none`. -/
inductive Request
  | lookup (dirid : Ino) (filename : Option String)
  | getattr (id : Ino)
  | setattr (id : Ino) (attr : Sattr3)
  | read (id : Ino) (offset count : ℕ)
  | write (id : Ino) (offset : ℕ) (data : Bytes)
  | create (dirid : Ino) (filename : Option String) (attr : Sattr3)
  | createExclusive (dirid : Ino) (filename : Option String)
  | mkdir (dirid : Ino) (dirname : Option String)
  | remove (dirid : Ino) (filename : Option String)
  | rename (fromDirid : Ino) (fromFilename : Option String) (toDirid : Ino) (toFilename : Option String)
  | symlink (dirid : Ino) (linkname path : Option String)
  | readlink (id : Ino)
  deriving DecidableEq, Repr

inductive Reply
  | fileid (id : Ino)
  | attr (attr : Fattr3)
  | data (bytes : Bytes) (eof : Bool)
  | made (id : Ino) (attr : Fattr3)
  | path (bytes : Bytes)
  | done
  | error (status : Nfsstat3)
  deriving DecidableEq, Repr

/-- The reply to what a method returns. -/
def replied {α : Type} (reply : α → Reply) : Except VfsError α → Reply
  | .ok a => reply a
  | .error e => .error e.toNfsstat3

/-- The reply where nothing is `NFS3ERR_NOENT`. -/
def repliedSome {α : Type} (reply : α → Reply) : Except VfsError (Option α) → Reply
  | .ok (some a) => reply a
  | .ok none => .error .NFS3ERR_NOENT
  | .error e => .error e.toNfsstat3

/-- An inode with its attributes. -/
def madeReply (attr : FileAttr) : Reply := .made attr.ino (fileAttrToFattr3 attr)

end Nfs

/-- `NfsAdapter`. -/
structure NfsAdapter (σ : Type) where
  fs : σ
  defaultUid : ℕ
  defaultGid : ℕ

namespace NfsAdapter

open Nfs

variable {σ φ α : Type} (F : FileSystem σ φ) (a : NfsAdapter σ)

/-- The adapter once a method has run. -/
def after (fs : σ) : NfsAdapter σ := { a with fs }

/-- A reply and the adapter, for a method on the whole file system. -/
def calling (reply : α → Reply) (r : Except VfsError α × σ) : Reply × NfsAdapter σ := (replied reply r.1, a.after r.2)

/-- A request with a name. -/
def named (name : Option String) (k : String → Reply × NfsAdapter σ) : Reply × NfsAdapter σ :=
  match name with
  | none => (.error .NFS3ERR_INVAL, a)
  | some name => k name

def lookup (dirid : Ino) (name : String) : Reply × NfsAdapter σ :=
  if name = "." ∨ name = ".." then (.fileid dirid, a)
  else
    let r := F.lookup dirid name a.fs
    (repliedSome (fun attr => .fileid attr.ino) r.1, a.after r.2)

/-- `read`; `none` where the read of the file panics. -/
def read (id : Ino) (offset count : ℕ) : Option Reply :=
  match F.openFile id a.fs with
  | .error e => some (.error e.toNfsstat3)
  | .ok handle => (F.read handle offset count a.fs).map fun read =>
    match read, F.fileAttr handle a.fs with
    | .error e, _ => .error e.toNfsstat3
    | .ok _, .error e => .error e.toNfsstat3
    | .ok data, .ok attr => .data data (decide (offset + data.length ≥ attr.size))

/-- `write`. What `flush` returns is not looked at. -/
def write (id : Ino) (offset : ℕ) (data : Bytes) : Reply × NfsAdapter σ :=
  match F.openFile id a.fs with
  | .error e => (.error e.toNfsstat3, a)
  | .ok handle =>
    match F.write handle offset data a.fs with
    | (.error e, fs) => (.error e.toNfsstat3, a.after fs)
    | (.ok _, fs) =>
      let flushed := (F.flush handle fs).2
      (replied (.attr ∘ fileAttrToFattr3) (F.fileAttr handle flushed), a.after flushed)

/-- `create_file` in a directory, and the reply to it. -/
def creating (reply : FileAttr → Reply) (dirid : Ino) (name : String) (mode : ℕ) (fs : σ) : Reply × NfsAdapter σ :=
  a.calling (fun made => reply made.1) (F.createFile dirid name mode a.defaultUid a.defaultGid fs)

def create (dirid : Ino) (name : String) (attr : Sattr3) : Reply × NfsAdapter σ :=
  a.creating F madeReply dirid name ((attr.mode.map permBits).getD 0o644) a.fs

/-- `create_exclusive`. -/
def createExclusive (dirid : Ino) (name : String) : Reply × NfsAdapter σ :=
  match F.lookup dirid name a.fs with
  | (.ok (some _), fs) => (.error .NFS3ERR_EXIST, a.after fs)
  | (.ok none, fs) => a.creating F (fun attr => .fileid attr.ino) dirid name 0o644 fs
  | (.error e, fs) => (.error e.toNfsstat3, a.after fs)

/-- `remove`: of a directory too. -/
def remove (dirid : Ino) (name : String) : Reply × NfsAdapter σ :=
  match F.lookup dirid name a.fs with
  | (.error e, fs) => (.error e.toNfsstat3, a.after fs)
  | (.ok none, fs) => (.error .NFS3ERR_NOENT, a.after fs)
  | (.ok (some attr), fs) =>
    if attr.kind = .dir then a.calling (fun _ => .done) (F.rmdir dirid name fs)
    else a.calling (fun _ => .done) (F.unlink dirid name fs)

/-- A request, its reply and the adapter then; `none` where it panics. -/
def answer : Request → Option (Reply × NfsAdapter σ)
  | .lookup dirid filename => some (a.named filename fun name => a.lookup F dirid name)
  | .getattr id => some (repliedSome (.attr ∘ fileAttrToFattr3) (F.getattr id a.fs), a)
  | .setattr id attr => some (a.calling (.attr ∘ fileAttrToFattr3) (F.setattr id (sattr3ToSetAttr attr) a.fs))
  | .read id offset count => (a.read F id offset count).map fun reply => (reply, a)
  | .write id offset data => some (a.write F id offset data)
  | .create dirid filename attr => some (a.named filename fun name => a.create F dirid name attr)
  | .createExclusive dirid filename => some (a.named filename fun name => a.createExclusive F dirid name)
  | .mkdir dirid dirname => some (a.named dirname fun name =>
      a.calling madeReply (F.mkdir dirid name 0o755 a.defaultUid a.defaultGid a.fs))
  | .remove dirid filename => some (a.named filename fun name => a.remove F dirid name)
  | .rename fromDirid fromFilename toDirid toFilename => some (a.named fromFilename fun fromName =>
      a.named toFilename fun toName => a.calling (fun _ => .done) (F.rename fromDirid fromName toDirid toName a.fs))
  | .symlink dirid linkname path => some (a.named linkname fun name => a.named path fun target =>
      a.calling madeReply (F.symlink dirid name target a.defaultUid a.defaultGid a.fs))
  | .readlink id => some (repliedSome (.path ∘ bytesOf) (F.readlink id a.fs), a)

end NfsAdapter

namespace Nfs

/-- What is shown of a request: what the call reads besides the state, the request and its reply. -/
abbrev Exchange (ε : Type) := ε × Request × Reply

/-- One request. -/
def Step {σ φ ε : Type} (F : ε → FileSystem σ φ) (a : NfsAdapter σ) (x : Exchange ε) (b : NfsAdapter σ) : Prop :=
  a.answer (F x.1) x.2.1 = some (x.2.2, b)

end Nfs
end Smfs
