/-
# The FUSE mount

`FuseAdapter` (`mount/fuse.rs`) answers the callbacks of the kernel with the
methods of a file system. What is open lies in a table under numbers that
count up; a callback on a number that is not there is answered `EBADF`. The
listings of directories are in `Smfs.Listing`, and `statfs` is left out.

Key definitions: `FuseAdapter`, `Fuse.Callback`, `Fuse.Reply`, `FuseAdapter.answer`, `Fuse.step`.
-/
import Smfs.Vfs

namespace Smfs

inductive Errno
  | ENOENT
  | EEXIST
  | ENOTDIR
  | EISDIR
  | EINVAL
  | ENOTEMPTY
  | ENAMETOOLONG
  | EPERM
  | EACCES
  | ELOOP
  | ENOTSUP
  | EIO
  | EBADF
  | ENOSYS
  deriving DecidableEq, Repr

/-- `vfs_errno`. -/
def VfsError.toErrno : VfsError → Errno
  | .notFound => .ENOENT
  | .alreadyExists => .EEXIST
  | .notADirectory => .ENOTDIR
  | .isADirectory => .EISDIR
  | .notASymlink => .EINVAL
  | .notEmpty => .ENOTEMPTY
  | .invalidPath _ => .EINVAL
  | .nameTooLong _ => .ENAMETOOLONG
  | .rootOperation => .EPERM
  | .permissionDenied => .EACCES
  | .invalidRename => .EINVAL
  | .symlinkLoop => .ELOOP
  | .notSupported => .ENOTSUP
  | .io => Errno.EIO

namespace Fuse

/-- `fuser::FileAttr`; a time in nanoseconds since the epoch. -/
structure FuserAttr where
  ino : Ino
  size : ℕ
  blocks : ℕ
  atime : ℕ
  mtime : ℕ
  ctime : ℕ
  crtime : ℕ
  kind : FileKind
  perm : ℕ
  nlink : ℕ
  uid : ℕ
  gid : ℕ
  rdev : ℕ
  blksize : ℕ
  flags : ℕ
  deriving DecidableEq, Repr

/-- `timestamp_to_system_time`. -/
def timestampToSystemTime (ts : ℤ × ℕ) : ℕ := ts.1.toNat * 10 ^ 9 + ts.2

/-- `file_attr_to_fuser_attr`. -/
def fileAttrToFuserAttr (attr : FileAttr) : FuserAttr where
  ino := attr.ino
  size := attr.size
  blocks := attr.blocks
  atime := timestampToSystemTime attr.atime
  mtime := timestampToSystemTime attr.mtime
  ctime := timestampToSystemTime attr.ctime
  crtime := timestampToSystemTime attr.ctime
  kind := attr.kind
  perm := permBits attr.perm
  nlink := attr.nlink
  uid := attr.uid
  gid := attr.gid
  rdev := attr.rdev
  blksize := attr.blksize
  flags := 0

/-- What the kernel asks. A name that is not UTF-8 is `none`. -/
inductive Callback
  | lookup (parent : Ino) (name : Option String)
  | getattr (ino : Ino)
  | setattr (ino : Ino) (attr : SetAttr)
  | readlink (ino : Ino)
  | mkdir (parent : Ino) (name : Option String) (mode : ℕ)
  | rmdir (parent : Ino) (name : Option String)
  | openFile (ino : Ino)
  | create (parent : Ino) (name : Option String) (mode : ℕ)
  | read (fh offset size : ℕ)
  | write (fh offset : ℕ) (data : Bytes)
  | flush (fh : ℕ)
  | release (fh : ℕ)
  | fsync (fh : ℕ)
  | unlink (parent : Ino) (name : Option String)
  | rename (parent : Ino) (name : Option String) (newparent : Ino) (newname : Option String)
  | symlink (parent : Ino) (linkName target : Option String)
  | link (ino newparent : Ino) (newname : Option String)
  | mknod
  | destroy
  deriving DecidableEq, Repr

inductive Reply
  | entry (attr : FuserAttr)
  | attr (attr : FuserAttr)
  | data (bytes : Bytes)
  | opened (fh : ℕ)
  | created (attr : FuserAttr) (fh : ℕ)
  | written (count : ℕ)
  | ok
  | error (errno : Errno)
  deriving DecidableEq, Repr

/-- The reply to what a method returns. -/
def replied {α : Type} (reply : α → Reply) : Except VfsError α → Reply
  | .ok a => reply a
  | .error e => .error e.toErrno

/-- The reply where nothing is `ENOENT`. -/
def repliedSome {α : Type} (reply : α → Reply) : Except VfsError (Option α) → Reply
  | .ok (some a) => reply a
  | .ok none => .error .ENOENT
  | .error e => .error e.toErrno

end Fuse

/-- `FuseAdapter`. -/
structure FuseAdapter (σ φ : Type) where
  fs : σ
  openFiles : List (ℕ × φ)
  nextFh : ℕ
  defaultUid : ℕ
  defaultGid : ℕ

namespace FuseAdapter

open Fuse

variable {σ φ α : Type}

def new (fs : σ) (defaultUid defaultGid : ℕ) : FuseAdapter σ φ := ⟨fs, [], 1, defaultUid, defaultGid⟩

/-- `register_handle`. -/
def registerHandle (a : FuseAdapter σ φ) (file : φ) : ℕ × FuseAdapter σ φ :=
  (a.nextFh, { a with openFiles := Table.set Prod.fst a.openFiles (a.nextFh, file),
                      nextFh := (a.nextFh + 1) % 2 ^ 64 })

/-- `get_handle`. -/
def getHandle (a : FuseAdapter σ φ) (fh : ℕ) : Option φ := (Table.get Prod.fst a.openFiles fh).map Prod.snd

/-- `release_handle`. -/
def releaseHandle (a : FuseAdapter σ φ) (fh : ℕ) : FuseAdapter σ φ :=
  { a with openFiles := Table.erase Prod.fst a.openFiles fh }

variable (F : FileSystem σ φ) (a : FuseAdapter σ φ)

/-- The adapter once a method has run. -/
def after (r : α × σ) : FuseAdapter σ φ := { a with fs := r.2 }

/-- A reply and the adapter, for a method on the whole file system. -/
def calling (reply : α → Reply) (r : Except VfsError α × σ) : Reply × FuseAdapter σ φ :=
  (replied reply r.1, a.after r)

/-- A callback on a handle. -/
def onHandle (fh : ℕ) (k : φ → Option (Reply × FuseAdapter σ φ)) : Option (Reply × FuseAdapter σ φ) :=
  match a.getHandle fh with
  | none => some (.error .EBADF, a)
  | some file => k file

/-- A callback with a name. -/
def named (name : Option String) (k : String → Reply × FuseAdapter σ φ) : Reply × FuseAdapter σ φ :=
  match name with
  | none => (.error .EINVAL, a)
  | some name => k name

/-- The callback `open`. -/
def opening (ino : Ino) : Reply × FuseAdapter σ φ :=
  match F.openFile ino a.fs with
  | .error e => (.error e.toErrno, a)
  | .ok file => (.opened (a.registerHandle file).1, (a.registerHandle file).2)

/-- The callback `create`. -/
def creating (parent : Ino) (name : String) (mode : ℕ) : Reply × FuseAdapter σ φ :=
  match F.createFile parent name mode a.defaultUid a.defaultGid a.fs with
  | (.error e, fs) => (.error e.toErrno, { a with fs })
  | (.ok (attr, file), fs) =>
    let registered := registerHandle { a with fs } file
    (.created (fileAttrToFuserAttr attr) registered.1, registered.2)

/-- A callback, its reply and the adapter then; `none` where it panics. -/
def answer : Callback → Option (Reply × FuseAdapter σ φ)
  | .lookup parent name => some (a.named name fun name =>
      let r := F.lookup parent name a.fs
      (repliedSome (.entry ∘ fileAttrToFuserAttr) r.1, a.after r))
  | .getattr ino => some (repliedSome (.attr ∘ fileAttrToFuserAttr) (F.getattr ino a.fs), a)
  | .setattr ino attr => some (a.calling (.attr ∘ fileAttrToFuserAttr) (F.setattr ino attr a.fs))
  | .readlink ino => some (repliedSome (.data ∘ bytesOf) (F.readlink ino a.fs), a)
  | .mkdir parent name mode => some (a.named name fun name =>
      a.calling (.entry ∘ fileAttrToFuserAttr) (F.mkdir parent name mode a.defaultUid a.defaultGid a.fs))
  | .rmdir parent name => some (a.named name fun name => a.calling (fun _ => .ok) (F.rmdir parent name a.fs))
  | .openFile ino => some (a.opening F ino)
  | .create parent name mode => some (a.named name fun name => a.creating F parent name mode)
  | .read fh offset size => a.onHandle fh fun file =>
      (F.read file offset size a.fs).map fun r => (replied .data r, a)
  | .write fh offset data => a.onHandle fh fun file => some (a.calling .written (F.write file offset data a.fs))
  | .flush fh => a.onHandle fh fun file => some (a.calling (fun _ => .ok) (F.flush file a.fs))
  | .release fh => some (.ok, a.releaseHandle fh)
  | .fsync fh => a.onHandle fh fun file => some (a.calling (fun _ => .ok) (F.fsync file a.fs))
  | .unlink parent name => some (a.named name fun name => a.calling (fun _ => .ok) (F.unlink parent name a.fs))
  | .rename parent name newparent newname => some (a.named name fun old => a.named newname fun new =>
      a.calling (fun _ => .ok) (F.rename parent old newparent new a.fs))
  | .symlink parent linkName target => some (a.named linkName fun name => a.named target fun target =>
      a.calling (.entry ∘ fileAttrToFuserAttr) (F.symlink parent name target a.defaultUid a.defaultGid a.fs))
  | .link ino newparent newname => some (a.named newname fun name =>
      a.calling (.entry ∘ fileAttrToFuserAttr) (F.link ino newparent name a.fs))
  | .mknod => some (.error .ENOSYS, a)
  | .destroy => some (.ok, { a with openFiles := [] })

end FuseAdapter

namespace Fuse

/-- What is shown of a callback: what the call reads besides the state, the callback and its reply. -/
abbrev Exchange (ε : Type) := ε × Callback × Reply

/-- One callback. -/
def Step {σ φ ε : Type} (F : ε → FileSystem σ φ) (a : FuseAdapter σ φ) (x : Exchange ε) (b : FuseAdapter σ φ) : Prop :=
  a.answer (F x.1) x.2.1 = some (x.2.2, b)

end Fuse
end Smfs
