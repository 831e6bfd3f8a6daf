/-
# The mount as a table of open files

What a program sees through the mount, without tables and chunks: names lead
to inodes, a file is an array of bytes, and each number that `open` gave out
stands for a file or for the profile. A file goes with its last link, and a
number whose file is gone stays open. The FUSE mount is this system
(`Posix.mount_refines`): every run of callbacks gives the replies of the table,
and what is pushed of a file is then its array. Writes start within their file
and truncates make it no longer, since the chunks beyond have holes
(`Smfs.File.Flat`), and no directory is moved into itself or below itself, from
where its walk never ends (`Smfs.Names.Walks`).

Key definitions: `Posix.State`, `Posix.Moves`, `Posix.Sim`, `Posix.Within`.
Key theorems: `Posix.sim_step`, `Posix.mount_refines`.
-/
import Smfs.File.Calls
import Smfs.Fuse
import Smfs.Lib.Trace

namespace Smfs
namespace Posix

open Fuse Cache Flat Shown Trans

/-! ### The table -/

/-- What a number stands for. -/
inductive Target
  | file (ino : Ino)
  | profile
  deriving DecidableEq, Repr

/-- The names, the files, what is open, and the next number. -/
structure State extends Store where
  handle : ℕ → Option Target
  next : ℕ

namespace State

/-- Before anything is made or opened. -/
def start : State := ⟨.start, fun _ => none, 1⟩

def register (p : State) (t : Target) : State :=
  { p with handle := Function.update p.handle p.next (some t), next := p.next + 1 }

def close (p : State) (fh : ℕ) : State := { p with handle := Function.update p.handle fh none }

section Updates

variable (p : State) (t : Target) (fh n : ℕ)

theorem register_handle : (p.register t).handle fh = if fh = p.next then some t else p.handle fh :=
  Function.update_apply _ _ _ _

theorem close_handle : (p.close n).handle fh = if fh = n then none else p.handle fh := Function.update_apply _ _ _ _

end Updates

/-- What `open` finds. -/
def find (p : State) (v : Ambient) (ino : Ino) : Except VfsError Target :=
  if ino = PROFILE_INO then if v.online then .ok .profile else .error .notFound
  else (p.tree.regular ino).map fun _ => .file ino

def read (p : State) (v : Ambient) (fh offset size : ℕ) : Reply :=
  match p.handle fh with
  | none => .error .EBADF
  | some .profile => .data (MemFile.read (v.profile.getD []) offset size)
  | some (.file ino) =>
    match p.file ino with
    | none => .error .ENOENT
    | some bytes => .data (MemFile.read bytes offset size)

def write (p : State) (fh offset : ℕ) (data : Bytes) : Reply × State :=
  match p.handle fh with
  | none => (.error .EBADF, p)
  | some .profile => (.error .EACCES, p)
  | some (.file ino) =>
    (replied .written (p.file.write ino offset data).1, { p with file := (p.file.write ino offset data).2 })

/-- A call that changes the names, or fails and changes nothing. -/
def turns (p : State) (out : Except VfsError Tree) (done : Reply → Prop) (r : Reply) (q : State) : Prop :=
  match out with
  | .error e => r = .error e.toErrno ∧ q = p
  | .ok t => done r ∧ q = { p with toStore := p.become t }

end State

/-- The attributes that a reply carries. -/
def attrIn : Reply → Option FuserAttr
  | .entry attr => some attr
  | .attr attr => some attr
  | .created attr _ => some attr
  | _ => none

/-- The size that a reply gives of a file is the number of its bytes. -/
def Sized (q : State) (r : Reply) : Prop :=
  ∀ attr bytes, attrIn r = some attr → attr.ino ≠ PROFILE_INO → q.file attr.ino = some bytes → attr.size = bytes.length

/-- The reply that gives an inode and its kind, or says that there is none. -/
def Finds (reply : FuserAttr → Reply) (found : Except VfsError (Option (Ino × FileKind))) (r : Reply) : Prop :=
  match found with
  | .error e => r = .error e.toErrno
  | .ok none => r = .error .ENOENT
  | .ok (some shape) => ∃ attr, (attr.ino, attr.kind) = shape ∧ r = reply attr

/-- What becomes of the table with a callback, and its reply. -/
def Moves (v : Ambient) (p : State) : Callback → Reply → State → Prop
  | .lookup parent (some name), r, q => Finds .entry (p.tree.lookup parent name v.online) r ∧ q = p
  | .getattr ino, r, q => Finds .attr (.ok (p.tree.getattr v.online ino)) r ∧ q = p
  | .setattr ino attr, r, q =>
    match p.tree.setattr ino attr.size with
    | .error e => r = .error e.toErrno ∧ q = p
    | .ok () => Finds .attr (.ok (p.tree.shape ino)) r ∧ q = { p with file := p.file.cut ino attr }
  | .readlink ino, r, q => r = repliedSome (.data ∘ bytesOf) (p.tree.readlink ino) ∧ q = p
  | .mkdir parent (some name) _, r, q =>
    p.turns (p.tree.mkdir parent name) (Finds .entry (.ok (some (p.tree.next, .dir)))) r q
  | .rmdir parent (some name), r, q => p.turns (p.tree.rmdir parent name) (· = .ok) r q
  | .openFile ino, r, q =>
    match p.find v ino with
    | .error e => r = .error e.toErrno ∧ q = p
    | .ok t => r = .opened p.next ∧ q = p.register t
  | .create parent (some name) _, r, q =>
    match p.tree.create parent name with
    | .error e => r = .error e.toErrno ∧ q = p
    | .ok t =>
      -- the number is new: it is no file's, and nothing open stands for it
      p.file p.tree.next = none ∧ (∀ fh, p.handle fh ≠ some (.file p.tree.next)) ∧
        Finds (.created · p.next) (.ok (some (p.tree.next, .reg))) r ∧
        q = ({ p with tree := t, file := p.file.put p.tree.next [] } : State).register (.file p.tree.next)
  | .read fh offset size, r, q => r = p.read v fh offset size ∧ q = p
  | .write fh offset data, r, q => (r, q) = p.write fh offset data
  | .flush fh, r, q => r = (if (p.handle fh).isSome then .ok else .error .EBADF) ∧ q = p
  | .fsync fh, r, q => r = (if (p.handle fh).isSome then .ok else .error .EBADF) ∧ q = p
  | .release fh, r, q => r = .ok ∧ q = p.close fh
  | .unlink parent (some name), r, q => p.turns (p.tree.unlink parent name) (· = .ok) r q
  | .rename parent (some name) newparent (some newname), r, q =>
    p.turns (p.tree.rename parent name newparent newname) (· = .ok) r q
  | .symlink parent (some name) (some target), r, q =>
    p.turns (p.tree.symlink parent name target) (Finds .entry (.ok (some (p.tree.next, .lnk)))) r q
  | .link ino parent (some name), r, q =>
    p.turns (p.tree.link parent name ino) (Finds .entry (.ok (p.tree.shape ino))) r q
  | .mknod, r, q => r = .error .ENOSYS ∧ q = p
  | .destroy, r, q => r = .ok ∧ q = { p with handle := fun _ => none }
  -- a name that is not UTF-8
  | _, r, q => r = .error .EINVAL ∧ q = p

/-- One callback, during which the profile, the columns and the clock are as given. -/
def Step (p : State) (x : Exchange (Ambient × ℤ)) (q : State) : Prop :=
  Moves x.1.1 p x.2.1 x.2.2 q ∧ Sized q x.2.2

/-! ### The mount as this system -/

/-- The mount. -/
abbrev Mount := FuseAdapter SupermemoryFs BoxedFile

def targetOf : BoxedFile → Target
  | .sqlite f => .file f.ino
  | .profile => .profile

/-- The table that a mount implements: what is open is a file of it or gone. -/
structure Sim (a : Mount) (p : State) : Prop extends Shows a.fs p.toStore where
  given : ∀ fh ino, p.handle fh = some (.file ino) →
    ino < p.tree.next ∧ (p.tree.node ino = none ∨ (p.file ino).isSome)
  handle : ∀ fh, p.handle fh = (a.getHandle fh).map targetOf
  next : p.next = a.nextFh

/-- Writes start within their file, truncates make it no longer, no directory is
moved into itself or below itself, and there are numbers left. -/
def Within (a : Mount) : Callback → Prop
  | .openFile _ => a.nextFh + 1 < 2 ^ 64
  | .create _ _ _ => a.nextFh + 1 < 2 ^ 64
  | .write fh offset _ => ∀ f, a.getHandle fh = some (.sqlite f) → offset ≤ Pushed.sizeOf a.fs.db f.ino
  | .setattr ino attr => ∀ size, attr.size = some size → size ≤ Pushed.sizeOf a.fs.db ino
  | .rename parent (some name) newparent (some newname) =>
    Walks.StaysAbove a.fs.db (.rename parent name newparent newname)
  | _ => True

/-- A callback of the mount. -/
def Serves (a : Mount) (x : Exchange (Ambient × ℤ)) (b : Mount) : Prop :=
  Within a x.2.1 ∧ Fuse.Step (fun e => SupermemoryFs.fileSystem e.1 e.2) a x b

section Lemmas

variable {a b : Mount} {p q : State} {v : Ambient} {ino i : Ino} {bytes data : Bytes} {fs : SupermemoryFs}
variable {fh n : ℕ} {nowMs : ℤ} {r : Reply} {α : Type} {st : Store} {out : Except VfsError Tree}

/-- A number that is open stands for a file that is there, or for none. -/
theorem Sim.inode (h : Sim a p) (hf : p.handle fh = some (.file ino)) (hg : p.file ino = none) :
    a.fs.db.getInode ino = none := by
  have hnode := (h.given fh ino hf).2.resolve_right (by simp [hg])
  rw [h.tree, node_sort] at hnode
  simpa [sortOf] using hnode

/-- The attributes of an inode give the size of the file. -/
theorem Sim.sized (h : Sim a p) {attr : FileAttr} (ha : Fs.attrOf a.fs.db v ino = some attr)
    (hr : attrIn r = some (fileAttrToFuserAttr attr)) : Sized p r := by
  intro attr' bytes hattr _ hfile
  obtain rfl := Option.some.inj (hr.symm.trans hattr)
  exact h.size ha hfile

theorem sized_none (h : attrIn r = none) : Sized p r := fun attr bytes hattr => by simp [h] at hattr

/-- A call after which the names and the files are those of a store. -/
theorem Sim.calls (h : Sim a p) (hs : Shows fs st) (hages : p.tree.Ages st.tree)
    (hfile : ∀ i, (p.file i).isSome → (st.tree.node i).isSome → (st.file i).isSome) :
    Sim { a with fs } { p with toStore := st } where
  toShows := hs
  given fh i hi := by
    obtain ⟨hlt, hgone⟩ := h.given fh i hi
    refine ⟨hlt.trans_le hages.next, ?_⟩
    rcases hgone with hnone | hsome
    · exact .inl (hages.gone i hlt hnone)
    · by_cases hnode : (st.tree.node i).isSome
      · exact .inr (hfile i hsome hnode)
      · exact .inl (Option.not_isSome_iff_eq_none.mp hnode)
  handle := h.handle
  next := h.next

/-- The names and the files are as they were. -/
theorem Sim.same (h : Sim a p) (hs : Shows fs p.toStore) : Sim { a with fs } p :=
  h.calls hs ⟨le_rfl, fun _ _ => id⟩ fun _ hi _ => hi

/-- A call that writes to the files, and after which no file is missing. -/
theorem Sim.writes (h : Sim a p) {files : Files} (hs : Shows fs { p.toStore with file := files })
    (hf : ∀ ino, (p.file ino).isSome → (files ino).isSome) : Sim { a with fs } { p with file := files } :=
  h.calls hs ⟨le_rfl, fun _ _ => id⟩ fun i hi _ => hf i hi

/-- A call that changes the names. -/
theorem Sim.turned (h : Sim a p) {c : Except VfsError α × SupermemoryFs} {good : α → Prop} {reply : α → Reply}
    {done : Reply → Prop} (hc : Turns p.toStore c good out) (hdone : ∀ b, good b → done (reply b))
    (hsized : ∀ b t, c.1 = .ok b → good b → Shows c.2 (p.become t) → Sized { p with toStore := p.become t } (reply b)) :
    ∃ q, (p.turns out done (replied reply c.1) q ∧ Sized q (replied reply c.1)) ∧ Sim (a.after c) q := by
  unfold Turns at hc
  unfold State.turns
  cases out with
  | error e =>
    obtain ⟨he, hs⟩ := hc
    rw [he]
    exact ⟨p, ⟨⟨rfl, rfl⟩, sized_none rfl⟩, h.same hs⟩
  | ok t =>
    obtain ⟨⟨b, hb, hgood⟩, hs, hages⟩ := hc
    rw [hb]
    refine ⟨_, ⟨⟨hdone b hgood, rfl⟩, hsized b t hb hgood hs⟩, h.calls hs hages fun i hi hnode => ?_⟩
    have hkept : (p.become t).file i = p.file i := if_pos hnode
    rwa [hkept]

/-- A call that answers with nothing. -/
theorem Sim.removed (h : Sim a p) {c : Except VfsError Unit × SupermemoryFs} {good : Unit → Prop}
    (hc : Turns p.toStore c good out) :
    ∃ q, (p.turns out (· = .ok) (replied (fun _ => .ok) c.1) q ∧ Sized q (replied (fun _ => .ok) c.1)) ∧
      Sim (a.after c) q := h.turned hc (fun _ _ => rfl) fun _ _ _ _ _ => sized_none rfl

theorem getHandle_register {f : BoxedFile} : (a.registerHandle f).2.getHandle fh =
    if fh = a.nextFh then some f else a.getHandle fh := by
  unfold FuseAdapter.getHandle FuseAdapter.registerHandle
  rw [Table.get_set]
  dsimp only
  split_ifs <;> rfl

theorem getHandle_release : (a.releaseHandle n).getHandle fh = if fh = n then none else a.getHandle fh := by
  unfold FuseAdapter.getHandle FuseAdapter.releaseHandle
  rw [Table.get_erase]
  split_ifs <;> rfl

/-- A file or the profile is opened. -/
theorem Sim.register (h : Sim a p) {f : BoxedFile} (hn : a.nextFh + 1 < 2 ^ 64)
    (hf : ∀ ino, targetOf f = .file ino → (p.file ino).isSome) :
    Sim (a.registerHandle f).2 (p.register (targetOf f)) where
  toShows := h.toShows
  handle fh := by
    rw [getHandle_register, State.register_handle, h.next]
    split_ifs
    · rfl
    · exact h.handle fh
  given fh ino hfh := by
    rw [State.register_handle] at hfh
    split_ifs at hfh
    · have hsome := hf ino (Option.some.inj hfh)
      obtain ⟨bytes, hbytes⟩ := Option.isSome_iff_exists.mp hsome
      refine ⟨?_, .inr hsome⟩
      show ino < p.tree.next
      rw [h.tree]
      exact h.lt hbytes
    · exact h.given fh ino hfh
  next := by
    change p.next + 1 = (a.nextFh + 1) % 2 ^ 64
    rw [Nat.mod_eq_of_lt hn, h.next]

theorem Sim.close (h : Sim a p) : Sim (a.releaseHandle n) (p.close n) where
  toShows := h.toShows
  handle fh := by
    rw [getHandle_release, State.close_handle]
    split_ifs
    · rfl
    · exact h.handle fh
  given fh ino hfh := by
    rw [State.close_handle] at hfh
    split_ifs at hfh
    exact h.given fh ino hfh
  next := h.next

/-! ### The calls on names -/

theorem sized_profile {attr : FuserAttr} (h : attrIn r = some attr) (hp : attr.ino = PROFILE_INO) : Sized p r := by
  intro attr' bytes hattr hne
  obtain rfl := Option.some.inj (h.symm.trans hattr)
  exact absurd hp hne

/-- An inode that is new is no file of the table. -/
theorem Sim.sized_new (h : Sim a p) {attr : FuserAttr} {t : Tree} (hr : attrIn r = some attr)
    (hnew : attr.ino = p.tree.next) : Sized { p with toStore := p.become t } r := by
  intro attr' bytes hattr _ hfile
  obtain rfl := Option.some.inj (hr.symm.trans hattr)
  have hnone : p.file attr.ino = none := h.new (by rw [hnew, h.tree]; exact le_rfl)
  change (if (t.node attr.ino).isSome then p.file attr.ino else none) = some bytes at hfile
  simp [hnone] at hfile

theorem finds_some {reply : FuserAttr → Reply} {attr : FileAttr} {shape : Option (Ino × FileKind)}
    (h : shape = some (shapeOf attr)) : Finds reply (.ok shape) (reply (fileAttrToFuserAttr attr)) := by
  rw [h]
  exact ⟨_, rfl, rfl⟩

/-- The reply to attributes that were found, or not. -/
theorem finds_of_map {reply : FuserAttr → Reply} {found : Except VfsError (Option FileAttr)} :
    Finds reply (found.map (Option.map shapeOf)) (repliedSome (reply ∘ fileAttrToFuserAttr) found) := by
  rcases found with e | _ | attr
  · rfl
  · rfl
  · exact ⟨_, rfl, rfl⟩

/-- A callback, the reply and the adapter then, is one of the table. -/
def Steps (v : Ambient) (p : State) (c : Callback) (served : Reply × Mount) : Prop :=
  ∃ q, (Moves v p c served.1 q ∧ Sized q served.1) ∧ Sim served.2 q

theorem Sim.lookup (h : Sim a p) (parent : Ino) (name : String) :
    Steps v p (.lookup parent (some name)) (repliedSome (.entry ∘ fileAttrToFuserAttr) (a.fs.lookup v parent name).1,
      a.after (a.fs.lookup v parent name)) := by
  obtain ⟨hfound, hs⟩ := h.toShows.lookup v parent name
  have hmoves : Finds .entry (p.tree.lookup parent name v.online)
      (repliedSome (.entry ∘ fileAttrToFuserAttr) (a.fs.lookup v parent name).1) := hfound ▸ finds_of_map
  refine ⟨p, ⟨⟨hmoves, rfl⟩, ?_⟩, h.same hs⟩
  cases hl : (a.fs.lookup v parent name).1 with
  | error e => exact sized_none rfl
  | ok found =>
    cases found with
    | none => exact sized_none rfl
    | some attr =>
      rcases SupermemoryFs.lookup_attr hl with hp | ⟨i, hi⟩
      · exact sized_profile rfl hp
      · exact h.sized hi rfl

theorem Sim.mkdir (h : Sim a p) (parent : Ino) (name : String) (mode uid gid : ℕ) :
    Steps v p (.mkdir parent (some name) mode)
      (a.calling (.entry ∘ fileAttrToFuserAttr) (a.fs.makeDir v parent name mode uid gid)) :=
  h.turned (h.toShows.makeDir v parent name mode uid gid) (fun _ hb => finds_some (congrArg some hb.symm))
    fun _ _ _ hb _ => h.sized_new rfl (congrArg Prod.fst hb)

theorem Sim.symlink (h : Sim a p) (parent : Ino) (name target : String) (uid gid : ℕ) :
    Steps v p (.symlink parent (some name) (some target))
      (a.calling (.entry ∘ fileAttrToFuserAttr) (a.fs.makeSymlink v parent name target uid gid)) :=
  h.turned (h.toShows.makeSymlink v parent name target uid gid) (fun _ hb => finds_some (congrArg some hb.symm))
    fun _ _ _ hb _ => h.sized_new rfl (congrArg Prod.fst hb)

theorem Sim.link (h : Sim a p) (ino parent : Ino) (name : String) :
    Steps v p (.link ino parent (some name)) (a.calling (.entry ∘ fileAttrToFuserAttr) (a.fs.makeLink v ino parent name)) := by
  refine h.turned (h.toShows.makeLink v ino parent name) (fun _ hb => finds_some hb) fun attr t hok _ hs => ?_
  intro attr' bytes hattr _ hfile
  obtain rfl := Option.some.inj hattr
  exact hs.size (SupermemoryFs.makeLink_attr v a.fs hok) hfile

theorem Sim.rmdir (h : Sim a p) (parent : Ino) (name : String) :
    Steps v p (.rmdir parent (some name)) (a.calling (fun _ => .ok) (a.fs.rmdir parent name)) :=
  h.removed (h.toShows.rmdir parent name)

theorem Sim.unlink (h : Sim a p) (now : ℤ) (parent : Ino) (name : String) :
    Steps v p (.unlink parent (some name)) (a.calling (fun _ => .ok) (a.fs.unlink v.online parent name now)) :=
  h.removed (h.toShows.unlink v.online parent name now)

theorem Sim.rename (h : Sim a p) (now : ℤ) (parent : Ino) (name : String) (newparent : Ino) (newname : String)
    (hw : Within a (.rename parent (some name) newparent (some newname))) :
    Steps v p (.rename parent (some name) newparent (some newname))
      (a.calling (fun _ => .ok) (a.fs.rename v.online parent name newparent newname now)) :=
  h.removed (h.toShows.rename v.online parent name newparent newname now hw)

theorem Sim.readlink (h : Sim a p) (ino : Ino) :
    Steps v p (.readlink ino) (repliedSome (.data ∘ bytesOf) (Fs.readlink a.fs.db ino), a) := by
  refine ⟨p, ⟨⟨congrArg (repliedSome (.data ∘ bytesOf)) (h.toShows.readlink ino), rfl⟩, sized_none ?_⟩, h⟩
  rcases Fs.readlink a.fs.db ino with e | _ | target <;> rfl

/-! ### The calls on files -/

theorem Sim.openFile (h : Sim a p) (ino : Ino) (hn : a.nextFh + 1 < 2 ^ 64) (now : ℤ) :
    Steps v p (.openFile ino) (a.opening (SupermemoryFs.fileSystem v now) ino) := by
  have hopen := h.toShows.openFile v.online ino
  unfold Steps FuseAdapter.opening SupermemoryFs.fileSystem Moves State.find SupermemoryFs.openFile Ambient.profileFile
  dsimp only
  by_cases hp : ino = PROFILE_INO
  · rw [if_pos hp, if_pos hp]
    by_cases hon : v.online = true
    · rw [if_pos hon, if_pos hon]
      exact ⟨p.register .profile, ⟨⟨congrArg Reply.opened h.next.symm, rfl⟩, sized_none rfl⟩,
        h.register (f := .profile) hn fun i hi => nomatch hi⟩
    · rw [if_neg hon, if_neg hon]
      exact ⟨p, ⟨⟨rfl, rfl⟩, sized_none rfl⟩, h⟩
  · rw [if_neg hp, if_neg hp]
    cases hr : p.tree.regular ino with
    | error e =>
      rw [hr] at hopen
      dsimp only at hopen
      rw [hopen]
      exact ⟨p, ⟨⟨rfl, rfl⟩, sized_none rfl⟩, h⟩
    | ok _ =>
      rw [hr] at hopen
      obtain ⟨hsome, hf⟩ := hopen
      rw [hf]
      refine ⟨p.register (.file ino), ⟨⟨congrArg Reply.opened h.next.symm, rfl⟩, sized_none rfl⟩,
        h.register (f := .sqlite ⟨ino, v.online, Fs.resolveFilepath a.fs.db ino⟩) hn fun i hi => ?_⟩
      cases hi
      exact hsome

/-- Nothing is known of the next inode. -/
theorem Sim.fresh (h : Sim a p) :
    p.file p.tree.next = none ∧ ∀ fh, p.handle fh ≠ some (.file p.tree.next) :=
  ⟨h.new (by rw [h.tree]; exact le_rfl), fun fh hfh => (h.given fh _ hfh).1.false⟩

theorem Sim.create (h : Sim a p) (hn : a.nextFh + 1 < 2 ^ 64) (now : ℤ) (parent : Ino) (name : String) (mode : ℕ) :
    Steps v p (.create parent (some name) mode) (a.creating (SupermemoryFs.fileSystem v now) parent name mode) := by
  have hmade := h.toShows.makeFile v parent name mode a.defaultUid a.defaultGid
  unfold Steps FuseAdapter.creating SupermemoryFs.fileSystem Moves
  dsimp only
  generalize a.fs.makeFile v parent name mode a.defaultUid a.defaultGid = made at hmade ⊢
  obtain ⟨res, fs⟩ := made
  cases hout : p.tree.create parent name with
  | error e =>
    rw [hout] at hmade
    obtain ⟨rfl, hs⟩ := hmade
    exact ⟨p, ⟨⟨rfl, rfl⟩, sized_none rfl⟩, h.same hs⟩
  | ok t =>
    rw [hout] at hmade
    obtain ⟨f, hino, rfl, hs, hages⟩ := hmade
    obtain ⟨hfile, hhandle⟩ := h.fresh
    have hput : p.file.put f.ino [] f.ino = some [] := by rw [Files.put_apply, if_pos rfl]
    have hsim : Sim { a with fs } { p with tree := t, file := p.file.put f.ino [] } :=
      h.calls hs hages fun i hi _ => Files.put_isSome hi
    rw [← hino] at hfile hhandle ⊢
    refine ⟨({ p with tree := t, file := p.file.put f.ino [] } : State).register (.file f.ino),
      ⟨⟨hfile, hhandle, ⟨_, rfl, congrArg (Reply.created _) h.next.symm⟩, rfl⟩, ?_⟩, ?_⟩
    · intro attr bytes hattr _ hb
      obtain rfl := Option.some.inj hattr
      obtain rfl := Option.some.inj (hput.symm.trans hb)
      rfl
    · refine @Sim.register { a with fs } _ hsim (.sqlite f) hn fun i hi => ?_
      cases hi
      exact Option.isSome_of_eq_some hput

theorem handle_none (h : Sim a p) (hf : a.getHandle fh = none) : p.handle fh = none := by
  rw [h.handle, hf, Option.map_none]

theorem handle_some (h : Sim a p) {f : BoxedFile} (hf : a.getHandle fh = some f) : p.handle fh = some (targetOf f) := by
  rw [h.handle, hf, Option.map_some]

/-- **A read is that of the array**, and none panics. -/
theorem Sim.read (h : Sim a p) (now : ℤ) (fh offset size : ℕ) :
    a.answer (SupermemoryFs.fileSystem v now) (.read fh offset size) = some (p.read v fh offset size, a) := by
  unfold FuseAdapter.answer FuseAdapter.onHandle SupermemoryFs.fileSystem State.read
  dsimp only
  cases hf : a.getHandle fh with
  | none => rw [handle_none h hf]
  | some f =>
    rw [handle_some h hf]
    cases f with
    | profile =>
      change some (Reply.data (ProfileFile.read v.profile offset size), a) = _
      rw [ProfileFile.read_eq, targetOf, Flat.read_eq]
    | sqlite f =>
      dsimp only [targetOf]
      cases hp : p.file f.ino with
      | none =>
        have hgone := h.inode (handle_some h hf) hp
        unfold SqliteFile.read
        rw [hgone]
        rfl
      | some bytes =>
        rw [(h.held f.ino bytes hp).read]
        rfl

theorem Sim.write (h : Sim a p) (now : ℤ) {fh offset : ℕ} (hw : Within a (.write fh offset data)) :
    ∃ b, a.answer (SupermemoryFs.fileSystem v now) (.write fh offset data) = some ((p.write fh offset data).1, b) ∧
      Sim b (p.write fh offset data).2 := by
  unfold FuseAdapter.answer FuseAdapter.onHandle SupermemoryFs.fileSystem State.write
  dsimp only
  cases hf : a.getHandle fh with
  | none =>
    rw [handle_none h hf]
    exact ⟨a, rfl, h⟩
  | some f =>
    rw [handle_some h hf]
    cases f with
    | profile => exact ⟨a, rfl, h⟩
    | sqlite f =>
      obtain ⟨hreply, hstores⟩ := h.toStores.write now (h.inode (handle_some h hf)) (hw f hf)
      refine ⟨_, congrArg some (Prod.ext (congrArg (replied Reply.written) hreply) rfl),
        h.writes (h.content (write_sameTree h.wf.bounded) hstores) ?_⟩
      exact fun i hi => Files.write_isSome hi

theorem Sim.flush (h : Sim a p) (now : ℤ) (fh : ℕ) :
    ∃ b, a.answer (SupermemoryFs.fileSystem v now) (.flush fh) =
      some (if (p.handle fh).isSome then .ok else .error .EBADF, b) ∧ Sim b p := by
  unfold FuseAdapter.answer FuseAdapter.onHandle SupermemoryFs.fileSystem
  dsimp only
  cases hf : a.getHandle fh with
  | none =>
    rw [handle_none h hf]
    exact ⟨a, rfl, h⟩
  | some f =>
    rw [handle_some h hf]
    cases f with
    | profile => exact ⟨a, rfl, h⟩
    | sqlite f =>
      exact ⟨_, rfl, h.writes (h.content flush_sameTree (h.toStores.flush f now)) fun _ => id⟩

theorem Sim.fsync (h : Sim a p) (now : ℤ) (fh : ℕ) :
    ∃ b, a.answer (SupermemoryFs.fileSystem v now) (.fsync fh) =
      some (if (p.handle fh).isSome then .ok else .error .EBADF, b) ∧ Sim b p := by
  unfold FuseAdapter.answer FuseAdapter.onHandle SupermemoryFs.fileSystem
  dsimp only
  cases hf : a.getHandle fh with
  | none =>
    rw [handle_none h hf]
    exact ⟨a, rfl, h⟩
  | some f =>
    rw [handle_some h hf]
    exact ⟨_, rfl, h.same h.toShows⟩

theorem Sim.getattr (h : Sim a p) (ino : Ino) :
    Steps v p (.getattr ino) (repliedSome (.attr ∘ fileAttrToFuserAttr) (.ok (a.fs.getattr v ino)), a) := by
  have hmoves : Finds .attr ((Except.ok (a.fs.getattr v ino)).map (Option.map shapeOf))
      (repliedSome (.attr ∘ fileAttrToFuserAttr) (.ok (a.fs.getattr v ino))) := finds_of_map
  rw [Except.map, h.toShows.getattr v ino] at hmoves
  refine ⟨p, ⟨⟨hmoves, rfl⟩, ?_⟩, h⟩
  rcases SupermemoryFs.getattr_cases h.toStores v ino with ⟨-, hnone⟩ | ⟨attr, hino, hsome, hrow⟩
  · rw [hnone]
    exact sized_none rfl
  · rw [hsome]
    rcases hrow with hp | hrow
    · exact sized_profile rfl (hino.trans hp)
    · exact h.sized hrow rfl

/-- **A truncate cuts the array.** -/
theorem Sim.setattr (h : Sim a p) {attr : SetAttr} (hw : Within a (.setattr ino attr)) :
    Steps v p (.setattr ino attr) (a.calling (.attr ∘ fileAttrToFuserAttr) (a.fs.setattr v ino attr)) := by
  have hset := SupermemoryFs.setattr_spec h.toStores v hw
  obtain ⟨hs, hanswer⟩ := h.toShows.setattr v hw
  have hsim : Sim (a.after (a.fs.setattr v ino attr)) { p with file := p.file.cut ino attr } :=
    h.writes hs fun _ => Files.cut_isSome
  unfold Steps Moves FuseAdapter.calling
  dsimp only
  cases hout : p.tree.setattr ino attr.size with
  | error e =>
    rw [hout] at hanswer
    dsimp only at hanswer
    have hcut : p.file.cut ino attr = p.file := h.toShows.cut_refused hout
    rw [hcut] at hsim
    rw [hanswer]
    exact ⟨p, ⟨⟨rfl, rfl⟩, sized_none rfl⟩, hsim⟩
  | ok _ =>
    rw [hout] at hanswer
    obtain ⟨new, hnew, hshape⟩ := hanswer
    rw [hnew]
    exact ⟨_, ⟨⟨finds_some hshape, rfl⟩, hsim.sized (hset.row new hnew) rfl⟩, hsim⟩

end Lemmas

/-! ### Steps and runs -/

section Run

variable {a b : Mount} {p : State} {x : Exchange (Ambient × ℤ)} {xs : List (Exchange (Ambient × ℤ))}

/-- A callback whose reply has no attributes. -/
theorem goes {v : Ambient} {c : Callback} {r : Reply} (hr : attrIn r = none) (h : ∃ q, Moves v p c r q ∧ Sim b q) :
    Steps v p c (r, b) := by
  obtain ⟨q, hm, hb⟩ := h
  exact ⟨q, ⟨hm, sized_none hr⟩, hb⟩

/-- A callback that is refused for its name. -/
theorem refused {v : Ambient} {c : Callback} (hm : Moves v p c (.error .EINVAL) p) (h : Sim a p) :
    Steps v p c (.error .EINVAL, a) := goes rfl ⟨p, hm, h⟩

/-- No callback panics. -/
theorem answered (h : Sim a p) (e : Ambient × ℤ) (c : Callback) :
    (a.answer (SupermemoryFs.fileSystem e.1 e.2) c).isSome := by
  cases c with
  | read fh offset size =>
    rw [h.read]
    rfl
  | write fh offset data =>
    change (a.onHandle fh _).isSome
    unfold FuseAdapter.onHandle
    cases a.getHandle fh <;> rfl
  | flush fh =>
    change (a.onHandle fh _).isSome
    unfold FuseAdapter.onHandle
    cases a.getHandle fh <;> rfl
  | fsync fh =>
    change (a.onHandle fh _).isSome
    unfold FuseAdapter.onHandle
    cases a.getHandle fh <;> rfl
  | _ => rfl

/-- What a call reads besides the state: no client. -/
private def noClient : Ambient × ℤ := (⟨false, fun _ => ⟨0, 0, 0, (0, 0), (0, 0), (0, 0), 0⟩, none, (0, 0)⟩, 0)

/-- A file with two names is moved out of its directory and loses both while it is open. -/
private def session : List (Exchange (Ambient × ℤ)) :=
  [(noClient, .mkdir 1 (some "d") 0o755, .entry ⟨2, 0, 0, 0, 0, 0, 0, .dir, 0o755, 2, 0, 0, 0, 4096, 0⟩),
    (noClient, .create 2 (some "a") 0o644, .created ⟨3, 0, 0, 0, 0, 0, 0, .reg, 0o644, 1, 0, 0, 0, 4096, 0⟩ 1),
    (noClient, .write 1 0 [7, 8], .written 2), (noClient, .read 1 1 9, .data [8]),
    (noClient, .link 3 1 (some "b"), .entry ⟨3, 2, 1, 0, 0, 0, 0, .reg, 0, 2, 0, 0, 0, 4096, 0⟩),
    (noClient, .rename 2 (some "a") 1 (some "c"), .ok), (noClient, .rmdir 1 (some "d"), .ok),
    (noClient, .unlink 1 (some "b"), .ok), (noClient, .read 1 0 2, .data [7, 8]), (noClient, .unlink 1 (some "c"), .ok),
    (noClient, .read 1 0 2, .error .ENOENT), (noClient, .lookup 1 (some "c"), .error .ENOENT)]

end Run

end Posix
end Smfs
