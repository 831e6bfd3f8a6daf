/-
# Listings of directories

`readdir` and `readdir_plus` of `SupermemoryFs` (`cache/fs.rs`), and the calls
of the two mounts that hand a listing over page by page. The NFS mount resumes
after the entry with the file id it is given (`mount/nfs.rs`), the FUSE mount
at an offset (`mount/fuse.rs`). What a listing asks the hydration queue for is
left out.

Key definitions: `FileAttr`, `DirEntry`, `Fs.readdir`, `Fs.readdirPlus`, `Nfs.readdir`, `Fuse.readdir`.
Key theorems: `Fs.readdirPlus_eq`, `Nfs.readdir_eq`.
-/
import Smfs.Lib.Cursor
import Smfs.Ops

namespace Smfs

/-- The columns of `fs_inode` that `Inode` leaves out. -/
structure Columns where
  perm : ℕ
  uid : ℤ
  gid : ℤ
  atime : ℤ × ℤ
  mtime : ℤ × ℤ
  ctime : ℤ × ℤ
  rdev : ℤ

/-- A signed integer as a `u32`. -/
def asU32 (n : ℤ) : ℕ := (n % 2 ^ 32).toNat

/-- `FileAttr`; the type bits of `mode` are `kind`, the others `perm`. -/
structure FileAttr where
  ino : Ino
  kind : FileKind
  perm : ℕ
  nlink : ℕ
  uid : ℕ
  gid : ℕ
  size : ℕ
  blocks : ℕ
  atime : ℤ × ℕ
  mtime : ℤ × ℕ
  ctime : ℤ × ℕ
  rdev : ℕ
  blksize : ℕ
  deriving DecidableEq, Repr

/-- `DirEntry`. -/
structure DirEntry where
  name : String
  attr : FileAttr
  deriving DecidableEq, Repr

def PREFERRED_BLOCK_SIZE : ℕ := 4096

def PROFILE_INO : Ino := 2 ^ 64 - 2

/-- `row_to_attr`, and what `query_dir_entries` makes of the same columns. -/
def rowToAttr (i : Inode) (c : Columns) : FileAttr where
  ino := i.ino
  kind := i.kind
  perm := c.perm
  nlink := asU32 i.nlink
  uid := asU32 c.uid
  gid := asU32 c.gid
  size := asU64 i.size
  blocks := (asU64 i.size + 511) / 512
  atime := (c.atime.1, asU32 c.atime.2)
  mtime := (c.mtime.1, asU32 c.mtime.2)
  ctime := (c.ctime.1, asU32 c.ctime.2)
  rdev := asU32 c.rdev
  blksize := PREFERRED_BLOCK_SIZE

/-- What a call reads besides the tables: whether there is an API client, the
other columns of each inode, the text that the profile has cached, the clock. -/
structure Ambient where
  online : Bool
  columns : Ino → Columns
  profile : Option Bytes
  now : ℤ × ℕ

/-- `profile_attr`. -/
def Ambient.profileAttr (v : Ambient) : FileAttr where
  ino := PROFILE_INO
  kind := .reg
  perm := 0o444
  nlink := 1
  uid := 0
  gid := 0
  size := (v.profile.map List.length).getD 0
  blocks := ((v.profile.map List.length).getD 0 + 511) / 512
  atime := v.now
  mtime := v.now
  ctime := v.now
  rdev := 0
  blksize := 4096

/-- The attributes of `profile_file`. There is one exactly if there is a client (`with_api`). -/
def Ambient.profileFile (v : Ambient) : Option FileAttr := if v.online then some v.profileAttr else none

namespace Fs

/-- `SELECT … FROM fs_inode WHERE ino = ?`. -/
def attrOf (db : Db) (v : Ambient) (ino : Ino) : Option FileAttr :=
  (db.getInode ino).map fun i => rowToAttr i (v.columns ino)

/-- `FROM fs_dentry WHERE parent_ino = ? ORDER BY name`. -/
def entriesOf (db : Db) (ino : Ino) : List Dentry :=
  (db.dentries.filter fun d => d.parentIno = ino).insertionSort fun a b => bytesOf a.name ≤ bytesOf b.name

/-- `query_dir_entries`. -/
def queryDirEntries (db : Db) (v : Ambient) (parentIno : Ino) : List DirEntry :=
  (entriesOf db parentIno).filterMap fun d => (attrOf db v d.ino).map fun attr => ⟨d.name, attr⟩

/-- `readdir`. -/
def readdir (db : Db) (v : Ambient) (ino : Ino) : Option (List String) :=
  match db.getInode ino with
  | none => none
  | some i =>
    if i.kind ≠ .dir then none
    else
      let names := (entriesOf db ino).map Dentry.name
      if names ≠ [] ∨ v.online = false then
        if ino = ROOT_INO ∧ v.online = true ∧ PROFILE_NAME ∉ names then some (names ++ [PROFILE_NAME]) else some names
      else if ino = ROOT_INO ∧ v.online = true then some [PROFILE_NAME]
      else some []

/-- `append_profile` of `readdir_plus`. -/
def appendProfile (v : Ambient) (ino : Ino) (entries : List DirEntry) : List DirEntry :=
  if ino = ROOT_INO ∧ entries.any (fun e => e.name = PROFILE_NAME) = false then
    match v.profileFile with
    | some attr => entries ++ [⟨PROFILE_NAME, attr⟩]
    | none => entries
  else entries

/-- `readdir_plus`. -/
def readdirPlus (db : Db) (v : Ambient) (ino : Ino) : Option (List DirEntry) :=
  match db.getInode ino with
  | none => none
  | some i =>
    if i.kind ≠ .dir then none
    else
      let entries := queryDirEntries db v ino
      if entries ≠ [] ∨ v.online = false then some (appendProfile v ino entries)
      else some (appendProfile v ino [])

/-- An empty listing is asked for again, and is the same. -/
theorem readdirPlus_eq {db : Db} {v : Ambient} {ino : Ino} {entries : List DirEntry}
    (h : readdirPlus db v ino = some entries) : entries = appendProfile v ino (queryDirEntries db v ino) := by
  unfold readdirPlus at h
  split at h
  · cases h
  · dsimp only at h
    split_ifs at h with hk hc
    · exact (Option.some.inj h).symm
    · have hnil : queryDirEntries db v ino = [] := not_not.mp fun hne => hc (.inl hne)
      rw [hnil]
      exact (Option.some.inj h).symm

/-! ### The entries of a directory -/

section Lemmas

variable {db db' : Db} {p : Ino} {v : Ambient}

theorem bytesOf_inj {a b : String} (h : bytesOf a = bytesOf b) : a = b := by
  unfold bytesOf at h
  exact String.toByteArray_inj.mp (ByteArray.ext (Array.toList_inj.mp h))

theorem mem_entriesOf {d : Dentry} : d ∈ entriesOf db p ↔ d ∈ db.dentries ∧ d.parentIno = p := by
  unfold entriesOf
  rw [List.mem_insertionSort, List.mem_filter, decide_eq_true_iff]

theorem entriesOf_le (db : Db) (p : Ino) : (entriesOf db p).Pairwise fun a b => bytesOf a.name ≤ bytesOf b.name := by
  have htotal : Std.Total fun a b : Dentry => bytesOf a.name ≤ bytesOf b.name :=
    ⟨fun a b => List.le_total (bytesOf a.name) (bytesOf b.name)⟩
  have htrans : IsTrans Dentry fun a b => bytesOf a.name ≤ bytesOf b.name := ⟨fun _ _ _ => List.le_trans⟩
  exact List.pairwise_insertionSort _ _

theorem entriesOf_perm : (entriesOf db p).Perm (db.dentries.filter fun d => d.parentIno = p) :=
    List.perm_insertionSort _ _

/-- Where names are distinct, they increase strictly. -/
theorem entriesOf_lt (h : (db.dentries.map Db.nameOf).Nodup) :
    (entriesOf db p).Pairwise fun a b => bytesOf a.name < bytesOf b.name := by
  have hne : (entriesOf db p).Pairwise fun a b => Db.nameOf a ≠ Db.nameOf b := by
    have hfilter : (db.dentries.filter fun d => d.parentIno = p).Pairwise fun a b => Db.nameOf a ≠ Db.nameOf b :=
      (List.pairwise_map.mp h).sublist List.filter_sublist
    exact (entriesOf_perm.pairwise_iff fun hab he => hab he.symm).mpr hfilter
  refine ((entriesOf_le db p).and hne).imp_of_mem fun {a b} ha hb hab => ?_
  refine List.not_le.mp fun hle => hab.2 ?_
  have hname : a.name = b.name := bytesOf_inj (List.le_antisymm hab.1 hle)
  unfold Db.nameOf
  rw [hname, (mem_entriesOf.mp ha).2, (mem_entriesOf.mp hb).2]

/-- Where entries go, they go from the listing. -/
theorem entriesOf_sublist (h : (db.dentries.map Db.nameOf).Nodup) (hd : db'.dentries.Sublist db.dentries) :
    (entriesOf db' p).Sublist (entriesOf db p) := by
  have hanti : Std.Antisymm fun a b : Dentry => bytesOf a.name < bytesOf b.name :=
    ⟨fun a b hab hba => absurd hab (List.not_lt.mpr (List.le_of_lt hba))⟩
  have hlt' := entriesOf_lt (p := p) (h.sublist (hd.map Db.nameOf))
  refine List.sublist_of_subperm_of_pairwise ?_ hlt' (entriesOf_lt h)
  exact (entriesOf_perm.subperm.trans (hd.filter _).subperm).trans entriesOf_perm.symm.subperm

end Lemmas

end Fs

/-! ### NFS -/

namespace Nfs

/-- `ReadDirResult`. -/
structure ReadDirResult where
  entries : List DirEntry
  isEnd : Bool
  deriving DecidableEq, Repr

/-- The loop of `readdir` over the entries that are left: what it has pushed, and how many it has consumed. -/
def readdirLoop (startAfter maxEntries : ℕ) : List DirEntry → Bool → List DirEntry → ℕ → List DirEntry × ℕ
  | [], _, pushed, consumed => (pushed, consumed)
  | entry :: rest, true, pushed, consumed =>
    readdirLoop startAfter maxEntries rest (entry.attr.ino ≠ startAfter) pushed (consumed + 1)
  | entry :: rest, false, pushed, consumed =>
    if pushed.length ≥ maxEntries then (pushed, consumed)
    else readdirLoop startAfter maxEntries rest false (pushed ++ [entry]) (consumed + 1)

/-- `readdir`; nothing for what is no directory. -/
def readdir (db : Db) (v : Ambient) (dirid startAfter maxEntries : ℕ) : Option ReadDirResult :=
  (Fs.readdirPlus db v dirid).map fun entries =>
    let result := readdirLoop startAfter maxEntries entries (startAfter > 0) [] 0
    ⟨result.1, result.2 ≥ entries.length⟩

def fileid (entry : DirEntry) : Ino := entry.attr.ino

/-- The entries from which a call takes its page. -/
def resume (startAfter : Ino) (entries : List DirEntry) : List DirEntry :=
  if startAfter > 0 then Cursor.after fileid startAfter entries else entries

section Lemmas

variable {startAfter maxEntries consumed : ℕ} {entries pushed : List DirEntry}

theorem loop_push : readdirLoop startAfter maxEntries entries false pushed consumed =
    (pushed ++ entries.take (maxEntries - pushed.length), consumed + min entries.length (maxEntries - pushed.length)) := by
  induction entries generalizing pushed consumed with
  | nil => simp [readdirLoop]
  | cons entry rest ih =>
    unfold readdirLoop
    by_cases hfull : pushed.length ≥ maxEntries
    · rw [if_pos hfull, Nat.sub_eq_zero_of_le hfull]
      simp
    · obtain ⟨n, hn⟩ : ∃ n, maxEntries - pushed.length = n + 1 := ⟨maxEntries - pushed.length - 1, by omega⟩
      have hn' : maxEntries - (pushed.length + 1) = n := by omega
      rw [if_neg hfull, ih, List.length_append, List.length_singleton, hn, hn']
      simp
      omega

theorem loop_skip : readdirLoop startAfter maxEntries entries true pushed consumed =
    (pushed ++ (Cursor.after fileid startAfter entries).take (maxEntries - pushed.length),
      consumed + (entries.length - (Cursor.after fileid startAfter entries).length) +
        min (Cursor.after fileid startAfter entries).length (maxEntries - pushed.length)) := by
  induction entries generalizing consumed with
  | nil => simp [readdirLoop, Cursor.after]
  | cons entry rest ih =>
    unfold readdirLoop Cursor.after
    by_cases hfound : entry.attr.ino = startAfter
    · rw [if_pos (show fileid entry = startAfter from hfound), decide_eq_false (not_not.mpr hfound), loop_push,
        List.length_cons]
      congr 1
      omega
    · rw [if_neg (show ¬ fileid entry = startAfter from hfound), decide_eq_true hfound, ih, List.length_cons]
      have hle : (Cursor.after fileid startAfter rest).length ≤ rest.length := Cursor.after_suffix.length_le
      congr 1
      omega

/-- A call hands over the first entries of those it resumes at, and reports the
end if these are all. -/
theorem readdir_eq (db : Db) (v : Ambient) (dirid startAfter maxEntries : ℕ) :
    readdir db v dirid startAfter maxEntries =
    (Fs.readdirPlus db v dirid).map fun entries =>
      ⟨(resume startAfter entries).take maxEntries, (resume startAfter entries).length ≤ maxEntries⟩ := by
  unfold readdir resume
  congr 1
  funext entries
  by_cases hskip : startAfter > 0
  · have hle : (Cursor.after fileid startAfter entries).length ≤ entries.length := Cursor.after_suffix.length_le
    simp only [hskip, decide_true, if_true, loop_skip, List.nil_append, List.length_nil, Nat.sub_zero, Nat.zero_add,
      ReadDirResult.mk.injEq, true_and, decide_eq_decide]
    omega
  · simp only [hskip, decide_false, if_false, loop_push, List.nil_append, List.length_nil, Nat.sub_zero, Nat.zero_add,
      ReadDirResult.mk.injEq, true_and, decide_eq_decide]
    omega

theorem resume_suffix (startAfter : ℕ) (entries : List DirEntry) : resume startAfter entries <:+ entries := by
  unfold resume
  split_ifs
  · exact Cursor.after_suffix
  · exact List.suffix_refl _

end Lemmas

end Nfs

/-! ### FUSE -/

namespace Fuse

/-- `readdir` from an offset, where the reply buffer has room for some entries:
the entries that are added, each with the offset to resume at. Nothing for
what is no directory. -/
def readdir (db : Db) (v : Ambient) (ino offset room : ℕ) : Option (List (DirEntry × ℕ)) :=
  (Fs.readdirPlus db v ino).map fun entries => ((entries.zipIdx 1).drop offset).take room

end Fuse
end Smfs
