/-
# The files of a database

Of a database in which no file has a hole what counts is which inode holds
which bytes (`Stores`). A write, a truncate, a new file and the operations on
names are their operations on such a map, for whichever mount calls them.

Key definitions: `Files`, `Files.write`, `Stores`.
Key theorems: `Stores.write`, `Stores.truncate`, `Stores.create`, `Stores.thins`.
-/
import Smfs.File.Chunks
import Smfs.File.Held
import Smfs.Names.Contents
import Smfs.Names.Thins
import Smfs.Vfs

namespace Smfs

open Cache Flat

/-- The bytes of the files there are. -/
abbrev Files := Ino → Option Bytes

namespace Files

def put (files : Files) (ino : Ino) (bytes : Bytes) : Files := Function.update files ino (some bytes)

theorem put_apply (files : Files) (ino i : Ino) (bytes : Bytes) :
    files.put ino bytes i = if i = ino then some bytes else files i := Function.update_apply _ _ _ _

/-- A write to a file. -/
def write (files : Files) (ino : Ino) (offset : ℕ) (data : Bytes) : Except VfsError ℕ × Files :=
  if data.isEmpty then (.ok 0, files)
  else if offset + data.length > MAX_FILE_SIZE then (.error (.invalidPath "file exceeds 100 MB cap"), files)
  else
    match files ino with
    | none => (.error .notFound, files)
    | some bytes => (.ok data.length, files.put ino (MemFile.write bytes offset data))

/-- The size part of `setattr`. -/
def cut (files : Files) (ino : Ino) (attr : SetAttr) : Files :=
  match attr.size, files ino with
  | some size, some bytes => files.put ino (MemFile.truncate bytes size)
  | _, _ => files

section Updates

variable {files : Files} {ino i : Ino} {bytes : Bytes}

theorem put_isSome (h : (files i).isSome) : (files.put ino bytes i).isSome := by
  rw [put_apply]
  split_ifs
  · rfl
  · exact h

theorem write_isSome {offset : ℕ} {data : Bytes} (h : (files i).isSome) :
    ((files.write ino offset data).2 i).isSome := by
  unfold write
  split_ifs
  · exact h
  · exact h
  · cases files ino
    · exact h
    · exact put_isSome h

theorem cut_isSome {attr : SetAttr} (h : (files i).isSome) : (files.cut ino attr i).isSome := by
  unfold cut
  cases attr.size with
  | none => exact h
  | some size =>
    cases files ino with
    | none => exact h
    | some bytes => exact put_isSome h

end Updates

end Files

/-- The files of the tables are those of the map, and none has a hole. -/
structure Stores (db : Db) (files : Files) : Prop where
  wf : WellFormed db
  held : ∀ ino bytes, files ino = some bytes → Held db ino bytes
  regular : ∀ ino derived, sortOf db ino = some (.reg, derived) → (files ino).isSome

/-- The files that are still there. -/
def Files.among (files : Files) (db : Db) : Files := fun ino => if (sortOf db ino).isSome then files ino else none

section Lemmas

variable {db db' : Db} {files : Files} {ino i : Ino} {bytes data : Bytes} {nowMs : ℤ} {n : ℕ} {v : Ambient}

theorem held_sort (h : Held db ino bytes) : ∃ derived, sortOf db ino = some (.reg, derived) := by
  obtain ⟨x, hx, hkind, -⟩ := h.inode
  refine ⟨x.derived, ?_⟩
  rw [sortOf, hx, Option.map_some, hkind]

theorem held_sizeOf (h : Held db ino bytes) : Pushed.sizeOf db ino = bytes.length := by
  obtain ⟨x, hx, -, hsize⟩ := h.inode
  unfold Pushed.sizeOf
  rw [hx, Option.map_some, Option.getD_some, hsize]
  exact asU64_length h.cap

theorem held_attr (h : Held db ino bytes) (v : Ambient) :
    ∃ attr, Fs.attrOf db v ino = some attr ∧ attr.size = bytes.length := by
  obtain ⟨x, hx, -, hsize⟩ := h.inode
  refine ⟨_, by rw [Fs.attrOf, hx, Option.map_some], ?_⟩
  change asU64 x.size = bytes.length
  rw [hsize]
  exact asU64_length h.cap

theorem held_openFile (h : Held db ino bytes) (online : Bool) :
    Fs.openFile db online ino = .ok ⟨ino, online, Fs.resolveFilepath db ino⟩ := by
  obtain ⟨x, hx, hkind, -⟩ := h.inode
  simp [Fs.openFile, hx, hkind]

theorem attrOf_ino {attr : FileAttr} (ha : Fs.attrOf db v ino = some attr) : attr.ino = ino := by
  obtain ⟨x, hx, rfl⟩ := Option.map_eq_some_iff.mp ha
  exact Db.getInode_ino hx

theorem Stores.lt (h : Stores db files) (hf : files ino = some bytes) : ino < db.nextIno := by
  obtain ⟨x, hx, -⟩ := (h.held ino bytes hf).inode
  exact h.wf.bounded.getInode hx

theorem Stores.new (h : Stores db files) (hi : db.nextIno ≤ ino) : files ino = none := by
  by_contra hne
  obtain ⟨bytes, hb⟩ := Option.ne_none_iff_exists'.mp hne
  exact absurd (h.lt hb) (not_lt.mpr hi)

/-- The attributes of an inode give the size of the file. -/
theorem Stores.size (h : Stores db files) {attr : FileAttr} (ha : Fs.attrOf db v ino = some attr)
    (hf : files attr.ino = some bytes) : attr.size = bytes.length := by
  obtain ⟨attr', ha', hsize⟩ := held_attr (h.held _ bytes hf) v
  rw [attrOf_ino ha, ha] at ha'
  obtain rfl := Option.some.inj ha'
  exact hsize

/-- A database of a first mount has no files. -/
theorem Stores.fresh : Stores .fresh fun _ => none where
  wf := .start
  held ino bytes h := by cases h
  regular ino derived h := by
    obtain ⟨x, hx, hk⟩ := Option.map_eq_some_iff.mp h
    have hmem := (Table.get_some hx).1
    simp_all [Db.fresh, rootInode]

/-! ### The calls on names -/

/-- A call that lets files go. -/
theorem Stores.thins (h : Stores db files) (ht : Thins db db') (hwf : WellFormed db') :
    Stores db' (files.among db') := by
  have hkept {i : Ino} (hi : i < db.nextIno) (hs : (sortOf db' i).isSome) : Db.Keeps i db db' :=
    (ht.old i hi).resolve_right (by simpa [Option.isSome_iff_ne_none] using hs)
  refine ⟨hwf, fun i bytes hb => ?_, fun i d hs => ?_⟩
  · unfold Files.among at hb
    split_ifs at hb with hs
    exact (h.held i bytes hb).keeps (hkept (h.lt hb) hs)
  · have hsome : (sortOf db' i).isSome := by simp [hs]
    rw [Files.among, if_pos hsome]
    have hlt : i < db.nextIno := by
      by_contra hge
      exact ht.new i d (not_lt.mp hge) hs
    apply h.regular i d
    rw [← sortOf_keeps (hkept hlt hsome), hs]

/-- What is still there was there. -/
theorem Thins.sort_none (ht : Thins db db') (hi : i < db.nextIno) (hnone : sortOf db i = none) :
    sortOf db' i = none := by
  apply (ht.old i hi).elim
  · exact fun hk => (sortOf_keeps hk).trans hnone
  · exact id

/-! ### The calls on files -/

/-- A call that writes to one file. -/
theorem Stores.put (h : Stores db files) (ht : SameTree db db') (hk : ∀ i ≠ ino, Db.Keeps i db db')
    (hb : Held db' ino bytes) : Stores db' (files.put ino bytes) where
  wf := ht.wf h.wf
  held i data hi := by
    rw [Files.put_apply] at hi
    split_ifs at hi with heq
    · obtain rfl := Option.some.inj hi
      rwa [heq]
    · exact (h.held i data hi).keeps (hk i heq)
  regular i d hi := by
    rw [Files.put_apply]
    split_ifs with heq
    · rfl
    · exact h.regular i d ((ht.sorts i).symm.trans hi)

/-- A call that writes to no file. -/
theorem Stores.sameTree (h : Stores db files) (ht : SameTree db db') (hk : ∀ i, Db.Keeps i db db') :
    Stores db' files where
  wf := ht.wf h.wf
  held i bytes hi := (h.held i bytes hi).keeps (hk i)
  regular i d hi := h.regular i d ((ht.sorts i).symm.trans hi)

theorem Stores.flush (h : Stores db files) (f : SqliteFile) (nowMs : ℤ) : Stores (f.flush db nowMs) files :=
  h.sameTree flush_sameTree fun _ => SqliteFile.flush_keeps

/-- **A write puts its bytes into the array.** -/
theorem Stores.write (h : Stores db files) (nowMs : ℤ) {f : SqliteFile} {offset : ℕ}
    (hgone : files f.ino = none → db.getInode f.ino = none) (hoff : offset ≤ Pushed.sizeOf db f.ino) :
    (f.write db offset data nowMs).1 = (files.write f.ino offset data).1 ∧
      Stores (f.write db offset data nowMs).2 (files.write f.ino offset data).2 := by
  have htree : SameTree db (f.write db offset data nowMs).2 := write_sameTree h.wf.bounded
  have hkeeps : ∀ i ≠ f.ino, Db.Keeps i db (f.write db offset data nowMs).2 := fun i hi => SqliteFile.write_keeps hi
  unfold Files.write
  by_cases hempty : data.isEmpty = true
  · rw [if_pos hempty]
    unfold SqliteFile.write
    rw [if_pos hempty]
    exact ⟨rfl, h⟩
  rw [if_neg hempty]
  by_cases hcap : offset + data.length > MAX_FILE_SIZE
  · rw [if_pos hcap]
    unfold SqliteFile.write
    rw [if_neg hempty, if_pos hcap]
    exact ⟨rfl, h⟩
  rw [if_neg hcap]
  cases hf : files f.ino with
  | none =>
    unfold SqliteFile.write
    rw [if_neg hempty, if_neg hcap, hgone hf]
    exact ⟨rfl, h⟩
  | some bytes =>
    have hheld := h.held f.ino bytes hf
    rw [held_sizeOf hheld] at hoff
    refine ⟨?_, h.put htree hkeeps (hheld.write (not_lt.mp hcap) hoff)⟩
    obtain ⟨x, hx, -⟩ := hheld.inode
    unfold SqliteFile.write
    rw [if_neg hempty, if_neg hcap, hx]

/-- The files are the inodes that are regular. -/
theorem Stores.kind (h : Stores db files) (ino : Ino) :
    (files ino = none ∧ (db.getInode ino).map Inode.kind ≠ some .reg) ∨
      ∃ bytes x, files ino = some bytes ∧ db.getInode ino = some x ∧ x.kind = .reg := by
  cases hf : files ino with
  | some bytes =>
    obtain ⟨x, hx, hkind, -⟩ := (h.held ino bytes hf).inode
    exact .inr ⟨bytes, x, rfl, hx, hkind⟩
  | none =>
    refine .inl ⟨rfl, fun hreg => ?_⟩
    obtain ⟨x, hx, hkind⟩ := Option.map_eq_some_iff.mp hreg
    have hsome := h.regular ino x.derived (by rw [sortOf, hx, Option.map_some, hkind])
    simp [hf] at hsome

/-- What `setattr` does with a size, on a file and on what is none. -/
theorem Stores.setattrSize (h : Stores db files) (ino : Ino) (n : ℕ) :
    (files ino = none ∧ ∃ e, Fs.setattrSize db ino n = (.error e, db)) ∨
      ∃ bytes, files ino = some bytes ∧
        Fs.setattrSize db ino n = (.ok (), SqliteFile.truncate db ⟨ino, false, none⟩ n) := by
  unfold Fs.setattrSize
  rcases h.kind ino with ⟨hf, hreg⟩ | ⟨bytes, x, hf, hx, hkind⟩
  · refine .inl ⟨hf, ?_⟩
    split
    · exact ⟨_, rfl⟩
    · split <;> simp_all
  · exact .inr ⟨bytes, hf, by simp [hx, hkind]⟩

/-- **A truncate cuts the array.** -/
theorem Stores.truncate (h : Stores db files) (hf : files ino = some bytes) (hn : n ≤ Pushed.sizeOf db ino) :
    Stores (SqliteFile.truncate db ⟨ino, false, none⟩ n) (files.put ino (MemFile.truncate bytes n)) := by
  have hheld := h.held ino bytes hf
  rw [held_sizeOf hheld] at hn
  exact h.put truncate_sameTree (fun i hi => Chunks.truncate_keeps hi)
    (@Held.truncate db ⟨ino, false, none⟩ bytes n hheld hn)

/-- Opening finds the files. -/
theorem Stores.openFile (h : Stores db files) (online : Bool) (ino : Ino) :
    (files ino = none ∧ ∃ e, Fs.openFile db online ino = .error e) ∨
      ∃ bytes, files ino = some bytes ∧ Fs.openFile db online ino = .ok ⟨ino, online, Fs.resolveFilepath db ino⟩ := by
  rcases h.kind ino with ⟨hf, hreg⟩ | ⟨bytes, x, hf, -⟩
  · refine .inl ⟨hf, ?_⟩
    unfold Fs.openFile
    split
    · exact ⟨_, rfl⟩
    · split <;> simp_all
  · exact .inr ⟨bytes, hf, held_openFile (h.held ino bytes hf) online⟩

/-- **A new file is empty**, and its number is new. -/
theorem Stores.create (h : Stores db files) {online : Bool} {parent : Ino} {name : String} {f : SqliteFile}
    (hf : (Fs.createFile db online parent name).1 = .ok f) :
    Stores (Fs.createFile db online parent name).2 (files.put f.ino []) ∧ f.ino = db.nextIno ∧
      (Fs.createFile db online parent name).2.nextIno = db.nextIno + 1 ∧
      ∀ i ≠ f.ino, sortOf (Fs.createFile db online parent name).2 i = sortOf db i := by
  have hwf : WellFormed (Fs.createFile db online parent name).2 := name_wf h.wf online 0 (.createFile parent name)
  obtain ⟨hino, hkeeps, hnext, hchunks, hget⟩ := createFile_made h.wf hf
  have hsort : ∀ i ≠ f.ino, sortOf (Fs.createFile db online parent name).2 i = sortOf db i := by
    intro i hi
    rw [sortOf, hget, if_neg (hino ▸ hi)]
    rfl
  refine ⟨⟨hwf, fun i bytes hb => ?_, fun i d hs => ?_⟩, hino, hnext, hsort⟩
  · rw [Files.put_apply] at hb
    split_ifs at hb with heq
    · obtain rfl := Option.some.inj hb
      rw [heq, hino]
      exact held_nil ((hget _).trans (if_pos rfl)) rfl rfl hchunks
    · exact (h.held i bytes hb).keeps (hkeeps i (h.lt hb))
  · rw [Files.put_apply]
    split_ifs with heq
    · rfl
    · exact h.regular i d ((hsort i heq).symm.trans hs)

end Lemmas

/-! ### The methods of the file system -/

namespace SupermemoryFs

section Methods

variable {s : SupermemoryFs} {v : Ambient} {parent ino : Ino} {name target : String} {mode uid gid : ℕ}
variable {attr : FileAttr}

/-- The attributes that `lookup` finds are those of an inode, or the profile's. -/
theorem lookup_attr (h : (s.lookup v parent name).1 = .ok (some attr)) :
    attr.ino = PROFILE_INO ∨ ∃ i, Fs.attrOf s.db v i = some attr := by
  unfold lookup at h
  split at h
  · cases h
  · split at h
    next hp =>
      split_ifs at hp
      rw [Ambient.profileFile] at hp
      split_ifs at hp
      cases h
      exact .inl (congrArg FileAttr.ino (Option.some.inj hp)).symm
    next =>
      right
      split at h
      · cases h
      · split_ifs at h
        split at h
        · exact ⟨_, Except.ok.inj h⟩
        · split at h
          · exact ⟨_, Except.ok.inj h⟩
          · cases h

/-- **`create_file`** makes an empty file, or fails and changes nothing. -/
theorem makeFile_cases {files : Files} (h : Stores s.db files) (v : Ambient) (parent : Ino) (name : String)
    (mode uid gid : ℕ) :
    ((∃ e, (s.makeFile v parent name mode uid gid).1 = .error e) ∧
        (s.makeFile v parent name mode uid gid).2.db = s.db) ∨
      ∃ f, (s.makeFile v parent name mode uid gid).1 =
          .ok (v.newAttr f.ino .reg (permBits mode) 1 0 uid gid, .sqlite f) ∧
        Stores (s.makeFile v parent name mode uid gid).2.db (files.put f.ino []) ∧ f.ino = s.db.nextIno ∧
        (s.makeFile v parent name mode uid gid).2.db.nextIno = s.db.nextIno + 1 ∧
        ∀ i ≠ f.ino, sortOf (s.makeFile v parent name mode uid gid).2.db i = sortOf s.db i := by
  rw [makeFile_fst, makeFile_tables]
  cases hf : (Fs.createFile s.db v.online parent name).1 with
  | error e => exact .inl ⟨⟨e, rfl⟩, createFile_error hf⟩
  | ok f => exact .inr ⟨f, rfl, h.create hf⟩

/-- What `getattr` finds. -/
theorem getattr_cases {files : Files} (h : Stores s.db files) (v : Ambient) (ino : Ino) :
    (files ino = none ∧ s.getattr v ino = none) ∨
      ∃ attr, attr.ino = ino ∧ s.getattr v ino = some attr ∧
        (ino = PROFILE_INO ∨ Fs.attrOf s.db v ino = some attr) := by
  have hrow : (files ino = none ∧ Fs.attrOf s.db v ino = none) ∨
      ∃ attr, attr.ino = ino ∧ Fs.attrOf s.db v ino = some attr ∧
        (ino = PROFILE_INO ∨ Fs.attrOf s.db v ino = some attr) := by
    cases ha : Fs.attrOf s.db v ino with
    | some attr => exact .inr ⟨attr, attrOf_ino ha, rfl, .inr rfl⟩
    | none =>
      refine .inl ⟨?_, rfl⟩
      by_contra hne
      obtain ⟨bytes, hb⟩ := Option.ne_none_iff_exists'.mp hne
      obtain ⟨attr, hattr, -⟩ := held_attr (h.held ino bytes hb) v
      simp [ha] at hattr
  unfold getattr Ambient.profileFile
  split_ifs with hprofile honline
  · exact .inr ⟨v.profileAttr, hprofile.symm, rfl, .inl hprofile⟩
  · exact hrow
  · exact hrow

/-- What `setattr` does to the files and answers. -/
structure SetsAttr (s : SupermemoryFs) (v : Ambient) (files : Files) (ino : Ino) (attr : SetAttr) : Prop where
  stores : Stores (s.setattr v ino attr).2.db (files.cut ino attr)
  tree : SameTree s.db (s.setattr v ino attr).2.db
  row : ∀ new, (s.setattr v ino attr).1 = .ok new → Fs.attrOf (s.setattr v ino attr).2.db v ino = some new

theorem found_some {α : Type} {o : Option α} {a : α} (h : found o = .ok a) : o = some a := by
  cases o with
  | none => cases h
  | some b => exact congrArg some (Except.ok.inj h)

/-- **`setattr` cuts the array.** -/
theorem setattr_spec {files : Files} (h : Stores s.db files) (v : Ambient) {attr : SetAttr}
    (hw : ∀ size, attr.size = some size → size ≤ Pushed.sizeOf s.db ino) : SetsAttr s v files ino attr := by
  cases hn : attr.size with
  | none =>
    have hcut : files.cut ino attr = files := by simp [Files.cut, hn]
    have heq : s.setattr v ino attr = (Smfs.found (Fs.attrOf s.db v ino), s) := by
      unfold setattr
      rw [hn]
    constructor
    · rw [heq, hcut]
      exact h
    · rw [heq]
      exact .refl s.db
    · rw [heq]
      exact fun new => found_some
  | some n =>
    rcases h.setattrSize ino n with ⟨hf, e, he⟩ | ⟨bytes, hf, he⟩
    · have heq : s.setattr v ino attr = (.error e, s) := by
        unfold setattr
        rw [hn]
        dsimp only
        rw [he]
      have hcut : files.cut ino attr = files := by simp [Files.cut, hn, hf]
      constructor
      · rw [heq, hcut]
        exact h
      · rw [heq]
        exact .refl s.db
      · rw [heq]
        exact fun new hnew => by cases hnew
    · have heq : s.setattr v ino attr = (Smfs.found (Fs.attrOf (SqliteFile.truncate s.db ⟨ino, false, none⟩ n) v ino),
          { s with db := SqliteFile.truncate s.db ⟨ino, false, none⟩ n }) := by
        unfold setattr
        rw [hn]
        dsimp only
        rw [he]
      have hcut : files.cut ino attr = files.put ino (MemFile.truncate bytes n) := by simp [Files.cut, hn, hf]
      constructor
      · rw [heq, hcut]
        exact h.truncate hf (hw n hn)
      · rw [heq]
        exact truncate_sameTree
      · rw [heq]
        exact fun new => found_some

end Methods

end SupermemoryFs
end Smfs
