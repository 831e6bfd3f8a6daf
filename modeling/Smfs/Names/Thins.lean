/-
# What the operations on names leave of the files

No operation on names writes to a file. Each file that was there keeps its
bytes or is gone (`Thins`), and none but `unlink` and `rename` lets a regular
file go; `create_file` alone makes one, and it is empty.

Key definitions: `Cache.Thins`, `Cache.KeepsFiles`.
Key theorems: `Cache.unlink_thins`, `Cache.rename_thins`, `Cache.keepsFiles_name`, `Cache.createFile_made`.
-/
import Smfs.Names.Parents
import Smfs.Names.Siblings

namespace Smfs
namespace Cache

open Db Fs

/-- An inode that was there keeps its content or is gone, and there is no new regular file. -/
structure Thins (db db' : Db) : Prop where
  next : db.nextIno ≤ db'.nextIno
  old : ∀ i < db.nextIno, Keeps i db db' ∨ sortOf db' i = none
  new : ∀ i d, db.nextIno ≤ i → sortOf db' i ≠ some (.reg, d)

/-- The same, and what is gone is no regular file. -/
structure KeepsFiles (db db' : Db) : Prop extends Thins db db' where
  files : ∀ i d, sortOf db i = some (.reg, d) → Keeps i db db'

section Lemmas

variable {db db' db'' : Db} {i j p p' : Ino} {name name' : String} {nowMs : ℤ}

theorem sortOf_keeps (h : Keeps i db db') : sortOf db' i = sortOf db i := by
  have hsort (d : Db) : sortOf d i = (d.fileOf i).map fun x => (x.kind, x.derived) := by
    simp only [sortOf, Db.fileOf, Option.map_map]
    rfl
  rw [hsort, hsort, h.file]

theorem sortOf_beyond (h : db.Bounded) (hi : db.nextIno ≤ i) : sortOf db i = none := by
  unfold sortOf
  cases hx : db.getInode i with
  | none => rfl
  | some x => exact absurd (h.getInode hx) (not_lt.mpr hi)

theorem thins_of_keeps (hb : db.Bounded) (h : ∀ i, Keeps i db db') : Thins db db' where
  next := (h 0).next
  old i _ := .inl (h i)
  new i d hi := by
    rw [sortOf_keeps (h i), sortOf_beyond hb hi]
    simp

/-- One inode is gone, the others are as they were. -/
theorem thins_of_gone (hb : db.Bounded) (hn : db.nextIno ≤ db'.nextIno) (h : ∀ i ≠ j, Keeps i db db')
    (hj : sortOf db' j = none) : Thins db db' where
  next := hn
  old i _ := by
    by_cases hi : i = j
    · exact .inr (hi ▸ hj)
    · exact .inl (h i hi)
  new i d hi := by
    by_cases hij : i = j
    · simp [hij, hj]
    · rw [sortOf_keeps (h i hij), sortOf_beyond hb hi]
      simp

theorem Thins.trans (h : Thins db db') (h' : Thins db' db'') : Thins db db'' where
  next := h.next.trans h'.next
  old i hi := by
    rcases h'.old i (hi.trans_le h.next) with hk | hgone
    · rcases h.old i hi with hk' | hgone'
      · exact .inl (hk'.trans hk)
      · exact .inr ((sortOf_keeps hk).trans hgone')
    · exact .inr hgone
  new i d hi := by
    by_cases hlt : i < db'.nextIno
    · rcases h'.old i hlt with hk | hgone
      · rw [sortOf_keeps hk]
        exact h.new i d hi
      · simp [hgone]
    · exact h'.new i d (not_lt.mp hlt)

theorem KeepsFiles.refl (hb : db.Bounded) : KeepsFiles db db :=
  ⟨thins_of_keeps hb fun i => .refl i db, fun i _ _ => .refl i db⟩

/-! ### The operations that let no file go -/

theorem keeps_newInode {kind : FileKind} {nlink size : ℤ} (h : i < db.nextIno) :
    Keeps i db ((db.addInode kind nlink size false).1.addDentry name p db.nextIno) :=
  (keeps_addInode h).trans keeps_addDentry

theorem mkdir_keepsFiles (h : WellFormed db) : KeepsFiles db (mkdir db p name).2 := by
  rcases mkdir_cases db p name with he | ⟨-, -, he⟩
  · rw [he]
    exact .refl h.bounded
  · rw [he]
    have hold : ∀ i < db.nextIno, Keeps i db (newDir db name p) := fun i hi =>
      (keeps_newInode hi).trans (keeps_updNlink (f := fun n => n + 1))
    have hsort (i : Ino) : sortOf (newDir db name p) i = if i = db.nextIno then some (.dir, false) else sortOf db i :=
      (sortOf_updNlink (f := fun n => n + 1)).trans (sortOf_addInode h.bounded)
    refine ⟨⟨Nat.le_succ _, fun i hi => .inl (hold i hi), fun i d hi => ?_⟩, fun i d hs => hold i ?_⟩
    · rw [hsort, sortOf_beyond h.bounded hi]
      split_ifs <;> simp
    · by_contra hlt
      rw [sortOf_beyond h.bounded (not_lt.mp hlt)] at hs
      cases hs

/-- What `mkdir` makes is the next inode. -/
theorem mkdir_ino (h : (mkdir db p name).1 = .ok i) : i = db.nextIno := by
  unfold mkdir at h
  split at h
  · cases h
  · split at h
    · cases h
    · exact (Except.ok.inj h).symm

/-- What `symlink` makes is the next inode. -/
theorem symlink_ino {target : String} (h : (symlink db p name target).1 = .ok i) : i = db.nextIno := by
  unfold symlink at h
  split at h
  · cases h
  · split at h
    · cases h
    · exact (Except.ok.inj h).symm

theorem symlink_keepsFiles {target : String} (h : WellFormed db) : KeepsFiles db (symlink db p name target).2 := by
  rcases symlink_cases db p name target with he | ⟨-, -, he⟩
  · rw [he]
    exact .refl h.bounded
  · rw [he]
    have hsame (i : Ino) : Keeps i (db.addInode .lnk 1 target.utf8ByteSize false).1
        (addSymlink (db.addInode .lnk 1 target.utf8ByteSize false).1 db.nextIno target) := .of_eq rfl rfl rfl
    have hold : ∀ i < db.nextIno, Keeps i db ((addSymlink (db.addInode .lnk 1 target.utf8ByteSize false).1
        db.nextIno target).addDentry name p db.nextIno) := fun i hi =>
      ((keeps_addInode hi).trans (hsame i)).trans keeps_addDentry
    have hsort (i : Ino) : sortOf ((addSymlink (db.addInode .lnk 1 target.utf8ByteSize false).1
        db.nextIno target).addDentry name p db.nextIno) i =
      if i = db.nextIno then some (.lnk, false) else sortOf db i :=
      sortOf_addInode h.bounded
    refine ⟨⟨Nat.le_succ _, fun i hi => .inl (hold i hi), fun i d hi => ?_⟩, fun i d hs => hold i ?_⟩
    · rw [hsort, sortOf_beyond h.bounded hi]
      split_ifs <;> simp
    · by_contra hlt
      rw [sortOf_beyond h.bounded (not_lt.mp hlt)] at hs
      cases hs

theorem link_keepsFiles (h : WellFormed db) : KeepsFiles db (link db j p name).2 := by
  rcases link_cases db j p name with he | ⟨x, -, -, -, -, he⟩
  · rw [he]
    exact .refl h.bounded
  · rw [he]
    have hold (i : Ino) : Keeps i db ((db.updInode j fun x => { x with nlink := x.nlink + 1 }).addDentry name p j) :=
      (keeps_updNlink (f := fun n => n + 1)).trans keeps_addDentry
    exact ⟨thins_of_keeps h.bounded hold, fun i _ _ => hold i⟩

theorem rmdir_keepsFiles (h : WellFormed db) : KeepsFiles db (rmdir db p name).2 := by
  rcases rmdir_cases db p name with he | ⟨x, -, hx, hk, -, he⟩
  · rw [he]
    exact .refl h.bounded
  · rw [he]
    have hold : ∀ i ≠ x.ino, Keeps i db (((db.delChild p name).delInode x.ino).updInode p fun y =>
        { y with nlink := max (y.nlink - 1) 2 }) := fun i hi =>
      (keeps_delChild.trans (keeps_delInode hi)).trans (keeps_updNlink (f := fun n => max (n - 1) 2))
    have hgone : sortOf (((db.delChild p name).delInode x.ino).updInode p fun y =>
        { y with nlink := max (y.nlink - 1) 2 }) x.ino = none :=
      (sortOf_updNlink (f := fun n => max (n - 1) 2)).trans (sortOf_delInode.trans (if_pos rfl))
    refine ⟨thins_of_gone h.bounded le_rfl hold hgone, fun i d hs => hold i ?_⟩
    rintro rfl
    unfold sortOf at hs
    rw [(childInode_named hx).2, Option.map_some, hk] at hs
    cases hs

/-! ### `unlink` and `rename` -/

theorem unlinkTables_thins {x : Inode} (hb : db.Bounded) : Thins db (unlinkTables db p name x) := by
  have hless (i : Ino) : Keeps i db ((db.delChild p name).updInode x.ino fun y => { y with nlink := y.nlink - 1 }) :=
    keeps_delChild.trans (keeps_updNlink (f := fun n => n - 1))
  unfold unlinkTables
  dsimp only
  split_ifs
  · refine thins_of_gone (j := x.ino) hb ?_ ?_ ?_
    · exact le_rfl
    · intro i hi
      have hsame : Keeps i ((((db.delChild p name).updInode x.ino fun y => { y with nlink := y.nlink - 1 }).delData
          x.ino)) (((((db.delChild p name).updInode x.ino fun y => { y with nlink := y.nlink - 1 }).delData
          x.ino).delSymlink x.ino).deleteRemoteId x.ino) := .of_eq rfl rfl rfl
      exact (((hless i).trans (keeps_delData hi)).trans hsame).trans (keeps_delInode hi)
    · rw [sortOf_purge, if_pos rfl]
  · exact thins_of_keeps hb hless

theorem removeDerived_thins (hb : db.Bounded) : Thins db (removeDerivedSibling db p name) := by
  rcases removeDerived_cases db p name with he | ⟨x, -, -, he⟩
  · rw [he]
    exact thins_of_keeps hb fun i => .refl i db
  · rw [he]
    refine thins_of_gone (j := x.ino) hb ?_ ?_ ?_
    · exact le_rfl
    · intro i hi
      exact (keeps_delChild.trans (keeps_delData hi)).trans (keeps_delInode hi)
    · exact sortOf_delInode.trans (if_pos rfl)

theorem cascadeUnlink_thins (h : WellFormed db) :
    Thins db (cascadeUnlinkDerivedSiblings db p name) ∧ WellFormed (cascadeUnlinkDerivedSiblings db p name) := by
  unfold cascadeUnlinkDerivedSiblings
  have key : ∀ (l : List String) (d : Db), Thins db d → WellFormed d →
      Thins db (l.foldl (fun d s => removeDerivedSibling d p (name ++ s)) d) ∧
        WellFormed (l.foldl (fun d s => removeDerivedSibling d p (name ++ s)) d) := by
    intro l
    induction l with
    | nil => exact fun d ht hw => ⟨ht, hw⟩
    | cons s l ih => exact fun d ht hw => ih _ (ht.trans (removeDerived_thins hw.bounded)) hw.removeDerived
  exact key _ db (thins_of_keeps h.bounded fun i => .refl i db) h

theorem unlink_thins {online : Bool} (h : WellFormed db) : Thins db (unlink db online p name nowMs).2 := by
  rcases unlink_cases db online p name nowMs with he | ⟨x, q, hu, he⟩
  · rw [he]
    exact thins_of_keeps h.bounded fun i => .refl i db
  · rw [he]
    have hx : x.ino ≠ ROOT_INO := h.ne_root (childInode_named hu.source).1
    have htables : Thins db (unlinkTables db p name x) := unlinkTables_thins h.bounded
    have hwf : WellFormed { unlinkTables db p name x with queue := q } :=
      (h.unlinkTables hx).queue
    have hqueue : Thins (unlinkTables db p name x) { unlinkTables db p name x with queue := q } :=
      thins_of_keeps (h.unlinkTables hx).bounded fun i => .of_eq rfl rfl rfl
    exact (htables.trans hqueue).trans (cascadeUnlink_thins hwf).1

theorem renamed_thins (hb : db.Bounded) : Thins db (renamedTables db p name p' name') := by
  unfold renamedTables
  cases db.childIno p' name' with
  | none => exact thins_of_keeps hb fun i => .of_eq rfl rfl rfl
  | some j =>
    refine thins_of_gone (j := j) hb ?_ ?_ ?_
    · exact le_rfl
    · intro i hi
      have hsame : Keeps i ((db.delChild p' name').delData j)
          ((((db.delChild p' name').delData j).delSymlink j).deleteRemoteId j) := .of_eq rfl rfl rfl
      have hmoved : Keeps i (purge (db.delChild p' name') j)
          (moveChild (purge (db.delChild p' name') j) p name p' name') :=
        .of_eq rfl rfl rfl
      exact (((keeps_delChild.trans (keeps_delData hi)).trans hsame).trans (keeps_delInode hi)).trans hmoved
    · change sortOf (purge (db.delChild p' name') j) j = none
      rw [sortOf_purge, if_pos rfl]

theorem rename_thins {online : Bool} (h : WellFormed db) : Thins db (rename db online p name p' name' nowMs).2 := by
  rcases rename_cases db online p name p' name' nowMs with he | ⟨src, d, hr, hp, he⟩
  · rw [he]
    exact thins_of_keeps h.bounded fun i => .refl i db
  · rw [he]
    have htables : Thins db (renamedTables db p name p' name') := renamed_thins h.bounded
    have hwf := (h.renamed hr).1
    have hpushed : ∀ i, Keeps i (renamedTables db p name p' name') d := by
      intro i
      cases hp with
      | queued q => exact .of_eq rfl rfl rfl
      | carried => exact .of_eq rfl rfl rfl
    exact htables.trans (thins_of_keeps hwf.bounded fun i => (hpushed i).trans Fs.cascadeRename_keeps)

/-! ### `create_file` -/

/-- What `create_file` does, if it does anything. -/
theorem createFile_made {online : Bool} {f : SqliteFile} (h : WellFormed db)
    (hf : (createFile db online p name).1 = .ok f) : f.ino = db.nextIno ∧
      (∀ i < db.nextIno, Keeps i db (createFile db online p name).2) ∧
      (createFile db online p name).2.nextIno = db.nextIno + 1 ∧
      (createFile db online p name).2.chunksOf db.nextIno = [] ∧
      (∀ i, (createFile db online p name).2.getInode i =
        if i = db.nextIno then some ⟨db.nextIno, .reg, 1, 0, none, false⟩ else db.getInode i) := by
  rw [createFile_eq] at hf ⊢
  cases hv : validateName name with
  | error e =>
    rw [hv] at hf
    cases hf
  | ok _ =>
    cases hvac : vacant db p name with
    | error e =>
      rw [hv, hvac] at hf
      cases hf
    | ok _ =>
      rw [hv, hvac] at hf
      cases hf
      refine ⟨rfl, fun i hi => keeps_newInode hi, rfl, ?_, fun i => h.bounded.getInode_addInode⟩
      apply List.filter_eq_nil_iff.mpr
      intro c hc
      have hlt := h.bounded.data c hc
      simp [hlt.ne]

theorem createFile_error {online : Bool} {e : VfsError} (hf : (createFile db online p name).1 = .error e) :
    (createFile db online p name).2 = db := by
  rw [createFile_eq] at hf ⊢
  cases hv : validateName name with
  | error e => rfl
  | ok _ =>
    cases hvac : vacant db p name with
    | error e => rfl
    | ok _ =>
      rw [hv, hvac] at hf
      cases hf

end Lemmas

end Cache
end Smfs
