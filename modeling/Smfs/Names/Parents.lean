/-
# Entries lie in directories

`mkdir`, `create_file`, `symlink`, `link` and `rename` check that the parent is
a directory; `ensure_dirs` takes what stands on a path for one. Where a pull's
paths go through directories only, every entry lies in a directory
(`InDirs`), and so the inode of a file has no entries.

Key definitions: `Cache.InDirs`, `Cache.Erodes`.
Key theorems: `Cache.InDirs.edit`, `Cache.InDirs.renamed`.
-/
import Smfs.Names.Edits
import Smfs.Names.Siblings

namespace Smfs
namespace Cache

open Db Fs

/-- Every entry lies in a directory, as long as the directory has a row. -/
def InDirs (db : Db) : Prop := ∀ d ∈ db.dentries, OnlyDir db d.parentIno

/-- Rows may go, and those of old inodes that stay are of the sort they were. -/
def Erodes (db db' : Db) : Prop := ∀ i, i < db.nextIno → sortOf db' i = sortOf db i ∨ sortOf db' i = none

section Lemmas

variable {db db' : Db} {i p p' : Ino} {name name' : String}

theorem Erodes.of_same (h : ∀ i, i < db.nextIno → sortOf db' i = sortOf db i) :
    Erodes db db' := fun i hi => .inl (h i hi)

theorem Erodes.of_gone {j : Ino} (h : ∀ i, sortOf db' i = if i = j then none else sortOf db i) : Erodes db db' := by
  intro i _
  rw [h]
  split_ifs
  · exact .inr rfl
  · exact .inl rfl

theorem Erodes.onlyDir (h : Erodes db db') (hp : p < db.nextIno) (hdir : OnlyDir db p) : OnlyDir db' p := by
  rcases h p hp with hsame | hnone
  · exact onlyDir_of_sort hsame hdir
  · intro x hx
    unfold sortOf at hnone
    rw [hx] at hnone
    cases hnone

theorem erodes_unlink {x : Inode} : Erodes db (unlinkTables db p name x) := fun i _ =>
  (unlinkTables_sort db p name x i).imp_right And.right

theorem erodes_renamed : Erodes db (renamedTables db p name p' name') := by
  intro i _
  rcases renamed_sort db p name p' name' i with hs | ⟨-, hs⟩
  · exact .inl hs
  · exact .inr hs

theorem onlyDir_of_row (h : ∃ x, db.getInode p = some x ∧ x.kind = .dir) : OnlyDir db p := by
  obtain ⟨x, hx, hk⟩ := h
  intro y hy
  rw [hx] at hy
  cases hy
  exact hk

theorem row_lt (h : WellFormed db) (hp : ∃ x, db.getInode p = some x ∧ x.kind = .dir) : p < db.nextIno := by
  obtain ⟨x, hx, -⟩ := hp
  exact h.bounded.getInode hx

theorem InDirs.start : InDirs .fresh := fun _ hd => (nomatch hd)

/-- The parents are those of old entries, or directories. -/
theorem InDirs.change (h : InDirs db) (hwf : WellFormed db) (he : Erodes db db')
    (hd : ∀ d ∈ db'.dentries, (∃ e ∈ db.dentries, e.parentIno = d.parentIno) ∨
      d.parentIno < db.nextIno ∧ OnlyDir db d.parentIno) : InDirs db' := by
  intro d hm
  rcases hd d hm with ⟨e, hem, hpar⟩ | ⟨hlt, hdir⟩
  · rw [← hpar]
    exact he.onlyDir (hwf.parents e hem) (h e hem)
  · exact he.onlyDir hlt hdir

theorem InDirs.drop (h : InDirs db) (hwf : WellFormed db) (he : Erodes db db') (hd : db'.dentries ⊆ db.dentries) :
    InDirs db' := h.change hwf he fun d hm => .inl ⟨d, hd hm, rfl⟩

theorem InDirs.congr (h : InDirs db) (hi : db'.inodes = db.inodes) (hd : db'.dentries = db.dentries) : InDirs db' := by
  intro d hm
  exact onlyDir_of_sort (sortOf_congr hi) (h d (hd ▸ hm))

/-- An entry comes, in a directory. -/
theorem InDirs.addEntry {k : Ino} (h : InDirs db) (hwf : WellFormed db) (he : Erodes db db') (hp : p < db.nextIno)
    (hdir : OnlyDir db p) (hd : db'.dentries = db.dentries ++ [⟨name, p, k⟩]) : InDirs db' := by
  refine h.change hwf he fun d hm => ?_
  rw [hd] at hm
  rcases List.mem_append.mp hm with hm | hm
  · exact .inl ⟨d, hm, rfl⟩
  · rw [List.mem_singleton.mp hm]
    exact .inr ⟨hp, hdir⟩

theorem InDirs.create {kind : FileKind} {nlink size : ℤ} {derived : Bool} (h : InDirs db) (hwf : WellFormed db)
    (hp : p < db.nextIno) (hdir : OnlyDir db p) :
    InDirs ((db.addInode kind nlink size derived).1.addDentry name p db.nextIno) :=
  h.addEntry hwf (.of_same fun _ hi => (sortOf_addInode hwf.bounded).trans (if_neg hi.ne)) hp hdir rfl

theorem InDirs.updNlink {f : ℤ → ℤ} (h : InDirs db) : InDirs (db.updInode i fun x => { x with nlink := f x.nlink }) :=
  fun d hd => onlyDir_of_sort sortOf_updNlink (h d hd)

theorem InDirs.moved (h : InDirs db) (hwf : WellFormed db) (hp : p < db.nextIno) (hdir : OnlyDir db p)
    (hm : Fs.moveDentries db i p name = some db') : InDirs db' := by
  refine h.change hwf (.of_same fun _ _ => sortOf_congr (moveDentries_rows hm).1) fun d hd => ?_
  rcases (mem_moveDentries hm).mp hd with ⟨hd, -⟩ | ⟨rfl, -⟩
  · exact .inl ⟨d, hd, rfl⟩
  · exact .inr ⟨hp, hdir⟩

theorem InDirs.edit (h : InDirs db) (hwf : WellFormed db) (he : Edit .dirs db db') : InDirs db' := by
  cases he with
  | sync inodes next dentries data symlinks remotes => exact h.congr inodes dentries
  | @file size derived name p rows named free under called own =>
    have hnew : InDirs ((db.addInode .reg 1 size derived).1.addDentry name p db.nextIno) :=
      h.create hwf (hwf.named_lt named) (onlyDir_iff.mp under)
    exact hnew.congr rfl rfl
  | dir named free under called =>
    exact (h.create hwf (hwf.named_lt named) (onlyDir_iff.mp under)).updNlink (f := fun n => n + 1)
  | spare taken gone =>
    exact h.drop hwf (.of_same fun _ hi => (sortOf_addInode hwf.bounded).trans (if_neg hi.ne)) (List.Subset.refl _)
  | rewrite named => exact fun d hd => onlyDir_of_sort sortOf_rewrite (h d hd)

theorem InDirs.renamed {src : Inode} (h : InDirs db) (hwf : WellFormed db) (hr : Renames db p name p' name' src) :
    InDirs (renamedTables db p name p' name') := by
  refine h.change hwf erodes_renamed fun d hd => ?_
  rcases (mem_renamed hwf hr).mp hd with ⟨hd, -, -⟩ | rfl
  · exact .inl ⟨d, hd, rfl⟩
  · exact .inr ⟨row_lt hwf hr.parent, onlyDir_of_row hr.parent⟩

theorem InDirs.removeDerived (h : InDirs db) (hwf : WellFormed db) : InDirs (removeDerivedSibling db p name) := by
  rcases removeDerived_cases db p name with he | ⟨x, -, -, he⟩
  · rwa [he]
  · have hgone (i : Ino) : sortOf (((db.delChild p name).delData x.ino).delInode x.ino) i =
        if i = x.ino then none else sortOf db i := sortOf_delInode
    rw [he]
    exact h.drop hwf (.of_gone hgone) fun d hd => (mem_delChild.mp hd).1

theorem InDirs.renameDerived (h : InDirs db) (hwf : WellFormed db) (hp : p' < db.nextIno) (hdir : OnlyDir db p') :
    InDirs (renameDerivedSibling db p name p' name') := by
  have hdel : InDirs (db.delChild p' name') := fun d hd => h d (mem_delChild.mp hd).1
  rcases renameDerived_cases db p name p' name' with he | ⟨x, -, -, he | hm⟩
  · rwa [he]
  · rwa [he]
  · exact hdel.moved (hwf.delChild p' name') hp hdir hm

theorem InDirs.applyDeletion {rid : String} (h : InDirs db) (hwf : WellFormed db) :
    InDirs (applyDeletion db rid).2 := by
  rcases applyDeletion_cases db rid with he | ⟨j, d, -, -, -, he⟩
  · rwa [he]
  · have hgone (i : Ino) : sortOf ((((db.delDentriesOf j).delData j).delInode j).deleteRemoteId j) i =
        if i = j then none else sortOf db i := sortOf_delInode
    rw [he]
    exact h.drop hwf (.of_gone hgone) fun e he => (Table.mem_erase.mp he).1

end Lemmas

end Cache
end Smfs
