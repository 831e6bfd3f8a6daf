/-
# What a document can be mapped to

A row of `fs_remote` ties an inode to a document: a pull writes the document's
content into it, moves its entry and deletes it. `reconcile_one` maps a document to
whatever has its path, a directory, a symlink or a derived sibling too,
and `rename` maps the document of what it replaced to the source
if a queued create is carried along. `MapOk` is the condition that both meet a regular
file of the user, and that a pull's paths go through directories. Under it
every mapped inode is such a file, so it has no entries, and a pull replaces
the content of no other.

Key definitions: `Cache.Call`, `Cache.rewriteCall`, `Cache.MapOk`.
Key theorems: `Cache.reachable_mapped`, `Cache.reconcileOne_rewriteCall`.
-/
import Smfs.Names.Contents
import Smfs.Names.Parents

namespace Smfs
namespace Cache

open Db Fs Trans

/-- What the file system or a pull is asked to do. -/
inductive Call
  | tree (op : Op)
  | write (f : SqliteFile) (offset : ℕ) (data : Bytes)
  | truncate (f : SqliteFile) (size : ℕ)
  | flush (f : SqliteFile)
  | setattr (ino : Ino) (size : ℕ)
  deriving DecidableEq

def Call.apply (db : Db) (online : Bool) (nowMs : ℤ) : Call → Db
  | .tree op => op.apply db online nowMs
  | .write f offset data => (f.write db offset data nowMs).2
  | .truncate f size => f.truncate db size
  | .flush f => f.flush db nowMs
  | .setattr ino size => (setattrSize db ino size).2

/-- A call at a time. -/
def callStep (online : Bool) (db : Db) (a : ℤ × Call) : Option Db := some (a.2.apply db online a.1)

/-- The call of `rewrite_file_content` for a document whose content has come. -/
def rewriteOf (db : Db) (ino : Ino) (doc : Document) : Option (Db × Ino) :=
  if doc.status = "done" && !doc.isBinaryType && doc.content.isSome then some (db, ino) else none

/-- The call of `rewrite_file_content` that `reconcile_one` makes: the tables it
is made on, and the inode. -/
def rewriteCall (db : Db) (doc : Document) : Option (Db × Ino) :=
  match db.inoByRemoteId doc.id with
  | some ino =>
    if dirtyNewer db ino doc || mirroredUpTo db ino doc then none
    else
      match renameToDoc db ino doc with
      | (.error _, _) => none
      | (.ok (), db) => rewriteOf db ino doc
  | none =>
    if doc.status ≠ "done" then none
    else
      let dirs := ensureDirs db (splitPath doc.path).1
      match dirs.1.childIno dirs.2 (splitPath doc.path).2 with
      | some ino => if dirtyNewer dirs.1 ino doc then none else rewriteOf (dirs.1.setRemoteId ino doc.id) ino doc
      | none => none

/-- A regular file that is not a derived sibling. -/
def UserFile (db : Db) (i : Ino) : Prop := sortOf db i = some (.reg, false)

instance (db : Db) (i : Ino) : Decidable (UserFile db i) := inferInstanceAs (Decidable (_ = _))

/-- A document is only mapped to a file of the user, and a pull's paths go
through directories. -/
def MapOk (online : Bool) (db : Db) (a : ℤ × Call) : Prop :=
  match a.2 with
  | .tree (.name (.rename p n p' n')) =>
    online = true → carriesCreate db p n → ∀ src j rid, Renames db p n p' n' src → db.childIno p' n' = some j →
      db.getRemoteId j = some rid → UserFile db src.ino
  | .tree (.ensureDirs path) => DirsOn db ROOT_INO (components path)
  | .tree (.reconcileOne doc) =>
    (visits db doc → DirsOn db ROOT_INO (dirOf doc)) ∧
      (db.inoByRemoteId doc.id = none → doc.status = "done" → ∀ last j, Stands db ROOT_INO (dirOf doc) last →
        db.childIno last (fileOf doc) = some j → UserFile db j)
  | _ => True

section Lemmas

variable {db db' : Db} {i p p' : Ino} {name name' : String}

/-! ### The invariant -/

/-- Mapped inodes are files of the user, and entries lie in directories. -/
structure Mapped (db : Db) : Prop where
  wf : WellFormed db
  parents : InDirs db
  files : ∀ r ∈ db.remotes, UserFile db r.ino

theorem Mapped.start : Mapped .fresh := ⟨.start, .start, fun _ hr => (nomatch hr)⟩

/-- A mapped inode has no entries. -/
theorem Mapped.bare {r : Remote} (h : Mapped db) (hr : r ∈ db.remotes) : ∀ d ∈ db.dentries, d.parentIno ≠ r.ino := by
  intro d hd he
  obtain ⟨x, hx, hs⟩ := Option.map_eq_some_iff.mp (h.files r hr)
  have hdir : x.kind = .dir := h.parents d hd x (he ▸ hx)
  rw [hdir] at hs
  cases hs

theorem Mapped.file {rid : String} (h : Mapped db) (hi : db.inoByRemoteId rid = some i) : UserFile db i := by
  obtain ⟨r, hr, rfl⟩ := Option.map_eq_some_iff.mp hi
  exact h.files r (List.mem_of_find?_eq_some hr)

/-- The mappings are of inodes that were mapped, and their rows stay as they were. -/
theorem Mapped.change (h : Mapped db) (hwf : WellFormed db') (hp : InDirs db')
    (hr : ∀ r ∈ db'.remotes, (∃ s ∈ db.remotes, s.ino = r.ino) ∧ sortOf db' r.ino = sortOf db r.ino) : Mapped db' := by
  refine ⟨hwf, hp, fun r hm => ?_⟩
  obtain ⟨⟨s, hs, he⟩, hsort⟩ := hr r hm
  have hfile := h.files s hs
  rw [he] at hfile
  exact hsort.trans hfile

/-- Mappings and sorts stay. -/
theorem Mapped.same (h : Mapped db) (hwf : WellFormed db') (hp : InDirs db') (hr : db'.remotes = db.remotes)
    (hs : ∀ i, i < db.nextIno → sortOf db' i = sortOf db i) : Mapped db' := by
  refine h.change hwf hp fun r hm => ?_
  rw [hr] at hm
  exact ⟨⟨r, hm, rfl⟩, hs r.ino (h.wf.bounded.remotes r hm)⟩

theorem Mapped.setRemoteId {rid : String} (h : Mapped db) (hi : UserFile db i) : Mapped (db.setRemoteId i rid) := by
  obtain ⟨x, hx, -⟩ := Option.map_eq_some_iff.mp hi
  refine ⟨h.wf.setRemoteId (h.wf.bounded.getInode hx), h.parents, fun r hr => ?_⟩
  rcases Table.mem_put hr with rfl | hr
  · exact hi
  · exact h.files r hr

/-- An inode goes, and its mapping with it if it had one. -/
theorem Mapped.gone {j : Ino} (h : Mapped db) (hwf : WellFormed db') (hp : InDirs db') (hr : db'.remotes ⊆ db.remotes)
    (hj : ∀ r ∈ db'.remotes, r.ino ≠ j) (hs : ∀ i, sortOf db' i = if i = j then none else sortOf db i) :
    Mapped db' := by
  refine h.change hwf hp fun r hm => ⟨⟨r, hr hm, rfl⟩, ?_⟩
  rw [hs, if_neg (hj r hm)]

/-! ### Pulls -/

theorem Mapped.edit (h : Mapped db) (he : Edit .dirs db db') : Mapped db' := by
  have hwf := h.wf.edit he
  have hp := h.parents.edit h.wf he
  have hsort := (he.extends h.wf).sort
  cases he with
  | sync inodes next dentries data symlinks remotes =>
    refine h.change hwf hp fun r hm => ⟨?_, sortOf_congr inodes⟩
    have hrow : (r.ino, r.remoteId) ∈ db.remotes.map fun r => (r.ino, r.remoteId) := remotes ▸ List.mem_map_of_mem hm
    obtain ⟨s, hs, heq⟩ := List.mem_map.mp hrow
    exact ⟨s, hs, congrArg Prod.fst heq⟩
  | file named free under called own => exact h.same hwf hp rfl hsort
  | dir named free under called => exact h.same hwf hp rfl hsort
  | spare taken gone => exact h.same hwf hp rfl hsort
  | rewrite named => exact h.same hwf hp rfl hsort

theorem Mapped.moved (h : Mapped db) (hp : p < db.nextIno) (hdir : OnlyDir db p)
    (hm : Fs.moveDentries db i p name = some db') : Mapped db' :=
  h.same (h.wf.moveDentries hp hm) (h.parents.moved h.wf hp hdir hm) (moveDentries_rows hm).2.2.2.1 fun _ _ =>
    sortOf_congr (moveDentries_rows hm).1

/-- What stands at the end of a path stood there before its directories were made. -/
theorem ensureParts_child {parts : List String} {n : String} {j : Ino} :
    ∀ {db : Db} {p : Ino}, WellFormed db → Named db p →
    (ensureParts db p parts).1.childIno (ensureParts db p parts).2 n = some j →
      Stands db p parts (ensureParts db p parts).2 ∧ db.childIno (ensureParts db p parts).2 n = some j := by
  induction parts with
  | nil => exact fun _ _ hc => ⟨rfl, hc⟩
  | cons part parts ih =>
    intro db p h hp hc
    unfold ensureParts ensureDir at hc ⊢
    cases hk : db.childIno p part with
    | some k =>
      rw [hk] at hc
      obtain ⟨hst, hj⟩ := ih h (named_of_child hk) hc
      exact ⟨⟨k, hk, hst⟩, hj⟩
    | none =>
      rw [hk] at hc
      have hdir : Edit .any db (newDir db part p) := .dir hp hk trivial trivial
      obtain ⟨hchild, -⟩ := newDir_spec (R := .any) h hp hk
      obtain ⟨hst, hj⟩ := ih (h.edit hdir) (named_of_child hchild) hc
      -- nothing stands in a new directory
      have hbare (q : String) (k : Ino) : (newDir db part p).childIno db.nextIno q ≠ some k := by
        intro hq
        rcases List.mem_append.mp (childIno_some hq) with hm | hm
        · exact absurd (h.parents _ hm) (lt_irrefl _)
        · have hpar : db.nextIno = p := congrArg Dentry.parentIno (List.mem_singleton.mp hm)
          exact absurd (h.named_lt hp) (by rw [← hpar]; exact lt_irrefl _)
      exfalso
      cases parts with
      | nil => exact hbare n j hc
      | cons q parts =>
        obtain ⟨k, hk, -⟩ := hst
        exact hbare q k hk

variable {doc : Document} {nowMs : ℤ}

/-- The inode that a document is attached to. -/
theorem attached_file (h : WellFormed db) (hid : db.inoByRemoteId doc.id = none) (hdone : doc.status = "done")
    (hok : db.inoByRemoteId doc.id = none → doc.status = "done" → ∀ last j, Stands db ROOT_INO (dirOf doc) last →
      db.childIno last (fileOf doc) = some j → UserFile db j)
    (hc : (dirsOf db doc).1.childIno (dirsOf db doc).2 (fileOf doc) = some i) : UserFile (dirsOf db doc).1 i := by
  have hext := Edits.extends h (dirsOf_edits h .any (Calls.any doc).dirs).1
  have hchild : Stands db ROOT_INO (dirOf doc) (dirsOf db doc).2 ∧
    db.childIno (dirsOf db doc).2 (fileOf doc) = some i := by
    rw [← dirsOf_eq] at hc ⊢
    unfold ensureDirs at hc ⊢
    rw [dirOf_eq] at hc ⊢
    exact ensureParts_child h (.inl rfl) hc
  have hfile := hok hid hdone _ i hchild.1 hchild.2
  exact (hext.sort i (h.bounded.childIno hchild.2)).trans hfile

theorem reconcileOne_mapped (h : Mapped db) (hpath : visits db doc → DirsOn db ROOT_INO (dirOf doc))
    (hok : db.inoByRemoteId doc.id = none → doc.status = "done" → ∀ last j, Stands db ROOT_INO (dirOf doc) last →
      db.childIno last (fileOf doc) = some j → UserFile db j) : Mapped (reconcileOne db doc nowMs).2 := by
  have hedit : ∀ d d', Mapped d → Edit .dirs d d' → Mapped d' := fun _ _ hd he => hd.edit he
  refine reconcileOne_keeps (I := Mapped) (fun _ hd => hd.wf) hedit h (fun hv =>
    pathOn_dirs.mpr (hpath (visits_of_builds hv))) (fun _ => .dirsRule _)
    (fun _ _ _ => trivial) (fun i d' hr hmade hm => ?_)
    (fun d j hd hs => hd.setRemoteId hs) fun j hid hdone hc hmade =>
      hmade.setRemoteId (attached_file h.wf hid hdone hok hc)
  have hdirs : PathOn .dirs db ROOT_INO (dirOf doc) :=
    pathOn_dirs.mpr (hpath (visits_of_builds (builds_of_retargets hr)))
  obtain ⟨-, hn, hst, hd⟩ := dirsOf_edits h.wf hdirs (Calls.dirsRule doc).dirs
  exact hmade.moved (hmade.wf.named_lt hn) (onlyDir_iff.mp (hst.parent hd)) hm

/-! ### The content that a pull replaces -/

theorem rewriteOf_some {d : Db} (h : rewriteOf db i doc = some (d, p)) : d = db ∧ p = i ∧ doc.status = "done" ∧
    ∃ content, doc.content = some content ∧ mirrorContent db i doc = rewriteFileContent db i content := by
  unfold rewriteOf at h
  split_ifs at h with hc
  cases h
  simp only [Bool.and_eq_true, decide_eq_true_eq, Bool.not_eq_true'] at hc
  obtain ⟨⟨hdone, hb⟩, hsome⟩ := hc
  obtain ⟨content, hcontent⟩ := Option.isSome_iff_exists.mp hsome
  refine ⟨rfl, rfl, hdone, content, hcontent, ?_⟩
  unfold mirrorContent
  rw [hb, hcontent]
  rfl

/-- The call is the one that `reconcile_one` makes. -/
theorem reconcileOne_rewriteCall {d : Db} (h : rewriteCall db doc = some (d, i)) :
    ∃ content, doc.content = some content ∧
      ((reconcileOne db doc nowMs).2 = syncTranscriptionSibling ((rewriteFileContent d i content).setMirroredState i
          doc.updatedMs (some doc.status) (some nowMs)) doc doc.path ∨
        (reconcileOne db doc nowMs).2 = (syncTranscriptionSibling (rewriteFileContent d i content) doc
          doc.path).setMirroredState i doc.updatedMs (some doc.status) (some nowMs)) := by
  unfold rewriteCall at h
  unfold reconcileOne
  cases hid : db.inoByRemoteId doc.id with
  | some k =>
    rw [hid] at h
    dsimp only at h ⊢
    split_ifs at h with hskip
    rw [Bool.or_eq_true, not_or] at hskip
    unfold reconcileMapped
    rw [if_neg hskip.1, if_neg hskip.2]
    cases hr : renameToDoc db k doc with
    | mk res moved =>
      rw [hr] at h
      cases res with
      | error e => cases h
      | ok u =>
        obtain ⟨rfl, rfl, hdone, content, hcontent, hmirror⟩ := rewriteOf_some h
        refine ⟨content, hcontent, .inl ?_⟩
        dsimp only
        unfold reconcileContent
        rw [if_pos hdone, hmirror]
  | none =>
    rw [hid] at h
    dsimp only at h ⊢
    unfold reconcileUnmapped
    split_ifs at h with hdone
    rw [if_neg hdone]
    dsimp only at h ⊢
    rw [dirsOf_eq] at h ⊢
    cases hc : (dirsOf db doc).1.childIno (dirsOf db doc).2 (splitPath doc.path).2 with
    | none =>
      rw [hc] at h
      cases h
    | some k =>
      rw [hc] at h
      dsimp only at h ⊢
      split_ifs at h with hdirty
      obtain ⟨rfl, rfl, hdone, content, hcontent, hmirror⟩ := rewriteOf_some h
      refine ⟨content, hcontent, .inr ?_⟩
      unfold reconcileAttach attachContent
      rw [if_neg hdirty, if_pos hdone, hmirror]

theorem rewriteCall_file {d : Db} (h : Mapped db) (hok : db.inoByRemoteId doc.id = none → doc.status = "done" →
    ∀ last j, Stands db ROOT_INO (dirOf doc) last → db.childIno last (fileOf doc) = some j → UserFile db j)
    (hcall : rewriteCall db doc = some (d, i)) : UserFile d i := by
  unfold rewriteCall at hcall
  cases hid : db.inoByRemoteId doc.id with
  | some k =>
    rw [hid] at hcall
    dsimp only at hcall
    split_ifs at hcall
    have hfile := h.file hid
    unfold renameToDoc at hcall
    by_cases hpath : resolveFilepath db k = some doc.path
    · rw [if_pos hpath] at hcall
      obtain ⟨rfl, rfl, -⟩ := rewriteOf_some hcall
      exact hfile
    · rw [if_neg hpath] at hcall
      have hext := Edits.extends h.wf (dirsOf_edits h.wf .any (Calls.any doc).dirs).1
      have hcases := applyRenameTo_cases db k (splitPath doc.path).1 (splitPath doc.path).2
      rw [dirsOf_eq] at hcases
      rcases hcases with ⟨e, hres⟩ | ⟨entry, d', -, hm, hres⟩
      · rw [hres] at hcall
        cases hcall
      · rw [hres] at hcall
        obtain ⟨rfl, rfl, -⟩ := rewriteOf_some hcall
        have hmade := hext.sort i (h.wf.bounded.inoByRemoteId hid)
        have hmoved : sortOf d i = sortOf (dirsOf db doc).1 i := sortOf_congr (moveDentries_rows hm).1
        exact (hmoved.trans hmade).trans hfile
  | none =>
    rw [hid] at hcall
    dsimp only at hcall
    split_ifs at hcall with hdone
    rw [dirsOf_eq] at hcall
    cases hc : (dirsOf db doc).1.childIno (dirsOf db doc).2 (splitPath doc.path).2 with
    | none =>
      rw [hc] at hcall
      cases hcall
    | some k =>
      rw [hc] at hcall
      dsimp only at hcall
      split_ifs at hcall
      obtain ⟨rfl, rfl, -⟩ := rewriteOf_some hcall
      exact attached_file h.wf hid (not_not.mp hdone) hok hc

/-! ### Operations on names -/

/-- An inode without a mapping goes. -/
theorem UserFile.ne {j : Ino} {kind : FileKind} {derived : Bool} (h : UserFile db i)
    (hj : sortOf db j = some (kind, derived))
    (hne : (kind, derived) ≠ (.reg, false)) : i ≠ j := by
  rintro rfl
  exact hne (Option.some.inj (hj.symm.trans h))

theorem sortOf_row {x : Inode} (hx : db.getInode i = some x) : sortOf db i = some (x.kind, x.derived) := by
  unfold sortOf
  rw [hx]
  rfl

theorem applyDeletion_mapped {rid : String} (h : Mapped db) : Mapped (applyDeletion db rid).2 := by
  have hwf : WellFormed (applyDeletion db rid).2 := applyDeletion_wf h.wf
  have hp : InDirs (applyDeletion db rid).2 := h.parents.applyDeletion h.wf
  rcases applyDeletion_cases db rid with he | ⟨j, d, -, -, -, he⟩
  · rwa [he]
  · rw [he] at hwf hp ⊢
    exact h.gone hwf hp (Table.erase_sublist _ _).subset (fun r hr => (Table.mem_erase.mp hr).2) fun _ =>
      sortOf_delInode

theorem mkdir_mapped (h : Mapped db) : Mapped (mkdir db p name).2 := by
  have hwf : WellFormed (mkdir db p name).2 := name_wf h.wf true 0 (.mkdir p name)
  rcases mkdir_cases db p name with he | ⟨-, hvac, he⟩
  · rwa [he]
  · obtain ⟨hdir, hfree⟩ := vacant_ok hvac
    rw [he] at hwf ⊢
    have hp : InDirs (newDir db name p) :=
      (h.parents.create h.wf (row_lt h.wf hdir) (onlyDir_of_row hdir)).updNlink (f := fun n => n + 1)
    exact h.same hwf hp rfl fun i hi =>
      (sortOf_updNlink (f := fun n => n + 1)).trans ((sortOf_addInode h.wf.bounded).trans (if_neg hi.ne))

theorem createFile_mapped {online : Bool} (h : Mapped db) : Mapped (createFile db online p name).2 := by
  have hwf : WellFormed (createFile db online p name).2 := name_wf h.wf online 0 (.createFile p name)
  rcases createFile_cases db online p name with he | ⟨-, hvac, he⟩
  · rwa [he]
  · obtain ⟨hdir, -⟩ := vacant_ok hvac
    rw [he] at hwf ⊢
    exact h.same hwf (h.parents.create h.wf (row_lt h.wf hdir) (onlyDir_of_row hdir)) rfl fun i hi =>
      (sortOf_addInode h.wf.bounded).trans (if_neg hi.ne)

theorem symlink_mapped {target : String} (h : Mapped db) : Mapped (symlink db p name target).2 := by
  have hwf : WellFormed (symlink db p name target).2 := name_wf h.wf true 0 (.symlink p name target)
  rcases symlink_cases db p name target with he | ⟨-, hvac, he⟩
  · rwa [he]
  · obtain ⟨hdir, -⟩ := vacant_ok hvac
    rw [he] at hwf ⊢
    have hsort : ∀ i, i < db.nextIno → sortOf ((addSymlink (db.addInode .lnk 1 target.utf8ByteSize false).1 db.nextIno
        target).addDentry name p db.nextIno) i = sortOf db i := fun i hi =>
      (sortOf_addInode h.wf.bounded).trans (if_neg hi.ne)
    exact h.same hwf (h.parents.addEntry h.wf (.of_same hsort) (row_lt h.wf hdir) (onlyDir_of_row hdir) rfl) rfl hsort

theorem link_mapped (h : Mapped db) : Mapped (link db i p name).2 := by
  have hwf : WellFormed (link db i p name).2 := name_wf h.wf true 0 (.link i p name)
  rcases link_cases db i p name with he | ⟨x, -, -, -, hvac, he⟩
  · rwa [he]
  · obtain ⟨hdir, -⟩ := vacant_ok hvac
    rw [he] at hwf ⊢
    have hsort : ∀ j, j < db.nextIno → sortOf ((db.updInode i fun x =>
      { x with nlink := x.nlink + 1 }).addDentry name p i) j =
        sortOf db j := fun _ _ => sortOf_updNlink (f := fun n => n + 1)
    exact h.same hwf (h.parents.addEntry h.wf (.of_same hsort) (row_lt h.wf hdir) (onlyDir_of_row hdir) rfl) rfl hsort

theorem rmdir_mapped (h : Mapped db) : Mapped (rmdir db p name).2 := by
  have hwf : WellFormed (rmdir db p name).2 := name_wf h.wf true 0 (.rmdir p name)
  rcases rmdir_cases db p name with he | ⟨x, -, hx, hk, -, he⟩
  · rwa [he]
  · have hrow := sortOf_row (childInode_named hx).2
    have hsort (i : Ino) : sortOf (((db.delChild p name).delInode x.ino).updInode p fun y =>
        { y with nlink := max (y.nlink - 1) 2 }) i = if i = x.ino then none else sortOf db i :=
      (sortOf_updNlink (f := fun n => max (n - 1) 2)).trans sortOf_delInode
    rw [he] at hwf ⊢
    refine h.gone hwf (h.parents.drop h.wf (.of_gone hsort) fun d hd => (mem_delChild.mp hd).1) (List.Subset.refl _)
      (fun r hr => (h.files r hr).ne hrow ?_) hsort
    rw [hk]
    simp

theorem removeDerived_mapped (h : Mapped db) : Mapped (removeDerivedSibling db p name) := by
  have hwf : WellFormed (removeDerivedSibling db p name) := h.wf.removeDerived
  have hp : InDirs (removeDerivedSibling db p name) := h.parents.removeDerived h.wf
  rcases removeDerived_cases db p name with he | ⟨x, hx, hd, he⟩
  · rwa [he]
  · have hrow := sortOf_row (childInode_named hx).2
    rw [he] at hwf hp ⊢
    refine h.gone hwf hp (List.Subset.refl _) (fun r hr => (h.files r hr).ne hrow ?_) fun _ => sortOf_delInode
    rw [hd]
    simp

theorem unlink_mapped {online : Bool} (h : Mapped db) : Mapped (unlink db online p name nowMs).2 := by
  rcases unlink_cases db online p name nowMs with he | ⟨x, q, hu, he⟩
  · rwa [he]
  · have hne := h.wf.ne_root (childInode_named hu.source).1
    have hless : (unlinkTables db p name x).dentries ⊆ db.dentries := by
      rw [unlinkTables_dentries]
      exact fun d hd => (mem_delChild.mp hd).1
    have hparents := h.parents.drop h.wf erodes_unlink hless
    have htables : Mapped (unlinkTables db p name x) := by
      have hwf : WellFormed (unlinkTables db p name x) := h.wf.unlinkTables hne
      have hupd (i : Ino) : sortOf ((db.delChild p name).updInode x.ino fun y => { y with nlink := y.nlink - 1 }) i =
          sortOf db i := sortOf_updNlink (f := fun n => n - 1)
      unfold unlinkTables at hwf hparents ⊢
      dsimp only at hwf hparents ⊢
      split_ifs at hwf hparents ⊢
      · refine h.gone (j := x.ino) hwf hparents (Table.erase_sublist _ _).subset (fun r hr =>
          (Table.mem_erase.mp hr).2) ?_
        intro i
        rw [sortOf_purge, hupd]
      · exact h.same hwf hparents rfl fun i _ => hupd i
    have hstart : Mapped { unlinkTables db p name x with queue := q } :=
      htables.same htables.wf.queue (htables.parents.congr rfl rfl) rfl fun _ _ => rfl
    rw [he]
    exact cascadeUnlink_keeps (I := Mapped) hstart.wf hstart fun s _ d _ hI _ _ _ => removeDerived_mapped hI

theorem renamed_mapped {src : Inode} (h : Mapped db) (hr : Renames db p name p' name' src) :
    Mapped (renamedTables db p name p' name') := by
  have hwf := (h.wf.renamed hr).1
  have hparents := h.parents.renamed h.wf hr
  unfold renamedTables at hwf hparents ⊢
  cases hj : db.childIno p' name' with
  | none =>
    rw [hj] at hwf hparents
    exact h.same hwf hparents rfl fun _ _ => rfl
  | some j =>
    rw [hj] at hwf hparents
    exact h.gone (j := j) hwf hparents (Table.erase_sublist _ _).subset (fun r hr => (Table.mem_erase.mp hr).2)
      fun _ => sortOf_purge

theorem renameDerived_mapped (h : Mapped db) (hp : p' < db.nextIno) (hdir : OnlyDir db p') :
    Mapped (renameDerivedSibling db p name p' name') := by
  have hwf : WellFormed (renameDerivedSibling db p name p' name') := (h.wf.renameDerived hp _ _).1
  have hparents : InDirs (renameDerivedSibling db p name p' name') := h.parents.renameDerived h.wf hp hdir
  have hrem : (renameDerivedSibling db p name p' name').remotes = db.remotes :=
    (renameDerivedSibling_keeps (i := p)).2.remotes
  exact h.same hwf hparents hrem fun _ _ => sortOf_congr renameDerived_inodes

theorem rename_mapped {online : Bool} (h : Mapped db) (hok : online = true → carriesCreate db p name →
    ∀ src j rid, Renames db p name p' name' src → db.childIno p' name' = some j → db.getRemoteId j = some rid →
      UserFile db src.ino) : Mapped (rename db online p name p' name' nowMs).2 := by
  rcases rename_cases db online p name p' name' nowMs with he | ⟨src, d, hr, hd, he⟩
  · rwa [he]
  · have htables := renamed_mapped h hr
    obtain ⟨hwf, hp, hentries, hinodes⟩ := h.wf.pushed hr hd
    have hqueued (q : PushQueue) : Mapped { renamedTables db p name p' name' with queue := q } :=
      htables.same htables.wf.queue (htables.parents.congr rfl rfl) rfl fun _ _ => rfl
    have hstart : Mapped d := by
      cases hd with
      | queued q => exact hqueued q
      | @carried q j rid client carries replaced mapped =>
        refine (hqueued q).setRemoteId ?_
        have hfile := hok client carries src j rid hr replaced mapped
        have hsame : sortOf (renamedTables db p name p' name') src.ino = sortOf db src.ino := by
          rcases renamed_sort db p name p' name' src.ino with hs | ⟨hc, -⟩
          · exact hs
          · exact absurd rfl (hr.replaced _ hc).1
        exact hsame.trans hfile
    have hdir : OnlyDir d p' := by
      have hnew : (⟨name', p', src.ino⟩ : Dentry) ∈ d.dentries := hentries ▸ (mem_renamed h.wf hr).mpr (.inr rfl)
      exact hstart.parents _ hnew
    rw [he]
    refine (cascadeRename_keeps (I := fun e => Mapped e ∧ e.nextIno = d.nextIno) hwf hp hr.apart ⟨hstart, rfl⟩ ?_).1
    rintro s - e hewf ⟨hI, hnext⟩ hrows - -
    have hpe : p' < e.nextIno := hnext ▸ hp
    have hdire : OnlyDir e p' := onlyDir_of_sort (sortOf_congr hrows) hdir
    exact ⟨renameDerived_mapped hI hpe hdire, (hewf.renameDerived hpe _ _).2.trans hnext⟩

/-! ### Operations on contents -/

/-- What leaves the tree alone leaves the mapped files. -/
theorem Mapped.sameTree (h : Mapped db) (hs : SameTree db db') : Mapped db' := by
  refine h.same (hs.wf h.wf) (fun d hd => ?_) hs.remotes fun i _ => hs.sorts i
  exact onlyDir_of_sort (hs.sorts _) (h.parents d (hs.dentries ▸ hd))

end Lemmas

/-! ### Runs -/

section Run

variable {db : Db} {online : Bool}

theorem step_mapped {t : Db} {a : ℤ × Call} (h : Mapped db) (hok : MapOk online db a)
    (hst : callStep online db a = some t) : Mapped t := by
  obtain ⟨nowMs, call⟩ := a
  cases hst
  cases call with
  | tree op =>
    cases op with
    | name op =>
      cases op with
      | mkdir p n => exact mkdir_mapped h
      | rmdir p n => exact rmdir_mapped h
      | createFile p n => exact createFile_mapped h
      | unlink p n => exact unlink_mapped h
      | symlink p n target => exact symlink_mapped h
      | link i p n => exact link_mapped h
      | rename p n p' n' => exact rename_mapped h hok
    | ensureDirs path =>
      have hdirs : PathOn .dirs db ROOT_INO (components path) := pathOn_dirs.mpr hok
      show Mapped (ensureParts db ROOT_INO (components path)).1
      exact keeps_edits (fun _ _ hd he => hd.edit he) h (ensureParts_edits h.wf (.inl rfl) hdirs fun _ _ => trivial).1
    | reconcileOne doc => exact reconcileOne_mapped h hok.1 hok.2
    | applyDeletion rid => exact applyDeletion_mapped h
  | write f offset data => exact h.sameTree (write_sameTree h.wf.bounded)
  | truncate f size => exact h.sameTree truncate_sameTree
  | flush f => exact h.sameTree flush_sameTree
  | setattr i size => exact h.sameTree setattr_sameTree

/-- In every run whose steps meet the condition, what is mapped is a regular
file of the user, a pull that meets it replaces the content of no other, and
`apply_deletion` removes nothing that has entries. -/
theorem reachable_mapped (h : Reach (callStep online) (MapOk online) .fresh db) :
    (∀ r ∈ db.remotes, UserFile db r.ino) ∧
    (∀ nowMs doc, MapOk online db (nowMs, .tree (.reconcileOne doc)) → ∀ d i, rewriteCall db doc = some (d, i) →
      UserFile d i) ∧
    ∀ rid i, db.inoByRemoteId rid = some i → (applyDeletion db rid).1 = true → ∀ d ∈ db.dentries, d.parentIno ≠ i := by
  have hinv : Mapped db := h.inv .start fun _ _ _ hI hok hst => step_mapped hI hok hst
  refine ⟨hinv.files, fun _ doc hok d i hcall => rewriteCall_file hinv hok.2 hcall, fun rid i hi _ => ?_⟩
  obtain ⟨r, hr, rfl⟩ := Option.map_eq_some_iff.mp hi
  exact hinv.bare (List.mem_of_find?_eq_some hr)

/-- A text document in the root. -/
def note (filepath updatedAt : String) : Document := ⟨"d1", some filepath, some [104], "done", updatedAt, none, none⟩

theorem note_dir : dirOf (note "/a.md" "2025-01-01T00:00:00Z") = [] ∧
    dirOf (note "/a.md" "2025-01-02T00:00:00Z") = [] := by
  rw [← dirOf_eq, ← dirOf_eq]
  decide

/-- A document is pulled, and its next version replaces the content of the same file. -/
theorem reachable_mapped_note : ∃ db, Reach (callStep true) (MapOk true) .fresh db ∧ db.inoByRemoteId "d1" = some 2 ∧
    (∀ r ∈ db.remotes, UserFile db r.ino) ∧ (∀ d ∈ db.dentries, d.parentIno ≠ 2) ∧
    ∃ d, rewriteCall db (note "/a.md" "2025-01-02T00:00:00Z") = some (d, 2) ∧ UserFile d 2 := by
  obtain ⟨hdir, hdir'⟩ := note_dir
  have hroot : OnlyDir .fresh 1 := by
    intro x hx
    cases hx
    rfl
  have hpull : Reach (callStep true) (MapOk true) .fresh (reconcileOne .fresh (note "/a.md" "2025-01-01T00:00:00Z") 0).2 := by
    refine Reach.start.next (a := (0, .tree (.reconcileOne (note "/a.md" "2025-01-01T00:00:00Z")))) ⟨fun _ => ?_, ?_⟩ rfl
    · rw [hdir]
      exact hroot
    · intro _ _ last j hst hj
      rw [hdir] at hst
      cases hst
      cases hj
  obtain ⟨hfiles, hcall, hbare⟩ := reachable_mapped hpull
  have hok : MapOk true (reconcileOne .fresh (note "/a.md" "2025-01-01T00:00:00Z") 0).2
      (0, .tree (.reconcileOne (note "/a.md" "2025-01-02T00:00:00Z"))) := by
    have hmapped : (reconcileOne .fresh (note "/a.md" "2025-01-01T00:00:00Z") 0).2.inoByRemoteId "d1" =
      some 2 := by decide
    refine ⟨fun _ => ?_, fun hnone => ?_⟩
    · rw [hdir']
      intro x hx
      have hkind : (reconcileOne .fresh (note "/a.md" "2025-01-01T00:00:00Z") 0).2.getInode ROOT_INO =
          some rootInode := by decide
      rw [hkind] at hx
      cases hx
      rfl
    · rw [show (note "/a.md" "2025-01-02T00:00:00Z").id = "d1" from rfl, hmapped] at hnone
      cases hnone
  have hsome : ∃ d, rewriteCall (reconcileOne .fresh (note "/a.md" "2025-01-01T00:00:00Z") 0).2
      (note "/a.md" "2025-01-02T00:00:00Z") = some (d, 2) := ⟨_, rfl⟩
  obtain ⟨d, hd⟩ := hsome
  exact ⟨_, hpull, by decide, hfiles, hbare "d1" 2 (by decide) (by decide), d, hd, hcall 0 _ hok d 2 hd⟩

/-- A document comes whose path is that of a directory. -/
theorem directory_mapped : ¬ ∀ db, Reach (callStep true) anyStep .fresh db → ∀ r ∈ db.remotes, UserFile db r.ino := by
  intro hall
  obtain ⟨db, hreach, hdb⟩ : ∃ db, Reach (callStep true) anyStep .fresh db ∧
      decide (∃ r ∈ db.remotes, ¬ UserFile db r.ino) = true :=
    Reach.exists_of_run [(0, .tree (.name (.mkdir 1 "d"))),
      (0, .tree (.reconcileOne (note "/d" "2025-01-01T00:00:00Z")))]
      (by decide)
  obtain ⟨r, hr, hno⟩ := of_decide_eq_true hdb
  exact hno (hall db hreach r hr)

end Run

end Cache
end Smfs
