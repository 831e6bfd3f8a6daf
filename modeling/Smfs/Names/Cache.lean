/-
# The cache as a tree

The operations that change inodes and names: those of the file system, and
what a pull does (`ensure_dirs`, `reconcile_one`, `apply_deletion`). Whatever
an operation on names does, names are distinct, the root is a directory without
a name, and derived files are regular (`WellFormed`).

Key definitions: `Cache.Op`, `Cache.step`, `Cache.WellFormed`.
Key theorems: `Cache.rename_cases`, `Cache.name_wf`.
-/
import Smfs.Lib.Reach
import Smfs.Names
import Smfs.Reconcile.Mapping

namespace Smfs
namespace Cache

open Db Fs

/-- An operation on the tree of the cache. -/
inductive Op
  | name (op : NameOp)
  | ensureDirs (path : String)
  | reconcileOne (doc : Document)
  | applyDeletion (remoteId : String)
  deriving DecidableEq

def Op.apply (db : Db) (online : Bool) (nowMs : ℤ) : Op → Db
  | .name op => (op.apply db online nowMs).2
  | .ensureDirs path => (Fs.ensureDirs db path).1
  | .reconcileOne doc => (Fs.reconcileOne db doc nowMs).2
  | .applyDeletion remoteId => (Fs.applyDeletion db remoteId).2

/-- An operation at a time. -/
def step (online : Bool) (db : Db) (a : ℤ × Op) : Option Db := some (a.2.apply db online a.1)

/-- The kind of an inode, and whether it is derived. -/
def sortOf (db : Db) (i : Ino) : Option (FileKind × Bool) := (db.getInode i).map fun x => (x.kind, x.derived)

/-- What holds of the tables whatever is done. -/
structure WellFormed (db : Db) : Prop where
  bounded : db.Bounded
  distinct : (db.dentries.map nameOf).Nodup
  top : ∀ d ∈ db.dentries, d.ino ≠ ROOT_INO
  parents : ∀ d ∈ db.dentries, d.parentIno < db.nextIno
  root : sortOf db ROOT_INO = some (.dir, false)
  derived : ∀ i, sortOf db i ≠ some (.dir, true) ∧ sortOf db i ≠ some (.lnk, true)

/-- The root, or an inode with a name. -/
def Named (db : Db) (i : Ino) : Prop := i = ROOT_INO ∨ ∃ d ∈ db.dentries, d.ino = i

/-- Nothing but a directory, if anything. -/
def OnlyDir (db : Db) (i : Ino) : Prop := ∀ x, db.getInode i = some x → x.kind = .dir

/-- The directory that one round of `ensure_dirs` makes. -/
def newDir (db : Db) (name : String) (p : Ino) : Db :=
  ((db.addInode .dir 2 0 false).1.addDentry name p db.nextIno).updInode p fun i => { i with nlink := i.nlink + 1 }

/-- `unlink` passes its checks. -/
structure Unlinks (db : Db) (p : Ino) (name : String) (x : Inode) : Prop where
  valid : validateName name = .ok ()
  profile : ¬ (p = ROOT_INO ∧ name = PROFILE_NAME)
  source : childInode db p name = some x
  file : x.kind ≠ .dir

/-- `rename` passes its checks, and moves the entry of the inode. -/
structure Renames (db : Db) (p : Ino) (name : String) (p' : Ino) (name' : String) (src : Inode) : Prop where
  valid : validateName name = .ok () ∧ validateName name' = .ok ()
  source : childInode db p name = some src
  parent : ∃ x, db.getInode p' = some x ∧ x.kind = .dir
  replaced : ∀ j, db.childIno p' name' = some j → j ≠ src.ino ∧ ∃ dst, db.getInode j = some dst ∧
    mayReplace db src dst = .ok ()

/-- The tables once what was replaced is gone and the entry has moved. -/
def renamedTables (db : Db) (p : Ino) (name : String) (p' : Ino) (name' : String) : Db :=
  match db.childIno p' name' with
  | none => moveChild db p name p' name'
  | some j => moveChild (purge (db.delChild p' name') j) p name p' name'

/-- The create that is queued for the old path goes to the new one. -/
def carriesCreate (db : Db) (p : Ino) (name : String) : Prop :=
  ∃ fp, childPath db p name = some fp ∧ (db.queue.get fp).any PushQueue.retargetable = true

/-- What `rename` has done before its rounds: the queue is told, and the
document of what was replaced is mapped where a queued create is carried along. -/
inductive Pushed (db : Db) (online : Bool) (p : Ino) (name : String) (p' : Ino) (name' : String) (i : Ino) : Db → Prop
  | queued (q : PushQueue) : Pushed db online p name p' name' i { renamedTables db p name p' name' with queue := q }
  | carried {q : PushQueue} {j : Ino} {rid : String} (client : online = true) (carries : carriesCreate db p name)
      (replaced : db.childIno p' name' = some j) (mapped : db.getRemoteId j = some rid) :
      Pushed db online p name p' name' i (({ renamedTables db p name p' name' with queue := q } : Db).setRemoteId i rid)

section Lemmas

variable {db db' : Db} {i j p : Ino} {name : String}

/-! ### Sorts -/

theorem sortOf_updInode {f : Inode → Inode} (hf : ∀ x, (f x).ino = x.ino)
    (hs : ∀ x, ((f x).kind, (f x).derived) = (x.kind, x.derived)) : sortOf (db.updInode i f) j = sortOf db j := by
  unfold sortOf
  rw [getInode_updInode hf]
  split_ifs with hj
  · rw [hj, Option.map_map]
    exact congrFun (congrArg Option.map (funext hs)) _
  · rfl

theorem sortOf_updNlink {f : ℤ → ℤ} : sortOf (db.updInode i fun x => { x with nlink := f x.nlink }) j =
    sortOf db j := by
  have hf : ∀ x : Inode, ({ x with nlink := f x.nlink } : Inode).ino = x.ino := fun _ => rfl
  exact sortOf_updInode hf fun _ => rfl

theorem sortOf_addInode {kind : FileKind} {nlink size : ℤ} {derived : Bool} (h : db.Bounded) :
    sortOf (db.addInode kind nlink size derived).1 j =
      if j = db.nextIno then some (kind, derived) else sortOf db j := by
  unfold sortOf
  rw [h.getInode_addInode]
  split_ifs <;> rfl

theorem sortOf_delInode : sortOf (db.delInode i) j = if j = i then none else sortOf db j := by
  unfold sortOf
  rw [getInode_delInode]
  split_ifs <;> rfl

theorem sortOf_congr (h : db'.inodes = db.inodes) : sortOf db' i = sortOf db i := by
  unfold sortOf Db.getInode
  rw [h]

theorem sortOf_rewrite {content : Bytes} : sortOf (rewriteFileContent db i content) j = sortOf db j := by
  have hf : ∀ x : Inode, ({ x with size := content.length } : Inode).ino = x.ino := fun _ => rfl
  unfold rewriteFileContent
  rw [sortOf_updInode hf fun _ => rfl]
  exact sortOf_congr rfl

theorem onlyDir_of_sort (h : sortOf db' i = sortOf db i) (hd : OnlyDir db i) : OnlyDir db' i := by
  intro x hx
  unfold sortOf at h
  rw [hx] at h
  obtain ⟨y, hy, he⟩ := Option.map_eq_some_iff.mp h.symm
  have hkind : y.kind = x.kind := congrArg Prod.fst he
  rw [← hkind]
  exact hd y hy

/-! ### Names -/

theorem childIno_mem {d : Dentry} (h : (db.dentries.map nameOf).Nodup) (hd : d ∈ db.dentries) :
    db.childIno d.parentIno d.name = some d.ino := by
  unfold Db.childIno
  rw [child_eq]
  have hget : Table.get nameOf db.dentries (nameOf d) = some d := Table.get_of_mem h hd
  exact congrArg (Option.map Dentry.ino) hget

theorem childIno_none (h : db.childIno p name = none) {d : Dentry} (hd : d ∈ db.dentries) : nameOf d ≠ (p, name) := by
  rintro he
  have hsome := childIno_isSome hd
  rw [show d.parentIno = p from congrArg Prod.fst he, show d.name = name from congrArg Prod.snd he, h] at hsome
  cases hsome

theorem named_of_child (h : db.childIno p name = some i) : Named db i := .inr ⟨_, childIno_some h, rfl⟩

theorem Named.mono (h : Named db i) (hd : db.dentries ⊆ db'.dentries) : Named db' i := by
  rcases h with rfl | ⟨d, hm, rfl⟩
  · exact .inl rfl
  · exact .inr ⟨d, hd hm, rfl⟩

theorem WellFormed.root_lt (h : WellFormed db) : ROOT_INO < db.nextIno := by
  obtain ⟨x, hx, -⟩ := Option.map_eq_some_iff.mp h.root
  exact h.bounded.getInode hx

theorem WellFormed.named_lt (h : WellFormed db) (hi : Named db i) : i < db.nextIno := by
  rcases hi with rfl | ⟨d, hd, rfl⟩
  · exact h.root_lt
  · exact h.bounded.dentries d hd

/-! ### What every change keeps -/

theorem WellFormed.start : WellFormed .fresh where
  bounded := ⟨by decide, by decide, by decide, by decide, by decide⟩
  distinct := by decide
  top := by decide
  parents := by decide
  root := by decide
  derived := by
    intro i
    by_cases h : ROOT_INO = i
    · subst h
      decide
    · have hnone : sortOf .fresh i = none := by
        show (Table.get Inode.ino [rootInode] i).map _ = none
        rw [Table.get_cons, if_neg (show ¬ rootInode.ino = i from h)]
        rfl
      rw [hnone]
      exact ⟨by simp, by simp⟩

/-- The entries stay, and so do the sorts. -/
theorem WellFormed.congr (h : WellFormed db) (hb : db'.Bounded) (hd : db'.dentries = db.dentries)
    (hn : db'.nextIno = db.nextIno) (hs : ∀ j, sortOf db' j = sortOf db j) : WellFormed db' := by
  refine ⟨hb, ?_, ?_, ?_, (hs _).trans h.root, fun j => ?_⟩
  · rw [hd]
    exact h.distinct
  · rw [hd]
    exact h.top
  · rw [hd, hn]
    exact h.parents
  · rw [hs]
    exact h.derived j

theorem WellFormed.addInode {kind : FileKind} {nlink size : ℤ} {derived : Bool} (h : WellFormed db)
    (hk : derived = true → kind = .reg) : WellFormed (db.addInode kind nlink size derived).1 := by
  refine ⟨h.bounded.addInode, h.distinct, h.top, fun d hd => (h.parents d hd).trans (Nat.lt_succ_self _),
    ?_, fun j => ?_⟩
  · rw [sortOf_addInode h.bounded, if_neg h.root_lt.ne]
    exact h.root
  · rw [sortOf_addInode h.bounded]
    split_ifs
    · cases derived with
      | false => exact ⟨by simp, by simp⟩
      | true =>
        rw [hk rfl]
        exact ⟨by simp, by simp⟩
    · exact h.derived j

theorem WellFormed.addDentry (h : WellFormed db) (hfree : db.childIno p name = none) (hp : p < db.nextIno)
    (hi : i < db.nextIno) (hr : i ≠ ROOT_INO) : WellFormed (db.addDentry name p i) := by
  refine ⟨h.bounded.addDentry hi, ?_, fun d hd => ?_, fun d hd => ?_, h.root, h.derived⟩
  · show ((db.dentries ++ [(⟨name, p, i⟩ : Dentry)]).map nameOf).Nodup
    rw [List.map_append, List.nodup_append]
    refine ⟨h.distinct, List.nodup_singleton _, fun a ha b hb => ?_⟩
    obtain ⟨d, hd, rfl⟩ := List.mem_map.mp ha
    rw [List.mem_singleton.mp hb]
    exact childIno_none hfree hd
  · rcases List.mem_append.mp hd with hd | hd
    · exact h.top d hd
    · rw [List.mem_singleton.mp hd]
      exact hr
  · rcases List.mem_append.mp hd with hd | hd
    · exact h.parents d hd
    · rw [List.mem_singleton.mp hd]
      exact hp

theorem WellFormed.updInode {f : Inode → Inode} (h : WellFormed db) (hf : ∀ x, (f x).ino = x.ino)
    (hs : ∀ x, ((f x).kind, (f x).derived) = (x.kind, x.derived)) : WellFormed (db.updInode i f) :=
  h.congr (h.bounded.updInode hf) rfl rfl fun _ => sortOf_updInode hf hs

/-- A new inode with a new name. -/
theorem WellFormed.create {kind : FileKind} {nlink size : ℤ} {derived : Bool} (h : WellFormed db)
    (hk : derived = true → kind = .reg) (hfree : db.childIno p name = none) (hp : p < db.nextIno) :
    WellFormed ((db.addInode kind nlink size derived).1.addDentry name p db.nextIno) :=
  (h.addInode hk).addDentry hfree (hp.trans (Nat.lt_succ_self _)) (Nat.lt_succ_self _) h.root_lt.ne'

theorem WellFormed.rewrite {content : Bytes} (h : WellFormed db) (hi : i < db.nextIno) :
    WellFormed (rewriteFileContent db i content) :=
  h.congr (rewriteFileContent_bounded h.bounded hi) rfl rfl fun _ => sortOf_rewrite

/-- Entries go. -/
theorem WellFormed.drop (h : WellFormed db) (hb : db'.Bounded) (hd : db'.dentries.Sublist db.dentries)
    (hn : db'.nextIno = db.nextIno) (hs : ∀ j, sortOf db' j = sortOf db j) : WellFormed db' := by
  refine ⟨hb, h.distinct.sublist (hd.map _), fun d hm => h.top d (hd.subset hm), fun d hm => ?_,
    (hs _).trans h.root, fun j => ?_⟩
  · rw [hn]
    exact h.parents d (hd.subset hm)
  · rw [hs]
    exact h.derived j

/-- An inode goes that is not the root. -/
theorem WellFormed.dropInode (h : WellFormed db) (hb : db'.Bounded) (hd : db'.dentries.Sublist db.dentries)
    (hn : db'.nextIno = db.nextIno) (hi : i ≠ ROOT_INO)
    (hs : ∀ j, sortOf db' j = if j = i then none else sortOf db j) : WellFormed db' := by
  refine ⟨hb, h.distinct.sublist (hd.map _), fun d hm => h.top d (hd.subset hm), fun d hm => ?_, ?_, fun j => ?_⟩
  · rw [hn]
    exact h.parents d (hd.subset hm)
  · rw [hs, if_neg (Ne.symm hi)]
    exact h.root
  · rw [hs]
    split_ifs
    · exact ⟨by simp, by simp⟩
    · exact h.derived j

theorem WellFormed.setRemoteId {rid : String} (h : WellFormed db) (hi : i < db.nextIno) :
    WellFormed (db.setRemoteId i rid) :=
  h.congr (h.bounded.setRemoteId hi) rfl rfl fun _ => sortOf_congr rfl

/-- An entry moves on a pull. -/
theorem WellFormed.moveDentries (h : WellFormed db) (hp : p < db.nextIno)
    (hm : Fs.moveDentries db i p name = some db') : WellFormed db' := by
  have hb := moveDentries_bounded h.bounded hm
  unfold Fs.moveDentries at hm
  split_ifs at hm with hno
  cases hm
  push Not at hno
  obtain ⟨hone, hfree⟩ := hno
  have hmove {d : Dentry} (hd : d ∈ db.dentries) (he : d.ino ≠ i) : nameOf d ≠ (p, name) := fun hk =>
    hfree d hd he (congrArg Prod.fst hk) (congrArg Prod.snd hk)
  refine ⟨hb, ?_, fun d hd => ?_, fun d hd => ?_, h.root, h.derived⟩
  · -- one entry changes, to a name that no other entry has
    have hnodup : (db.dentries.map fun d => if d.ino = i then (p, name) else nameOf d).Nodup := by
      refine List.Nodup.map_on (fun x hx y hy he => ?_) (List.Nodup.of_map _ h.distinct)
      by_cases hxi : x.ino = i <;> by_cases hyi : y.ino = i
      · by_contra hxy
        have htwo : [x, y].Subperm (db.dentries.filter fun d => d.ino = i) := by
          refine List.subperm_of_subset (by simpa using hxy) fun z hz => ?_
          rcases List.mem_cons.mp hz with rfl | hz
          · exact List.mem_filter.mpr ⟨hx, decide_eq_true hxi⟩
          · obtain rfl := List.mem_singleton.mp hz
            exact List.mem_filter.mpr ⟨hy, decide_eq_true hyi⟩
        exact absurd htwo.length_le (by simpa using hone)
      · rw [if_pos hxi, if_neg hyi] at he
        exact absurd he.symm (hmove hy hyi)
      · rw [if_neg hxi, if_pos hyi] at he
        exact absurd he (hmove hx hxi)
      · rw [if_neg hxi, if_neg hyi] at he
        exact List.inj_on_of_nodup_map h.distinct hx hy he
    have hmap : (Table.modify Dentry.ino db.dentries i fun d => { d with parentIno := p, name := name }).map nameOf =
        db.dentries.map fun d => if d.ino = i then (p, name) else nameOf d := by
      unfold Table.modify
      rw [List.map_map]
      refine List.map_congr_left fun d _ => ?_
      simp only [Function.comp_apply]
      split_ifs <;> rfl
    rw [← hmap] at hnodup
    exact hnodup
  · obtain ⟨x, hx, rfl⟩ := Table.mem_modify.mp hd
    have := h.top x hx
    split_ifs <;> exact this
  · obtain ⟨x, hx, rfl⟩ := Table.mem_modify.mp hd
    split_ifs
    · exact hp
    · exact h.parents x hx

/-! ### The operations on names -/

theorem vacant_ok (h : vacant db p name = .ok ()) :
    (∃ x, db.getInode p = some x ∧ x.kind = .dir) ∧ db.childIno p name = none := by
  unfold vacant at h
  split at h
  · cases h
  · rename_i x hx
    split_ifs at h with hd hc
    refine ⟨⟨x, hx, not_not.mp hd⟩, ?_⟩
    unfold Db.childIno
    rw [Option.not_isSome_iff_eq_none.mp hc]
    rfl

theorem childInode_named {x : Inode} (h : childInode db p name = some x) : db.childIno p name = some x.ino ∧
    db.getInode x.ino = some x := by
  obtain ⟨k, hk, hx⟩ := Option.bind_eq_some_iff.mp h
  obtain rfl := getInode_ino hx
  exact ⟨hk, hx⟩

/-- What is derived is a regular file. -/
theorem WellFormed.derived_reg {kind : FileKind} (h : WellFormed db) (hs : sortOf db i = some (kind, true)) :
    sortOf db i = some (.reg, true) := by
  obtain ⟨hdir, hlnk⟩ := h.derived i
  cases kind with
  | reg => exact hs
  | dir => exact absurd hs hdir
  | lnk => exact absurd hs hlnk

theorem WellFormed.ne_root (h : WellFormed db) (hc : db.childIno p name = some i) : i ≠ ROOT_INO :=
  h.top _ (childIno_some hc)

theorem WellFormed.delChild (h : WellFormed db) (p : Ino) (name : String) : WellFormed (db.delChild p name) :=
  h.drop (h.bounded.of_subset rfl (List.Subset.refl _) (List.filter_subset_self _) (List.Subset.refl _)
    (List.Sublist.refl _)) List.filter_sublist rfl fun _ => rfl

theorem WellFormed.delInode (h : WellFormed db) (hi : i ≠ ROOT_INO) : WellFormed (db.delInode i) :=
  h.dropInode (h.bounded.of_subset rfl (Table.erase_sublist _ _).subset (List.Subset.refl _) (List.Subset.refl _)
    (List.Sublist.refl _)) (List.Sublist.refl _) rfl hi fun _ => sortOf_delInode

theorem WellFormed.delData (h : WellFormed db) : WellFormed (db.delData i) :=
  h.congr h.bounded.delData rfl rfl fun _ => rfl

theorem WellFormed.purge (h : WellFormed db) (hi : i ≠ ROOT_INO) : WellFormed (purge db i) :=
  h.dropInode (h.bounded.of_subset rfl (Table.erase_sublist _ _).subset (List.Subset.refl _)
    (List.filter_subset_self _) (Table.erase_sublist _ _)) (List.Sublist.refl _) rfl hi fun _ => sortOf_delInode

theorem WellFormed.updNlink {f : ℤ → ℤ} (h : WellFormed db) :
    WellFormed (db.updInode i fun x => { x with nlink := f x.nlink }) :=
  h.updInode (fun _ => rfl) fun _ => rfl

theorem WellFormed.moveChild {p' : Ino} {name' : String} (h : WellFormed db) (hp : p' < db.nextIno)
    (hfree : db.childIno p' name' = none) : WellFormed (moveChild db p name p' name') := by
  have hb : (Fs.moveChild db p name p' name').Bounded := by
    refine ⟨h.bounded.inodes, fun d hd => ?_, h.bounded.data, h.bounded.remotes, h.bounded.sorted⟩
    obtain ⟨x, hx, rfl⟩ := List.mem_map.mp hd
    have := h.bounded.dentries x hx
    split_ifs <;> exact this
  refine ⟨hb, ?_, fun d hd => ?_, fun d hd => ?_, h.root, h.derived⟩
  · have hnodup : (db.dentries.map fun d => if nameOf d = (p, name) then (p', name') else nameOf d).Nodup := by
      refine List.Nodup.map_on (fun x hx y hy he => ?_) (List.Nodup.of_map _ h.distinct)
      by_cases hxn : nameOf x = (p, name) <;> by_cases hyn : nameOf y = (p, name)
      · exact List.inj_on_of_nodup_map h.distinct hx hy (hxn.trans hyn.symm)
      · rw [if_pos hxn, if_neg hyn] at he
        exact absurd he.symm (childIno_none hfree hy)
      · rw [if_neg hxn, if_pos hyn] at he
        exact absurd he (childIno_none hfree hx)
      · rw [if_neg hxn, if_neg hyn] at he
        exact List.inj_on_of_nodup_map h.distinct hx hy he
    have hmap : (Fs.moveChild db p name p' name').dentries.map nameOf =
        db.dentries.map fun d => if nameOf d = (p, name) then (p', name') else nameOf d := by
      rw [moveChild_eq]
      show (Table.modify nameOf _ _ _).map nameOf = _
      unfold Table.modify
      rw [List.map_map]
      refine List.map_congr_left fun d _ => ?_
      simp only [Function.comp_apply]
      split_ifs <;> rfl
    rw [hmap]
    exact hnodup
  · obtain ⟨x, hx, rfl⟩ := List.mem_map.mp hd
    have := h.top x hx
    split_ifs <;> exact this
  · obtain ⟨x, hx, rfl⟩ := List.mem_map.mp hd
    split_ifs
    · exact hp
    · exact h.parents x hx

theorem WellFormed.removeDerived (h : WellFormed db) : WellFormed (removeDerivedSibling db p name) := by
  unfold removeDerivedSibling
  split
  · exact h
  · rename_i x hx
    split_ifs
    · exact ((h.delChild p name).delData).delInode (h.ne_root (childInode_named hx).1)
    · exact h

theorem WellFormed.renameDerived {p' : Ino} (h : WellFormed db) (hp : p' < db.nextIno) (name name' : String) :
    WellFormed (renameDerivedSibling db p name p' name') ∧
      (renameDerivedSibling db p name p' name').nextIno = db.nextIno := by
  unfold renameDerivedSibling
  split
  · exact ⟨h, rfl⟩
  · rename_i x hx
    split_ifs
    · cases hm : Fs.moveDentries (db.delChild p' name') x.ino p' name' with
      | none => exact ⟨h.delChild p' name', rfl⟩
      | some d' =>
        refine ⟨(h.delChild p' name').moveDentries hp hm, ?_⟩
        unfold Fs.moveDentries at hm
        split_ifs at hm
        cases hm
        rfl
    · exact ⟨h, rfl⟩

theorem WellFormed.cascadeUnlink (h : WellFormed db) : WellFormed (cascadeUnlinkDerivedSiblings db p name) := by
  unfold cascadeUnlinkDerivedSiblings
  generalize derivedSiblingSuffixes = suffixes
  induction suffixes generalizing db with
  | nil => exact h
  | cons suffix suffixes ih => exact ih h.removeDerived

theorem WellFormed.cascadeRename {p' : Ino} {name' : String} (h : WellFormed db) (hp : p' < db.nextIno) :
    WellFormed (cascadeRenameDerivedSiblings db p name p' name') := by
  unfold cascadeRenameDerivedSiblings
  generalize derivedSiblingSuffixes = suffixes
  induction suffixes generalizing db with
  | nil => exact h
  | cons suffix suffixes ih =>
    obtain ⟨hwf, hn⟩ := h.renameDerived (p := p) hp (name ++ suffix) (name' ++ suffix)
    exact ih hwf (by rw [hn]; exact hp)

theorem WellFormed.unlinkTables {x : Inode} (h : WellFormed db) (hx : x.ino ≠ ROOT_INO) :
    WellFormed (unlinkTables db p name x) := by
  unfold Fs.unlinkTables
  dsimp only
  have hdel : WellFormed ((db.delChild p name).updInode x.ino fun i => { i with nlink := i.nlink - 1 }) :=
    (h.delChild p name).updNlink (f := fun n => n - 1)
  split_ifs
  · exact hdel.purge hx
  · exact hdel

theorem WellFormed.queue {q : PushQueue} (h : WellFormed db) : WellFormed { db with queue := q } :=
  h.congr ⟨h.bounded.inodes, h.bounded.dentries, h.bounded.data, h.bounded.remotes,
    h.bounded.sorted⟩ rfl rfl fun _ => rfl

/-! ### What an operation can do -/

theorem mkdir_cases (db : Db) (p : Ino) (name : String) : (mkdir db p name).2 = db ∨
    validateName name = .ok () ∧ vacant db p name = .ok () ∧ (mkdir db p name).2 = newDir db name p := by
  unfold mkdir
  cases hv : validateName name with
  | error e => exact .inl rfl
  | ok _ =>
    cases hvac : vacant db p name with
    | error e => exact .inl rfl
    | ok _ => exact .inr ⟨rfl, rfl, rfl⟩

theorem createFile_cases (db : Db) (online : Bool) (p : Ino) (name : String) : (createFile db online p name).2 = db ∨
    validateName name = .ok () ∧ vacant db p name = .ok () ∧
      (createFile db online p name).2 = (db.addInode .reg 1 0 false).1.addDentry name p db.nextIno := by
  rw [createFile_eq]
  cases hv : validateName name with
  | error e => exact .inl rfl
  | ok _ =>
    cases hvac : vacant db p name with
    | error e => exact .inl rfl
    | ok _ => exact .inr ⟨rfl, rfl, rfl⟩

theorem symlink_cases (db : Db) (p : Ino) (name target : String) : (symlink db p name target).2 = db ∨
    validateName name = .ok () ∧ vacant db p name = .ok () ∧ (symlink db p name target).2 =
      (addSymlink (db.addInode .lnk 1 target.utf8ByteSize false).1 db.nextIno target).addDentry name p db.nextIno := by
  unfold symlink
  cases hv : validateName name with
  | error e => exact .inl rfl
  | ok _ =>
    cases hvac : vacant db p name with
    | error e => exact .inl rfl
    | ok _ => exact .inr ⟨rfl, rfl, rfl⟩

theorem link_cases (db : Db) (i p : Ino) (name : String) : (link db i p name).2 = db ∨
    ∃ x, validateName name = .ok () ∧ db.getInode i = some x ∧ x.kind ≠ .dir ∧ vacant db p name = .ok () ∧
      (link db i p name).2 = (db.updInode i fun x => { x with nlink := x.nlink + 1 }).addDentry name p i := by
  unfold link
  cases hv : validateName name with
  | error e => exact .inl rfl
  | ok _ =>
    cases hx : db.getInode i with
    | none => exact .inl rfl
    | some x =>
      dsimp only
      by_cases hd : x.kind = .dir
      · rw [if_pos hd]
        exact .inl rfl
      · rw [if_neg hd]
        cases hvac : vacant db p name with
        | error e => exact .inl rfl
        | ok _ => exact .inr ⟨x, rfl, rfl, hd, rfl, rfl⟩

theorem rmdir_cases (db : Db) (p : Ino) (name : String) : (rmdir db p name).2 = db ∨
    ∃ x, validateName name = .ok () ∧ childInode db p name = some x ∧ x.kind = .dir ∧
      (∀ d ∈ db.dentries, d.parentIno ≠ x.ino) ∧
      (rmdir db p name).2 = ((db.delChild p name).delInode x.ino).updInode p fun y =>
        { y with nlink := max (y.nlink - 1) 2 } := by
  unfold rmdir
  cases hv : validateName name with
  | error e => exact .inl rfl
  | ok _ =>
    cases hx : childInode db p name with
    | none => exact .inl rfl
    | some x =>
      dsimp only
      by_cases hd : x.kind = .dir
      · rw [if_neg (not_not.mpr hd)]
        by_cases hentries : (db.dentries.filter fun d => d.parentIno = x.ino).length > 0
        · rw [if_pos hentries]
          exact .inl rfl
        · rw [if_neg hentries]
          refine .inr ⟨x, rfl, rfl, hd, fun d hm he => hentries ?_, rfl⟩
          exact List.length_pos_iff_exists_mem.mpr ⟨d, List.mem_filter.mpr ⟨hm, decide_eq_true he⟩⟩
      · rw [if_pos hd]
        exact .inl rfl

theorem unlinkEnqueue_cases (db : Db) (online : Bool) (fp : Option String) (i : Ino) (nowMs : ℤ) :
    ∃ q, unlinkEnqueue db online fp i nowMs = { db with queue := q } := by
  unfold unlinkEnqueue
  split
  · exact ⟨_, rfl⟩
  · exact ⟨db.queue, rfl⟩

theorem unlink_cases (db : Db) (online : Bool) (p : Ino) (name : String) (nowMs : ℤ) :
    (unlink db online p name nowMs).2 = db ∨
      ∃ x q, Unlinks db p name x ∧
        (unlink db online p name nowMs).2 =
          cascadeUnlinkDerivedSiblings { unlinkTables db p name x with queue := q } p name := by
  unfold unlink
  cases hv : validateName name with
  | error e => exact .inl rfl
  | ok _ =>
    dsimp only
    by_cases hprofile : p = ROOT_INO ∧ name = PROFILE_NAME
    · rw [if_pos (by simpa using hprofile)]
      exact .inl rfl
    · rw [if_neg (by simpa using hprofile)]
      cases hx : childInode db p name with
      | none => exact .inl rfl
      | some x =>
        dsimp only
        by_cases hd : x.kind = .dir
        · rw [if_pos hd]
          exact .inl rfl
        · rw [if_neg hd]
          obtain ⟨q, hq⟩ := unlinkEnqueue_cases (unlinkTables db p name x) online (childPath db p name) x.ino nowMs
          rw [hq]
          exact .inr ⟨x, q, ⟨hv, hprofile, hx, hd⟩, rfl⟩

theorem renameTables_cases {src : Inode} {p' : Ino} {name' : String} {r : Renamed}
    (h : renameTables db src p name p' name' = .ok (some r)) : r.db = renamedTables db p name p' name' ∧
      (∀ j, db.childIno p' name' = some j → j ≠ src.ino ∧ ∃ dst, db.getInode j = some dst ∧
        mayReplace db src dst = .ok ()) ∧ r.dstRemoteId = (db.childIno p' name').bind db.getRemoteId := by
  unfold renameTables at h
  unfold renamedTables
  cases hj : db.childIno p' name' with
  | none =>
    rw [hj] at h
    cases h
    exact ⟨rfl, fun _ he => (nomatch he), rfl⟩
  | some j =>
    rw [hj] at h
    dsimp only at h
    by_cases hne : j = src.ino
    · rw [if_pos hne] at h
      cases h
    · rw [if_neg hne] at h
      cases hdst : db.getInode j with
      | none =>
        rw [hdst] at h
        cases h
      | some dst =>
        rw [hdst] at h
        dsimp only at h
        cases hr : mayReplace db src dst with
        | error e =>
          rw [hr] at h
          cases h
        | ok _ =>
          rw [hr] at h
          cases h
          refine ⟨rfl, fun k hk => ?_, rfl⟩
          cases hk
          exact ⟨hne, dst, hdst, hr⟩

/-- The queue changes, and the document of what was replaced is mapped where
a queued create was carried along. -/
theorem renamePush_cases {r : Renamed} (online : Bool) (i : Ino) (oldFp newFp dstFp : Option String) (nowMs : ℤ) :
    ∃ q, renamePush r online i oldFp newFp dstFp nowMs = { r.db with queue := q } ∨
      ∃ fp rid, online = true ∧ oldFp = some fp ∧ (r.db.queue.get fp).any PushQueue.retargetable = true ∧
        r.dstRemoteId = some rid ∧
        renamePush r online i oldFp newFp dstFp nowMs = ({ r.db with queue := q } : Db).setRemoteId i rid := by
  unfold renamePush
  split
  · rename_i fp fp'
    unfold renameEnqueue
    dsimp only
    split_ifs with hmoved
    · have hany : (r.db.queue.get fp).any PushQueue.retargetable = true := by
        by_contra hno
        unfold PushQueue.retargetPendingCreate at hmoved
        rw [if_neg hno] at hmoved
        cases hmoved
      cases hrid : r.dstRemoteId with
      | none => exact ⟨_, .inl rfl⟩
      | some rid => exact ⟨_, .inr ⟨fp, rid, rfl, rfl, hany, rfl, rfl⟩⟩
    · exact ⟨_, .inl rfl⟩
  · exact ⟨r.db.queue, .inl rfl⟩

/-- What a rename that passes its checks tells the queue. -/
theorem pushed_of_tables {src : Inode} {p' : Ino} {name' : String} {r : Renamed} (online : Bool) (nowMs : ℤ)
    (h : renameTables db src p name p' name' = .ok (some r)) : Pushed db online p name p' name' src.ino
      (renamePush r online src.ino (childPath db p name) (childPath r.db p' name') (childPath db p' name') nowMs) := by
  obtain ⟨hdb, -, hrid⟩ := renameTables_cases h
  have hqueue : r.db.queue = db.queue := renameTables_queue h
  obtain ⟨q, hpush⟩ := renamePush_cases (r := r) online src.ino (childPath db p name) (childPath r.db p' name')
    (childPath db p' name') nowMs
  rcases hpush with hpush | ⟨fp, rid, hon, hfp, hany, hdst, hpush⟩
  · rw [hpush, hdb]
    exact .queued q
  · rw [hrid] at hdst
    obtain ⟨j, hj, hjr⟩ := Option.bind_eq_some_iff.mp hdst
    rw [hqueue] at hany
    rw [hpush, hdb]
    exact .carried hon ⟨fp, hfp, hany⟩ hj hjr

theorem rename_cases (db : Db) (online : Bool) (p : Ino) (name : String) (p' : Ino) (name' : String) (nowMs : ℤ) :
    (rename db online p name p' name' nowMs).2 = db ∨
      ∃ src d, Renames db p name p' name' src ∧ Pushed db online p name p' name' src.ino d ∧
        (rename db online p name p' name' nowMs).2 = cascadeRenameDerivedSiblings d p name p' name' := by
  unfold rename
  cases hv : validateName name with
  | error e => exact .inl rfl
  | ok _ =>
    cases hv' : validateName name' with
    | error e => exact .inl rfl
    | ok _ =>
      dsimp only
      cases hsrc : db.childIno p name with
      | none => exact .inl rfl
      | some i =>
        cases hpar : db.getInode p' with
        | none => exact .inl rfl
        | some parent =>
          dsimp only
          by_cases hd : parent.kind = .dir
          · rw [if_neg (not_not.mpr hd)]
            cases hx : db.getInode i with
            | none => exact .inl rfl
            | some src =>
              obtain rfl := getInode_ino hx
              dsimp only
              cases ht : renameTables db src p name p' name' with
              | error e => exact .inl rfl
              | ok o =>
                cases o with
                | none => exact .inl rfl
                | some r =>
                  have hchild : childInode db p name = some src := by
                    unfold childInode
                    rw [hsrc]
                    exact hx
                  exact .inr ⟨src, _, ⟨⟨hv, hv'⟩, hchild, ⟨parent, hpar, hd⟩, (renameTables_cases ht).2.1⟩,
                    pushed_of_tables online nowMs ht, rfl⟩
          · rw [if_pos hd]
            exact .inl rfl

theorem applyDeletion_cases (db : Db) (rid : String) : (applyDeletion db rid).2 = db ∨
    ∃ i d, db.inoByRemoteId rid = some i ∧ db.getDirtySince i = none ∧ db.dentryOf i = some d ∧
      (applyDeletion db rid).2 = (((db.delDentriesOf i).delData i).delInode i).deleteRemoteId i := by
  unfold applyDeletion
  cases hi : db.inoByRemoteId rid with
  | none => exact .inl rfl
  | some i =>
    dsimp only
    by_cases hd : (db.getDirtySince i).isSome = true
    · rw [if_pos hd]
      exact .inl rfl
    · rw [if_neg hd]
      cases hdent : db.dentryOf i with
      | none => exact .inl rfl
      | some d => exact .inr ⟨i, d, rfl, Option.not_isSome_iff_eq_none.mp hd, hdent, rfl⟩

end Lemmas

/-! ### Runs -/

section Run

variable {db : Db} {online : Bool} {nowMs : ℤ}

theorem WellFormed.renamed {p p' : Ino} {name name' : String} {src : Inode} (h : WellFormed db)
    (hr : Renames db p name p' name' src) : WellFormed (renamedTables db p name p' name') ∧
      (renamedTables db p name p' name').nextIno = db.nextIno := by
  obtain ⟨x, hx, -⟩ := hr.parent
  have hp : p' < db.nextIno := h.bounded.getInode hx
  unfold renamedTables
  cases hj : db.childIno p' name' with
  | none => exact ⟨h.moveChild hp hj, rfl⟩
  | some j =>
    have hfree : (Fs.purge (db.delChild p' name') j).childIno p' name' = none := by
      have hdel : (db.delChild p' name').childIno p' name' = none := by
        rw [childIno_delChild, if_pos ⟨rfl, rfl⟩]
      exact hdel
    exact ⟨((h.delChild p' name').purge (h.ne_root hj)).moveChild hp hfree, rfl⟩

theorem WellFormed.pushed {p p' : Ino} {name name' : String} {src : Inode} {d : Db} (h : WellFormed db)
    (hr : Renames db p name p' name' src) (hd : Pushed db online p name p' name' src.ino d) :
    WellFormed d ∧ p' < d.nextIno ∧ d.dentries = (renamedTables db p name p' name').dentries ∧
      d.inodes = (renamedTables db p name p' name').inodes := by
  obtain ⟨x, hx, -⟩ := hr.parent
  obtain ⟨hwf, hn⟩ := h.renamed hr
  have hq (q : PushQueue) : WellFormed { renamedTables db p name p' name' with queue := q } := hwf.queue
  have hp : p' < (renamedTables db p name p' name').nextIno := hn ▸ h.bounded.getInode hx
  cases hd with
  | queued q => exact ⟨hq q, hp, rfl, rfl⟩
  | @carried q j rid client carries replaced mapped =>
    have hsrc : src.ino < (renamedTables db p name p' name').nextIno :=
      hn ▸ h.bounded.getInode (childInode_named hr.source).2
    exact ⟨(hq q).setRemoteId hsrc, hp, rfl, rfl⟩

theorem name_wf (h : WellFormed db) (online : Bool) (nowMs : ℤ) (op : NameOp) :
    WellFormed (op.apply db online nowMs).2 := by
  cases op with
  | mkdir p n =>
    show WellFormed (mkdir db p n).2
    rcases mkdir_cases db p n with he | ⟨-, hvac, he⟩
    · rwa [he]
    · obtain ⟨⟨x, hx, -⟩, hfree⟩ := vacant_ok hvac
      rw [he]
      exact (h.create (fun hd => by cases hd) hfree (h.bounded.getInode hx)).updNlink (f := fun n => n + 1)
  | rmdir p n =>
    show WellFormed (rmdir db p n).2
    rcases rmdir_cases db p n with he | ⟨x, -, hx, -, -, he⟩
    · rwa [he]
    · rw [he]
      exact ((h.delChild p n).delInode (h.ne_root (childInode_named hx).1)).updNlink (f := fun n => max (n - 1) 2)
  | createFile p n =>
    show WellFormed (createFile db online p n).2
    rcases createFile_cases db online p n with he | ⟨-, hvac, he⟩
    · rwa [he]
    · obtain ⟨⟨x, hx, -⟩, hfree⟩ := vacant_ok hvac
      rw [he]
      exact h.create (fun _ => rfl) hfree (h.bounded.getInode hx)
  | unlink p n =>
    show WellFormed (unlink db online p n nowMs).2
    rcases unlink_cases db online p n nowMs with he | ⟨x, q, hu, he⟩
    · rwa [he]
    · rw [he]
      exact (h.unlinkTables (h.ne_root (childInode_named hu.source).1)).queue.cascadeUnlink
  | symlink p n t =>
    show WellFormed (symlink db p n t).2
    rcases symlink_cases db p n t with he | ⟨-, hvac, he⟩
    · rwa [he]
    · obtain ⟨⟨x, hx, -⟩, hfree⟩ := vacant_ok hvac
      rw [he]
      have hnew : WellFormed ((db.addInode .lnk 1 t.utf8ByteSize false).1.addDentry n p db.nextIno) :=
        h.create (fun hd => by cases hd) hfree (h.bounded.getInode hx)
      exact hnew.congr ⟨hnew.bounded.inodes, hnew.bounded.dentries, hnew.bounded.data, hnew.bounded.remotes,
        hnew.bounded.sorted⟩ rfl rfl fun _ => rfl
  | link i p n =>
    show WellFormed (link db i p n).2
    rcases link_cases db i p n with he | ⟨x, -, hx, hd, hvac, he⟩
    · rwa [he]
    · obtain ⟨⟨y, hy, -⟩, hfree⟩ := vacant_ok hvac
      rw [he]
      refine (h.updNlink (f := fun n => n + 1)).addDentry hfree (h.bounded.getInode hy) (h.bounded.getInode hx) ?_
      rintro rfl
      have hroot := h.root
      unfold sortOf at hroot
      rw [hx] at hroot
      exact hd (congrArg Prod.fst (Option.some.inj hroot))
  | rename p n p' n' =>
    show WellFormed (rename db online p n p' n' nowMs).2
    rcases rename_cases db online p n p' n' nowMs with he | ⟨src, d, hr, hd, he⟩
    · rwa [he]
    · rw [he]
      obtain ⟨hwf, hp, -⟩ := h.pushed hr hd
      exact hwf.cascadeRename hp

theorem applyDeletion_wf {rid : String} (h : WellFormed db) : WellFormed (applyDeletion db rid).2 := by
  rcases applyDeletion_cases db rid with he | ⟨i, d, -, -, hd, he⟩
  · rwa [he]
  · rw [he]
    obtain ⟨hm, rfl⟩ := Table.get_some hd
    refine h.dropInode (i := d.ino) ?_ (Table.erase_sublist _ _) rfl (h.top d hm) fun j => sortOf_delInode
    exact h.bounded.of_subset rfl (Table.erase_sublist _ _).subset (Table.erase_sublist _ _).subset
      (List.filter_subset_self _) (Table.erase_sublist _ _)

end Run

end Cache
end Smfs
