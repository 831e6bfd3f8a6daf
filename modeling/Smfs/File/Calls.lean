/-
# The calls of a mount

A mount without derived files shows a tree of names with the bytes of its files
(`Shown.Store`). Each method of `SupermemoryFs` answers as that store does and
leaves it as the store is then (`Shown.Turns`). A name is looked up in the
dentry cache, which agrees with the tables, and each walk to the root ends as
long as no `rename` moves a directory into itself or below itself.

Key definitions: `Shown.Store`, `Shown.Shows`, `Shown.Turns`.
Key theorems: `Shown.Shows.lookup`, `Shown.Shows.makeFile`, `Shown.Shows.unlink`, `Shown.Shows.rename`.
-/
import Smfs.File.Files
import Smfs.File.Shown
import Smfs.Names.Walks

namespace Smfs
namespace Shown

open Db Fs Cache Coherence Walks

/-- The names and the bytes of the files. -/
structure Store where
  tree : Tree
  file : Files

namespace Store

/-- Nothing but the root. -/
def start : Store := ⟨treeOf .fresh, fun _ => none⟩

/-- A file goes with its inode. -/
def become (st : Store) (t : Tree) : Store := ⟨t, fun ino => if (t.node ino).isSome then st.file ino else none⟩

end Store

/-- What the attributes say of an inode. -/
def shapeOf (attr : FileAttr) : Ino × FileKind := (attr.ino, attr.kind)

namespace Tree

/-- An inode and its kind. -/
def shape (t : Tree) (ino : Ino) : Option (Ino × FileKind) := (t.node ino).map fun x => (ino, x.kind)

/-- `getattr`. -/
def getattr (t : Tree) (online : Bool) (ino : Ino) : Option (Ino × FileKind) :=
  if ino = PROFILE_INO ∧ online then some (PROFILE_INO, .reg) else t.shape ino

/-- A number whose inode is gone is not given out again. -/
structure Ages (t t' : Tree) : Prop where
  next : t.next ≤ t'.next
  gone : ∀ ino < t.next, t.node ino = none → t'.node ino = none

end Tree

/-- The store that a file system shows. -/
structure Shows (s : SupermemoryFs) (st : Store) : Prop extends Stores s.db st.file where
  coherent : Coherent s
  tree : st.tree = treeOf s.db
  unborn : Unborn s.db
  standing : Standing s.db

/-- A method does what a change of the tree is: it fails with the same error, or
answers well and leaves the changed store. -/
def Turns {α : Type} (st : Store) (c : Except VfsError α × SupermemoryFs) (good : α → Prop) (out : Except VfsError Tree) :
    Prop :=
  match out with
  | .error e => c.1 = .error e ∧ Shows c.2 st
  | .ok t => (∃ a, c.1 = .ok a ∧ good a) ∧ Shows c.2 (st.become t) ∧ st.tree.Ages t

section Lemmas

variable {s u : SupermemoryFs} {st : Store} {v : Ambient} {p p' i : Ino} {name name' target : String} {α β : Type}
variable {mode uid gid : ℕ} {nowMs : ℤ} {attr : FileAttr}

theorem isSome_node {db : Db} : ((treeOf db).node i).isSome = (sortOf db i).isSome := by
  show (nodeOf db i).isSome = _
  rw [nodeOf, sortOf, Option.isSome_map, Option.isSome_map]

theorem node_sort {db : Db} : (treeOf db).node i = none ↔ sortOf db i = none := by
  rw [← Option.not_isSome_iff_eq_none, isSome_node, Option.not_isSome_iff_eq_none]

theorem Store.become_file {db : Db} : (st.become (treeOf db)).file = st.file.among db := by
  funext ino
  unfold Store.become Files.among
  dsimp only
  rw [isSome_node]

/-- A new mount shows the root. -/
theorem Shows.start (cap : ℕ) (hcap : 0 < cap) : Shows (Coherence.start cap hcap) .start where
  toStores := .fresh
  coherent := start_coherent cap hcap
  tree := rfl
  unborn := unborn_fresh
  standing := .start

/-- The tables are as they were. -/
theorem Shows.same (h : Shows s st) (hdb : u.db = s.db) (hc : Coherent u) : Shows u st where
  toStores := hdb ▸ h.toStores
  coherent := hc
  tree := by rw [hdb, h.tree]
  unborn := hdb ▸ h.unborn
  standing := hdb ▸ h.standing

/-- The names stand after an operation. -/
theorem Shows.named (h : Shows s st) (online : Bool) (op : NameOp) (nowMs : ℤ) (hok : StaysAbove s.db op) :
    Standing (op.apply s.db online nowMs).2 := name_standing h.standing hok

/-- A method that is a call on the tables. -/
theorem Shows.turns (h : Shows s st) {c : Except VfsError β × SupermemoryFs} {d : Except VfsError α × Db} {good : β → Prop}
    {out : Except VfsError Tree} (hdb : c.2.db = d.2) (hdoes : Does s.db d out) (hthins : Thins s.db d.2)
    (hcoherent : Coherent c.2) (hunborn : Unborn d.2) (hstanding : Standing d.2)
    (herror : ∀ e, d.1 = .error e → c.1 = .error e) (hok : ∀ a, d.1 = .ok a → ∃ b, c.1 = .ok b ∧ good b) :
    Turns st c good out := by
  unfold Does at hdoes
  unfold Turns
  cases out with
  | error e =>
    obtain ⟨he, hsame⟩ := hdoes
    exact ⟨herror e he, h.same (hdb.trans hsame) hcoherent⟩
  | ok t =>
    obtain ⟨⟨a, ha⟩, rfl⟩ := hdoes
    refine ⟨hok a ha, ⟨?_, hcoherent, ?_, hdb ▸ hunborn, hdb ▸ hstanding⟩, ?_, fun ino hlt hgone => ?_⟩
    · rw [Store.become_file, hdb]
      exact h.toStores.thins hthins (hdb ▸ hcoherent.wf)
    · rw [hdb]
      rfl
    · rw [h.tree]
      exact hthins.next
    · rw [h.tree] at hlt hgone
      have hnone := Thins.sort_none hthins hlt (node_sort.mp hgone)
      exact node_sort.mpr hnone

/-! ### Lookups -/

/-- **A name is looked up in the tree**, whatever the cache holds. -/
theorem Shows.lookup (h : Shows s st) (v : Ambient) (p : Ino) (name : String) :
    (s.lookup v p name).1.map (Option.map shapeOf) = st.tree.lookup p name v.online ∧ Shows (s.lookup v p name).2 st := by
  refine ⟨?_, h.same SupermemoryFs.lookup_tables (lookup_coherent h.coherent)⟩
  rw [h.coherent.lookup, h.tree]
  unfold lookupTables Tree.lookup Ambient.profileFile
  cases validateName name with
  | error e => rfl
  | ok _ =>
    dsimp only
    by_cases hprofile : p = ROOT_INO ∧ name = PROFILE_NAME ∧ v.online = true
    · obtain ⟨rfl, rfl, hon⟩ := hprofile
      rw [if_pos ⟨rfl, rfl⟩, if_pos hon]
      simp only [bind, Except.bind, hon, and_self, if_true]
      rfl
    · have hnone : (if p = ROOT_INO ∧ name = PROFILE_NAME then if v.online = true then some v.profileAttr else none
          else none) = none := by
        split_ifs with hname hon
        · exact absurd ⟨hname.1, hname.2, hon⟩ hprofile
        · rfl
        · rfl
      rw [hnone]
      simp only [bind, Except.bind, if_neg hprofile]
      cases hpar : s.db.getInode p with
      | none =>
        rw [node_none hpar]
        rfl
      | some parent =>
        obtain ⟨_, hnode⟩ := node_some hpar
        rw [hnode]
        dsimp only
        by_cases hk : parent.kind ≠ .dir
        · rw [if_pos hk, if_pos hk]
          rfl
        · rw [if_neg hk, if_neg hk]
          have hchild : ((s.db.childIno p name).bind fun ino => attrOf s.db v ino).map shapeOf =
              ((treeOf s.db).child p name).map fun c => (c.1, c.2.kind) := by
            unfold Tree.child treeOf nodeOf attrOf
            dsimp only
            cases s.db.childIno p name with
            | none => rfl
            | some i =>
              dsimp only [Option.bind_some]
              cases hx : s.db.getInode i with
              | none => rfl
              | some x =>
                obtain rfl := getInode_ino hx
                rfl
          exact congrArg Except.ok hchild

theorem attrOf_shape {db : Db} : (attrOf db v i).map shapeOf = (treeOf db).shape i := by
  show _ = (nodeOf db i).map _
  unfold attrOf nodeOf
  cases hx : db.getInode i with
  | none => rfl
  | some x =>
    obtain rfl := getInode_ino hx
    rfl

theorem Shows.getattr (h : Shows s st) (v : Ambient) (i : Ino) :
    (s.getattr v i).map shapeOf = st.tree.getattr v.online i := by
  unfold SupermemoryFs.getattr Tree.getattr Ambient.profileFile
  rw [h.tree]
  by_cases hp : i = PROFILE_INO
  · by_cases hon : v.online = true
    · rw [if_pos hp, if_pos hon, if_pos ⟨hp, hon⟩]
      rfl
    · rw [if_pos hp, if_neg hon, if_neg fun hc => hon hc.2, Option.none_or]
      exact attrOf_shape
  · rw [if_neg hp, if_neg fun hc => hp hc.1]
    exact attrOf_shape

theorem Shows.readlink (h : Shows s st) (i : Ino) : Fs.readlink s.db i = st.tree.readlink i := by
  rw [h.tree, readlink_shown]

/-! ### Making names -/

theorem makeDir_snd : (s.makeDir v p name mode uid gid).2 = (s.mkdir p name).2 := by
  unfold SupermemoryFs.makeDir
  obtain ⟨_ | _, _⟩ := s.mkdir p name <;> rfl

theorem makeSymlink_snd : (s.makeSymlink v p name target uid gid).2 = (s.symlink p name target).2 := by
  unfold SupermemoryFs.makeSymlink
  obtain ⟨_ | _, _⟩ := s.symlink p name target <;> rfl

theorem makeLink_snd : (s.makeLink v i p name).2 = (s.link i p name).2 := by
  unfold SupermemoryFs.makeLink
  obtain ⟨_ | _, _⟩ := s.link i p name <;> rfl

theorem makeFile_snd : (s.makeFile v p name mode uid gid).2 = (s.createFile v.online p name).2 := by
  unfold SupermemoryFs.makeFile
  obtain ⟨_ | _, _⟩ := s.createFile v.online p name <;> rfl

theorem Shows.makeDir (h : Shows s st) (v : Ambient) (p : Ino) (name : String) (mode uid gid : ℕ) :
    Turns st (s.makeDir v p name mode uid gid) (fun attr => shapeOf attr = (st.tree.next, .dir))
      (st.tree.mkdir p name) := by
  have hfst : (s.makeDir v p name mode uid gid).1 =
      (Fs.mkdir s.db p name).1.map fun ino => v.newAttr ino .dir (permBits mode) 2 0 uid gid := SupermemoryFs.makeDir_fst v s
  rw [h.tree]
  refine h.turns (SupermemoryFs.makeDir_tables v s) (mkdir_does h.wf) (mkdir_keepsFiles h.wf).toThins ?_
    (h.unborn.keep mkdir_noSymlink) (h.named v.online (.mkdir p name) 0 trivial) (fun e he => ?_) fun i hi => ?_
  · rw [makeDir_snd]
    exact mkdir_coherent h.coherent
  · rw [hfst, he]
    rfl
  · obtain rfl := mkdir_ino hi
    rw [hfst, hi]
    exact ⟨_, rfl, rfl⟩

theorem Shows.makeSymlink (h : Shows s st) (v : Ambient) (p : Ino) (name target : String) (uid gid : ℕ) :
    Turns st (s.makeSymlink v p name target uid gid) (fun attr => shapeOf attr = (st.tree.next, .lnk))
      (st.tree.symlink p name target) := by
  have hfst : (s.makeSymlink v p name target uid gid).1 =
      (Fs.symlink s.db p name target).1.map fun ino => v.newAttr ino .lnk 0o777 1 target.utf8ByteSize uid gid :=
    SupermemoryFs.makeSymlink_fst v s
  rw [h.tree]
  refine h.turns (SupermemoryFs.makeSymlink_tables v s) (symlink_does h.wf (h.unborn _ le_rfl))
    (symlink_keepsFiles h.wf).toThins ?_ (symlink_unborn h.unborn) (h.named v.online (.symlink p name target) 0 trivial)
    (fun e he => ?_) fun i hi => ?_
  · rw [makeSymlink_snd]
    exact symlink_coherent h.coherent
  · rw [hfst, he]
    rfl
  · obtain rfl := symlink_ino hi
    rw [hfst, hi]
    exact ⟨_, rfl, rfl⟩

/-- The inode of a new link is there, with its kind. -/
theorem link_ok {db : Db} (h : (Fs.link db i p name).1 = .ok ()) :
    ∃ x, db.getInode i = some x ∧ (Fs.link db i p name).2.getInode i = some { x with nlink := x.nlink + 1 } := by
  have hf : ∀ x : Inode, ({ x with nlink := x.nlink + 1 } : Inode).ino = x.ino := fun _ => rfl
  unfold Fs.link at h ⊢
  cases hv : validateName name with
  | error e => simp [hv] at h
  | ok _ =>
    rw [hv] at h
    cases hx : db.getInode i with
    | none => simp [hx] at h
    | some x =>
      rw [hx] at h
      dsimp only at h ⊢
      by_cases hk : x.kind = .dir
      · rw [if_pos hk] at h
        cases h
      · rw [if_neg hk] at h ⊢
        cases hvac : vacant db p name with
        | error e => simp [hvac] at h
        | ok _ => exact ⟨x, rfl, getInode_updInode_self hf hx⟩

theorem Shows.makeLink (h : Shows s st) (v : Ambient) (i p : Ino) (name : String) :
    Turns st (s.makeLink v i p name) (fun attr => st.tree.shape i = some (shapeOf attr))
      (st.tree.link p name i) := by
  rw [h.tree]
  refine h.turns (SupermemoryFs.makeLink_tables v s) link_does (link_keepsFiles h.wf).toThins ?_
    (h.unborn.keep link_noSymlink) (h.named v.online (.link i p name) 0 trivial) (fun e he => ?_) fun _ hok => ?_
  · rw [makeLink_snd]
    exact link_coherent h.coherent
  · unfold SupermemoryFs.makeLink SupermemoryFs.link
    generalize Fs.link s.db i p name = r at he ⊢
    obtain ⟨res, db⟩ := r
    obtain rfl := he
    rfl
  · obtain ⟨x, hx, hx'⟩ := link_ok hok
    obtain ⟨target, hnode⟩ := node_some hx
    have hattr : attrOf (Fs.link s.db i p name).2 v i = some (rowToAttr { x with nlink := x.nlink + 1 } (v.columns i)) := by
      rw [attrOf, hx', Option.map_some]
    unfold SupermemoryFs.makeLink SupermemoryFs.link
    generalize Fs.link s.db i p name = r at hok hattr ⊢
    obtain ⟨res, db⟩ := r
    obtain rfl := hok
    obtain rfl := getInode_ino hx
    refine ⟨_, congrArg found hattr, ?_⟩
    rw [Tree.shape, hnode]
    rfl

/-- **`create_file`** makes an empty file. -/
theorem Shows.makeFile (h : Shows s st) (v : Ambient) (p : Ino) (name : String) (mode uid gid : ℕ) :
    match st.tree.create p name with
    | .error e => (s.makeFile v p name mode uid gid).1 = .error e ∧ Shows (s.makeFile v p name mode uid gid).2 st
    | .ok t => ∃ f, f.ino = st.tree.next ∧
        (s.makeFile v p name mode uid gid).1 = .ok (v.newAttr f.ino .reg (permBits mode) 1 0 uid gid, .sqlite f) ∧
        Shows (s.makeFile v p name mode uid gid).2 ⟨t, st.file.put f.ino []⟩ ∧ st.tree.Ages t := by
  have hdoes : Does s.db (Fs.createFile s.db v.online p name) ((treeOf s.db).create p name) := createFile_does h.wf
  have hcoherent : Coherent (s.makeFile v p name mode uid gid).2 := by
    rw [makeFile_snd]
    exact createFile_coherent h.coherent
  have hunborn : Unborn (s.makeFile v p name mode uid gid).2.db := by
    rw [SupermemoryFs.makeFile_tables]
    exact h.unborn.keep createFile_noSymlink
  have hstanding : Standing (s.makeFile v p name mode uid gid).2.db := by
    rw [SupermemoryFs.makeFile_tables]
    exact h.named v.online (.createFile p name) 0 trivial
  have hcases := SupermemoryFs.makeFile_cases h.toStores v p name mode uid gid
  have hdb : (s.makeFile v p name mode uid gid).2.db = (Fs.createFile s.db v.online p name).2 :=
    SupermemoryFs.makeFile_tables v s
  have hfst : (s.makeFile v p name mode uid gid).1 = (Fs.createFile s.db v.online p name).1.map fun f =>
      (v.newAttr f.ino .reg (permBits mode) 1 0 uid gid, .sqlite f) := SupermemoryFs.makeFile_fst v s
  rw [h.tree]
  unfold Does at hdoes
  generalize (treeOf s.db).create p name = out at hdoes ⊢
  cases out with
  | error e =>
    obtain ⟨he, hsame⟩ := hdoes
    refine ⟨by rw [hfst, he]; rfl, h.same (hdb.trans hsame) hcoherent⟩
  | ok t =>
    obtain ⟨⟨f', hf'⟩, rfl⟩ := hdoes
    rcases hcases with ⟨⟨e, he⟩, -⟩ | ⟨f, hf, hstores, hino, hnext, hsort⟩
    · rw [hfst, hf'] at he
      cases he
    · refine ⟨f, hino, hf, ⟨hstores, hcoherent, by rw [hdb], hunborn, hstanding⟩, ?_, fun ino hlt hgone => ?_⟩
      · rw [← hdb]
        exact hnext.ge.trans' (Nat.le_succ _)
      · have hsame := hsort ino (hino ▸ hlt.ne)
        rw [← hdb, node_sort, hsame]
        exact node_sort.mp hgone

/-! ### Removing and moving names -/

/-- No derived sibling is carried along. -/
theorem singles_plain {db : Db} (h : ∀ x ∈ db.inodes, x.derived = false) (suffixes : List String) :
    Singles p name p' name' suffixes db := by
  induction suffixes with
  | nil => trivial
  | cons suffix rest ih =>
    refine ⟨fun _ x hx hderived => ?_, ?_⟩
    · rw [h x (Table.get_some (childInode_named hx).2).1] at hderived
      cases hderived
    · rw [renameDerivedSibling_plain h]
      exact ih

theorem standing_alone {online : Bool} (h : Standing s.db) :
    Alone online s (nowMs, .name (.rename p name p' name')) := by
  intro mid hm
  cases hm with
  | rename checks tables =>
    obtain ⟨-, -, -, hinodes⟩ := h.wf.pushed checks (pushed_of_tables online nowMs tables)
    exact singles_plain (hinodes ▸ renamed_plain h.plain) _

theorem Shows.rmdir (h : Shows s st) (p : Ino) (name : String) :
    Turns st (s.rmdir p name) (fun _ => True) (st.tree.rmdir p name) := by
  rw [h.tree]
  refine h.turns SupermemoryFs.answer_tables rmdir_does (rmdir_keepsFiles h.wf).toThins (rmdir_coherent h.coherent)
    (h.unborn.keep rmdir_noSymlink) (h.named false (.rmdir p name) 0 trivial) (fun e he => ?_)
    fun a ha => ⟨a, ?_, trivial⟩
  · exact SupermemoryFs.answer_fst.trans he
  · exact SupermemoryFs.answer_fst.trans ha

theorem Shows.unlink (h : Shows s st) (online : Bool) (p : Ino) (name : String) (nowMs : ℤ) :
    Turns st (s.unlink online p name nowMs) (fun _ => True) (st.tree.unlink p name) := by
  obtain ⟨hfst, hdb⟩ := @SupermemoryFs.unlink_eq s p name online nowMs
  rw [h.tree]
  exact h.turns hdb unlink_does (unlink_thins h.wf) (unlink_coherent h.coherent) (h.unborn.keep unlink_noSymlink)
    (h.named online (.unlink p name) nowMs trivial) (fun e he => hfst.trans he) fun a ha => ⟨a, hfst.trans ha, trivial⟩

theorem Shows.rename (h : Shows s st) (online : Bool) (p : Ino) (name : String) (p' : Ino) (name' : String) (nowMs : ℤ)
    (hok : StaysAbove s.db (.rename p name p' name')) :
    Turns st (s.rename online p name p' name' nowMs) (fun _ => True) (st.tree.rename p name p' name') := by
  obtain ⟨hfst, hdb⟩ := @SupermemoryFs.rename_tables s p p' name name' online nowMs
  rw [h.tree]
  exact h.turns hdb (rename_does h.wf) (rename_thins h.wf) (rename_coherent h.coherent (standing_alone h.standing))
    (h.unborn.keep rename_noSymlink) (h.named online (.rename p name p' name') nowMs hok) (fun e he => hfst.trans he)
    fun a ha => ⟨a, hfst.trans ha, trivial⟩

/-! ### Files -/

/-- A call on the content of files. -/
theorem Shows.content (h : Shows s st) {db : Db} {files : Files} (ht : SameTree s.db db) (hs : Stores db files) :
    Shows { s with db } { st with file := files } where
  toStores := hs
  coherent := h.coherent.sameTree ht
  tree := by
    refine h.tree.trans (Eq.symm (treeOf_congr (fun i => ?_) ht.dentries ht.next))
    have hsort := ht.sorts i
    have hlink := ht.nlinks i
    unfold sortOf at hsort
    unfold nodeOf targetOf
    rw [ht.symlinks]
    cases hx : s.db.getInode i with
    | none =>
      rw [hx, Option.map_none, Option.map_eq_none_iff] at hsort
      rw [hsort]
    | some x =>
      rw [hx, Option.map_some] at hsort hlink
      obtain ⟨y, hy, hsame⟩ := Option.map_eq_some_iff.mp hsort
      rw [hy, Option.map_some, Option.some.injEq] at hlink
      obtain ⟨hkind, hderived⟩ := Prod.mk.inj hsame
      rw [hy, Option.map_some, Option.map_some, hkind, hderived, hlink]
  unborn i hi := by
    unfold targetOf
    rw [ht.symlinks]
    exact h.unborn i (ht.next ▸ hi)
  standing := h.standing.sameTree ht

/-- `open` finds the regular files. -/
theorem Shows.openFile (h : Shows s st) (online : Bool) (i : Ino) :
    match st.tree.regular i with
    | .error e => Fs.openFile s.db online i = .error e
    | .ok () => (st.file i).isSome ∧ Fs.openFile s.db online i = .ok ⟨i, online, resolveFilepath s.db i⟩ := by
  have hregular : st.tree.regular i = (Fs.openFile s.db online i).map fun _ => () := h.tree ▸ regular_shown
  rcases h.toStores.openFile online i with ⟨-, e, he⟩ | ⟨bytes, hb, he⟩
  · rw [hregular, he]
    rfl
  · rw [hregular, he]
    exact ⟨Option.isSome_of_eq_some hb, rfl⟩

/-- A file is open exactly if it is there. -/
theorem Shows.file_iff (h : Shows s st) (i : Ino) : (st.file i).isSome ↔ st.tree.regular i = .ok () := by
  have hopen := h.openFile false i
  constructor
  · intro hsome
    cases hr : st.tree.regular i with
    | ok _ => rfl
    | error e =>
      rw [hr] at hopen
      rcases h.toStores.openFile false i with ⟨hf, -⟩ | ⟨bytes, -, he⟩
      · simp [hf] at hsome
      · exact absurd (hopen.symm.trans he) (by simp)
  · intro hr
    rw [hr] at hopen
    exact hopen.1

theorem setattrSize_shown {db : Db} {size : ℕ} : (Fs.setattrSize db i size).1 = (treeOf db).regular i := by
  unfold Fs.setattrSize Tree.regular
  cases hx : db.getInode i with
  | none => rw [node_none hx]
  | some x =>
    obtain ⟨target, hnode⟩ := node_some hx
    rw [hnode]
    dsimp only
    cases x.kind <;> rfl

/-- **`setattr`** cuts a file, and answers with what the inode is. -/
theorem Shows.setattr (h : Shows s st) (v : Ambient) {attr : SetAttr}
    (hw : ∀ size, attr.size = some size → size ≤ Pushed.sizeOf s.db i) :
    Shows (s.setattr v i attr).2 { st with file := st.file.cut i attr } ∧
      match st.tree.setattr i attr.size with
      | .error e => (s.setattr v i attr).1 = .error e
      | .ok () => ∃ new, (s.setattr v i attr).1 = .ok new ∧ st.tree.shape i = some (shapeOf new) := by
  have hset := SupermemoryFs.setattr_spec h.toStores v hw
  have hstate : (s.setattr v i attr).2 = { s with db := (s.setattr v i attr).2.db } := by
    unfold SupermemoryFs.setattr
    cases attr.size with
    | none => rfl
    | some n =>
      dsimp only
      obtain ⟨_ | _, _⟩ := Fs.setattrSize s.db i n <;> rfl
  have hshows : Shows (s.setattr v i attr).2 { st with file := st.file.cut i attr } := by
    rw [hstate]
    exact h.content hset.tree hset.stores
  have hshape {new : FileAttr} (hnew : (s.setattr v i attr).1 = .ok new) :
      st.tree.shape i = some (shapeOf new) := by
    have htree : st.tree = treeOf (s.setattr v i attr).2.db := hshows.tree
    rw [htree, ← attrOf_shape (v := v), hset.row new hnew]
    rfl
  refine ⟨hshows, ?_⟩
  have hanswer : match st.tree.setattr i attr.size with
      | .error e => (s.setattr v i attr).1 = .error e
      | .ok () => ∃ new, (s.setattr v i attr).1 = .ok new := by
    unfold Tree.setattr SupermemoryFs.setattr
    cases attr.size with
    | none =>
      have hnode : (st.tree.node i).isSome = (attrOf s.db v i).isSome := by
        rw [← Option.isSome_map (f := shapeOf), attrOf_shape, Tree.shape, Option.isSome_map, h.tree]
      rw [if_neg (by simp), hnode]
      cases attrOf s.db v i with
      | none => rfl
      | some new => exact ⟨new, rfl⟩
    | some n =>
      have hsize : (Fs.setattrSize s.db i n).1 = st.tree.regular i := h.tree ▸ setattrSize_shown
      rw [if_pos Option.isSome_some, ← hsize]
      dsimp only
      rcases h.toStores.setattrSize i n with ⟨-, e, he⟩ | ⟨bytes, hb, he⟩
      · rw [he]
      · rw [he]
        have htrunc : SameTree s.db (SqliteFile.truncate s.db ⟨i, false, none⟩ n) := truncate_sameTree
        obtain ⟨d, hd⟩ := held_sort (h.held i bytes hb)
        have hrow : (attrOf (SqliteFile.truncate s.db ⟨i, false, none⟩ n) v i).isSome := by
          have hsort := (htrunc.sorts i).trans hd
          rw [attrOf, Option.isSome_map, ← Option.isSome_map (f := fun x : Inode => (x.kind, x.derived))]
          exact Option.isSome_of_eq_some hsort
        obtain ⟨new, hnew⟩ := Option.isSome_iff_exists.mp hrow
        exact ⟨new, congrArg found hnew⟩
  cases hc : st.tree.setattr i attr.size with
  | error e =>
    rw [hc] at hanswer
    exact hanswer
  | ok _ =>
    rw [hc] at hanswer
    obtain ⟨new, hnew⟩ := hanswer
    exact ⟨new, hnew, hshape hnew⟩

/-- A size that is refused cuts nothing. -/
theorem Shows.cut_refused (h : Shows s st) {attr : SetAttr} {e : VfsError} (he : st.tree.setattr i attr.size = .error e) :
    st.file.cut i attr = st.file := by
  unfold Files.cut
  unfold Tree.setattr at he
  cases hn : attr.size with
  | none => rfl
  | some n =>
    rw [hn, if_pos Option.isSome_some] at he
    cases hf : st.file i with
    | none => rfl
    | some bytes =>
      have hregular := (h.file_iff i).mp (Option.isSome_of_eq_some hf)
      rw [hregular] at he
      cases he

end Lemmas

end Shown
end Smfs
