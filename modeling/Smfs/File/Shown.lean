/-
# The names that a mount shows

A tree of names without tables: what inodes there are, what stands under each
name, and the number that the next inode gets. The tables show such a tree
(`treeOf`), and each call on names is the call on the tree, with its errors: an
inode goes with its last link, and a derived sibling goes or moves along with
its file. A directory has no size, no content and no sync state here.

Key definitions: `Shown.Tree`, `Shown.treeOf`, `Shown.Does`.
Key theorems: `Shown.mkdir_does`, `Shown.link_does`, `Shown.unlink_does`, `Shown.rename_does`, `Shown.lookup_shows`.
-/
import Smfs.Names.Coherence
import Smfs.Names.Links

namespace Smfs
namespace Shown

open Db Fs Cache

/-- What is shown of an inode. -/
structure Node where
  kind : FileKind
  nlink : ℤ
  derived : Bool
  target : Option String
  deriving DecidableEq, Repr

/-- The inodes, the names and the next number. -/
@[ext] structure Tree where
  node : Ino → Option Node
  entry : Ino → String → Option Ino
  next : Ino

namespace Tree

variable (t : Tree) (p : Ino) (name : String) (p' : Ino) (name' : String) (i : Ino)

/-! ### Changes -/

def erase : Tree := { t with entry := fun q n => if q = p ∧ n = name then none else t.entry q n }

def put : Tree := { t with entry := fun q n => if q = p ∧ n = name then some i else t.entry q n }

def move : Tree :=
  { t with entry := fun q n => if q = p' ∧ n = name' then t.entry p name
                               else if q = p ∧ n = name then none else t.entry q n }

def drop : Tree := { t with node := fun j => if j = i then none else t.node j }

def relink (f : ℤ → ℤ) : Tree :=
  { t with node := fun j => if j = i then (t.node i).map fun x => { x with nlink := f x.nlink } else t.node j }

/-- A new inode under a name. -/
def add (node : Node) : Tree :=
  { t with node := fun j => if j = t.next then some node else t.node j, next := t.next + 1 }.put p name t.next

/-- A link less: with the last one the inode goes. -/
def unlinkNode (nlink : ℤ) : Tree := if nlink - 1 ≤ 0 then t.drop i else t.relink i fun n => n - 1

/-! ### Checks -/

/-- The inode under a name, if it is there. -/
def child : Option (Ino × Node) := (t.entry p name).bind fun i => (t.node i).map fun x => (i, x)

/-- A directory has no entries. -/
def Bare : Prop := ∀ n, t.entry i n = none

/-- The name is free, in a directory. -/
def vacant : Except VfsError Unit :=
  match t.node p with
  | none => .error .notFound
  | some parent =>
    if parent.kind ≠ .dir then .error .notADirectory
    else if (t.entry p name).isSome then .error .alreadyExists
    else .ok ()

open scoped Classical in
/-- Whether an inode may stand where another one stood. -/
noncomputable def mayReplace (src dst : Node) (j : Ino) : Except VfsError Unit :=
  if src.kind = .dir then
    if dst.kind ≠ .dir then .error .notADirectory
    else if t.Bare j then .ok ()
    else .error .notEmpty
  else if dst.kind = .dir then .error .isADirectory
  else .ok ()

/-! ### Derived siblings -/

def dropSibling : Tree :=
  match t.child p name with
  | none => t
  | some (i, x) => if x.derived then (t.erase p name).drop i else t

def dropSiblings : Tree := derivedSiblingSuffixes.foldl (fun t suffix => t.dropSibling p (name ++ suffix)) t

/-- The inode has a name that is neither of the two. -/
def Elsewhere : Prop := ∃ q n, (q, n) ≠ (p, name) ∧ (q, n) ≠ (p', name') ∧ t.entry q n = some i

open scoped Classical in
/-- What stood where the sibling goes is cleared; one with a further name stays where it is. -/
noncomputable def moveSibling : Tree :=
  match t.child p name with
  | none => t
  | some (i, x) =>
    if x.derived then
      if t.Elsewhere p name p' name' i then t.erase p' name' else t.move p name p' name'
    else t

noncomputable def moveSiblings : Tree :=
  derivedSiblingSuffixes.foldl (fun t suffix => t.moveSibling p (name ++ suffix) p' (name' ++ suffix)) t

/-! ### The calls -/

/-- `lookup`: an inode and its kind. -/
def lookup (online : Bool) : Except VfsError (Option (Ino × FileKind)) := do
  validateName name
  if p = ROOT_INO ∧ name = PROFILE_NAME ∧ online then return some (PROFILE_INO, .reg)
  match t.node p with
  | none => throw .notFound
  | some parent =>
    if parent.kind ≠ .dir then throw .notADirectory
    return (t.child p name).map fun c => (c.1, c.2.kind)

def mkdir : Except VfsError Tree := do
  validateName name
  t.vacant p name
  return (t.add p name ⟨.dir, 2, false, none⟩).relink p fun n => n + 1

def create : Except VfsError Tree := do
  validateName name
  t.vacant p name
  return t.add p name ⟨.reg, 1, false, none⟩

def symlink (target : String) : Except VfsError Tree := do
  validateName name
  t.vacant p name
  return t.add p name ⟨.lnk, 1, false, some target⟩

def link : Except VfsError Tree := do
  validateName name
  match t.node i with
  | none => throw .notFound
  | some x =>
    if x.kind = .dir then throw .isADirectory
    t.vacant p name
    return (t.relink i fun n => n + 1).put p name i

def readlink : Except VfsError (Option String) :=
  match t.node i with
  | none => .ok none
  | some x =>
    if x.kind ≠ .lnk then .error .notASymlink
    else
      match x.target with
      | none => .error .notFound
      | some target => .ok (some target)

open scoped Classical in
noncomputable def rmdir : Except VfsError Tree := do
  validateName name
  match t.child p name with
  | none => throw .notFound
  | some (i, x) =>
    if x.kind ≠ .dir then throw .notADirectory
    if ¬ t.Bare i then throw .notEmpty
    return ((t.erase p name).drop i).relink p fun n => max (n - 1) 2

def unlink : Except VfsError Tree := do
  validateName name
  if p = ROOT_INO ∧ name = PROFILE_NAME then throw .permissionDenied
  match t.child p name with
  | none => throw .notFound
  | some (i, x) =>
    if x.kind = .dir then throw .isADirectory
    return ((t.erase p name).unlinkNode i x.nlink).dropSiblings p name

/-- What stands under the new name goes. -/
noncomputable def replace (src : Node) : Except VfsError (Option Tree) :=
  match t.entry p' name' with
  | none => .ok (some t)
  | some j =>
    if j = i then .ok none
    else
      match t.node j with
      | none => .error .io
      | some dst =>
        match t.mayReplace src dst j with
        | .error e => .error e
        | .ok () => .ok (some ((t.erase p' name').drop j))

noncomputable def rename : Except VfsError Tree := do
  validateName name
  validateName name'
  match t.entry p name, t.node p' with
  | none, _ => throw .notFound
  | some _, none => throw .notFound
  | some i, some parent =>
    if parent.kind ≠ .dir then throw .notADirectory
    match t.node i with
    | none => throw .io
    | some src =>
      match t.replace p' name' i src with
      | .error e => throw e
      | .ok none => return t
      | .ok (some cleared) => return (cleared.move p name p' name').moveSiblings p name p' name'

/-- Only a regular file is opened and cut. -/
def regular : Except VfsError Unit :=
  match t.node i with
  | none => .error .notFound
  | some x =>
    match x.kind with
    | .dir => .error .isADirectory
    | .lnk => .error .notSupported
    | .reg => .ok ()

/-- `setattr`, with a size or without. -/
def setattr (size : Option ℕ) : Except VfsError Unit :=
  if size.isSome then t.regular i else if (t.node i).isSome then .ok () else .error .notFound

end Tree

/-! ### The tree of the tables -/

def nodeOf (db : Db) (i : Ino) : Option Node :=
  (db.getInode i).map fun x => ⟨x.kind, x.nlink, x.derived, if x.kind = .lnk then targetOf db i else none⟩

def treeOf (db : Db) : Tree := ⟨nodeOf db, db.childIno, db.nextIno⟩

/-- What a call on the tables does to their tree. -/
def Does {α : Type} (db : Db) (c : Except VfsError α × Db) (t : Except VfsError Tree) : Prop :=
  match t with
  | .error e => c.1 = .error e ∧ c.2 = db
  | .ok t => (∃ a, c.1 = .ok a) ∧ treeOf c.2 = t

section Lemmas

variable {db db' : Db} {p p' q i j : Ino} {name name' n : String} {nowMs : ℤ} {online : Bool} {α : Type}

/-! ### Statements -/

theorem treeOf_congr (hi : ∀ i, nodeOf db' i = nodeOf db i) (hd : db'.dentries = db.dentries)
    (hn : db'.nextIno = db.nextIno) : treeOf db' = treeOf db := by
  have hentry : db'.childIno = db.childIno := by
    funext q n
    exact Coherence.childIno_congr hd
  unfold treeOf
  rw [funext hi, hentry, hn]

/-- The tables of the tree are as they were. -/
theorem treeOf_same (hi : db'.inodes = db.inodes) (hd : db'.dentries = db.dentries)
    (hs : db'.symlinks = db.symlinks) (hn : db'.nextIno = db.nextIno) : treeOf db' = treeOf db :=
  treeOf_congr (fun i => by unfold nodeOf Db.getInode targetOf; rw [hi, hs]) hd hn

theorem treeOf_delChild : treeOf (db.delChild p name) = (treeOf db).erase p name := by
  refine Tree.ext rfl ?_ rfl
  funext q n
  exact childIno_delChild

theorem treeOf_updNlink {f : ℤ → ℤ} :
    treeOf (db.updInode i fun x => { x with nlink := f x.nlink }) = (treeOf db).relink i f := by
  have hf : ∀ x : Inode, ({ x with nlink := f x.nlink } : Inode).ino = x.ino := fun _ => rfl
  refine Tree.ext ?_ rfl rfl
  funext j
  unfold Tree.relink treeOf nodeOf
  dsimp only
  rw [getInode_updInode hf, Option.map_map]
  split_ifs with hj
  · rw [hj, Option.map_map]
    rfl
  · rfl

theorem treeOf_delInode : treeOf (db.delInode i) = (treeOf db).drop i := by
  refine Tree.ext ?_ rfl rfl
  funext j
  unfold Tree.drop treeOf nodeOf
  dsimp only
  rw [getInode_delInode]
  split_ifs <;> rfl

theorem treeOf_delSymlink : (treeOf (db.delSymlink i)).drop i = (treeOf db).drop i := by
  refine Tree.ext ?_ rfl rfl
  funext j
  unfold Tree.drop treeOf nodeOf targetOf delSymlink
  dsimp only
  split_ifs with hj
  · rfl
  · have hget : Table.get Prod.fst (Table.erase Prod.fst db.symlinks i) j = _ := Table.get_erase db.symlinks i j
    rw [if_neg hj] at hget
    rw [← hget]
    rfl

theorem treeOf_purge : treeOf (purge db i) = (treeOf db).drop i := by
  show treeOf ((((db.delData i).delSymlink i).deleteRemoteId i).delInode i) = _
  rw [treeOf_delInode]
  exact treeOf_delSymlink

theorem treeOf_unlinkTables {x : Inode} :
    treeOf (unlinkTables db p name x) = ((treeOf db).erase p name).unlinkNode x.ino x.nlink := by
  unfold unlinkTables Tree.unlinkNode
  dsimp only
  rw [← treeOf_delChild]
  split_ifs with hlast
  · rw [treeOf_purge, treeOf_updNlink (f := fun n => n - 1)]
    refine Tree.ext ?_ rfl rfl
    funext j
    unfold Tree.drop Tree.relink
    dsimp only
    split_ifs <;> rfl
  · exact treeOf_updNlink (f := fun n => n - 1)

theorem treeOf_moveChild (hfree : db.childIno p' name' = none) (hne : (p, name) ≠ (p', name')) :
    treeOf (moveChild db p name p' name') = (treeOf db).move p name p' name' := by
  refine Tree.ext rfl ?_ rfl
  funext q n
  exact childIno_moveChild hfree hne

theorem treeOf_newEntry {node : Node} (hfree : db.childIno p name = none) :
    (db.addDentry name p db.nextIno).childIno = ((treeOf db).add p name node).entry := by
  funext q n
  refine childIno_addDentry.trans ?_
  unfold Tree.add Tree.put treeOf
  dsimp only
  split_ifs with hq
  · rw [hq.1, hq.2, hfree]
    rfl
  · rw [Option.or_none]

/-- A new inode under a free name. -/
theorem treeOf_create {kind : FileKind} {nlink size : ℤ} {derived : Bool} (h : db.Bounded) (hk : kind ≠ .lnk)
    (hfree : db.childIno p name = none) :
    treeOf ((db.addInode kind nlink size derived).1.addDentry name p db.nextIno) =
      (treeOf db).add p name ⟨kind, nlink, derived, none⟩ := by
  refine Tree.ext ?_ (treeOf_newEntry hfree) rfl
  funext j
  show nodeOf (db.addInode kind nlink size derived).1 j = if j = db.nextIno then _ else nodeOf db j
  unfold nodeOf
  rw [h.getInode_addInode]
  split_ifs with hj
  · rw [Option.map_some, if_neg hk]
  · rfl

/-- A new symlink, for a number that no symlink had. -/
theorem treeOf_symlink {size : ℤ} {target : String} (h : db.Bounded) (hnew : targetOf db db.nextIno = none)
    (hfree : db.childIno p name = none) :
    treeOf ((addSymlink (db.addInode .lnk 1 size false).1 db.nextIno target).addDentry name p db.nextIno) =
      (treeOf db).add p name ⟨.lnk, 1, false, some target⟩ := by
  refine Tree.ext ?_ (treeOf_newEntry hfree) rfl
  funext j
  show nodeOf (addSymlink (db.addInode .lnk 1 size false).1 db.nextIno target) j = if j = db.nextIno then _ else nodeOf db j
  have hrow : (addSymlink (db.addInode .lnk 1 size false).1 db.nextIno target).getInode j =
      (db.addInode .lnk 1 size false).1.getInode j := rfl
  have htarget : targetOf (addSymlink (db.addInode .lnk 1 size false).1 db.nextIno target) j =
      (targetOf db j).or (if db.nextIno = j then some target else none) := targetOf_addSymlink
  unfold nodeOf
  rw [hrow, htarget, h.getInode_addInode]
  by_cases hj : j = db.nextIno
  · rw [if_pos hj, if_pos hj, if_pos hj.symm, hj, hnew]
    rfl
  · rw [if_neg hj, if_neg hj, if_neg (Ne.symm hj), Option.or_none]

/-! ### Derived siblings -/

theorem childInode_eq : childInode db p name = (db.childIno p name).bind db.getInode := rfl

theorem child_none (h : childInode db p name = none) : (treeOf db).child p name = none := by
  unfold Tree.child treeOf nodeOf
  rw [childInode_eq] at h
  dsimp only
  cases hc : db.childIno p name with
  | none => rfl
  | some i =>
    rw [hc, Option.bind_some] at h
    rw [Option.bind_some, h]
    rfl

theorem child_some {x : Inode} (h : childInode db p name = some x) : ∃ target, (treeOf db).child p name =
    some (x.ino, ⟨x.kind, x.nlink, x.derived, target⟩) := by
  obtain ⟨hc, hrow⟩ := childInode_named h
  unfold Tree.child treeOf nodeOf
  dsimp only
  rw [hc, Option.bind_some, hrow]
  exact ⟨_, rfl⟩

theorem treeOf_removeDerived : treeOf (removeDerivedSibling db p name) = (treeOf db).dropSibling p name := by
  unfold removeDerivedSibling Tree.dropSibling
  cases hx : childInode db p name with
  | none => rw [child_none hx]
  | some x =>
    obtain ⟨target, hchild⟩ := child_some hx
    rw [hchild]
    dsimp only
    split_ifs
    · rw [← treeOf_delChild]
      exact treeOf_delInode
    · rfl

theorem treeOf_cascadeUnlink :
    treeOf (cascadeUnlinkDerivedSiblings db p name) = (treeOf db).dropSiblings p name := by
  unfold cascadeUnlinkDerivedSiblings Tree.dropSiblings
  induction derivedSiblingSuffixes generalizing db with
  | nil => rfl
  | cons suffix rest ih =>
    rw [List.foldl_cons, List.foldl_cons, ih, treeOf_removeDerived]

/-- An entry does not move exactly if its inode has a further name. -/
theorem elsewhere_of_stays (hwf : WellFormed db)
    (hm : Fs.moveDentries (db.delChild p' name') i p' name' = none) : (treeOf db).Elsewhere p name p' name' i := by
  unfold Fs.moveDentries at hm
  split_ifs at hm with hno
  have hcleared : ¬ ∃ d ∈ (db.delChild p' name').dentries, d.ino ≠ i ∧ d.parentIno = p' ∧ d.name = name' := by
    rintro ⟨d, hd, -, hpar, hname⟩
    exact (mem_delChild.mp hd).2 (Prod.ext hpar hname)
  have htwo := hno.resolve_right hcleared
  by_contra hnone
  have hall : ∀ d ∈ (db.delChild p' name').dentries.filter fun d => d.ino = i, d = ⟨name, p, i⟩ := by
    intro d hd
    obtain ⟨hmem, hi⟩ := List.mem_filter.mp hd
    obtain ⟨hmem, hd'⟩ := mem_delChild.mp hmem
    obtain rfl : d.ino = i := of_decide_eq_true hi
    by_contra hd
    refine hnone ⟨d.parentIno, d.name, fun he => hd ?_, hd', childIno_mem hwf.distinct hmem⟩
    obtain ⟨hp, hn⟩ := Prod.mk.inj he
    rw [← hp, ← hn]
  have hnodup : ((db.delChild p' name').dentries.filter fun d => d.ino = i).Nodup :=
    (List.Nodup.of_map _ (hwf.delChild p' name').distinct).filter _
  rw [List.eq_replicate_of_mem hall, List.nodup_replicate] at hnodup
  omega

theorem not_elsewhere_of_moves (hc : db.childIno p name = some i) (hne : (p, name) ≠ (p', name'))
    (hm : Fs.moveDentries (db.delChild p' name') i p' name' = some db') : ¬ (treeOf db).Elsewhere p name p' name' i := by
  rintro ⟨q, n, hq, hq', he⟩
  have hold : (⟨name, p, i⟩ : Dentry) ∈ (db.delChild p' name').dentries := mem_delChild.mpr ⟨childIno_some hc, hne⟩
  have hother : (⟨n, q, i⟩ : Dentry) ∈ (db.delChild p' name').dentries := mem_delChild.mpr ⟨childIno_some he, hq'⟩
  have hsame := moveDentries_only hm hother hold rfl rfl
  cases hsame
  exact hq rfl

theorem treeOf_moved (hwf : WellFormed db) (hp : p' < db.nextIno) (hc : db.childIno p name = some i)
    (hne : (p, name) ≠ (p', name')) (hm : Fs.moveDentries (db.delChild p' name') i p' name' = some db') :
    treeOf db' = (treeOf db).move p name p' name' := by
  obtain ⟨hi, -, hs, -, hn⟩ := moveDentries_rows hm
  have hold : (⟨name, p, i⟩ : Dentry) ∈ (db.delChild p' name').dentries := mem_delChild.mpr ⟨childIno_some hc, hne⟩
  have hdistinct := ((hwf.delChild p' name').moveDentries hp hm).distinct
  refine Tree.ext ?_ ?_ hn
  · funext j
    show nodeOf db' j = nodeOf db j
    unfold nodeOf Db.getInode targetOf
    rw [hi, hs]
    rfl
  · funext q n
    show db'.childIno q n = if q = p' ∧ n = name' then db.childIno p name else if q = p ∧ n = name then none else db.childIno q n
    refine Option.ext fun k => ?_
    rw [childIno_iff hdistinct, mem_moveDentries hm, mem_delChild]
    split_ifs with hnew hat
    · obtain ⟨rfl, rfl⟩ := hnew
      rw [hc, Option.some.injEq]
      constructor
      · rintro (⟨⟨-, hk⟩, -⟩ | ⟨he, -⟩)
        · exact absurd rfl hk
        · cases he
          rfl
      · rintro rfl
        exact .inr ⟨rfl, _, hold, rfl⟩
    · obtain ⟨rfl, rfl⟩ := hat
      refine iff_of_false ?_ (by simp)
      rintro (⟨⟨hmem, -⟩, hk⟩ | ⟨he, -⟩)
      · have hchild := childIno_mem hwf.distinct hmem
        exact hk (Option.some.inj (hchild.symm.trans hc))
      · cases he
        exact hnew ⟨rfl, rfl⟩
    · rw [childIno_iff hwf.distinct]
      constructor
      · rintro (⟨⟨hmem, -⟩, -⟩ | ⟨he, -⟩)
        · exact hmem
        · cases he
          exact absurd ⟨rfl, rfl⟩ hnew
      · intro hmem
        refine .inl ⟨⟨hmem, fun hk => hnew (Prod.mk.inj hk)⟩, fun hk => hat ?_⟩
        have hother : (⟨n, q, k⟩ : Dentry) ∈ (db.delChild p' name').dentries :=
          mem_delChild.mpr ⟨hmem, fun hk => hnew (Prod.mk.inj hk)⟩
        have hsame := moveDentries_only hm hother hold hk rfl
        cases hsame
        exact ⟨rfl, rfl⟩

theorem treeOf_renameDerived (hwf : WellFormed db) (hp : p' < db.nextIno) (hne : (p, name) ≠ (p', name')) :
    treeOf (renameDerivedSibling db p name p' name') = (treeOf db).moveSibling p name p' name' := by
  unfold renameDerivedSibling Tree.moveSibling
  cases hx : childInode db p name with
  | none => rw [child_none hx]
  | some x =>
    obtain ⟨target, hchild⟩ := child_some hx
    obtain ⟨hc, -⟩ := childInode_named hx
    rw [hchild]
    dsimp only
    by_cases hd : x.derived = true
    · rw [if_pos hd, if_pos hd]
      cases hm : Fs.moveDentries (db.delChild p' name') x.ino p' name' with
      | none =>
        rw [if_pos (elsewhere_of_stays hwf hm)]
        exact treeOf_delChild
      | some db' =>
        rw [if_neg (not_elsewhere_of_moves hc hne hm)]
        exact treeOf_moved hwf hp hc hne hm
    · rw [if_neg hd, if_neg hd]

theorem treeOf_cascadeRename (hwf : WellFormed db) (hp : p' < db.nextIno) (hne : (p, name) ≠ (p', name')) :
    treeOf (cascadeRenameDerivedSiblings db p name p' name') = (treeOf db).moveSiblings p name p' name' := by
  unfold cascadeRenameDerivedSiblings Tree.moveSiblings
  induction derivedSiblingSuffixes generalizing db with
  | nil => rfl
  | cons suffix rest ih =>
    obtain ⟨hwf', hn⟩ := hwf.renameDerived (p := p) hp (name ++ suffix) (name' ++ suffix)
    rw [List.foldl_cons, List.foldl_cons, ih hwf' (hn ▸ hp), treeOf_renameDerived hwf hp (Cascade.apart hne suffix)]

/-! ### The calls -/

theorem node_none (h : db.getInode i = none) : (treeOf db).node i = none := by
  show nodeOf db i = none
  rw [nodeOf, h, Option.map_none]

theorem node_some {x : Inode} (h : db.getInode i = some x) :
    ∃ target, (treeOf db).node i = some ⟨x.kind, x.nlink, x.derived, target⟩ :=
  ⟨_, congrArg (Option.map _) h⟩

theorem vacant_shown : (treeOf db).vacant p name = Fs.vacant db p name := by
  unfold Tree.vacant Fs.vacant
  cases hp : db.getInode p with
  | none => rw [node_none hp]
  | some parent =>
    obtain ⟨target, hnode⟩ := node_some hp
    rw [hnode]
    dsimp only
    have hentry : ((treeOf db).entry p name).isSome = (db.child p name).isSome := Option.isSome_map
    rw [hentry]

theorem bare_shown : (treeOf db).Bare i ↔ ¬ (db.dentries.filter fun d => d.parentIno = i).length > 0 := by
  rw [gt_iff_lt, List.length_pos_iff_exists_mem]
  constructor
  · rintro h ⟨d, hd⟩
    obtain ⟨hmem, hpar⟩ := List.mem_filter.mp hd
    obtain rfl : d.parentIno = i := of_decide_eq_true hpar
    have hsome := childIno_isSome hmem
    rw [show db.childIno d.parentIno d.name = none from h d.name] at hsome
    cases hsome
  · intro h n
    by_contra hne
    obtain ⟨k, hk⟩ := Option.ne_none_iff_exists'.mp hne
    exact h ⟨_, List.mem_filter.mpr ⟨childIno_some hk, decide_eq_true rfl⟩⟩

theorem mkdir_does (hwf : WellFormed db) : Does db (Fs.mkdir db p name) ((treeOf db).mkdir p name) := by
  unfold Fs.mkdir Tree.mkdir
  rw [vacant_shown]
  cases validateName name with
  | error e => exact ⟨rfl, rfl⟩
  | ok _ =>
    cases hv : Fs.vacant db p name with
    | error e => exact ⟨rfl, rfl⟩
    | ok _ =>
      refine ⟨⟨_, rfl⟩, (treeOf_updNlink (f := fun n => n + 1)).trans ?_⟩
      exact congrArg (fun t : Tree => t.relink p fun n => n + 1)
        (treeOf_create hwf.bounded (by decide) (vacant_ok hv).2)

theorem createFile_does (hwf : WellFormed db) : Does db (Fs.createFile db online p name) ((treeOf db).create p name) := by
  rw [createFile_eq]
  unfold Tree.create
  rw [vacant_shown]
  cases validateName name with
  | error e => exact ⟨rfl, rfl⟩
  | ok _ =>
    cases hv : Fs.vacant db p name with
    | error e => exact ⟨rfl, rfl⟩
    | ok _ => exact ⟨⟨_, rfl⟩, treeOf_create hwf.bounded (by decide) (vacant_ok hv).2⟩

theorem symlink_does {target : String} (hwf : WellFormed db) (hnew : targetOf db db.nextIno = none) :
    Does db (Fs.symlink db p name target) ((treeOf db).symlink p name target) := by
  unfold Fs.symlink Tree.symlink
  rw [vacant_shown]
  cases validateName name with
  | error e => exact ⟨rfl, rfl⟩
  | ok _ =>
    cases hv : Fs.vacant db p name with
    | error e => exact ⟨rfl, rfl⟩
    | ok _ => exact ⟨⟨_, rfl⟩, treeOf_symlink hwf.bounded hnew (vacant_ok hv).2⟩

theorem link_does : Does db (Fs.link db i p name) ((treeOf db).link p name i) := by
  unfold Fs.link Tree.link
  cases validateName name with
  | error e => exact ⟨rfl, rfl⟩
  | ok _ =>
    cases hx : db.getInode i with
    | none =>
      rw [node_none hx]
      exact ⟨rfl, rfl⟩
    | some x =>
      obtain ⟨target, hnode⟩ := node_some hx
      rw [hnode, vacant_shown]
      dsimp only
      by_cases hk : x.kind = .dir
      · rw [if_pos hk, if_pos hk]
        exact ⟨rfl, rfl⟩
      · rw [if_neg hk, if_neg hk]
        cases hv : Fs.vacant db p name with
        | error e => exact ⟨rfl, rfl⟩
        | ok _ =>
          have hnode : (treeOf (db.updInode i fun x => { x with nlink := x.nlink + 1 })).node =
              ((treeOf db).relink i fun n => n + 1).node := congrArg Tree.node (treeOf_updNlink (f := fun n => n + 1))
          refine ⟨⟨_, rfl⟩, Tree.ext hnode ?_ rfl⟩
          funext q n
          refine childIno_addDentry.trans ?_
          show (db.childIno q n).or _ = if q = p ∧ n = name then some i else db.childIno q n
          split_ifs with hq
          · rw [hq.1, hq.2, (vacant_ok hv).2]
            rfl
          · rw [Option.or_none]

theorem rmdir_does : Does db (Fs.rmdir db p name) ((treeOf db).rmdir p name) := by
  unfold Fs.rmdir Tree.rmdir
  cases validateName name with
  | error e => exact ⟨rfl, rfl⟩
  | ok _ =>
    cases hx : childInode db p name with
    | none =>
      rw [child_none hx]
      exact ⟨rfl, rfl⟩
    | some x =>
      obtain ⟨target, hchild⟩ := child_some hx
      rw [hchild]
      dsimp only
      by_cases hk : x.kind ≠ .dir
      · rw [if_pos hk, if_pos hk]
        exact ⟨rfl, rfl⟩
      · rw [if_neg hk, if_neg hk]
        by_cases hbare : (treeOf db).Bare x.ino
        · rw [if_neg (bare_shown.mp hbare), if_neg (not_not.mpr hbare)]
          refine ⟨⟨_, rfl⟩, (treeOf_updNlink (f := fun n => max (n - 1) 2)).trans ?_⟩
          rw [treeOf_delInode, treeOf_delChild]
        · rw [if_pos (not_not.mp fun h => hbare (bare_shown.mpr h)), if_pos hbare]
          exact ⟨rfl, rfl⟩

theorem treeOf_unlinkEnqueue {fp : Option String} : treeOf (unlinkEnqueue db online fp i nowMs) = treeOf db := by
  obtain ⟨q, hq⟩ := unlinkEnqueue_cases db online fp i nowMs
  rw [hq]
  exact treeOf_same rfl rfl rfl rfl

theorem unlink_does : Does db (Fs.unlink db online p name nowMs) ((treeOf db).unlink p name) := by
  unfold Fs.unlink Tree.unlink
  cases validateName name with
  | error e => exact ⟨rfl, rfl⟩
  | ok _ =>
    by_cases hp : p = ROOT_INO ∧ name = PROFILE_NAME
    · dsimp only
      rw [if_pos hp, if_pos (by simpa using hp)]
      exact ⟨rfl, rfl⟩
    · dsimp only
      rw [if_neg hp, if_neg (by simpa using hp)]
      cases hx : childInode db p name with
      | none =>
        rw [child_none hx]
        exact ⟨rfl, rfl⟩
      | some x =>
        obtain ⟨target, hchild⟩ := child_some hx
        rw [hchild]
        dsimp only
        by_cases hk : x.kind = .dir
        · rw [if_pos hk, if_pos hk]
          exact ⟨rfl, rfl⟩
        · rw [if_neg hk, if_neg hk]
          refine ⟨⟨_, rfl⟩, treeOf_cascadeUnlink.trans ?_⟩
          rw [treeOf_unlinkEnqueue, treeOf_unlinkTables]

theorem mayReplace_shown {src dst : Inode} {target target' : Option String} :
    (treeOf db).mayReplace ⟨src.kind, src.nlink, src.derived, target⟩ ⟨dst.kind, dst.nlink, dst.derived, target'⟩ dst.ino =
      Fs.mayReplace db src dst := by
  unfold Tree.mayReplace Fs.mayReplace
  dsimp only
  by_cases hbare : (treeOf db).Bare dst.ino
  · rw [if_pos hbare, if_neg (bare_shown.mp hbare)]
  · rw [if_neg hbare, if_pos (not_not.mp fun h => hbare (bare_shown.mpr h))]

/-- What stands under the new name goes, and the entry moves. -/
theorem replace_shown {src : Inode} (p' : Ino) (name' : String) (target : Option String) (hc : db.childIno p name = some src.ino) :
    match renameTables db src p name p' name' with
    | .error e => (treeOf db).replace p' name' src.ino ⟨src.kind, src.nlink, src.derived, target⟩ = .error e
    | .ok none => (treeOf db).replace p' name' src.ino ⟨src.kind, src.nlink, src.derived, target⟩ = .ok none
    | .ok (some r) => ∃ cleared,
        (treeOf db).replace p' name' src.ino ⟨src.kind, src.nlink, src.derived, target⟩ = .ok (some cleared) ∧
          treeOf r.db = cleared.move p name p' name' := by
  unfold renameTables Tree.replace
  have hentry : (treeOf db).entry p' name' = db.childIno p' name' := rfl
  rw [hentry]
  cases hj : db.childIno p' name' with
  | none =>
    refine ⟨_, rfl, treeOf_moveChild hj fun he => ?_⟩
    obtain ⟨rfl, rfl⟩ := Prod.mk.inj he
    rw [hc] at hj
    cases hj
  | some j =>
    dsimp only
    by_cases hne : j = src.ino
    · rw [if_pos hne, if_pos hne]
    · rw [if_neg hne, if_neg hne]
      cases hdst : db.getInode j with
      | none => rw [node_none hdst]
      | some dst =>
        obtain ⟨target', hnode⟩ := node_some hdst
        obtain rfl := getInode_ino hdst
        rw [hnode]
        dsimp only
        rw [mayReplace_shown]
        cases Fs.mayReplace db src dst with
        | error e => rfl
        | ok _ =>
          refine ⟨_, rfl, (treeOf_moveChild ?_ fun he => ?_).trans ?_⟩
          · exact childIno_delChild.trans (if_pos ⟨rfl, rfl⟩)
          · obtain ⟨rfl, rfl⟩ := Prod.mk.inj he
            exact hne (Option.some.inj (hj.symm.trans hc))
          · rw [treeOf_purge, treeOf_delChild]

theorem treeOf_renamePush {r : Renamed} {oldFp newFp dstFp : Option String} :
    treeOf (renamePush r online i oldFp newFp dstFp nowMs) = treeOf r.db := by
  obtain ⟨q, hq | ⟨fp, rid, -, -, -, -, hq⟩⟩ := renamePush_cases (r := r) online i oldFp newFp dstFp nowMs
  · rw [hq]
    exact treeOf_same rfl rfl rfl rfl
  · rw [hq]
    exact treeOf_same rfl rfl rfl rfl

theorem rename_does (hwf : WellFormed db) :
    Does db (Fs.rename db online p name p' name' nowMs) ((treeOf db).rename p name p' name') := by
  unfold Fs.rename Tree.rename
  have hentry : (treeOf db).entry p name = db.childIno p name := rfl
  rw [hentry]
  cases hv : validateName name with
  | error e => exact ⟨rfl, rfl⟩
  | ok _ =>
    cases hv' : validateName name' with
    | error e => exact ⟨rfl, rfl⟩
    | ok _ =>
      dsimp only
      cases hc : db.childIno p name with
      | none => exact ⟨rfl, rfl⟩
      | some i =>
        cases hpar : db.getInode p' with
        | none =>
          rw [node_none hpar]
          exact ⟨rfl, rfl⟩
        | some parent =>
          obtain ⟨_, hnode⟩ := node_some hpar
          rw [hnode]
          dsimp only
          by_cases hd : parent.kind ≠ .dir
          · rw [if_pos hd, if_pos hd]
            exact ⟨rfl, rfl⟩
          · rw [if_neg hd, if_neg hd]
            cases hx : db.getInode i with
            | none =>
              rw [node_none hx]
              exact ⟨rfl, rfl⟩
            | some src =>
              obtain ⟨target, hsrc⟩ := node_some hx
              obtain rfl := getInode_ino hx
              rw [hsrc]
              dsimp only
              have hreplace := replace_shown p' name' target hc
              cases ht : renameTables db src p name p' name' with
              | error e =>
                rw [ht] at hreplace
                rw [hreplace]
                exact ⟨rfl, rfl⟩
              | ok o =>
                rw [ht] at hreplace
                cases o with
                | none =>
                  rw [hreplace]
                  exact ⟨⟨_, rfl⟩, rfl⟩
                | some r =>
                  obtain ⟨cleared, hcleared, htree⟩ := hreplace
                  have hchild : childInode db p name = some src := (Cascade.childInode_of hc).trans hx
                  have hr : Renames db p name p' name' src :=
                    ⟨⟨hv, hv'⟩, hchild, ⟨parent, hpar, not_not.mp hd⟩, (renameTables_cases ht).2.1⟩
                  obtain ⟨hmid, hp, -, -⟩ := hwf.pushed hr (pushed_of_tables online nowMs ht)
                  rw [hcleared]
                  refine ⟨⟨_, rfl⟩, (treeOf_cascadeRename hmid hp hr.apart).trans ?_⟩
                  rw [treeOf_renamePush, htree]

theorem readlink_shown : (treeOf db).readlink i = Fs.readlink db i := by
  unfold Tree.readlink Fs.readlink
  show (match nodeOf db i with | none => _ | some x => _) = _
  unfold nodeOf targetOf
  cases db.getInode i with
  | none => rfl
  | some x =>
    dsimp only [Option.map_some]
    by_cases hk : x.kind ≠ .lnk
    · rw [if_pos hk, if_pos hk]
    · rw [if_neg hk, if_neg hk, if_pos (not_not.mp hk)]
      cases Table.get Prod.fst db.symlinks i <;> rfl

theorem regular_shown : (treeOf db).regular i = (Fs.openFile db online i).map fun _ => () := by
  unfold Tree.regular Fs.openFile
  cases hx : db.getInode i with
  | none =>
    rw [node_none hx]
    rfl
  | some x =>
    obtain ⟨target, hnode⟩ := node_some hx
    rw [hnode]
    dsimp only
    cases x.kind <;> rfl

/-! ### The symlinks -/

/-- No symlink has a number that is not given out yet. -/
def Unborn (db : Db) : Prop := ∀ i, db.nextIno ≤ i → targetOf db i = none

/-- Nothing but `symlink` adds one. -/
structure NoSymlink (db db' : Db) : Prop where
  symlinks : db'.symlinks ⊆ db.symlinks
  next : db.nextIno ≤ db'.nextIno

theorem NoSymlink.same (hs : db'.symlinks = db.symlinks) (hn : db.nextIno ≤ db'.nextIno) : NoSymlink db db' :=
  ⟨hs ▸ List.Subset.refl _, hn⟩

theorem NoSymlink.trans {db₁ : Db} (h : NoSymlink db db₁) (h' : NoSymlink db₁ db') : NoSymlink db db' :=
  ⟨List.Subset.trans h'.symlinks h.symlinks, h.next.trans h'.next⟩

theorem targetOf_none : targetOf db i = none ↔ ∀ row ∈ db.symlinks, row.1 ≠ i := by
  unfold targetOf
  rw [Option.map_eq_none_iff, Table.get_none]

theorem Unborn.keep (h : Unborn db) (hn : NoSymlink db db') : Unborn db' := by
  intro i hi
  rw [targetOf_none]
  exact fun row hrow => targetOf_none.mp (h i (hn.next.trans hi)) row (hn.symlinks hrow)

theorem noSymlink_purge : NoSymlink db (purge db i) := ⟨List.filter_subset_self _, le_rfl⟩

theorem unlink_noSymlink : NoSymlink db (unlink db online p name nowMs).2 := by
  rcases unlink_cases db online p name nowMs with he | ⟨x, q, -, he⟩
  · rw [he]
    exact .same rfl le_rfl
  · have htables : NoSymlink db { unlinkTables db p name x with queue := q } := by
      unfold unlinkTables
      dsimp only
      split_ifs
      · exact ⟨noSymlink_purge.symlinks, le_rfl⟩
      · exact .same rfl le_rfl
    rw [he]
    unfold cascadeUnlinkDerivedSiblings
    generalize ({ unlinkTables db p name x with queue := q } : Db) = d at htables
    induction derivedSiblingSuffixes generalizing d with
    | nil => exact htables
    | cons s suffixes ih =>
      refine ih (removeDerivedSibling d p (name ++ s)) (htables.trans ?_)
      rcases removeDerived_cases d p (name ++ s) with he | ⟨y, -, -, he⟩
      · rw [he]
        exact .same rfl le_rfl
      · rw [he]
        exact .same rfl le_rfl

theorem rename_noSymlink : NoSymlink db (rename db online p name p' name' nowMs).2 := by
  rcases rename_cases db online p name p' name' nowMs with he | ⟨src, d, -, hd, he⟩
  · rw [he]
    exact .same rfl le_rfl
  · have htables : NoSymlink db (renamedTables db p name p' name') := by
      unfold renamedTables
      cases db.childIno p' name' with
      | none => exact .same rfl le_rfl
      | some j => exact ⟨noSymlink_purge.symlinks, le_rfl⟩
    have hstart : NoSymlink db d := by
      cases hd with
      | queued q => exact ⟨htables.symlinks, htables.next⟩
      | carried client carries replaced mapped => exact ⟨htables.symlinks, htables.next⟩
    rw [he]
    unfold cascadeRenameDerivedSiblings
    clear hd he
    induction derivedSiblingSuffixes generalizing d with
    | nil => exact hstart
    | cons s suffixes ih =>
      refine ih (renameDerivedSibling d p (name ++ s) p' (name' ++ s)) (hstart.trans ?_)
      rcases renameDerived_cases d p (name ++ s) p' (name' ++ s) with he | ⟨y, -, -, he | hm⟩
      · rw [he]
        exact .same rfl le_rfl
      · rw [he]
        exact .same rfl le_rfl
      · obtain ⟨-, -, hs, -, hn⟩ := moveDentries_rows hm
        exact .same hs hn.ge

theorem mkdir_noSymlink : NoSymlink db (mkdir db p name).2 := by
  rcases mkdir_cases db p name with he | ⟨-, -, he⟩
  · rw [he]
    exact .same rfl le_rfl
  · rw [he]
    exact .same rfl (Nat.le_succ _)

theorem createFile_noSymlink : NoSymlink db (createFile db online p name).2 := by
  rcases createFile_cases db online p name with he | ⟨-, -, he⟩
  · rw [he]
    exact .same rfl le_rfl
  · rw [he]
    exact .same rfl (Nat.le_succ _)

theorem link_noSymlink : NoSymlink db (link db i p name).2 := by
  rcases link_cases db i p name with he | ⟨x, -, -, -, -, he⟩
  · rw [he]
    exact .same rfl le_rfl
  · rw [he]
    exact .same rfl le_rfl

theorem rmdir_noSymlink : NoSymlink db (rmdir db p name).2 := by
  rcases rmdir_cases db p name with he | ⟨x, -, -, -, -, he⟩
  · rw [he]
    exact .same rfl le_rfl
  · rw [he]
    exact .same rfl le_rfl

theorem symlink_unborn {target : String} (h : Unborn db) : Unborn (symlink db p name target).2 := by
  rcases symlink_cases db p name target with he | ⟨-, -, he⟩
  · rwa [he]
  · rw [he]
    intro i hi
    have hlt : db.nextIno < i := hi
    have htarget : targetOf ((addSymlink (db.addInode .lnk 1 target.utf8ByteSize false).1 db.nextIno target).addDentry
        name p db.nextIno) i = (targetOf db i).or (if db.nextIno = i then some target else none) := targetOf_addSymlink
    rw [htarget, h i hlt.le, if_neg hlt.ne]
    rfl

theorem unborn_fresh : Unborn .fresh := fun _ _ => rfl

end Lemmas

end Shown
end Smfs
