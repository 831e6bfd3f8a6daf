/-
# Link counts of directories

A directory has two links of its own and one for each directory in it.
`mkdir`, `ensure_dirs` and `rmdir` keep the count of the parent. `rename` does
not touch it, so a directory that leaves its parent or replaces another one
leaves the counts wrong; nothing else does (`Subdirs.directory_links`).

Key definitions: `Subdirs.subdirs`, `Subdirs.DirLinks`, `Subdirs.Act`, `Subdirs.StaysPut`.
Key theorems: `Subdirs.Tidy.moved`, `Subdirs.Tidy.renamed_links`, `Subdirs.directory_links`, `Subdirs.moves_directory`.
-/
import Smfs.Names.Cascade
import Smfs.Names.Links
import Smfs.Names.Lookup

namespace Smfs
namespace Subdirs

open Db Fs Trans Cache

/-- The kind and the link count in the row of an inode. -/
def rowOf (db : Db) (i : Ino) : Option (FileKind × ℤ) := (db.getInode i).map fun x => (x.kind, x.nlink)

def isDir (db : Db) (i : Ino) : Bool := (db.getInode i).any fun x => x.kind = .dir

/-- The number of entries of a directory whose inodes are as asked. -/
def inside (db : Db) (i : Ino) (is : Ino → Bool) : ℕ := db.dentries.countP fun d => d.parentIno = i && is d.ino

/-- The number of directories in a directory. -/
def subdirs (db : Db) (i : Ino) : ℕ := inside db i (isDir db)

/-- The link count of every directory is two more than the number of directories in it. -/
def DirLinks (db : Db) : Prop := ∀ i x, db.getInode i = some x → x.kind = .dir → x.nlink = 2 + subdirs db i

/-- A call of the file system, or `ensure_dirs`. -/
inductive Act
  | name (op : NameOp)
  | ensureDirs (path : String)
  | write (f : SqliteFile) (offset : ℕ) (data : Bytes)
  | truncate (f : SqliteFile) (size : ℕ)
  | flush (f : SqliteFile)
  | setattr (ino : Ino) (size : ℕ)
  deriving DecidableEq

def Act.call : Act → Cache.Call
  | .name op => .tree (.name op)
  | .ensureDirs path => .tree (.ensureDirs path)
  | .write f offset data => .write f offset data
  | .truncate f size => .truncate f size
  | .flush f => .flush f
  | .setattr ino size => .setattr ino size

/-- A call at a time. -/
def step (online : Bool) (db : Db) (a : ℤ × Act) : Option Db := some (a.2.call.apply db online a.1)

/-- No directory is moved, except within its parent to a free name; or over
another one out of what is no directory. -/
def StaysPut (db : Db) (a : ℤ × Act) : Prop :=
  match a.2 with
  | .name (.rename p n p' n') => ∀ src, Renames db p n p' n' src → src.kind = .dir →
      (db.childIno p' n' = none → p = p') ∧ ((db.childIno p' n').isSome = true → isDir db p = false)
  | _ => True

section Lemmas

variable {db db' : Db} {i j k p p' : Ino} {name name' : String} {is : Ino → Bool}

/-! ### Entries inside a directory -/

theorem inside_congr {is' : Ino → Bool} (hd : db'.dentries = db.dentries)
    (his : ∀ d ∈ db.dentries, is' d.ino = is d.ino) :
    inside db' i is' = inside db i is := by
  unfold inside
  rw [hd]
  refine List.countP_congr fun d hm => ?_
  rw [his d hm]

theorem inside_addDentry : inside (db.addDentry name p k) i is = inside db i is + if p = i ∧
    is k = true then 1 else 0 := by
  show (db.dentries ++ [(⟨name, p, k⟩ : Dentry)]).countP _ = _
  rw [List.countP_append, List.countP_singleton]
  simp only [Bool.and_eq_true, decide_eq_true_eq]
  rfl

theorem inside_delChild (i : Ino) (is : Ino → Bool) (h : WellFormed db) (hc : db.childIno p name = some k) :
    inside db i is = inside (db.delChild p name) i is + if p = i ∧ is k = true then 1 else 0 := by
  obtain ⟨d, hd, rfl⟩ := Option.map_eq_some_iff.mp hc
  rw [child_eq] at hd
  have hname : d.parentIno = p := congrArg Prod.fst (Table.get_some hd).2
  have hcount := Table.countP_erase h.distinct hd fun d => d.parentIno = i && is d.ino
  unfold inside
  rw [delChild_eq, hcount]
  simp only [Bool.and_eq_true, decide_eq_true_eq, hname]

theorem inside_moveChild (p' : Ino) (name' : String) (i : Ino) (is : Ino → Bool) (h : WellFormed db)
    (hc : db.childIno p name = some k) :
    inside (moveChild db p name p' name') i is + (if p = i ∧ is k = true then 1 else 0) =
      inside db i is + if p' = i ∧ is k = true then 1 else 0 := by
  obtain ⟨d, hd, rfl⟩ := Option.map_eq_some_iff.mp hc
  rw [child_eq] at hd
  have hname : d.parentIno = p := congrArg Prod.fst (Table.get_some hd).2
  have hcount := Table.countP_change h.distinct hd (fun d => { d with parentIno := p', name := name' })
    fun d => d.parentIno = i && is d.ino
  simp only [Bool.and_eq_true, decide_eq_true_eq, hname] at hcount
  rw [moveChild_eq]
  exact hcount

/-- A directory without entries has none inside. -/
theorem inside_bare (h : ∀ d ∈ db.dentries, d.parentIno ≠ i) : inside db i is = 0 := by
  unfold inside
  rw [List.countP_eq_zero]
  intro d hd he
  simp only [Bool.and_eq_true, decide_eq_true_eq] at he
  exact h d hd he.1

/-! ### Rows -/

theorem isDir_iff : isDir db i = true ↔ ∃ x, db.getInode i = some x ∧ x.kind = .dir := by
  unfold isDir
  rw [Option.any_eq_true]
  simp only [decide_eq_true_eq]

theorem isDir_row : isDir db i = true ↔ ∃ n, rowOf db i = some (.dir, n) := by
  rw [isDir_iff]
  unfold rowOf
  constructor
  · rintro ⟨x, hx, hk⟩
    exact ⟨x.nlink, by rw [hx, Option.map_some, hk]⟩
  · rintro ⟨n, hn⟩
    obtain ⟨x, hx, he⟩ := Option.map_eq_some_iff.mp hn
    exact ⟨x, hx, congrArg Prod.fst he⟩

theorem dirLinks_iff : DirLinks db ↔ ∀ i n, rowOf db i = some (.dir, n) → n = 2 + subdirs db i := by
  constructor
  · intro h i n hn
    obtain ⟨x, hx, he⟩ := Option.map_eq_some_iff.mp hn
    have hlinks : x.nlink = n := congrArg Prod.snd he
    rw [← hlinks]
    exact h i x hx (congrArg Prod.fst he)
  · intro h i x hx hk
    exact h i x.nlink (by rw [rowOf, hx, Option.map_some, hk])

theorem rowOf_addInode {kind : FileKind} {nlink size : ℤ} {derived : Bool} (h : db.Bounded) :
    rowOf (db.addInode kind nlink size derived).1 i = if i = db.nextIno then some (kind, nlink) else rowOf db i := by
  unfold rowOf
  rw [h.getInode_addInode]
  split_ifs <;> rfl

theorem rowOf_updNlink {f : ℤ → ℤ} : rowOf (db.updInode j fun x => { x with nlink := f x.nlink }) i =
    if i = j then (rowOf db i).map fun r => (r.1, f r.2) else rowOf db i := by
  have hf : ∀ x : Inode, ({ x with nlink := f x.nlink } : Inode).ino = x.ino := fun _ => rfl
  unfold rowOf
  rw [getInode_updInode hf]
  split_ifs with hij
  · rw [hij, Option.map_map, Option.map_map]
    rfl
  · rfl

theorem rowOf_delInode : rowOf (db.delInode j) i = if i = j then none else rowOf db i := by
  unfold rowOf
  rw [getInode_delInode]
  split_ifs <;> rfl

theorem isDir_fresh (h : db.Bounded) (hi : db.nextIno ≤ i) : isDir db i = false := by
  rw [← Bool.not_eq_true, isDir_iff]
  rintro ⟨x, hx, -⟩
  exact absurd (h.getInode hx) (not_lt.mpr hi)

theorem isDir_congr (h : db'.inodes = db.inodes) : isDir db' i = isDir db i := by
  unfold isDir Db.getInode
  rw [h]

theorem isDir_addInode {kind : FileKind} {nlink size : ℤ} {derived : Bool} (h : db.Bounded) :
    isDir (db.addInode kind nlink size derived).1 i = if i = db.nextIno then decide (kind = .dir) else isDir db i := by
  unfold isDir
  rw [h.getInode_addInode]
  split_ifs <;> rfl

theorem isDir_updNlink {f : ℤ → ℤ} : isDir (db.updInode j fun x => { x with nlink := f x.nlink }) i = isDir db i := by
  have hf : ∀ x : Inode, ({ x with nlink := f x.nlink } : Inode).ino = x.ino := fun _ => rfl
  unfold isDir
  rw [getInode_updInode hf]
  split_ifs with hij
  · rw [hij]
    cases db.getInode j <;> rfl
  · rfl

theorem isDir_delInode : isDir (db.delInode j) i = if i = j then false else isDir db i := by
  unfold isDir
  rw [getInode_delInode]
  split_ifs <;> rfl

theorem isDir_child {x : Inode} (hx : childInode db p name = some x) : isDir db x.ino = decide (x.kind = .dir) := by
  rw [isDir, (childInode_named hx).2]
  rfl

/-! ### What every call keeps -/

/-- No inode is derived, every directory has one name at most, and the link counts are right. -/
structure Tidy (db : Db) : Prop where
  wf : WellFormed db
  plain : ∀ x ∈ db.inodes, x.derived = false
  single : ∀ i, isDir db i = true → names db i ≤ 1
  links : DirLinks db

theorem Tidy.start : Tidy .fresh where
  wf := .start
  plain := by decide
  single := fun _ _ => Nat.zero_le 1
  links := by
    intro i x hx _
    obtain ⟨hm, -⟩ := Table.get_some hx
    obtain rfl := List.mem_singleton.mp hm
    rfl

/-- The directories are as they were, and so is what is in them. -/
theorem Tidy.same (h : Tidy db) (hwf : WellFormed db') (hplain : ∀ x ∈ db'.inodes, x.derived = false)
    (hdir : ∀ i, isDir db' i = isDir db i) (hrow : ∀ i, isDir db i = true → rowOf db' i = rowOf db i)
    (hnames : ∀ i, isDir db i = true → names db' i ≤ names db i)
    (hsub : ∀ i, isDir db i = true → subdirs db' i = subdirs db i) : Tidy db' := by
  refine ⟨hwf, hplain, fun i hi => ?_, dirLinks_iff.mpr fun i n hn => ?_⟩
  · rw [hdir] at hi
    exact (hnames i hi).trans (h.single i hi)
  · have hi : isDir db i = true := by
      rw [← hdir]
      exact isDir_row.mpr ⟨n, hn⟩
    rw [hrow i hi] at hn
    rw [hsub i hi]
    exact dirLinks_iff.mp h.links i n hn

theorem plain_addInode {kind : FileKind} {nlink size : ℤ} (h : ∀ x ∈ db.inodes, x.derived = false) :
    ∀ x ∈ (db.addInode kind nlink size false).1.inodes, x.derived = false := by
  intro x hx
  rcases List.mem_append.mp hx with hx | hx
  · exact h x hx
  · rw [List.mem_singleton.mp hx]

theorem plain_updInode {f : Inode → Inode} (hf : ∀ x, (f x).derived = x.derived)
    (h : ∀ x ∈ db.inodes, x.derived = false) :
    ∀ x ∈ (db.updInode j f).inodes, x.derived = false := by
  intro x hx
  obtain ⟨y, hy, rfl⟩ := List.mem_map.mp hx
  split_ifs
  · rw [hf]
    exact h y hy
  · exact h y hy

theorem plain_delInode (h : ∀ x ∈ db.inodes, x.derived = false) : ∀ x ∈ (db.delInode j).inodes, x.derived = false :=
  fun x hx => h x (List.mem_filter.mp hx).1

theorem names_addDentry : names (db.addDentry name p k) i = names db i + if k = i then 1 else 0 :=
  congrArg Cache.View.names view_addDentry

/-- An entry that leads to no directory comes. -/
theorem Tidy.addFile (h : Tidy db) (hk : isDir db k = false) (hfree : db.childIno p name = none) (hp : p < db.nextIno)
    (hlt : k < db.nextIno) (hroot : k ≠ ROOT_INO) : Tidy (db.addDentry name p k) := by
  refine h.same (h.wf.addDentry hfree hp hlt hroot) h.plain (fun _ => rfl) (fun _ _ => rfl) (fun i hi =>
    ?_) fun i _ => ?_
  · have hne : k ≠ i := by
      rintro rfl
      rw [hk] at hi
      cases hi
    rw [names_addDentry, if_neg hne]
    exact le_refl _
  · refine inside_addDentry.trans ?_
    rw [if_neg fun he => ?_]
    · rfl
    · have hd : isDir (db.addDentry name p k) k = isDir db k := rfl
      rw [hd, hk] at he
      cases he.2

/-- An inode that is no directory comes. -/
theorem Tidy.addInode {kind : FileKind} {nlink size : ℤ} (h : Tidy db) (hk : kind ≠ .dir) :
    Tidy (db.addInode kind nlink size false).1 := by
  have hdir (i : Ino) : isDir (db.addInode kind nlink size false).1 i = isDir db i := by
    rw [isDir_addInode h.wf.bounded]
    split_ifs with hi
    · rw [hi, isDir_fresh h.wf.bounded (le_refl _), decide_eq_false hk]
    · rfl
  refine h.same (h.wf.addInode fun hd => by cases hd) (plain_addInode h.plain) hdir
    (fun i hi => ?_) (fun _ _ => le_refl _)
    fun i _ => inside_congr rfl fun d _ => hdir d.ino
  rw [rowOf_addInode h.wf.bounded, if_neg]
  rintro rfl
  rw [isDir_fresh h.wf.bounded (le_refl _)] at hi
  cases hi

/-- The link count of what is no directory changes. -/
theorem Tidy.updFile {f : ℤ → ℤ} (h : Tidy db) (hj : isDir db j = false) :
    Tidy (db.updInode j fun x => { x with nlink := f x.nlink }) := by
  refine h.same h.wf.updNlink (plain_updInode (fun _ => rfl) h.plain) (fun _ => isDir_updNlink) (fun i hi => ?_)
    (fun _ _ => le_refl _) fun i _ => inside_congr rfl fun d _ => isDir_updNlink
  rw [rowOf_updNlink, if_neg]
  rintro rfl
  rw [hj] at hi
  cases hi

/-- An entry that leads to no directory goes. -/
theorem Tidy.delFile (h : Tidy db) (hc : db.childIno p name = some k) (hk : isDir db k = false) :
    Tidy (db.delChild p name) := by
  refine h.same (h.wf.delChild p name) h.plain (fun _ => rfl) (fun _ _ => rfl) (fun i _ => ?_) fun i _ => ?_
  · rw [names_delChild h.wf hc]
    exact Nat.le_add_right _ _
  · have hcount := inside_delChild i (isDir db) h.wf hc
    rw [hk, if_neg (by simp)] at hcount
    exact hcount.symm

/-- What is no directory goes. -/
theorem Tidy.purgeFile (h : Tidy db) (hj : isDir db j = false) (hroot : j ≠ ROOT_INO) : Tidy (Fs.purge db j) := by
  have hdir (i : Ino) : isDir (Fs.purge db j) i = isDir db i := by
    refine isDir_delInode.trans ?_
    split_ifs with hi
    · rw [hi, hj]
    · rfl
  refine h.same (h.wf.purge hroot) (plain_delInode h.plain) hdir (fun i hi => ?_) (fun _ _ => le_refl _)
    fun i _ => inside_congr rfl fun d _ => hdir d.ino
  refine rowOf_delInode.trans ?_
  rw [if_neg]
  · rfl
  · rintro rfl
    rw [hj] at hi
    cases hi

/-- The directory in which an entry is or was made has it counted. -/
theorem Tidy.addDir (h : Tidy db) (hfree : db.childIno p name = none) (hp : p < db.nextIno) :
    Tidy (newDir db name p) := by
  have hb := h.wf.bounded
  have hdir (i : Ino) : isDir (newDir db name p) i = if i = db.nextIno then true else isDir db i := by
    refine (isDir_updNlink (f := fun n => n + 1)).trans ((isDir_addInode hb).trans ?_)
    rfl
  have hold (d : Dentry) (hd : d ∈ db.dentries) : isDir (newDir db name p) d.ino = isDir db d.ino := by
    rw [hdir, if_neg (hb.dentries d hd).ne]
  have hnames (i : Ino) : names (newDir db name p) i = names db i + if db.nextIno = i then 1 else 0 := names_addDentry
  have hsub (i : Ino) : subdirs (newDir db name p) i = subdirs db i + if p = i then 1 else 0 := by
    have hcount : inside (newDir db name p) i (isDir (newDir db name p)) =
        inside db i (isDir (newDir db name p)) + if p = i ∧ isDir (newDir db name p) db.nextIno = true then 1 else 0 :=
      inside_addDentry
    rw [hdir, if_pos rfl] at hcount
    unfold subdirs
    rw [hcount, inside_congr rfl hold]
    simp
  have hrow (i : Ino) : rowOf (newDir db name p) i = if i = db.nextIno then some (.dir, 2)
      else if i = p then (rowOf db i).map fun r => (r.1, r.2 + 1) else rowOf db i := by
    refine (rowOf_updNlink (f := fun n => n + 1)).trans ?_
    have hadd : rowOf ((db.addInode .dir 2 0 false).1.addDentry name p db.nextIno) i =
        if i = db.nextIno then some (.dir, 2) else rowOf db i := rowOf_addInode hb
    rw [hadd]
    by_cases hi : i = db.nextIno
    · rw [if_pos hi, if_pos hi, if_neg fun he => hp.ne (he.symm.trans hi)]
    · rw [if_neg hi, if_neg hi]
  have hwf : WellFormed (newDir db name p) :=
    (h.wf.create (fun hd => by cases hd) hfree hp).updNlink (f := fun n => n + 1)
  refine ⟨hwf, plain_updInode (fun _ => rfl) (plain_addInode h.plain), fun i hi => ?_,
    dirLinks_iff.mpr fun i n hn => ?_⟩
  · rw [hnames]
    by_cases hnew : i = db.nextIno
    · have hnone : names db i = 0 := by
        refine Nat.eq_zero_of_not_pos fun hpos => ?_
        obtain ⟨d, hd, hi⟩ := names_pos.mp hpos
        exact (hb.dentries d hd).ne (hi.trans hnew)
      rw [hnone]
      split_ifs <;> omega
    · rw [hdir, if_neg hnew] at hi
      rw [if_neg (Ne.symm hnew)]
      exact h.single i hi
  · rw [hrow] at hn
    rw [hsub]
    by_cases hnew : i = db.nextIno
    · rw [if_pos hnew] at hn
      cases hn
      have hnone : subdirs db i = 0 := inside_bare fun d hd => by
        rw [hnew]
        exact (h.wf.parents d hd).ne
      rw [hnone, if_neg fun he => hp.ne (he.trans hnew)]
      rfl
    · rw [if_neg hnew] at hn
      by_cases hi : i = p
      · rw [if_pos hi] at hn
        obtain ⟨r, hr, he⟩ := Option.map_eq_some_iff.mp hn
        obtain ⟨kind, m⟩ := r
        cases he
        have hlinks := dirLinks_iff.mp h.links i m hr
        rw [if_pos hi.symm]
        push_cast
        omega
      · rw [if_neg hi] at hn
        rw [if_neg (Ne.symm hi)]
        exact dirLinks_iff.mp h.links i n hn

/-- An entry and its inode are gone. -/
structure Dropped (db : Db) (p : Ino) (name : String) (j : Ino) (db' : Db) : Prop where
  dirs : ∀ i, isDir db' i = if i = j then false else isDir db i
  rows : ∀ i, rowOf db' i = if i = j then none else rowOf db i
  names : ∀ i, names db i = names db' i + if j = i then 1 else 0
  subdirs : ∀ i, subdirs db i = subdirs db' i + if p = i ∧ isDir db j = true then 1 else 0

theorem Tidy.dropped (h : Tidy db) (hc : db.childIno p name = some j)
    (hd : db'.dentries = (db.delChild p name).dentries)
    (hi : ∀ i, db'.getInode i = if i = j then none else db.getInode i) : Dropped db p name j db' := by
  have hdirs (i : Ino) : isDir db' i = if i = j then false else isDir db i := by
    unfold isDir
    rw [hi]
    split_ifs <;> rfl
  have hnames (i : Ino) : names db i = names db' i + if j = i then 1 else 0 := by
    have hsame : names db' i = names (db.delChild p name) i := names_of_inos (by rw [hd])
    rw [names_delChild h.wf hc, hsame]
  refine ⟨hdirs, fun i => ?_, hnames, fun i => ?_⟩
  · unfold rowOf
    rw [hi]
    split_ifs <;> rfl
  · have hcount := inside_delChild i (isDir db) h.wf hc
    have hrest : inside db' i (isDir db') = inside (db.delChild p name) i (isDir db) := by
      refine inside_congr hd fun d hm => ?_
      rw [hdirs]
      by_cases hdj : d.ino = j
      · rw [if_pos hdj, hdj, eq_comm, ← Bool.not_eq_true]
        -- a directory has no other name
        intro hdir
        have hone := h.single j hdir
        have hpos : 0 < names db' j := names_pos.mpr ⟨d, by rw [hd]; exact hm, hdj⟩
        rw [hnames, if_pos rfl] at hone
        omega
      · rw [if_neg hdj]
    unfold subdirs
    rw [hcount, hrest]

/-- A directory that nothing is in goes with its entry, and the parent has one
link less. What the clamp hides does not occur. -/
theorem Tidy.rmdir (h : Tidy db) : Tidy (rmdir db p name).2 := by
  rcases rmdir_cases db p name with he | ⟨x, -, hx, hk, hbare, he⟩
  · rwa [he]
  obtain ⟨hc, -⟩ := childInode_named hx
  have hxdir : isDir db x.ino = true := by rw [isDir_child hx, decide_eq_true hk]
  have hpx : p ≠ x.ino := fun hp => hbare _ (childIno_some hc) hp
  have hdrop : Dropped db p name x.ino ((db.delChild p name).delInode x.ino) :=
    h.dropped hc rfl fun _ => getInode_delInode
  have hwf : WellFormed (((db.delChild p name).delInode x.ino).updInode p fun y =>
    { y with nlink := max (y.nlink - 1) 2 }) :=
    ((h.wf.delChild p name).delInode (h.wf.ne_root hc)).updNlink (f := fun n => max (n - 1) 2)
  have hdir (i : Ino) : isDir (((db.delChild p name).delInode x.ino).updInode p fun y =>
    { y with nlink := max (y.nlink - 1) 2 }) i =
      isDir ((db.delChild p name).delInode x.ino) i := isDir_updNlink (f := fun n => max (n - 1) 2)
  have hsub (i : Ino) : subdirs (((db.delChild p name).delInode x.ino).updInode p fun y =>
      { y with nlink := max (y.nlink - 1) 2 }) i = subdirs ((db.delChild p name).delInode x.ino) i :=
    inside_congr rfl fun d _ => hdir d.ino
  rw [he]
  refine ⟨hwf, plain_updInode (fun _ => rfl) (plain_delInode h.plain), fun i hi => ?_,
    dirLinks_iff.mpr fun i n hn => ?_⟩
  · rw [hdir, hdrop.dirs] at hi
    split_ifs at hi
    have hone := h.single i hi
    rw [hdrop.names] at hone
    exact (Nat.le_add_right _ _).trans hone
  · rw [rowOf_updNlink (f := fun n => max (n - 1) 2), hdrop.rows] at hn
    have hcount := hdrop.subdirs i
    rw [hsub]
    by_cases hi : i = p
    · rw [if_pos hi, if_neg fun he => hpx (hi.symm.trans he)] at hn
      obtain ⟨⟨kind, m⟩, hr, he⟩ := Option.map_eq_some_iff.mp hn
      cases he
      have hlinks := dirLinks_iff.mp h.links i m hr
      rw [if_pos ⟨hi.symm, hxdir⟩] at hcount
      rw [hcount] at hlinks
      push_cast at hlinks
      have hmax : max (m - 1) 2 = m - 1 := max_eq_left (by omega)
      rw [hmax]
      omega
    · rw [if_neg hi] at hn
      split_ifs at hn
      rw [if_neg fun hp => hi hp.1.symm, Nat.add_zero] at hcount
      rw [← hcount]
      exact dirLinks_iff.mp h.links i n hn

/-! ### Renames -/

theorem mayReplace_kind {src dst : Inode} (h : mayReplace db src dst = .ok ()) : dst.kind = .dir ↔ src.kind = .dir := by
  unfold mayReplace at h
  by_cases hs : src.kind = .dir
  · rw [if_pos hs] at h
    by_cases hd : dst.kind = .dir
    · exact iff_of_true hd hs
    · rw [if_pos hd] at h
      cases h
  · rw [if_neg hs] at h
    by_cases hd : dst.kind = .dir
    · rw [if_pos hd] at h
      cases h
    · exact iff_of_false hd hs

theorem names_moveChild : names (Fs.moveChild db p name p' name') i = names db i := by
  rw [moveChild_eq]
  exact names_of_inos (Table.map_modify _ _ _ _ fun _ _ => rfl)

/-- What a rename changes of a directory: it loses the entry that moves away, and
gains it unless it loses another directory for it. -/
structure Moved (db : Db) (p : Ino) (p' : Ino) (name' : String) (src : Inode) (t : Db) : Prop where
  gone : ∀ i, db.childIno p' name' = some i → isDir t i = false
  dirs : ∀ i, db.childIno p' name' ≠ some i → isDir t i = isDir db i
  rows : ∀ i, db.childIno p' name' ≠ some i → rowOf t i = rowOf db i
  names : ∀ i, names t i ≤ names db i
  subdirs : ∀ i, db.childIno p' name' ≠ some i → subdirs t i + (if p = i ∧ src.kind = .dir then 1 else 0) =
    subdirs db i + if p' = i ∧ src.kind = .dir ∧ db.childIno p' name' = none then 1 else 0

theorem Tidy.moved {src : Inode} (h : Tidy db) (hr : Renames db p name p' name' src) :
    Moved db p p' name' src (renamedTables db p name p' name') := by
  obtain ⟨hc, -⟩ := childInode_named hr.source
  have hsrc := isDir_child hr.source
  cases hj : db.childIno p' name' with
  | none =>
    have ht : renamedTables db p name p' name' = Fs.moveChild db p name p' name' := by
      unfold renamedTables
      rw [hj]
    rw [ht]
    refine ⟨fun i he => ?_, fun _ _ => rfl, fun _ _ => rfl, fun i => ?_, fun i _ => ?_⟩
    · rw [hj] at he
      cases he
    · exact (names_moveChild).le
    · have hcount := inside_moveChild p' name' i (isDir db) h.wf hc
      simp only [hsrc, decide_eq_true_eq] at hcount
      simp only [hj, and_true]
      exact hcount
  | some j =>
    obtain ⟨hne, dst, hdst, hmay⟩ := hr.replaced j hj
    have ht : renamedTables db p name p' name' = Fs.moveChild (Fs.purge (db.delChild p' name') j) p name p' name' := by
      unfold renamedTables
      rw [hj]
    have hdrop : Dropped db p' name' j (Fs.purge (db.delChild p' name') j) :=
      h.dropped hj rfl fun _ => getInode_delInode
    have hwf : WellFormed (Fs.purge (db.delChild p' name') j) := (h.wf.delChild p' name').purge (h.wf.ne_root hj)
    have hc' : (Fs.purge (db.delChild p' name') j).childIno p name = some src.ino := by
      have hdel : (db.delChild p' name').childIno p name = some src.ino := by
        rw [childIno_delChild, if_neg, hc]
        rintro ⟨rfl, rfl⟩
        rw [hc] at hj
        exact hne (Option.some.inj hj).symm
      exact hdel
    have hdirs (i : Ino) : isDir (renamedTables db p name p' name') i = if i = j then false else isDir db i := by
      rw [ht]
      exact hdrop.dirs i
    -- what moves and what it replaces are directories both, or neither is
    have hboth : isDir db j = decide (src.kind = .dir) := by
      have hdj : isDir db j = decide (dst.kind = .dir) := by
        unfold isDir
        rw [hdst]
        rfl
      rw [hdj, decide_eq_decide]
      exact mayReplace_kind hmay
    rw [ht] at hdirs ⊢
    refine ⟨fun i he => ?_, fun i he => ?_, fun i he => ?_, fun i => ?_, fun i he => ?_⟩
    · rw [hj] at he
      rw [hdirs, if_pos (Option.some.inj he).symm]
    · rw [hdirs, if_neg fun hij => he (by rw [hj, hij])]
    · exact (hdrop.rows i).trans (if_neg fun hij => he (by rw [hj, hij]))
    · rw [names_moveChild, hdrop.names]
      exact Nat.le_add_right _ _
    · have hcount := inside_moveChild p' name' i (isDir (Fs.purge (db.delChild p' name') j)) hwf hc'
      have hsub := hdrop.subdirs i
      rw [hboth] at hsub
      rw [hdrop.dirs, if_neg (Ne.symm hne), hsrc] at hcount
      simp only [decide_eq_true_eq] at hcount hsub
      simp only [hj, reduceCtorEq, and_false, if_false, Nat.add_zero]
      rw [hsub]
      exact hcount

/-- **A rename leaves the link counts right exactly if it moves no directory out
of its parent and replaces none.** -/
theorem Tidy.renamed_links {src : Inode} (h : Tidy db) (hr : Renames db p name p' name' src) :
    DirLinks (renamedTables db p name p' name') ↔ (src.kind = .dir →
      (db.childIno p' name' = none → p = p') ∧ ((db.childIno p' name').isSome = true → isDir db p = false)) := by
  have hm := h.moved hr
  obtain ⟨hc, -⟩ := childInode_named hr.source
  rw [dirLinks_iff]
  constructor
  · intro hlinks hk
    constructor
    · -- the new parent has gained a directory
      intro hfree
      obtain ⟨n, hn⟩ := isDir_row.mp (isDir_iff.mpr hr.parent)
      have hnone : db.childIno p' name' ≠ some p' := by
        rw [hfree]
        simp
      have hcount := hm.subdirs p' hnone
      have hbefore := dirLinks_iff.mp h.links p' n hn
      have hafter := hlinks p' n ((hm.rows p' hnone).trans hn)
      rw [if_pos (show p' = p' ∧ src.kind = .dir ∧ db.childIno p' name' = none from ⟨rfl, hk, hfree⟩)] at hcount
      by_contra hne
      rw [if_neg fun he => hne he.1] at hcount
      omega
    · -- the old parent has lost one
      intro hsome
      obtain ⟨j, hj⟩ := Option.isSome_iff_exists.mp hsome
      obtain ⟨-, dst, hdst, hmay⟩ := hr.replaced j hj
      by_contra hp
      obtain ⟨n, hn⟩ := isDir_row.mp (Bool.not_eq_false _ ▸ hp)
      have hpj : db.childIno p' name' ≠ some p := by
        rw [hj]
        rintro he
        obtain rfl := Option.some.inj he
        have hbare := mayReplace_bare hmay ((mayReplace_kind hmay).mpr hk)
        rw [getInode_ino hdst] at hbare
        exact hbare _ (childIno_some hc) rfl
      have hcount := hm.subdirs p hpj
      have hbefore := dirLinks_iff.mp h.links p n hn
      have hafter := hlinks p n ((hm.rows p hpj).trans hn)
      rw [if_pos ⟨rfl, hk⟩, hj] at hcount
      simp only [reduceCtorEq, and_false, if_false] at hcount
      omega
  · intro hok i n hn
    have hdir : isDir (renamedTables db p name p' name') i = true := isDir_row.mpr ⟨n, hn⟩
    have hi : db.childIno p' name' ≠ some i := by
      intro he
      rw [hm.gone i he] at hdir
      cases hdir
    have hcount := hm.subdirs i hi
    rw [hm.rows i hi] at hn
    rw [dirLinks_iff.mp h.links i n hn]
    by_cases hk : src.kind = .dir
    · obtain ⟨hfree, htaken⟩ := hok hk
      cases hj : db.childIno p' name' with
      | none =>
        obtain rfl := hfree hj
        simp only [hj, and_true] at hcount
        omega
      | some j =>
        have hp : p ≠ i := by
          rintro rfl
          rw [hm.dirs p hi, htaken (by rw [hj]; rfl)] at hdir
          cases hdir
        rw [hj, if_neg fun he => hp he.1] at hcount
        simp only [reduceCtorEq, and_false, if_false] at hcount
        omega
    · simp only [hk, and_false, false_and, if_false, Nat.add_zero] at hcount
      rw [hcount]

theorem Tidy.renamed {src : Inode} (h : Tidy db) (hr : Renames db p name p' name' src)
    (hlinks : DirLinks (renamedTables db p name p' name')) : Tidy (renamedTables db p name p' name') := by
  have hm := h.moved hr
  refine ⟨(h.wf.renamed hr).1, fun x hx => h.plain x ?_, fun i hi => ?_, hlinks⟩
  · unfold renamedTables at hx
    split at hx
    · exact hx
    · exact (List.mem_filter.mp hx).1
  · by_cases hj : db.childIno p' name' = some i
    · rw [hm.gone i hj] at hi
      cases hi
    · rw [hm.dirs i hj] at hi
      exact (hm.names i).trans (h.single i hi)

theorem dirLinks_congr (hi : db'.inodes = db.inodes) (hd : db'.dentries = db.dentries) :
    DirLinks db' ↔ DirLinks db := by
  have hrow (i : Ino) : rowOf db' i = rowOf db i := by
    unfold rowOf Db.getInode
    rw [hi]
  have hsub (i : Ino) : subdirs db' i = subdirs db i := inside_congr hd fun d _ => isDir_congr hi
  simp only [dirLinks_iff, hrow, hsub]

theorem Tidy.congr (h : Tidy db) (hwf : WellFormed db') (hi : db'.inodes = db.inodes)
    (hd : db'.dentries = db.dentries) :
    Tidy db' := by
  refine ⟨hwf, hi ▸ h.plain, fun i hdir => ?_, (dirLinks_congr hi hd).mpr h.links⟩
  rw [isDir_congr hi] at hdir
  rw [show names db' i = names db i from names_of_inos (by rw [hd])]
  exact h.single i hdir

/-- A rename, with what it pushes; no sibling is there to go with it. -/
theorem rename_tidy {online : Bool} {nowMs : ℤ} (h : Tidy db) :
    (DirLinks (rename db online p name p' name' nowMs).2 ↔ StaysPut db (nowMs, .name (.rename p name p' name'))) ∧
      (StaysPut db (nowMs, .name (.rename p name p' name')) → Tidy (rename db online p name p' name' nowMs).2) := by
  by_cases hex : ∃ src, Renames db p name p' name' src
  · obtain ⟨src, hr⟩ := hex
    obtain ⟨r, ht⟩ := Cascade.renameTables_ok hr
    have hone : StaysPut db (nowMs, .name (.rename p name p' name')) ↔ (src.kind = .dir →
        (db.childIno p' name' = none → p = p') ∧ ((db.childIno p' name').isSome = true → isDir db p = false)) := by
      constructor
      · exact fun hok => hok src hr
      · intro hok src' hr'
        obtain rfl : src = src' := Option.some.inj (hr.source.symm.trans hr'.source)
        exact hok
    rw [@Cascade.rename_of_checks _ online nowMs _ _ _ _ _ _ hr ht]
    obtain ⟨hwf, -, hd, hi⟩ := h.wf.pushed hr (pushed_of_tables online nowMs ht)
    have hplain : ∀ x ∈ (renamePush r online src.ino (childPath db p name) (childPath r.db p' name') (childPath db p' name')
        nowMs).inodes, x.derived = false := by
      rw [hi]
      intro x hx
      unfold renamedTables at hx
      split at hx
      · exact h.plain x hx
      · exact h.plain x (List.mem_filter.mp hx).1
    rw [cascadeRename_plain hplain, hone, dirLinks_congr hi hd, h.renamed_links hr]
    exact ⟨Iff.rfl, fun hok => (h.renamed hr ((h.renamed_links hr).mpr hok)).congr hwf hi hd⟩
  · have hstill : (rename db online p name p' name' nowMs).2 = db := by
      rcases rename_cases db online p name p' name' nowMs with he | ⟨src, -, hr, -⟩
      · exact he
      · exact absurd ⟨src, hr⟩ hex
    have hok : StaysPut db (nowMs, .name (.rename p name p' name')) := fun src hr => absurd ⟨src, hr⟩ hex
    rw [hstill]
    exact ⟨iff_of_true h.links hok, fun _ => h⟩

/-! ### The other calls -/

theorem Tidy.create {kind : FileKind} {nlink size : ℤ} (h : Tidy db) (hk : kind ≠ .dir)
    (hfree : db.childIno p name = none)
    (hp : p < db.nextIno) : Tidy ((db.addInode kind nlink size false).1.addDentry name p db.nextIno) := by
  refine (h.addInode hk).addFile ?_ hfree (hp.trans (Nat.lt_succ_self _)) (Nat.lt_succ_self _) h.wf.root_lt.ne'
  rw [isDir_addInode h.wf.bounded, if_pos rfl, decide_eq_false hk]

theorem unlink_tidy {online : Bool} {nowMs : ℤ} (h : Tidy db) : Tidy (unlink db online p name nowMs).2 := by
  rcases unlink_cases db online p name nowMs with he | ⟨x, q, hu, he⟩
  · rwa [he]
  obtain ⟨hc, -⟩ := childInode_named hu.source
  have hfile : isDir db x.ino = false := by rw [isDir_child hu.source, decide_eq_false hu.file]
  have htables : Tidy (unlinkTables db p name x) := by
    unfold unlinkTables
    dsimp only
    have hdel := (h.delFile hc hfile).updFile (j := x.ino) (f := fun n => n - 1) hfile
    split_ifs
    · exact hdel.purgeFile ((isDir_updNlink (f := fun n => n - 1)).trans hfile) (h.wf.ne_root hc)
    · exact hdel
  have hqueue : Tidy { unlinkTables db p name x with queue := q } := htables.congr htables.wf.queue rfl rfl
  rw [he, cascadeUnlink_plain hqueue.plain]
  exact hqueue

theorem link_tidy (h : Tidy db) : Tidy (link db i p name).2 := by
  rcases link_cases db i p name with he | ⟨x, -, hx, hk, hvac, he⟩
  · rwa [he]
  obtain ⟨⟨y, hy, -⟩, hfree⟩ := vacant_ok hvac
  have hfile : isDir db i = false := by
    rw [isDir, hx]
    exact decide_eq_false hk
  have hroot : i ≠ ROOT_INO := by
    rintro rfl
    have hsort := h.wf.root
    rw [sortOf, hx] at hsort
    exact hk (congrArg Prod.fst (Option.some.inj hsort))
  rw [he]
  exact (h.updFile (f := fun n => n + 1) hfile).addFile ((isDir_updNlink (f := fun n => n + 1)).trans hfile) hfree
    (h.wf.bounded.getInode hy) (h.wf.bounded.getInode hx) hroot

theorem name_tidy {online : Bool} {nowMs : ℤ} {op : NameOp} (h : Tidy db) (hok : StaysPut db (nowMs, .name op)) :
    Tidy (op.apply db online nowMs).2 := by
  cases op with
  | mkdir p n =>
    show Tidy (mkdir db p n).2
    rcases mkdir_cases db p n with he | ⟨-, hvac, he⟩
    · rwa [he]
    · obtain ⟨⟨x, hx, -⟩, hfree⟩ := vacant_ok hvac
      rw [he]
      exact h.addDir hfree (h.wf.bounded.getInode hx)
  | rmdir p n => exact h.rmdir
  | createFile p n =>
    show Tidy (createFile db online p n).2
    rcases createFile_cases db online p n with he | ⟨-, hvac, he⟩
    · rwa [he]
    · obtain ⟨⟨x, hx, -⟩, hfree⟩ := vacant_ok hvac
      rw [he]
      exact h.create (by simp) hfree (h.wf.bounded.getInode hx)
  | unlink p n => exact unlink_tidy h
  | symlink p n t =>
    show Tidy (symlink db p n t).2
    have hwf : WellFormed (symlink db p n t).2 := name_wf h.wf online nowMs (.symlink p n t)
    rcases symlink_cases db p n t with he | ⟨-, hvac, he⟩
    · rwa [he]
    · obtain ⟨⟨x, hx, -⟩, hfree⟩ := vacant_ok hvac
      have hnew := @Tidy.create _ _ _ .lnk 1 t.utf8ByteSize h (by simp) hfree (h.wf.bounded.getInode hx)
      exact hnew.congr hwf (by rw [he]; rfl) (by rw [he]; rfl)
  | link i p n => exact link_tidy h
  | rename p n p' n' => exact rename_tidy h |>.2 hok

theorem ensureParts_tidy {parts : List String} : ∀ {db : Db} {p : Ino}, Tidy db → p < db.nextIno →
    Tidy (ensureParts db p parts).1 := by
  induction parts with
  | nil => exact fun h _ => h
  | cons part parts ih =>
    intro db p h hp
    unfold ensureParts ensureDir
    cases hc : db.childIno p part with
    | some k => exact ih h (h.wf.bounded.childIno hc)
    | none => exact ih (h.addDir hc hp) (Nat.lt_succ_self _)

/-- Sizes and dates of a row change. -/
theorem Tidy.content {f : Inode → Inode} (h : Tidy db) (hwf : WellFormed db') (hd : db'.dentries = db.dentries)
    (hi : db'.inodes = (db.updInode j f).inodes) (hf : ∀ x, (f x).ino = x.ino ∧ (f x).kind = x.kind ∧
      (f x).nlink = x.nlink ∧ (f x).derived = x.derived) : Tidy db' := by
  have hget (i : Ino) : db'.getInode i = if i = j then (db.getInode j).map f else db.getInode i := by
    have hsame : db'.getInode i = (db.updInode j f).getInode i := by
      unfold Db.getInode
      rw [hi]
    rw [hsame, getInode_updInode fun x => (hf x).1]
  have hrow (i : Ino) : rowOf db' i = rowOf db i := by
    unfold rowOf
    rw [hget]
    split_ifs with hij
    · rw [hij]
      cases db.getInode j with
      | none => rfl
      | some x =>
        obtain ⟨-, hk, hn, -⟩ := hf x
        rw [Option.map_some, Option.map_some, hk, hn, Option.map_some]
    · rfl
  have hdir (i : Ino) : isDir db' i = isDir db i := by
    rw [Bool.eq_iff_iff, isDir_row, isDir_row, hrow]
  have hplain : ∀ x ∈ db'.inodes, x.derived = false := by
    rw [hi]
    exact plain_updInode (fun x => (hf x).2.2.2) h.plain
  exact h.same hwf hplain hdir (fun i _ => hrow i) (fun i _ => (names_of_inos (by rw [hd])).le)
    fun i _ => inside_congr hd fun d _ => hdir d.ino

theorem truncate_tidy {f : SqliteFile} {size : ℕ} (h : Tidy db) : Tidy (f.truncate db size) := by
  have hsame : SameTree db (f.truncate db size) := truncate_sameTree
  refine h.content (j := f.ino) (f := fun i => { i with size := asI64 size }) (hsame.wf h.wf) hsame.dentries ?_
    fun x => ⟨rfl, rfl, rfl, rfl⟩
  unfold SqliteFile.truncate
  dsimp only
  split_ifs
  · rfl
  · split
    · split_ifs <;> rfl
    · rfl

theorem call_tidy {online : Bool} {nowMs : ℤ} {act : Act} (h : Tidy db) (hok : StaysPut db (nowMs, act)) :
    Tidy (act.call.apply db online nowMs) := by
  cases act with
  | name op => exact name_tidy h hok
  | ensureDirs path => exact ensureParts_tidy h h.wf.root_lt
  | write f offset data =>
    show Tidy (f.write db offset data nowMs).2
    have hsame : SameTree db (f.write db offset data nowMs).2 := write_sameTree h.wf.bounded
    have hwf := hsame.wf h.wf
    have hd := hsame.dentries
    unfold SqliteFile.write at hwf hd ⊢
    split_ifs at hwf hd ⊢
    · exact h
    · exact h
    · cases hx : db.getInode f.ino with
      | none => exact h
      | some x =>
        rw [hx] at hwf hd
        refine h.content (j := f.ino) (f := fun i =>
          { i with size := asI64 (max (asU64 x.size) (offset + data.length)), dirtySince := some nowMs }) hwf hd ?_
          fun x => ⟨rfl, rfl, rfl, rfl⟩
        show Table.modify Inode.ino (SqliteFile.writeChunks db f.ino data.length offset data).inodes f.ino _ = _
        rw [SqliteFile.writeChunks_inodes.1]
        rfl
  | truncate f size => exact truncate_tidy h
  | flush f =>
    show Tidy (f.flush db nowMs)
    have hcases : f.flush db nowMs = db ∨ _ := SqliteFile.flush_queue
    rcases hcases with he | ⟨fp, op, rid, -, he⟩
    · rwa [he]
    · rw [he]
      exact h.congr h.wf.queue rfl rfl
  | setattr ino size =>
    show Tidy (setattrSize db ino size).2
    unfold setattrSize
    cases db.getInode ino with
    | none => exact h
    | some x =>
      dsimp only
      split
      · exact h
      · exact h
      · exact truncate_tidy h

end Lemmas

/-! ### Runs -/

section Run

variable {db : Db} {online : Bool}

/-- **In every run no rename of which moves a directory out of its parent or
replaces one, every directory has two links and one for each directory in it;
and from each state of such a run a call leaves the counts right exactly if it
is no such rename.** -/
theorem directory_links : ∀ db, Reach (step online) StaysPut .fresh db →
    DirLinks db ∧ ∀ a t, step online db a = some t → (DirLinks t ↔ StaysPut db a) := by
  intro db hdb
  have htidy : Tidy db := hdb.inv (I := Tidy) .start fun s a t hI hok hst => by
    cases hst
    exact call_tidy hI hok
  refine ⟨htidy.links, fun a t hst => ?_⟩
  cases hst
  obtain ⟨nowMs, act⟩ := a
  by_cases hrename : ∃ p n p' n', act = .name (.rename p n p' n')
  · obtain ⟨p, n, p', n', rfl⟩ := hrename
    exact (rename_tidy htidy).1
  · have hok : StaysPut db (nowMs, act) := by
      cases act with
      | name op =>
        cases op with
        | rename p n p' n' => exact absurd ⟨p, n, p', n', rfl⟩ hrename
        | _ => trivial
      | _ => trivial
    exact iff_of_true (call_tidy htidy hok).links hok

/-- A directory in another one gets another name. -/
theorem directory_links_renamed : ∃ db, db.dentries = [⟨"a", 1, 2⟩, ⟨"c", 2, 3⟩] ∧
    db.inodes.map Inode.nlink = [3, 3, 2] ∧ Reach (step true) StaysPut .fresh db ∧ DirLinks db := by
  have hmade : Reach (step true) StaysPut .fresh (mkdir (mkdir .fresh 1 "a").2 2 "b").2 :=
    (Reach.start.next (a := (0, .name (.mkdir 1 "a"))) trivial rfl).next (a := (0, .name (.mkdir 2 "b"))) trivial rfl
  have hput : StaysPut (mkdir (mkdir .fresh 1 "a").2 2 "b").2 (0, .name (.rename 2 "b" 2 "c")) := by
    refine fun src _ _ => ⟨fun _ => rfl, fun hsome => ?_⟩
    have hnone : ((mkdir (mkdir .fresh 1 "a").2 2 "b").2.childIno 2 "c").isSome = false := by decide
    rw [hnone] at hsome
    cases hsome
  have hrun := hmade.next (a := (0, .name (.rename 2 "b" 2 "c"))) hput rfl
  exact ⟨_, by decide, by decide, hrun, (directory_links _ hrun).1⟩

/-- A directory moves into another one: the root keeps its link, and the new parent gets none. -/
theorem moves_directory : ¬ ∀ db, Reach (step true) anyStep .fresh db → DirLinks db := by
  intro hall
  have hrun : Reach (step true) anyStep .fresh (rename (mkdir (mkdir .fresh 1 "a").2 1 "b").2 true 1 "b" 2 "c" 0).2 :=
    @Reach.of_run _ _ _ _ _ [(0, .name (.mkdir 1 "a")), (0, .name (.mkdir 1 "b")),
      (0, .name (.rename 1 "b" 2 "c"))] _ _ rfl
  have hlinks := hall _ hrun
  have hrow : (rename (mkdir (mkdir .fresh 1 "a").2 1 "b").2 true 1 "b" 2 "c" 0).2.getInode 2 =
      some ⟨2, .dir, 2, 0, none, false⟩ := by decide
  have hsub : subdirs (rename (mkdir (mkdir .fresh 1 "a").2 1 "b").2 true 1 "b" 2 "c" 0).2 2 = 1 := by decide
  have htwo := hlinks 2 _ hrow rfl
  rw [hsub] at htwo
  exact absurd htwo (by decide)

end Run

end Subdirs
end Smfs
