/-
# Which operations return

`create_file`, `unlink` and `rename` walk up from a directory to the root to
learn a path, and the loop of the walk has no end on a cycle. The operations on
names make none but for a `rename` of a directory into itself or below itself,
which nothing refuses: it commits, and its last walk starts on the cycle that
it has made. As long as no step does this every walk ends (`Standing`), and the
step that does it never returns.

Key definitions: `Walks.Returns`, `Walks.StaysAbove`, `Walks.Standing`.
Key theorems: `Walks.Standing.walk`, `Walks.name_standing`, `Walks.returns_iff`.
-/
import Smfs.Names.Paths
import Smfs.Names.Subdirs

namespace Smfs
namespace Walks

open Db Fs Cache Subdirs Relation

/-- The loop of `resolve_filepath` ends. -/
def WalkEnds (db : Db) (ino : Ino) : Prop := ∃ parts, Resolves db ino parts

/-- Every walk of the operation ends: `create_file` makes one once the file is
there, `unlink` one before it looks the name up, and `rename` two then and one
more once the entry has moved. -/
def Returns (db : Db) (online : Bool) : NameOp → Prop
  | .createFile p n => (∃ f, (createFile db online p n).1 = .ok f) → WalkEnds (createFile db online p n).2 p
  | .unlink p n => validateName n = .ok () → ¬ (p = ROOT_INO ∧ n = PROFILE_NAME) → WalkEnds db p
  | .rename p n p' n' => validateName n = .ok () → validateName n' = .ok () → WalkEnds db p ∧ WalkEnds db p' ∧
      ∀ src, Renames db p n p' n' src → WalkEnds (renamedTables db p n p' n') p'
  | _ => True

/-- A directory is not moved into itself or below itself. -/
def StaysAbove (db : Db) : NameOp → Prop
  | .rename p n p' n' => ∀ src, Renames db p n p' n' src → ¬ Below db src.ino p'
  | _ => True

/-- The loops end: that of each walk to the root, with the path that is looked
up, and those of each operation that moves no directory into or below itself. -/
structure Answers (db : Db) : Prop where
  walk : ∀ ino, ∃ parts, Resolves db ino parts ∧ resolveFilepath db ino = parts.map pathOf
  returns : ∀ online op, StaysAbove db op → Returns db online op

/-- No inode is derived, and a directory has one name. -/
structure Single (db : Db) : Prop where
  plain : ∀ x ∈ db.inodes, x.derived = false
  one : ∀ i, isDir db i = true → i ≠ ROOT_INO → names db i = 1

/-- The names are a tree of directories. -/
structure Standing (db : Db) : Prop extends Single db where
  tree : Cache.Inv db
  dirs : ∀ d ∈ db.dentries, isDir db d.parentIno = true

section Lemmas

variable {db db' : Db} {i j k p p' : Ino} {name name' : String} {online : Bool} {nowMs : ℤ}

theorem Standing.wf (h : Standing db) : WellFormed db := h.tree.wf

theorem Standing.start : Standing .fresh where
  tree := .start
  dirs := fun _ hd => (nomatch hd)
  plain := by decide
  one := by
    intro i hi hne
    obtain ⟨x, hx, -⟩ := isDir_iff.mp hi
    obtain ⟨hm, rfl⟩ := Table.get_some hx
    obtain rfl := List.mem_singleton.mp hm
    exact absurd rfl hne

theorem Standing.parented (h : Standing db) : Parented db :=
  ⟨h.wf, fun d hd => (Cache.isDir_iff h.wf).mpr (isDir_iff.mp (h.dirs d hd))⟩

/-- What leaves the tree alone leaves it standing. -/
theorem Standing.sameTree (h : Standing db) (hs : SameTree db db') : Standing db' := by
  have hdir (i : Ino) : isDir db' i = isDir db i := by
    rw [Bool.eq_iff_iff, Subdirs.isDir_iff, Subdirs.isDir_iff, ← Cache.isDir_iff (hs.wf h.wf), ← Cache.isDir_iff h.wf, IsDir, IsDir, hs.sorts]
  refine ⟨⟨hs.plain h.plain, fun i hi hroot => ?_⟩, h.tree.congr (hs.wf h.wf) hs.dentries, fun d hd => ?_⟩
  · rw [names_of_inos (congrArg (List.map Dentry.ino) hs.dentries)]
    exact h.one i (hdir i ▸ hi) hroot
  · rw [hdir]
    exact h.dirs d (hs.dentries ▸ hd)

/-- What no directory is holds nothing. -/
theorem Standing.bare (h : Standing db) (hi : isDir db i = false) : Bare db i := by
  rintro d hd rfl
  rw [h.dirs d hd] at hi
  cases hi

theorem Standing.named (h : Standing db) (hi : isDir db i = true) : Named db i := by
  by_cases hroot : i = ROOT_INO
  · exact .inl hroot
  · have hone := h.one i hi hroot
    exact .inr (names_pos.mp (by omega))

theorem Standing.named_parent (h : Standing db) (hp : ∃ x, db.getInode p = some x ∧ x.kind = .dir) : Named db p :=
  h.named (isDir_iff.mpr hp)

/-- Nothing is a derived file. -/
theorem Standing.notDerived (h : Standing db) : sortOf db i ≠ some (.reg, true) := by
  intro hs
  obtain ⟨x, hx, he⟩ := Option.map_eq_some_iff.mp hs
  have hplain := h.plain x (Table.get_some hx).1
  simp [hplain] at he

/-! ### Walks -/

/-- Every walk ends. -/
theorem Standing.walk (h : Standing db) (i : Ino) : WalkEnds db i := by
  by_cases hi : Named db i
  · have hr := h.tree.reaches hi
    clear hi
    induction hr with
    | root => exact ⟨_, .root⟩
    | @up c has all ih =>
      by_cases hroot : c = ROOT_INO
      · exact hroot ▸ ⟨_, .root⟩
      · obtain ⟨p, e, he, -, rfl⟩ := has
        have hsome : (Table.get Dentry.ino db.dentries e.ino).isSome := Table.get_isSome_of_mem he
        obtain ⟨d, hd⟩ := Option.isSome_iff_exists.mp hsome
        obtain ⟨hm, hino⟩ := Table.get_some hd
        obtain ⟨parts, hparts⟩ := ih d.parentIno ⟨d, hm, rfl, hino⟩
        exact ⟨_, .up hroot hd hparts⟩
  · refine ⟨none, .lost (fun hroot => hi (.inl hroot)) ?_⟩
    refine Table.get_none.mpr fun d hd he => hi (.inr ⟨d, hd, he⟩)

/-- Where every entry of what lies on the loop leads back onto it, and nothing
on it is the root or without entries, no walk from it ends. -/
theorem endless {S : Ino → Prop} (hroot : ¬ S ROOT_INO) (hhas : ∀ c, S c → ∃ d ∈ db.dentries, d.ino = c)
    (hup : ∀ d ∈ db.dentries, S d.ino → S d.parentIno) (hi : S i) : ¬ WalkEnds db i := by
  rintro ⟨parts, hwalk⟩
  induction hwalk with
  | root => exact hroot hi
  | lost _ hd =>
    obtain ⟨d, hm, he⟩ := hhas _ hi
    exact Table.get_none.mp hd d hm he
  | up _ hd _ ih =>
    obtain ⟨hm, rfl⟩ := Table.get_some hd
    exact ih (hup _ hm hi)

/-- A directory has one entry. -/
theorem Standing.entry_eq (h : Standing db) {d e : Dentry} (hd : d ∈ db.dentries) (he : e ∈ db.dentries)
    (hsame : d.ino = e.ino) (hdir : isDir db e.ino = true) : d = e := by
  have hone : names db e.ino = 1 := h.one _ hdir (h.wf.top e he)
  unfold names at hone
  rw [List.countP_eq_length_filter, List.length_eq_one_iff] at hone
  obtain ⟨a, ha⟩ := hone
  have hmem {x : Dentry} (hx : x ∈ db.dentries) (hxe : x.ino = e.ino) : x = a := by
    have hin : x ∈ db.dentries.filter fun d => d.ino = e.ino := List.mem_filter.mpr ⟨hx, decide_eq_true hxe⟩
    rw [ha] at hin
    exact List.mem_singleton.mp hin
  rw [hmem hd hsame, hmem he rfl]

theorem Standing.isDir_of_below (h : Standing db) (hb : Below db i p) (hp : isDir db p = true) : isDir db i = true := by
  rcases ReflTransGen.cases_head hb with rfl | ⟨c, ⟨d, hd, rfl, -⟩, -⟩
  · exact hp
  · exact h.dirs d hd

/-- **A directory that is moved into itself or below itself leads up to itself**,
and the walk from where it went never ends. -/
theorem Standing.moved_endless (h : Standing db) {src : Inode} (hr : Renames db p name p' name' src)
    (hb : Below db src.ino p') : ¬ WalkEnds (renamedTables db p name p' name') p' := by
  obtain ⟨hsrc, -⟩ := childInode_named hr.source
  have hp' : isDir db p' = true := isDir_iff.mpr hr.parent
  have hmem (d : Dentry) : d ∈ (renamedTables db p name p' name').dentries ↔
      (d ∈ db.dentries ∧ nameOf d ≠ (p, name) ∧ nameOf d ≠ (p', name')) ∨ d = ⟨name', p', src.ino⟩ := mem_renamed h.wf hr
  have hentry : (⟨name, p, src.ino⟩ : Dentry) ∈ db.dentries := childIno_some hsrc
  -- the way down from what moves to where it goes
  let S (c : Ino) : Prop := Below db src.ino c ∧ Below db c p'
  have hdirs {c : Ino} (hc : S c) : isDir db c = true := h.isDir_of_below hc.2 hp'
  have hroot : ¬ S ROOT_INO := by
    rintro ⟨hs, -⟩
    rcases ReflTransGen.cases_tail hs with he | ⟨q, -, d, hd, -, he⟩
    · exact h.wf.top _ hentry he.symm
    · exact h.wf.top d hd he
  -- what is replaced holds nothing, so it is not on that way
  have hstays {d : Dentry} (hd : d ∈ db.dentries) (hc : S d.ino) : nameOf d ≠ (p', name') := by
    intro hname
    have hchild : db.childIno p' name' = some d.ino := by
      have := childIno_mem h.wf.distinct hd
      rwa [show d.parentIno = p' from congrArg Prod.fst hname, show d.name = name' from congrArg Prod.snd hname] at this
    obtain ⟨-, dst, hdst, hmay⟩ := hr.replaced _ hchild
    obtain ⟨x, hx, hk⟩ := isDir_iff.mp (hdirs hc)
    rw [hdst] at hx
    cases hx
    have hbare : Bare db d.ino := getInode_ino hdst ▸ mayReplace_bare hmay hk
    exact not_below_of_bare hbare (fun he => h.tree.no_loop (he ▸ holds_of_child hchild)) hc.2
  refine endless (S := S) hroot (fun c hc => ?_) (fun d hd hc => ?_) ⟨hb, .refl⟩
  · rcases ReflTransGen.cases_tail hc.1 with rfl | ⟨q, -, e, he, -, rfl⟩
    · exact ⟨_, (hmem _).mpr (.inr rfl), rfl⟩
    · by_cases hname : nameOf e = (p, name)
      · have hchild := childIno_mem h.wf.distinct he
        rw [show e.parentIno = p from congrArg Prod.fst hname, show e.name = name from congrArg Prod.snd hname,
          hsrc] at hchild
        exact ⟨_, (hmem _).mpr (.inr rfl), Option.some.inj hchild⟩
      · exact ⟨e, (hmem e).mpr (.inl ⟨he, hname, hstays he hc⟩), rfl⟩
  · rcases (hmem d).mp hd with ⟨hd, hold, -⟩ | rfl
    · rcases ReflTransGen.cases_tail hc.1 with he | ⟨q, hq, e, he, rfl, hino⟩
      · -- the entry that moved was the only one
        have hsame : d = ⟨name, p, src.ino⟩ := h.entry_eq hd hentry he (he ▸ hdirs hc)
        exact absurd (by rw [hsame]; rfl) hold
      · have hsame : d = e := h.entry_eq hd he hino.symm (hino ▸ hdirs hc)
        subst hsame
        exact ⟨hq, .head ⟨d, hd, rfl, rfl⟩ hc.2⟩
    · exact ⟨hb, .refl⟩

/-! ### Steps -/

/-- The directories were there, with as many names. -/
theorem Single.kept (h : Single db) (hplain : ∀ x ∈ db'.inodes, x.derived = false)
    (hkept : ∀ i, isDir db' i = true → isDir db i = true ∧ names db' i = names db i) : Single db' := by
  refine ⟨hplain, fun i hi hroot => ?_⟩
  obtain ⟨hdir, hnames⟩ := hkept i hi
  rw [hnames, h.one i hdir hroot]

/-- An inode that is no directory gets an entry. -/
theorem names_added (hk : isDir db k = false) (hi : isDir db i = true) :
    names (db.addDentry name p k) i = names db i := by
  have hne : k ≠ i := by
    rintro rfl
    rw [hk] at hi
    cases hi
  rw [names_addDentry, if_neg hne, Nat.add_zero]

/-- The entry of another inode goes. -/
theorem names_dropped (h : WellFormed db) (hc : db.childIno p name = some k) (hne : k ≠ i) :
    names (db.delChild p name) i = names db i := by
  have hcount := names_delChild (i := i) h hc
  rw [if_neg hne, Nat.add_zero] at hcount
  exact hcount.symm

theorem newDir_single (h : Standing db) : Single (newDir db name p) := by
  have hb := h.wf.bounded
  have hdir (i : Ino) : isDir (newDir db name p) i = if i = db.nextIno then true else isDir db i :=
    (isDir_updNlink (f := fun n => n + 1)).trans (isDir_addInode hb)
  have hnames (i : Ino) : names (newDir db name p) i = names db i + if db.nextIno = i then 1 else 0 :=
    names_addDentry
  have hfree : names db db.nextIno = 0 := by
    by_contra hpos
    obtain ⟨d, hd, he⟩ := names_pos.mp (Nat.pos_of_ne_zero hpos)
    exact absurd (hb.dentries d hd) (by rw [he]; exact lt_irrefl _)
  refine ⟨plain_updInode (fun _ => rfl) (plain_addInode h.plain), fun i hi hroot => ?_⟩
  rw [hdir] at hi
  rw [hnames]
  by_cases hnext : i = db.nextIno
  · subst hnext
    simp [hfree]
  · rw [if_neg hnext] at hi
    rw [if_neg (Ne.symm hnext), h.one i hi hroot]

/-- A new inode that is no directory, with its entry. -/
theorem create_single {kind : FileKind} {nlink size : ℤ} (h : Standing db) (hk : kind ≠ .dir) :
    Single ((db.addInode kind nlink size false).1.addDentry name p db.nextIno) := by
  have hb := h.wf.bounded
  have hadd (j : Ino) : isDir (db.addInode kind nlink size false).1 j = if j = db.nextIno then false else isDir db j := by
    rw [isDir_addInode hb, decide_eq_false hk]
  have hnew : isDir (db.addInode kind nlink size false).1 db.nextIno = false := by simp [hadd]
  refine h.toSingle.kept (plain_addInode h.plain) fun i hi => ?_
  have hi : isDir (db.addInode kind nlink size false).1 i = true := hi
  refine ⟨?_, names_added hnew hi⟩
  rw [hadd] at hi
  split_ifs at hi
  exact hi

theorem unlinkTables_plain {x : Inode} (h : ∀ y ∈ db.inodes, y.derived = false) :
    ∀ y ∈ (unlinkTables db p name x).inodes, y.derived = false := by
  unfold unlinkTables
  dsimp only
  split_ifs
  · exact plain_delInode (plain_updInode (fun _ => rfl) h)
  · exact plain_updInode (fun _ => rfl) h

theorem unlinkTables_kept {x : Inode} (h : Standing db) (hu : Unlinks db p name x)
    (hi : isDir (unlinkTables db p name x) i = true) :
    isDir db i = true ∧ names (unlinkTables db p name x) i = names db i := by
  have hfile : isDir db x.ino = false := by rw [isDir_child hu.source, decide_eq_false hu.file]
  have hdir : isDir db i = true := by
    unfold unlinkTables at hi
    dsimp only at hi
    split_ifs at hi
    · have hgone : isDir (Fs.purge ((db.delChild p name).updInode x.ino fun y => { y with nlink := y.nlink - 1 }) x.ino) i =
          if i = x.ino then false else
            isDir ((db.delChild p name).updInode x.ino fun y => { y with nlink := y.nlink - 1 }) i := isDir_delInode
      rw [hgone] at hi
      split_ifs at hi
      exact (isDir_updNlink (f := fun n => n - 1)).symm.trans hi
    · exact (isDir_updNlink (f := fun n => n - 1)).symm.trans hi
  have hne : x.ino ≠ i := by
    rintro rfl
    rw [hfile] at hdir
    cases hdir
  have hnames : names (unlinkTables db p name x) i = names (db.delChild p name) i :=
    names_of_inos (congrArg (List.map Dentry.ino) unlinkTables_dentries)
  exact ⟨hdir, hnames.trans (names_dropped h.wf (childInode_named hu.source).1 hne)⟩

theorem renamed_plain (h : ∀ x ∈ db.inodes, x.derived = false) :
    ∀ x ∈ (renamedTables db p name p' name').inodes, x.derived = false := by
  unfold renamedTables
  split
  · exact h
  · exact plain_delInode h

theorem renamed_kept (h : Standing db) (hi : isDir (renamedTables db p name p' name') i = true) :
    isDir db i = true ∧ names (renamedTables db p name p' name') i = names db i := by
  unfold renamedTables at hi ⊢
  cases hj : db.childIno p' name' with
  | none =>
    rw [hj] at hi
    exact ⟨hi, names_moveChild⟩
  | some j =>
    rw [hj] at hi
    have hgone : isDir (Fs.purge (db.delChild p' name') j) i = if i = j then false else isDir (db.delChild p' name') i :=
      isDir_delInode
    have hi : isDir (Fs.purge (db.delChild p' name') j) i = true := hi
    rw [hgone] at hi
    split_ifs at hi with hij
    exact ⟨hi, names_moveChild.trans (names_dropped h.wf hj (Ne.symm hij))⟩

/-- Nothing but a rename puts a directory below itself, and what loses its name
holds nothing. -/
theorem Standing.treeOk {op : NameOp} (h : Standing db) (hok : StaysAbove db op) : TreeOk db (nowMs, .name op) := by
  have hparent {q : Ino} {n : String} (hvac : vacant db q n = .ok ()) : Named db q :=
    h.named_parent (vacant_ok hvac).1
  have hchild {q : Ino} {n : String} {x : Inode} (hx : childInode db q n = some x) (hk : x.kind ≠ .dir) :
      Bare db x.ino := h.bare (by rw [isDir_child hx, decide_eq_false hk])
  cases op with
  | mkdir q n | createFile q n | symlink q n t => exact fun _ hvac => hparent hvac
  | link i q n =>
    intro _ hvac x hx hk
    have hfile : isDir db i = false := by
      rw [isDir, hx]
      exact decide_eq_false hk
    refine ⟨hparent hvac, fun hb => ?_⟩
    have hdir := h.isDir_of_below hb (isDir_iff.mpr (vacant_ok hvac).1)
    rw [hfile] at hdir
    cases hdir
  | rmdir q n => trivial
  | unlink q n => exact fun x hu => ⟨hchild hu.source hu.file, fun s _ k _ hs => absurd hs h.notDerived⟩
  | rename q n q' n' =>
    intro src hr
    refine ⟨h.named_parent hr.parent, hok src hr, fun j hj => ?_, fun s k hmoves => absurd hmoves.2.2 h.notDerived⟩
    obtain ⟨-, dst, hdst, hmay⟩ := hr.replaced j hj
    by_cases hk : dst.kind = .dir
    · exact getInode_ino hdst ▸ mayReplace_bare hmay hk
    · refine h.bare ?_
      rw [isDir, hdst]
      exact decide_eq_false hk

theorem name_single {op : NameOp} (h : Standing db) : Single (op.apply db online nowMs).2 := by
  cases op with
  | mkdir q n =>
    show Single (Fs.mkdir db q n).2
    rcases mkdir_cases db q n with he | ⟨-, -, he⟩
    · rw [he]
      exact h.toSingle
    · rw [he]
      exact newDir_single h
  | createFile q n =>
    show Single (Fs.createFile db online q n).2
    rcases createFile_cases db online q n with he | ⟨-, -, he⟩
    · rw [he]
      exact h.toSingle
    · rw [he]
      exact create_single h (by simp)
  | symlink q n t =>
    show Single (Fs.symlink db q n t).2
    rcases symlink_cases db q n t with he | ⟨-, -, he⟩
    · rw [he]
      exact h.toSingle
    · have hnew : Single ((db.addInode .lnk 1 t.utf8ByteSize false).1.addDentry n q db.nextIno) :=
        create_single h (by simp)
      rw [he]
      exact ⟨hnew.plain, hnew.one⟩
  | link j q n =>
    show Single (Fs.link db j q n).2
    rcases link_cases db j q n with he | ⟨x, -, hx, hk, -, he⟩
    · rw [he]
      exact h.toSingle
    · have hfile : isDir db j = false := by
        rw [isDir, hx]
        exact decide_eq_false hk
      rw [he]
      refine h.toSingle.kept (plain_updInode (fun _ => rfl) h.plain) fun i hi => ?_
      have hdir : isDir db i = true := (isDir_updNlink (f := fun n => n + 1)).symm.trans hi
      exact ⟨hdir, names_added ((isDir_updNlink (f := fun n => n + 1)).trans hfile) hi⟩
  | rmdir q n =>
    show Single (Fs.rmdir db q n).2
    rcases rmdir_cases db q n with he | ⟨x, -, hx, -, -, he⟩
    · rw [he]
      exact h.toSingle
    · rw [he]
      refine h.toSingle.kept (plain_updInode (fun _ => rfl) (plain_delInode h.plain)) fun i hi => ?_
      have hgone : isDir ((db.delChild q n).delInode x.ino) i = if i = x.ino then false else isDir (db.delChild q n) i :=
        isDir_delInode
      have hi : isDir ((db.delChild q n).delInode x.ino) i = true :=
        (isDir_updNlink (f := fun n => max (n - 1) 2)).symm.trans hi
      rw [hgone] at hi
      split_ifs at hi with hne
      exact ⟨hi, names_dropped h.wf (childInode_named hx).1 (Ne.symm hne)⟩
  | unlink q n =>
    show Single (Fs.unlink db online q n nowMs).2
    rcases unlink_cases db online q n nowMs with he | ⟨x, queue, hu, he⟩
    · rw [he]
      exact h.toSingle
    · have htables : Single (unlinkTables db q n x) :=
        h.toSingle.kept (unlinkTables_plain h.plain) fun i hi => unlinkTables_kept h hu hi
      have hqueue : Single { unlinkTables db q n x with queue := queue } := ⟨htables.plain, htables.one⟩
      rw [he, cascadeUnlink_plain hqueue.plain]
      exact hqueue
  | rename q n q' n' =>
    show Single (Fs.rename db online q n q' n' nowMs).2
    rcases rename_cases db online q n q' n' nowMs with he | ⟨src, d, hr, hd, he⟩
    · rw [he]
      exact h.toSingle
    · obtain ⟨-, -, hentries, hinodes⟩ := h.wf.pushed hr hd
      have hplain : ∀ x ∈ d.inodes, x.derived = false := hinodes ▸ renamed_plain h.plain
      rw [he, cascadeRename_plain hplain]
      refine h.toSingle.kept hplain fun i hi => ?_
      rw [isDir_congr hinodes] at hi
      obtain ⟨hdir, hnames⟩ := renamed_kept h hi
      exact ⟨hdir, (names_of_inos (congrArg (List.map Dentry.ino) hentries)).trans hnames⟩

/-- An operation that moves no directory into or below itself keeps the tree. -/
theorem name_standing {op : NameOp} (h : Standing db) (hok : StaysAbove db op) :
    Standing (op.apply db online nowMs).2 := by
  have htree : Cache.Inv (op.apply db online nowMs).2 := Cache.step_inv (a := (nowMs, .name op)) h.tree (h.treeOk hok) rfl
  have hparents : Parented (op.apply db online nowMs).2 := name_parented h.parented
  refine ⟨name_single h, htree, fun d hd => ?_⟩
  exact isDir_iff.mpr ((Cache.isDir_iff htree.wf).mp (hparents.dirs d hd))

/-- **An operation returns exactly if it moves no directory into or below itself.** -/
theorem returns_iff {op : NameOp} (h : Standing db) : Returns db online op ↔ StaysAbove db op := by
  constructor
  · intro hret
    cases op with
    | rename q n q' n' =>
      intro src hr hb
      obtain ⟨-, -, hafter⟩ := hret hr.valid.1 hr.valid.2
      exact h.moved_endless hr hb (hafter src hr)
    | mkdir | rmdir | createFile | unlink | symlink | link => trivial
  · intro hok
    cases op with
    | createFile q n =>
      have hafter : Standing ((NameOp.createFile q n).apply db online 0).2 := name_standing h hok
      exact fun _ => hafter.walk q
    | unlink q n => exact fun _ _ => h.walk q
    | rename q n q' n' =>
      refine fun _ _ => ⟨h.walk q, h.walk q', fun src hr => ?_⟩
      have hput : TreeOk db (0, .name (.rename q n q' n')) := h.treeOk hok
      obtain ⟨hp, hu, hb, -⟩ := hput src hr
      obtain ⟨htree, -, -⟩ := renamed_inv h.tree hr hp hu hb
      have hdirs := renamed_parented h.parented hr
      have hafter : Standing (renamedTables db q n q' n') := by
        refine ⟨h.toSingle.kept (renamed_plain h.plain) fun i hi => renamed_kept h hi, htree, fun d hd => ?_⟩
        exact isDir_iff.mpr ((Cache.isDir_iff htree.wf).mp (hdirs.dirs d hd))
      exact hafter.walk q'
    | mkdir | rmdir | symlink | link => trivial

theorem Standing.answers (h : Standing db) : Answers db where
  walk i := (h.walk i).imp fun _ hparts => ⟨hparts, resolve_of_resolves hparts⟩
  returns _ _ hok := (returns_iff h).mpr hok

end Lemmas

end Walks
end Smfs
