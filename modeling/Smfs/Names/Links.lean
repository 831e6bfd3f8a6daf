/-
# Link counts

What `fs_inode` says of an inode and what the other tables hold of it: an entry
leads to a row, the link count of a file is the number of its names, and
the row, the data and the target of a symlink are there as long as a name is.
Each operation is followed inode by inode (`View`).

It fails where a row goes although names are left (`rename` over a file with
other names, the removal of a derived sibling with other names), where a name
goes and the count stays (the rename of a derived sibling onto another
name), where a directory is made in a file, and where a symlink
or a directory that was given a content is deleted as if it were neither.
`LinksOk` excludes these.

Key definitions: `Cache.View`, `Cache.Linked`, `Cache.LinksOk`.
Key theorems: `Cache.reachable_linked`.
-/
import Smfs.Names.Parents

namespace Smfs
namespace Cache

open Db Fs Trans

/-- The number of names of an inode. -/
def names (db : Db) (i : Ino) : ℕ := db.dentries.countP fun d => d.ino = i

/-- The target of a symlink. -/
def targetOf (db : Db) (i : Ino) : Option String := (Table.get Prod.fst db.symlinks i).map Prod.snd

/-- What the tables hold of an inode. -/
structure View where
  row : Option (FileKind × ℤ)
  names : ℕ
  chunks : List Chunk
  target : Option String

def view (db : Db) (i : Ino) : View :=
  ⟨(db.getInode i).map fun x => (x.kind, x.nlink), names db i, db.chunksOf i, targetOf db i⟩

/-- The row, the names and the rest go together. -/
def View.Ok (i : Ino) (v : View) : Prop :=
  match v.row with
  | none => v.names = 0 ∧ v.chunks = [] ∧ v.target = none
  | some (kind, nlink) => (kind ≠ .dir → nlink = v.names) ∧ (kind = .dir → v.names ≤ 1) ∧
      (i ≠ ROOT_INO → 0 < v.names) ∧ (v.target.isSome = true ↔ kind = .lnk)

/-- No entry dangles, a file has as many links as names, and an inode, its data
and its target are there exactly as long as it has a name. -/
structure Linked (db : Db) : Prop where
  entries : ∀ d ∈ db.dentries, (db.getInode d.ino).isSome = true
  counts : ∀ i x, db.getInode i = some x → x.kind ≠ .dir → x.nlink = names db i
  rows : ∀ i, (db.getInode i).isSome = true ↔ Named db i
  data : ∀ i, ¬ Named db i → db.chunksOf i = []
  targets : ∀ i, (targetOf db i).isSome = true ↔ ∃ x, db.getInode i = some x ∧ x.kind = .lnk

/-- The inode has no name but the two. -/
def NoOther (db : Db) (i p : Ino) (m name : String) : Prop :=
  ∀ d ∈ db.dentries, d.ino = i → nameOf d = (p, m) ∨ nameOf d = (p, name)

def LinksOk (db : Db) (a : ℤ × Op) : Prop :=
  match a.2 with
  | .name (.rmdir p n) =>
    ∀ x, childInode db p n = some x → x.kind = .dir → (∀ d ∈ db.dentries, d.parentIno ≠ x.ino) → db.chunksOf x.ino = []
  | .name (.unlink p n) =>
    ∀ x, Unlinks db p n x → ∀ s ∈ derivedSiblingSuffixes, ∀ k, db.childIno p (n ++ s) = some k →
      sortOf db k = some (.reg, true) → NoOther db k p (n ++ s) n
  | .name (.rename p n p' n') =>
    ∀ src, Renames db p n p' n' src → (∀ j, db.childIno p' n' = some j → OnlyDir db j ∨ names db j = 1) ∧
      ∀ s k, movesSibling db p n p' n' src.ino s k → after db p n p' n' src.ino p' (n' ++ s) = none
  | .name _ => True
  | .ensureDirs path => DirsOn db ROOT_INO (components path)
  | .reconcileOne doc => visits db doc → DirsOn db ROOT_INO (dirOf doc)
  | .applyDeletion rid => ∀ i, db.inoByRemoteId rid = some i → db.getDirtySince i = none → targetOf db i = none

section Lemmas

variable {db db' : Db} {i j k p p' : Ino} {name name' : String}

/-! ### What the tables hold of an inode after a change -/

theorem names_pos : 0 < names db i ↔ ∃ d ∈ db.dentries, d.ino = i := by
  unfold names
  rw [List.countP_pos_iff]
  simp

theorem names_of_inos (h : db'.dentries.map Dentry.ino = db.dentries.map Dentry.ino) : names db' i = names db i := by
  have key (d : Db) : names d i = (d.dentries.map Dentry.ino).countP fun k => k = i := by
    unfold names
    rw [List.countP_map]
    rfl
  rw [key, key, h]

theorem view_congr (hi : db'.getInode i = db.getInode i) (hn : db'.dentries.map Dentry.ino = db.dentries.map Dentry.ino)
    (hd : db'.data = db.data) (hs : db'.symlinks = db.symlinks) : view db' i = view db i := by
  unfold view targetOf Db.chunksOf
  rw [hi, names_of_inos hn, hd, hs]

theorem view_addInode {kind : FileKind} {nlink size : ℤ} {derived : Bool} (h : WellFormed db) :
    view (db.addInode kind nlink size derived).1 i =
      if i = db.nextIno then { view db i with row := some (kind, nlink) } else view db i := by
  unfold view
  rw [h.bounded.getInode_addInode]
  split_ifs <;> rfl

theorem targetOf_addSymlink {target : String} :
    targetOf (addSymlink db j target) i = (targetOf db i).or (if j = i then some target else none) := by
  show (Table.get Prod.fst (db.symlinks ++ [(j, target)]) i).map Prod.snd = _
  rw [Table.get_append, Table.get_cons, Table.get_nil]
  unfold targetOf
  cases Table.get Prod.fst db.symlinks i with
  | some r => rfl
  | none => split_ifs <;> rfl

theorem view_addDentry : view (db.addDentry name p k) i =
    { view db i with names := (view db i).names + if k = i then 1 else 0 } := by
  have hnames : names (db.addDentry name p k) i = names db i + if k = i then 1 else 0 := by
    show (db.dentries ++ [(⟨name, p, k⟩ : Dentry)]).countP _ = _
    rw [List.countP_append, List.countP_singleton]
    simp only [decide_eq_true_eq, names]
  unfold view
  rw [hnames]
  rfl

theorem view_updNlink {f : ℤ → ℤ} : view (db.updInode j fun x => { x with nlink := f x.nlink }) i =
    if i = j then { view db i with row := (view db i).row.map fun r => (r.1, f r.2) } else view db i := by
  have hf : ∀ x : Inode, ({ x with nlink := f x.nlink } : Inode).ino = x.ino := fun _ => rfl
  unfold view
  rw [getInode_updInode hf]
  split_ifs with hij
  · subst hij
    rw [Option.map_map, Option.map_map]
    rfl
  · rfl

theorem names_delChild (h : WellFormed db) (hc : db.childIno p name = some j) :
    names db i = names (db.delChild p name) i + if j = i then 1 else 0 := by
  unfold Db.childIno at hc
  rw [child_eq] at hc
  obtain ⟨d, hd, rfl⟩ := Option.map_eq_some_iff.mp hc
  have hcount := Table.countP_erase h.distinct hd fun d => d.ino = i
  unfold names
  rw [delChild_eq, hcount]
  simp only [decide_eq_true_eq]

theorem view_delChild (h : WellFormed db) (hc : db.childIno p name = some j) :
    view (db.delChild p name) i = { view db i with names := (view db i).names - if j = i then 1 else 0 } := by
  unfold view
  rw [names_delChild h hc, Nat.add_sub_cancel]
  rfl

theorem view_purge : view (purge db j) i = if i = j then ⟨none, names db i, [], none⟩ else view db i := by
  have hrow : (purge db j).getInode i = if i = j then none else db.getInode i := getInode_delInode
  have hdata : (purge db j).chunksOf i = if i = j then [] else db.chunksOf i := chunksOf_delData
  have htarget : targetOf (purge db j) i = if i = j then none else targetOf db i := by
    have hget : Table.get Prod.fst (Table.erase Prod.fst db.symlinks j) i = _ := Table.get_erase db.symlinks j i
    show (Table.get Prod.fst (Table.erase Prod.fst db.symlinks j) i).map Prod.snd = _
    rw [hget]
    split_ifs <;> rfl
  have hnames : names (purge db j) i = names db i := rfl
  unfold view
  rw [hrow, hdata, htarget, hnames]
  split_ifs <;> rfl

theorem view_addChunks {rows : List Chunk} (h : ∀ c ∈ rows, c.ino = j) :
    view { db with data := db.data ++ rows } i =
      { view db i with chunks := (view db i).chunks ++ if i = j then rows else [] } := by
  have hrows : (rows.filter fun c => c.ino = i) = if i = j then rows else [] := by
    split_ifs with hij
    · exact List.filter_eq_self.mpr fun c hc => by simpa [hij] using h c hc
    · exact List.filter_eq_nil_iff.mpr fun c hc => by simpa [h c hc] using Ne.symm hij
  have hdata : ({ db with data := db.data ++ rows } : Db).chunksOf i = db.chunksOf i ++ if i = j then rows else [] := by
    unfold Db.chunksOf
    rw [List.filter_append, hrows]
  unfold view
  rw [hdata]
  rfl

/-- What a new inode number has. -/
theorem view_new (h : WellFormed db) (hok : (view db db.nextIno).Ok db.nextIno) :
    view db db.nextIno = ⟨none, 0, [], none⟩ := by
  have hrow : (view db db.nextIno).row = none := by
    cases hx : db.getInode db.nextIno with
    | none =>
      unfold view
      rw [hx]
      rfl
    | some x => exact absurd (h.bounded.getInode hx) (lt_irrefl _)
  unfold View.Ok at hok
  rw [hrow] at hok
  obtain ⟨hn, hc, ht⟩ := hok
  cases hv : view db db.nextIno
  rw [hv] at hrow hn hc ht
  cases hrow
  cases hn
  cases hc
  cases ht
  rfl

/-! ### The invariant -/

/-- The tables, inode by inode; entries lie in directories. -/
structure Counted (db : Db) : Prop where
  wf : WellFormed db
  parents : InDirs db
  ok : ∀ i, (view db i).Ok i

theorem Counted.start : Counted .fresh := by
  refine ⟨.start, .start, fun i => ?_⟩
  have hnames : names .fresh i = 0 := rfl
  have hdata : Db.chunksOf .fresh i = [] := rfl
  have htarget : targetOf .fresh i = none := rfl
  have hrow : Db.getInode .fresh i = if ROOT_INO = i then some rootInode else none := Table.get_cons _ _ _
  unfold view View.Ok
  rw [hrow, hnames, hdata, htarget]
  split_ifs with hi
  · exact ⟨fun hk => absurd rfl hk, fun _ => Nat.zero_le _, fun hne => absurd hi.symm hne, by decide⟩
  · exact ⟨rfl, rfl, rfl⟩

/-- An inode with a name has a row. -/
theorem Counted.row (h : Counted db) (hi : Named db i) : ∃ x, db.getInode i = some x := by
  rcases hi with rfl | hname
  · obtain ⟨x, hx, -⟩ := Option.map_eq_some_iff.mp h.wf.root
    exact ⟨x, hx⟩
  · cases hx : db.getInode i with
    | some x => exact ⟨x, rfl⟩
    | none =>
      have hok := h.ok i
      unfold View.Ok view at hok
      rw [hx] at hok
      have hpos := names_pos.mpr hname
      have hzero : names db i = 0 := hok.1
      omega

theorem Counted.of_row (h : Counted db) {x : Inode} (hx : db.getInode i = some x) :
    (x.kind ≠ .dir → x.nlink = names db i) ∧ (x.kind = .dir → names db i ≤ 1) ∧ (i ≠ ROOT_INO → 0 < names db i) ∧
      ((targetOf db i).isSome = true ↔ x.kind = .lnk) := by
  have hok := h.ok i
  unfold View.Ok view at hok
  rw [hx] at hok
  exact hok

theorem Counted.new (h : Counted db) : view db db.nextIno = ⟨none, 0, [], none⟩ := view_new h.wf (h.ok _)

theorem Counted.congr (h : Counted db) (hwf : WellFormed db') (hp : InDirs db') (hv : ∀ i, view db' i = view db i) :
    Counted db' := ⟨hwf, hp, fun i => hv i ▸ h.ok i⟩

/-- A new inode under a new name. -/
theorem view_create {kind : FileKind} {nlink size : ℤ} {derived : Bool} (h : Counted db) :
    view ((db.addInode kind nlink size derived).1.addDentry name p db.nextIno) i =
      if i = db.nextIno then ⟨some (kind, nlink), 1, [], none⟩ else view db i := by
  rw [view_addDentry, view_addInode h.wf]
  by_cases hi : i = db.nextIno
  · subst hi
    rw [if_pos rfl, if_pos rfl, if_pos rfl, h.new]
  · rw [if_neg hi, if_neg hi, if_neg (Ne.symm hi)]
    rfl

theorem Counted.create {kind : FileKind} {nlink size : ℤ} {derived : Bool} (h : Counted db)
    (hk : derived = true → kind = .reg) (hfree : db.childIno p name = none) (hp : p < db.nextIno) (hdir : OnlyDir db p)
    (hok : View.Ok db.nextIno ⟨some (kind, nlink), 1, [], none⟩) :
    Counted ((db.addInode kind nlink size derived).1.addDentry name p db.nextIno) := by
  refine ⟨h.wf.create hk hfree hp, h.parents.create h.wf hp hdir, fun i => ?_⟩
  rw [view_create h]
  split_ifs with hi
  · rw [hi]
    exact hok
  · exact h.ok i

theorem ok_file {i : Ino} {rows : List Chunk} : View.Ok i ⟨some (.reg, 1), 1, rows, none⟩ :=
  ⟨fun _ => rfl, nofun, fun _ => Nat.one_pos, by simp⟩

theorem ok_dir {i : Ino} {nlink : ℤ} : View.Ok i ⟨some (.dir, nlink), 1, [], none⟩ :=
  ⟨fun hk => absurd rfl hk, fun _ => le_rfl, fun _ => Nat.one_pos, by simp⟩

/-- The link count of a directory changes. -/
theorem Counted.dirNlink {f : ℤ → ℤ} (h : Counted db) (hdir : OnlyDir db p) :
    Counted (db.updInode p fun x => { x with nlink := f x.nlink }) := by
  refine ⟨h.wf.updNlink, h.parents.updNlink, fun i => ?_⟩
  rw [view_updNlink]
  split_ifs with hi
  · subst hi
    cases hx : db.getInode i with
    | none =>
      have hok := h.ok i
      unfold View.Ok view at hok ⊢
      rw [hx] at hok ⊢
      exact hok
    | some x =>
      obtain ⟨-, hone, hpos, htarget⟩ := h.of_row hx
      have hk := hdir x hx
      unfold View.Ok view
      rw [hx]
      exact ⟨fun hne => absurd hk hne, hone, hpos, htarget⟩
  · exact h.ok i

theorem Counted.newDir (h : Counted db) (hfree : db.childIno p name = none) (hp : p < db.nextIno)
    (hdir : OnlyDir db p) :
    Counted (newDir db name p) := by
  have hnew : Counted ((db.addInode .dir 2 0 false).1.addDentry name p db.nextIno) :=
    h.create (fun hd => by cases hd) hfree hp hdir ok_dir
  have hsort : sortOf ((db.addInode .dir 2 0 false).1.addDentry name p db.nextIno) p = sortOf db p :=
    (sortOf_addInode h.wf.bounded).trans (if_neg hp.ne)
  exact hnew.dirNlink (f := fun n => n + 1) (onlyDir_of_sort hsort hdir)

/-! ### Pulls -/

theorem view_rewrite (db : Db) (i j : Ino) (content : Bytes) :
    (view (rewriteFileContent db j content) i).row = (view db i).row ∧
    (view (rewriteFileContent db j content) i).names = (view db i).names ∧
    (view (rewriteFileContent db j content) i).target = (view db i).target ∧
    (i ≠ j → (view (rewriteFileContent db j content) i).chunks = (view db i).chunks) := by
  have hf : ∀ x : Inode, ({ x with size := content.length } : Inode).ino = x.ino := fun _ => rfl
  refine ⟨?_, rfl, rfl, fun hne => (rewriteFileContent_keeps hne).chunks⟩
  unfold view rewriteFileContent
  dsimp only
  rw [getInode_updInode hf]
  split_ifs with hij
  · subst hij
    rw [Option.map_map]
    rfl
  · rfl

theorem Counted.edit (h : Counted db) (he : Edit .dirs db db') : Counted db' := by
  have hwf := h.wf.edit he
  have hparents := h.parents.edit h.wf he
  cases he with
  | sync inodes next dentries data symlinks remotes =>
    exact h.congr hwf hparents fun i => view_congr (by unfold Db.getInode; rw [inodes]) (by rw [dentries]) data symlinks
  | @file size derived name p rows named free under called own =>
    refine ⟨hwf, hparents, fun i => ?_⟩
    have hview : view { (db.addInode .reg 1 size derived).1.addDentry name p db.nextIno with data := db.data ++ rows } i =
        _ := view_addChunks own
    refine hview ▸ ?_
    rw [view_create h]
    split_ifs with hi
    · exact ok_file
    · rw [List.append_nil]
      exact h.ok i
  | dir named free under called => exact h.newDir free (h.wf.named_lt named) (onlyDir_iff.mp under)
  | spare taken gone =>
    obtain ⟨x, hx⟩ := h.row (named_of_child taken)
    rw [gone] at hx
    cases hx
  | @rewrite j content named =>
    refine ⟨hwf, hparents, fun i => ?_⟩
    obtain ⟨hrow, hnames, htarget, hchunks⟩ := view_rewrite db i j content
    have hok := h.ok i
    by_cases hij : i = j
    · obtain ⟨x, hx⟩ := h.row named
      have hsome : (view db i).row = some (x.kind, x.nlink) := by
        unfold view
        rw [hij, hx]
        rfl
      unfold View.Ok at hok ⊢
      rw [hsome] at hrow hok
      rw [hrow, hnames, htarget]
      exact hok
    · unfold View.Ok at hok ⊢
      rw [hrow, hnames, htarget, hchunks hij]
      exact hok

theorem view_moveDentries (hm : Fs.moveDentries db j p name = some db') : view db' i = view db i := by
  obtain ⟨hi, hd, hs, -, -⟩ := moveDentries_rows hm
  refine view_congr (by unfold Db.getInode; rw [hi]) ?_ hd hs
  unfold Fs.moveDentries at hm
  split_ifs at hm
  cases hm
  exact Table.map_modify _ _ _ _ fun _ _ => rfl

theorem Counted.moved (h : Counted db) (hp : p < db.nextIno) (hdir : OnlyDir db p)
    (hm : Fs.moveDentries db j p name = some db') : Counted db' :=
  h.congr (h.wf.moveDentries hp hm) (h.parents.moved h.wf hp hdir hm) fun _ => view_moveDentries hm

theorem Counted.setRemoteId {rid : String} (h : Counted db) (hi : i < db.nextIno) : Counted (db.setRemoteId i rid) :=
  h.congr (h.wf.setRemoteId hi) h.parents fun _ => rfl

theorem reconcileOne_counted {doc : Document} {nowMs : ℤ} (h : Counted db)
    (hok : visits db doc → DirsOn db ROOT_INO (dirOf doc)) : Counted (reconcileOne db doc nowMs).2 := by
  have hedit : ∀ d d', Counted d → Edit .dirs d d' → Counted d' := fun _ _ hd he => hd.edit he
  refine reconcileOne_keeps (I := Counted) (fun _ hd => hd.wf) hedit h
    (fun hv => pathOn_dirs.mpr (hok (visits_of_builds hv))) (fun _ => .dirsRule _)
    (fun _ _ _ => trivial) (fun i d' hr hmade hm => ?_) (fun d j hd hs => ?_) fun j _ _ hc hmade => ?_
  · have hdirs : PathOn .dirs db ROOT_INO (dirOf doc) :=
      pathOn_dirs.mpr (hok (visits_of_builds (builds_of_retargets hr)))
    obtain ⟨-, hn, hst, hd⟩ := dirsOf_edits h.wf hdirs (Calls.dirsRule doc).dirs
    exact hmade.moved (hmade.wf.named_lt hn) (onlyDir_iff.mp (hst.parent hd)) hm
  · obtain ⟨x, hx, -⟩ := Option.map_eq_some_iff.mp hs
    exact hd.setRemoteId (hd.wf.bounded.getInode hx)
  · exact hmade.setRemoteId (hmade.wf.bounded.childIno hc)

/-- What has no name, no data and no target may lose its row. -/
theorem ok_gone {i : Ino} : View.Ok i ⟨none, 0, [], none⟩ := ⟨rfl, rfl, rfl⟩

theorem applyDeletion_counted {rid : String} (h : Counted db)
    (hok : ∀ i, db.inoByRemoteId rid = some i → db.getDirtySince i = none → targetOf db i = none) :
    Counted (applyDeletion db rid).2 := by
  have hwf : WellFormed (applyDeletion db rid).2 := applyDeletion_wf h.wf
  have hparents : InDirs (applyDeletion db rid).2 := h.parents.applyDeletion h.wf
  rcases applyDeletion_cases db rid with he | ⟨j, d, hj, hclean, hd, he⟩
  · rwa [he]
  · obtain ⟨-, rfl⟩ := Table.get_some hd
    rw [he] at hwf hparents ⊢
    have hrow (i : Ino) : ((((db.delDentriesOf d.ino).delData d.ino).delInode d.ino).deleteRemoteId d.ino).getInode i =
        if i = d.ino then none else db.getInode i := getInode_delInode
    have hdata (i : Ino) : ((((db.delDentriesOf d.ino).delData d.ino).delInode d.ino).deleteRemoteId d.ino).chunksOf i =
        if i = d.ino then [] else db.chunksOf i := chunksOf_delData
    have hnames (i : Ino) : names ((((db.delDentriesOf d.ino).delData d.ino).delInode d.ino).deleteRemoteId d.ino) i =
        if i = d.ino then 0 else names db i := by
      show (db.dentries.filter fun e => e.ino ≠ d.ino).countP (fun e => e.ino = i) = _
      rw [List.countP_filter]
      split_ifs with hi
      · rw [List.countP_eq_zero]
        intro e _
        simp [hi]
      · refine List.countP_congr fun e _ => ?_
        have himp : e.ino = i → e.ino ≠ d.ino := fun he hbad => hi (he.symm.trans hbad)
        simpa using himp
    refine ⟨hwf, hparents, fun i => ?_⟩
    unfold view
    rw [hrow, hdata, hnames]
    split_ifs with hi
    · subst hi
      have htarget := hok d.ino hj hclean
      exact ⟨rfl, rfl, htarget⟩
    · exact h.ok i

/-! ### Operations on names -/

theorem mkdir_counted (h : Counted db) : Counted (mkdir db p name).2 := by
  rcases mkdir_cases db p name with he | ⟨-, hvac, he⟩
  · rwa [he]
  · obtain ⟨hdir, hfree⟩ := vacant_ok hvac
    rw [he]
    exact h.newDir hfree (row_lt h.wf hdir) (onlyDir_of_row hdir)

theorem createFile_counted {online : Bool} (h : Counted db) : Counted (createFile db online p name).2 := by
  rcases createFile_cases db online p name with he | ⟨-, hvac, he⟩
  · rwa [he]
  · obtain ⟨hdir, hfree⟩ := vacant_ok hvac
    rw [he]
    exact h.create (fun _ => rfl) hfree (row_lt h.wf hdir) (onlyDir_of_row hdir) ok_file

theorem symlink_counted {target : String} (h : Counted db) : Counted (symlink db p name target).2 := by
  have hwf : WellFormed (symlink db p name target).2 := name_wf h.wf true 0 (.symlink p name target)
  rcases symlink_cases db p name target with he | ⟨-, hvac, he⟩
  · rwa [he]
  · obtain ⟨hdir, -⟩ := vacant_ok hvac
    rw [he] at hwf ⊢
    have herodes : Erodes db ((addSymlink (db.addInode .lnk 1 target.utf8ByteSize false).1 db.nextIno
        target).addDentry name p db.nextIno) :=
      .of_same fun _ hi => (sortOf_addInode h.wf.bounded).trans (if_neg hi.ne)
    have htarget (i : Ino) : targetOf ((addSymlink (db.addInode .lnk 1 target.utf8ByteSize false).1 db.nextIno
        target).addDentry name p db.nextIno) i = (targetOf db i).or (if db.nextIno = i then some target else none) :=
      targetOf_addSymlink
    have hview (i : Ino) : view ((addSymlink (db.addInode .lnk 1 target.utf8ByteSize false).1 db.nextIno
        target).addDentry name p db.nextIno) i =
          if i = db.nextIno then ⟨some (.lnk, 1), 1, [], some target⟩ else view db i := by
      have hcreate : view ((db.addInode .lnk 1 target.utf8ByteSize false).1.addDentry name p db.nextIno) i = _ :=
        view_create h
      have hold : view ((addSymlink (db.addInode .lnk 1 target.utf8ByteSize false).1 db.nextIno
          target).addDentry name p db.nextIno) i =
          { view ((db.addInode .lnk 1 target.utf8ByteSize false).1.addDentry name p db.nextIno) i with
            target := (targetOf db i).or (if db.nextIno = i then some target else none) } := by
        rw [← htarget]
        rfl
      rw [hold, hcreate]
      by_cases hi : i = db.nextIno
      · have hnone : targetOf db db.nextIno = none := congrArg View.target h.new
        rw [if_pos hi, if_pos hi, if_pos hi.symm, hi, hnone]
        rfl
      · rw [if_neg hi, if_neg hi, if_neg (Ne.symm hi), Option.or_none]
        rfl
    refine ⟨hwf, h.parents.addEntry h.wf herodes (row_lt h.wf hdir) (onlyDir_of_row hdir) rfl, fun i => ?_⟩
    rw [hview]
    split_ifs
    · exact ⟨fun _ => rfl, nofun, fun _ => Nat.one_pos, by simp⟩
    · exact h.ok i

theorem link_counted (h : Counted db) : Counted (link db i p name).2 := by
  have hwf : WellFormed (link db i p name).2 := name_wf h.wf true 0 (.link i p name)
  rcases link_cases db i p name with he | ⟨x, -, hx, hk, hvac, he⟩
  · rwa [he]
  · obtain ⟨hdir, -⟩ := vacant_ok hvac
    rw [he] at hwf ⊢
    have herodes : Erodes db ((db.updInode i fun x => { x with nlink := x.nlink + 1 }).addDentry name p i) :=
      .of_same fun _ _ => sortOf_updNlink (f := fun n => n + 1)
    refine ⟨hwf, h.parents.addEntry h.wf herodes (row_lt h.wf hdir) (onlyDir_of_row hdir) rfl, fun j => ?_⟩
    rw [view_addDentry, view_updNlink (f := fun n => n + 1)]
    by_cases hj : j = i
    · -- one link more, one name more
      subst hj
      obtain ⟨hcount, -, -, htarget⟩ := h.of_row hx
      rw [if_pos rfl, if_pos rfl]
      unfold View.Ok view
      rw [hx]
      refine ⟨fun hne => ?_, fun hd => absurd hd hk, fun _ => Nat.succ_pos _, htarget⟩
      have hold := hcount hne
      show x.nlink + 1 = ((names db j + 1 : ℕ) : ℤ)
      rw [hold]
      rfl
    · rw [if_neg hj, if_neg (Ne.symm hj)]
      exact h.ok j

theorem rmdir_counted (h : Counted db) (hok : ∀ x, childInode db p name = some x → x.kind = .dir →
    (∀ d ∈ db.dentries, d.parentIno ≠ x.ino) → db.chunksOf x.ino = []) : Counted (rmdir db p name).2 := by
  rcases rmdir_cases db p name with he | ⟨x, -, hx, hk, hempty, he⟩
  · rwa [he]
  · obtain ⟨hc, hrow⟩ := childInode_named hx
    have hne := h.wf.ne_root hc
    have hsort (i : Ino) : sortOf ((db.delChild p name).delInode x.ino) i = if i = x.ino then none else sortOf db i :=
      sortOf_delInode
    have hdel : ((db.delChild p name).delInode x.ino).dentries ⊆ db.dentries := fun d hd => (mem_delChild.mp hd).1
    have hgone : Counted ((db.delChild p name).delInode x.ino) := by
      refine ⟨(h.wf.delChild p name).delInode hne, h.parents.drop h.wf (.of_gone hsort) hdel, fun i => ?_⟩
      have hview : view ((db.delChild p name).delInode x.ino) i =
          { view (db.delChild p name) i with row := if i = x.ino then none else (view db i).row } := by
        have hget : ((db.delChild p name).delInode x.ino).getInode i = if i = x.ino then none else db.getInode i :=
          getInode_delInode
        unfold view
        rw [hget]
        split_ifs <;> rfl
      rw [hview, view_delChild h.wf hc]
      by_cases hi : i = x.ino
      · subst hi
        obtain ⟨-, hone, -, htarget⟩ := h.of_row hrow
        have hzero : names db x.ino - 1 = 0 := by
          have hle := hone hk
          omega
        have hnone : targetOf db x.ino = none := by
          rw [hk] at htarget
          exact Option.not_isSome_iff_eq_none.mp fun hs => by cases htarget.mp hs
        rw [if_pos rfl, if_pos rfl]
        exact ⟨hzero, hok x hx hk hempty, hnone⟩
      · rw [if_neg hi, if_neg (Ne.symm hi)]
        exact h.ok i
    rw [he]
    -- the parent is a directory
    have hpar : OnlyDir db p := h.parents _ (childIno_some hc)
    have hp : p < db.nextIno := h.wf.parents _ (childIno_some hc)
    exact hgone.dirNlink (f := fun n => max (n - 1) 2) ((Erodes.of_gone hsort).onlyDir hp hpar)

/-- A file loses a name, and goes with its last one. -/
theorem unlinkTables_counted {x : Inode} (h : Counted db) (hx : childInode db p name = some x) (hk : x.kind ≠ .dir) :
    Counted (unlinkTables db p name x) := by
  obtain ⟨hc, hrow⟩ := childInode_named hx
  have hne := h.wf.ne_root hc
  obtain ⟨hcount, -, hpos, htarget⟩ := h.of_row hrow
  have hcount := hcount hk
  have hpos := hpos hne
  have hdel : (unlinkTables db p name x).dentries ⊆ db.dentries := by
    rw [unlinkTables_dentries]
    exact fun d hd => (mem_delChild.mp hd).1
  refine ⟨h.wf.unlinkTables hne, h.parents.drop h.wf erodes_unlink hdel, fun i => ?_⟩
  have hupd : view ((db.delChild p name).updInode x.ino fun y => { y with nlink := y.nlink - 1 }) i =
      if i = x.ino then
        { view db i with row := (view db i).row.map fun r => (r.1, r.2 - 1), names := (view db i).names - 1 }
      else view db i := by
    rw [view_updNlink (f := fun n => n - 1), view_delChild h.wf hc]
    by_cases hi : i = x.ino
    · rw [if_pos hi, if_pos hi, if_pos hi.symm]
    · rw [if_neg hi, if_neg hi, if_neg (Ne.symm hi)]
      rfl
  unfold unlinkTables
  dsimp only
  split_ifs with hlast
  · rw [view_purge]
    by_cases hi : i = x.ino
    · have hzero : names ((db.delChild p name).updInode x.ino fun y => { y with nlink := y.nlink - 1 }) i = 0 := by
        have hnames := congrArg View.names hupd
        rw [if_pos hi] at hnames
        have hnames : names ((db.delChild p name).updInode x.ino fun y => { y with nlink := y.nlink - 1 }) i =
          names db i - 1 := hnames
        rw [hnames, hi]
        omega
      rw [if_pos hi, hzero]
      exact ok_gone
    · rw [if_neg hi, hupd, if_neg hi]
      exact h.ok i
  · rw [hupd]
    by_cases hi : i = x.ino
    · subst hi
      rw [if_pos rfl]
      unfold View.Ok view
      rw [hrow]
      refine ⟨fun _ => ?_, fun hd => absurd hd hk, fun _ => ?_, htarget⟩
      · show x.nlink - 1 = ((names db x.ino - 1 : ℕ) : ℤ)
        omega
      · show 0 < names db x.ino - 1
        omega
    · rw [if_neg hi]
      exact h.ok i

/-- The tables that are not looked at change. -/
theorem Counted.same (h : Counted db) (hwf : WellFormed db') (hi : db'.inodes = db.inodes)
    (hd : db'.dentries = db.dentries)
    (hdata : db'.data = db.data) (hs : db'.symlinks = db.symlinks) : Counted db' := by
  have hrow (i : Ino) : db'.getInode i = db.getInode i := by
    unfold Db.getInode
    rw [hi]
  exact h.congr hwf (h.parents.congr hi hd) fun i => view_congr (hrow i) (by rw [hd]) hdata hs

theorem removeDerived_counted (h : Counted db) (hok : ∀ x, childInode db p name = some x → x.derived = true →
    ∀ d ∈ db.dentries, d.ino = x.ino → nameOf d = (p, name)) : Counted (removeDerivedSibling db p name) := by
  have hwf : WellFormed (removeDerivedSibling db p name) := h.wf.removeDerived
  have hparents : InDirs (removeDerivedSibling db p name) := h.parents.removeDerived h.wf
  rcases removeDerived_cases db p name with he | ⟨x, hx, hd, he⟩
  · rwa [he]
  · obtain ⟨hc, hrow⟩ := childInode_named hx
    rw [he] at hwf hparents ⊢
    have hrows (i : Ino) : (((db.delChild p name).delData x.ino).delInode x.ino).getInode i =
        if i = x.ino then none else db.getInode i := getInode_delInode
    have hdata (i : Ino) : (((db.delChild p name).delData x.ino).delInode x.ino).chunksOf i =
        if i = x.ino then [] else db.chunksOf i := chunksOf_delData
    have hnames (i : Ino) : names (((db.delChild p name).delData x.ino).delInode x.ino) i =
        if i = x.ino then 0 else names db i := by
      have hdel : names (((db.delChild p name).delData x.ino).delInode x.ino) i = names (db.delChild p name) i := rfl
      rw [hdel]
      split_ifs with hi
      · by_contra hpos
        obtain ⟨e, he, hei⟩ := names_pos.mp (Nat.pos_of_ne_zero hpos)
        obtain ⟨hm, hname⟩ := mem_delChild.mp he
        exact hname (hok x hx hd e hm (hei.trans hi))
      · have hcount := names_delChild (i := i) h.wf hc
        rw [if_neg (Ne.symm hi)] at hcount
        exact hcount.symm
    refine ⟨hwf, hparents, fun i => ?_⟩
    unfold view
    rw [hrows, hdata, hnames]
    split_ifs with hi
    · subst hi
      obtain ⟨-, -, -, htarget⟩ := h.of_row hrow
      have hreg : x.kind = .reg := by
        have hs : sortOf db x.ino = some (x.kind, true) := by
          unfold sortOf
          rw [hrow, ← hd]
          rfl
        have hsame := hs.symm.trans (h.wf.derived_reg hs)
        exact congrArg Prod.fst (Option.some.inj hsame)
      rw [hreg] at htarget
      have hnone : targetOf db x.ino = none := Option.not_isSome_iff_eq_none.mp fun hs => by cases htarget.mp hs
      exact ⟨rfl, rfl, hnone⟩
    · exact h.ok i

theorem unlink_counted {online : Bool} {nowMs : ℤ} (h : Counted db) (hok : ∀ x, Unlinks db p name x →
    ∀ s ∈ derivedSiblingSuffixes, ∀ k, db.childIno p (name ++ s) = some k → sortOf db k = some (.reg, true) →
      NoOther db k p (name ++ s) name) : Counted (unlink db online p name nowMs).2 := by
  rcases unlink_cases db online p name nowMs with he | ⟨x, q, hu, he⟩
  · rwa [he]
  · have htables := unlinkTables_counted h hu.source hu.file
    have hstart : Counted { unlinkTables db p name x with queue := q } := htables.same htables.wf.queue rfl rfl rfl rfl
    rw [he]
    refine cascadeUnlink_keeps (I := Counted) hstart.wf hstart fun s hs d hd hI hless hsort hchild => ?_
    refine removeDerived_counted hI fun y hy hyd e hm hey => ?_
    obtain ⟨hold, hys⟩ := removesSibling_of_round h.wf hs hsort hchild hy hyd
    have hm := hless.subset hm
    rw [show ({ unlinkTables db p name x with queue := q } : Db).dentries = (db.delChild p name).dentries from
      unlinkTables_dentries] at hm
    obtain ⟨hm, hne⟩ := mem_delChild.mp hm
    rcases hok x hu s hs y.ino hold hys e hm hey with hname | hname
    · exact hname
    · exact absurd hname hne

theorem delChild_free (h : db.childIno p name = none) : db.delChild p name = db := by
  have hsame : Table.erase nameOf db.dentries (p, name) = db.dentries := by
    refine List.filter_eq_self.mpr fun d hd => ?_
    have hne := childIno_none h hd
    simpa using hne
  rw [delChild_eq, hsame]

/-- What was replaced is gone, and the entry of the source has moved. -/
theorem renamed_counted {src : Inode} (h : Counted db) (hr : Renames db p name p' name' src)
    (hone : ∀ j, db.childIno p' name' = some j → OnlyDir db j ∨ names db j = 1) :
    Counted (renamedTables db p name p' name') := by
  have hmove (d : Db) : (moveChild d p name p' name').dentries.map Dentry.ino = d.dentries.map Dentry.ino := by
    rw [moveChild_eq]
    exact Table.map_modify _ _ _ _ fun _ _ => rfl
  refine ⟨(h.wf.renamed hr).1, h.parents.renamed h.wf hr, fun i => ?_⟩
  unfold renamedTables
  cases hj : db.childIno p' name' with
  | none =>
    have hview : view (moveChild db p name p' name') i = view db i := view_congr rfl (hmove db) rfl rfl
    exact hview ▸ h.ok i
  | some j =>
    have hview : view (moveChild (purge (db.delChild p' name') j) p name p' name') i =
        view (purge (db.delChild p' name') j) i := view_congr rfl (hmove _) rfl rfl
    dsimp only
    rw [hview, view_purge, view_delChild h.wf hj]
    by_cases hi : i = j
    · subst hi
      obtain ⟨dst, hdst, -⟩ := (hr.replaced i hj).2
      obtain ⟨-, hdir, -⟩ := h.of_row hdst
      have hle : names db i ≤ 1 := by
        rcases hone i hj with honly | hone
        · exact hdir (honly dst hdst)
        · exact hone.le
      have hcount := names_delChild (i := i) h.wf hj
      rw [if_pos rfl] at hcount
      have hzero : names (db.delChild p' name') i = 0 := by omega
      rw [if_pos rfl, hzero]
      exact ok_gone
    · rw [if_neg hi, if_neg (Ne.symm hi)]
      exact h.ok i

theorem renameDerived_counted (p : Ino) (name name' : String) (h : Counted db) (hp : p' < db.nextIno)
    (hdir : OnlyDir db p') (hfree : ∀ x, childInode db p name = some x → x.derived = true →
    db.childIno p' name' = none) :
    Counted (renameDerivedSibling db p name p' name') := by
  rcases renameDerived_cases db p name p' name' with he | ⟨x, hx, hd, hcase⟩
  · rwa [he]
  · rw [delChild_free (hfree x hx hd)] at hcase
    rcases hcase with he | hm
    · rwa [he]
    · exact h.moved hp hdir hm

theorem rename_counted {online : Bool} {nowMs : ℤ} (h : Counted db) (hok : ∀ src, Renames db p name p' name' src →
    (∀ j, db.childIno p' name' = some j → OnlyDir db j ∨ names db j = 1) ∧
      ∀ s k, movesSibling db p name p' name' src.ino s k → after db p name p' name' src.ino p' (name' ++ s) = none) :
    Counted (rename db online p name p' name' nowMs).2 := by
  rcases rename_cases db online p name p' name' nowMs with he | ⟨src, d, hr, hd, he⟩
  · rwa [he]
  · obtain ⟨hone, hsib⟩ := hok src hr
    have htables := renamed_counted h hr hone
    obtain ⟨hwf, hp, hentries, hinodes⟩ := h.wf.pushed hr hd
    have hstart : Counted d := by
      cases hd with
      | queued q => exact htables.same hwf rfl rfl rfl rfl
      | carried client carries replaced mapped => exact htables.same hwf rfl rfl rfl rfl
    have hchild (k : Ino) (m : String) : d.childIno k m = (renamedTables db p name p' name').childIno k m := by
      unfold Db.childIno Db.child
      rw [hentries]
    have hdir : OnlyDir d p' := by
      have hnew : (⟨name', p', src.ino⟩ : Dentry) ∈ d.dentries := hentries ▸ (mem_renamed h.wf hr).mpr (.inr rfl)
      exact hstart.parents _ hnew
    rw [he]
    refine (cascadeRename_keeps (I := fun e => Counted e ∧ e.nextIno = d.nextIno) hwf hp hr.apart ⟨hstart, rfl⟩ ?_).1
    rintro s hs e hewf ⟨hI, hnext⟩ hrows hold hnew
    have hsort (k : Ino) : sortOf e k = sortOf (renamedTables db p name p' name') k :=
      sortOf_congr (hrows.trans hinodes)
    have hpe : p' < e.nextIno := hnext ▸ hp
    have hdire : OnlyDir e p' := onlyDir_of_sort (sortOf_congr hrows) hdir
    refine ⟨renameDerived_counted p (name ++ s) (name' ++ s) hI hpe hdire fun x hx hxd => ?_,
      (hewf.renameDerived hpe _ _).2.trans hnext⟩
    have hmoves := movesSibling_of_round h.wf hr hs hsort (hold.trans (hchild _ _)) hx hxd
    rw [hnew, hchild, renamed_child hr]
    exact hsib s x.ino hmoves

/-! ### What a name keeps -/

/-- Rows go, and with a row the data and the target of the inode, but of no other. -/
def Sheds (db db' : Db) : Prop :=
  ∀ i, (db'.getInode i).isSome = true →
    (db.getInode i).isSome = true ∧ db'.chunksOf i = db.chunksOf i ∧ targetOf db' i = targetOf db i

theorem Sheds.refl (db : Db) : Sheds db db := fun _ hi => ⟨hi, rfl, rfl⟩

theorem Sheds.trans {db₁ db₂ db₃ : Db} (h : Sheds db₁ db₂) (h' : Sheds db₂ db₃) : Sheds db₁ db₃ := by
  intro i hi
  obtain ⟨hrow, hc, ht⟩ := h' i hi
  obtain ⟨hrow', hc', ht'⟩ := h i hrow
  exact ⟨hrow', hc.trans hc', ht.trans ht'⟩

theorem Sheds.of_view (h : ∀ i, (db'.getInode i).isSome = true → (db.getInode i).isSome = true)
    (hd : db'.data = db.data) (hs : db'.symlinks = db.symlinks) : Sheds db db' := by
  refine fun i hi => ⟨h i hi, ?_, ?_⟩
  · unfold Db.chunksOf
    rw [hd]
  · unfold targetOf
    rw [hs]

theorem Sheds.updInode {f : Inode → Inode} (hf : ∀ x, (f x).ino = x.ino) : Sheds db (db.updInode j f) := by
  refine .of_view (fun i hi => ?_) rfl rfl
  rw [getInode_updInode hf] at hi
  split_ifs at hi with hij
  · subst hij
    rwa [Option.isSome_map] at hi
  · exact hi

theorem sheds_gone (hrow : ∀ i, db'.getInode i = if i = j then none else db.getInode i)
    (hc : ∀ i, i ≠ j → db'.chunksOf i = db.chunksOf i) (ht : ∀ i, i ≠ j → targetOf db' i = targetOf db i) :
    Sheds db db' := by
  intro i hi
  rw [hrow] at hi
  split_ifs at hi with hij
  · cases hi
  · exact ⟨hi, hc i hij, ht i hij⟩

theorem sheds_purge : Sheds db (purge db j) := by
  have hview (i : Ino) (hne : i ≠ j) : view (purge db j) i = view db i := by rw [view_purge, if_neg hne]
  exact sheds_gone (j := j) (fun i => getInode_delInode) (fun i hne => congrArg View.chunks (hview i hne)) fun i hne =>
    congrArg View.target (hview i hne)

theorem sheds_delInode : Sheds db (db.delInode j) :=
  sheds_gone (fun _ => getInode_delInode) (fun _ _ => rfl) fun _ _ => rfl

theorem sheds_delData : Sheds db ((db.delData j).delInode j) := by
  refine sheds_gone (fun _ => getInode_delInode) (fun i hne => ?_) fun _ _ => rfl
  have hdata : ((db.delData j).delInode j).chunksOf i = _ := chunksOf_delData
  rw [hdata, if_neg hne]

theorem sheds_entries (h : db'.inodes = db.inodes) (hd : db'.data = db.data) (hs : db'.symlinks = db.symlinks) :
    Sheds db db' := by
  refine .of_view (fun i hi => ?_) hd hs
  unfold Db.getInode at hi ⊢
  rwa [h] at hi

theorem sheds_delChild (p : Ino) (name : String) : Sheds db (db.delChild p name) := sheds_entries rfl rfl rfl

theorem unlink_sheds {online : Bool} {nowMs : ℤ} : Sheds db (unlink db online p name nowMs).2 := by
  rcases unlink_cases db online p name nowMs with he | ⟨x, q, -, he⟩
  · rw [he]
    exact .refl db
  · have htables : Sheds db (unlinkTables db p name x) := by
      have hdel : Sheds db ((db.delChild p name).updInode x.ino fun y => { y with nlink := y.nlink - 1 }) :=
        (sheds_delChild p name).trans (.updInode fun _ => rfl)
      unfold unlinkTables
      dsimp only
      split_ifs
      · exact hdel.trans sheds_purge
      · exact hdel
    have hstart : Sheds db { unlinkTables db p name x with queue := q } := htables.trans (sheds_entries rfl rfl rfl)
    rw [he]
    unfold cascadeUnlinkDerivedSiblings
    generalize derivedSiblingSuffixes = suffixes
    generalize ({ unlinkTables db p name x with queue := q } : Db) = d at hstart
    induction suffixes generalizing d with
    | nil => exact hstart
    | cons s suffixes ih =>
      refine ih (removeDerivedSibling d p (name ++ s)) (hstart.trans ?_)
      rcases removeDerived_cases d p (name ++ s) with he | ⟨y, -, -, he⟩
      · rw [he]
        exact .refl d
      · rw [he]
        exact (sheds_delChild p (name ++ s)).trans sheds_delData

theorem rename_sheds {online : Bool} {nowMs : ℤ} : Sheds db (rename db online p name p' name' nowMs).2 := by
  rcases rename_cases db online p name p' name' nowMs with he | ⟨src, d, -, hd, he⟩
  · rw [he]
    exact .refl db
  · have htables : Sheds db (renamedTables db p name p' name') := by
      unfold renamedTables
      cases hj : db.childIno p' name' with
      | none => exact sheds_entries rfl rfl rfl
      | some j =>
        exact ((sheds_delChild p' name').trans sheds_purge).trans (sheds_entries rfl rfl rfl)
    have hstart : Sheds db d := by
      cases hd with
      | queued q => exact htables.trans (sheds_entries rfl rfl rfl)
      | carried client carries replaced mapped => exact htables.trans (sheds_entries rfl rfl rfl)
    rw [he]
    unfold cascadeRenameDerivedSiblings
    generalize derivedSiblingSuffixes = suffixes
    clear hd he
    induction suffixes generalizing d with
    | nil => exact hstart
    | cons s suffixes ih =>
      refine ih (renameDerivedSibling d p (name ++ s) p' (name' ++ s)) (hstart.trans ?_)
      rcases renameDerived_cases d p (name ++ s) p' (name' ++ s) with he | ⟨y, -, -, he | hm⟩
      · rw [he]
        exact .refl d
      · rw [he]
        exact sheds_delChild p' (name' ++ s)
      · obtain ⟨hi, hd, hs, -, -⟩ := moveDentries_rows hm
        exact sheds_entries hi hd hs

theorem applyDeletion_sheds {rid : String} : Sheds db (applyDeletion db rid).2 := by
  rcases applyDeletion_cases db rid with he | ⟨j, d, -, -, -, he⟩
  · rw [he]
    exact .refl db
  · have hdel : Sheds db (db.delDentriesOf j) := sheds_entries rfl rfl rfl
    rw [he]
    exact (hdel.trans sheds_delData).trans (sheds_entries rfl rfl rfl)

theorem reconcileOne_symlinks {doc : Document} {nowMs : ℤ} (h : WellFormed db) :
    (reconcileOne db doc nowMs).2.symlinks = db.symlinks := by
  have hedit : ∀ d d', (WellFormed d ∧ d.symlinks = db.symlinks) → Edit .any d d' →
      WellFormed d' ∧ d'.symlinks = db.symlinks := by
    rintro d d' ⟨hd, hs⟩ he
    refine ⟨hd.edit he, ?_⟩
    cases he with
    | sync inodes next dentries data symlinks remotes => exact symlinks.trans hs
    | file named free under called own => exact hs
    | dir named free under called => exact hs
    | spare taken gone => exact hs
    | rewrite named => exact hs
  refine (reconcileOne_keeps (R := .any) (I := fun d => WellFormed d ∧ d.symlinks = db.symlinks)
    (fun _ hd => hd.1) hedit ⟨h, rfl⟩
    (fun _ => .any) (fun _ => .any _) (fun _ _ _ => trivial) (fun i d' hr hmade hm => ?_) (fun d j hd hs =>
      ?_) fun j _ _ hc hmade => ?_).2
  · obtain ⟨-, hn, -, -⟩ := dirsOf_edits h .any (Calls.any doc).dirs
    exact ⟨hmade.1.moveDentries (hmade.1.named_lt hn) hm, (moveDentries_rows hm).2.2.1.trans hmade.2⟩
  · obtain ⟨x, hx, -⟩ := Option.map_eq_some_iff.mp hs
    exact ⟨hd.1.setRemoteId (hd.1.bounded.getInode hx), hd.2⟩
  · exact ⟨hmade.1.setRemoteId (hmade.1.bounded.childIno hc), hmade.2⟩

end Lemmas

/-! ### Runs -/

section Run

variable {db : Db} {online : Bool}

theorem step_counted {t : Db} {a : ℤ × Op} (h : Counted db) (hok : LinksOk db a) (hst : step online db a = some t) :
    Counted t := by
  obtain ⟨nowMs, op⟩ := a
  cases hst
  cases op with
  | name op =>
    cases op with
    | mkdir p n => exact mkdir_counted h
    | rmdir p n => exact rmdir_counted h hok
    | createFile p n => exact createFile_counted h
    | unlink p n => exact unlink_counted h hok
    | symlink p n target => exact symlink_counted h
    | link i p n => exact link_counted h
    | rename p n p' n' => exact rename_counted h hok
  | ensureDirs path =>
    have hdirs : PathOn .dirs db ROOT_INO (components path) := pathOn_dirs.mpr hok
    show Counted (ensureParts db ROOT_INO (components path)).1
    exact keeps_edits (fun _ _ hd he => hd.edit he) h (ensureParts_edits h.wf (.inl rfl) hdirs fun _ _ => trivial).1
  | reconcileOne doc => exact reconcileOne_counted h hok
  | applyDeletion rid => exact applyDeletion_counted h hok

theorem Counted.linked (h : Counted db) : Linked db := by
  refine ⟨fun d hd => ?_, fun i x hx hk => (h.of_row hx).1 hk, fun i => ⟨fun hi => ?_, fun hi => ?_⟩, fun i hi => ?_,
    fun i => ⟨fun ht => ?_, ?_⟩⟩
  · obtain ⟨x, hx⟩ := h.row (.inr ⟨d, hd, rfl⟩)
    rw [hx]
    rfl
  · obtain ⟨x, hx⟩ := Option.isSome_iff_exists.mp hi
    by_cases hroot : i = ROOT_INO
    · exact .inl hroot
    · exact .inr (names_pos.mp ((h.of_row hx).2.2.1 hroot))
  · obtain ⟨x, hx⟩ := h.row hi
    rw [hx]
    rfl
  · have hok := h.ok i
    cases hx : db.getInode i with
    | none =>
      unfold View.Ok view at hok
      rw [hx] at hok
      exact hok.2.1
    | some x =>
      refine absurd ?_ hi
      by_cases hroot : i = ROOT_INO
      · exact .inl hroot
      · exact .inr (names_pos.mp ((h.of_row hx).2.2.1 hroot))
  · have hok := h.ok i
    cases hx : db.getInode i with
    | none =>
      unfold View.Ok view at hok
      rw [hx] at hok
      rw [show targetOf db i = none from hok.2.2] at ht
      cases ht
    | some x => exact ⟨x, rfl, (h.of_row hx).2.2.2.mp ht⟩
  · rintro ⟨x, hx, hk⟩
    exact (h.of_row hx).2.2.2.mpr hk

/-- What has a row before and after an operation keeps its target, and its
data unless a pull rewrites it. -/
theorem kept_of_row (h : WellFormed db) {nowMs : ℤ} {op : Op} {i : Ino} (hi : (db.getInode i).isSome = true)
    (hi' : ((op.apply db online nowMs).getInode i).isSome = true) :
    targetOf (op.apply db online nowMs) i = targetOf db i ∧
      ((∀ doc, op ≠ .reconcileOne doc) → (op.apply db online nowMs).chunksOf i = db.chunksOf i) := by
  have of_sheds {d : Db} (hs : Sheds db d) (hrow : (d.getInode i).isSome = true) :
      targetOf d i = targetOf db i ∧ ((∀ doc, op ≠ .reconcileOne doc) → d.chunksOf i = db.chunksOf i) := by
    obtain ⟨-, hc, ht⟩ := hs i hrow
    exact ⟨ht, fun _ => hc⟩
  have of_eq {d : Db} (hd : d.data = db.data) (hs : d.symlinks = db.symlinks) :
      targetOf d i = targetOf db i ∧ ((∀ doc, op ≠ .reconcileOne doc) → d.chunksOf i = db.chunksOf i) := by
    unfold targetOf Db.chunksOf
    rw [hd, hs]
    exact ⟨rfl, fun _ => rfl⟩
  cases op with
  | name op =>
    cases op with
    | mkdir p n =>
      show targetOf (mkdir db p n).2 i = _ ∧ (_ → (mkdir db p n).2.chunksOf i = _)
      rcases mkdir_cases db p n with he | ⟨-, -, he⟩
      · rw [he]
        exact of_eq rfl rfl
      · rw [he]
        exact of_eq rfl rfl
    | rmdir p n =>
      refine of_sheds ?_ hi'
      show Sheds db (rmdir db p n).2
      rcases rmdir_cases db p n with he | ⟨x, -, -, -, -, he⟩
      · rw [he]
        exact .refl db
      · rw [he]
        exact ((sheds_delChild p n).trans sheds_delInode).trans (.updInode fun _ => rfl)
    | createFile p n =>
      show targetOf (createFile db online p n).2 i = _ ∧ (_ → (createFile db online p n).2.chunksOf i = _)
      rcases createFile_cases db online p n with he | ⟨-, -, he⟩
      · rw [he]
        exact of_eq rfl rfl
      · rw [he]
        exact of_eq rfl rfl
    | unlink p n => exact of_sheds unlink_sheds hi'
    | symlink p n target =>
      show targetOf (symlink db p n target).2 i = _ ∧ (_ → (symlink db p n target).2.chunksOf i = _)
      rcases symlink_cases db p n target with he | ⟨-, -, he⟩
      · rw [he]
        exact of_eq rfl rfl
      · rw [he]
        refine ⟨?_, fun _ => rfl⟩
        obtain ⟨x, hx⟩ := Option.isSome_iff_exists.mp hi
        have hne : ¬ db.nextIno = i := (h.bounded.getInode hx).ne'
        exact targetOf_addSymlink.trans (by rw [if_neg hne, Option.or_none]; rfl)
    | link k p n =>
      show targetOf (link db k p n).2 i = _ ∧ (_ → (link db k p n).2.chunksOf i = _)
      rcases link_cases db k p n with he | ⟨x, -, -, -, -, he⟩
      · rw [he]
        exact of_eq rfl rfl
      · rw [he]
        exact of_eq rfl rfl
    | rename p n p' n' => exact of_sheds rename_sheds hi'
  | ensureDirs path =>
    have hkeep : Keeps i db (ensureDirs db path).1 := by
      obtain ⟨x, hx⟩ := Option.isSome_iff_exists.mp hi
      exact ensureDirs_keeps (h.bounded.getInode hx)
    have hsym : (ensureDirs db path).1.symlinks = db.symlinks := by
      have hedit : ∀ d d', d.symlinks = db.symlinks → Edit .any d d' → d'.symlinks = db.symlinks := by
        intro d d' hs he
        cases he with
        | sync inodes next dentries data symlinks remotes => exact symlinks.trans hs
        | file named free under called own => exact hs
        | dir named free under called => exact hs
        | spare taken gone => exact hs
        | rewrite named => exact hs
      exact keeps_edits hedit rfl (ensureParts_edits h (.inl rfl) .any fun _ _ => trivial).1
    refine ⟨?_, fun _ => hkeep.chunks⟩
    show targetOf (ensureDirs db path).1 i = _
    unfold targetOf
    rw [hsym]
  | reconcileOne doc =>
    refine ⟨?_, fun hne => absurd rfl (hne doc)⟩
    show targetOf (reconcileOne db doc nowMs).2 i = _
    unfold targetOf
    rw [reconcileOne_symlinks h]
  | applyDeletion rid => exact of_sheds applyDeletion_sheds hi'

/-- In every run whose steps meet the condition, links are counted and nothing
dangles; and the next such step deletes nothing of what keeps a name. -/
theorem reachable_linked (h : Reach (step online) LinksOk .fresh db) :
    Linked db ∧ ∀ nowMs op, LinksOk db (nowMs, op) → ∀ i, (db.getInode i).isSome = true →
      Named (op.apply db online nowMs) i →
        targetOf (op.apply db online nowMs) i = targetOf db i ∧
          ((∀ doc, op ≠ .reconcileOne doc) → (op.apply db online nowMs).chunksOf i = db.chunksOf i) := by
  have hinv : Counted db := h.inv .start fun _ _ _ hI hok hst => step_counted hI hok hst
  refine ⟨hinv.linked, fun nowMs op hok i hi hnamed => ?_⟩
  have hnext : Counted (op.apply db online nowMs) := step_counted hinv (a := (nowMs, op)) hok rfl
  exact kept_of_row hinv.wf hi ((hnext.linked.rows i).mpr hnamed)

/-- A file with a second name loses the first. -/
theorem reachable_linked_link : ∃ db, db.dentries = [⟨"a", 1, 2⟩, ⟨"b", 1, 2⟩] ∧ Linked db ∧
    ((NameOp.unlink 1 "a").apply db true 0).2.dentries = [⟨"b", 1, 2⟩] ∧
    ((NameOp.unlink 1 "a").apply db true 0).2.chunksOf 2 = db.chunksOf 2 := by
  have hone : Reach (step true) LinksOk .fresh (createFile .fresh true 1 "a").2 :=
    Reach.start.next (a := (0, .name (.createFile 1 "a"))) trivial rfl
  have htwo : Reach (step true) LinksOk .fresh (link (createFile .fresh true 1 "a").2 2 1 "b").2 :=
    hone.next (a := (0, .name (.link 2 1 "b"))) trivial rfl
  obtain ⟨hlinked, hkept⟩ := reachable_linked htwo
  have hok : LinksOk (link (createFile .fresh true 1 "a").2 2 1 "b").2 (0, .name (.unlink 1 "a")) := by
    have hnone : ∀ s ∈ derivedSiblingSuffixes,
        (link (createFile .fresh true 1 "a").2 2 1 "b").2.childIno 1 ("a" ++ s) = none := by decide
    intro x _ s hs k hk
    rw [hnone s hs] at hk
    cases hk
  have hnext := (hkept 0 (.name (.unlink 1 "a")) hok 2 (by decide) (.inr ⟨⟨"b", 1, 2⟩, by decide, rfl⟩)).2 nofun
  exact ⟨_, by decide, hlinked, by decide, hnext⟩

/-- `c` is moved over `a`, which is also named `b`. -/
theorem rename_dangles : ¬ ∀ db, Reach (step true) anyStep .fresh db → Linked db := by
  intro hall
  obtain ⟨db, hreach, hdb⟩ : ∃ db, Reach (step true) anyStep .fresh db ∧
      decide (∃ d ∈ db.dentries, (db.getInode d.ino).isSome = false) = true :=
    Reach.exists_of_run [(0, .name (.createFile 1 "a")), (0, .name (.link 2 1 "b")), (0, .name (.createFile 1 "c")),
      (0, .name (.rename 1 "c" 1 "a"))] (by decide)
  obtain ⟨d, hd, hnone⟩ := of_decide_eq_true hdb
  have hsome := (hall db hreach).entries d hd
  rw [hnone] at hsome
  cases hsome

end Run

end Cache
end Smfs
