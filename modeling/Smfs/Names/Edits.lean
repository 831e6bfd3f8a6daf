/-
# What a pull does to the tree

A pull builds its paths with a few kinds of change (`Edit`). What these keep,
and what survives the move of a mapped entry and a new mapping, a reconcile
keeps (`reconcileOne_keeps`). Where the path of the document meets a rule
(`PathOn`), for instance that it goes through directories only (`DirsOn`), so
does every entry that is built on it.

Key definitions: `Cache.Rule`, `Cache.Edit`, `Cache.PathOn`, `Cache.Stands`.
Key theorems: `Cache.reconcileOne_keeps`, `Cache.step_wf`.
-/
import Smfs.Names.Cache

namespace Smfs
namespace Cache

open Db Fs

/-- As far as the path stands, it goes through directories. -/
def DirsOn (db : Db) : Ino → List String → Prop
  | parent, [] => OnlyDir db parent
  | parent, part :: parts => OnlyDir db parent ∧ ∀ k, db.childIno parent part = some k → DirsOn db k parts

/-- What is asked of the place of a new entry: of the sort of its parent, and of
its name. A new directory is good for a parent. -/
structure Rule where
  parent : Option (FileKind × Bool) → Prop
  name : String → Prop
  newDir : parent (some (.dir, false))

/-- Nothing is asked. -/
def Rule.any : Rule := ⟨fun _ => True, fun _ => True, trivial⟩

/-- The parent is a directory if it has a row. -/
def Rule.dirs : Rule := ⟨fun o => ∀ s, o = some s → s.1 = .dir, fun _ => True, fun _ hs => by cases hs; rfl⟩

/-- As far as the path stands, its inodes meet the rule. -/
def PathOn (R : Rule) (db : Db) : Ino → List String → Prop
  | parent, [] => R.parent (sortOf db parent)
  | parent, part :: parts =>
    R.parent (sortOf db parent) ∧ ∀ k, db.childIno parent part = some k → PathOn R db k parts

/-- One change of what `ensure_dirs` and the makers of files do. -/
inductive Edit (R : Rule) (db : Db) : Db → Prop
  /-- The tables of the sync engine change, but no mapping. -/
  | sync {db' : Db} (inodes : db'.inodes = db.inodes) (next : db'.nextIno = db.nextIno)
      (dentries : db'.dentries = db.dentries) (data : db'.data = db.data) (symlinks : db'.symlinks = db.symlinks)
      (remotes : db'.remotes.map (fun r => (r.ino, r.remoteId)) = db.remotes.map fun r => (r.ino, r.remoteId)) :
      Edit R db db'
  | file {size : ℤ} {derived : Bool} {name : String} {p : Ino} {rows : List Chunk} (named : Named db p)
      (free : db.childIno p name = none) (under : R.parent (sortOf db p)) (called : R.name name)
      (own : ∀ c ∈ rows, c.ino = db.nextIno) :
      Edit R db { (addDentry (db.addInode .reg 1 size derived).1 name p db.nextIno) with data := db.data ++ rows }
  | dir {name : String} {p : Ino} (named : Named db p) (free : db.childIno p name = none)
      (under : R.parent (sortOf db p)) (called : R.name name) : Edit R db (newDir db name p)
  /-- The inode that is left over where an entry without an inode has the name. -/
  | spare {size : ℤ} {name : String} {p i : Ino} (taken : db.childIno p name = some i) (gone : db.getInode i = none) :
      Edit R db (db.addInode .reg 1 size true).1
  | rewrite {i : Ino} {content : Bytes} (named : Named db i) : Edit R db (rewriteFileContent db i content)

/-- The names of the directories of a document's path. -/
@[irreducible] def dirOf (doc : Document) : List String := components (splitPath doc.path).1

/-- `ensure_dirs` for a document's path. -/
@[irreducible] def dirsOf (db : Db) (doc : Document) : Db × Ino := ensureDirs db (splitPath doc.path).1

/-- The name of a document's file. -/
def fileOf (doc : Document) : String := (splitPath doc.path).2

/-- What the names of the siblings of a document's file end in. -/
def suffixesOf (doc : Document) : List String :=
  if doc.status = "failed" then [".smfs-error.txt"]
  else if doc.status = "done" ∧ doc.content.getD [] ≠ [] then (transcriptionSuffix doc).toList
  else []

/-- The directories of a document's path and the siblings of its file have names that meet the rule. -/
structure Calls (R : Rule) (doc : Document) : Prop where
  dirs : ∀ n ∈ dirOf doc, R.name n
  siblings : ∀ s ∈ suffixesOf doc, R.name (fileOf doc ++ s)

/-- `reconcile_one` gets as far as the directories of the path. -/
def visits (db : Db) (doc : Document) : Prop :=
  match db.inoByRemoteId doc.id with
  | some i => dirtyNewer db i doc = false ∧ (mirroredUpTo db i doc = true → doc.isBinaryType = true)
  | none => doc.status = "done" ∨ doc.status = "failed"

/-- `reconcile_one` walks the directories of the path, and makes those that are missing. -/
def builds (db : Db) (doc : Document) : Prop :=
  match db.inoByRemoteId doc.id with
  | some i => dirtyNewer db i doc = false ∧ (mirroredUpTo db i doc = true → suffixesOf doc ≠ [])
  | none => doc.status = "done" ∨ doc.status = "failed"

/-- `reconcile_one` moves the entry of the mapped inode, if nothing stands in the way. -/
def retargets (db : Db) (doc : Document) (i : Ino) : Prop :=
  db.inoByRemoteId doc.id = some i ∧ dirtyNewer db i doc = false ∧ mirroredUpTo db i doc = false ∧
    resolveFilepath db i ≠ some doc.path

/-- Changes one after the other. -/
abbrev Edits (R : Rule) : Db → Db → Prop := Relation.ReflTransGen (Edit R)

/-- The path stands as a whole, and leads to the inode. -/
def Stands (db : Db) : Ino → List String → Ino → Prop
  | parent, [], last => parent = last
  | parent, part :: parts, last => ∃ k, db.childIno parent part = some k ∧ Stands db k parts last

/-- Names may vanish and come, but none stands for another inode than before;
and what had a name is of the sort it was. -/
structure Later (db db' : Db) : Prop where
  child : ∀ q n k, db'.childIno q n = some k → db.childIno q n = some k ∨ db.childIno q n = none
  sort : ∀ i, Named db i → sortOf db' i = sortOf db i

/-- Nothing goes: names and inodes only come. -/
structure Extends (db db' : Db) : Prop where
  dentries : db.dentries ⊆ db'.dentries
  child : ∀ q n k, db.childIno q n = some k → db'.childIno q n = some k
  next : db.nextIno ≤ db'.nextIno
  sort : ∀ i < db.nextIno, sortOf db' i = sortOf db i

theorem Extends.refl (db : Db) : Extends db db := ⟨List.Subset.refl _, fun _ _ _ hk => hk, le_rfl, fun _ _ => rfl⟩

theorem Extends.trans {db₁ db₂ db₃ : Db} (h : Extends db₁ db₂) (h' : Extends db₂ db₃) : Extends db₁ db₃ :=
  ⟨fun _ hd => h'.dentries (h.dentries hd), fun q n k hk => h'.child q n k (h.child q n k hk), h.next.trans h'.next,
    fun i hi => (h'.sort i (hi.trans_le h.next)).trans (h.sort i hi)⟩

section Lemmas

variable {db db' : Db} {i j p : Ino} {name : String} {R : Rule}

theorem WellFormed.edit (h : WellFormed db) (he : Edit R db db') : WellFormed db' := by
  cases he with
  | sync inodes next dentries data symlinks remotes =>
    have hino : db'.remotes.map Remote.ino = db.remotes.map Remote.ino := by
      have := congrArg (List.map Prod.fst) remotes
      rwa [List.map_map, List.map_map] at this
    refine h.congr ⟨fun x hx => ?_, fun d hd => ?_, fun c hc => ?_, fun r hr => ?_,
      ?_⟩ dentries next fun _ => sortOf_congr inodes
    · rw [next]
      exact h.bounded.inodes x (inodes ▸ hx)
    · rw [next]
      exact h.bounded.dentries d (dentries ▸ hd)
    · rw [next]
      exact h.bounded.data c (data ▸ hc)
    · have hm : r.ino ∈ db.remotes.map Remote.ino := hino ▸ List.mem_map_of_mem hr
      obtain ⟨r', hr', he⟩ := List.mem_map.mp hm
      rw [next, ← he]
      exact h.bounded.remotes r' hr'
    · have hsorted := List.pairwise_map.mpr h.bounded.sorted
      rw [← hino] at hsorted
      exact List.pairwise_map.mp hsorted
  | @file size derived name p rows named free under called own =>
    have hnew : WellFormed ((db.addInode .reg 1 size derived).1.addDentry name p db.nextIno) :=
      h.create (fun _ => rfl) free (h.named_lt named)
    have hrows : ∀ c ∈ rows, c.ino < db.nextIno + 1 := fun c hc => (own c hc).trans_lt (Nat.lt_succ_self _)
    exact hnew.congr (hnew.bounded.addChunks hrows) rfl rfl fun _ => sortOf_congr rfl
  | dir named free under called =>
    exact (h.create (fun hd => by cases hd) free (h.named_lt named)).updInode (fun _ => rfl) fun _ => rfl
  | spare taken gone => exact h.addInode fun _ => rfl
  | rewrite named => exact h.rewrite (h.named_lt named)

/-! ### Paths -/

theorem onlyDir_iff : Rule.dirs.parent (sortOf db i) ↔ OnlyDir db i := by
  unfold Rule.dirs OnlyDir sortOf
  constructor
  · intro h x hx
    exact h (x.kind, x.derived) (by rw [hx]; rfl)
  · intro h s hs
    obtain ⟨x, hx, rfl⟩ := Option.map_eq_some_iff.mp hs
    exact h x hx

theorem pathOn_dirs {parts : List String} : PathOn .dirs db p parts ↔ DirsOn db p parts := by
  induction parts generalizing p with
  | nil => exact onlyDir_iff
  | cons part parts ih => exact and_congr onlyDir_iff (forall_congr' fun k => imp_congr_right fun _ => ih)

theorem PathOn.any {parts : List String} : PathOn .any db p parts := by
  induction parts generalizing p with
  | nil => trivial
  | cons part parts ih => exact ⟨trivial, fun _ _ => ih⟩

theorem Calls.dirsRule (doc : Document) : Calls .dirs doc := ⟨fun _ _ => trivial, fun _ _ => trivial⟩

theorem Calls.any (doc : Document) : Calls .any doc := ⟨fun _ _ => trivial, fun _ _ => trivial⟩

theorem Stands.parent {parts : List String} {last : Ino} (h : Stands db p parts last) (hd : PathOn R db p parts) :
    R.parent (sortOf db last) := by
  induction parts generalizing p with
  | nil => exact (show p = last from h) ▸ hd
  | cons part parts ih =>
    obtain ⟨k, hk, h⟩ := h
    exact ih h (hd.2 k hk)

theorem Stands.mono {parts : List String} {last : Ino} (h : Stands db p parts last)
    (hc : ∀ q n k, db.childIno q n = some k → db'.childIno q n = some k) : Stands db' p parts last := by
  induction parts generalizing p with
  | nil => exact h
  | cons part parts ih =>
    obtain ⟨k, hk, h⟩ := h
    exact ⟨k, hc p part k hk, ih h⟩

theorem parent_of_sort (h : sortOf db' i = sortOf db i) (hp : R.parent (sortOf db i)) : R.parent (sortOf db' i) := by
  rwa [h]

/-- A path that stood and met the rule still does as far as it stands. -/
theorem Stands.pathOn {parts : List String} {last : Ino} (h : Stands db p parts last) (hd : PathOn R db p parts)
    (hp : Named db p) (hl : Later db db') : PathOn R db' p parts := by
  induction parts generalizing p with
  | nil => exact parent_of_sort (hl.sort p hp) hd
  | cons part parts ih =>
    obtain ⟨k, hk, h⟩ := h
    refine ⟨parent_of_sort (hl.sort p hp) hd.1, fun k' hk' => ?_⟩
    rcases hl.child p part k' hk' with hold | hnone
    · obtain rfl : k = k' := Option.some.inj (hk.symm.trans hold)
      exact ih h (hd.2 k hk) (named_of_child hk)
    · rw [hk] at hnone
      cases hnone

theorem Later.refl (db : Db) : Later db db := ⟨fun _ _ _ hk => .inl hk, fun _ _ => rfl⟩

/-- Making a new inode under a free name leaves the other names alone. -/
theorem childIno_new {kind : FileKind} {nlink size : ℤ} {derived : Bool} {q : Ino} {n : String} :
    ((db.addInode kind nlink size derived).1.addDentry name p db.nextIno).childIno q n =
      (db.childIno q n).or (if q = p ∧ n = name then some db.nextIno else none) :=
  childIno_addDentry

theorem Later.file {size : ℤ} {derived : Bool} {rows : List Chunk} (h : WellFormed db) :
    Later db { (addDentry (db.addInode .reg 1 size derived).1 name p db.nextIno) with data := db.data ++ rows } := by
  refine ⟨fun q n k hk => ?_, fun i hi => ?_⟩
  · have hk : ((db.addInode .reg 1 size derived).1.addDentry name p db.nextIno).childIno q n = some k := hk
    rw [childIno_new] at hk
    cases hc : db.childIno q n with
    | none => exact .inr rfl
    | some k' =>
      rw [hc] at hk
      exact .inl hk
  · refine (sortOf_addInode h.bounded).trans (if_neg ?_)
    exact (h.named_lt hi).ne

/-- The entry that moved is still there. -/
theorem moved_named {d : Dentry} (hm : Fs.moveDentries db i p name = some db') (hd : db.dentryOf i = some d) :
    Named db' i := by
  obtain ⟨hmem, hino⟩ := Table.get_some hd
  unfold Fs.moveDentries at hm
  split_ifs at hm
  cases hm
  refine .inr ⟨_, Table.mem_modify.mpr ⟨d, hmem, rfl⟩, ?_⟩
  rw [if_pos hino]
  exact hino

/-- A rename of a pull fails, with the directories made, or moves the entry. -/
theorem applyRenameTo_cases (db : Db) (i : Ino) (dir name : String) :
    (∃ e, applyRenameTo db i dir name = (.error e, (ensureDirs db dir).1)) ∨
      ∃ d d', (ensureDirs db dir).1.dentryOf i = some d ∧
        Fs.moveDentries (ensureDirs db dir).1 i (ensureDirs db dir).2 name = some d' ∧
        applyRenameTo db i dir name = (.ok (), d') := by
  unfold applyRenameTo
  generalize ensureDirs db dir = dirs
  dsimp only
  cases hd : dirs.1.dentryOf i with
  | none => exact .inl ⟨_, rfl⟩
  | some d =>
    cases hm : Fs.moveDentries dirs.1 i dirs.2 name with
    | none => exact .inl ⟨_, rfl⟩
    | some d' => exact .inr ⟨d, d', rfl, rfl, rfl⟩

theorem Later.moved (h : WellFormed db) (hm : Fs.moveDentries db i p name = some db') : Later db db' := by
  unfold Fs.moveDentries at hm
  split_ifs at hm with hno
  cases hm
  push Not at hno
  refine ⟨fun q n k hk => ?_, fun _ _ => rfl⟩
  obtain ⟨x, hx, he⟩ := Table.mem_modify.mp (childIno_some hk)
  by_cases hxi : x.ino = i
  · -- the name is the new one, which was free or the inode's own
    rw [if_pos hxi] at he
    cases hc : db.childIno q n with
    | none => exact .inr rfl
    | some k' =>
      left
      have hmem := childIno_some hc
      have hk' : k' = i := by
        by_contra hne
        exact hno.2 _ hmem hne (congrArg Dentry.parentIno he) (congrArg Dentry.name he)
      rw [hk', show k = x.ino from congrArg Dentry.ino he, hxi]
  · rw [if_neg hxi] at he
    subst he
    exact .inl (childIno_mem h.distinct hx)

/-! ### What the helpers change -/

theorem Edit.extends (h : WellFormed db) (he : Edit R db db') : Extends db db' := by
  have hadd {kind : FileKind} {nlink size : ℤ} {derived : Bool} {name : String} {p : Ino} (q : Ino) (n : String) (k : Ino)
      (hk : db.childIno q n = some k) :
      ((db.addInode kind nlink size derived).1.addDentry name p db.nextIno).childIno q n = some k := by
    rw [childIno_new, hk]
    rfl
  have hsort {kind : FileKind} {nlink size : ℤ} {derived : Bool} (i : Ino) (hi : i < db.nextIno) :
      sortOf (db.addInode kind nlink size derived).1 i = sortOf db i := by
    rw [sortOf_addInode h.bounded, if_neg hi.ne]
  cases he with
  | sync inodes next dentries data symlinks remotes =>
    refine ⟨dentries ▸ List.Subset.refl _, fun q n k hk => ?_, next.ge, fun _ _ => sortOf_congr inodes⟩
    unfold Db.childIno Db.child at hk ⊢
    rwa [dentries]
  | file named free under called own => exact ⟨List.subset_append_left _ _, hadd, Nat.le_succ _, hsort⟩
  | dir named free under called =>
    exact ⟨List.subset_append_left _ _, hadd, Nat.le_succ _, fun i hi =>
      (sortOf_updNlink (f := fun n => n + 1)).trans (hsort i hi)⟩
  | spare taken gone => exact ⟨List.Subset.refl _, fun _ _ _ hk => hk, Nat.le_succ _, hsort⟩
  | rewrite named => exact ⟨List.Subset.refl _, fun _ _ _ hk => hk, le_rfl, fun _ _ => sortOf_rewrite⟩

theorem Edits.wf (h : WellFormed db) (he : Edits R db db') : WellFormed db' := by
  induction he with
  | refl => exact h
  | tail _ hst ih => exact ih.edit hst

theorem Edits.extends (h : WellFormed db) (he : Edits R db db') : Extends db db' := by
  induction he with
  | refl => exact .refl _
  | tail hs hst ih => exact ih.trans (hst.extends (Edits.wf h hs))

/-- What stands at a new directory. -/
theorem newDir_spec (h : WellFormed db) (hp : Named db p) (hc : db.childIno p name = none) :
    (newDir db name p).childIno p name = some db.nextIno ∧ ∀ parts, PathOn R (newDir db name p) db.nextIno parts := by
  have hsort : sortOf (newDir db name p) db.nextIno = some (.dir, false) := by
    refine (sortOf_updNlink (f := fun n => n + 1)).trans ?_
    exact (sortOf_addInode h.bounded).trans (if_pos rfl)
  have hparent : R.parent (sortOf (newDir db name p) db.nextIno) := by
    rw [hsort]
    exact R.newDir
  refine ⟨?_, fun parts => ?_⟩
  · refine childIno_new.trans ?_
    rw [hc, if_pos ⟨rfl, rfl⟩]
    rfl
  · cases parts with
    | nil => exact hparent
    | cons part parts =>
      refine ⟨hparent, fun k hk => ?_⟩
      -- a new directory has no entries
      have hk : ((db.addInode .dir 2 0 false).1.addDentry name p db.nextIno).childIno db.nextIno part = some k := hk
      rw [childIno_new, if_neg fun he => (h.named_lt hp).ne he.1.symm, Option.or_none] at hk
      exact absurd (h.parents _ (childIno_some hk)) (lt_irrefl _)

theorem ensureParts_edits {parts : List String} : ∀ {db : Db} {p : Ino}, WellFormed db → Named db p →
    PathOn R db p parts → (∀ n ∈ parts, R.name n) → Edits R db (ensureParts db p parts).1 ∧
      Named (ensureParts db p parts).1 (ensureParts db p parts).2 ∧
      Stands (ensureParts db p parts).1 p parts (ensureParts db p parts).2 ∧
      PathOn R (ensureParts db p parts).1 p parts := by
  induction parts with
  | nil => exact fun _ hp hs _ => ⟨.refl, hp, rfl, hs⟩
  | cons part parts ih =>
    intro db p h hp hs hnames
    have hrest : ∀ n ∈ parts, R.name n := fun n hn => hnames n (List.mem_cons_of_mem _ hn)
    unfold ensureParts ensureDir
    cases hc : db.childIno p part with
    | some k =>
      obtain ⟨he, hn, hst, hd⟩ := ih h (named_of_child hc) (hs.2 k hc) hrest
      have hext := Edits.extends h he
      refine ⟨he, hn, ⟨k, hext.child p part k hc, hst⟩, ?_, fun k' hk' => ?_⟩
      · exact parent_of_sort (hext.sort p (h.named_lt hp)) hs.1
      · obtain rfl : k = k' := Option.some.inj ((hext.child p part k hc).symm.trans hk')
        exact hd
    | none =>
      dsimp only
      have hdir : Edit R db (newDir db part p) := .dir hp hc hs.1 (hnames part List.mem_cons_self)
      obtain ⟨hchild, hdirs⟩ := newDir_spec (R := R) h hp hc
      obtain ⟨he, hn, hst, hd⟩ := ih (h.edit hdir) (named_of_child hchild) (hdirs parts) hrest
      have hext := (hdir.extends h).trans (Edits.extends (h.edit hdir) he)
      have hkeep := (Edits.extends (h.edit hdir) he).child p part db.nextIno hchild
      refine ⟨.head hdir he, hn, ⟨db.nextIno, hkeep, hst⟩, ?_, fun k' hk' => ?_⟩
      · exact parent_of_sort (hext.sort p (h.named_lt hp)) hs.1
      · obtain rfl : db.nextIno = k' := Option.some.inj (hkeep.symm.trans hk')
        exact hd

/-- A path that stands is found, and nothing is made. -/
theorem ensureParts_of_stands {parts : List String} {last : Ino} (h : Stands db p parts last) :
    ensureParts db p parts = (db, last) := by
  induction parts generalizing p with
  | nil => exact congrArg (Prod.mk db) h
  | cons part parts ih =>
    obtain ⟨k, hk, h⟩ := h
    unfold ensureParts ensureDir
    rw [hk]
    exact ih h

theorem Later.add (h : WellFormed db) (he : Edit R db db') (hnew : ∀ q n k, db'.childIno q n = some k →
    db.childIno q n = some k ∨ db.childIno q n = none) : Later db db' :=
  ⟨hnew, fun i hi => (he.extends h).sort i (h.named_lt hi)⟩

theorem createDerivedAt_edits (name : String) (content : Bytes) (h : WellFormed db) (hp : Named db p)
    (hs : R.parent (sortOf db p)) (hname : R.name name) :
    Edits R db (createDerivedAt db p name content).2 ∧ Later db (createDerivedAt db p name content).2 ∧
      ∀ q n k, (createDerivedAt db p name content).2.childIno q n = some k →
        db.childIno q n = some k ∨ q = p ∧ n = name := by
  unfold createDerivedAt
  cases hc : childInode db p name with
  | some x =>
    dsimp only
    split_ifs
    · obtain ⟨k, hk, hx⟩ := Option.bind_eq_some_iff.mp hc
      obtain rfl := getInode_ino hx
      have he : Edit R db (rewriteFileContent db x.ino content) := .rewrite (named_of_child hk)
      exact ⟨.single he, .add h he fun _ _ _ hk => .inl hk, fun _ _ _ hk => .inl hk⟩
    · exact ⟨.refl, .refl db, fun _ _ _ hk => .inl hk⟩
  | none =>
    dsimp only
    split_ifs with hsome
    · obtain ⟨d, hd⟩ := Option.isSome_iff_exists.mp hsome
      have hchild : db.childIno p name = some d.ino := by
        unfold Db.childIno
        rw [hd]
        rfl
      have hgone : db.getInode d.ino = none := by
        unfold childInode at hc
        rwa [hchild] at hc
      have he : Edit R db (db.addInode .reg 1 content.length true).1 := .spare hchild hgone
      exact ⟨.single he, .add h he fun _ _ _ hk => .inl hk, fun _ _ _ hk => .inl hk⟩
    · have hfree : db.childIno p name = none := by
        unfold Db.childIno
        rw [Option.not_isSome_iff_eq_none.mp hsome]
        rfl
      refine ⟨.single (.file hp hfree hs hname fun c hc => chunkRows_ino hc), .file h, fun q n k hk => ?_⟩
      have hk : ((db.addInode .reg 1 content.length true).1.addDentry name p db.nextIno).childIno q n = some k := hk
      rw [childIno_new] at hk
      by_cases hqn : q = p ∧ n = name
      · exact .inr hqn
      · rw [if_neg hqn, Option.or_none] at hk
        exact .inl hk

theorem createDerivedSibling_edits {filepath : String} (content : Bytes) {parts : List String} (h : WellFormed db)
    (hparts : components (splitPath filepath).1 = parts) (hs : PathOn R db ROOT_INO parts)
    (hnames : ∀ n ∈ parts, R.name n) (hname : R.name (splitPath filepath).2) :
    Edits R db (createDerivedSibling db filepath content).2 ∧
      PathOn R (createDerivedSibling db filepath content).2 ROOT_INO parts ∧
      ∀ last, Stands db ROOT_INO parts last → ∀ q n k, (createDerivedSibling db filepath content).2.childIno q n = some k →
          db.childIno q n = some k ∨ q = last ∧ n = (splitPath filepath).2 := by
  unfold createDerivedSibling ensureDirs
  rw [hparts]
  split_ifs
  · exact ⟨.refl, hs, fun _ _ _ _ _ hk => .inl hk⟩
  · exact ⟨.refl, hs, fun _ _ _ _ _ hk => .inl hk⟩
  · obtain ⟨he, hn, hst, hd⟩ := ensureParts_edits h (.inl rfl) hs hnames
    have hwf := Edits.wf h he
    obtain ⟨he', hl, hnew⟩ := createDerivedAt_edits (splitPath filepath).2 content hwf hn (hst.parent hd) hname
    refine ⟨he.trans he', hst.pathOn hd (.inl rfl) hl, fun last hlast q n k hk => ?_⟩
    have hsame := ensureParts_of_stands hlast
    rw [hsame] at hk hnew
    exact hnew q n k hk

/-! ### Siblings and stubs -/

theorem path_slash {doc : Document} : '/' ∈ doc.path.toList := by
  have hslash (t u : String) : '/' ∈ ("/" ++ t ++ u).toList := by
    rw [String.toList_append, String.toList_append]
    exact List.mem_append_left _ (List.mem_append_left _ (by decide))
  unfold Document.path
  split
  · split_ifs with hfp
    · rw [Bool.and_eq_true] at hfp
      exact List.contains_iff_mem.mp hfp.1
    · exact hslash _ _
  · exact hslash _ _

theorem dirOf_eq {doc : Document} : components (splitPath doc.path).1 = dirOf doc := by
  rw [dirOf]

theorem named_of_resolve {path : String} (h : resolveFilepath db i = some path) : Named db i := by
  unfold resolveFilepath at h
  split_ifs at h with hroot
  · exact .inl hroot
  · obtain ⟨parts, hparts, -⟩ := Option.map_eq_some_iff.mp h
    cases hlen : db.dentries.length with
    | zero =>
      rw [hlen, resolveParts, if_neg hroot] at hparts
      cases hparts
    | succ fuel =>
      rw [hlen, resolveParts, if_neg hroot] at hparts
      cases hd : db.dentryOf i with
      | none =>
        rw [hd] at hparts
        cases hparts
      | some d => exact .inr ⟨d, Table.get_some hd⟩

theorem dirsOf_eq {doc : Document} : ensureDirs db (splitPath doc.path).1 = dirsOf db doc := by
  rw [dirsOf]

/-- The directories of a document's path. -/
theorem dirsOf_edits {doc : Document} (h : WellFormed db) (hs : PathOn R db ROOT_INO (dirOf doc))
    (hnames : ∀ n ∈ dirOf doc, R.name n) : Edits R db (dirsOf db doc).1 ∧ Named (dirsOf db doc).1 (dirsOf db doc).2 ∧
      Stands (dirsOf db doc).1 ROOT_INO (dirOf doc) (dirsOf db doc).2 ∧
      PathOn R (dirsOf db doc).1 ROOT_INO (dirOf doc) := by
  rw [← dirsOf_eq]
  unfold ensureDirs
  rw [dirOf_eq]
  exact ensureParts_edits h (.inl rfl) hs hnames

theorem suffix_plain {doc : Document} {suffix : String} (h : transcriptionSuffix doc = some suffix) :
    '/' ∉ suffix.toList ∧ suffix ≠ "" := by
  unfold transcriptionSuffix at h
  split at h <;> cases h <;> decide

/-- What the makers of siblings do to the tables: changes next to the document's file. -/
structure Beside (R : Rule) (doc : Document) (db db' : Db) : Prop where
  edits : Edits R db db'
  dirs : PathOn R db' ROOT_INO (dirOf doc)
  names : ∀ last, Stands db ROOT_INO (dirOf doc) last → ∀ q n k, db'.childIno q n = some k →
    db.childIno q n = some k ∨ q = last ∧ n ≠ fileOf doc

variable {doc : Document} {nowMs : ℤ}

theorem Beside.refl (hs : PathOn R db ROOT_INO (dirOf doc)) : Beside R doc db db :=
  ⟨.refl, hs, fun _ _ _ _ _ hk => .inl hk⟩

theorem Beside.trans {db₁ db₂ : Db} (h : WellFormed db) (h₁ : Beside R doc db db₁) (h₂ : Beside R doc db₁ db₂) :
    Beside R doc db db₂ := by
  refine ⟨h₁.edits.trans h₂.edits, h₂.dirs, fun last hst q n k hk => ?_⟩
  rcases h₂.names last (hst.mono (Edits.extends h h₁.edits).child) q n k hk with hk | hk
  · exact h₁.names last hst q n k hk
  · exact .inr hk

theorem sibling_beside {suffix : String} (content : Bytes) (h : WellFormed db)
    (hs : PathOn R db ROOT_INO (dirOf doc)) (hc : Calls R doc) (hmem : suffix ∈ suffixesOf doc)
    (hplain : '/' ∉ suffix.toList) (hne : suffix ≠ "") :
    Beside R doc db (createDerivedSibling db (doc.path ++ suffix) content).2 := by
  have hsplit : splitPath (doc.path ++ suffix) = ((splitPath doc.path).1, (splitPath doc.path).2 ++ suffix) :=
    splitPath_append path_slash hplain
  have hdir : components (splitPath (doc.path ++ suffix)).1 = dirOf doc := by
    rw [hsplit, dirOf_eq]
  have hfile : (splitPath (doc.path ++ suffix)).2 ≠ fileOf doc := by
    rw [hsplit]
    intro he
    have hlen := congrArg String.length he
    rw [String.length_append] at hlen
    have hzero : suffix.length = 0 := by
      unfold fileOf at hlen
      omega
    exact hne (String.length_eq_zero_iff.mp hzero)
  have hcalled : R.name (splitPath (doc.path ++ suffix)).2 := by
    rw [hsplit]
    exact hc.siblings suffix hmem
  obtain ⟨he, hd, hnew⟩ := createDerivedSibling_edits content h hdir hs hc.dirs hcalled
  refine ⟨he, hd, fun last hst q n k hk => ?_⟩
  rcases hnew last hst q n k hk with hk | ⟨hq, hn⟩
  · exact .inl hk
  · exact .inr ⟨hq, hn ▸ hfile⟩

theorem errorSibling_beside (h : WellFormed db) (hs : PathOn R db ROOT_INO (dirOf doc)) (hc : Calls R doc) :
    Beside R doc db (syncErrorSibling db doc doc.path) := by
  unfold syncErrorSibling
  split_ifs with hfail
  · exact .refl hs
  · have hmem : ".smfs-error.txt" ∈ suffixesOf doc := by
      unfold suffixesOf
      rw [if_pos (not_not.mp hfail)]
      exact List.mem_cons_self
    exact sibling_beside _ h hs hc hmem (by decide) (by decide)

theorem transcriptionSibling_beside (h : WellFormed db) (hs : PathOn R db ROOT_INO (dirOf doc)) (hc : Calls R doc) :
    Beside R doc db (syncTranscriptionSibling db doc doc.path) := by
  unfold syncTranscriptionSibling
  split_ifs with hdone
  · exact .refl hs
  · split
    · rename_i b content suffix hcontent hsuf
      obtain ⟨hplain, hne⟩ := suffix_plain hsuf
      have hdone : doc.status = "done" := not_not.mp hdone
      have hmem : suffix ∈ suffixesOf doc := by
        unfold suffixesOf
        rw [if_neg (by rw [hdone]; decide), if_pos ⟨hdone, by rw [hcontent]; exact List.cons_ne_nil _ _⟩, hsuf]
        exact List.mem_cons_self
      exact sibling_beside _ h hs hc hmem hplain hne
    · exact .refl hs

/-- Where the path stands and its last name is free, a stub is a new file. -/
theorem createRawStub_new {last : Ino} (h : WellFormed db) (hst : Stands db ROOT_INO (dirOf doc) last)
    (hlast : Named db last) (hs : R.parent (sortOf db last)) (hname : R.name (fileOf doc))
    (hfree : db.childIno last (fileOf doc) = none) :
    (∃ e, createRawStub db doc.path = (.error e, db)) ∨
      (createRawStub db doc.path).1 = .ok db.nextIno ∧ Edit R db (createRawStub db doc.path).2 ∧
        sortOf (createRawStub db doc.path).2 db.nextIno = some (.reg, false) := by
  have hdirs : ensureDirs db (splitPath doc.path).1 = (db, last) := by
    unfold ensureDirs
    rw [dirOf_eq]
    exact ensureParts_of_stands hst
  unfold createRawStub
  rw [hdirs]
  split_ifs
  · exact .inl ⟨_, rfl⟩
  · exact .inl ⟨_, rfl⟩
  · right
    have hfree' : db.childIno last (splitPath doc.path).2 = none := hfree
    dsimp only
    unfold createStubAt
    rw [hfree']
    have hfile : Edit R db { (addDentry (db.addInode .reg 1 0 false).1 (splitPath doc.path).2 last db.nextIno) with
        data := db.data ++ [] } := .file hlast hfree' hs hname fun c hc => by cases hc
    rw [List.append_nil] at hfile
    exact ⟨rfl, hfile, (sortOf_addInode h.bounded).trans (if_pos rfl)⟩

/-! ### Reconciling -/

theorem builds_of_retargets (h : retargets db doc i) : builds db doc := by
  obtain ⟨hi, hdirty, hmirrored, -⟩ := h
  unfold builds
  rw [hi]
  refine ⟨hdirty, fun hm => ?_⟩
  rw [hmirrored] at hm
  cases hm

/-- A document without siblings has neither made. -/
theorem siblings_none (h : suffixesOf doc = []) : syncTranscriptionSibling db doc doc.path = db ∧
    syncErrorSibling db doc doc.path = db := by
  unfold suffixesOf at h
  split_ifs at h with hfail hdone
  · refine ⟨?_, if_pos hfail⟩
    unfold syncTranscriptionSibling
    rw [if_neg (not_not.mpr hdone.1), Option.toList_eq_nil_iff.mp h]
    split
    · rename_i hsuf
      cases hsuf
    · rfl
  · refine ⟨?_, if_pos hfail⟩
    unfold syncTranscriptionSibling
    split_ifs with hstatus
    · rfl
    · split
      · rename_i b content suffix hcontent _
        refine absurd ⟨not_not.mp hstatus, ?_⟩ hdone
        rw [hcontent]
        exact List.cons_ne_nil _ _
      · rfl

theorem visits_of_builds (h : builds db doc) : visits db doc := by
  unfold builds at h
  unfold visits
  cases hi : db.inoByRemoteId doc.id with
  | none =>
    rw [hi] at h
    exact h
  | some i =>
    rw [hi] at h
    refine ⟨h.1, fun hm => ?_⟩
    -- a document that is mirrored has a sibling only if it is binary
    cases hb : doc.isBinaryType with
    | true => rfl
    | false =>
      refine absurd ?_ (h.2 hm)
      have hdone : doc.status = "done" := by
        unfold mirroredUpTo at hm
        split at hm
        · rw [Bool.and_eq_true] at hm
          exact of_decide_eq_true hm.2
        · cases hm
      unfold suffixesOf
      rw [if_neg (by rw [hdone]; decide), transcriptionSuffix_text hb]
      exact ite_self _

theorem setMirroredState_edit {u : Option ℤ} {st : Option String} {t : Option ℤ} :
    Edit R db (db.setMirroredState i u st t) :=
  .sync rfl rfl rfl rfl rfl (Table.map_modify _ _ _ _ fun _ _ => rfl)

theorem mirrorContent_edits (hi : Named db i) : Edits R db (mirrorContent db i doc) := by
  unfold mirrorContent
  split_ifs
  · exact .refl
  · split
    · exact .single (.rewrite hi)
    · exact .refl

theorem mirrorContent_same (db : Db) (i : Ino) (doc : Document) : (mirrorContent db i doc).dentries = db.dentries ∧
    (∀ j, sortOf (mirrorContent db i doc) j = sortOf db j) ∧ (mirrorContent db i doc).nextIno = db.nextIno := by
  unfold mirrorContent
  split_ifs
  · exact ⟨rfl, fun _ => rfl, rfl⟩
  · split
    · exact ⟨rfl, fun _ => sortOf_rewrite, rfl⟩
    · exact ⟨rfl, fun _ => rfl, rfl⟩

/-- The path meets the rule if the names and sorts are the same. -/
theorem PathOn.congr {parts : List String} (h : PathOn R db p parts) (hd : db'.dentries = db.dentries)
    (hs : ∀ j, sortOf db' j = sortOf db j) : PathOn R db' p parts := by
  induction parts generalizing p with
  | nil => exact parent_of_sort (hs p) h
  | cons part parts ih =>
    refine ⟨parent_of_sort (hs p) h.1, fun k hk => ih (h.2 k ?_)⟩
    unfold Db.childIno Db.child at hk ⊢
    rwa [hd] at hk

theorem reconcileContent_edits (h : WellFormed db) (hi : Named db i) (hs : PathOn R db ROOT_INO (dirOf doc))
    (hc : Calls R doc) : Edits R db (reconcileContent db i doc nowMs) := by
  obtain ⟨hd, hsort, -⟩ := mirrorContent_same db i doc
  unfold reconcileContent
  split_ifs
  · have h1 : Edits R db ((mirrorContent db i doc).setMirroredState i doc.updatedMs (some doc.status) (some nowMs)) :=
      (mirrorContent_edits hi).tail setMirroredState_edit
    refine h1.trans (transcriptionSibling_beside (Edits.wf h h1) ?_ hc).edits
    exact hs.congr hd fun j => (sortOf_congr rfl).trans (hsort j)
  · have h1 : Edits R db (db.setMirroredState i none (some doc.status) (some nowMs)) :=
      .single setMirroredState_edit
    refine h1.trans (errorSibling_beside (Edits.wf h h1) ?_ hc).edits
    exact hs.congr rfl fun _ => sortOf_congr rfl

end Lemmas

/-! ### What a reconcile keeps -/

section Keeps

variable {R : Rule} {I : Db → Prop} {db : Db} {doc : Document} {nowMs : ℤ}
  (hwf : ∀ d, I d → WellFormed d) (hedit : ∀ d d', I d → Edit R d d' → I d')

include hedit in
theorem keeps_edits {d d' : Db} (h : I d) (he : Edits R d d') : I d' := by
  induction he with
  | refl => exact h
  | tail _ hst ih => exact hedit _ _ ih hst

include hwf hedit in
theorem reconcileMapped_keeps {i : Ino} (h : I db) (hi : db.inoByRemoteId doc.id = some i)
    (hs : builds db doc → PathOn R db ROOT_INO (dirOf doc)) (hcalls : builds db doc → Calls R doc)
    (hmove : ∀ d', retargets db doc i → I (dirsOf db doc).1 →
      moveDentries (dirsOf db doc).1 i (dirsOf db doc).2 (fileOf doc) = some d' → I d') :
    I (reconcileMapped db i doc nowMs).2 := by
  have keep := @keeps_edits R I hedit
  unfold reconcileMapped
  by_cases hdirty : dirtyNewer db i doc = true
  · rw [if_pos hdirty]
    exact h
  · have hdirty : dirtyNewer db i doc = false := by simpa using hdirty
    have hbuilds (hb : mirroredUpTo db i doc = true → suffixesOf doc ≠ []) : builds db doc := by
      unfold builds
      rw [hi]
      exact ⟨hdirty, hb⟩
    rw [if_neg (by rw [hdirty]; exact Bool.false_ne_true)]
    by_cases hmirrored : mirroredUpTo db i doc = true
    · rw [if_pos hmirrored]
      by_cases hsuf : suffixesOf doc = []
      · rw [(siblings_none hsuf).1, (siblings_none hsuf).2]
        exact h
      · have hv := hbuilds fun _ => hsuf
        have h1 := transcriptionSibling_beside (hwf db h) (hs hv) (hcalls hv)
        have h2 := errorSibling_beside (Edits.wf (hwf db h) h1.edits) h1.dirs (hcalls hv)
        exact keep h (h1.edits.trans h2.edits)
    · rw [if_neg hmirrored]
      have hmirrored : mirroredUpTo db i doc = false := by simpa using hmirrored
      have hv := hbuilds fun hm => by rw [hmirrored] at hm; cases hm
      unfold renameToDoc
      by_cases hpath : resolveFilepath db i = some doc.path
      · rw [if_pos hpath]
        exact keep h (reconcileContent_edits (hwf db h) (named_of_resolve hpath) (hs hv) (hcalls hv))
      · rw [if_neg hpath]
        obtain ⟨he, hn, hst, hd⟩ := dirsOf_edits (hwf db h) (hs hv) (hcalls hv).dirs
        have hmade := keep h he
        have hcases := applyRenameTo_cases db i (splitPath doc.path).1 (splitPath doc.path).2
        rw [dirsOf_eq] at hcases
        generalize dirsOf db doc = dirs at he hn hst hd hmade hmove hcases
        rcases hcases with ⟨e, hres⟩ | ⟨d, d', hentry, hm, hres⟩
        · rw [hres]
          exact hmade
        · rw [hres]
          have hmoved := hmove d' ⟨hi, hdirty, hmirrored, hpath⟩ hmade hm
          refine keep hmoved (reconcileContent_edits (hwf d' hmoved) (moved_named hm hentry) ?_ (hcalls hv))
          exact hst.pathOn hd (.inl rfl) (.moved (hwf _ hmade) hm)

include hwf hedit in
theorem reconcileAttach_keeps {i : Ino} (hi : Named db i) (hs : PathOn R db ROOT_INO (dirOf doc)) (hcalls : Calls R doc)
    (hmap : I (db.setRemoteId i doc.id)) : I (reconcileAttach db i doc nowMs).2 := by
  have keep := @keeps_edits R I hedit
  unfold reconcileAttach
  split_ifs
  · exact hedit _ _ hmap (.sync rfl rfl rfl rfl rfl rfl)
  · have hcontent : Edits R (db.setRemoteId i doc.id) (attachContent (db.setRemoteId i doc.id) i doc) := by
      unfold attachContent
      split_ifs
      · have h1 : Edits R (db.setRemoteId i doc.id) (mirrorContent (db.setRemoteId i doc.id) i doc) :=
          mirrorContent_edits hi
        obtain ⟨hd, hsort, -⟩ := mirrorContent_same (db.setRemoteId i doc.id) i doc
        refine h1.trans (transcriptionSibling_beside (Edits.wf (hwf _ hmap) h1) ?_ hcalls).edits
        exact hs.congr hd fun j => (hsort j).trans (sortOf_congr rfl)
      · exact .refl
    exact keep hmap (hcontent.tail setMirroredState_edit)

include hwf hedit in
theorem reconcileBinary_keeps {last : Ino} (h : I db) (hst : Stands db ROOT_INO (dirOf doc) last)
    (hlast : Named db last)
    (hs : PathOn R db ROOT_INO (dirOf doc)) (hcalls : Calls R doc)
    (hname : doc.url.isSome = true → R.name (fileOf doc))
    (hfree : db.childIno last (fileOf doc) = none)
    (hmap : ∀ d j, I d → sortOf d j = some (.reg, false) → I (d.setRemoteId j doc.id)) :
    I (reconcileBinary db doc nowMs).2 := by
  have keep := @keeps_edits R I hedit
  have h1 := transcriptionSibling_beside (hwf db h) hs hcalls
  have h2 := h1.trans (hwf db h) (errorSibling_beside (Edits.wf (hwf db h) h1.edits) h1.dirs hcalls)
  have hmade := keep h h2.edits
  unfold reconcileBinary
  dsimp only
  generalize syncErrorSibling (syncTranscriptionSibling db doc doc.path) doc doc.path = siblings at h2 hmade ⊢
  have hst' : Stands siblings ROOT_INO (dirOf doc) last := hst.mono (Edits.extends (hwf db h) h2.edits).child
  have hfree' : siblings.childIno last (fileOf doc) = none := by
    cases hc : siblings.childIno last (fileOf doc) with
    | none => rfl
    | some k =>
      rcases h2.names last hst _ _ k hc with hk | ⟨-, hne⟩
      · rw [hfree] at hk
        cases hk
      · exact absurd rfl hne
  split_ifs with hurl
  · have hstub := createRawStub_new (R := R) (hwf siblings hmade) hst'
      (hlast.mono (Edits.extends (hwf db h) h2.edits).dentries) (hst'.parent h2.dirs) (hname hurl) hfree'
    rcases hstub with ⟨e, he⟩ | ⟨hino, he, hsort⟩
    · rw [he]
      exact hmade
    · generalize createRawStub siblings doc.path = stub at hino he hsort ⊢
      obtain ⟨res, d⟩ := stub
      cases hino
      exact hedit _ _ (hmap d siblings.nextIno (hedit _ _ hmade he) hsort) setMirroredState_edit
  · exact hmade

include hwf hedit in
theorem reconcileCreate_keeps {p : Ino} {name : String} (h : I db) (hp : Named db p) (hs : R.parent (sortOf db p))
    (hname : R.name name) (hfree : db.childIno p name = none) (hb : doc.isBinaryType = false)
    (hmap : ∀ d j, I d → sortOf d j = some (.reg, false) → I (d.setRemoteId j doc.id)) :
    I (reconcileCreate db p name doc nowMs).2 := by
  have hadd : I (addFile db p name (doc.content.getD [])).1 :=
    hedit _ _ h (.file hp hfree hs hname fun c hc => chunkRows_ino hc)
  have hsort : sortOf (addFile db p name (doc.content.getD [])).1 db.nextIno = some (.reg, false) :=
    (sortOf_addInode (hwf db h).bounded).trans (if_pos rfl)
  unfold reconcileCreate
  dsimp only
  rw [syncTranscriptionSibling_text hb]
  exact hedit _ _ (hmap _ db.nextIno hadd hsort) setMirroredState_edit

include hwf hedit in
/-- What the changes keep, and the move of a mapped entry and a new mapping, a
reconcile keeps. A document is mapped to a new file, or to what has its name. -/
theorem reconcileOne_keeps (h : I db) (hs : builds db doc → PathOn R db ROOT_INO (dirOf doc))
    (hcalls : builds db doc → Calls R doc)
    (hfile : db.inoByRemoteId doc.id = none → doc.status = "done" → (doc.isBinaryType = true → doc.url.isSome = true) →
      R.name (fileOf doc))
    (hmove : ∀ i d', retargets db doc i → I (dirsOf db doc).1 →
      moveDentries (dirsOf db doc).1 i (dirsOf db doc).2 (fileOf doc) = some d' → I d')
    (hmap : ∀ d j, I d → sortOf d j = some (.reg, false) → I (d.setRemoteId j doc.id))
    (hattach : ∀ j, db.inoByRemoteId doc.id = none → doc.status = "done" →
      (dirsOf db doc).1.childIno (dirsOf db doc).2 (fileOf doc) = some j → I (dirsOf db doc).1 →
      I ((dirsOf db doc).1.setRemoteId j doc.id)) :
    I (reconcileOne db doc nowMs).2 := by
  unfold reconcileOne
  cases hi : db.inoByRemoteId doc.id with
  | some i => exact reconcileMapped_keeps hwf hedit h hi hs hcalls fun d' hr hmade hm => hmove i d' hr hmade hm
  | none =>
    have keep := @keeps_edits R I hedit
    have hbuilds (hv : doc.status = "done" ∨ doc.status = "failed") : builds db doc := by
      unfold builds
      rw [hi]
      exact hv
    dsimp only
    unfold reconcileUnmapped
    by_cases hdone : doc.status = "done"
    · rw [if_neg (not_not.mpr hdone)]
      have hcalled := hcalls (hbuilds (.inl hdone))
      obtain ⟨he, hn, hst, hd⟩ := dirsOf_edits (hwf db h) (hs (hbuilds (.inl hdone))) hcalled.dirs
      have hmade := keep h he
      dsimp only
      rw [dirsOf_eq]
      cases hc : (dirsOf db doc).1.childIno (dirsOf db doc).2 (splitPath doc.path).2 with
      | some j => exact reconcileAttach_keeps hwf hedit (named_of_child hc) hd hcalled (hattach j hi hdone hc hmade)
      | none =>
        dsimp only
        split_ifs with hb
        · exact reconcileBinary_keeps hwf hedit hmade hst hn hd hcalled (fun hurl =>
            hfile hi hdone fun _ => hurl) hc hmap
        · exact reconcileCreate_keeps hwf hedit hmade hn (hst.parent hd)
            (hfile hi hdone fun hbin => absurd hbin hb) hc (by simpa using hb) hmap
    · rw [if_pos hdone]
      by_cases hfail : doc.status = "failed"
      · have hv := hbuilds (.inr hfail)
        exact keep h (errorSibling_beside (hwf db h) (hs hv) (hcalls hv)).edits
      · unfold syncErrorSibling
        rw [if_pos hfail]
        exact h

end Keeps

/-! ### Runs -/

section Run

variable {db : Db} {online : Bool} {nowMs : ℤ}

theorem ensureDirs_wf {path : String} (h : WellFormed db) : WellFormed (ensureDirs db path).1 := by
  unfold ensureDirs
  generalize components path = parts
  exact Edits.wf h (ensureParts_edits h (.inl rfl) .any fun _ _ => trivial).1

theorem reconcileOne_wf {doc : Document} (h : WellFormed db) : WellFormed (reconcileOne db doc nowMs).2 := by
  refine reconcileOne_keeps (R := .any) (I := WellFormed) (fun _ hd => hd) (fun _ _ hd he => hd.edit he) h
    (fun _ => .any) (fun _ => .any _) (fun _ _ _ => trivial) (fun i d' _ hmade hm => ?_) (fun d j hd hs =>
      ?_) fun j _ _ hc hmade => ?_
  · obtain ⟨-, hn, -, -⟩ := dirsOf_edits h .any (Calls.any doc).dirs
    exact hmade.moveDentries (hmade.named_lt hn) hm
  · obtain ⟨x, hx, -⟩ := Option.map_eq_some_iff.mp hs
    exact hd.setRemoteId (hd.bounded.getInode hx)
  · exact hmade.setRemoteId (hmade.bounded.childIno hc)

/-- Whatever is done, the tables stay well formed. -/
theorem step_wf {t : Db} {a : ℤ × Op} (h : WellFormed db) (hst : step online db a = some t) : WellFormed t := by
  obtain ⟨nowMs, op⟩ := a
  cases hst
  cases op with
  | name op => exact name_wf h online nowMs op
  | ensureDirs path => exact ensureDirs_wf h
  | reconcileOne doc => exact reconcileOne_wf h
  | applyDeletion rid => exact applyDeletion_wf h

end Run

end Cache
end Smfs
