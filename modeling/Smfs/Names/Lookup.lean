/-
# Every parent is a directory

An entry is put into what its path leads to. The operations of the file system
check that it is a directory; `ensure_dirs` takes what stands on the path for
one. Where the paths of pulls, imports and siblings go through directories as
far as they stand (`WalkOk`), the parent of every entry is a directory. Where
further the names are valid and nothing is moved under itself, `lookup` finds
every inode with a name from the root.

Key definitions: `Fs.lookup`, `Cache.lookupPath`, `Cache.WalkOk`.
Key theorems: `Cache.found_from_root`, `Cache.parents_directories`, `Cache.file_in_file`.
-/
import Smfs.Names.Valid

namespace Smfs

namespace Fs

/-- `lookup`, on the tables: the inode, and nothing for an entry without a row. -/
def lookup (db : Db) (parentIno : Ino) (name : String) : Except VfsError (Option Ino) :=
  match validateName name with
  | .error e => .error e
  | .ok () =>
    match db.getInode parentIno with
    | none => .error .notFound
    | some parent =>
      if parent.kind ≠ .dir then .error .notADirectory
      else .ok (((db.childIno parentIno name).bind db.getInode).map Inode.ino)

end Fs

namespace Cache

open Db Fs Trans

/-- One `lookup` after the other. -/
def lookupPath (db : Db) : Ino → List String → Option Ino
  | i, [] => some i
  | i, name :: names =>
    match lookup db i name with
    | .ok (some k) => lookupPath db k names
    | _ => none

def IsDir (db : Db) (i : Ino) : Prop := sortOf db i = some (.dir, false)

/-- New entries go into directories. -/
def Rule.isDir : Rule := ⟨fun o => o = some (.dir, false), fun _ => True, rfl⟩

/-- The names on a path. -/
@[irreducible] def partsOf (path : String) : List String := components path

/-- A path that does not stand as a whole goes through directories as far as it does. -/
def Walkable (db : Db) (parts : List String) : Prop :=
  (∀ last, ¬ Stands db ROOT_INO parts last) → PathOn .isDir db ROOT_INO parts

/-- Paths go through directories, and what a deletion removes has no entries. -/
def WalkOk (db : Db) (a : ℤ × Route) : Prop :=
  match a.2 with
  | .call (.tree (.ensureDirs path)) => Walkable db (partsOf path)
  | .call (.tree (.reconcileOne doc)) => builds db doc → PathOn .isDir db ROOT_INO (dirOf doc)
  | .call (.tree (.applyDeletion rid)) => ∀ i, db.inoByRemoteId rid = some i → db.getDirtySince i = none → Bare db i
  | .importFile filepath _ => HasName filepath → Walkable db (partsOf (splitPath filepath).1)
  | .sibling filepath _ => HasName filepath → PathOn .isDir db ROOT_INO (partsOf (splitPath filepath).1)
  | _ => True

/-- The calls on the tree meet their condition. -/
def RootedOk (db : Db) (a : ℤ × Route) : Prop :=
  match a.2 with
  | .call (.tree op) => TreeOk db (a.1, op)
  | _ => True

section Lemmas

variable {db db' : Db} {i j p p' : Ino} {name name' : String} {nowMs : ℤ} {online : Bool}

theorem isDir_iff (h : WellFormed db) : IsDir db i ↔ ∃ x, db.getInode i = some x ∧ x.kind = .dir := by
  unfold IsDir
  constructor
  · intro hs
    obtain ⟨x, hx, he⟩ := Option.map_eq_some_iff.mp hs
    exact ⟨x, hx, congrArg Prod.fst he⟩
  · rintro ⟨x, hx, hk⟩
    have hrow : sortOf db i = some (x.kind, x.derived) := sortOf_row hx
    rw [hk] at hrow
    cases hd : x.derived with
    | false => rwa [hd] at hrow
    | true =>
      rw [hd] at hrow
      exact absurd hrow (h.derived i).1

/-- The parent of every entry is a directory. -/
structure Parented (db : Db) : Prop where
  wf : WellFormed db
  dirs : ∀ d ∈ db.dentries, IsDir db d.parentIno

theorem Parented.start : Parented .fresh := ⟨.start, fun _ hd => (nomatch hd)⟩

/-- The parents are those of old entries, or directories, and they stay what they were. -/
theorem Parented.change (h : Parented db) (hwf : WellFormed db') (hd : ∀ d ∈ db'.dentries,
    ((∃ e ∈ db.dentries, e.parentIno = d.parentIno) ∨ IsDir db d.parentIno) ∧
      (IsDir db d.parentIno → sortOf db' d.parentIno = sortOf db d.parentIno)) : Parented db' := by
  refine ⟨hwf, fun d hm => ?_⟩
  obtain ⟨hfrom, hstay⟩ := hd d hm
  have hdir : IsDir db d.parentIno := by
    rcases hfrom with ⟨e, he, hp⟩ | hdir
    · exact hp ▸ h.dirs e he
    · exact hdir
  exact (hstay hdir).trans hdir

/-- Entries go, and rows of inodes without entries. -/
theorem Parented.drop (h : Parented db) (hwf : WellFormed db') (hd : db'.dentries ⊆ db.dentries)
    (hs : ∀ d ∈ db'.dentries, IsDir db d.parentIno → sortOf db' d.parentIno = sortOf db d.parentIno) : Parented db' :=
  h.change hwf fun d hm => ⟨.inl ⟨d, hd hm, rfl⟩, hs d hm⟩

/-- What is no directory may go. -/
theorem Parented.dropFile {kind : FileKind} {derived : Bool} (h : Parented db) (hwf : WellFormed db')
    (hd : db'.dentries ⊆ db.dentries) (hk : kind ≠ .dir) (hrow : sortOf db i = some (kind, derived))
    (hs : ∀ j, sortOf db' j = sortOf db j ∨ j = i) : Parented db' := by
  refine h.drop hwf hd fun d _ hdir => (hs d.parentIno).resolve_right fun he => ?_
  rw [IsDir, he, hrow] at hdir
  exact hk (congrArg Prod.fst (Option.some.inj hdir))

theorem Parented.addEntry {k : Ino} (h : Parented db) (hwf : WellFormed db') (hp : IsDir db p)
    (hd : db'.dentries = db.dentries ++ [⟨name, p, k⟩]) (hs : ∀ i, i < db.nextIno → sortOf db' i = sortOf db i) :
    Parented db' := by
  have hlt {q : Ino} (hq : IsDir db q) : q < db.nextIno := row_lt h.wf ((isDir_iff h.wf).mp hq)
  refine h.change hwf fun d hm => ⟨?_, fun hdir => hs _ (hlt hdir)⟩
  rw [hd] at hm
  rcases List.mem_append.mp hm with hm | hm
  · exact .inl ⟨d, hm, rfl⟩
  · rw [List.mem_singleton.mp hm]
    exact .inr hp

theorem Parented.sameTree (h : Parented db) (hs : SameTree db db') : Parented db' :=
  h.drop (hs.wf h.wf) (hs.dentries ▸ List.Subset.refl _) fun _ _ _ => hs.sorts _

theorem Parented.edit (h : Parented db) (he : Edit .isDir db db') : Parented db' := by
  have hwf : WellFormed db' := h.wf.edit he
  have hext := he.extends h.wf
  cases he with
  | sync inodes next dentries data symlinks remotes =>
    exact h.drop hwf (dentries ▸ List.Subset.refl _) fun _ _ _ => sortOf_congr inodes
  | file named free under called own => exact h.addEntry hwf under rfl hext.sort
  | dir named free under called => exact h.addEntry hwf under rfl hext.sort
  | spare taken gone =>
    refine h.drop hwf (List.Subset.refl _) fun d hm _ => hext.sort _ (h.wf.parents d hm)
  | rewrite named => exact h.drop hwf (List.Subset.refl _) fun _ _ _ => sortOf_rewrite

theorem Parented.moved (h : Parented db) (hp : IsDir db p) (hm : Fs.moveDentries db i p name = some db') :
    Parented db' := by
  have hlt : p < db.nextIno := row_lt h.wf ((isDir_iff h.wf).mp hp)
  refine h.change (h.wf.moveDentries hlt hm) fun d hd => ⟨?_, fun _ => sortOf_congr (moveDentries_rows hm).1⟩
  rcases (mem_moveDentries hm).mp hd with ⟨hd, -⟩ | ⟨rfl, -⟩
  · exact .inl ⟨d, hd, rfl⟩
  · exact .inr hp

/-! ### The calls -/

theorem partsOf_eq {path : String} : components path = partsOf path := by
  rw [partsOf]

theorem ensureDirs_parented {path : String} (h : Parented db) (hok : Walkable db (partsOf path)) :
    Parented (ensureDirs db path).1 := by
  unfold ensureDirs
  rw [partsOf_eq]
  by_cases hst : ∃ last, Stands db ROOT_INO (partsOf path) last
  · obtain ⟨last, hlast⟩ := hst
    rw [ensureParts_of_stands hlast]
    exact h
  · have hpath : PathOn .isDir db ROOT_INO (partsOf path) := hok (not_exists.mp hst)
    exact keeps_edits (fun _ _ hd he => hd.edit he) h (ensureParts_edits h.wf (.inl rfl) hpath fun _ _ => trivial).1

theorem ensureDirs_named (h : WellFormed db) (path : String) : Edits .any db (ensureDirs db path).1 ∧
    Named (ensureDirs db path).1 (ensureDirs db path).2 := by
  unfold ensureDirs
  rw [partsOf_eq]
  have hany : PathOn .any db ROOT_INO (partsOf path) := .any
  obtain ⟨hedits, hnamed, -, -⟩ := ensureParts_edits h (.inl rfl) hany fun _ _ => trivial
  exact ⟨hedits, hnamed⟩

theorem Calls.isDirRule (doc : Document) : Calls .isDir doc := ⟨fun _ _ => trivial, fun _ _ => trivial⟩

theorem reconcileOne_parented {doc : Document} (h : Parented db)
    (hok : builds db doc → PathOn .isDir db ROOT_INO (dirOf doc)) :
    Parented (reconcileOne db doc nowMs).2 := by
  refine reconcileOne_keeps (I := Parented) (fun _ hd => hd.wf) (fun _ _ hd he => hd.edit he) h hok
    (fun _ => .isDirRule doc)
    (fun _ _ _ => trivial) (fun i d' hr hmade hm => ?_) (fun d j hd hs => ?_) fun j _ _ hc hmade => ?_
  · obtain ⟨-, hn, hst, hd⟩ := dirsOf_edits h.wf (hok (builds_of_retargets hr)) (Calls.isDirRule doc).dirs
    exact hmade.moved (hst.parent hd) hm
  · obtain ⟨x, hx, -⟩ := Option.map_eq_some_iff.mp hs
    exact hd.drop (hd.wf.setRemoteId (hd.wf.bounded.getInode hx)) (List.Subset.refl _) fun _ _ _ => rfl
  · exact hmade.drop (hmade.wf.setRemoteId (hmade.wf.bounded.childIno hc)) (List.Subset.refl _) fun _ _ _ => rfl

theorem createFile_parented (h : Parented db) : Parented (createFile db online p name).2 := by
  have hwf : WellFormed (createFile db online p name).2 := name_wf h.wf online 0 (.createFile p name)
  rcases createFile_cases db online p name with he | ⟨-, hvac, he⟩
  · rwa [he]
  · have hp : IsDir db p := (isDir_iff h.wf).mpr (vacant_ok hvac).1
    rw [he] at hwf ⊢
    exact h.addEntry hwf hp rfl fun i hi => (sortOf_addInode h.wf.bounded).trans (if_neg hi.ne)

theorem removeDerived_parented (h : Parented db) : Parented (removeDerivedSibling db p name) := by
  have hwf : WellFormed (removeDerivedSibling db p name) := h.wf.removeDerived
  rcases removeDerived_cases db p name with he | ⟨x, hx, hd, he⟩
  · rwa [he]
  · have hrow : sortOf db x.ino = some (x.kind, true) := by rw [sortOf_row (childInode_named hx).2, hd]
    have hreg : sortOf db x.ino = some (.reg, true) := h.wf.derived_reg hrow
    rw [he] at hwf ⊢
    refine h.dropFile hwf (fun d hd => (mem_delChild.mp hd).1) (by decide) hreg fun j => ?_
    have hgone : sortOf (((db.delChild p name).delData x.ino).delInode x.ino) j = if j =
      x.ino then none else sortOf db j :=
      sortOf_delInode
    rw [hgone]
    split_ifs with hj
    · exact .inr hj
    · exact .inl rfl

theorem unlink_parented (h : Parented db) : Parented (unlink db online p name nowMs).2 := by
  rcases unlink_cases db online p name nowMs with he | ⟨x, q, hu, he⟩
  · rwa [he]
  · have hne := h.wf.ne_root (childInode_named hu.source).1
    have hrow : sortOf db x.ino = some (x.kind, x.derived) := sortOf_row (childInode_named hu.source).2
    have hless : (unlinkTables db p name x).dentries ⊆ db.dentries := by
      rw [unlinkTables_dentries]
      exact fun d hd => (mem_delChild.mp hd).1
    have htables : Parented (unlinkTables db p name x) := by
      refine h.dropFile (h.wf.unlinkTables hne) hless hu.file hrow fun j => ?_
      rcases unlinkTables_sort db p name x j with hs | ⟨hj, -⟩
      · exact .inl hs
      · exact .inr hj
    have hstart : Parented { unlinkTables db p name x with queue := q } :=
      htables.drop htables.wf.queue (List.Subset.refl _) fun _ _ _ => rfl
    rw [he]
    exact cascadeUnlink_keeps (I := Parented) hstart.wf hstart fun s _ d _ hI _ _ _ => removeDerived_parented hI

/-- A directory that is replaced is empty. -/
theorem mayReplace_bare {src dst : Inode} (h : mayReplace db src dst = .ok ()) (hd : dst.kind = .dir) :
    Bare db dst.ino := by
  unfold mayReplace at h
  by_cases hs : src.kind = .dir
  · rw [if_pos hs, if_neg (not_not.mpr hd)] at h
    split_ifs at h with hlen
    intro d hm he
    refine hlen (List.length_pos_of_mem (a := d) (List.mem_filter.mpr ⟨hm, ?_⟩))
    exact decide_eq_true he
  · rw [if_neg hs, if_pos hd] at h
    cases h

theorem renamed_parented {src : Inode} (h : Parented db) (hr : Renames db p name p' name' src) :
    Parented (renamedTables db p name p' name') := by
  have hp : IsDir db p' := (isDir_iff h.wf).mpr hr.parent
  refine h.change (h.wf.renamed hr).1 fun d hd => ?_
  have hfrom : (∃ e ∈ db.dentries, e.parentIno = d.parentIno) ∨ IsDir db d.parentIno := by
    rcases (mem_renamed h.wf hr).mp hd with ⟨hd, -, -⟩ | rfl
    · exact .inl ⟨d, hd, rfl⟩
    · exact .inr hp
  refine ⟨hfrom, fun hdir => ?_⟩
  rcases renamed_sort db p name p' name' d.parentIno with hs | ⟨hj, -⟩
  · exact hs
  · -- what is replaced has no entries, and is not where the entry goes
    obtain ⟨-, dst, hdst, hmay⟩ := hr.replaced _ hj
    obtain ⟨x, hx, hk⟩ := (isDir_iff h.wf).mp hdir
    rw [hdst] at hx
    cases hx
    have hbare : Bare db d.parentIno := getInode_ino hdst ▸ mayReplace_bare hmay hk
    rcases (mem_renamed h.wf hr).mp hd with ⟨hd, -, -⟩ | rfl
    · exact absurd rfl (hbare d hd)
    · have hself : db.childIno p' name' = some p' := hj
      exact (hbare _ (childIno_some hself) rfl).elim

theorem rename_parented (h : Parented db) : Parented (rename db online p name p' name' nowMs).2 := by
  rcases rename_cases db online p name p' name' nowMs with he | ⟨src, d, hr, hd, he⟩
  · rwa [he]
  · have htables := renamed_parented h hr
    obtain ⟨hwf, hpd, hentries, hinodes⟩ := h.wf.pushed hr hd
    have hsort (k : Ino) : sortOf d k = sortOf (renamedTables db p name p' name') k := sortOf_congr hinodes
    have hstart : Parented d := htables.drop hwf (hentries ▸ List.Subset.refl _) fun _ _ _ => hsort _
    have hnew : ⟨name', p', src.ino⟩ ∈ d.dentries := hentries ▸ (mem_renamed h.wf hr).mpr (.inr rfl)
    have hp : IsDir d p' := hstart.dirs _ hnew
    rw [he]
    refine (cascadeRename_keeps (I := fun e => Parented e ∧ IsDir e p') hwf hpd hr.apart ⟨hstart, hp⟩ ?_).1
    rintro s hs e hewf ⟨hI, hpe⟩ hrows - -
    have hpe' : IsDir (renameDerivedSibling e p (name ++ s) p' (name' ++ s)) p' :=
      (sortOf_congr renameDerived_inodes).trans hpe
    have hdel : Parented (e.delChild p' (name' ++ s)) :=
      hI.drop (hewf.delChild _ _) (fun d hd => (mem_delChild.mp hd).1) fun _ _ _ => rfl
    rcases renameDerived_cases e p (name ++ s) p' (name' ++ s) with he | ⟨x, -, -, he | hm⟩
    · rw [he]
      exact ⟨hI, hpe⟩
    · rw [he]
      exact ⟨hdel, hpe⟩
    · exact ⟨hdel.moved hpe hm, hpe'⟩

theorem name_parented {op : NameOp} (h : Parented db) : Parented (op.apply db online nowMs).2 := by
  have hwf : WellFormed (op.apply db online nowMs).2 := name_wf h.wf online nowMs op
  have hparent {p : Ino} {n : String} (hvac : vacant db p n = .ok ()) : IsDir db p :=
    (isDir_iff h.wf).mpr (vacant_ok hvac).1
  cases op with
  | mkdir p n =>
    rcases mkdir_cases db p n with he | ⟨-, hvac, he⟩
    · show Parented (mkdir db p n).2
      rwa [he]
    · refine h.addEntry hwf (hparent hvac) (congrArg Db.dentries he) fun i hi => ?_
      show sortOf (mkdir db p n).2 i = sortOf db i
      rw [he]
      exact (sortOf_updNlink (f := fun n => n + 1)).trans ((sortOf_addInode h.wf.bounded).trans (if_neg hi.ne))
  | symlink p n target =>
    rcases symlink_cases db p n target with he | ⟨-, hvac, he⟩
    · show Parented (symlink db p n target).2
      rwa [he]
    · refine h.addEntry hwf (hparent hvac) (congrArg Db.dentries he) fun i hi => ?_
      show sortOf (symlink db p n target).2 i = sortOf db i
      rw [he]
      exact (sortOf_addInode h.wf.bounded).trans (if_neg hi.ne)
  | link i p n =>
    rcases link_cases db i p n with he | ⟨x, -, -, -, hvac, he⟩
    · show Parented (link db i p n).2
      rwa [he]
    · refine h.addEntry hwf (hparent hvac) (congrArg Db.dentries he) fun j _ => ?_
      show sortOf (link db i p n).2 j = sortOf db j
      rw [he]
      exact sortOf_updNlink (f := fun n => n + 1)
  | rmdir p n =>
    rcases rmdir_cases db p n with he | ⟨x, -, hx, -, hempty, he⟩
    · show Parented (rmdir db p n).2
      rwa [he]
    · have hless : (rmdir db p n).2.dentries ⊆ db.dentries := by
        rw [he]
        exact fun d hd => (mem_delChild.mp hd).1
      refine h.drop hwf hless fun d hd _ => ?_
      show sortOf (rmdir db p n).2 d.parentIno = sortOf db d.parentIno
      rw [he]
      have hgone : sortOf ((db.delChild p n).delInode x.ino) d.parentIno = sortOf db d.parentIno :=
        sortOf_delInode.trans (if_neg (hempty d (hless hd)))
      exact (sortOf_updNlink (f := fun n => max (n - 1) 2)).trans hgone
  | createFile p n => exact createFile_parented h
  | unlink p n => exact unlink_parented h
  | rename p n p' n' => exact rename_parented h

theorem applyDeletion_parented {rid : String} (h : Parented db)
    (hok : ∀ i, db.inoByRemoteId rid = some i → db.getDirtySince i = none → Bare db i) :
    Parented (applyDeletion db rid).2 := by
  have hwf : WellFormed (applyDeletion db rid).2 := applyDeletion_wf h.wf
  rcases applyDeletion_cases db rid with he | ⟨j, d, hj, hclean, -, he⟩
  · rwa [he]
  · have hbare : Bare db j := hok j hj hclean
    have hgone (i : Ino) : sortOf ((((db.delDentriesOf j).delData j).delInode j).deleteRemoteId j) i =
        if i = j then none else sortOf db i := sortOf_delInode
    rw [he] at hwf ⊢
    refine h.drop hwf (fun e he => (Table.mem_erase.mp he).1) fun e hm _ => ?_
    rw [hgone, if_neg (hbare e (Table.mem_erase.mp hm).1)]

theorem sibling_parented {filepath : String} {content : Bytes} (h : Parented db)
    (hok : HasName filepath → PathOn .isDir db ROOT_INO (partsOf (splitPath filepath).1)) :
    Parented (createDerivedSibling db filepath content).2 := by
  by_cases hname : HasName filepath
  · have hedits : Edits .isDir db (createDerivedSibling db filepath content).2 :=
      (createDerivedSibling_edits content h.wf partsOf_eq (hok hname) (fun _ _ => trivial) trivial).1
    exact keeps_edits (fun _ _ hd he => hd.edit he) h hedits
  · rw [createDerivedSibling_refused hname]
    exact h

/-! ### Lookups -/

theorem lookupPath_append {names : List String} {i k : Ino} (h : lookupPath db j names = some i)
    (hk : lookup db i name = .ok (some k)) : lookupPath db j (names ++ [name]) = some k := by
  induction names generalizing j with
  | nil =>
    cases h
    rw [List.nil_append, lookupPath, hk]
    rfl
  | cons n names ih =>
    rw [lookupPath] at h
    rw [List.cons_append, lookupPath]
    generalize lookup db j n = res at h
    cases res with
    | error e => cases h
    | ok r =>
      cases r with
      | none => cases h
      | some m => exact ih h

theorem lookup_entry {d : Dentry} (h : Parented db) (hv : ValidName d.name) (hd : d ∈ db.dentries)
    (hrow : (db.getInode d.ino).isSome = true) : lookup db d.parentIno d.name = .ok (some d.ino) := by
  obtain ⟨x, hx, hk⟩ := (isDir_iff h.wf).mp (h.dirs d hd)
  obtain ⟨y, hy⟩ := Option.isSome_iff_exists.mp hrow
  have hv : validateName d.name = .ok () := hv
  unfold lookup
  rw [hv, hx]
  dsimp only
  rw [if_neg (not_not.mpr hk), childIno_mem h.wf.distinct hd, Option.bind_some, hy, Option.map_some, getInode_ino hy]

/-- What has a way up to the root is found from there. -/
theorem found_from_root (h : Parented db) (hv : ∀ d ∈ db.dentries, ValidName d.name)
    (hr : Forest.Reaches (Holds db) ROOT_INO i) (hrow : (db.getInode i).isSome = true) :
    ∃ names, lookupPath db ROOT_INO names = some i := by
  induction hr with
  | root => exact ⟨[], rfl⟩
  | up has all ih =>
    obtain ⟨p, d, hd, rfl, rfl⟩ := has
    obtain ⟨x, hx, -⟩ := (isDir_iff h.wf).mp (h.dirs d hd)
    obtain ⟨names, hnames⟩ := ih d.parentIno ⟨d, hd, rfl, rfl⟩ (by rw [hx]; rfl)
    exact ⟨names ++ [d.name], lookupPath_append hnames (lookup_entry h (hv d hd) hd hrow)⟩

end Lemmas

/-! ### Runs -/

section Run

variable {db : Db} {online : Bool}

theorem step_parented {t : Db} {a : ℤ × Route} (h : Parented db) (hok : WalkOk db a)
    (hst : routeStep online db a = some t) :
    Parented t := by
  obtain ⟨nowMs, route⟩ := a
  cases hst
  cases route with
  | call c =>
    cases c with
    | tree op =>
      cases op with
      | name op => exact name_parented h
      | ensureDirs path => exact ensureDirs_parented h hok
      | reconcileOne doc => exact reconcileOne_parented h hok
      | applyDeletion rid => exact applyDeletion_parented h hok
    | write f offset data => exact h.sameTree (write_sameTree h.wf.bounded)
    | truncate f size => exact h.sameTree truncate_sameTree
    | flush f => exact h.sameTree flush_sameTree
    | setattr i size => exact h.sameTree setattr_sameTree
  | importFile filepath contents =>
    exact importFile_keeps h (fun hname => ensureDirs_parented h (hok hname)) (fun _ hmade => createFile_parented hmade)
      (fun d f hd => hd.sameTree (write_sameTree hd.wf.bounded)) fun d f hd => hd.sameTree flush_sameTree
  | sibling filepath content => exact sibling_parented h hok

theorem Inv.sameTree {t : Db} (h : Inv db) (hs : SameTree db t) : Inv t := h.congr (hs.wf h.wf) hs.dentries

theorem step_rooted {t : Db} {a : ℤ × Route} (h : Inv db) (hok : RootedOk db a) (hst : routeStep online db a = some t) :
    Inv t := by
  obtain ⟨nowMs, route⟩ := a
  cases hst
  cases route with
  | call c =>
    cases c with
    | tree op => exact step_inv h hok rfl
    | write f offset data => exact h.sameTree (write_sameTree h.wf.bounded)
    | truncate f size => exact h.sameTree truncate_sameTree
    | flush f => exact h.sameTree flush_sameTree
    | setattr i size => exact h.sameTree setattr_sameTree
  | importFile filepath contents =>
    obtain ⟨hedits, hnamed⟩ := ensureDirs_named h.wf (splitPath filepath).1
    refine importFile_keeps h (fun _ => keeps_edits (fun _ _ hd he => hd.edit he) h hedits)
      (fun _ hmade => createFile_inv hmade fun _ _ => hnamed)
      (fun d f hd => hd.sameTree (write_sameTree hd.wf.bounded)) fun d f hd => hd.sameTree flush_sameTree
  | sibling filepath content =>
    have hedits : Edits .any db (createDerivedSibling db filepath content).2 :=
      (createDerivedSibling_edits content h.wf partsOf_eq .any (fun _ _ => trivial) trivial).1
    exact keeps_edits (fun _ _ hd he => hd.edit he) h hedits

/-- **In every run whose paths go through directories the parent of every entry
is a directory.** Where nothing else breaks the tree, every inode with a name
is found from the root. -/
theorem parents_directories : (∀ db, Reach (routeStep online) WalkOk .fresh db → ∀ d ∈ db.dentries,
      ∃ x, db.getInode d.parentIno = some x ∧ x.kind = .dir) ∧
    ∀ db, Reach (routeStep online) (fun db a => WalkOk db a ∧ NameOk db a ∧ RootedOk db a) .fresh db →
      ∀ d ∈ db.dentries, (db.getInode d.ino).isSome = true → ∃ names, lookupPath db ROOT_INO names = some d.ino := by
  constructor
  · intro db h d hd
    have hinv : Parented db := h.inv .start fun _ _ _ hI hok hst => step_parented hI hok hst
    exact (isDir_iff hinv.wf).mp (hinv.dirs d hd)
  · intro db h d hd hrow
    have hinv : Parented db ∧ Valid db ∧ Inv db :=
      h.inv (I := fun d => Parented d ∧ Valid d ∧ Inv d) ⟨.start, .start, .start⟩ fun _ _ _ ⟨hp, hv, hi⟩ ⟨hwalk,
        hname, hroot⟩ hst =>
        ⟨step_parented hp hwalk hst, step_valid hv hname hst, step_rooted hi hroot hst⟩
    obtain ⟨hp, hv, hi⟩ := hinv
    exact found_from_root hp hv.names (hi.reaches (.inr ⟨d, hd, rfl⟩)) hrow

/-- A directory and a file in it. -/
theorem parents_directories_mkdir : ∃ db, Reach (routeStep true) WalkOk .fresh db ∧
    db.dentries = [⟨"a", 1, 2⟩, ⟨"b", 2, 3⟩] ∧ (∀ d ∈ db.dentries, ∃ x, db.getInode d.parentIno = some x ∧
      x.kind = .dir) ∧
    ∃ names, lookupPath db ROOT_INO names = some 3 := by
  have hone : Reach (routeStep true) (fun db a => WalkOk db a ∧ NameOk db a ∧
    RootedOk db a) .fresh (mkdir .fresh 1 "a").2 :=
    Reach.start.next (a := (0, .call (.tree (.name (.mkdir 1 "a"))))) ⟨trivial, trivial, fun _ _ => .inl rfl⟩ rfl
  have htwo : Reach (routeStep true) (fun db a => WalkOk db a ∧ NameOk db a ∧ RootedOk db a) .fresh
      (createFile (mkdir .fresh 1 "a").2 true 2 "b").2 := by
    refine hone.next (a := (0, .call (.tree (.name (.createFile 2 "b"))))) ⟨trivial, trivial, fun _ _ => ?_⟩ rfl
    exact .inr ⟨⟨"a", 1, 2⟩, by decide, rfl⟩
  have hwalk : Reach (routeStep true) WalkOk .fresh (createFile (mkdir .fresh 1 "a").2 true 2 "b").2 :=
    htwo.mono fun _ _ h => h.1
  refine ⟨_, hwalk, by decide, parents_directories.1 _ hwalk, ?_⟩
  have hmem : ⟨"b", 2, 3⟩ ∈ (createFile (mkdir .fresh 1 "a").2 true 2 "b").2.dentries := by decide
  exact parents_directories.2 _ htwo _ hmem (by decide)

/-- A document whose path goes through another document. -/
def inner : Document := ⟨"d2", some "/a.md/b.md", some [104], "done", "2025-01-01T00:00:00Z", none, none⟩

/-- A file comes, and then a document under it. -/
theorem file_in_file : ¬ ∀ db, Reach (routeStep true) anyStep .fresh db → ∀ d ∈ db.dentries,
    ∃ x, db.getInode d.parentIno = some x ∧ x.kind = .dir := by
  intro hall
  obtain ⟨db, hreach, hdb⟩ : ∃ db, Reach (routeStep true) anyStep .fresh db ∧
      decide (∃ d ∈ db.dentries, (db.getInode d.parentIno).map Inode.kind = some .reg) = true :=
    Reach.exists_of_run [(0, .call (.tree (.reconcileOne (note "/a.md" "2025-01-01T00:00:00Z")))),
      (1, .call (.tree (.reconcileOne inner)))] (by decide)
  obtain ⟨d, hd, hreg⟩ := of_decide_eq_true hdb
  obtain ⟨x, hx, hk⟩ := hall db hreach d hd
  rw [hx, Option.map_some, hk] at hreg
  cases hreg

end Run

end Cache
end Smfs
