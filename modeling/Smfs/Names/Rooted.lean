/-
# The names form a tree under the root

An inode lies in the directories that hold an entry for it, and nothing in
the code keeps an inode from lying under itself: `rename` never answers that a
directory would become a descendant of itself, a pull moves the entry of a
mapped directory wherever the path of the document says, and an inode that is
no directory but has entries goes as if it had none. `TreeOk` is the condition
on a step that none of this happens. Under it every way up from an entry ends
at the root, so the walk of `resolve_filepath` ends there too.

Key definitions: `Cache.Holds`, `Cache.TreeOk`.
Key theorems: `Cache.rooted`, `Cache.resolve_of_reaches`.
-/
import Smfs.Lib.Forest
import Smfs.Names.Edits
import Smfs.Names.Siblings

namespace Smfs
namespace Cache

open Db Fs Trans Relation

/-- The inode has an entry in the other one. -/
def Holds (db : Db) (p c : Ino) : Prop := ∃ d ∈ db.dentries, d.parentIno = p ∧ d.ino = c

/-- The inode lies under the first one, or is it. -/
abbrev Below (db : Db) : Ino → Ino → Prop := ReflTransGen (Holds db)

/-- No entry lies in the inode. -/
def Bare (db : Db) (i : Ino) : Prop := ∀ d ∈ db.dentries, d.parentIno ≠ i

instance (db : Db) (i : Ino) : Decidable (Bare db i) := inferInstanceAs (Decidable (∀ d ∈ db.dentries, _))

/-- The last inode of a path as far as it stands. -/
def walk (db : Db) : Ino → List String → Ino
  | p, [] => p
  | p, part :: parts =>
    match db.childIno p part with
    | some k => walk db k parts
    | none => p

/-- The entry of the inode is its only one, and no other has the name of the document. -/
def Movable (db : Db) (i : Ino) (doc : Document) : Prop :=
  (db.dentries.filter fun d => d.ino = i).length < 2 ∧
    ∀ last k, Stands db ROOT_INO (dirOf doc) last → db.childIno last (fileOf doc) = some k → k = i

/-- What goes under a name is put under the root and not under itself, and
what loses a name has no entries. -/
def TreeOk (db : Db) (a : ℤ × Op) : Prop :=
  match a.2 with
  | .name (.mkdir p n) | .name (.createFile p n) | .name (.symlink p n _) =>
    validateName n = .ok () → vacant db p n = .ok () → Named db p
  | .name (.link i p n) =>
    validateName n = .ok () → vacant db p n = .ok () → ∀ x, db.getInode i = some x → x.kind ≠ .dir →
      Named db p ∧ ¬ Below db i p
  | .name (.rmdir _ _) => True
  | .name (.unlink p n) =>
    ∀ x, Unlinks db p n x → Bare db x.ino ∧
      ∀ s ∈ derivedSiblingSuffixes, ∀ k, db.childIno p (n ++ s) = some k → sortOf db k = some (.reg, true) → Bare db k
  | .name (.rename p n p' n') =>
    ∀ src, Renames db p n p' n' src → Named db p' ∧ ¬ Below db src.ino p' ∧
      (∀ j, db.childIno p' n' = some j → Bare db j) ∧
      ∀ s k, movesSibling db p n p' n' src.ino s k →
        ¬ Below db k p' ∧ ∀ j, after db p n p' n' src.ino p' (n' ++ s) = some j → Bare db j
  | .ensureDirs _ => True
  | .reconcileOne doc => ∀ i, retargets db doc i → Movable db i doc → ¬ Below db i (walk db ROOT_INO (dirOf doc))
  | .applyDeletion rid => ∀ i, db.inoByRemoteId rid = some i → db.getDirtySince i = none → Bare db i

section Lemmas

variable {db db' : Db} {i j k p p' : Ino} {name name' : String}

/-! ### Entries -/

theorem named_iff : Named db i ↔ i = ROOT_INO ∨ ∃ q, Holds db q i := by
  constructor
  · rintro (rfl | ⟨d, hd, rfl⟩)
    · exact .inl rfl
    · exact .inr ⟨d.parentIno, d, hd, rfl, rfl⟩
  · rintro (rfl | ⟨q, d, hd, -, rfl⟩)
    · exact .inl rfl
    · exact .inr ⟨d, hd, rfl⟩

theorem holds_of_child (h : db.childIno p name = some i) : Holds db p i := ⟨_, childIno_some h, rfl, rfl⟩

theorem below_new (h : WellFormed db) (hp : Named db p) : ¬ Below db db.nextIno p := by
  intro hb
  rcases ReflTransGen.cases_head hb with rfl | ⟨c, ⟨d, hd, he, -⟩, -⟩
  · exact absurd (h.named_lt hp) (lt_irrefl _)
  · exact absurd (h.parents d hd) (by rw [he]; exact lt_irrefl _)

theorem not_below_of_bare (h : Bare db i) (hne : i ≠ p) : ¬ Below db i p := by
  intro hb
  rcases ReflTransGen.cases_head hb with he | ⟨c, ⟨d, hd, he, -⟩, -⟩
  · exact hne he
  · exact h d hd he

/-- The tables, and the entries as a tree. -/
structure Inv (db : Db) : Prop where
  wf : WellFormed db
  rooted : Forest.Rooted (Holds db) ROOT_INO

theorem Inv.start : Inv .fresh := by
  have hno : ∀ p c, ¬ Holds .fresh p c := by
    rintro p c ⟨d, hd, -⟩
    cases hd
  exact ⟨.start, fun p => hno p _, fun p c hc => absurd hc (hno p c)⟩

theorem Inv.reaches (h : Inv db) (hp : Named db p) : Forest.Reaches (Holds db) ROOT_INO p :=
  h.rooted.reaches_of_named (named_iff.mp hp)

theorem Inv.parent (h : Inv db) (hc : Holds db p i) : Named db p := named_iff.mpr (h.rooted.parent hc).named

/-- Nothing lies in itself. -/
theorem Inv.no_loop (h : Inv db) : ¬ Holds db i i := fun hi => h.rooted.acyclic (.single hi)

theorem Inv.congr (h : Inv db) (hwf : WellFormed db') (hd : db'.dentries = db.dentries) : Inv db' := by
  have hsame : Holds db' = Holds db := by
    unfold Holds
    rw [hd]
  exact ⟨hwf, hsame ▸ h.rooted⟩

/-- Entries change, but those that come are all entries of `k` in `p`, and
what had a name has one as long as something lies in it. -/
theorem Inv.change (h : Inv db) (hwf : WellFormed db') (hp : Named db p) (hu : ¬ Below db k p)
    (hnew : ∀ a b, Holds db' a b → Holds db a b ∨ a = p ∧ b = k)
    (hkeep : ∀ a b, Holds db' a b → Named db a → Named db' a) : Inv db' := by
  refine ⟨hwf, h.rooted.change (h.reaches hp) hu hnew fun a b hab => ?_⟩
  have ha : Named db a := by
    rcases hnew a b hab with hold | ⟨rfl, -⟩
    · exact h.parent hold
    · exact hp
  exact named_iff.mp (hkeep a b hab ha)

/-- Entries go. -/
theorem Inv.drop (h : Inv db) (hwf : WellFormed db') (hsub : db'.dentries ⊆ db.dentries)
    (hkeep : ∀ a b, Holds db' a b → Named db a → Named db' a) : Inv db' := by
  have hless : ∀ a b, Holds db' a b → Holds db a b := fun a b ⟨d, hd, he⟩ => ⟨d, hsub hd, he⟩
  exact ⟨hwf, h.rooted.drop hless fun a b hab => named_iff.mp (hkeep a b hab (h.parent (hless a b hab)))⟩

/-- An entry comes. -/
theorem Inv.addEntry (h : Inv db) (hwf : WellFormed db') (hd : db'.dentries = db.dentries ++ [⟨name, p, k⟩])
    (hp : Named db p) (hu : ¬ Below db k p) : Inv db' := by
  refine h.change hwf hp hu (fun a b ⟨d, hm, ha, hb⟩ => ?_) fun a b _ ha => ha.mono ?_
  · rw [hd] at hm
    rcases List.mem_append.mp hm with hm | hm
    · exact .inl ⟨d, hm, ha, hb⟩
    · obtain rfl := List.mem_singleton.mp hm
      exact .inr ⟨ha.symm, hb.symm⟩
  · rw [hd]
    exact List.subset_append_left _ _

/-- The entry of something without entries goes. -/
theorem Inv.dropChild (h : Inv db) (hwf : WellFormed db') (hd : db'.dentries = (db.delChild p name).dentries)
    (hbare : ∀ j, db.childIno p name = some j → Bare db j) : Inv db' := by
  refine h.drop hwf (hd ▸ fun d hm => (mem_delChild.mp hm).1) fun a b ⟨e, hm, he, _⟩ ha => ?_
  rw [hd] at hm
  rcases ha with rfl | ⟨d, hda, rfl⟩
  · exact .inl rfl
  · refine .inr ⟨d, ?_, rfl⟩
    rw [hd]
    refine mem_delChild.mpr ⟨hda, fun hname => ?_⟩
    -- the entry that goes is that of a parent of one that stays
    have hchild := childIno_mem h.wf.distinct hda
    rw [show d.parentIno = p from congrArg Prod.fst hname, show d.name = name from congrArg Prod.snd hname] at hchild
    exact hbare d.ino hchild e (mem_delChild.mp hm).1 he

theorem moved_keepsNamed (hm : Fs.moveDentries db i p name = some db') {a : Ino} (ha : Named db a) : Named db' a := by
  rcases ha with rfl | ⟨d, hd, rfl⟩
  · exact .inl rfl
  · by_cases hi : d.ino = i
    · exact .inr ⟨_, (mem_moveDentries hm).mpr (.inr ⟨rfl, d, hd, hi⟩), hi.symm⟩
    · exact .inr ⟨d, (mem_moveDentries hm).mpr (.inl ⟨hd, hi⟩), rfl⟩

/-- The entry of an inode moves. -/
theorem Inv.moved (h : Inv db) (hp : Named db p) (hu : ¬ Below db i p) (hm : Fs.moveDentries db i p name = some db') :
    Inv db' := by
  refine h.change (h.wf.moveDentries (h.wf.named_lt hp) hm) hp hu (fun a b ⟨d, hd, ha, hb⟩ => ?_) fun a b _ ha =>
    moved_keepsNamed hm ha
  rcases (mem_moveDentries hm).mp hd with ⟨hd, -⟩ | ⟨rfl, -⟩
  · exact .inl ⟨d, hd, ha, hb⟩
  · exact .inr ⟨ha.symm, hb.symm⟩

/-! ### Pulls -/

theorem Inv.edit (h : Inv db) (he : Edit .any db db') : Inv db' := by
  have hwf := h.wf.edit he
  cases he with
  | sync inodes next dentries data symlinks remotes => exact h.congr hwf dentries
  | file named free under called own => exact h.addEntry hwf rfl named (below_new h.wf named)
  | dir named free under called => exact h.addEntry hwf rfl named (below_new h.wf named)
  | spare taken gone => exact h.congr hwf rfl
  | rewrite named => exact h.congr hwf rfl

theorem Stands.unique {parts : List String} (h : Stands db p parts i) (h' : Stands db p parts j) : i = j := by
  induction parts generalizing p with
  | nil => exact (show p = i from h).symm.trans h'
  | cons part parts ih =>
    obtain ⟨k, hk, h⟩ := h
    obtain ⟨k', hk', h'⟩ := h'
    obtain rfl := Option.some.inj (hk.symm.trans hk')
    exact ih h h'

/-- Below an old inode the directories of a path lie where the path stood. -/
theorem below_ensureParts {parts : List String} : ∀ {db : Db} {p : Ino}, WellFormed db → Named db p → i < db.nextIno →
    Below (ensureParts db p parts).1 i (ensureParts db p parts).2 → Below db i (walk db p parts) := by
  induction parts with
  | nil => exact fun _ _ _ hb => hb
  | cons part parts ih =>
    intro db p h hp hi hb
    unfold ensureParts ensureDir at hb
    unfold walk
    cases hc : db.childIno p part with
    | some k =>
      rw [hc] at hb
      exact ih h (named_of_child hc) hi hb
    | none =>
      rw [hc] at hb
      dsimp only at hb ⊢
      have hdir : Edit .any db (newDir db part p) := .dir hp hc trivial trivial
      obtain ⟨hchild, -⟩ := newDir_spec (R := .any) h hp hc
      have hlast : Below (newDir db part p) i (walk (newDir db part p) db.nextIno parts) :=
        ih (h.edit hdir) (named_of_child hchild) (hi.trans (Nat.lt_succ_self _)) hb
      have hstop : walk (newDir db part p) db.nextIno parts = db.nextIno := by
        cases parts with
        | nil => rfl
        | cons q qs =>
          unfold walk
          cases hq : (newDir db part p).childIno db.nextIno q with
          | none => rfl
          | some c =>
            -- a new directory has no entries
            rcases List.mem_append.mp (childIno_some hq) with hm | hm
            · exact absurd (h.parents _ hm) (lt_irrefl _)
            · have hpar : db.nextIno = p := congrArg Dentry.parentIno (List.mem_singleton.mp hm)
              exact absurd (h.named_lt hp) (by rw [← hpar]; exact lt_irrefl _)
      rw [hstop] at hlast
      -- the new directory has one entry, in the last inode that stood
      have hnew : ∀ a b, Holds (newDir db part p) a b → Holds db a b ∧ b ≠ db.nextIno ∨ a = p ∧ b = db.nextIno := by
        rintro a b ⟨d, hm, ha, hb⟩
        rcases List.mem_append.mp hm with hm | hm
        · exact .inl ⟨⟨d, hm, ha, hb⟩, hb ▸ (h.bounded.dentries d hm).ne⟩
        · obtain rfl := List.mem_singleton.mp hm
          exact .inr ⟨ha.symm, hb.symm⟩
      rcases ReflTransGen.cases_tail hlast with he | ⟨a, hia, ha⟩
      · exact absurd he hi.ne'
      · obtain rfl : a = p := by
          rcases hnew a _ ha with ⟨-, hne⟩ | ⟨ha, -⟩
          · exact absurd rfl hne
          · exact ha
        refine Forest.under_of_change (fun x y hxy => ?_) hia
        rcases hnew x y hxy with ⟨hold, -⟩ | ⟨hx, -⟩
        · exact .inl hold
        · exact .inr hx

/-- What a reconcile moves was movable before it made the directories. -/
theorem movable_of_moved {R : Rule} {doc : Document} (h : WellFormed db) (he : Edits R db (dirsOf db doc).1)
    (hst : Stands (dirsOf db doc).1 ROOT_INO (dirOf doc) (dirsOf db doc).2)
    (hm : Fs.moveDentries (dirsOf db doc).1 i (dirsOf db doc).2 (fileOf doc) = some db') : Movable db i doc := by
  have hext := Edits.extends h he
  have hno : ¬ (2 ≤ ((dirsOf db doc).1.dentries.filter fun d => d.ino = i).length ∨
      ∃ d ∈ (dirsOf db doc).1.dentries, d.ino ≠ i ∧ d.parentIno = (dirsOf db doc).2 ∧ d.name = fileOf doc) := by
    intro hbad
    unfold Fs.moveDentries at hm
    rw [if_pos hbad] at hm
    cases hm
  push Not at hno
  constructor
  · have hnodup : (db.dentries.filter fun d => d.ino = i).Nodup := (List.Nodup.of_map _ h.distinct).filter _
    have hsub := List.subperm_of_subset hnodup (List.filter_subset (fun d => decide (d.ino = i)) hext.dentries)
    exact hsub.length_le.trans_lt hno.1
  · intro last k hlast hk
    obtain rfl := (hlast.mono hext.child).unique hst
    by_contra hne
    exact hno.2 _ (childIno_some (hext.child _ _ _ hk)) hne rfl rfl

theorem reconcileOne_inv {doc : Document} {nowMs : ℤ} (h : Inv db)
    (hok : ∀ i, retargets db doc i → Movable db i doc → ¬ Below db i (walk db ROOT_INO (dirOf doc))) :
    Inv (reconcileOne db doc nowMs).2 := by
  refine reconcileOne_keeps (R := .any) (I := Inv) (fun _ hd => hd.wf) (fun _ _ hd he => hd.edit he) h
    (fun _ => .any) (fun _ => .any _) (fun _ _ _ => trivial) (fun i d' hr hmade hm => ?_) (fun d j hd hs =>
      ?_) fun j _ _ hc hmade => ?_
  · obtain ⟨he, hn, hst, -⟩ := dirsOf_edits h.wf .any (Calls.any doc).dirs
    have hmovable : Movable db i doc := movable_of_moved h.wf he hst hm
    have hi : i < db.nextIno := h.wf.bounded.inoByRemoteId hr.1
    have hbelow : ¬ Below (dirsOf db doc).1 i (dirsOf db doc).2 := by
      intro hb
      rw [← dirsOf_eq] at hb
      unfold ensureDirs at hb
      rw [dirOf_eq] at hb
      exact hok i hr hmovable (below_ensureParts h.wf (.inl rfl) hi hb)
    exact hmade.moved hn hbelow hm
  · obtain ⟨x, hx, -⟩ := Option.map_eq_some_iff.mp hs
    exact hd.congr (hd.wf.setRemoteId (hd.wf.bounded.getInode hx)) rfl
  · exact hmade.congr (hmade.wf.setRemoteId (hmade.wf.bounded.childIno hc)) rfl

theorem applyDeletion_inv {rid : String} (h : Inv db)
    (hok : ∀ i, db.inoByRemoteId rid = some i → db.getDirtySince i = none → Bare db i) :
    Inv (applyDeletion db rid).2 := by
  have hwf : WellFormed (applyDeletion db rid).2 := applyDeletion_wf h.wf
  rcases applyDeletion_cases db rid with he | ⟨i, d, hi, hclean, -, he⟩
  · rwa [he]
  · rw [he] at hwf ⊢
    have hmem {e : Dentry} : e ∈ ((((db.delDentriesOf i).delData i).delInode i).deleteRemoteId i).dentries ↔
        e ∈ db.dentries ∧ e.ino ≠ i := Table.mem_erase
    refine h.drop hwf (fun e he => (hmem.mp he).1) fun a b ⟨e, hm, ha, _⟩ hnamed => ?_
    rcases hnamed with rfl | ⟨x, hx, rfl⟩
    · exact .inl rfl
    · refine .inr ⟨x, hmem.mpr ⟨hx, fun hxi => ?_⟩, rfl⟩
      exact hok i hi hclean e (hmem.mp hm).1 (by rw [ha, hxi])

/-! ### Operations on names -/

theorem mkdir_inv (h : Inv db) (hok : validateName name = .ok () → vacant db p name = .ok () → Named db p) :
    Inv (mkdir db p name).2 := by
  have hwf : WellFormed (mkdir db p name).2 := name_wf h.wf true 0 (.mkdir p name)
  rcases mkdir_cases db p name with he | ⟨hv, hvac, he⟩
  · rwa [he]
  · rw [he] at hwf ⊢
    exact h.addEntry hwf rfl (hok hv hvac) (below_new h.wf (hok hv hvac))

theorem createFile_inv {online : Bool} (h : Inv db)
    (hok : validateName name = .ok () → vacant db p name = .ok () → Named db p) :
    Inv (createFile db online p name).2 := by
  have hwf : WellFormed (createFile db online p name).2 := name_wf h.wf online 0 (.createFile p name)
  rcases createFile_cases db online p name with he | ⟨hv, hvac, he⟩
  · rwa [he]
  · rw [he] at hwf ⊢
    exact h.addEntry hwf rfl (hok hv hvac) (below_new h.wf (hok hv hvac))

theorem symlink_inv {target : String} (h : Inv db)
    (hok : validateName name = .ok () → vacant db p name = .ok () → Named db p) : Inv (symlink db p name target).2 := by
  have hwf : WellFormed (symlink db p name target).2 := name_wf h.wf true 0 (.symlink p name target)
  rcases symlink_cases db p name target with he | ⟨hv, hvac, he⟩
  · rwa [he]
  · rw [he] at hwf ⊢
    exact h.addEntry hwf rfl (hok hv hvac) (below_new h.wf (hok hv hvac))

theorem link_inv (h : Inv db) (hok : validateName name = .ok () → vacant db p name = .ok () →
    ∀ x, db.getInode i = some x → x.kind ≠ .dir → Named db p ∧ ¬ Below db i p) : Inv (link db i p name).2 := by
  have hwf : WellFormed (link db i p name).2 := name_wf h.wf true 0 (.link i p name)
  rcases link_cases db i p name with he | ⟨x, hv, hx, hd, hvac, he⟩
  · rwa [he]
  · obtain ⟨hp, hu⟩ := hok hv hvac x hx hd
    rw [he] at hwf ⊢
    exact h.addEntry hwf rfl hp hu

theorem rmdir_inv (h : Inv db) : Inv (rmdir db p name).2 := by
  have hwf : WellFormed (rmdir db p name).2 := name_wf h.wf true 0 (.rmdir p name)
  rcases rmdir_cases db p name with he | ⟨x, -, hx, -, hempty, he⟩
  · rwa [he]
  · rw [he] at hwf ⊢
    refine h.dropChild hwf rfl fun j hj => ?_
    obtain rfl : x.ino = j := Option.some.inj ((childInode_named hx).1.symm.trans hj)
    exact hempty

theorem unlink_inv {online : Bool} {nowMs : ℤ} (h : Inv db) (hok : ∀ x, Unlinks db p name x → Bare db x.ino ∧
    ∀ s ∈ derivedSiblingSuffixes, ∀ k, db.childIno p (name ++ s) = some k →
      sortOf db k = some (.reg, true) → Bare db k) :
    Inv (unlink db online p name nowMs).2 := by
  rcases unlink_cases db online p name nowMs with he | ⟨x, q, hu, he⟩
  · rwa [he]
  · obtain ⟨hx, hder⟩ := hok x hu
    have hgone : WellFormed (unlinkTables db p name x) :=
      h.wf.unlinkTables (h.wf.ne_root (childInode_named hu.source).1)
    have hstart : Inv { unlinkTables db p name x with queue := q } := by
      refine h.dropChild hgone.queue unlinkTables_dentries fun j hj => ?_
      obtain rfl : x.ino = j := Option.some.inj ((childInode_named hu.source).1.symm.trans hj)
      exact hx
    rw [he]
    refine cascadeUnlink_keeps (I := Inv) hgone.queue hstart fun s hs d hd hI hless hsort hchild => ?_
    have hless' : d.dentries ⊆ db.dentries := fun e he => by
      have hm := hless.subset he
      rw [show ({ unlinkTables db p name x with queue := q } : Db).dentries = (db.delChild p name).dentries from
        unlinkTables_dentries] at hm
      exact (mem_delChild.mp hm).1
    have hwf : WellFormed (removeDerivedSibling d p (name ++ s)) := hd.removeDerived
    rcases removeDerived_cases d p (name ++ s) with he | ⟨y, hy, hyd, he⟩
    · rwa [he]
    · rw [he] at hwf ⊢
      refine hI.dropChild hwf rfl fun j hj => ?_
      obtain rfl : y.ino = j := Option.some.inj ((childInode_named hy).1.symm.trans hj)
      obtain ⟨hold, hys⟩ := removesSibling_of_round h.wf hs hsort hchild hy hyd
      exact fun e he => hder s hs y.ino hold hys e (hless' he)

theorem Bare.of_new (h : Bare db j) (hne : j ≠ p) (hnew : ∀ a b, Holds db' a b → Holds db a b ∨ a = p) :
    Bare db' j := by
  intro d hd he
  rcases hnew d.parentIno d.ino ⟨d, hd, rfl, rfl⟩ with ⟨e, hm, ha, -⟩ | hp
  · exact h e hm (ha.trans he)
  · exact hne (he.symm.trans hp)

/-- The rounds of a rename put siblings into the new directory only. -/
theorem renameDerived_new {a b : Ino} (h : Holds (renameDerivedSibling db p name p' name') a b) :
    Holds db a b ∨ a = p' := by
  obtain ⟨d, hd, ha, hb⟩ := h
  rcases renameDerived_cases db p name p' name' with he | ⟨x, -, -, he | hm⟩
  · rw [he] at hd
    exact .inl ⟨d, hd, ha, hb⟩
  · rw [he] at hd
    exact .inl ⟨d, (mem_delChild.mp hd).1, ha, hb⟩
  · rcases (mem_moveDentries hm).mp hd with ⟨hd, -⟩ | ⟨rfl, -⟩
    · exact .inl ⟨d, (mem_delChild.mp hd).1, ha, hb⟩
    · exact .inr ha.symm

/-- A round, where what stands at the new name has no entries and the new
directory does not lie under the sibling. -/
theorem renameDerived_inv (p : Ino) (name name' : String) (h : Inv db) (hp : Named db p')
    (hbare : ∀ x, childInode db p name = some x → x.derived = true →
    ¬ Below db x.ino p' ∧ ∀ j, db.childIno p' name' = some j → Bare db j) :
    Inv (renameDerivedSibling db p name p' name') ∧ Named (renameDerivedSibling db p name p' name') p' := by
  rcases renameDerived_cases db p name p' name' with he | ⟨x, hx, hd, hcase⟩
  · rw [he]
    exact ⟨h, hp⟩
  · obtain ⟨hu, hb⟩ := hbare x hx hd
    have hdrop : Inv (db.delChild p' name') := h.dropChild (h.wf.delChild _ _) rfl hb
    have hp' : Named (db.delChild p' name') p' := by
      rcases hp with hroot | ⟨d, hd, he⟩
      · exact .inl hroot
      · refine .inr ⟨d, mem_delChild.mpr ⟨hd, fun hname => ?_⟩, he⟩
        -- the directory would have its entry in itself
        have hloop : Holds db p' p' := ⟨d, hd, congrArg Prod.fst hname, he⟩
        exact h.no_loop hloop
    rcases hcase with he | hm
    · rw [he]
      exact ⟨hdrop, hp'⟩
    · refine ⟨hdrop.moved hp' (fun hbelow => hu ?_) hm, moved_keepsNamed hm hp'⟩
      have hless : ∀ a b, Holds (db.delChild p' name') a b → Holds db a b := fun a b ⟨d, hd, hab⟩ =>
        ⟨d, (mem_delChild.mp hd).1, hab⟩
      exact ReflTransGen.mono hless _ _ hbelow

/-- The entry moves, and what had the name goes. -/
theorem renamed_inv {src : Inode} (h : Inv db) (hr : Renames db p name p' name' src) (hp : Named db p')
    (hu : ¬ Below db src.ino p') (hb : ∀ j, db.childIno p' name' = some j → Bare db j) :
    Inv (renamedTables db p name p' name') ∧ Named (renamedTables db p name p' name') p' ∧
      ∀ a b, Holds (renamedTables db p name p' name') a b → Holds db a b ∨ a = p' := by
  obtain ⟨hwf, -⟩ := h.wf.renamed hr
  have hsrc : db.childIno p name = some src.ino := (childInode_named hr.source).1
  have hmem (d : Dentry) : d ∈ (renamedTables db p name p' name').dentries ↔
      (d ∈ db.dentries ∧ nameOf d ≠ (p, name) ∧ nameOf d ≠ (p', name')) ∨
        d = ⟨name', p', src.ino⟩ := mem_renamed h.wf hr
  have hnew : ∀ a b, Holds (renamedTables db p name p' name') a b → Holds db a b ∨ a = p' ∧ b = src.ino := by
    rintro a b ⟨d, hd, ha, hb⟩
    rcases (hmem d).mp hd with ⟨hd, -, -⟩ | rfl
    · exact .inl ⟨d, hd, ha, hb⟩
    · exact .inr ⟨ha.symm, hb.symm⟩
  -- an inode keeps a name unless its entry is the one that was replaced
  have hkeep : ∀ a, Named db a → (∀ j, db.childIno p' name' = some j → j ≠ a) →
      Named (renamedTables db p name p' name') a := by
    rintro a (rfl | ⟨d, hd, rfl⟩) hne
    · exact .inl rfl
    · have hchild := childIno_mem h.wf.distinct hd
      by_cases hold : nameOf d = (p, name)
      · rw [show d.parentIno = p from congrArg Prod.fst hold, show d.name = name from congrArg Prod.snd hold,
          hsrc] at hchild
        exact .inr ⟨_, (hmem _).mpr (.inr rfl), Option.some.inj hchild⟩
      · refine .inr ⟨d, (hmem d).mpr (.inl ⟨hd, hold, fun hnew => ?_⟩), rfl⟩
        rw [show d.parentIno = p' from congrArg Prod.fst hnew,
          show d.name = name' from congrArg Prod.snd hnew] at hchild
        exact hne _ hchild rfl
  have hparent : Named (renamedTables db p name p' name') p' :=
    hkeep p' hp fun j hj he => h.no_loop (he ▸ holds_of_child hj)
  refine ⟨h.change hwf hp hu hnew fun a b ⟨d, hd, ha, _⟩ hnamed => ?_, hparent, fun a b hab => ?_⟩
  · rcases (hmem d).mp hd with ⟨hd, -, -⟩ | rfl
    · exact hkeep a hnamed fun j hj he => hb j hj d hd (ha.trans he.symm)
    · exact ha ▸ hparent
  · exact (hnew a b hab).imp_right And.left

theorem rename_inv {online : Bool} {nowMs : ℤ} (h : Inv db) (hok : ∀ src, Renames db p name p' name' src →
    Named db p' ∧ ¬ Below db src.ino p' ∧ (∀ j, db.childIno p' name' = some j → Bare db j) ∧
      ∀ s k, movesSibling db p name p' name' src.ino s k →
        ¬ Below db k p' ∧ ∀ j, after db p name p' name' src.ino p' (name' ++ s) = some j → Bare db j) :
    Inv (rename db online p name p' name' nowMs).2 := by
  rcases rename_cases db online p name p' name' nowMs with he | ⟨src, d, hr, hd, he⟩
  · rwa [he]
  · obtain ⟨hp, hu, hb, hsib⟩ := hok src hr
    obtain ⟨htables, hnamed, hnew⟩ := renamed_inv h hr hp hu hb
    obtain ⟨hwf, hpd, hentries, hinodes⟩ := h.wf.pushed hr hd
    have hchild (k : Ino) (m : String) : d.childIno k m = (renamedTables db p name p' name').childIno k m := by
      unfold Db.childIno Db.child
      rw [hentries]
    have hstart : Inv d := htables.congr hwf hentries
    have hnamed' : Named d p' := hnamed.mono (hentries ▸ List.Subset.refl _)
    rw [he]
    refine (cascadeRename_keeps (I := fun e => Inv e ∧ Named e p' ∧ ∀ a b, Holds e a b → Holds db a b ∨ a = p') hwf hpd
      hr.apart ⟨hstart, hnamed', ?_⟩ ?_).1
    · rintro a b ⟨e, hm, hab⟩
      exact hnew a b ⟨e, hentries ▸ hm, hab⟩
    · rintro s hs e hewf ⟨hI, hpe, hnewe⟩ hrows hold hnew'
      have hsort (k : Ino) : sortOf e k = sortOf (renamedTables db p name p' name') k :=
        sortOf_congr (hrows.trans hinodes)
      obtain ⟨hI', hp'⟩ := renameDerived_inv p (name ++ s) (name' ++ s) hI hpe fun x hx hxd => by
        have hmoves := movesSibling_of_round h.wf hr hs hsort (hold.trans (hchild _ _)) hx hxd
        obtain ⟨hux, hbx⟩ := hsib s x.ino hmoves
        refine ⟨fun hbelow => hux (Forest.under_of_change hnewe hbelow), fun j hj => ?_⟩
        have hstands : after db p name p' name' src.ino p' (name' ++ s) = some j := by
          rw [← renamed_child hr, ← hchild, ← hnew', hj]
        refine (hbx j hstands).of_new (fun hjp => ?_) hnewe
        exact hI.no_loop (hjp ▸ holds_of_child hj)
      refine ⟨hI', hp', fun a b hab => ?_⟩
      rcases renameDerived_new hab with hab | hab
      · exact hnewe a b hab
      · exact .inr hab

/-! ### Walks -/

/-- The walk takes no more steps than there are entries on the ways up. -/
theorem resolve_of_reaches (h : Inv db) (hi : Forest.Reaches (Holds db) ROOT_INO i) :
    ∀ entries : List Dentry, (∀ d ∈ db.dentries, Below db d.ino i → d ∈ entries) →
      (resolveParts db entries.length i).isSome = true := by
  induction hi with
  | root =>
    intro entries _
    cases entries <;> rfl
  | up has all ih =>
    rename_i c
    intro entries hall
    by_cases hroot : c = ROOT_INO
    · subst hroot
      cases entries <;> rfl
    · obtain ⟨p, e, he, -, rfl⟩ := has
      have hsome : (Table.get Dentry.ino db.dentries e.ino).isSome = true := Table.get_isSome_of_mem he
      obtain ⟨d, hd⟩ := Option.isSome_iff_exists.mp hsome
      obtain ⟨hmem, hino⟩ := Table.get_some hd
      have hin : d ∈ entries := hall d hmem (hino ▸ .refl)
      have hlen : entries.length = (entries.erase d).length + 1 := by
        rw [List.length_erase_of_mem hin]
        have hpos := List.length_pos_of_mem hin
        omega
      have hup : Holds db d.parentIno e.ino := ⟨d, hmem, rfl, hino⟩
      have hrest := ih d.parentIno hup (entries.erase d) fun x hx hbelow => by
        refine (List.mem_erase_of_ne fun hxd => ?_).mpr (hall x hx (hbelow.tail hup))
        -- the entry of the inode is not on the way up from its directory
        rw [hxd, hino] at hbelow
        exact h.rooted.acyclic (TransGen.tail' hbelow hup)
      have hentry : db.dentryOf e.ino = some d := hd
      rw [hlen, resolveParts, if_neg hroot, hentry, Option.isSome_map]
      exact hrest

theorem Inv.resolves (h : Inv db) (hi : Named db i) : (resolveFilepath db i).isSome = true := by
  unfold resolveFilepath
  split_ifs
  · rfl
  · rw [Option.isSome_map]
    exact resolve_of_reaches h (h.reaches hi) _ fun d hd _ => hd

end Lemmas

/-! ### Runs -/

section Run

variable {db : Db} {online : Bool}

theorem step_inv {t : Db} {a : ℤ × Op} (h : Inv db) (hok : TreeOk db a) (hst : step online db a = some t) : Inv t := by
  obtain ⟨nowMs, op⟩ := a
  cases hst
  cases op with
  | name op =>
    cases op with
    | mkdir p n => exact mkdir_inv h hok
    | rmdir p n => exact rmdir_inv h
    | createFile p n => exact createFile_inv h hok
    | unlink p n => exact unlink_inv h hok
    | symlink p n target => exact symlink_inv h hok
    | link i p n => exact link_inv h hok
    | rename p n p' n' => exact rename_inv h hok
  | ensureDirs path =>
    show Inv (ensureParts db ROOT_INO (components path)).1
    exact keeps_edits (fun _ _ hd he => hd.edit he) h (ensureParts_edits h.wf (.inl rfl) .any fun _ _ => trivial).1
  | reconcileOne doc => exact reconcileOne_inv h hok
  | applyDeletion rid => exact applyDeletion_inv h hok

/-- In every run whose steps meet the condition, every way up from an inode
with an entry ends at the root, and the walk of `resolve_filepath` does. -/
theorem reachable_rooted (h : Reach (step online) TreeOk .fresh db) :
    ∀ d ∈ db.dentries, Forest.Reaches (Holds db) ROOT_INO d.ino ∧ (resolveFilepath db d.ino).isSome = true := by
  have hinv : Inv db := h.inv .start fun _ _ _ hI hok hst => step_inv hI hok hst
  intro d hd
  have hnamed : Named db d.ino := .inr ⟨d, hd, rfl⟩
  exact ⟨hinv.reaches hnamed, hinv.resolves hnamed⟩

/-- A directory in a directory. -/
theorem reachable_rooted_mkdir : ∃ db, Reach (step true) TreeOk .fresh db ∧ db.dentries = [⟨"a", 1, 2⟩, ⟨"b", 2, 3⟩] ∧
    Forest.Reaches (Holds db) ROOT_INO 3 ∧ (resolveFilepath db 3).isSome = true := by
  have hone : Reach (step true) TreeOk .fresh (mkdir .fresh 1 "a").2 :=
    Reach.start.next (a := (0, .name (.mkdir 1 "a"))) (fun _ _ => .inl rfl) rfl
  have htwo : Reach (step true) TreeOk .fresh (mkdir (mkdir .fresh 1 "a").2 2 "b").2 := by
    refine hone.next (a := (0, .name (.mkdir 2 "b"))) (fun _ _ => .inr ⟨⟨"a", 1, 2⟩, ?_, rfl⟩) rfl
    decide
  have hmem : ⟨"b", 2, 3⟩ ∈ (mkdir (mkdir .fresh 1 "a").2 2 "b").2.dentries := by decide
  obtain ⟨hreaches, hresolves⟩ := reachable_rooted htwo _ hmem
  exact ⟨_, htwo, by decide, hreaches, hresolves⟩

/-- A directory is moved under the name `x` into its own subdirectory. -/
theorem rename_cycles : ¬ ∀ db, Reach (step true) anyStep .fresh db →
    ∀ d ∈ db.dentries, Forest.Reaches (Holds db) ROOT_INO d.ino ∧ (resolveFilepath db d.ino).isSome = true := by
  intro hall
  obtain ⟨db, hreach, hdb⟩ : ∃ db, Reach (step true) anyStep .fresh db ∧
      decide (∃ d ∈ db.dentries, resolveFilepath db d.ino = none) = true :=
    Reach.exists_of_run [(0, .name (.mkdir 1 "a")), (0, .name (.mkdir 2 "b")),
      (0, .name (.rename 1 "a" 3 "x"))] (by decide)
  obtain ⟨d, hd, hnone⟩ := of_decide_eq_true hdb
  have hsome := (hall db hreach d hd).2
  rw [hnone] at hsome
  cases hsome

end Run

end Cache
end Smfs
