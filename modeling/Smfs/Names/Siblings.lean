/-
# Derived siblings, round by round

`unlink` and `rename` end with a loop over the suffixes of derived siblings.
A round touches two names at most, which no other round touches, so each
finds at its names what stood there when the loop began. What every round
keeps under that the loop keeps (`cascadeRename_keeps`, `cascadeUnlink_keeps`).

Key definitions: `Cache.after`.
Key theorems: `Cache.renamed_child`, `Cache.cascadeRename_keeps`, `Cache.cascadeUnlink_keeps`.
-/
import Smfs.Names.Cache

namespace Smfs
namespace Cache

open Db Fs

/-- What stands at a name once the entry of `i` has moved. -/
def after (db : Db) (p : Ino) (name : String) (p' : Ino) (name' : String) (i q : Ino) (m : String) : Option Ino :=
  if q = p' ∧ m = name' then some i else if q = p ∧ m = name then none else db.childIno q m

/-- The derived sibling that the round of a suffix moves. -/
def movesSibling (db : Db) (p : Ino) (name : String) (p' : Ino) (name' : String) (i : Ino) (suffix : String)
    (k : Ino) : Prop :=
  suffix ∈ derivedSiblingSuffixes ∧ after db p name p' name' i p (name ++ suffix) = some k ∧
    sortOf db k = some (.reg, true)

section Lemmas

variable {db db' : Db} {i j p p' : Ino} {name name' : String}

/-! ### Suffixes -/

/-- No suffix ends in another. -/
theorem suffixes_apart {s s' n n' : String} (hs : s ∈ derivedSiblingSuffixes) (hs' : s' ∈ derivedSiblingSuffixes)
    (h : n ++ s = n' ++ s') : s = s' := by
  have hends : ∀ s ∈ derivedSiblingSuffixes, ∀ s' ∈ derivedSiblingSuffixes,
      s.toList.isSuffixOf s'.toList = true → s = s' := by decide
  have hlist := congrArg String.toList h
  rw [String.toList_append, String.toList_append] at hlist
  have h1 : s.toList <:+ n'.toList ++ s'.toList := ⟨_, hlist⟩
  have h2 : s'.toList <:+ n'.toList ++ s'.toList := ⟨_, rfl⟩
  rcases List.suffix_or_suffix_of_suffix h1 h2 with h | h
  · exact hends s hs s' hs' (List.isSuffixOf_iff_suffix.mpr h)
  · exact (hends s' hs' s hs (List.isSuffixOf_iff_suffix.mpr h)).symm

theorem append_inj {s n n' : String} (h : n ++ s = n' ++ s) : n = n' := by
  have hlist := congrArg String.toList h
  rw [String.toList_append, String.toList_append] at hlist
  exact String.toList_inj.mp (List.append_cancel_right hlist)

theorem suffixes_nodup : derivedSiblingSuffixes.Nodup := by decide

theorem suffix_ne {s : String} (hs : s ∈ derivedSiblingSuffixes) (n : String) : n ++ s ≠ n := by
  have hlong : ∀ s ∈ derivedSiblingSuffixes, s.length ≠ 0 := by decide
  intro h
  have hlen := congrArg String.length h
  rw [String.length_append] at hlen
  exact hlong s hs (by omega)

/-! ### Entries -/

theorem childIno_iff (h : (db.dentries.map nameOf).Nodup) :
    db.childIno p name = some i ↔ (⟨name, p, i⟩ : Dentry) ∈ db.dentries :=
  ⟨childIno_some, fun hm => childIno_mem h hm⟩

theorem mem_delChild {d : Dentry} : d ∈ (db.delChild p name).dentries ↔ d ∈ db.dentries ∧ nameOf d ≠ (p, name) := by
  rw [delChild_eq]
  exact Table.mem_erase

theorem mem_moveDentries {d : Dentry} (hm : Fs.moveDentries db i p name = some db') :
    d ∈ db'.dentries ↔ d ∈ db.dentries ∧ d.ino ≠ i ∨ d = ⟨name, p, i⟩ ∧ ∃ x ∈ db.dentries, x.ino = i := by
  unfold Fs.moveDentries at hm
  split_ifs at hm
  cases hm
  rw [show ({ db with dentries := Table.modify Dentry.ino db.dentries i fun d =>
      { d with parentIno := p, name := name } } :
    Db).dentries = Table.modify Dentry.ino db.dentries i fun d => { d with parentIno := p, name := name } from rfl,
    Table.mem_modify]
  constructor
  · rintro ⟨x, hx, rfl⟩
    by_cases hxi : x.ino = i
    · subst hxi
      rw [if_pos rfl]
      exact .inr ⟨rfl, x, hx, rfl⟩
    · rw [if_neg hxi]
      exact .inl ⟨hx, hxi⟩
  · rintro (⟨hd, hne⟩ | ⟨rfl, x, hx, rfl⟩)
    · exact ⟨d, hd, by rw [if_neg hne]⟩
    · exact ⟨x, hx, by rw [if_pos rfl]⟩

/-- An inode whose entry moved has no other. -/
theorem moveDentries_only (hm : Fs.moveDentries db i p name = some db') {d e : Dentry}
    (hd : d ∈ db.dentries) (he : e ∈ db.dentries) (hdi : d.ino = i) (hei : e.ino = i) : d = e := by
  unfold Fs.moveDentries at hm
  split_ifs at hm with hno
  push Not at hno
  by_contra hne
  have htwo : [d, e].Subperm (db.dentries.filter fun d => d.ino = i) := by
    refine List.subperm_of_subset (by simpa using hne) fun z hz => ?_
    rcases List.mem_cons.mp hz with rfl | hz
    · exact List.mem_filter.mpr ⟨hd, decide_eq_true hdi⟩
    · obtain rfl := List.mem_singleton.mp hz
      exact List.mem_filter.mpr ⟨he, decide_eq_true hei⟩
  exact absurd htwo.length_le (by simpa using hno.1)

theorem moveDentries_rows (hm : Fs.moveDentries db i p name = some db') : db'.inodes = db.inodes ∧ db'.data = db.data ∧
    db'.symlinks = db.symlinks ∧ db'.remotes = db.remotes ∧ db'.nextIno = db.nextIno := by
  unfold Fs.moveDentries at hm
  split_ifs at hm
  cases hm
  exact ⟨rfl, rfl, rfl, rfl, rfl⟩

/-! ### The rename -/

theorem Renames.apart {src : Inode} (hr : Renames db p name p' name' src) : (p, name) ≠ (p', name') := by
  rintro he
  obtain ⟨rfl, rfl⟩ := Prod.mk.inj he
  exact (hr.replaced src.ino (childInode_named hr.source).1).1 rfl

/-- What stands at a name after the entry has moved. -/
theorem renamed_child {src : Inode} (hr : Renames db p name p' name' src) (q : Ino) (m : String) :
    (renamedTables db p name p' name').childIno q m = after db p name p' name' src.ino q m := by
  have hsrc : db.childIno p name = some src.ino := (childInode_named hr.source).1
  unfold renamedTables after
  cases hj : db.childIno p' name' with
  | none =>
    dsimp only
    rw [childIno_moveChild hj hr.apart, hsrc]
  | some j =>
    have hdel (q : Ino) (m : String) : (Fs.purge (db.delChild p' name') j).childIno q m =
        if q = p' ∧ m = name' then none else db.childIno q m := childIno_delChild
    have hold : (Fs.purge (db.delChild p' name') j).childIno p name = some src.ino := by
      rw [hdel, if_neg fun he => hr.apart (by rw [he.1, he.2]), hsrc]
    dsimp only
    rw [childIno_moveChild (by rw [hdel, if_pos ⟨rfl, rfl⟩]) hr.apart, hold, hdel]
    split_ifs <;> rfl

/-- The entries after a rename. -/
theorem mem_renamed {src : Inode} {d : Dentry} (hwf : WellFormed db) (hr : Renames db p name p' name' src) :
    d ∈ (renamedTables db p name p' name').dentries ↔
    (d ∈ db.dentries ∧ nameOf d ≠ (p, name) ∧ nameOf d ≠ (p', name')) ∨ d = ⟨name', p', src.ino⟩ := by
  have hd : (d ∈ (renamedTables db p name p' name').dentries) ↔
      (renamedTables db p name p' name').childIno d.parentIno d.name = some d.ino :=
        (childIno_iff (hwf.renamed hr).1.distinct).symm
  rw [hd, renamed_child hr]
  unfold after
  by_cases hnew : nameOf d = (p', name')
  · rw [if_pos ⟨congrArg Prod.fst hnew, congrArg Prod.snd hnew⟩]
    constructor
    · intro he
      cases d
      cases hnew
      cases he
      exact .inr rfl
    · rintro (⟨-, -, hne⟩ | rfl)
      · exact absurd hnew hne
      · rfl
  · rw [if_neg fun he => hnew (Prod.ext he.1 he.2)]
    by_cases hold : nameOf d = (p, name)
    · rw [if_pos ⟨congrArg Prod.fst hold, congrArg Prod.snd hold⟩]
      constructor
      · rintro ⟨⟩
      · rintro (⟨-, hne, -⟩ | rfl)
        · exact absurd hold hne
        · exact absurd rfl hnew
    · rw [if_neg fun he => hold (Prod.ext he.1 he.2), childIno_iff hwf.distinct]
      constructor
      · exact fun hd => .inl ⟨hd, hold, hnew⟩
      · rintro (⟨hd, -, -⟩ | rfl)
        · exact hd
        · exact absurd rfl hnew

theorem sortOf_purge : sortOf (Fs.purge db i) j = if j = i then none else sortOf db j := sortOf_delInode

theorem renamed_sort (db : Db) (p : Ino) (name : String) (p' : Ino) (name' : String) (i : Ino) :
    sortOf (renamedTables db p name p' name') i = sortOf db i ∨
    db.childIno p' name' = some i ∧ sortOf (renamedTables db p name p' name') i = none := by
  unfold renamedTables
  cases hj : db.childIno p' name' with
  | none => exact .inl rfl
  | some j =>
    have hsort : sortOf (Fs.moveChild (Fs.purge (db.delChild p' name') j) p name p' name') i =
        if i = j then none else sortOf db i := sortOf_purge
    by_cases hij : i = j
    · rw [if_pos hij] at hsort
      exact .inr ⟨by rw [hij], hsort⟩
    · rw [if_neg hij] at hsort
      exact .inl hsort

/-! ### A round -/

theorem renameDerived_cases (db : Db) (p : Ino) (name : String) (p' : Ino) (name' : String) :
    renameDerivedSibling db p name p' name' = db ∨
      ∃ x, childInode db p name = some x ∧ x.derived = true ∧
        (renameDerivedSibling db p name p' name' = db.delChild p' name' ∨
          moveDentries (db.delChild p' name') x.ino p' name' = some (renameDerivedSibling db p name p' name')) := by
  unfold renameDerivedSibling
  cases hx : childInode db p name with
  | none => exact .inl rfl
  | some x =>
    dsimp only
    by_cases hd : x.derived = true
    · rw [if_pos hd]
      refine .inr ⟨x, rfl, hd, ?_⟩
      cases hm : moveDentries (db.delChild p' name') x.ino p' name' with
      | none => exact .inl rfl
      | some d => exact .inr rfl
    · rw [if_neg hd]
      exact .inl rfl

theorem removeDerived_cases (db : Db) (p : Ino) (name : String) : removeDerivedSibling db p name = db ∨
    ∃ x, childInode db p name = some x ∧ x.derived = true ∧
      removeDerivedSibling db p name = ((db.delChild p name).delData x.ino).delInode x.ino := by
  unfold removeDerivedSibling
  cases hx : childInode db p name with
  | none => exact .inl rfl
  | some x =>
    dsimp only
    by_cases hd : x.derived = true
    · rw [if_pos hd]
      exact .inr ⟨x, rfl, hd, rfl⟩
    · rw [if_neg hd]
      exact .inl rfl

theorem renameDerived_inodes : (renameDerivedSibling db p name p' name').inodes = db.inodes := by
  rcases renameDerived_cases db p name p' name' with he | ⟨x, -, -, he | hm⟩
  · rw [he]
  · rw [he]
    rfl
  · exact (moveDentries_rows hm).1

/-- Other names stand for what they did. -/
theorem renameDerived_child (hwf : WellFormed db) (hp : p' < db.nextIno) (hne : (p, name) ≠ (p', name')) {q : Ino}
    {m : String} (h : (q, m) ≠ (p, name)) (h' : (q, m) ≠ (p', name')) :
    (renameDerivedSibling db p name p' name').childIno q m = db.childIno q m := by
  have hwf' : WellFormed (renameDerivedSibling db p name p' name') := (hwf.renameDerived hp _ _).1
  refine Option.ext fun k => ?_
  rw [childIno_iff hwf'.distinct, childIno_iff hwf.distinct]
  have hdel : (⟨m, q, k⟩ : Dentry) ∈ (db.delChild p' name').dentries ↔ (⟨m, q, k⟩ : Dentry) ∈ db.dentries := by
    rw [mem_delChild]
    exact and_iff_left h'
  rcases renameDerived_cases db p name p' name' with he | ⟨x, hx, -, he | hm⟩
  · rw [he]
  · rw [he]
    exact hdel
  · rw [mem_moveDentries hm, hdel]
    constructor
    · rintro (⟨hd, -⟩ | ⟨hd, -⟩)
      · exact hd
      · cases hd
        exact absurd rfl h'
    · intro hd
      refine .inl ⟨hd, fun hk => ?_⟩
      -- the entry that moves is the only one of its inode
      have hold : (⟨name, p, x.ino⟩ : Dentry) ∈ (db.delChild p' name').dentries :=
        mem_delChild.mpr ⟨childIno_some (childInode_named hx).1, hne⟩
      have hsame := moveDentries_only hm hold (hdel.mpr hd) rfl hk
      cases hsame
      exact h rfl

theorem removeDerived_child {q : Ino} {m : String} (h : (q, m) ≠ (p, name)) :
    (removeDerivedSibling db p name).childIno q m = db.childIno q m := by
  rcases removeDerived_cases db p name with he | ⟨x, -, -, he⟩
  · rw [he]
  · rw [he]
    have hdel : (((db.delChild p name).delData x.ino).delInode x.ino).childIno q m = _ := childIno_delChild
    rw [hdel, if_neg fun hq => h (by rw [hq.1, hq.2])]

/-! ### The loops -/

/-- What every round keeps that finds its two names as they were, the loop keeps. -/
theorem cascadeRename_keeps {I : Db → Prop} (hwf : WellFormed db) (hp : p' < db.nextIno) (hne : (p, name) ≠ (p', name'))
    (h : I db) (hround : ∀ s ∈ derivedSiblingSuffixes, ∀ d, WellFormed d → I d → d.inodes = db.inodes →
      d.childIno p (name ++ s) = db.childIno p (name ++ s) → d.childIno p' (name' ++ s) = db.childIno p' (name' ++ s) →
      I (renameDerivedSibling d p (name ++ s) p' (name' ++ s))) :
    I (cascadeRenameDerivedSiblings db p name p' name') := by
  have hapart (s : String) : (p, name ++ s) ≠ (p', name' ++ s) := by
    rintro he
    obtain ⟨hp, hs⟩ := Prod.mk.inj he
    exact hne (Prod.ext hp (append_inj hs))
  have key : ∀ rest : List String, rest ⊆ derivedSiblingSuffixes → rest.Nodup → ∀ d, WellFormed d →
    p' < d.nextIno → I d →
      d.inodes = db.inodes → (∀ s ∈ rest, d.childIno p (name ++ s) = db.childIno p (name ++ s) ∧
        d.childIno p' (name' ++ s) = db.childIno p' (name' ++ s)) →
      I (rest.foldl (fun db s => renameDerivedSibling db p (name ++ s) p' (name' ++ s)) d) := by
    intro rest
    induction rest with
    | nil => exact fun _ _ d _ _ hI _ _ => hI
    | cons s rest ih =>
      intro hsub hnodup d hd hpd hI hrows hnames
      have hs : s ∈ derivedSiblingSuffixes := hsub List.mem_cons_self
      obtain ⟨hnot, hrest⟩ := List.nodup_cons.mp hnodup
      have hother {s' : String} (hs' : s' ∈ rest) (q q' : Ino) (n n' : String) :
        (q, n ++ s') ≠ (q', n' ++ s) := fun he =>
        hnot (suffixes_apart (hsub (List.mem_cons_of_mem _ hs')) hs (Prod.mk.inj he).2 ▸ hs')
      obtain ⟨hwf', hn⟩ := hd.renameDerived (p := p) hpd (name ++ s) (name' ++ s)
      have hstep := hround s hs d hd hI hrows (hnames s List.mem_cons_self).1 (hnames s List.mem_cons_self).2
      refine ih (List.subset_of_cons_subset hsub) hrest _ hwf' (by rwa [hn]) hstep (renameDerived_inodes.trans hrows) ?_
      intro s' hs'
      obtain ⟨h1, h2⟩ := hnames s' (List.mem_cons_of_mem _ hs')
      constructor
      · rw [renameDerived_child hd hpd (hapart s) (hother hs' _ _ _ _) (hother hs' _ _ _ _), h1]
      · rw [renameDerived_child hd hpd (hapart s) (hother hs' _ _ _ _) (hother hs' _ _ _ _), h2]
  exact key _ (List.Subset.refl _) suffixes_nodup db hwf hp h rfl fun _ _ => ⟨rfl, rfl⟩

theorem cascadeUnlink_keeps {I : Db → Prop} (hwf : WellFormed db) (h : I db)
    (hround : ∀ s ∈ derivedSiblingSuffixes, ∀ d, WellFormed d → I d → d.dentries.Sublist db.dentries →
      (∀ i, sortOf d i = sortOf db i ∨ sortOf d i = none) → d.childIno p (name ++ s) = db.childIno p (name ++ s) →
      I (removeDerivedSibling d p (name ++ s))) : I (cascadeUnlinkDerivedSiblings db p name) := by
  have key : ∀ rest : List String, rest ⊆ derivedSiblingSuffixes → rest.Nodup → ∀ d, WellFormed d → I d →
      d.dentries.Sublist db.dentries → (∀ i, sortOf d i = sortOf db i ∨ sortOf d i = none) →
      (∀ s ∈ rest, d.childIno p (name ++ s) = db.childIno p (name ++ s)) →
      I (rest.foldl (fun db s => removeDerivedSibling db p (name ++ s)) d) := by
    intro rest
    induction rest with
    | nil => exact fun _ _ d _ hI _ _ _ => hI
    | cons s rest ih =>
      intro hsub hnodup d hd hI hless hsort hnames
      have hs : s ∈ derivedSiblingSuffixes := hsub List.mem_cons_self
      obtain ⟨hnot, hrest⟩ := List.nodup_cons.mp hnodup
      have hstep := hround s hs d hd hI hless hsort (hnames s List.mem_cons_self)
      have hround' : (removeDerivedSibling d p (name ++ s)).dentries.Sublist db.dentries ∧
          ∀ i, sortOf (removeDerivedSibling d p (name ++ s)) i = sortOf db i ∨
            sortOf (removeDerivedSibling d p (name ++ s)) i = none := by
        rcases removeDerived_cases d p (name ++ s) with he | ⟨x, -, -, he⟩
        · rw [he]
          exact ⟨hless, hsort⟩
        · rw [he]
          refine ⟨List.filter_sublist.trans hless, fun i => ?_⟩
          have hgone : sortOf (((d.delChild p (name ++ s)).delData x.ino).delInode x.ino) i =
              if i = x.ino then none else sortOf d i := sortOf_delInode
          rw [hgone]
          split_ifs
          · exact .inr rfl
          · exact hsort i
      refine ih (List.subset_of_cons_subset hsub) hrest _ hd.removeDerived hstep hround'.1 hround'.2 fun s' hs' => ?_
      have hother : (p, name ++ s') ≠ (p, name ++ s) := fun he =>
        hnot (suffixes_apart (hsub (List.mem_cons_of_mem _ hs')) hs (Prod.mk.inj he).2 ▸ hs')
      exact (removeDerived_child hother).trans (hnames s' (List.mem_cons_of_mem _ hs'))
  exact key _ (List.Subset.refl _) suffixes_nodup db hwf h (List.Sublist.refl _) (fun _ => .inl rfl) fun _ _ => rfl

/-- The sibling of a round is the one that the rename was to move. -/
theorem movesSibling_of_round {src x : Inode} {s : String} {d : Db} (hwf : WellFormed db)
    (hr : Renames db p name p' name' src) (hs : s ∈ derivedSiblingSuffixes)
    (hrows : ∀ i, sortOf d i = sortOf (renamedTables db p name p' name') i)
    (hchild : d.childIno p (name ++ s) = (renamedTables db p name p' name').childIno p (name ++ s))
    (hx : childInode d p (name ++ s) = some x) (hd : x.derived = true) :
    movesSibling db p name p' name' src.ino s x.ino := by
  obtain ⟨hc, hrow⟩ := childInode_named hx
  rw [hchild, renamed_child hr] at hc
  have hsort : sortOf d x.ino = some (x.kind, true) := by
    unfold sortOf
    rw [hrow, ← hd]
    rfl
  rw [hrows] at hsort
  refine ⟨hs, hc, ?_⟩
  rcases renamed_sort db p name p' name' x.ino with h | ⟨-, h⟩
  · rw [h] at hsort
    exact hwf.derived_reg hsort
  · rw [h] at hsort
    cases hsort

theorem unlinkTables_dentries {x : Inode} : (unlinkTables db p name x).dentries = (db.delChild p name).dentries := by
  unfold unlinkTables
  dsimp only
  split_ifs <;> rfl

theorem unlinkTables_sort (db : Db) (p : Ino) (name : String) (x : Inode) (k : Ino) :
    sortOf (unlinkTables db p name x) k = sortOf db k ∨ k = x.ino ∧ sortOf (unlinkTables db p name x) k = none := by
  have hupd : sortOf ((db.delChild p name).updInode x.ino fun i => { i with nlink := i.nlink - 1 }) k = sortOf db k :=
    sortOf_updNlink (f := fun n => n - 1)
  unfold unlinkTables
  dsimp only
  split_ifs
  · rw [sortOf_purge]
    split_ifs with hk
    · exact .inr ⟨hk, rfl⟩
    · exact .inl hupd
  · exact .inl hupd

/-- The sibling that a round of `unlink` removes stood there as one from the start. -/
theorem removesSibling_of_round {x y : Inode} {s : String} {q : PushQueue} {d : Db} (hwf : WellFormed db)
    (hs : s ∈ derivedSiblingSuffixes)
    (hsort : ∀ i, sortOf d i = sortOf { unlinkTables db p name x with queue := q } i ∨ sortOf d i = none)
    (hchild : d.childIno p (name ++ s) = ({ unlinkTables db p name x with queue := q } : Db).childIno p (name ++ s))
    (hy : childInode d p (name ++ s) = some y) (hyd : y.derived = true) :
    db.childIno p (name ++ s) = some y.ino ∧ sortOf db y.ino = some (.reg, true) := by
  obtain ⟨hc, hrow⟩ := childInode_named hy
  constructor
  · have hdel : (unlinkTables db p name x).childIno p (name ++ s) = (db.delChild p name).childIno p (name ++ s) := by
      unfold Db.childIno Db.child
      rw [unlinkTables_dentries]
    rw [hchild] at hc
    have hc : (unlinkTables db p name x).childIno p (name ++ s) = some y.ino := hc
    rwa [hdel, childIno_delChild, if_neg fun hn => suffix_ne hs name hn.2] at hc
  · have hder : sortOf d y.ino = some (y.kind, true) := by
      unfold sortOf
      rw [hrow, ← hyd]
      rfl
    have hsame : sortOf db y.ino = some (y.kind, true) := by
      rcases hsort y.ino with h | h
      · have h : sortOf d y.ino = sortOf (unlinkTables db p name x) y.ino := h
        rcases unlinkTables_sort db p name x y.ino with h' | ⟨-, h'⟩
        · exact (h'.symm.trans h.symm).trans hder
        · exact absurd ((h.trans h').symm.trans hder) (by simp)
      · exact absurd (h.symm.trans hder) (by simp)
    exact hwf.derived_reg hsame

end Lemmas

end Cache
end Smfs
