/-
# What a cascade touches

The loop over the suffixes of derived siblings takes entries of derived inodes
only at the names next to the file that goes. The loop of `unlink` keeps every
other entry, and every other inode. The loop of `rename` also clears the name
that a sibling moves to, whatever stands there. So a rename touches derived
entries only, and leaves every inode a name, exactly where what stands at such
a name is derived and keeps another one (`cascades_iff`).

Key definitions: `Cascade.Frames`, `Cascade.Hands`, `Cascade.Taken`, `Cascade.Clear`.
Key theorems: `Cascade.unlink_frames`, `Cascade.rename_frames_iff`, `Cascade.cascades_iff`, `Cascade.overwrites`.
-/
import Smfs.Names.Edits
import Smfs.Names.Siblings

namespace Smfs
namespace Cascade

open Trans Db Fs Cache

/-- The inode of a derived file. -/
def IsDerived (db : Db) (i : Ino) : Prop := ∃ x, db.getInode i = some x ∧ x.derived = true

/-- Only entries of derived inodes change; an inode that is not derived stays
with its content and its mapping, and no inode is left without a name. -/
structure Frames (db db' : Db) : Prop where
  kept : ∀ d ∈ db.dentries, ¬ IsDerived db d.ino → d ∈ db'.dentries
  added : ∀ d ∈ db'.dentries, d ∉ db.dentries → IsDerived db d.ino
  rows : ∀ i, ¬ IsDerived db i → db'.getInode i = db.getInode i ∧ db'.chunksOf i = db.chunksOf i
  mapped : db'.remotes = db.remotes
  symlinks : db'.symlinks = db.symlinks
  named : ∀ d ∈ db.dentries, (∃ e ∈ db'.dentries, e.ino = d.ino) ∨ db'.getInode d.ino = none

/-- The call gets as far as its cascade, which finds these tables. -/
inductive Hands (db : Db) (online : Bool) (nowMs : ℤ) : NameOp → Db → Prop
  | unlink {p : Ino} {name : String} {x : Inode} (checks : Unlinks db p name x) :
      Hands db online nowMs (.unlink p name)
        (unlinkEnqueue (unlinkTables db p name x) online (childPath db p name) x.ino nowMs)
  | rename {p p' : Ino} {name name' : String} {src : Inode} {r : Renamed} (checks : Renames db p name p' name' src)
      (tables : renameTables db src p name p' name' = .ok (some r)) :
      Hands db online nowMs (.rename p name p' name')
        (renamePush r online src.ino (childPath db p name) (childPath r.db p' name') (childPath db p' name') nowMs)

/-- A derived sibling of another inode moves to the name of the entry. -/
def Taken (db : Db) (p : Ino) (name : String) (p' : Ino) (name' : String) (d : Dentry) : Prop :=
  ∃ s ∈ derivedSiblingSuffixes, nameOf d = (p', name' ++ s) ∧
    ∃ k, db.childIno p (name ++ s) = some k ∧ IsDerived db k ∧ k ≠ d.ino

/-- The entry that a derived sibling moves to. -/
def Landed (db : Db) (p : Ino) (name : String) (p' : Ino) (name' : String) (d : Dentry) : Prop :=
  ∃ s ∈ derivedSiblingSuffixes, nameOf d = (p', name' ++ s) ∧ db.childIno p (name ++ s) = some d.ino ∧
    IsDerived db d.ino

/-- What stands where a sibling moves to is derived, and has a name that no sibling moves to. -/
def Clear (db : Db) (p : Ino) (name : String) (p' : Ino) (name' : String) : Prop :=
  ∀ d ∈ db.dentries, Taken db p name p' name' d →
    IsDerived db d.ino ∧ ∃ e ∈ db.dentries, e.ino = d.ino ∧ ¬ Taken db p name p' name' e

/-- A rename finds the names clear that siblings move to. -/
def Clears (db : Db) : NameOp → Prop
  | .rename p name p' name' => Clear db p name p' name'
  | _ => True

section Lemmas

variable {db d d' : Db} {p p' : Ino} {name name' : String} {i k : Ino} {e : Dentry}

theorem isDerived_congr (h : d.inodes = db.inodes) : IsDerived d i ↔ IsDerived db i := by
  unfold IsDerived Db.getInode
  rw [h]

theorem childInode_of (hc : db.childIno p name = some k) : childInode db p name = db.getInode k := by
  unfold childInode
  rw [hc]
  rfl

/-! ### What a change frames -/

theorem Frames.refl (db : Db) : Frames db db where
  kept _ hd _ := hd
  added _ hd hno := absurd hd hno
  rows _ _ := ⟨rfl, rfl⟩
  mapped := rfl
  symlinks := rfl
  named d hd := .inl ⟨d, hd, rfl⟩

theorem Frames.derived (h : Frames db d) (hi : IsDerived d i) : IsDerived db i := by
  by_contra hno
  obtain ⟨x, hx, hxd⟩ := hi
  rw [(h.rows i hno).1] at hx
  exact hno ⟨x, hx, hxd⟩

theorem Frames.trans (h : Frames db d) (h' : Frames d d') : Frames db d' where
  kept e he hno := h'.kept e (h.kept e he hno) fun hd => hno (h.derived hd)
  added e he hno := by
    by_cases hmid : e ∈ d.dentries
    · exact h.added e hmid hno
    · exact h.derived (h'.added e he hmid)
  rows i hno := by
    obtain ⟨hrow, hdata⟩ := h.rows i hno
    obtain ⟨hrow', hdata'⟩ := h'.rows i fun hd => hno (h.derived hd)
    exact ⟨hrow'.trans hrow, hdata'.trans hdata⟩
  mapped := h'.mapped.trans h.mapped
  symlinks := h'.symlinks.trans h.symlinks
  named e he := by
    rcases h.named e he with ⟨f, hf, hfe⟩ | hgone
    · rw [← hfe]
      exact h'.named f hf
    · have hno : ¬ IsDerived d e.ino := by
        rintro ⟨x, hx, -⟩
        rw [hgone] at hx
        cases hx
      exact .inr ((h'.rows e.ino hno).1.trans hgone)

/-! ### The loop of `unlink` -/

theorem removeDerived_frames (h : (db.dentries.map nameOf).Nodup) : Frames db (removeDerivedSibling db p name) := by
  rcases removeDerived_cases db p name with he | ⟨x, hx, hd, he⟩
  · rw [he]
    exact .refl db
  obtain ⟨hc, hrow⟩ := childInode_named hx
  have hder : IsDerived db x.ino := ⟨x, hrow, hd⟩
  have hne {i : Ino} (hno : ¬ IsDerived db i) : i ≠ x.ino := fun hi => hno (hi ▸ hder)
  have hmem {e : Dentry} : e ∈ (((db.delChild p name).delData x.ino).delInode x.ino).dentries ↔
      e ∈ db.dentries ∧ nameOf e ≠ (p, name) := mem_delChild
  have hget (i : Ino) : (((db.delChild p name).delData x.ino).delInode x.ino).getInode i =
      if i = x.ino then none else db.getInode i := getInode_delInode
  -- the entry at the name is the sibling's
  have hat {e : Dentry} (hm : e ∈ db.dentries) (hn : nameOf e = (p, name)) : e.ino = x.ino := by
    have hce := childIno_mem h hm
    rw [show e.parentIno = p from congrArg Prod.fst hn, show e.name = name from congrArg Prod.snd hn, hc] at hce
    exact (Option.some.inj hce).symm
  rw [he]
  refine ⟨fun e hm hno => hmem.mpr ⟨hm, fun hn => hne hno (hat hm hn)⟩,
    fun e hm hno => absurd (hmem.mp hm).1 hno, fun i hno => ⟨?_, ?_⟩, rfl, rfl, fun e hm => ?_⟩
  · rw [hget, if_neg (hne hno)]
  · have hkeep : Keeps i db (((db.delChild p name).delData x.ino).delInode x.ino) :=
      (keeps_delChild.trans (keeps_delData (hne hno))).trans (keeps_delInode (hne hno))
    exact hkeep.chunks
  · by_cases hn : nameOf e = (p, name)
    · right
      rw [hget, if_pos (hat hm hn)]
    · exact .inl ⟨e, hmem.mpr ⟨hm, hn⟩, rfl⟩

theorem unlink_frames (h : WellFormed db) : Frames db (cascadeUnlinkDerivedSiblings db p name) := by
  unfold cascadeUnlinkDerivedSiblings
  generalize derivedSiblingSuffixes = suffixes
  induction suffixes generalizing db with
  | nil => exact .refl db
  | cons s suffixes ih => exact (removeDerived_frames h.distinct).trans (ih h.removeDerived)

/-! ### A round of `rename` -/

/-- Nothing moves where no derived sibling stands. -/
theorem round_still (h : ∀ k, d.childIno p name = some k → ¬ IsDerived d k) :
    renameDerivedSibling d p name p' name' = d := by
  unfold renameDerivedSibling
  cases hx : childInode d p name with
  | none => rfl
  | some x =>
    obtain ⟨hc, hrow⟩ := childInode_named hx
    dsimp only
    rw [if_neg fun hd => h x.ino hc ⟨x, hrow, hd⟩]

/-- The name that a sibling moves to is cleared; the sibling then stands
there alone, or it stays where it was. -/
theorem round_moves (hk : d.childIno p name = some k) (hd : IsDerived d k) (hne : (p, name) ≠ (p', name')) :
    (∀ e, e ∈ (renameDerivedSibling d p name p' name').dentries ↔ e ∈ d.dentries ∧ nameOf e ≠ (p', name')) ∨
      ∀ e, e ∈ (renameDerivedSibling d p name p' name').dentries ↔
        e ∈ d.dentries ∧ nameOf e ≠ (p', name') ∧ e.ino ≠ k ∨ e = ⟨name', p', k⟩ := by
  obtain ⟨x, hx, hxd⟩ := hd
  obtain rfl := getInode_ino hx
  have hround : renameDerivedSibling d p name p' name' =
      (Fs.moveDentries (d.delChild p' name') x.ino p' name').getD (d.delChild p' name') := by
    unfold renameDerivedSibling
    rw [childInode_of hk, hx]
    dsimp only
    rw [if_pos hxd]
  rw [hround]
  cases hm : Fs.moveDentries (d.delChild p' name') x.ino p' name' with
  | none => exact .inl fun e => mem_delChild
  | some d' =>
    have hold : (⟨name, p, x.ino⟩ : Dentry) ∈ (d.delChild p' name').dentries := mem_delChild.mpr ⟨childIno_some hk, hne⟩
    refine .inr fun e => (mem_moveDentries hm).trans ?_
    rw [mem_delChild, and_assoc]
    exact or_congr Iff.rfl (and_iff_left ⟨_, hold, rfl⟩)

/-! ### The loop of `rename` -/

theorem apart (h : (p, name) ≠ (p', name')) (s : String) : (p, name ++ s) ≠ (p', name' ++ s) := by
  intro he
  obtain ⟨hp, hs⟩ := Prod.mk.inj he
  exact h (Prod.ext hp (append_inj hs))

/-- Where a sibling stands, none moves to. -/
theorem not_taken {s : String} (hne : (p, name) ≠ (p', name')) (hs : s ∈ derivedSiblingSuffixes)
    (hn : nameOf e = (p, name ++ s)) : ¬ Taken db p name p' name' e := by
  rintro ⟨s', hs', hn', -⟩
  rw [hn] at hn'
  obtain ⟨hp, happ⟩ := Prod.mk.inj hn'
  have hsame : s = s' := suffixes_apart hs hs' happ
  subst hsame
  exact hne (Prod.ext hp (append_inj happ))

/-- What a round of the loop finds at its names, and that it finds the inodes as they were. -/
structure Finds (db d : Db) (p : Ino) (name : String) (p' : Ino) (name' s : String) : Prop where
  wf : WellFormed d
  parent : p' < d.nextIno
  inodes : d.inodes = db.inodes
  source : d.childIno p (name ++ s) = db.childIno p (name ++ s)
  target : d.childIno p' (name' ++ s) = db.childIno p' (name' ++ s)

/-- A round leaves the names of the other rounds. -/
theorem Finds.round {s s' : String} (h : Finds db d p name p' name' s) (hne : (p, name) ≠ (p', name'))
    (hs : s ∈ derivedSiblingSuffixes) (hs' : s' ∈ derivedSiblingSuffixes) (hss : s ≠ s') :
    Finds db (renameDerivedSibling d p (name ++ s') p' (name' ++ s')) p name p' name' s := by
  obtain ⟨hwf, hn⟩ := h.wf.renameDerived (p := p) h.parent (name ++ s') (name' ++ s')
  have hother (q q' : Ino) (n n' : String) : (q, n ++ s) ≠ (q', n' ++ s') := fun he =>
    hss (suffixes_apart hs hs' (Prod.mk.inj he).2)
  refine ⟨hwf, hn ▸ h.parent, renameDerived_inodes.trans h.inodes, ?_, ?_⟩
  · rw [renameDerived_child h.wf h.parent (apart hne s') (hother _ _ _ _) (hother _ _ _ _), h.source]
  · rw [renameDerived_child h.wf h.parent (apart hne s') (hother _ _ _ _) (hother _ _ _ _), h.target]

/-- What stands at the name that a round clears stands there after that round. -/
theorem cascadeRename_round {s : String} (hwf : WellFormed db) (hp : p' < db.nextIno) (hne : (p, name) ≠ (p', name'))
    (hs : s ∈ derivedSiblingSuffixes) : ∃ d, Finds db d p name p' name' s ∧
      (cascadeRenameDerivedSiblings db p name p' name').childIno p' (name' ++ s) =
        (renameDerivedSibling d p (name ++ s) p' (name' ++ s)).childIno p' (name' ++ s) := by
  -- the rounds before and the rounds after touch other names
  have hbefore : ∀ rest : List String, rest ⊆ derivedSiblingSuffixes → s ∉ rest → ∀ d, Finds db d p name p' name' s →
      Finds db
        (rest.foldl (fun db s => renameDerivedSibling db p (name ++ s) p' (name' ++ s)) d) p name p' name' s := by
    intro rest
    induction rest with
    | nil => exact fun _ _ d hd => hd
    | cons s' rest ih =>
      intro hsub hnot d hd
      obtain ⟨hss, hnot⟩ := List.ne_and_not_mem_of_not_mem_cons hnot
      exact ih (List.subset_of_cons_subset hsub) hnot _ (hd.round hne hs (hsub List.mem_cons_self) hss)
  have hafter : ∀ rest : List String, rest ⊆ derivedSiblingSuffixes → s ∉ rest → ∀ d, WellFormed d → p' < d.nextIno →
      (rest.foldl (fun db s => renameDerivedSibling db p (name ++ s) p' (name' ++ s)) d).childIno p' (name' ++ s) =
        d.childIno p' (name' ++ s) := by
    intro rest
    induction rest with
    | nil => exact fun _ _ d _ _ => rfl
    | cons s' rest ih =>
      intro hsub hnot d hd hpd
      obtain ⟨hss, hnot⟩ := List.ne_and_not_mem_of_not_mem_cons hnot
      have hself : Finds d d p name p' name' s := ⟨hd, hpd, rfl, rfl, rfl⟩
      have hround := hself.round hne hs (hsub List.mem_cons_self) hss
      exact (ih (List.subset_of_cons_subset hsub) hnot _ hround.wf hround.parent).trans hround.target
  obtain ⟨before, rest, hsplit⟩ := List.append_of_mem hs
  have hnodup : (before ++ s :: rest).Nodup := hsplit ▸ suffixes_nodup
  have hsub : before ++ s :: rest ⊆ derivedSiblingSuffixes := by rw [hsplit]; exact List.Subset.refl _
  have hfind := hbefore before (fun x hx => hsub (List.mem_append_left _ hx))
    (fun hx => (List.nodup_append.mp hnodup).2.2 s hx s List.mem_cons_self rfl) db ⟨hwf, hp, rfl, rfl, rfl⟩
  refine ⟨_, hfind, ?_⟩
  obtain ⟨hwf', hn⟩ := hfind.wf.renameDerived (p := p) hfind.parent (name ++ s) (name' ++ s)
  unfold cascadeRenameDerivedSiblings
  rw [hsplit, List.foldl_append, List.foldl_cons]
  exact hafter rest (fun x hx => hsub (List.mem_append_right _ (List.mem_cons_of_mem _ hx)))
    (List.nodup_cons.mp (List.nodup_append.mp hnodup).2.1).1 _ hwf' (hn ▸ hfind.parent)

/-- What a sibling moves to is gone in the end. -/
theorem taken_gone (hwf : WellFormed db) (hp : p' < db.nextIno) (hne : (p, name) ≠ (p', name'))
    (ht : Taken db p name p' name' e) : e ∉ (cascadeRenameDerivedSiblings db p name p' name').dentries := by
  obtain ⟨s, hs, hn, k, hk, hkd, hke⟩ := ht
  obtain ⟨d, hfind, hround⟩ := cascadeRename_round hwf hp hne hs
  have hwf' : WellFormed (renameDerivedSibling d p (name ++ s) p' (name' ++ s)) :=
    (hfind.wf.renameDerived hfind.parent _ _).1
  intro hm
  have hc : (cascadeRenameDerivedSiblings db p name p' name').childIno e.parentIno e.name = some e.ino :=
    (childIno_iff (hwf.cascadeRename hp).distinct).mpr hm
  rw [show e.parentIno = p' from congrArg Prod.fst hn, show e.name = name' ++ s from congrArg Prod.snd hn, hround,
    childIno_iff hwf'.distinct] at hc
  rcases round_moves (hfind.source.trans hk) ((isDerived_congr hfind.inodes).mpr hkd) (apart hne s) with hmem | hmem
  · exact ((hmem _).mp hc).2 rfl
  · rcases (hmem _).mp hc with ⟨-, hno, -⟩ | he
    · exact hno rfl
    · cases he
      exact hke rfl

/-- The rest stays. -/
theorem untaken_stays (hwf : WellFormed db) (hp : p' < db.nextIno) (hne : (p, name) ≠ (p', name'))
    (hm : e ∈ db.dentries)
    (ht : ¬ Taken db p name p' name' e) (hd : ¬ IsDerived db e.ino) :
    e ∈ (cascadeRenameDerivedSiblings db p name p' name').dentries := by
  refine cascadeRename_keeps (I := fun d => e ∈ d.dentries) hwf hp hne hm fun s hs d _ hI hrows hsrc _ => ?_
  by_cases hk : ∃ k, d.childIno p (name ++ s) = some k ∧ IsDerived d k
  · obtain ⟨k, hk, hkd⟩ := hk
    have hkd' : IsDerived db k := (isDerived_congr hrows).mp hkd
    have hke : k ≠ e.ino := fun he => hd (he ▸ hkd')
    have hname : nameOf e ≠ (p', name' ++ s) := fun hn => ht ⟨s, hs, hn, k, hsrc ▸ hk, hkd', hke⟩
    rcases round_moves hk hkd (apart hne s) with hmem | hmem
    · exact (hmem e).mpr ⟨hI, hname⟩
    · exact (hmem e).mpr (.inl ⟨hI, hname, hke.symm⟩)
  · rw [round_still fun k hc hkd => hk ⟨k, hc, hkd⟩]
    exact hI

/-- A new entry is a sibling's. -/
theorem landed_of_new (hwf : WellFormed db) (hp : p' < db.nextIno) (hne : (p, name) ≠ (p', name'))
    (hm : e ∈ (cascadeRenameDerivedSiblings db p name p' name').dentries) :
    e ∈ db.dentries ∨ Landed db p name p' name' e := by
  refine cascadeRename_keeps (I := fun d => ∀ e ∈ d.dentries, e ∈ db.dentries ∨ Landed db p name p' name' e) hwf hp hne
    (fun e he => .inl he) (fun s hs d _ hI hrows hsrc _ => ?_) e hm
  by_cases hk : ∃ k, d.childIno p (name ++ s) = some k ∧ IsDerived d k
  · obtain ⟨k, hk, hkd⟩ := hk
    rcases round_moves hk hkd (apart hne s) with hmem | hmem
    · exact fun e he => hI e ((hmem e).mp he).1
    · intro e he
      rcases (hmem e).mp he with ⟨he, -⟩ | rfl
      · exact hI e he
      · exact .inr ⟨s, hs, rfl, hsrc ▸ hk, (isDerived_congr hrows).mp hkd⟩
  · rw [round_still fun k hc hkd => hk ⟨k, hc, hkd⟩]
    exact hI

/-- An inode with a name that no sibling moves to keeps a name. -/
theorem stays_named (hwf : WellFormed db) (hp : p' < db.nextIno) (hne : (p, name) ≠ (p', name')) (hm : e ∈ db.dentries)
    (ht : ¬ Taken db p name p' name' e) :
    ∃ f ∈ (cascadeRenameDerivedSiblings db p name p' name').dentries, f.ino = e.ino := by
  have key : ∃ f ∈ (cascadeRenameDerivedSiblings db p name p' name').dentries, f.ino = e.ino ∧
      (f ∈ db.dentries ∧ ¬ Taken db p name p' name' f ∨ Landed db p name p' name' f) := by
    refine cascadeRename_keeps (I := fun d => ∃ f ∈ d.dentries, f.ino = e.ino ∧
      (f ∈ db.dentries ∧ ¬ Taken db p name p' name' f ∨ Landed db p name p' name' f)) hwf hp hne ⟨e, hm, rfl,
        .inl ⟨hm, ht⟩⟩
      fun s hs d _ hI hrows hsrc _ => ?_
    obtain ⟨f, hf, hfe, hwhere⟩ := hI
    by_cases hk : ∃ k, d.childIno p (name ++ s) = some k ∧ IsDerived d k
    · obtain ⟨k, hk, hkd⟩ := hk
      have hkdb : db.childIno p (name ++ s) = some k := hsrc ▸ hk
      have hkd' : IsDerived db k := (isDerived_congr hrows).mp hkd
      have hsrcMem : (⟨name ++ s, p, k⟩ : Dentry) ∈ d.dentries := childIno_some hk
      have hland : Landed db p name p' name' ⟨name' ++ s, p', k⟩ := ⟨s, hs, rfl, hkdb, hkd'⟩
      by_cases hke : k = e.ino
      · -- the sibling of this round: it moves, or its old entry is left
        rcases round_moves hk hkd (apart hne s) with hmem | hmem
        · exact ⟨_, (hmem _).mpr ⟨hsrcMem, apart hne s⟩, hke, .inl ⟨childIno_some hkdb, not_taken hne hs rfl⟩⟩
        · exact ⟨_, (hmem _).mpr (.inr rfl), hke, .inr hland⟩
      · have hname : nameOf f ≠ (p', name' ++ s) := by
          intro hn
          rcases hwhere with ⟨-, hnot⟩ | ⟨s', hs', hn', hchild, -⟩
          · exact hnot ⟨s, hs, hn, k, hkdb, hkd', fun he => hke (he.trans hfe)⟩
          · have hss : s = s' := suffixes_apart hs hs' (Prod.mk.inj (hn.symm.trans hn')).2
            rw [← hss, hkdb] at hchild
            exact hke ((Option.some.inj hchild).trans hfe)
        rcases round_moves hk hkd (apart hne s) with hmem | hmem
        · exact ⟨f, (hmem f).mpr ⟨hf, hname⟩, hfe, hwhere⟩
        · exact ⟨f, (hmem f).mpr (.inl ⟨hf, hname, fun he => hke (he.symm.trans hfe)⟩), hfe, hwhere⟩
    · rw [round_still fun k hc hkd => hk ⟨k, hc, hkd⟩]
      exact ⟨f, hf, hfe, hwhere⟩
  obtain ⟨f, hf, hfe, -⟩ := key
  exact ⟨f, hf, hfe⟩

theorem rename_frames_iff (hwf : WellFormed db) (hp : p' < db.nextIno) (hne : (p, name) ≠ (p', name')) :
    Frames db (cascadeRenameDerivedSiblings db p name p' name') ↔ Clear db p name p' name' := by
  have hinodes : (cascadeRenameDerivedSiblings db p name p' name').inodes = db.inodes :=
    cascadeRename_keeps (I := fun d => d.inodes = db.inodes) hwf hp hne rfl fun _ _ _ _ _ hrows _ _ =>
      renameDerived_inodes.trans hrows
  constructor
  · intro h e he ht
    have hd : IsDerived db e.ino := by
      by_contra hno
      exact taken_gone hwf hp hne ht (h.kept e he hno)
    refine ⟨hd, ?_⟩
    rcases h.named e he with ⟨f, hf, hfe⟩ | hgone
    · rcases landed_of_new hwf hp hne hf with hold | ⟨s, hs, -, hchild, -⟩
      · exact ⟨f, hold, hfe, fun htf => taken_gone hwf hp hne htf hf⟩
      · exact ⟨⟨name ++ s, p, f.ino⟩, childIno_some hchild, hfe, not_taken hne hs rfl⟩
    · obtain ⟨x, hx, -⟩ := hd
      rw [Db.getInode, hinodes] at hgone
      exact absurd (hx.symm.trans hgone) nofun
  · intro hclear
    have hsync : SameSync db (cascadeRenameDerivedSiblings db p name p' name') := cascadeRename_sameSync
    refine ⟨fun e he hno => ?_, fun e he hno => ?_, fun i _ => ⟨?_, ?_⟩, hsync.remotes, ?_, fun e he => .inl ?_⟩
    · exact untaken_stays hwf hp hne he (fun ht => hno (hclear e he ht).1) hno
    · rcases landed_of_new hwf hp hne he with hold | ⟨s, hs, -, -, hd⟩
      · exact absurd hold hno
      · exact hd
    · unfold Db.getInode
      rw [hinodes]
    · exact (Fs.cascadeRename_keeps (i := i)).chunks
    · refine cascadeRename_keeps (I := fun d => d.symlinks = db.symlinks) hwf hp hne rfl fun s _ d _ hI _ _ _ => ?_
      rcases renameDerived_cases d p (name ++ s) p' (name' ++ s) with he | ⟨x, -, -, he | hm⟩
      · rw [he]
        exact hI
      · rw [he]
        exact hI
      · exact (moveDentries_rows hm).2.2.1.trans hI
    · by_cases ht : Taken db p name p' name' e
      · obtain ⟨-, f, hf, hfe, hnot⟩ := hclear e he ht
        rw [← hfe]
        exact stays_named hwf hp hne hf hnot
      · exact stays_named hwf hp hne he ht

end Lemmas

/-! ### The calls -/

section Calls

variable {db mid : Db} {online : Bool} {nowMs : ℤ} {op : NameOp}

theorem unlink_of_checks {p : Ino} {name : String} {x : Inode} (h : Unlinks db p name x) :
    (unlink db online p name nowMs).2 = cascadeUnlinkDerivedSiblings
      (unlinkEnqueue (unlinkTables db p name x) online (childPath db p name) x.ino nowMs) p name := by
  unfold unlink
  rw [h.valid]
  dsimp only
  rw [if_neg (by simpa using h.profile), h.source]
  dsimp only
  rw [if_neg h.file]

theorem rename_of_checks {p p' : Ino} {name name' : String} {src : Inode} {r : Renamed}
    (h : Renames db p name p' name' src) (ht : renameTables db src p name p' name' = .ok (some r)) :
    (rename db online p name p' name' nowMs).2 = cascadeRenameDerivedSiblings (renamePush r online src.ino
      (childPath db p name) (childPath r.db p' name') (childPath db p' name') nowMs) p name p' name' := by
  obtain ⟨hc, hrow⟩ := childInode_named h.source
  obtain ⟨x, hx, hdir⟩ := h.parent
  unfold rename
  rw [h.valid.1, h.valid.2]
  dsimp only
  rw [hc, hx]
  dsimp only
  rw [if_neg (not_not.mpr hdir), hrow]
  dsimp only
  rw [ht]

theorem renameTables_ok {p p' : Ino} {name name' : String} {src : Inode} (h : Renames db p name p' name' src) :
    ∃ r, renameTables db src p name p' name' = .ok (some r) := by
  unfold renameTables
  cases hj : db.childIno p' name' with
  | none => exact ⟨_, rfl⟩
  | some j =>
    obtain ⟨hne, dst, hdst, hmay⟩ := h.replaced j hj
    dsimp only
    rw [if_neg hne, hdst]
    dsimp only
    rw [hmay]
    exact ⟨_, rfl⟩

/-- An unlink or a rename changes nothing before it gets as far as its cascade. -/
theorem hands_or_still (db : Db) (online : Bool) (nowMs : ℤ) :
    (∀ p name, (unlink db online p name nowMs).2 = db ∨ ∃ mid, Hands db online nowMs (.unlink p name) mid) ∧
      ∀ p name p' name', (rename db online p name p' name' nowMs).2 = db ∨
        ∃ mid, Hands db online nowMs (.rename p name p' name') mid := by
  constructor
  · intro p name
    rcases unlink_cases db online p name nowMs with he | ⟨x, q, hx, -⟩
    · exact .inl he
    · exact .inr ⟨_, .unlink hx⟩
  · intro p name p' name'
    rcases rename_cases db online p name p' name' nowMs with he | ⟨src, d, hr, -, -⟩
    · exact .inl he
    · obtain ⟨r, ht⟩ := renameTables_ok hr
      exact .inr ⟨_, .rename hr ht⟩

/-- Only derived entries change in the cascade, and every inode is left a name,
exactly where a rename finds the names clear that siblings move to. -/
theorem cascades_iff (hwf : WellFormed db) (h : Hands db online nowMs op mid) :
    Frames mid (op.apply db online nowMs).2 ↔ Clears mid op := by
  cases h with
  | @unlink p name x checks =>
    refine iff_of_true ?_ trivial
    show Frames _ (Fs.unlink db online p name nowMs).2
    rw [unlink_of_checks checks]
    obtain ⟨q, hq⟩ := unlinkEnqueue_cases (unlinkTables db p name x) online (childPath db p name) x.ino nowMs
    rw [hq]
    exact unlink_frames (hwf.unlinkTables (hwf.ne_root (childInode_named checks.source).1)).queue
  | @rename p p' name name' src r checks tables =>
    show Frames _ (Fs.rename db online p name p' name' nowMs).2 ↔ _
    rw [rename_of_checks checks tables]
    obtain ⟨hmid, hp, -, -⟩ := hwf.pushed checks (pushed_of_tables online nowMs tables)
    exact rename_frames_iff hmid hp checks.apart


/-- An image of the server that a transcription is known of. -/
private def image : Document := ⟨"A", some "/a.png", some [99], "done", "2026-01-01T00:00:00Z", some "image", none⟩

/-- The user's file loses its name. -/
theorem overwrites : ¬ ∀ (db mid : Db) (op : NameOp), Reach (step true) anyStep .fresh db → Hands db true 0 op mid →
    Frames mid (op.apply db true 0).2 := by
  intro hall
  obtain ⟨db, hreach, hdb⟩ : ∃ db, Reach (step true) anyStep .fresh db ∧ decide
      ((⟨"b.png.image-transcription.md", 1, 4⟩ : Dentry) ∈ db.dentries ∧
        (⟨"b.png.image-transcription.md", 1, 4⟩ : Dentry) ∈ (renamedTables db 1 "a.png" 1 "b.png").dentries ∧
        ((renamedTables db 1 "a.png" 1 "b.png").getInode 4).map Inode.derived = some false ∧
        (⟨"b.png.image-transcription.md", 1, 4⟩ : Dentry) ∉ (rename db true 1 "a.png" 1 "b.png" 0).2.dentries) = true :=
    Reach.exists_of_run [(0, .reconcileOne image), (0, .name (.createFile 1 "a.png")),
      (0, .name (.createFile 1 "b.png.image-transcription.md"))] (by decide)
  obtain ⟨hold, hmoved, hown, hgone⟩ := of_decide_eq_true hdb
  rcases (hands_or_still db true 0).2 1 "a.png" 1 "b.png" with he | ⟨mid, hm⟩
  · rw [he] at hgone
    exact hgone hold
  · have hframes := hall db mid _ hreach hm
    cases hm with
    | rename checks tables =>
      have hwf : WellFormed db := hreach.inv .start fun _ _ _ hI _ hst => step_wf hI hst
      obtain ⟨-, -, hdentries, hinodes⟩ := hwf.pushed checks (pushed_of_tables true 0 tables)
      refine hgone (hframes.kept _ (hdentries ▸ hmoved) ?_)
      rintro ⟨x, hx, hxd⟩
      rw [getInode, hinodes] at hx
      rw [getInode, hx] at hown
      exact absurd ((Option.some.inj hown).symm.trans hxd) nofun

/-- A transcription moves along to a free name. -/
theorem cascades_iff_moved : ∃ db mid, Hands db true 0 (.rename 1 "a.png" 1 "b.png") mid ∧
    Frames mid ((NameOp.rename 1 "a.png" 1 "b.png").apply db true 0).2 := by
  have hone : WellFormed (reconcileOne .fresh image 0).2 := reconcileOne_wf .start
  have hwf : WellFormed (createFile (reconcileOne .fresh image 0).2 true 1 "a.png").2 :=
    name_wf hone true 0 (.createFile 1 "a.png")
  have hchecks : Renames (createFile (reconcileOne .fresh image 0).2 true 1 "a.png").2 1 "a.png" 1 "b.png"
      ⟨3, .reg, 1, 0, none, false⟩ := by
    refine ⟨⟨rfl, rfl⟩, by decide, ⟨_, rfl, rfl⟩, fun j hj => ?_⟩
    have hnone : (createFile (reconcileOne .fresh image 0).2 true 1 "a.png").2.childIno 1 "b.png" = none := by decide
    rw [hnone] at hj
    cases hj
  have hfar : ∀ d ∈ (renamedTables (createFile (reconcileOne .fresh image 0).2 true 1 "a.png").2 1 "a.png" 1 "b.png").dentries,
      ∀ s ∈ derivedSiblingSuffixes, nameOf d ≠ (1, "b.png" ++ s) := by decide
  refine ⟨_, _, .rename hchecks rfl, (cascades_iff hwf (.rename hchecks rfl)).mpr fun d hd ht => ?_⟩
  obtain ⟨s, hs, hn, -⟩ := ht
  rw [(hwf.pushed hchecks (pushed_of_tables true 0 rfl)).2.2.1] at hd
  exact absurd hn (hfar d hd s hs)

end Calls

end Cascade
end Smfs
