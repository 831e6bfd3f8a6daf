/-
# What the listings and `lookup` agree on

`readdir` lists the entries of a directory by name, `readdir_plus` those whose
inode is there, and `lookup` asks the cache first. The profile is appended to
the listings of the root unless an entry has its name, and `lookup` finds it
under that name whatever entries there are. So the three agree exactly where
every entry has an inode and a valid name, the cache holds nothing else under a
name, and the entries of a root that has the profile sort before it (`Agree.Tidy`).

Key definitions: `Agree.Consistent`, `Agree.Tidy`.
Key theorems: `Agree.lookup_dir`, `Agree.consistent_iff`, `Agree.out_of_order`.
-/
import Smfs.Names.Coherence

namespace Smfs
namespace Agree

open Db Fs Trans Coherence
open Cache hiding step

/-- The names of a directory at which the profile stands. -/
def Virtual (v : Ambient) (dir : Ino) (name : String) : Prop := dir = ROOT_INO ∧ v.online = true ∧ name = PROFILE_NAME

instance (v : Ambient) (dir : Ino) (name : String) :
    Decidable (Virtual v dir name) := inferInstanceAs (Decidable (_ ∧ _))

/-- The names of a listing and the profile's, where it is to be appended. -/
def withProfile (v : Ambient) (dir : Ino) (names : List String) : List String :=
  if dir = ROOT_INO ∧ v.online = true ∧ PROFILE_NAME ∉ names then names ++ [PROFILE_NAME] else names

/-- The listings of a directory have the same names, in increasing order, the
attributes are those that `lookup` answers, and what it answers is listed; so is
the profile, if there is one. -/
structure Consistent (s : SupermemoryFs) (v : Ambient) (dir : Ino) : Prop where
  listed : ∃ names entries, readdir s.db v dir = some names ∧ readdirPlus s.db v dir = some entries ∧
    names = entries.map DirEntry.name ∧ names.Pairwise (fun a b => bytesOf a < bytesOf b) ∧
    (∀ e ∈ entries, (s.lookup v dir e.name).1 = .ok (some e.attr)) ∧
    (∀ name attr, (s.lookup v dir name).1 = .ok (some attr) → name ∈ names) ∧
    (dir = ROOT_INO → v.profileFile.isSome = true → PROFILE_NAME ∈ names)

/-- What the listings of a directory ask of the tables and of the cache. -/
structure Tidy (s : SupermemoryFs) (v : Ambient) (dir : Ino) : Prop where
  /-- Every entry has an inode and a valid name, but for one under the name of the profile. -/
  whole : ∀ d ∈ s.db.dentries, d.parentIno = dir → ¬ Virtual v dir d.name →
    validateName d.name = .ok () ∧ (s.db.getInode d.ino).isSome = true
  /-- The cache holds the inode of the entry, or none that is there. -/
  cached : ∀ name i, validateName name = .ok () → ¬ Virtual v dir name → s.dentryCache.peek (dir, name) = some i →
    s.db.childIno dir name = some i ∨ s.db.childIno dir name = none ∧ s.db.getInode i = none
  /-- The profile sorts last, and no inode has its name. -/
  profile : dir = ROOT_INO → v.online = true → ∀ d ∈ s.db.dentries, d.parentIno = dir →
    if d.name = PROFILE_NAME then s.db.getInode d.ino = none else bytesOf d.name < bytesOf PROFILE_NAME

section Lemmas

variable {s : SupermemoryFs} {db : Db} {v : Ambient} {dir i : Ino} {name : String} {x : Inode} {attr : FileAttr}

/-! ### Lookups in a directory -/

theorem lookup_virtual (h : Virtual v dir name) : (s.lookup v dir name).1 = .ok (some v.profileAttr) := by
  obtain ⟨rfl, hon, rfl⟩ := h
  unfold SupermemoryFs.lookup Ambient.profileFile
  rw [show validateName PROFILE_NAME = .ok () by decide, if_pos ⟨rfl, rfl⟩, if_pos hon]

/-- What is not the profile is looked for in the cache and then in the tables. -/
theorem lookup_dir (hx : s.db.getInode dir = some x) (hd : x.kind = .dir) (hv : validateName name = .ok ())
    (hn : ¬ Virtual v dir name) : (s.lookup v dir name).1 = .ok (match s.dentryCache.peek (dir, name) with
      | some i => attrOf s.db v i
      | none => (s.db.childIno dir name).bind fun i => attrOf s.db v i) := by
  have hprofile : (if dir = ROOT_INO ∧ name = PROFILE_NAME then v.profileFile else none) = none := by
    split_ifs with hname
    · unfold Ambient.profileFile
      exact if_neg fun hon => hn ⟨hname.1, hon, hname.2⟩
    · rfl
  have hget : (s.dentryCache.get (dir, name)).1 = s.dentryCache.peek (dir, name) := Lru.get_fst
  unfold SupermemoryFs.lookup
  rw [hv, hprofile]
  dsimp only
  rw [hx]
  dsimp only
  rw [if_neg (not_not.mpr hd), ← hget]
  generalize s.dentryCache.get (dir, name) = found
  obtain ⟨o, cache⟩ := found
  cases o with
  | some i => rfl
  | none => cases s.db.childIno dir name <;> rfl

theorem valid_of_lookup {o : Option FileAttr} (h : (s.lookup v dir name).1 = .ok o) : validateName name = .ok () := by
  unfold SupermemoryFs.lookup at h
  cases hv : validateName name with
  | error e =>
    rw [hv] at h
    cases h
  | ok _ => rfl

theorem attrOf_some (h : attrOf db v i = some attr) : attr.ino = i ∧ (db.getInode i).isSome = true := by
  obtain ⟨y, hy, rfl⟩ := Option.map_eq_some_iff.mp h
  exact ⟨getInode_ino hy, by rw [hy]; rfl⟩

theorem attrOf_isSome (h : (db.getInode i).isSome = true) : ∃ attr, attrOf db v i = some attr := by
  obtain ⟨y, hy⟩ := Option.isSome_iff_exists.mp h
  exact ⟨_, congrArg (Option.map _) hy⟩

theorem attrOf_none (h : db.getInode i = none) : attrOf db v i = none := congrArg (Option.map _) h

/-! ### Listings of a directory -/

theorem readdir_dir (hx : db.getInode dir = some x) (hd : x.kind = .dir) : readdir db v dir =
    some (withProfile v dir ((entriesOf db dir).map Dentry.name)) := by
  unfold readdir withProfile
  rw [hx]
  dsimp only
  rw [if_neg (not_not.mpr hd)]
  generalize (entriesOf db dir).map Dentry.name = names
  by_cases hsome : names ≠ [] ∨ v.online = false
  · rw [if_pos hsome]
    split_ifs <;> rfl
  · rw [if_neg hsome]
    push Not at hsome
    rw [hsome.1]
    by_cases hroot : dir = ROOT_INO ∧ v.online = true
    · rw [if_pos hroot, if_pos ⟨hroot.1, hroot.2, List.not_mem_nil⟩]
      rfl
    · rw [if_neg hroot, if_neg fun h => hroot ⟨h.1, h.2.1⟩]

theorem readdirPlus_dir (hx : db.getInode dir = some x) (hd : x.kind = .dir) :
    readdirPlus db v dir = some (appendProfile v dir (queryDirEntries db v dir)) := by
  have hsome : ∃ entries, readdirPlus db v dir = some entries := by
    unfold readdirPlus
    rw [hx]
    dsimp only
    rw [if_neg (not_not.mpr hd)]
    split_ifs <;> exact ⟨_, rfl⟩
  obtain ⟨entries, he⟩ := hsome
  rw [he, readdirPlus_eq he]

theorem mem_queryDirEntries {e : DirEntry} : e ∈ queryDirEntries db v dir ↔
    ∃ d ∈ db.dentries, d.parentIno = dir ∧ d.name = e.name ∧ attrOf db v d.ino = some e.attr := by
  unfold queryDirEntries
  rw [List.mem_filterMap]
  constructor
  · rintro ⟨d, hd, he⟩
    obtain ⟨attr, ha, rfl⟩ := Option.map_eq_some_iff.mp he
    obtain ⟨hmem, hp⟩ := mem_entriesOf.mp hd
    exact ⟨d, hmem, hp, rfl, ha⟩
  · rintro ⟨d, hmem, hp, hn, ha⟩
    refine ⟨d, mem_entriesOf.mpr ⟨hmem, hp⟩, ?_⟩
    rw [ha, Option.map_some, hn]

theorem mem_names : name ∈ (entriesOf db dir).map Dentry.name ↔ ∃ d ∈ db.dentries, d.parentIno = dir ∧
    d.name = name := by
  rw [List.mem_map]
  exact exists_congr fun d => by rw [mem_entriesOf, and_assoc]

theorem mem_withProfile {names : List String} : name ∈ withProfile v dir names ↔ name ∈ names ∨ Virtual v dir name := by
  unfold withProfile Virtual
  split_ifs with h
  · rw [List.mem_append, List.mem_singleton]
    exact or_congr Iff.rfl ⟨fun hn => ⟨h.1, h.2.1, hn⟩, fun hn => hn.2.2⟩
  · refine ⟨.inl, fun hn => hn.elim id fun hv => ?_⟩
    by_contra hno
    exact h ⟨hv.1, hv.2.1, hv.2.2 ▸ hno⟩

/-- A listing is increasing with the profile exactly if it is without, and sorts before the profile. -/
theorem withProfile_sorted {names : List String} (h : names.Pairwise fun a b => bytesOf a < bytesOf b)
    (hlt : dir = ROOT_INO → v.online = true → ∀ n ∈ names, n ≠ PROFILE_NAME → bytesOf n < bytesOf PROFILE_NAME) :
    (withProfile v dir names).Pairwise fun a b => bytesOf a < bytesOf b := by
  unfold withProfile
  split_ifs with hp
  · refine List.pairwise_append.mpr ⟨h, List.pairwise_singleton _ _, fun a ha b hb => ?_⟩
    rw [List.mem_singleton.mp hb]
    exact hlt hp.1 hp.2.1 a ha fun he => hp.2.2 (he ▸ ha)
  · exact h

theorem appendProfile_mem {entries : List DirEntry} {e : DirEntry} (h : e ∈ entries) :
    e ∈ appendProfile v dir entries := by
  unfold appendProfile
  split_ifs
  · cases v.profileFile with
    | none => exact h
    | some attr => exact List.mem_append_left _ h
  · exact h

/-- What `append_profile` adds is the profile. -/
theorem appendProfile_new {entries : List DirEntry} {e : DirEntry} (h : e ∈ appendProfile v dir entries) :
    e ∈ entries ∨ Virtual v dir e.name ∧ e.attr = v.profileAttr := by
  unfold appendProfile Ambient.profileFile at h
  split_ifs at h with hp hon
  · rcases List.mem_append.mp h with h | h
    · exact .inl h
    · rw [List.mem_singleton.mp h]
      exact .inr ⟨⟨hp.1, hon, rfl⟩, rfl⟩
  · exact .inl h
  · exact .inl h

theorem appendProfile_names (entries : List DirEntry) :
    (appendProfile v dir entries).map DirEntry.name = withProfile v dir (entries.map DirEntry.name) := by
  have hany : (entries.any fun e => e.name = PROFILE_NAME) = false ↔ PROFILE_NAME ∉ entries.map DirEntry.name := by
    rw [List.any_eq_false, List.mem_map]
    push Not
    exact forall₂_congr fun e _ => by simp
  unfold appendProfile withProfile Ambient.profileFile
  by_cases hp : dir = ROOT_INO ∧ (entries.any fun e => e.name = PROFILE_NAME) = false
  · rw [if_pos hp]
    by_cases hon : v.online = true
    · rw [if_pos hon, if_pos ⟨hp.1, hon, hany.mp hp.2⟩]
      exact List.map_append
    · rw [if_neg hon, if_neg fun h => hon h.2.1]
  · rw [if_neg hp, if_neg fun h => hp ⟨h.1, hany.mpr h.2.2⟩]

theorem queryNames_sublist : ((queryDirEntries db v dir).map DirEntry.name).Sublist ((entriesOf db dir).map Dentry.name) := by
  unfold queryDirEntries
  rw [List.map_filterMap]
  induction entriesOf db dir with
  | nil => exact .slnil
  | cons d ds ih =>
    rw [List.filterMap_cons, List.map_cons]
    cases attrOf db v d.ino with
    | none => exact ih.cons _
    | some attr => exact ih.cons_cons _

theorem entryNames_sorted (dir : Ino) (h : WellFormed db) :
    ((entriesOf db dir).map Dentry.name).Pairwise fun a b => bytesOf a < bytesOf b :=
  List.pairwise_map.mpr (entriesOf_lt h.distinct)

theorem eq_of_names {names names' : List String} (h : names.Pairwise fun a b => bytesOf a < bytesOf b)
    (h' : names'.Pairwise fun a b => bytesOf a < bytesOf b) (hmem : ∀ n, n ∈ names ↔ n ∈ names') : names = names' := by
  have hasymm : Std.Asymm fun a b : String => bytesOf a < bytesOf b := ⟨fun _ _ hab hba => List.lt_asymm hab hba⟩
  have hirrefl : Std.Irrefl fun a b : String => bytesOf a < bytesOf b := ⟨fun _ h => List.lt_irrefl _ h⟩
  exact h.eq_of_mem_iff h' hmem

/-! ### Both directions -/

theorem Tidy.consistent (h : Tidy s v dir) (hwf : WellFormed s.db) (hx : s.db.getInode dir = some x)
    (hd : x.kind = .dir) :
    Consistent s v dir := by
  obtain ⟨hwhole, hcached, hprofile⟩ := h
  have hsorted := entryNames_sorted dir hwf
  have hbefore : dir = ROOT_INO → v.online = true → ∀ n ∈ (entriesOf s.db dir).map Dentry.name, n ≠ PROFILE_NAME →
      bytesOf n < bytesOf PROFILE_NAME := by
    intro hroot hon n hn hne
    obtain ⟨d, hm, hp, rfl⟩ := mem_names.mp hn
    have hd := hprofile hroot hon d hm hp
    rwa [if_neg hne] at hd
  have hlookup {name : String} (hv : validateName name = .ok ()) (hn : ¬ Virtual v dir name) :
      (s.lookup v dir name).1 = .ok ((s.db.childIno dir name).bind fun i => attrOf s.db v i) := by
    rw [lookup_dir hx hd hv hn]
    cases hpeek : s.dentryCache.peek (dir, name) with
    | none => rfl
    | some i =>
      rcases hcached name i hv hn hpeek with hc | ⟨hc, hgone⟩
      · rw [hc]
        rfl
      · rw [hc]
        exact congrArg Except.ok (attrOf_none hgone)
  -- the two listings have the same names
  have hquery : ∀ n, n ∈ (queryDirEntries s.db v dir).map DirEntry.name →
      n ∈ (entriesOf s.db dir).map Dentry.name := fun n hn => queryNames_sublist.subset hn
  have hnames : withProfile v dir ((entriesOf s.db dir).map Dentry.name) =
      withProfile v dir ((queryDirEntries s.db v dir).map DirEntry.name) := by
    refine eq_of_names (withProfile_sorted hsorted hbefore)
      (withProfile_sorted (hsorted.sublist queryNames_sublist) fun hroot hon n hn =>
        hbefore hroot hon n (hquery n hn)) ?_
    intro n
    rw [mem_withProfile, mem_withProfile]
    refine ⟨fun hn => ?_, fun hn => hn.imp_left (hquery n)⟩
    by_cases hvirtual : Virtual v dir n
    · exact .inr hvirtual
    · obtain ⟨d, hm, hp, rfl⟩ := mem_names.mp (hn.resolve_right hvirtual)
      obtain ⟨attr, ha⟩ := attrOf_isSome (v := v) (hwhole d hm hp hvirtual).2
      exact .inl (List.mem_map.mpr ⟨⟨d.name, attr⟩, mem_queryDirEntries.mpr ⟨d, hm, hp, rfl, ha⟩, rfl⟩)
  refine ⟨_, _, readdir_dir hx hd, readdirPlus_dir hx hd, ?_, withProfile_sorted hsorted hbefore, ?_, ?_, ?_⟩
  · rw [appendProfile_names, hnames]
  · intro e he
    by_cases hvirtual : Virtual v dir e.name
    · rw [lookup_virtual hvirtual]
      rcases appendProfile_new he with he | ⟨-, he⟩
      · obtain ⟨d, hm, hp, hn, ha⟩ := mem_queryDirEntries.mp he
        have hgone := hprofile hvirtual.1 hvirtual.2.1 d hm hp
        rw [if_pos (hn.trans hvirtual.2.2)] at hgone
        rw [attrOf_none hgone] at ha
        cases ha
      · rw [he]
    · rcases appendProfile_new he with he | ⟨hno, -⟩
      · obtain ⟨d, hm, hp, hn, ha⟩ := mem_queryDirEntries.mp he
        rw [← hn] at hvirtual ⊢
        rw [hlookup (hwhole d hm hp hvirtual).1 hvirtual, ← hp, childIno_mem hwf.distinct hm, Option.bind_some, ha]
      · exact absurd hno hvirtual
  · intro name attr ha
    refine mem_withProfile.mpr ?_
    by_cases hvirtual : Virtual v dir name
    · exact .inr hvirtual
    · rw [hlookup (valid_of_lookup ha) hvirtual] at ha
      obtain ⟨i, hi, -⟩ := Option.bind_eq_some_iff.mp (Except.ok.inj ha)
      exact .inl (mem_names.mpr ⟨_, childIno_some hi, rfl, rfl⟩)
  · intro hroot hsome
    refine mem_withProfile.mpr (.inr ⟨hroot, ?_, rfl⟩)
    unfold Ambient.profileFile at hsome
    by_contra hon
    rw [if_neg hon] at hsome
    cases hsome

theorem Consistent.tidy (h : Consistent s v dir) (hwf : WellFormed s.db) (hrow : s.db.nextIno ≤ 2 ^ 63)
    (hx : s.db.getInode dir = some x) (hd : x.kind = .dir) : Tidy s v dir := by
  obtain ⟨names, entries, hnames, hentries, hsame, hsorted, hattr, hlisted, -⟩ := h.listed
  rw [readdir_dir hx hd] at hnames
  rw [readdirPlus_dir hx hd] at hentries
  obtain rfl := Option.some.inj hnames
  obtain rfl := Option.some.inj hentries
  have hquery {e : DirEntry} (he : e ∈ queryDirEntries s.db v dir) : (s.lookup v dir e.name).1 = .ok (some e.attr) :=
    hattr e (appendProfile_mem he)
  -- an entry that is listed is listed with its attributes
  have hentry : ∀ d ∈ s.db.dentries, d.parentIno = dir → ¬ Virtual v dir d.name →
      ∃ attr, attrOf s.db v d.ino = some attr ∧ (⟨d.name, attr⟩ : DirEntry) ∈ queryDirEntries s.db v dir := by
    intro d hm hp hvirtual
    have hn : d.name ∈ withProfile v dir ((entriesOf s.db dir).map Dentry.name) :=
      mem_withProfile.mpr (.inl (mem_names.mpr ⟨d, hm, hp, rfl⟩))
    rw [hsame, appendProfile_names] at hn
    obtain ⟨e, he, hen⟩ := List.mem_map.mp ((mem_withProfile.mp hn).resolve_right hvirtual)
    obtain ⟨d', hm', hp', hn', ha⟩ := mem_queryDirEntries.mp he
    have hino : d'.ino = d.ino := by
      have hc := childIno_mem hwf.distinct hm
      have hc' := childIno_mem hwf.distinct hm'
      rw [hp', hn', hen, ← hp] at hc'
      exact Option.some.inj (hc'.symm.trans hc)
    rw [hino] at ha
    exact ⟨e.attr, ha, hen ▸ he⟩
  have hunnamed : dir = ROOT_INO → v.online = true → ∀ d ∈ s.db.dentries, d.parentIno = dir → d.name = PROFILE_NAME →
      s.db.getInode d.ino = none := by
    intro hroot hon d hm hp hn
    rw [← Option.not_isSome_iff_eq_none]
    intro hsome
    obtain ⟨attr, ha⟩ := attrOf_isSome (v := v) hsome
    have he : (⟨d.name, attr⟩ : DirEntry) ∈ queryDirEntries s.db v dir := mem_queryDirEntries.mpr ⟨d, hm, hp, rfl, ha⟩
    have hlook := hquery he
    rw [lookup_virtual ⟨hroot, hon, hn⟩] at hlook
    -- the number of the profile is no row id
    have hino : PROFILE_INO = d.ino := by
      rw [← (attrOf_some ha).1]
      exact congrArg FileAttr.ino (Option.some.inj (Except.ok.inj hlook))
    have hlt : d.ino < 2 ^ 63 := (hwf.bounded.dentries d hm).trans_le hrow
    rw [← hino] at hlt
    exact absurd hlt (by decide)
  refine ⟨fun d hm hp hvirtual => ?_, fun name i hv hvirtual hpeek => ?_, fun hroot hon d hm hp => ?_⟩
  · obtain ⟨attr, ha, he⟩ := hentry d hm hp hvirtual
    exact ⟨valid_of_lookup (hquery he), (attrOf_some ha).2⟩
  · have hlook := lookup_dir hx hd hv hvirtual
    rw [hpeek] at hlook
    dsimp only at hlook
    cases hc : s.db.childIno dir name with
    | none =>
      refine .inr ⟨rfl, ?_⟩
      rw [← Option.not_isSome_iff_eq_none]
      intro hsome
      obtain ⟨attr, ha⟩ := attrOf_isSome (v := v) hsome
      rw [ha] at hlook
      obtain ⟨d, hm, hp, hn⟩ := mem_names.mp ((mem_withProfile.mp (hlisted name attr hlook)).resolve_right hvirtual)
      exact childIno_none hc hm (Prod.ext hp hn)
    | some j =>
      left
      obtain ⟨attr, ha, he⟩ := hentry _ (childIno_some hc) rfl hvirtual
      have hi : attrOf s.db v i = some attr := Except.ok.inj (hlook.symm.trans (hquery he))
      exact congrArg some ((attrOf_some ha).1.symm.trans (attrOf_some hi).1)
  · split_ifs with hn
    · exact hunnamed hroot hon d hm hp hn
    · have hvirtual : ¬ Virtual v dir d.name := fun hv => hn hv.2.2
      obtain ⟨attr, -, he⟩ := hentry d hm hp hvirtual
      have hno : PROFILE_NAME ∉ (queryDirEntries s.db v dir).map DirEntry.name := by
        intro hmem
        obtain ⟨e, he, hen⟩ := List.mem_map.mp hmem
        obtain ⟨d', hm', hp', hn', ha⟩ := mem_queryDirEntries.mp he
        rw [attrOf_none (hunnamed hroot hon d' hm' hp' (hn'.trans hen))] at ha
        cases ha
      rw [hsame, appendProfile_names] at hsorted
      unfold withProfile at hsorted
      rw [if_pos ⟨hroot, hon, hno⟩] at hsorted
      exact (List.pairwise_append.mp hsorted).2.2 d.name
        (List.mem_map.mpr ⟨_, he, rfl⟩) PROFILE_NAME (List.mem_singleton.mpr rfl)

end Lemmas

section Run

/-- **In every state that a run reaches, whatever the capacity of the cache, the
listings and the lookups of a directory agree exactly where it is tidy.** -/
theorem consistent_iff (cap : ℕ) (hcap : 0 < cap) (online : Bool) (s : SupermemoryFs)
    (hs : Reach (step online) anyStep (start cap hcap) s) (hrow : s.db.nextIno ≤ 2 ^ 63) (v : Ambient)
    (dir : Ino) (x : Inode)
    (hx : s.db.getInode dir = some x) (hd : x.kind = .dir) : Consistent s v dir ↔ Tidy s v dir := by
  have hwf : WellFormed s.db := reachable_wf (reachable_tables hs)
  exact ⟨fun h => h.tidy hwf hrow hx hd, fun h => h.consistent hwf hx hd⟩

/-- What a call reads besides the tables, with a client and no text of the profile. -/
private def noText : Ambient := ⟨true, fun _ => ⟨0, 0, 0, (0, 0), (0, 0), (0, 0), 0⟩, none, (0, 0)⟩

/-- A root with the profile and a file that sorts before it. -/
theorem consistent_iff_file : ∃ s, Reach (step true) anyStep (start 1 Nat.one_pos) s ∧
    readdir s.db noText 1 = some ["a", "profile.md"] ∧ Consistent s noText 1 := by
  have hrun : Reach (step true) anyStep (start 1 Nat.one_pos) ((start 1 Nat.one_pos).createFile true 1 "a").2 :=
    Reach.start.next (a := (0, .name (.createFile 1 "a"))) trivial rfl
  have hone : ∀ d ∈ ((start 1 Nat.one_pos).createFile true 1 "a").2.db.dentries, d = ⟨"a", 1, 2⟩ := by decide
  refine ⟨_, hrun, by decide, (consistent_iff 1 Nat.one_pos true _ hrun (by decide) noText 1
    ⟨1, .dir, 2, 0, none, false⟩
    (by decide) rfl).mpr ⟨fun d hd _ _ => ?_, fun name i _ _ hi => ?_, fun _ _ d hd _ => ?_⟩⟩
  · rw [hone d hd]
    exact ⟨by decide, by decide⟩
  · have hcache : ((start 1 Nat.one_pos).createFile true 1 "a").2.dentryCache.entries = [((1, "a"), 2)] := by decide
    obtain ⟨e, he, rfl⟩ := Option.map_eq_some_iff.mp hi
    obtain ⟨hmem, hkey⟩ := Table.get_some he
    rw [hcache, List.mem_singleton] at hmem
    subst hmem
    obtain rfl : "a" = name := congrArg Prod.snd hkey
    exact .inl (by decide)
  · rw [hone d hd]
    decide

/-- A file whose name sorts after that of the profile. -/
theorem out_of_order : ¬ ∀ (cap : ℕ) (hcap : 0 < cap) (s : SupermemoryFs),
    Reach (step true) anyStep (start cap hcap) s →
    ∀ v dir x, s.db.getInode dir = some x → x.kind = .dir → v.online = true → Consistent s v dir := by
  intro hall
  have hrun : Reach (step true) anyStep (start 1 Nat.one_pos) ((start 1 Nat.one_pos).createFile true 1 "z").2 :=
    Reach.start.next (a := (0, .name (.createFile 1 "z"))) trivial rfl
  obtain ⟨names, -, hnames, -, -, hsorted, -⟩ :=
    (hall 1 Nat.one_pos _ hrun noText 1 ⟨1, .dir, 2, 0, none, false⟩ (by decide) rfl rfl).listed
  obtain rfl : ["z", "profile.md"] = names := Option.some.inj (Eq.trans (by decide) hnames)
  exact absurd hsorted (by decide)

end Run

end Agree
end Smfs
