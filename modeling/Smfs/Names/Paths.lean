/-
# The path of an inode

The walk of `resolve_filepath` passes each entry once, so its bound never cuts
it short: an inode has a path exactly if its way up ends at the root, and where
the loop of the walk ends the path is what it ends with. The path stays as long
as the entries on the way do; a rename that moves an entry moves the paths of
the inodes under it and no others.

Key definitions: `Cache.upOf`, `Cache.Passes`.
Key theorems: `Cache.resolve_iff`, `Cache.resolve_of_resolves`, `Cache.resolve_congr`, `Cache.resolve_renamed`.
-/
import Smfs.Lib.Climb
import Smfs.Names.Rooted

namespace Smfs
namespace Cache

open Db Fs Climb Relation

/-- The parent of an inode, and its name there. -/
def upOf (db : Db) (i : Ino) : Option (Ino × String) := (db.dentryOf i).map fun d => (d.parentIno, d.name)

/-- The way up from an inode passes the other one. -/
abbrev Passes (db : Db) : Ino → Ino → Prop := ReflTransGen fun a b => ∃ n, upOf db a = some (b, n)

section Lemmas

variable {db db' : Db} {i j p p' : Ino} {name name' : String} {parts : List String}

/-! ### The way of an inode -/

theorem resolveParts_eq {n : ℕ} : resolveParts db n i = climb ROOT_INO (upOf db) n i := by
  induction n generalizing i with
  | zero => rfl
  | succ n ih =>
    unfold resolveParts climb upOf
    split_ifs
    · rfl
    · cases db.dentryOf i with
      | none => rfl
      | some d =>
        dsimp only [Option.map_some]
        rw [ih]
        rfl

/-- The bound of the walk is never met. -/
theorem way_length (h : Way ROOT_INO (upOf db) i parts) : parts.length ≤ db.dentries.length := by
  have hall : ∀ k, (upOf db k).isSome = true → k ∈ db.dentries.map Dentry.ino := by
    intro k hk
    unfold upOf at hk
    rw [Option.isSome_map] at hk
    obtain ⟨d, hd⟩ := Option.isSome_iff_exists.mp hk
    obtain ⟨hmem, rfl⟩ := Table.get_some hd
    exact List.mem_map_of_mem hmem
  have hlen := h.length_le hall
  rwa [List.length_map] at hlen

/-- An inode has the path that its way up passes. -/
theorem resolve_iff {path : String} :
    resolveFilepath db i = some path ↔ ∃ parts, Way ROOT_INO (upOf db) i parts ∧ pathOf parts = path := by
  unfold resolveFilepath
  constructor
  · intro h
    split_ifs at h with hroot
    · cases h
      rw [hroot]
      exact ⟨[], .root, rfl⟩
    · obtain ⟨parts, hparts, rfl⟩ := Option.map_eq_some_iff.mp h
      rw [resolveParts_eq] at hparts
      exact ⟨parts, (climb_iff.mp hparts).1, rfl⟩
  · rintro ⟨parts, hway, rfl⟩
    split_ifs with hroot
    · subst hroot
      rw [hway.unique .root]
      rfl
    · have hclimb : climb ROOT_INO (upOf db) db.dentries.length i = some parts := climb_iff.mpr ⟨hway, way_length hway⟩
      rw [resolveParts_eq, hclimb]
      rfl

/-- Where the loop of `resolve_filepath` ends, it has passed the way up, if there is one. -/
theorem way_of_resolves {o : Option (List String)} (h : Resolves db i o) :
    ∀ parts, o = some parts ↔ Way ROOT_INO (upOf db) i parts := by
  induction h with
  | root =>
    intro parts
    constructor
    · rintro ⟨⟩
      exact .root
    · intro hway
      rw [hway.unique .root]
  | lost hc hd =>
    intro parts
    constructor
    · rintro ⟨⟩
    · intro hway
      cases hway with
      | root => exact absurd rfl hc
      | step _ hup =>
        rw [upOf, hd] at hup
        cases hup
  | @up current d o hc hd _ ih =>
    have hup : upOf db current = some (d.parentIno, d.name) := by simp [upOf, hd]
    intro parts
    constructor
    · intro ho
      obtain ⟨names, hnames, rfl⟩ := Option.map_eq_some_iff.mp ho
      exact .step hc hup ((ih names).mp hnames)
    · intro hway
      cases hway with
      | root => exact absurd rfl hc
      | step _ hup' hrest =>
        rw [hup] at hup'
        cases hup'
        simp [(ih _).mpr hrest]

/-- `resolve_filepath` is what its loop ends with. -/
theorem resolve_of_resolves {o : Option (List String)} (h : Resolves db i o) : resolveFilepath db i = o.map pathOf := by
  refine Option.ext fun path => ?_
  rw [resolve_iff]
  constructor
  · rintro ⟨parts, hway, rfl⟩
    simp [(way_of_resolves h parts).mpr hway]
  · intro ho
    obtain ⟨parts, hparts, rfl⟩ := Option.map_eq_some_iff.mp ho
    exact ⟨parts, (way_of_resolves h parts).mp hparts, rfl⟩

/-- The path stays where the entries on the way do. -/
theorem resolve_congr {P : Ino → Prop} (hi : P i) (hP : ∀ k q n, P k → upOf db k = some (q, n) → P q)
    (hup : ∀ k, P k → upOf db' k = upOf db k) : resolveFilepath db' i = resolveFilepath db i := by
  refine Option.ext fun path => ?_
  rw [resolve_iff, resolve_iff]
  have hP' : ∀ k q n, P k → upOf db' k = some (q, n) → P q := by
    intro k q n hk hq
    rw [hup k hk] at hq
    exact hP k q n hk hq
  constructor
  · rintro ⟨parts, hway, rfl⟩
    exact ⟨parts, hway.congr hi hP' fun k hk => (hup k hk).symm, rfl⟩
  · rintro ⟨parts, hway, rfl⟩
    exact ⟨parts, hway.congr hi hP hup, rfl⟩

/-- The names on the way lead down to the inode. -/
theorem stands_append {q last : Ino} (h : Stands db q parts p) (hc : db.childIno p name = some last) :
    Stands db q (parts ++ [name]) last := by
  induction parts generalizing q with
  | nil => exact ⟨last, (show q = p from h) ▸ hc, rfl⟩
  | cons part parts ih =>
    obtain ⟨k, hk, hrest⟩ := h
    exact ⟨k, hk, ih hrest⟩

theorem child_of_up (hwf : WellFormed db) (h : upOf db i = some (p, name)) : db.childIno p name = some i := by
  obtain ⟨d, hd, he⟩ := Option.map_eq_some_iff.mp h
  cases he
  obtain ⟨hmem, rfl⟩ := Table.get_some hd
  exact childIno_mem hwf.distinct hmem

theorem stands_of_way (hwf : WellFormed db) (h : Way ROOT_INO (upOf db) i parts) : Stands db ROOT_INO parts i := by
  induction h with
  | root => rfl
  | step _ hup _ ih => exact stands_append ih (child_of_up hwf hup)

/-! ### Entries that come -/

/-- Entries come, and all of new inodes. -/
def Grows (db db' : Db) : Prop := ∃ new, db'.dentries = db.dentries ++ new ∧ ∀ d ∈ new, db.nextIno ≤ d.ino

theorem Grows.upOf {k : Ino} (h : Grows db db') (hk : k < db.nextIno) : upOf db' k = upOf db k := by
  obtain ⟨new, hd, hnew⟩ := h
  have hnone : Table.get Dentry.ino new k = none :=
    Table.get_none.mpr fun d hm he => absurd (hnew d hm) (not_le.mpr (he ▸ hk))
  unfold Cache.upOf Db.dentryOf
  rw [hd, Table.get_append, hnone, Option.or_none]

/-! ### Entries that move -/

theorem dentryOf_moveChild {k : Ino} (hk : ∀ d ∈ db.dentries, nameOf d = (p, name) → d.ino ≠ k) :
    (moveChild db p name p' name').dentryOf k = db.dentryOf k := by
  rw [moveChild_eq]
  show Table.get Dentry.ino (Table.modify nameOf db.dentries (p, name) _) k = Table.get Dentry.ino db.dentries k
  exact Table.find?_modify (fun _ => rfl) fun d hd he => decide_eq_false (hk d hd he)

theorem dentryOf_delChild {k : Ino} (hk : ∀ d ∈ db.dentries, nameOf d = (p, name) → d.ino ≠ k) :
    (db.delChild p name).dentryOf k = db.dentryOf k := by
  rw [delChild_eq]
  show Table.get Dentry.ino (Table.erase nameOf db.dentries (p, name)) k = Table.get Dentry.ino db.dentries k
  exact Table.find?_erase fun d hd he => decide_eq_false (hk d hd he)

theorem upOf_renamed {src : Inode} {k : Ino} (hwf : WellFormed db) (hr : Renames db p name p' name' src)
    (hsrc : k ≠ src.ino) (hdst : db.childIno p' name' ≠ some k) :
    upOf (renamedTables db p name p' name') k = upOf db k := by
  have hmoved : ∀ d ∈ db.dentries, nameOf d = (p, name) → d.ino ≠ k := by
    rintro ⟨n, q, i⟩ hd he rfl
    cases he
    have hchild := (childIno_iff hwf.distinct).mpr hd
    rw [(childInode_named hr.source).1] at hchild
    cases hchild
    exact hsrc rfl
  have hgone : ∀ d ∈ db.dentries, nameOf d = (p', name') → d.ino ≠ k := by
    rintro ⟨n, q, i⟩ hd he rfl
    cases he
    exact hdst ((childIno_iff hwf.distinct).mpr hd)
  unfold renamedTables upOf
  cases hj : db.childIno p' name' with
  | none =>
    dsimp only
    rw [dentryOf_moveChild hmoved]
  | some j =>
    have hdel : (Fs.purge (db.delChild p' name') j).dentryOf k = db.dentryOf k := dentryOf_delChild hgone
    have hmoved' : ∀ d ∈ (Fs.purge (db.delChild p' name') j).dentries, nameOf d = (p, name) → d.ino ≠ k :=
      fun d hd he => hmoved d (mem_delChild.mp hd).1 he
    dsimp only
    rw [dentryOf_moveChild hmoved', hdel]

theorem Passes.up {k q : Ino} {n : String} (h : Passes db q i) (hup : upOf db k = some (q, n)) : Passes db k i :=
  .head ⟨n, hup⟩ h

/-- An inode without entries is passed by its own way only. -/
theorem Passes.bare (h : Passes db i j) (hb : Bare db j) : i = j := by
  rcases ReflTransGen.cases_tail h with he | ⟨k, -, n, hup⟩
  · exact he.symm
  · obtain ⟨d, hd, he⟩ := Option.map_eq_some_iff.mp hup
    cases he
    exact absurd rfl (hb d (Table.get_some hd).1)

/-- A rename leaves the paths of the inodes alone that do not lie under what it
moves; what it replaces has no entries. -/
theorem resolve_renamed {src : Inode} (hwf : WellFormed db) (hr : Renames db p name p' name' src)
    (hbare : ∀ j, db.childIno p' name' = some j → Bare db j) (hi : ¬ Passes db i src.ino)
    (hdst : db.childIno p' name' ≠ some i) :
    resolveFilepath (renamedTables db p name p' name') i = resolveFilepath db i := by
  refine resolve_congr (P := fun k => ¬ Passes db k src.ino ∧ db.childIno p' name' ≠ some k) ⟨hi, hdst⟩ ?_ ?_
  · rintro k q n ⟨hk, -⟩ hq
    refine ⟨fun hpass => hk (hpass.up hq), fun hj => ?_⟩
    obtain ⟨d, hd, he⟩ := Option.map_eq_some_iff.mp hq
    cases he
    exact hbare d.parentIno hj d (Table.get_some hd).1 rfl
  · rintro k ⟨hk, hkd⟩
    exact upOf_renamed hwf hr (fun he => hk (he ▸ .refl)) hkd

end Lemmas

end Cache
end Smfs
