/-
# A directory in pages while it is emptied

`rm -r` removes what it has been handed, and asks for more. The NFS mount looks
for the entry with the last file id, which may be gone; the FUSE mount counts
entries, and a removal moves the others up. A request continues where the last
one ended exactly if the entry is where the mount looks for it, or if no entry
that was handed over is gone (`Emptying.Resumes`); a run in which every request
does returns every entry that stays, once.

Key definitions: `Emptying.Enumeration`, `Emptying.step`, `Emptying.Resumes`, `Emptying.Delivers`.
Key theorems: `Emptying.sights_shrink`, `Emptying.step_inv`, `Emptying.survives`, `Emptying.loses`.
-/
import Smfs.Listing
import Smfs.Names.Routes

namespace Smfs
namespace Emptying

open Db Fs Cache Trans

/-- What tells one entry of a directory from another: its name and its inode. -/
abbrev Sight := String × Ino

def sight (e : DirEntry) : Sight := (e.name, e.attr.ino)

/-- The entries of the tables whose inodes stand. -/
def tableSights (db : Db) (dir : Ino) : List Sight :=
  ((entriesOf db dir).filter fun d => (db.getInode d.ino).isSome).map fun d => (d.name, d.ino)

/-- What a directory lists. -/
def sights (db : Db) (online : Bool) (dir : Ino) : List Sight :=
  if dir = ROOT_INO ∧ online = true ∧ PROFILE_NAME ∉ (tableSights db dir).map Prod.fst
  then tableSights db dir ++ [(PROFILE_NAME, PROFILE_INO)] else tableSights db dir

/-- Which mount hands the directory over. -/
inductive Scheme
  | nfs
  | fuse
  deriving DecidableEq

/-- A request from a cookie: the entries it returns, the cookie of the next
one, and whether it was the last. FUSE ends with an empty reply. -/
def Scheme.call (db : Db) (v : Ambient) (dir cookie n : ℕ) : Scheme → Option (List Sight × ℕ × Bool)
  | .nfs => (Nfs.readdir db v dir cookie n).map fun r =>
      (r.entries.map sight, (r.entries.getLast?.map Nfs.fileid).getD cookie, r.isEnd)
  | .fuse => (Fuse.readdir db v dir cookie n).map fun page =>
      (page.map fun e => sight e.1, (page.getLast?.map Prod.snd).getD cookie, page.isEmpty)

/-- A directory that is being enumerated: what has been returned, the cookie of
the next request, the entries that have stood from the start on. -/
structure Enumeration where
  db : Db
  out : List Sight
  cookie : ℕ
  standing : List Sight
  calls : ℕ
  ended : Bool

inductive Act
  | call (v : Ambient) (n : ℕ)
  | unlink (name : String) (nowMs : ℤ)
  | rmdir (name : String)

/-- The tables change; what is gone has not stood from the start on. -/
def Enumeration.removed (s : Enumeration) (online : Bool) (dir : Ino) (db : Db) : Enumeration :=
  { s with db := db, standing := s.standing.filter fun x => x ∈ sights db online dir }

/-- A request, until the end is reported, or a removal of what was returned. -/
def step (m : Scheme) (online : Bool) (dir : Ino) (s : Enumeration) : Act → Option Enumeration
  | .call v n =>
    if s.ended = true ∨ v.online ≠ online ∨ n = 0 then none
    else (m.call s.db v dir s.cookie n).map fun r =>
      { s with out := s.out ++ r.1, cookie := r.2.1, calls := s.calls + 1, ended := r.2.2 }
  | .unlink name nowMs =>
    if name ∈ s.out.map Prod.fst then some (s.removed online dir (Fs.unlink s.db online dir name nowMs).2) else none
  | .rmdir name =>
    if name ∈ s.out.map Prod.fst then some (s.removed online dir (Fs.rmdir s.db dir name).2) else none

def Enumeration.start (db : Db) (online : Bool) (dir : Ino) : Enumeration :=
  ⟨db, [], 0, sights db online dir, 0, false⟩

/-- The mount finds its place: over NFS the first entry with the last file id is
the last one returned that still stands, or there is none and nothing is left;
over FUSE all that was returned still stands, or nothing is left. -/
def Resumes (m : Scheme) (online : Bool) (dir : Ino) (s : Enumeration) : Prop :=
  match m with
  | .nfs =>
    if s.cookie = 0 then Cursor.behind s.out (sights s.db online dir) = []
    else Cursor.InPlace Prod.snd s.cookie s.out (sights s.db online dir)
  | .fuse => Cursor.Counts s.out (sights s.db online dir)

/-- Every request finds its place. -/
def ok (m : Scheme) (online : Bool) (dir : Ino) (s : Enumeration) : Act → Prop
  | .call _ _ => Resumes m online dir s
  | _ => True

instance {m : Scheme} {online : Bool} {dir : Ino} {s : Enumeration} : Decidable (Resumes m online dir s) :=
  match m with
  | .nfs => inferInstanceAs (Decidable (if s.cookie = 0 then Cursor.behind s.out (sights s.db online dir) = []
      else Cursor.InPlace Prod.snd s.cookie s.out (sights s.db online dir)))
  | .fuse => inferInstanceAs (Decidable (Cursor.Counts _ _))

instance {m : Scheme} {online : Bool} {dir : Ino} : DecidableRel (ok m online dir)
  | _, .call _ _ => inferInstanceAs (Decidable (Resumes _ _ _ _))
  | _, .unlink _ _ => isTrue trivial
  | _, .rmdir _ => isTrue trivial

/-- Of a directory that listed `first`: nothing is returned twice, and once the
end is reported all that has stood from the start on has been returned. The
requests come to an end. -/
structure Delivers (first : List Sight) (s : Enumeration) : Prop where
  once : s.out.Nodup
  all : s.ended = true → ∀ x ∈ s.standing, x ∈ s.out
  ends : s.calls ≤ first.length + 2

/-- The entries that a request hands over begin these. -/
def Scheme.rest (cookie : ℕ) (xs : List Sight) : Scheme → List Sight
  | .nfs => if cookie > 0 then Cursor.after Prod.snd cookie xs else xs
  | .fuse => xs.drop cookie

/-- Entries go, and inodes. -/
structure Dwindles (db db' : Db) : Prop where
  dentries : db'.dentries.Sublist db.dentries
  inodes : ∀ i, (db'.getInode i).isSome = true → (db.getInode i).isSome = true

section Lemmas

variable {m : Scheme} {db db' : Db} {online : Bool} {dir : Ino} {v : Ambient} {cookie n : ℕ} {out : List Sight}

/-! ### What a directory lists -/

theorem tableSights_eq : (queryDirEntries db v dir).map sight = tableSights db dir := by
  unfold queryDirEntries tableSights
  induction entriesOf db dir with
  | nil => rfl
  | cons d ds ih =>
    rw [List.filterMap_cons, List.filter_cons]
    cases hd : db.getInode d.ino with
    | none =>
      have hattr : attrOf db v d.ino = none := by rw [attrOf, hd, Option.map_none]
      rw [hattr]
      exact ih
    | some i =>
      have hattr : attrOf db v d.ino = some (rowToAttr i (v.columns d.ino)) := by rw [attrOf, hd, Option.map_some]
      have hi : (rowToAttr i (v.columns d.ino)).ino = d.ino := getInode_ino hd
      rw [hattr, Option.map_some, Option.isSome_some, if_pos rfl, List.map_cons, List.map_cons, ih, sight, hi]

theorem sights_eq {entries : List DirEntry} (h : readdirPlus db v dir = some entries) :
    entries.map sight = sights db v.online dir := by
  rw [readdirPlus_eq h]
  have hnames : (queryDirEntries db v dir).any (fun e => e.name = PROFILE_NAME) = false ↔
      PROFILE_NAME ∉ (tableSights db dir).map Prod.fst := by
    rw [← tableSights_eq (v := v), List.map_map, List.any_eq_false, List.mem_map]
    simp only [decide_eq_true_iff]
    constructor
    · rintro hall ⟨e, he, hn⟩
      exact hall e he hn
    · exact fun hno e he hn => hno ⟨e, he, hn⟩
  unfold appendProfile sights Ambient.profileFile
  by_cases hroot : dir = ROOT_INO ∧ PROFILE_NAME ∉ (tableSights db dir).map Prod.fst
  · rw [if_pos ⟨hroot.1, hnames.mpr hroot.2⟩]
    by_cases hon : v.online = true
    · rw [if_pos hon, if_pos ⟨hroot.1, hon, hroot.2⟩]
      exact List.map_append.trans (congrArg (· ++ _) tableSights_eq)
    · rw [if_neg hon, if_neg fun h => hon h.2.1]
      exact tableSights_eq
  · rw [if_neg fun h => hroot ⟨h.1, hnames.mp h.2⟩, if_neg fun h => hroot ⟨h.1, h.2.2⟩]
    exact tableSights_eq

theorem mem_tableSights {x : Sight} (h : x ∈ tableSights db dir) : ∃ d ∈ db.dentries, d.ino = x.2 := by
  obtain ⟨d, hd, rfl⟩ := List.mem_map.mp h
  exact ⟨d, (mem_entriesOf.mp (List.mem_of_mem_filter hd)).1, rfl⟩

theorem profile_not_table (hrow : ∀ d ∈ db.dentries, d.ino < 2 ^ 63) :
    (PROFILE_NAME, PROFILE_INO) ∉ tableSights db dir := by
  intro h
  obtain ⟨d, hd, he⟩ := mem_tableSights h
  have hlt := hrow d hd
  rw [he] at hlt
  exact absurd hlt (by decide)

theorem tableSights_nodup (h : (db.dentries.map nameOf).Nodup) : ((tableSights db dir).map Prod.fst).Nodup := by
  unfold tableSights
  rw [List.map_map]
  have hlt := (entriesOf_lt (p := dir) h).sublist (List.filter_sublist (p := fun d => (db.getInode d.ino).isSome))
  refine List.pairwise_map.mpr (hlt.imp fun {a b} hab he => ?_)
  have he : a.name = b.name := he
  rw [he] at hab
  exact List.lt_irrefl _ hab

theorem sights_nodup (h : (db.dentries.map nameOf).Nodup) : (sights db online dir).Nodup := by
  have htable : (tableSights db dir).Nodup := List.Nodup.of_map _ (tableSights_nodup h)
  unfold sights
  split_ifs with hprofile
  · refine List.Nodup.append htable (List.nodup_singleton _) fun x hx hmem => ?_
    rw [List.mem_singleton.mp hmem] at hx
    exact hprofile.2.2 (List.mem_map_of_mem hx)
  · exact htable

/-! ### Removals -/

theorem Dwindles.refl (db : Db) : Dwindles db db := ⟨List.Sublist.refl _, fun _ h => h⟩

theorem Dwindles.trans {db'' : Db} (h : Dwindles db db') (h' : Dwindles db' db'') : Dwindles db db'' :=
  ⟨h'.dentries.trans h.dentries, fun i hi => h.inodes i (h'.inodes i hi)⟩

theorem Dwindles.delChild (db : Db) (p : Ino) (name : String) :
    Dwindles db (db.delChild p name) := ⟨List.filter_sublist, fun _ h => h⟩

theorem Dwindles.delInode {i : Ino} : Dwindles db (db.delInode i) := by
  refine ⟨List.Sublist.refl _, fun j hj => ?_⟩
  rw [getInode_delInode] at hj
  split_ifs at hj
  · cases hj
  · exact hj

theorem Dwindles.updNlink {i : Ino} {f : ℤ → ℤ} :
    Dwindles db (db.updInode i fun x => { x with nlink := f x.nlink }) := by
  refine ⟨List.Sublist.refl _, fun j hj => ?_⟩
  have hf : ∀ x : Inode, ({ x with nlink := f x.nlink } : Inode).ino = x.ino := fun _ => rfl
  rw [getInode_updInode hf] at hj
  split_ifs at hj with he
  · rw [Option.isSome_map] at hj
    rwa [he]
  · exact hj

theorem Dwindles.purge {i : Ino} : Dwindles db (Fs.purge db i) :=
  (⟨List.Sublist.refl _, fun _ h => h⟩ : Dwindles db (((db.delData i).delSymlink i).deleteRemoteId i)).trans .delInode

theorem Dwindles.removeDerived {p : Ino} {name : String} : Dwindles db (removeDerivedSibling db p name) := by
  unfold removeDerivedSibling
  split
  · exact .refl db
  · rename_i x hx
    split_ifs
    · have hpurge := (Dwindles.delChild db p name).trans (.delInode (i := x.ino))
      exact hpurge.trans ⟨List.Sublist.refl _, fun _ h => h⟩
    · exact .refl db

theorem cascade_dwindles {p : Ino} {name : String} : Dwindles db (cascadeUnlinkDerivedSiblings db p name) := by
  unfold cascadeUnlinkDerivedSiblings
  exact foldl_keeps Dwindles.refl (fun h h' => h.trans h') (fun _ _ _ => .removeDerived) _

theorem unlink_dwindles {name : String} {nowMs : ℤ} : Dwindles db (Fs.unlink db online dir name nowMs).2 := by
  rcases unlink_cases db online dir name nowMs with he | ⟨x, q, -, he⟩
  · rw [he]
    exact .refl db
  · have htables : Dwindles db (unlinkTables db dir name x) := by
      unfold unlinkTables
      dsimp only
      have hdel := (Dwindles.delChild db dir name).trans
        (.updNlink (i := x.ino) (f := fun n => n - 1))
      split_ifs
      · exact hdel.trans .purge
      · exact hdel
    rw [he]
    have hqueue : Dwindles (unlinkTables db dir name x) { unlinkTables db dir name x with queue := q } :=
      ⟨List.Sublist.refl _, fun _ h => h⟩
    exact (htables.trans hqueue).trans cascade_dwindles

theorem rmdir_dwindles {name : String} : Dwindles db (Fs.rmdir db dir name).2 := by
  rcases rmdir_cases db dir name with he | ⟨x, -, -, -, -, he⟩
  · rw [he]
    exact .refl db
  · rw [he]
    exact ((Dwindles.delChild ..).trans .delInode).trans (.updNlink (f := fun n => max (n - 1) 2))

theorem tableSights_sublist (h : (db.dentries.map nameOf).Nodup) (hd : Dwindles db db') :
    (tableSights db' dir).Sublist (tableSights db dir) := by
  refine List.Sublist.map _ ?_
  exact (List.monotone_filter_right _ fun d hi => hd.inodes d.ino hi).trans ((entriesOf_sublist h hd.dentries).filter _)

/-- **A removal takes entries from what a directory lists.** The profile may
come in where a directory of its name was removed. -/
theorem sights_shrink (h : (db.dentries.map nameOf).Nodup) (hrow : ∀ d ∈ db.dentries, d.ino < 2 ^ 63)
    (hd : Dwindles db db')
    (hprofile : (PROFILE_NAME, PROFILE_INO) ∈ out → (PROFILE_NAME, PROFILE_INO) ∈ sights db online dir) :
    Cursor.Shrinks out (sights db online dir) (sights db' online dir) ∧
      ((PROFILE_NAME, PROFILE_INO) ∈ out → (PROFILE_NAME, PROFILE_INO) ∈ sights db' online dir) := by
  have hsub : (tableSights db' dir).Sublist (tableSights db dir) := tableSights_sublist h hd
  have hnames : PROFILE_NAME ∉ (tableSights db dir).map Prod.fst → PROFILE_NAME ∉ (tableSights db' dir).map Prod.fst :=
    fun hno hm => hno ((hsub.map Prod.fst).subset hm)
  unfold sights at hprofile ⊢
  by_cases hnew : dir = ROOT_INO ∧ online = true ∧ PROFILE_NAME ∉ (tableSights db dir).map Prod.fst
  · have hnew' := hnames hnew.2.2
    rw [if_pos hnew, if_pos ⟨hnew.1, hnew.2.1, hnew'⟩]
    refine ⟨⟨_, [], hsub.append (List.Sublist.refl _), (List.append_nil _).symm, fun _ hx => (nomatch hx)⟩, fun _ => ?_⟩
    exact List.mem_append_right _ List.mem_cons_self
  · rw [if_neg hnew] at hprofile ⊢
    have hout : (PROFILE_NAME, PROFILE_INO) ∉ out := fun hm => profile_not_table hrow (hprofile hm)
    refine ⟨?_, fun hm => absurd hm hout⟩
    split_ifs
    · refine ⟨_, _, hsub, rfl, fun x hx => ?_⟩
      rwa [List.mem_singleton.mp hx]
    · exact ⟨_, [], hsub, (List.append_nil _).symm, fun _ hx => (nomatch hx)⟩

/-- What is listed after a removal was listed before, or is the profile. -/
theorem mem_sights {x : Sight} (h : (db.dentries.map nameOf).Nodup) (hd : Dwindles db db')
    (hx : x ∈ sights db' online dir) :
    x ∈ sights db online dir ∨ x = (PROFILE_NAME, PROFILE_INO) := by
  have htable : x ∈ tableSights db' dir → x ∈ sights db online dir := by
    intro hm
    have hm := (tableSights_sublist h hd).subset hm
    unfold sights
    split_ifs
    · exact List.mem_append_left _ hm
    · exact hm
  unfold sights at hx
  split_ifs at hx
  · exact (List.mem_append.mp hx).imp htable List.mem_singleton.mp
  · exact .inl (htable hx)

/-! ### Requests -/

theorem after_sights (cookie : ℕ) {entries : List DirEntry} {xs : List Sight} (h : entries.map sight = xs) :
    (Nfs.resume cookie entries).map sight = if cookie > 0 then Cursor.after Prod.snd cookie xs else xs := by
  unfold Nfs.resume
  rw [← h]
  split_ifs
  · exact (@Cursor.after_map _ _ _ _ Nfs.fileid _ _ Prod.snd sight fun _ => rfl).symm
  · rfl

/-- The offset after a page. -/
theorem page_offset {entries : List DirEntry} :
    (((((entries.zipIdx 1).drop cookie).take n).getLast?.map Prod.snd).getD cookie) =
      cookie + (((entries.zipIdx 1).drop cookie).take n).length := by
  obtain ⟨page, hpage⟩ : ∃ page, ((entries.zipIdx 1).drop cookie).take n = page := ⟨_, rfl⟩
  rw [hpage]
  rcases Nat.eq_zero_or_pos page.length with hzero | hpos
  · rw [List.length_eq_zero_iff.mp hzero]
    rfl
  · have hlen := congrArg List.length hpage
    simp only [List.length_take, List.length_drop, List.length_zipIdx] at hlen
    have hlast : page.getLast? = (entries.zipIdx 1)[cookie + (page.length - 1)]? := by
      rw [List.getLast?_eq_getElem?, ← hpage, List.getElem?_take_of_lt, List.getElem?_drop]
      rw [hpage]
      omega
    rw [hlast, List.getElem?_zipIdx, List.getElem?_eq_getElem (by omega)]
    simp only [Option.map_some, Option.getD_some]
    omega

/-- **What a request returns**, and the offset of the next one. -/
theorem call_eq {r : List Sight × ℕ × Bool} (hn : n ≠ 0) (h : m.call db v dir cookie n = some r) :
    r.1 = (m.rest cookie (sights db v.online dir)).take n ∧
      (r.2.2 = true → (m.rest cookie (sights db v.online dir)).length ≤ n) ∧ (r.2.2 = false → r.1 ≠ []) ∧
      (m = .fuse → r.2.1 = cookie + r.1.length) := by
  cases m with
  | nfs =>
    unfold Scheme.call at h
    rw [Nfs.readdir_eq, Option.map_map] at h
    obtain ⟨entries, he, rfl⟩ := Option.map_eq_some_iff.mp h
    have hrest := after_sights cookie (sights_eq he)
    unfold Scheme.rest
    rw [← hrest]
    dsimp only [Function.comp_apply]
    refine ⟨List.map_take, fun hend => ?_, fun hend hnil => ?_, fun hm => (nomatch hm)⟩
    · rw [List.length_map]
      exact of_decide_eq_true hend
    · have hmore := of_decide_eq_false hend
      have hzero := congrArg List.length hnil
      rw [List.length_map, List.length_take, List.length_nil] at hzero
      omega
  | fuse =>
    unfold Scheme.call Fuse.readdir at h
    rw [Option.map_map] at h
    obtain ⟨entries, he, rfl⟩ := Option.map_eq_some_iff.mp h
    have hrest : (((entries.zipIdx 1).drop cookie).take n).map (fun e => sight e.1) =
        ((sights db v.online dir).drop cookie).take n := by
      have hall : (entries.zipIdx 1).map (fun e => sight e.1) = entries.map sight := by
        conv_rhs => rw [← List.zipIdx_map_fst 1 entries, List.map_map]
        rfl
      rw [← sights_eq he, ← hall, List.map_take, List.map_drop]
    unfold Scheme.rest
    dsimp only [Function.comp_apply]
    refine ⟨hrest, fun hend => ?_, fun hend hnil => ?_, fun _ => ?_⟩
    · have hnil := congrArg List.length (List.isEmpty_iff.mp hend)
      have hlen := congrArg List.length hrest
      rw [List.length_map, hnil, List.length_nil, List.length_take] at hlen
      omega
    · rw [List.map_eq_nil_iff.mp hnil] at hend
      cases hend
    · rw [List.length_map]
      exact page_offset

/-- A request continues where the last one ended exactly if the mount finds its place. -/
theorem rest_iff {s : Enumeration} (h : Cursor.Reading s.out (sights s.db online dir))
    (hoff : m = .fuse → s.cookie = s.out.length) :
    m.rest s.cookie (sights s.db online dir) = Cursor.ahead s.out (sights s.db online dir) ↔
      Resumes m online dir s := by
  cases m with
  | nfs =>
    unfold Scheme.rest Resumes
    dsimp only
    by_cases hpos : s.cookie = 0
    · rw [if_neg (by omega), if_pos hpos]
      constructor
      · intro he
        have hsplit := h.split
        rw [← he] at hsplit
        exact List.self_eq_append_left.mp hsplit
      · intro hnil
        have hsplit := h.split
        rwa [hnil, List.nil_append] at hsplit
    · rw [if_pos (Nat.pos_of_ne_zero hpos), if_neg hpos]
      exact h.after_iff
  | fuse =>
    unfold Scheme.rest Resumes
    rw [hoff rfl]
    exact h.drop_iff

end Lemmas

/-! ### Runs -/

/-- What holds of an enumeration of a directory that listed `first`, while every request finds its place. -/
structure Inv (m : Scheme) (online : Bool) (dir : Ino) (first : List Sight) (s : Enumeration) : Prop where
  wf : WellFormed s.db
  row : ∀ d ∈ s.db.dentries, d.ino < 2 ^ 63
  reading : Cursor.Reading s.out (sights s.db online dir)
  profile : (PROFILE_NAME, PROFILE_INO) ∈ s.out → (PROFILE_NAME, PROFILE_INO) ∈ sights s.db online dir
  listed : ∀ x, x ∈ s.out ∨ x ∈ sights s.db online dir → x ∈ first ∨ x = (PROFILE_NAME, PROFILE_INO)
  offset : m = .fuse → s.cookie = s.out.length
  standing : ∀ x ∈ s.standing, x ∈ sights s.db online dir
  all : s.ended = true → ∀ x ∈ s.standing, x ∈ s.out
  calls : s.calls ≤ s.out.length + s.ended.toNat

section Run

variable {m : Scheme} {db : Db} {online : Bool} {dir : Ino} {first : List Sight} {s t : Enumeration}

theorem Inv.start (hwf : WellFormed db) (hrow : db.nextIno ≤ 2 ^ 63) :
    Inv m online dir (sights db online dir) (.start db online dir) where
  wf := hwf
  row := fun d hd => (hwf.bounded.dentries d hd).trans_le hrow
  reading := .start (sights_nodup hwf.distinct)
  profile := fun hm => (nomatch hm)
  listed := fun _ hx => .inl (hx.resolve_left List.not_mem_nil)
  offset := fun _ => rfl
  standing := fun _ hx => hx
  all := fun he => (nomatch he)
  calls := Nat.zero_le _

/-- A removal of whatever there is. -/
theorem Inv.removed {db' : Db} (h : Inv m online dir first s) (hd : Dwindles s.db db') (hwf : WellFormed db') :
    Inv m online dir first (s.removed online dir db') := by
  obtain ⟨hshrink, hprofile⟩ := sights_shrink h.wf.distinct h.row hd h.profile
  refine ⟨hwf, fun d hm => h.row d (hd.dentries.subset hm), ?_, hprofile, ?_, h.offset, ?_, ?_, h.calls⟩
  · exact h.reading.shrinks hshrink (sights_nodup hwf.distinct)
  · rintro x (hx | hx)
    · exact h.listed x (.inl hx)
    · rcases mem_sights h.wf.distinct hd hx with hx | hx
      · exact h.listed x (.inr hx)
      · exact .inr hx
  · exact fun x hx => of_decide_eq_true (List.mem_filter.mp hx).2
  · exact fun he x hx => h.all he x (List.mem_filter.mp hx).1

/-- **A request that finds its place hands over the next entries.** -/
theorem Inv.call {v : Ambient} {n : ℕ} {r : List Sight × ℕ × Bool} (h : Inv m v.online dir first s) (hn : n ≠ 0)
    (hok : Resumes m v.online dir s) (hr : m.call s.db v dir s.cookie n = some r) (hgoes : s.ended = false) :
    Inv m v.online dir first { s with out := s.out ++ r.1, cookie := r.2.1, calls := s.calls + 1, ended := r.2.2 } := by
  obtain ⟨hpage, hend, hmore, hoff⟩ := call_eq hn hr
  rw [(rest_iff h.reading h.offset).mpr hok] at hpage hend
  obtain ⟨hreading, hahead⟩ := h.reading.hand n
  rw [← hpage] at hreading hahead
  refine ⟨h.wf, h.row, hreading, ?_, ?_, ?_, h.standing, ?_, ?_⟩
  · intro hm
    rcases List.mem_append.mp hm with hm | hm
    · exact h.profile hm
    · rw [hpage] at hm
      exact (Cursor.mem_ahead.mp (List.mem_of_mem_take hm)).1
  · rintro x (hx | hx)
    · rcases List.mem_append.mp hx with hx | hx
      · exact h.listed x (.inl hx)
      · rw [hpage] at hx
        exact h.listed x (.inr (Cursor.mem_ahead.mp (List.mem_of_mem_take hx)).1)
    · exact h.listed x (.inr hx)
  · intro hm
    rw [hoff hm, h.offset hm, List.length_append]
  · intro he x hx
    -- nothing is left ahead, so what stands has been handed over
    have hnil : Cursor.ahead (s.out ++ r.1) (sights s.db v.online dir) = [] := by
      rw [hahead]
      exact List.drop_eq_nil_iff.mpr (hend he)
    by_contra hno
    have hmem := Cursor.mem_ahead.mpr ⟨h.standing x hx, hno⟩
    rw [hnil] at hmem
    cases hmem
  · have hcalls := h.calls
    rw [hgoes] at hcalls
    simp only [Bool.toNat_false, Nat.add_zero] at hcalls
    rw [List.length_append]
    cases he : r.2.2
    · have hpos := List.length_pos_iff.mpr (hmore he)
      simp only [Bool.toNat_false]
      omega
    · simp only [Bool.toNat_true]
      omega

theorem step_inv {a : Act} (h : Inv m online dir first s) (hok : ok m online dir s a)
    (hst : step m online dir s a = some t) :
    Inv m online dir first t := by
  cases a with
  | call v n =>
    unfold step at hst
    dsimp only at hst
    split_ifs at hst with hgo
    push Not at hgo
    obtain ⟨r, hr, rfl⟩ := Option.map_eq_some_iff.mp hst
    obtain ⟨hgoes, rfl, hn⟩ := hgo
    exact h.call hn hok hr (Bool.eq_false_iff.mpr hgoes)
  | unlink name nowMs =>
    unfold step at hst
    dsimp only at hst
    split_ifs at hst
    cases hst
    have hwf : WellFormed (Fs.unlink s.db online dir name nowMs).2 := name_wf h.wf online nowMs (.unlink dir name)
    exact h.removed unlink_dwindles hwf
  | rmdir name =>
    unfold step at hst
    dsimp only at hst
    split_ifs at hst
    cases hst
    have hwf : WellFormed (Fs.rmdir s.db dir name).2 := name_wf h.wf online 0 (.rmdir dir name)
    exact h.removed rmdir_dwindles hwf

theorem Inv.delivers (h : Inv m online dir first s) : Delivers first s := by
  refine ⟨h.reading.once, h.all, ?_⟩
  have hsub : s.out ⊆ first ++ [(PROFILE_NAME, PROFILE_INO)] := fun x hx =>
    List.mem_append.mpr ((h.listed x (.inl hx)).imp_right List.mem_singleton.mpr)
  have hlen := (List.subperm_of_subset h.reading.once hsub).length_le
  rw [List.length_append, List.length_singleton] at hlen
  have hcalls := h.calls
  have hbool := s.ended.toNat_le
  omega

/-- **Every run of requests and removals in which each request finds its place
returns what stays, once, and ends; and a request returns the next entries
exactly if it finds its place.** Row ids of SQLite end before `2 ^ 63`. -/
theorem survives (m : Scheme) (online : Bool) (dir : Ino) (hdb : Reach (routeStep online) anyStep .fresh db)
    (hrow : db.nextIno ≤ 2 ^ 63) : ∀ s, Reach (step m online dir) (ok m online dir) (.start db online dir) s →
      Delivers (sights db online dir) s ∧ ∀ v n t, step m online dir s (.call v n) = some t →
        (t.out = s.out ++ (Cursor.ahead s.out (sights s.db online dir)).take n ↔ Resumes m online dir s) := by
  intro s hs
  have hinv : Inv m online dir (sights db online dir) s :=
    hs.inv (.start (reachable_wf hdb) hrow) fun _ _ _ hI hok hst => step_inv hI hok hst
  refine ⟨hinv.delivers, fun v n t hst => ?_⟩
  unfold step at hst
  dsimp only at hst
  split_ifs at hst with hgo
  push Not at hgo
  obtain ⟨r, hr, rfl⟩ := Option.map_eq_some_iff.mp hst
  obtain ⟨-, rfl, hn⟩ := hgo
  dsimp only
  rw [(call_eq hn hr).1, List.append_right_inj, ← rest_iff hinv.reading hinv.offset]
  have hrest : m.rest s.cookie (sights s.db v.online dir) <:+ sights s.db v.online dir := by
    cases m with
    | nfs =>
      unfold Scheme.rest
      dsimp only
      split_ifs
      · exact Cursor.after_suffix
      · exact List.suffix_refl _
    | fuse => exact List.drop_suffix _ _
  have hahead : Cursor.ahead s.out (sights s.db v.online dir) <:+ sights s.db v.online dir :=
    ⟨_, hinv.reading.split.symm⟩
  exact Cursor.take_eq_iff (Nat.pos_of_ne_zero hn) hinv.reading.distinct hrest hahead

/-- A view without a client; all files alike. -/
private def plain : Ambient := ⟨false, fun _ => ⟨0o644, 0, 0, (0, 0), (0, 0), (0, 0), 0⟩, none, (0, 0)⟩

private def made : List (ℤ × Route) := [(0, .call (.tree (.name (.createFile 1 "a")))),
    (0, .call (.tree (.name (.createFile 1 "b")))),
  (0, .call (.tree (.name (.createFile 1 "c"))))]

private def threeFiles : Db := ((run (routeStep false) anyStep .fresh made).getD .fresh)

/-- Of three files two are returned, the first of these is removed, and the third is returned. -/
theorem survives_emptied : ∃ s, Reach (step .nfs false 1) (ok .nfs false 1) (.start threeFiles false 1) s ∧
    s.out = [("a", 2), ("b", 3), ("c", 4)] ∧ s.ended = true ∧ s.standing = [("b", 3), ("c", 4)] ∧
    Delivers (sights threeFiles false 1) s := by
  have hdb : Reach (routeStep false) anyStep .fresh threeFiles := @Reach.of_run _ _ _ _ _ made _ _ (by decide)
  obtain ⟨s, hs, hp⟩ : ∃ s, Reach (step .nfs false 1) (ok .nfs false 1) (.start threeFiles false 1) s ∧
      decide (s.out = [("a", 2), ("b", 3), ("c", 4)] ∧ s.ended = true ∧ s.standing = [("b", 3), ("c", 4)]) = true :=
    Reach.exists_of_run [.call plain 2, .unlink "a" 0, .call plain 1] (by decide)
  obtain ⟨hout, hended, hstanding⟩ := of_decide_eq_true hp
  exact ⟨s, hs, hout, hended, hstanding, (survives .nfs false 1 hdb (by decide) s hs).1⟩

theorem not_delivers {m : Scheme} (hrun : ∃ s, Reach (step m false 1) anyStep (.start threeFiles false 1) s ∧
    decide (s.ended = true ∧ ("b", 3) ∈ s.standing ∧ ("b", 3) ∉ s.out) = true) :
    ¬ ∀ s, Reach (step m false 1) anyStep (.start threeFiles false 1) s → Delivers (sights threeFiles false 1) s := by
  intro hall
  obtain ⟨s, hs, hp⟩ := hrun
  obtain ⟨hended, hstands, hno⟩ := of_decide_eq_true hp
  exact hno ((hall s hs).all hended _ hstands)

/-- Of three files one is returned and removed: over NFS the others are lost, over FUSE the next. -/
theorem loses :
    (¬ ∀ s, Reach (step .nfs false 1) anyStep (.start threeFiles false 1) s → Delivers (sights threeFiles false 1) s) ∧
      ¬ ∀ s, Reach (step .fuse false 1) anyStep (.start threeFiles false 1) s →
        Delivers (sights threeFiles false 1) s :=
  ⟨not_delivers (Reach.exists_of_run [.call plain 1, .unlink "a" 0, .call plain 1] (by decide)),
    not_delivers (Reach.exists_of_run [.call plain 1, .unlink "a" 0, .call plain 1, .call plain 1] (by decide))⟩

end Run

end Emptying
end Smfs
