/-
# What a step changes

Every step of the mount, and every operation on names, is a sequence of
changes of the tables: inodes come, keep their sort, or go; documents are
mapped, marked with a state, and forgotten; the rest of the tables is left open
(`Change`). What a call may do of this is said by its permit, from its
arguments and the tables it finds (`permit`, `step_changes`). A table keeps
through a step what its permit does not name.

Key definitions: `Changes.Act`, `Changes.step`, `Changes.Permit`, `Changes.Change`, `Changes.permit`.
Key theorems: `Changes.step_changes`, `Changes.Many.sort`, `Changes.Many.inode`, `Changes.Many.mapped`.
-/
import Smfs.Mount
import Smfs.Names.Cascade

namespace Smfs
namespace Changes

open Db Fs Cascade Relation

/-- What may happen: a step of the mount, an operation on names, a change of a size. -/
inductive Act
  | mount (a : Mount.Act)
  | name (op : NameOp) (nowMs : ℤ)
  | setattr (ino : Ino) (size : ℕ)

def step (m : Mount) : Act → Option Mount
  | .mount a => m.step a
  | .name op now => some { m with db := (op.apply m.db true now).2 }
  | .setattr ino size => some { m with db := (setattrSize m.db ino size).2 }

/-- What a call may do to inodes and to documents. -/
structure Permit where
  drop : Ino → Prop := fun _ => False
  map : Ino → String → Prop := fun _ _ => False
  unmap : Ino → Prop := fun _ => False
  forget : String → Prop := fun _ => False
  mark : Db → Ino → Option String → Prop := fun _ _ _ => False
  root : Prop := False

/-- One change of the tables. -/
inductive Change (P : Permit) : Db → Db → Prop
  | rest {db db' : Db} (inodes : db'.inodes = db.inodes) (next : db'.nextIno = db.nextIno)
      (remotes : db'.remotes = db.remotes) : Change P db db'
  | inode (db : Db) (kind : FileKind) (nlink size : ℤ) (derived : Bool) :
      Change P db (db.addInode kind nlink size derived).1
  | root {db : Db} (missing : db.getInode ROOT_INO = none) (may : P.root) :
      Change P db { db with inodes := rootInode :: db.inodes }
  | attrs {db : Db} (i : Ino) (f : Inode → Inode) (ino : ∀ x, (f x).ino = x.ino)
      (sort : ∀ x, ((f x).kind, (f x).derived) = (x.kind, x.derived)) : Change P db (db.updInode i f)
  | drop {db : Db} {i : Ino} (may : P.drop i) : Change P db (db.delInode i)
  | map {db : Db} {i : Ino} {rid : String} (may : P.map i rid) : Change P db (db.setRemoteId i rid)
  | unmap {db : Db} {i : Ino} (may : P.unmap i) : Change P db (db.deleteRemoteId i)
  | forget {db : Db} {rid : String} (may : P.forget rid) :
      Change P db { db with remotes := db.remotes.filter fun r => r.remoteId ≠ rid }
  | mark {db : Db} {i : Ino} {st : Option String} (u t : Option ℤ) (may : P.mark db i st) :
      Change P db (db.setMirroredState i u st t)

/-- Changes one after the other. -/
abbrev Many (P : Permit) : Db → Db → Prop := ReflTransGen (Change P)

/-- The rows of `fs_remote` stand in the order of their inodes. -/
def Sorted (db : Db) : Prop := db.remotes.Pairwise fun a b => a.ino < b.ino

section Lemmas

variable {P : Permit} {db db' : Db} {i p : Ino} {name : String}

/-! ### What changes leave -/

theorem Many.of_rest (inodes : db'.inodes = db.inodes) (next : db'.nextIno = db.nextIno)
    (remotes : db'.remotes = db.remotes) : Many P db db' := .single (.rest inodes next remotes)

theorem Many.updInode {f : Inode → Inode} (h : Many P db db') (ino : ∀ x, (f x).ino = x.ino)
    (sort : ∀ x, ((f x).kind, (f x).derived) = (x.kind, x.derived)) : Many P db (db'.updInode i f) :=
  h.tail (.attrs i f ino sort)

theorem Change.mono {Q : Permit} (h : Change P db db') (hdrop : ∀ i, P.drop i → Q.drop i)
    (hmap : ∀ i rid, P.map i rid → Q.map i rid) (hunmap : ∀ i, P.unmap i → Q.unmap i)
    (hforget : ∀ rid, P.forget rid → Q.forget rid) (hmark : ∀ d i st, P.mark d i st → Q.mark d i st)
    (hroot : P.root → Q.root) : Change Q db db' := by
  cases h with
  | rest inodes next remotes => exact .rest inodes next remotes
  | inode kind nlink size derived => exact .inode _ kind nlink size derived
  | root missing may => exact .root missing (hroot may)
  | attrs i f ino sort => exact .attrs i f ino sort
  | drop may => exact .drop (hdrop _ may)
  | map may => exact .map (hmap _ _ may)
  | unmap may => exact .unmap (hunmap _ may)
  | forget may => exact .forget (hforget _ may)
  | mark u t may => exact .mark u t (hmark _ _ _ may)

/-- What every call may do. -/
theorem Many.of_none (h : Many {} db db') : Many P db db' :=
  ReflTransGen.mono (fun _ _ hc => Change.mono hc (fun _ => False.elim) (fun _ _ => False.elim) (fun _ => False.elim)
    (fun _ => False.elim) (fun _ _ _ => False.elim) False.elim) _ _ h

theorem Change.next (h : Change P db db') : db.nextIno ≤ db'.nextIno := by
  cases h with
  | rest inodes next remotes => exact next.ge
  | inode kind nlink size derived => exact Nat.le_succ _
  | root | attrs | drop | map | unmap | forget | mark => exact le_rfl

theorem Many.next (h : Many P db db') : db.nextIno ≤ db'.nextIno := by
  induction h with
  | refl => exact le_rfl
  | tail _ hc ih => exact ih.trans hc.next

/-- A row that was there is of the sort it was, or gone where it may be. -/
theorem Change.sort (h : Change P db db') (hi : i < db.nextIno) {x : Inode} (hx : db'.getInode i = some x) :
    (∃ y, db.getInode i = some y ∧ (x.kind, x.derived) = (y.kind, y.derived)) ∨ i = ROOT_INO ∧ x = rootInode := by
  have same (hg : db'.getInode i = db.getInode i) :
      (∃ y, db.getInode i = some y ∧ (x.kind, x.derived) = (y.kind, y.derived)) ∨ i = ROOT_INO ∧ x = rootInode :=
    .inl ⟨x, hg ▸ hx, rfl⟩
  cases h with
  | rest inodes next remotes =>
    refine same ?_
    unfold getInode
    rw [inodes]
  | inode kind nlink size derived =>
    refine same ?_
    unfold getInode addInode
    dsimp only
    rw [Table.get_append, Table.get_cons, Table.get_nil, if_neg hi.ne', Option.or_none]
  | root missing may =>
    have hcons : Table.get Inode.ino (rootInode :: db.inodes) i = some x := hx
    rw [Table.get_cons] at hcons
    split_ifs at hcons with hroot
    · exact .inr ⟨hroot.symm, (Option.some.inj hcons).symm⟩
    · exact .inl ⟨x, hcons, rfl⟩
  | attrs j f ino sort =>
    rw [getInode_updInode ino] at hx
    split_ifs at hx with hj
    · obtain ⟨y, hy, rfl⟩ := Option.map_eq_some_iff.mp hx
      exact .inl ⟨y, hj ▸ hy, sort y⟩
    · exact .inl ⟨x, hx, rfl⟩
  | drop may =>
    rw [getInode_delInode] at hx
    split_ifs at hx
    exact .inl ⟨x, hx, rfl⟩
  | map | unmap | forget | mark => exact same rfl

theorem Many.sort (h : Many P db db') (hi : i < db.nextIno) {x : Inode} (hx : db'.getInode i = some x) :
    (∃ y, db.getInode i = some y ∧ (x.kind, x.derived) = (y.kind, y.derived)) ∨ i = ROOT_INO ∧ x.derived = false := by
  induction h generalizing x with
  | refl => exact .inl ⟨x, hx, rfl⟩
  | tail hm hc ih =>
    rcases hc.sort (hi.trans_le (Many.next hm)) hx with ⟨y, hy, he⟩ | ⟨hr, rfl⟩
    · rcases ih hy with ⟨z, hz, hez⟩ | ⟨hr, hd⟩
      · exact .inl ⟨z, hz, he.trans hez⟩
      · exact .inr ⟨hr, (congrArg Prod.snd he).trans hd⟩
    · exact .inr ⟨hr, rfl⟩

/-- No inode becomes derived. -/
theorem Many.derived (h : Many P db db') (hi : i < db.nextIno) (hd : IsDerived db' i) : IsDerived db i := by
  obtain ⟨x, hx, hxd⟩ := hd
  rcases h.sort hi hx with ⟨y, hy, he⟩ | ⟨-, hno⟩
  · exact ⟨y, hy, (congrArg Prod.snd he).symm.trans hxd⟩
  · exact absurd (hno.symm.trans hxd) nofun

/-- A row that may not go stays. -/
theorem Change.inode_isSome (h : Change P db db') (hno : ¬ P.drop i) (hi : (db.getInode i).isSome = true) :
    (db'.getInode i).isSome = true := by
  cases h with
  | rest inodes next remotes =>
    unfold getInode
    rwa [inodes]
  | inode kind nlink size derived =>
    unfold getInode addInode
    dsimp only
    rw [Table.get_append]
    unfold getInode at hi
    cases hg : Table.get Inode.ino db.inodes i with
    | none =>
      rw [hg] at hi
      cases hi
    | some x => rfl
  | root missing may =>
    show (Table.get Inode.ino (rootInode :: db.inodes) i).isSome = true
    rw [Table.get_cons]
    split_ifs
    · rfl
    · exact hi
  | attrs j f ino sort =>
    rw [getInode_updInode ino]
    split_ifs with hj
    · rw [Option.isSome_map, ← hj]
      exact hi
    · exact hi
  | @drop j may =>
    have hne : i ≠ j := fun hj => hno (hj ▸ may)
    rw [getInode_delInode, if_neg hne]
    exact hi
  | map | unmap | forget | mark => exact hi

theorem Many.inode (h : Many P db db') (hno : ¬ P.drop i) (hi : (db.getInode i).isSome = true) :
    (db'.getInode i).isSome = true := by
  induction h with
  | refl => exact hi
  | tail _ hc ih => exact hc.inode_isSome hno ih

/-- A number that was given out is not given out again. -/
theorem Change.gone (h : Change P db db') (hroot : P.root → i ≠ ROOT_INO) (hi : i < db.nextIno)
    (hg : db.getInode i = none) :
    db'.getInode i = none := by
  by_contra hsome
  obtain ⟨x, hx⟩ := Option.ne_none_iff_exists'.mp hsome
  rcases h.sort hi hx with ⟨y, hy, -⟩ | ⟨rfl, rfl⟩
  · rw [hg] at hy
    cases hy
  · cases h with
    | rest inodes next remotes =>
      unfold getInode at hx hg
      rw [inodes, hg] at hx
      cases hx
    | inode kind nlink size derived =>
      unfold getInode addInode at hx
      dsimp only at hx
      rw [Table.get_append, Table.get_cons, Table.get_nil, if_neg hi.ne', Option.or_none] at hx
      exact absurd (hx.symm.trans hg) nofun
    | root missing may => exact hroot may rfl
    | attrs j f ino sort =>
      rw [getInode_updInode ino] at hx
      split_ifs at hx with hj
      · rw [← hj, hg] at hx
        cases hx
      · rw [hg] at hx
        cases hx
    | drop may =>
      rw [getInode_delInode] at hx
      split_ifs at hx
      rw [hg] at hx
      cases hx
    | map | unmap | forget | mark => exact absurd (hx.symm.trans hg) nofun

theorem Many.gone (h : Many P db db') (hroot : P.root → i ≠ ROOT_INO) (hi : i < db.nextIno)
    (hg : db.getInode i = none) :
    db'.getInode i = none := by
  induction h with
  | refl => exact hg
  | tail hm hc ih => exact hc.gone hroot (hi.trans_le (Many.next hm)) ih

/-- Inode numbers are given out in order. -/
theorem Change.rows (h : Change P db db') (hrows : ∀ x ∈ db.inodes, x.ino < db.nextIno)
    (hroot : ROOT_INO < db.nextIno) :
    (∀ x ∈ db'.inodes, x.ino < db'.nextIno) ∧ ROOT_INO < db'.nextIno := by
  refine ⟨?_, hroot.trans_le h.next⟩
  cases h with
  | rest inodes next remotes =>
    rw [inodes, next]
    exact hrows
  | inode kind nlink size derived =>
    intro x hx
    rcases List.mem_append.mp hx with hx | hx
    · exact (hrows x hx).trans (Nat.lt_succ_self _)
    · rw [List.mem_singleton.mp hx]
      exact Nat.lt_succ_self _
  | root missing may =>
    intro x hx
    rcases List.mem_cons.mp hx with rfl | hx
    · exact hroot
    · exact hrows x hx
  | attrs j f ino sort =>
    intro x hx
    obtain ⟨y, hy, rfl⟩ := Table.mem_modify.mp hx
    split_ifs
    · rw [ino]
      exact hrows y hy
    · exact hrows y hy
  | drop may => exact fun x hx => hrows x (Table.mem_erase.mp hx).1
  | map | unmap | forget | mark => exact hrows

theorem Many.rows (h : Many P db db') (hrows : ∀ x ∈ db.inodes, x.ino < db.nextIno) (hroot : ROOT_INO < db.nextIno) :
    (∀ x ∈ db'.inodes, x.ino < db'.nextIno) ∧ ROOT_INO < db'.nextIno := by
  induction h with
  | refl => exact ⟨hrows, hroot⟩
  | tail _ hc ih => exact hc.rows ih.1 ih.2

theorem Change.sorted (h : Change P db db') (hs : Sorted db) : Sorted db' := by
  unfold Sorted at hs ⊢
  cases h with
  | rest inodes next remotes => rwa [remotes]
  | inode | root | attrs | drop => exact hs
  | map may => exact Table.put_sorted hs
  | unmap may => exact hs.sublist (Table.erase_sublist _ _)
  | forget may => exact hs.sublist List.filter_sublist
  | mark u t may => exact Table.modify_sorted (fun _ => rfl) hs

theorem Many.sorted (h : Many P db db') (hs : Sorted db) : Sorted db' := by
  induction h with
  | refl => exact hs
  | tail _ hc ih => exact hc.sorted ih

/-- A mapping stays that may neither go nor be replaced. -/
theorem Change.mapped {rid : String} (h : Change P db db') (hs : Sorted db) (hmap : ∀ r, P.map i r → r = rid)
    (hunmap : ¬ P.unmap i) (hforget : ¬ P.forget rid) (hi : db.getRemoteId i = some rid) :
    db'.getRemoteId i = some rid := by
  cases h with
  | rest inodes next remotes =>
    unfold getRemoteId getRemote
    rw [remotes]
    exact hi
  | inode | root | attrs | drop => exact hi
  | @map j r may =>
    rw [getRemoteId_setRemoteId]
    split_ifs with hj
    · rw [hmap r (hj ▸ may)]
    · exact hi
  | @unmap j may =>
    have hne : i ≠ j := fun hj => hunmap (hj ▸ may)
    unfold getRemoteId getRemote deleteRemoteId
    dsimp only
    rw [Table.get_erase, if_neg hne]
    exact hi
  | @forget r may =>
    obtain ⟨x, hx, rfl⟩ := Option.map_eq_some_iff.mp hi
    obtain ⟨hm, rfl⟩ := Table.get_some hx
    have hkeep : x ∈ db.remotes.filter fun y => y.remoteId ≠ r :=
      List.mem_filter.mpr ⟨hm, decide_eq_true fun he => hforget (he ▸ may)⟩
    have hnodup : ((db.remotes.filter fun y => y.remoteId ≠ r).map Remote.ino).Nodup :=
      Table.nodup_of_sorted (hs.sublist List.filter_sublist)
    have hget : Table.get Remote.ino (db.remotes.filter fun y => y.remoteId ≠ r) x.ino = some x :=
      Table.get_of_mem hnodup hkeep
    show (Table.get Remote.ino (db.remotes.filter fun y => y.remoteId ≠ r) x.ino).map Remote.remoteId = _
    rw [hget]
    rfl
  | mark u t may => rwa [getRemoteId_setMirroredState]

theorem Many.mapped {rid : String} (h : Many P db db') (hs : Sorted db) (hmap : ∀ r, P.map i r → r = rid)
    (hunmap : ¬ P.unmap i) (hforget : ¬ P.forget rid) (hi : db.getRemoteId i = some rid) :
    db'.getRemoteId i = some rid := by
  induction h with
  | refl => exact hi
  | tail hm hc ih => exact hc.mapped (Many.sorted hm hs) hmap hunmap hforget ih

/-- A file has a document that it has had, or comes to have. -/
theorem Change.remote {rid : String} (h : Change P db db') (hs : Sorted db) (hi : db'.getRemoteId i = some rid) :
    db.getRemoteId i = some rid ∨ P.map i rid := by
  cases h with
  | rest inodes next remotes =>
    unfold getRemoteId getRemote at hi ⊢
    exact .inl (remotes ▸ hi)
  | inode | root | attrs | drop => exact .inl hi
  | @map j r may =>
    rw [getRemoteId_setRemoteId] at hi
    split_ifs at hi with hj
    · obtain rfl := Option.some.inj hi
      exact .inr (hj ▸ may)
    · exact .inl hi
  | @unmap j may =>
    obtain ⟨x, hx, rfl⟩ := Option.map_eq_some_iff.mp hi
    obtain ⟨hm, rfl⟩ := Table.get_some hx
    have hget : db.getRemote x.ino = some x := Table.get_of_mem (Table.nodup_of_sorted hs) (Table.mem_erase.mp hm).1
    unfold getRemoteId
    rw [hget]
    exact .inl rfl
  | @forget r may =>
    obtain ⟨x, hx, rfl⟩ := Option.map_eq_some_iff.mp hi
    obtain ⟨hm, rfl⟩ := Table.get_some hx
    have hget : db.getRemote x.ino = some x := Table.get_of_mem (Table.nodup_of_sorted hs) (List.mem_filter.mp hm).1
    unfold getRemoteId
    rw [hget]
    exact .inl rfl
  | mark u t may =>
    rw [getRemoteId_setMirroredState] at hi
    exact .inl hi

theorem Many.remote {rid : String} (h : Many P db db') (hs : Sorted db) (hi : db'.getRemoteId i = some rid) :
    db.getRemoteId i = some rid ∨ P.map i rid := by
  induction h with
  | refl => exact .inl hi
  | tail hm hc ih =>
    rcases hc.remote (Many.sorted hm hs) hi with hi | hi
    · exact ih hi
    · exact .inr hi

/-! ### The helpers -/

/-- Entries stay, and a new one leads to a new inode. -/
structure FreshNames (db db' : Db) : Prop where
  next : db.nextIno ≤ db'.nextIno
  keeps : ∀ q n k, db.childIno q n = some k → db'.childIno q n = some k
  new : ∀ q n k, db'.childIno q n = some k → db.childIno q n = some k ∨ db.nextIno ≤ k

theorem FreshNames.trans {db₁ db₂ db₃ : Db} (h : FreshNames db₁ db₂) (h' : FreshNames db₂ db₃) :
    FreshNames db₁ db₃ := by
  refine ⟨h.next.trans h'.next, fun q n k hk => h'.keeps q n k (h.keeps q n k hk), fun q n k hk => ?_⟩
  rcases h'.new q n k hk with hk | hk
  · exact h.new q n k hk
  · exact .inr (h.next.trans hk)

theorem FreshNames.of_same (hd : db'.dentries = db.dentries) (hn : db.nextIno ≤ db'.nextIno) : FreshNames db db' := by
  have hchild (q : Ino) (n : String) : db'.childIno q n = db.childIno q n := by
    unfold childIno child
    rw [hd]
  exact ⟨hn, fun q n k hk => (hchild q n).trans hk, fun q n k hk => .inl ((hchild q n).symm.trans hk)⟩

theorem childIno_addDentry {q : Ino} {n : String} : (db.addDentry name p i).childIno q n =
    (db.childIno q n).or (if (p, name) = (q, n) then some i else none) := by
  unfold childIno
  rw [child_eq, child_eq]
  have hget : Table.get nameOf (db.dentries ++ [(⟨name, p, i⟩ : Dentry)]) (q, n) = _ := Table.get_append _ _ _
  show (Table.get nameOf (db.dentries ++ [(⟨name, p, i⟩ : Dentry)]) (q, n)).map Dentry.ino = _
  rw [hget, Table.get_cons, Table.get_nil]
  cases Table.get nameOf db.dentries (q, n) with
  | some d => rfl
  | none =>
    rw [Option.none_or, Option.map_none, Option.none_or]
    show ((if (p, name) = (q, n) then some (⟨name, p, i⟩ : Dentry) else none).map Dentry.ino) = _
    split_ifs <;> rfl

theorem freshNames_add {kind : FileKind} {nlink size : ℤ} {derived : Bool} :
    FreshNames db ((db.addInode kind nlink size derived).1.addDentry name p db.nextIno) := by
  have hchild (q : Ino) (n : String) : ((db.addInode kind nlink size derived).1.addDentry name p db.nextIno).childIno q n =
      (db.childIno q n).or (if (p, name) = (q, n) then some db.nextIno else none) := childIno_addDentry
  refine ⟨Nat.le_succ _, fun q n k hk => ?_, fun q n k hk => ?_⟩
  · rw [hchild, hk, Option.some_or]
  · rw [hchild] at hk
    cases hc : db.childIno q n with
    | some j =>
      rw [hc] at hk
      exact .inl hk
    | none =>
      rw [hc, Option.none_or] at hk
      split_ifs at hk
      exact .inr (Option.some.inj hk).le

theorem ensureDir_changes : Many {} db (ensureDir db p name).1 ∧ FreshNames db (ensureDir db p name).1 ∧
    (ensureDir db p name).1.childIno p name = some (ensureDir db p name).2 := by
  unfold ensureDir
  split
  · rename_i hc
    exact ⟨.refl, .of_same rfl le_rfl, hc⟩
  · rename_i hc
    have hadd : Many {} db (db.addInode .dir 2 0 false).1 := .single (.inode db .dir 2 0 false)
    have hname : Many {} db ((db.addInode .dir 2 0 false).1.addDentry name p db.nextIno) :=
      hadd.tail (.rest rfl rfl rfl)
    have hchild : ((db.addInode .dir 2 0 false).1.addDentry name p db.nextIno).childIno p name = _ := childIno_addDentry
    refine ⟨hname.updInode (fun _ => rfl) fun _ => rfl, freshNames_add.trans (.of_same rfl le_rfl), hchild.trans ?_⟩
    have hfree : (db.addInode .dir 2 0 false).1.childIno p name = none := hc
    rw [hfree, Option.none_or, if_pos rfl]
    rfl

theorem ensureParts_changes {parts : List String} : ∀ {db : Db} {p : Ino}, Many {} db (ensureParts db p parts).1 ∧
    FreshNames db (ensureParts db p parts).1 ∧ Cache.Stands (ensureParts db p parts).1 p parts (ensureParts db p parts).2 := by
  induction parts with
  | nil => exact ⟨.refl, .of_same rfl le_rfl, rfl⟩
  | cons part parts ih =>
    intro db p
    obtain ⟨hdir, hnames, hchild⟩ : Many {} db (ensureDir db p part).1 ∧ _ := ensureDir_changes
    obtain ⟨hrest, hnames', hst⟩ := @ih (ensureDir db p part).1 (ensureDir db p part).2
    exact ⟨hdir.trans hrest, hnames.trans hnames', _, hnames'.keeps _ _ _ hchild, hst⟩

theorem ensureDirs_changes {path : String} : Many {} db (ensureDirs db path).1 ∧ FreshNames db (ensureDirs db path).1 :=
  ⟨ensureParts_changes.1, ensureParts_changes.2.1⟩

/-- Directories that stand are found again. -/
theorem ensureDirs_again {path : String} {e : Db} (h : FreshNames (ensureDirs db path).1 e) :
    ensureDirs e path = (e, (ensureDirs db path).2) := by
  unfold ensureDirs at h ⊢
  exact Cache.ensureParts_of_stands (ensureParts_changes.2.2.mono h.keeps)

theorem rewrite_changes {content : Bytes} : Many {} db (rewriteFileContent db i content) := by
  have hdata : Many {} db (replaceData db i content) := .of_rest rfl rfl rfl
  exact hdata.updInode (fun _ => rfl) fun _ => rfl

theorem createDerivedAt_changes {content : Bytes} : Many {} db (createDerivedAt db p name content).2 ∧
    FreshNames db (createDerivedAt db p name content).2 := by
  unfold createDerivedAt
  split
  · split_ifs
    · exact ⟨rewrite_changes, .of_same rfl le_rfl⟩
    · exact ⟨.refl, .of_same rfl le_rfl⟩
  · have hadd : Many {} db (db.addInode .reg 1 content.length true).1 := .single (.inode db .reg 1 content.length true)
    dsimp only
    split_ifs
    · exact ⟨hadd, .of_same rfl (Nat.le_succ _)⟩
    · exact ⟨hadd.tail (.rest rfl rfl rfl), freshNames_add.trans (.of_same rfl le_rfl)⟩

theorem createDerivedSibling_changes {filepath : String} {content : Bytes} :
    Many {} db (createDerivedSibling db filepath content).2 ∧
      FreshNames db (createDerivedSibling db filepath content).2 := by
  unfold createDerivedSibling
  split_ifs
  · exact ⟨.refl, .of_same rfl le_rfl⟩
  · exact ⟨.refl, .of_same rfl le_rfl⟩
  · exact ⟨ensureDirs_changes.1.trans createDerivedAt_changes.1, ensureDirs_changes.2.trans createDerivedAt_changes.2⟩

theorem createStubAt_changes : Many {} db (createStubAt db p name).2 ∧
    (db.childIno p name = some (createStubAt db p name).1 ∨ db.nextIno ≤ (createStubAt db p name).1) := by
  unfold createStubAt
  split
  · rename_i hc
    exact ⟨.refl, .inl hc⟩
  · have hadd : Many {} db (db.addInode .reg 1 0 false).1 := .single (.inode db .reg 1 0 false)
    exact ⟨hadd.tail (.rest rfl rfl rfl), .inr le_rfl⟩

theorem moveDentries_changes (h : moveDentries db i p name = some db') : Many {} db db' := by
  obtain ⟨hi, -, -, hr, hn⟩ := Cache.moveDentries_rows h
  exact .of_rest hi hn hr

theorem errorSibling_changes {doc : Document} {filepath : String} : Many {} db (syncErrorSibling db doc filepath) ∧
    FreshNames db (syncErrorSibling db doc filepath) := by
  unfold syncErrorSibling
  split_ifs
  · exact ⟨.refl, .of_same rfl le_rfl⟩
  · exact createDerivedSibling_changes

theorem transcriptionSibling_changes {doc : Document} {filepath : String} :
    Many {} db (syncTranscriptionSibling db doc filepath) ∧
      FreshNames db (syncTranscriptionSibling db doc filepath) := by
  unfold syncTranscriptionSibling
  split_ifs
  · exact ⟨.refl, .of_same rfl le_rfl⟩
  · split
    · exact createDerivedSibling_changes
    · exact ⟨.refl, .of_same rfl le_rfl⟩

theorem mirrorContent_changes {doc : Document} : Many {} db (mirrorContent db i doc) := by
  unfold mirrorContent
  split_ifs
  · exact .refl
  · split
    · exact rewrite_changes
    · exact .refl

/-! ### A reconcile -/

/-- `reconcile_one` maps the document to what stands at its path, or to a new
file, and marks what is mapped to it with its state. -/
def reconcilePermit (db : Db) (doc : Document) : Permit where
  map i rid := rid = doc.id ∧ db.inoByRemoteId doc.id = none ∧ doc.status = "done" ∧
    (attachTarget db doc = some i ∨ attachTarget db doc = none ∧ db.nextIno ≤ i)
  mark d i st := st = some doc.status ∧ d.getRemoteId i = some doc.id

variable {doc : Document} {nowMs : ℤ}

theorem applyRenameTo_changes {newDir newName : String} : Many {} db (applyRenameTo db i newDir newName).2 := by
  have hdirs : Many {} db (ensureDirs db newDir).1 := ensureDirs_changes.1
  unfold applyRenameTo
  dsimp only
  split
  · exact hdirs
  · split
    · exact hdirs
    · rename_i hm
      exact hdirs.trans (moveDentries_changes hm)

theorem renameToDoc_changes : Many {} db (renameToDoc db i doc).2 := by
  unfold renameToDoc
  split_ifs
  · exact .refl
  · exact applyRenameTo_changes

theorem reconcileMapped_changes (hs : Sorted db) (hi : db.inoByRemoteId doc.id = some i) :
    Many (reconcilePermit db doc) db (reconcileMapped db i doc nowMs).2 := by
  have hid : db.getRemoteId i = some doc.id := getRemoteId_of_ino hs hi
  unfold reconcileMapped
  split_ifs
  · exact .refl
  · exact Many.of_none (transcriptionSibling_changes.1.trans errorSibling_changes.1)
  · have hren : Many {} db (renameToDoc db i doc).2 := renameToDoc_changes
    cases hr : renameToDoc db i doc with
    | mk res d =>
      rw [hr] at hren
      cases res with
      | error e => exact Many.of_none hren
      | ok _ =>
        dsimp only
        have hmark (d' : Db) (h : Many {} d d') (u t : Option ℤ) :
            Many (reconcilePermit db doc) db (d'.setMirroredState i u (some doc.status) t) := by
          have hmany : Many {} db d' := hren.trans h
          exact (Many.of_none hmany).tail (.mark u t
            ⟨rfl, hmany.mapped hs (fun _ => False.elim) id id hid⟩)
        unfold reconcileContent
        split_ifs
        · exact (hmark _ mirrorContent_changes _ _).trans (Many.of_none transcriptionSibling_changes.1)
        · exact (hmark _ .refl _ _).trans (Many.of_none errorSibling_changes.1)

/-- Where the document is mapped, it is marked from then on. -/
theorem mapped_marked {d : Db} {j : Ino} (hid : db.inoByRemoteId doc.id = none) (hdone : doc.status = "done")
    (h : Many {} db d) (hj : attachTarget db doc = some j ∨ attachTarget db doc = none ∧ db.nextIno ≤ j) :
    Many (reconcilePermit db doc) db (d.setRemoteId j doc.id) ∧ ∀ d', Sorted d → Many {} (d.setRemoteId j doc.id) d' →
      ∀ u t, Many (reconcilePermit db doc) db (d'.setMirroredState j u (some doc.status) t) := by
  have hmap : Many (reconcilePermit db doc) db (d.setRemoteId j doc.id) :=
    (Many.of_none h).tail (.map ⟨rfl, hid, hdone, hj⟩)
  refine ⟨hmap, fun d' hs h' u t => ?_⟩
  have hself : (d.setRemoteId j doc.id).getRemoteId j = some doc.id := by rw [getRemoteId_setRemoteId, if_pos rfl]
  have hs' : Sorted (d.setRemoteId j doc.id) := Table.put_sorted hs
  exact (hmap.trans (Many.of_none h')).tail (.mark u t ⟨rfl, h'.mapped hs' (fun _ => False.elim) id id hself⟩)

/-- A stub is new where nothing has the document's path. -/
theorem createRawStub_changes {last : Ino} (hdirs : ensureDirs db (splitPath doc.path).1 = (db, last))
    (hfree : ∀ k, db.childIno last (splitPath doc.path).2 = some k → i ≤ k) (hi : i ≤ db.nextIno) :
    Many {} db (createRawStub db doc.path).2 ∧ ∀ j, (createRawStub db doc.path).1 = .ok j → i ≤ j := by
  unfold createRawStub
  rw [hdirs]
  split_ifs
  · exact ⟨.refl, nofun⟩
  · exact ⟨.refl, nofun⟩
  · obtain ⟨hstub, hino⟩ : Many {} db (createStubAt db last (splitPath doc.path).2).2 ∧ _ := createStubAt_changes
    refine ⟨hstub, fun j hj => ?_⟩
    cases hj
    rcases hino with hino | hino
    · exact hfree _ hino
    · exact hi.trans hino

section Unmapped

variable {d : Db} {j : Ino} {n : String}

theorem reconcileAttach_changes (hs : Sorted db) (hid : db.inoByRemoteId doc.id = none) (hdone : doc.status = "done")
    (h : Many {} db d) (hj : attachTarget db doc = some j) :
    Many (reconcilePermit db doc) db (reconcileAttach d j doc nowMs).2 := by
  obtain ⟨hmap, hmark⟩ := mapped_marked hid hdone h (.inl hj)
  unfold reconcileAttach
  split_ifs
  · exact hmap.tail (.rest rfl rfl rfl)
  · refine hmark _ (h.sorted hs) ?_ _ _
    unfold attachContent
    split_ifs
    exact mirrorContent_changes.trans transcriptionSibling_changes.1

theorem reconcileBinary_changes (hs : Sorted db) (hid : db.inoByRemoteId doc.id = none) (hdone : doc.status = "done")
    (hnone : attachTarget db doc = none) (h : Many {} db d) (hn : db.nextIno ≤ d.nextIno)
    (hagain : ∀ e, FreshNames d e → ensureDirs e (splitPath doc.path).1 = (e, p))
    (hfree : d.childIno p (splitPath doc.path).2 = none) :
    Many (reconcilePermit db doc) db (reconcileBinary d doc nowMs).2 := by
  have htr : Many {} d (syncTranscriptionSibling d doc doc.path) ∧ _ := transcriptionSibling_changes
  have herr : Many {} (syncTranscriptionSibling d doc doc.path)
    (syncErrorSibling (syncTranscriptionSibling d doc doc.path) doc doc.path) ∧ _ := errorSibling_changes
  have hside : Many {} db (syncErrorSibling (syncTranscriptionSibling d doc doc.path) doc doc.path) :=
    (h.trans htr.1).trans herr.1
  have hnames := htr.2.trans herr.2
  unfold reconcileBinary
  dsimp only
  generalize syncErrorSibling (syncTranscriptionSibling d doc doc.path) doc doc.path = e at hside hnames ⊢
  have hstub : Many {} e (createRawStub e doc.path).2 ∧ ∀ j, (createRawStub e doc.path).1 = .ok j → db.nextIno ≤ j := by
    have hnew : ∀ k, e.childIno p (splitPath doc.path).2 = some k → db.nextIno ≤ k := by
      intro k hk
      rcases hnames.new _ _ _ hk with hk | hk
      · rw [hfree] at hk
        cases hk
      · exact hn.trans hk
    exact createRawStub_changes (hagain e hnames) hnew (hn.trans hnames.next)
  generalize createRawStub e doc.path = stub at hstub ⊢
  obtain ⟨res, e'⟩ := stub
  split_ifs
  · cases res with
    | error err => exact Many.of_none (hside.trans hstub.1)
    | ok j =>
      have hmany : Many {} db e' := hside.trans hstub.1
      exact (mapped_marked hid hdone hmany (.inr ⟨hnone, hstub.2 j rfl⟩)).2 _ (hmany.sorted hs) .refl _ _
  · exact Many.of_none hside

theorem reconcileCreate_changes (hs : Sorted db) (hid : db.inoByRemoteId doc.id = none) (hdone : doc.status = "done")
    (hnone : attachTarget db doc = none) (h : Many {} db d) (hn : db.nextIno ≤ d.nextIno) :
    Many (reconcilePermit db doc) db (reconcileCreate d p n doc nowMs).2 := by
  have hfile : Many {} db (addFile d p n (doc.content.getD [])).1 := by
    have hadd : Many {} db (d.addInode .reg 1 ((doc.content.getD []).length : ℤ) false).1 :=
      h.tail (.inode d .reg 1 ((doc.content.getD []).length : ℤ) false)
    exact hadd.tail (.rest rfl rfl rfl)
  have hino : db.nextIno ≤ (addFile d p n (doc.content.getD [])).2 := hn
  unfold reconcileCreate
  dsimp only
  generalize addFile d p n (doc.content.getD []) = added at hfile hino ⊢
  obtain ⟨e, j⟩ := added
  have hmark := (mapped_marked hid hdone hfile (.inr ⟨hnone,
    hino⟩)).2 _ (hfile.sorted hs) .refl doc.updatedMs (some nowMs)
  exact hmark.trans (Many.of_none transcriptionSibling_changes.1)

end Unmapped

theorem reconcileUnmapped_changes (hs : Sorted db) (hid : db.inoByRemoteId doc.id = none) :
    Many (reconcilePermit db doc) db (reconcileUnmapped db doc nowMs).2 := by
  unfold reconcileUnmapped
  by_cases hdone : doc.status = "done"
  · rw [if_neg (not_not.mpr hdone)]
    obtain ⟨hdirs, hfresh⟩ : Many {} db (ensureDirs db (splitPath doc.path).1).1 ∧ _ := ensureDirs_changes
    have hagain : ∀ e, FreshNames (ensureDirs db (splitPath doc.path).1).1 e →
      ensureDirs e (splitPath doc.path).1 = (e, (ensureDirs db (splitPath doc.path).1).2) := fun _ => ensureDirs_again
    have hat : attachTarget db doc = (ensureDirs db (splitPath doc.path).1).1.childIno
      (ensureDirs db (splitPath doc.path).1).2 (splitPath doc.path).2 := rfl
    dsimp only
    generalize ensureDirs db (splitPath doc.path).1 = dirs at hdirs hfresh hagain hat ⊢
    obtain ⟨d, p⟩ := dirs
    dsimp only at hat hdirs hfresh hagain ⊢
    cases hc : d.childIno p (splitPath doc.path).2 with
    | some j => exact reconcileAttach_changes hs hid hdone hdirs (hat.trans hc)
    | none =>
      dsimp only
      split_ifs
      · exact reconcileBinary_changes hs hid hdone (hat.trans hc) hdirs hfresh.next hagain hc
      · exact reconcileCreate_changes hs hid hdone (hat.trans hc) hdirs hfresh.next
  · rw [if_pos hdone]
    exact Many.of_none errorSibling_changes.1

theorem reconcileOne_changes (hs : Sorted db) : Many (reconcilePermit db doc) db (reconcileOne db doc nowMs).2 := by
  unfold reconcileOne
  cases hi : db.inoByRemoteId doc.id with
  | some i => exact reconcileMapped_changes hs hi
  | none => exact reconcileUnmapped_changes hs hi

end Lemmas

/-! ### The calls -/

/-- `unlink` drops the file with its last name, and derived siblings. -/
def unlinkPermit (db : Db) (p : Ino) (name : String) : Permit where
  drop i := (∃ x, Cache.Unlinks db p name x ∧ x.ino = i ∧ x.nlink - 1 ≤ 0) ∨
    IsDerived db i ∧ (∃ x, Cache.Unlinks db p name x) ∧ ∃ s ∈ derivedSiblingSuffixes, db.childIno p (name ++ s) = some i
  unmap i := ∃ x, Cache.Unlinks db p name x ∧ x.ino = i ∧ x.nlink - 1 ≤ 0

/-- `rename` drops what it replaces, and may map the document of that to the file. -/
def renamePermit (db : Db) (p : Ino) (name : String) (p' : Ino) (name' : String) : Permit where
  drop i := ∃ src, Cache.Renames db p name p' name' src ∧ db.childIno p' name' = some i
  unmap i := ∃ src, Cache.Renames db p name p' name' src ∧ db.childIno p' name' = some i
  map i rid := ∃ src j, Cache.Renames db p name p' name' src ∧ src.ino = i ∧ Cache.carriesCreate db p name ∧
    db.childIno p' name' = some j ∧ db.getRemoteId j = some rid

/-- `rmdir` drops the empty directory. -/
def rmdirPermit (db : Db) (p : Ino) (name : String) : Permit where
  drop i := ∃ x, validateName name = .ok () ∧ childInode db p name = some x ∧ x.kind = .dir ∧
    (∀ d ∈ db.dentries, d.parentIno ≠ x.ino) ∧ x.ino = i

/-- The inode that `apply_deletion` removes. -/
def Deletes (db : Db) (rid : String) (i : Ino) : Prop :=
  db.inoByRemoteId rid = some i ∧ db.getDirtySince i = none ∧ (db.dentryOf i).isSome = true

def deletionPermit (db : Db) (rid : String) : Permit where
  drop := Deletes db rid
  unmap := Deletes db rid

/-- A tick of the poller hears that the document of its row is gone. -/
def Forgets (row : AwaitingDone) (processing : List (String × String))
    (terminal : Except ApiError Document) (nowMs : ℤ) :
    Prop :=
  stuckTier ((row.lastStatusAt.map (nowMs - ·)).getD 0) ≠ .stop ∧
    processing.reverse.find? (fun d => d.1 = row.remoteId) = none ∧ terminal = .error .notFound

/-- A tick of the poller marks the inode of its row with a state that it has heard, or forgets its document. -/
def pollPermit (row : AwaitingDone) (processing : List (String × String)) (terminal : Except ApiError Document)
    (nowMs : ℤ) : Permit where
  unmap i := i = row.ino ∧ Forgets row processing terminal nowMs
  mark _ i st := i = row.ino ∧ (st = none ∨ st = some "stuck" ∨ (∃ d ∈ processing, d.1 = row.remoteId ∧ st = some d.2) ∨
    ∃ doc, terminal = .ok doc ∧ st = some doc.status)

/-- A task maps what it has created, forgets what is not found, and marks what it has waited for. -/
def phasePermit : Phase → Permit
  | .mapInode ino rid => { map := fun i r => i = ino ∧ r = rid }
  | .clearRemoteId rid => { forget := fun r => r = rid }
  | .markMirrored ino => { mark := fun _ i st => i = ino ∧ st = some "done" }
  | _ => {}

def permit (m : Mount) : Act → Permit
  | .mount (.unlink p name _) | .name (.unlink p name) _ => unlinkPermit m.db p name
  | .mount (.rename p name p' name' _) | .name (.rename p name p' name') _ => renamePermit m.db p name p' name'
  | .mount (.reconcile doc _) => reconcilePermit m.db doc
  | .mount (.applyDeletion rid) => deletionPermit m.db rid
  | .mount (.poll row processing terminal now) => pollPermit row processing terminal now
  | .mount (.taskDb i _) => (m.tasks[i]?).elim {} fun k => phasePermit k.phase
  | .mount .crash => { root := True }
  | .name (.rmdir p name) _ => rmdirPermit m.db p name
  | _ => {}

/-- A task may do what its phase may. -/
theorem permit_task {m : Mount} {n : ℕ} {now : ℤ} {k : Task} (hk : m.tasks[n]? = some k) :
    permit m (.mount (.taskDb n now)) = phasePermit k.phase := by
  unfold permit
  dsimp only
  rw [hk]
  rfl

section Calls

variable {P : Permit} {db db' : Db} {i p p' : Ino} {name name' : String} {nowMs : ℤ} {f : SqliteFile}

/-! ### Files -/

theorem write_changes {offset : ℕ} {data : Bytes} : Many {} db (f.write db offset data nowMs).2 := by
  unfold SqliteFile.write
  split_ifs
  · exact .refl
  · exact .refl
  · split
    · exact .refl
    · obtain ⟨hinodes, hnext⟩ : (SqliteFile.writeChunks db f.ino data.length offset data).inodes = db.inodes ∧ _ :=
        SqliteFile.writeChunks_inodes
      have hsync : Db.SameSync db (SqliteFile.writeChunks db f.ino data.length offset data) :=
        SqliteFile.writeChunks_sameSync
      exact (Many.of_rest hinodes hnext hsync.remotes).updInode (fun _ => rfl) fun _ => rfl

theorem truncate_changes {size : ℕ} : Many {} db (f.truncate db size) := by
  unfold SqliteFile.truncate
  refine Many.updInode ?_ (fun _ => rfl) fun _ => rfl
  split_ifs
  · exact .of_rest rfl rfl rfl
  · dsimp only
    split
    · split_ifs <;> exact .of_rest rfl rfl rfl
    · exact .of_rest rfl rfl rfl

theorem flush_changes : Many {} db (f.flush db nowMs) := by
  rcases (SqliteFile.flush_queue : f.flush db nowMs = db ∨ _) with he | ⟨fp, op, rid, -, he⟩
  · rw [he]
  · rw [he]
    exact .of_rest rfl rfl rfl

theorem setattr_changes {size : ℕ} : Many {} db (setattrSize db i size).2 := by
  unfold setattrSize
  split
  · exact .refl
  · split
    · exact .refl
    · exact .refl
    · exact truncate_changes

/-! ### Names -/

theorem createFile_changes {online : Bool} : Many {} db (createFile db online p name).2 := by
  rcases Cache.createFile_cases db online p name with he | ⟨-, -, he⟩
  · rw [he]
  · rw [he]
    have hadd : Many {} db (db.addInode .reg 1 0 false).1 := .single (.inode db .reg 1 0 false)
    exact hadd.tail (.rest rfl rfl rfl)

theorem mkdir_changes : Many {} db (mkdir db p name).2 := by
  rcases Cache.mkdir_cases db p name with he | ⟨-, -, he⟩
  · rw [he]
  · rw [he]
    have hadd : Many {} db (db.addInode .dir 2 0 false).1 := .single (.inode db .dir 2 0 false)
    have hname : Many {} db ((db.addInode .dir 2 0 false).1.addDentry name p db.nextIno) :=
      hadd.tail (.rest rfl rfl rfl)
    exact hname.updInode (fun _ => rfl) fun _ => rfl

theorem symlink_changes {target : String} : Many {} db (symlink db p name target).2 := by
  rcases Cache.symlink_cases db p name target with he | ⟨-, -, he⟩
  · rw [he]
  · rw [he]
    have hadd : Many {} db (db.addInode .lnk 1 target.utf8ByteSize false).1 :=
      .single (.inode db .lnk 1 target.utf8ByteSize false)
    exact hadd.tail (.rest rfl rfl rfl)

theorem link_changes : Many {} db (link db i p name).2 := by
  rcases Cache.link_cases db i p name with he | ⟨x, -, -, -, -, he⟩
  · rw [he]
  · rw [he]
    have hupd : Many {} db (db.updInode i fun x => { x with nlink := x.nlink + 1 }) :=
      Many.updInode .refl (fun _ => rfl) fun _ => rfl
    exact hupd.tail (.rest rfl rfl rfl)

theorem rmdir_changes : Many (rmdirPermit db p name) db (rmdir db p name).2 := by
  rcases Cache.rmdir_cases db p name with he | ⟨x, hv, hx, hdir, hempty, he⟩
  · rw [he]
  · rw [he]
    have hchild : Many (rmdirPermit db p name) db (db.delChild p name) := .of_rest rfl rfl rfl
    have hdrop : Many (rmdirPermit db p name) db ((db.delChild p name).delInode x.ino) :=
      hchild.tail (.drop ⟨x, hv, hx, hdir, hempty, rfl⟩)
    exact hdrop.updInode (fun _ => rfl) fun _ => rfl

theorem purge_changes (h : Many P db db') (hdrop : P.drop i) (hunmap : P.unmap i) : Many P db (purge db' i) := by
  have hdata : Many P db ((db'.delData i).delSymlink i) := h.tail (.rest rfl rfl rfl)
  exact (hdata.tail (.unmap hunmap)).tail (.drop hdrop)

theorem removeDerived_changes (h : ∀ i, IsDerived db i → db.childIno p name = some i → P.drop i) :
    Many P db (removeDerivedSibling db p name) := by
  rcases Cache.removeDerived_cases db p name with he | ⟨x, hx, hd, he⟩
  · rw [he]
  · rw [he]
    obtain ⟨hc, hrow⟩ := Cache.childInode_named hx
    have hchild : Many P db ((db.delChild p name).delData x.ino) := .of_rest rfl rfl rfl
    exact hchild.tail (.drop (h x.ino ⟨x, hrow, hd⟩ hc))

/-- Entries and derived inodes only go. -/
theorem removeDerived_less : (IsDerived (removeDerivedSibling db p name) i → IsDerived db i) ∧
    ∀ q n k, (removeDerivedSibling db p name).childIno q n = some k → db.childIno q n = some k := by
  rcases Cache.removeDerived_cases db p name with he | ⟨x, -, -, he⟩
  · rw [he]
    exact ⟨id, fun _ _ _ hk => hk⟩
  · rw [he]
    have hget : (((db.delChild p name).delData x.ino).delInode x.ino).getInode i = if i =
      x.ino then none else db.getInode i :=
      getInode_delInode
    have hchild (q : Ino) (n : String) : (((db.delChild p name).delData x.ino).delInode x.ino).childIno q n =
        if q = p ∧ n = name then none else db.childIno q n := childIno_delChild
    refine ⟨fun ⟨y, hy, hyd⟩ => ?_, fun q n k hk => ?_⟩
    · rw [hget] at hy
      split_ifs at hy
      exact ⟨y, hy, hyd⟩
    · rw [hchild] at hk
      split_ifs at hk
      exact hk

theorem cascadeUnlink_changes {suffixes : List String}
    (h : ∀ i, IsDerived db i → ∀ s ∈ suffixes, db.childIno p (name ++ s) = some i → P.drop i) :
    Many P db (suffixes.foldl (fun db s => removeDerivedSibling db p (name ++ s)) db) := by
  induction suffixes generalizing db with
  | nil => exact .refl
  | cons s suffixes ih =>
    refine (removeDerived_changes fun i hd hc => h i hd s List.mem_cons_self hc).trans (ih fun i hd s' hs' hc => ?_)
    exact h i (removeDerived_less.1 hd) s' (List.mem_cons_of_mem _ hs') (removeDerived_less (i := i).2 _ _ _ hc)

theorem unlink_changes : Many (unlinkPermit db p name) db (unlink db true p name nowMs).2 := by
  rcases Cache.unlink_cases db true p name nowMs with he | ⟨x, q, hx, he⟩
  · rw [he]
  · rw [he]
    have hchild : Many (unlinkPermit db p name) db (db.delChild p name) := .of_rest rfl rfl rfl
    have hupd : Many (unlinkPermit db p name) db ((db.delChild p name).updInode x.ino fun i =>
      { i with nlink := i.nlink - 1 }) :=
      hchild.updInode (fun _ => rfl) fun _ => rfl
    have htables : Many (unlinkPermit db p name) db (unlinkTables db p name x) := by
      unfold unlinkTables
      dsimp only
      split_ifs with hlast
      · exact purge_changes hupd (.inl ⟨x, hx, rfl, hlast⟩) ⟨x, hx, rfl, hlast⟩
      · exact hupd
    have hqueue : Many (unlinkPermit db p name) db { unlinkTables db p name x with queue := q } :=
      htables.tail (.rest rfl rfl rfl)
    refine hqueue.trans (cascadeUnlink_changes fun i hi s hs hc => .inr ⟨?_, ⟨x, hx⟩, s, hs, ?_⟩)
    · -- what is derived now was so before
      obtain ⟨y, hy, hyd⟩ := hi
      have hsort : Cache.sortOf (unlinkTables db p name x) i = some (y.kind, y.derived) := congrArg (Option.map _) hy
      rcases Cache.unlinkTables_sort db p name x i with hs | ⟨-, hs⟩
      · rw [hs] at hsort
        obtain ⟨z, hz, hze⟩ := Option.map_eq_some_iff.mp hsort
        exact ⟨z, hz, (congrArg Prod.snd hze).trans hyd⟩
      · rw [hs] at hsort
        cases hsort
    · have hc : (unlinkTables db p name x).childIno p (name ++ s) = some i := hc
      have hdel : (unlinkTables db p name x).childIno p (name ++ s) = (db.delChild p name).childIno p (name ++ s) := by
        unfold childIno child
        rw [Cache.unlinkTables_dentries]
      rw [hdel, childIno_delChild] at hc
      split_ifs at hc
      exact hc

theorem cascadeRename_changes : Many {} db (cascadeRenameDerivedSiblings db p name p' name') := by
  unfold cascadeRenameDerivedSiblings
  generalize derivedSiblingSuffixes = suffixes
  induction suffixes generalizing db with
  | nil => exact .refl
  | cons s suffixes ih =>
    have hround : Many {} db (renameDerivedSibling db p (name ++ s) p' (name' ++ s)) := by
      rcases Cache.renameDerived_cases db p (name ++ s) p' (name' ++ s) with he | ⟨x, -, -, he | hm⟩
      · rw [he]
      · rw [he]
        exact .of_rest rfl rfl rfl
      · have hdel : Many {} db (db.delChild p' (name' ++ s)) := .of_rest rfl rfl rfl
        exact hdel.trans (moveDentries_changes hm)
    exact hround.trans ih

theorem rename_changes : Many (renamePermit db p name p' name') db (rename db true p name p' name' nowMs).2 := by
  rcases Cache.rename_cases db true p name p' name' nowMs with he | ⟨src, d, hr, hd, he⟩
  · rw [he]
  · rw [he]
    refine ReflTransGen.trans ?_ (Many.of_none cascadeRename_changes)
    have htables : Many (renamePermit db p name p' name') db (Cache.renamedTables db p name p' name') := by
      unfold Cache.renamedTables
      split
      · exact .of_rest rfl rfl rfl
      · rename_i j hj
        have hchild : Many (renamePermit db p name p' name') db (db.delChild p' name') := .of_rest rfl rfl rfl
        exact (purge_changes hchild ⟨src, hr, hj⟩ ⟨src, hr, hj⟩).tail (.rest rfl rfl rfl)
    cases hd with
    | queued q => exact htables.tail (.rest rfl rfl rfl)
    | @carried q j rid client carries replaced mapped =>
      have hqueue : Many (renamePermit db p name p' name') db { Cache.renamedTables db p name p' name' with queue := q } :=
        htables.tail (.rest rfl rfl rfl)
      exact hqueue.tail (.map ⟨src, j, hr, rfl, carries, replaced, mapped⟩)

theorem applyDeletion_changes {rid : String} : Many (deletionPermit db rid) db (applyDeletion db rid).2 := by
  rcases Cache.applyDeletion_cases db rid with he | ⟨i, d, hi, hd, hent, he⟩
  · rw [he]
  · rw [he]
    have hdata : Many (deletionPermit db rid) db ((db.delDentriesOf i).delData i) := .of_rest rfl rfl rfl
    have hdel : Deletes db rid i := ⟨hi, hd, Option.isSome_iff_exists.mpr ⟨d, hent⟩⟩
    exact (hdata.tail (.drop hdel)).tail (.unmap hdel)

/-! ### The worker and the poller -/

theorem pollRow_changes {row : AwaitingDone} {processing : List (String × String)}
    {terminal : Except ApiError Document} :
    Many (pollPermit row processing terminal nowMs) db (pollRow db row processing terminal nowMs) := by
  unfold pollRow
  dsimp only
  split_ifs with hstop
  · have hmark : Many (pollPermit row processing terminal nowMs) db (db.setMirroredState row.ino none (some "stuck") (some nowMs)) :=
      .single (.mark _ _ ⟨rfl, .inr (.inl rfl)⟩)
    exact hmark.updInode (fun _ => rfl) fun _ => rfl
  · split
    · rename_i d hd
      have hmem : d ∈ processing := List.mem_reverse.mp (List.mem_of_find?_eq_some hd)
      have hid : d.1 = row.remoteId := by simpa using List.find?_some hd
      exact .single (.mark _ _ ⟨rfl, .inr (.inr (.inl ⟨d, hmem, hid, rfl⟩))⟩)
    · rename_i hnone
      split
      · rename_i doc
        split_ifs with hdone
        · exact .single (.mark _ _ ⟨rfl, .inr (.inr (.inr ⟨doc, rfl, by rw [hdone]⟩))⟩)
        · exact .single (.mark _ _ ⟨rfl, .inr (.inr (.inr ⟨doc, rfl, rfl⟩))⟩)
      · exact .single (.unmap ⟨rfl, hstop, hnone, rfl⟩)
      · exact .single (.mark _ _ ⟨rfl, .inl rfl⟩)

theorem openDb_changes : Many { root := True } db db.openDb := by
  unfold openDb
  split_ifs with hroot
  · exact .refl
  · exact .single (.root (Option.not_isSome_iff_eq_none.mp hroot) trivial)

theorem dbStep_changes {j : PushJob} {ph : Phase} {next : Option Phase}
    (h : Task.dbStep db j nowMs ph = some (db', next)) :
    Many (phasePermit ph) db db' := by
  cases ph with
  | start => cases h; exact .refl
  | clearRemoteId rid =>
    cases h
    have hqueue : Many (phasePermit (.clearRemoteId rid)) db { db with queue := db.queue.setRemoteId j.filepath none } :=
      .of_rest rfl rfl rfl
    exact hqueue.tail (.forget rfl)
  | mapInode ino rid => cases h; exact .single (.map ⟨rfl, rfl⟩)
  | markMirrored ino => cases h; exact .single (.mark _ _ ⟨rfl, rfl⟩)
  | clearDirty ino => cases h; exact Many.updInode .refl (fun _ => rfl) fun _ => rfl
  | sibling status body => cases h; exact Many.of_none createDerivedSibling_changes.1
  | mapRow | succeed | fail | poison | drop => cases h; exact .of_rest rfl rfl rfl
  | wait | patch | post | upload | delete | lookup | rename => cases h

theorem mount_changes {m t : Mount} {a : Mount.Act} (hs : Sorted m.db) (h : m.step a = some t) :
    Many (permit m (.mount a)) m.db t.db := by
  cases a with
  | createFile parentIno n => cases h; exact createFile_changes
  | write f offset data now => cases h; exact write_changes
  | truncate f size => cases h; exact truncate_changes
  | flush f now => cases h; exact flush_changes
  | unlink parentIno n now => cases h; exact unlink_changes
  | rename op on np nn now => cases h; exact rename_changes
  | reconcile doc now => cases h; exact reconcileOne_changes hs
  | applyDeletion rid => cases h; exact applyDeletion_changes
  | rehydrate ino bytes => cases h; exact rewrite_changes
  | poll row processing terminal now => cases h; exact pollRow_changes
  | claim now =>
    unfold Mount.step at h
    split_ifs at h
    obtain ⟨⟨j, q⟩, -, rfl⟩ := Option.map_eq_some_iff.mp h
    exact .of_rest rfl rfl rfl
  | taskDb i now =>
    unfold Mount.step at h
    obtain ⟨k, hk, h⟩ := Option.bind_eq_some_iff.mp h
    obtain ⟨⟨db, next⟩, hd, rfl⟩ := Option.map_eq_some_iff.mp h
    rw [permit_task hk]
    exact dbStep_changes hd
  | taskAnswer i answer timedOut =>
    unfold Mount.step at h
    obtain ⟨k, -, h⟩ := Option.bind_eq_some_iff.mp h
    obtain ⟨next, -, rfl⟩ := Option.map_eq_some_iff.mp h
    exact .refl
  | crash => cases h; exact openDb_changes

/-- A step changes what its permit says. -/
theorem step_changes {m t : Mount} {a : Act} (hs : Sorted m.db) (h : step m a = some t) :
    Many (permit m a) m.db t.db := by
  cases a with
  | mount a => exact mount_changes hs h
  | setattr ino size => cases h; exact setattr_changes
  | name op now =>
    cases h
    cases op with
    | mkdir p n => exact mkdir_changes
    | rmdir p n => exact rmdir_changes
    | createFile p n => exact createFile_changes
    | unlink p n => exact unlink_changes
    | symlink p n target => exact symlink_changes
    | link i p n => exact link_changes
    | rename p n p' n' => exact rename_changes

/-! ### What is gone -/

theorem purge_gone : (purge db i).getInode i = none := by
  unfold purge
  rw [getInode_delInode, if_pos rfl]

theorem unlink_gone {x : Inode} (h : Cache.Unlinks db p name x) (hlast : x.nlink - 1 ≤ 0) (hi : x.ino < db.nextIno) :
    (unlink db true p name nowMs).2.getInode x.ino = none := by
  rw [unlink_of_checks h]
  have htables : (unlinkTables db p name x).getInode x.ino = none := by
    unfold unlinkTables
    dsimp only
    rw [if_pos hlast]
    exact purge_gone
  have hnext : (unlinkTables db p name x).nextIno = db.nextIno := by
    unfold unlinkTables
    dsimp only
    split_ifs
    rfl
  have henq : ∃ q, unlinkEnqueue (unlinkTables db p name x) true (childPath db p name) x.ino nowMs =
      { unlinkTables db p name x with queue := q } := by
    unfold unlinkEnqueue
    cases childPath db p name <;> exact ⟨_, rfl⟩
  obtain ⟨q, hq⟩ := henq
  rw [hq]
  have hmany : Many { drop := fun _ => True } { unlinkTables db p name x with queue := q }
      (cascadeUnlinkDerivedSiblings { unlinkTables db p name x with queue := q } p name) :=
    cascadeUnlink_changes fun _ _ _ _ _ => trivial
  exact hmany.gone nofun (hi.trans_le hnext.ge) htables

theorem rename_gone {src : Inode} (h : Cache.Renames db p name p' name' src) (hj : db.childIno p' name' = some i)
    (hi : i < db.nextIno) : (rename db true p name p' name' nowMs).2.getInode i = none := by
  obtain ⟨r, ht⟩ := renameTables_ok h
  rw [rename_of_checks h ht]
  have htables : (Cache.renamedTables db p name p' name').getInode i = none ∧
      (Cache.renamedTables db p name p' name').nextIno = db.nextIno := by
    unfold Cache.renamedTables
    rw [hj]
    exact ⟨purge_gone, rfl⟩
  have hpushed : Cache.Pushed db true p name p' name' src.ino (renamePush r true src.ino (childPath db p name)
    (childPath r.db p' name') (childPath db p' name') nowMs) := Cache.pushed_of_tables true nowMs ht
  generalize renamePush r true src.ino
    (childPath db p name) (childPath r.db p' name') (childPath db p' name') nowMs = d at hpushed ⊢
  have hd : d.getInode i = none ∧ d.nextIno = db.nextIno := by
    cases hpushed with
    | queued q => exact htables
    | carried => exact htables
  exact cascadeRename_changes.gone nofun (hi.trans_le hd.2.ge) hd.1

theorem applyDeletion_gone {rid : String} (h : Deletes db rid i) : (applyDeletion db rid).2.getInode i = none := by
  obtain ⟨hi, hd, hent⟩ := h
  obtain ⟨d, hent⟩ := Option.isSome_iff_exists.mp hent
  have hrun : (applyDeletion db rid).2 = (((db.delDentriesOf i).delData i).delInode i).deleteRemoteId i := by
    unfold applyDeletion
    rw [hi]
    dsimp only
    rw [hd, hent]
    rfl
  rw [hrun]
  show (((db.delDentriesOf i).delData i).delInode i).getInode i = none
  rw [getInode_delInode, if_pos rfl]

/-- What loses its document as it goes is gone. -/
theorem step_gone {m t : Mount} {a : Act} (h : step m a = some t) (hunmap : (permit m a).unmap i)
    (hdrop : (permit m a).drop i) (hi : i < m.db.nextIno) : t.db.getInode i = none := by
  cases a with
  | setattr ino size => cases hdrop
  | name op now =>
    cases h
    cases op with
    | unlink p n =>
      obtain ⟨x, hx, rfl, hlast⟩ := hunmap
      exact unlink_gone hx hlast hi
    | rename p n p' n' =>
      obtain ⟨src, hr, hj⟩ := hunmap
      exact rename_gone hr hj hi
    | mkdir | rmdir | createFile | symlink | link => cases hunmap
  | mount a =>
    cases a with
    | unlink p n now =>
      cases h
      obtain ⟨x, hx, rfl, hlast⟩ := hunmap
      exact unlink_gone hx hlast hi
    | rename p n p' n' now =>
      cases h
      obtain ⟨src, hr, hj⟩ := hunmap
      exact rename_gone hr hj hi
    | applyDeletion rid =>
      cases h
      exact applyDeletion_gone hunmap
    | taskDb k now =>
      unfold permit at hdrop
      dsimp only at hdrop
      cases hk : m.tasks[k]? with
      | none =>
        rw [hk] at hdrop
        cases hdrop
      | some x =>
        rw [hk] at hdrop
        cases x with
        | mk j ph => cases ph <;> cases hdrop
    | createFile | write | truncate | flush | reconcile | rehydrate | poll | claim | taskAnswer | crash => cases hdrop

theorem step_sorted {m t : Mount} {a : Act} (h : step m a = some t) (hs : Sorted m.db) : Sorted t.db :=
  (step_changes hs h).sorted hs

end Calls

end Changes
end Smfs
