/-
# The cache and the file system in memory

`SupermemoryFs` without an API client and `MemFs` are two implementations of
one trait. Both number the inodes they make in turn, so one number stands for
the same inode in both, and the operations on names keep their trees the same
(`Inv`).

They answer alike but in four cases: `SupermemoryFs` looks a name up without
looking at its directory, so a file in its place is `NotFound` and not
`NotADirectory`; it never unlinks the profile; the error of a rename that
meets a name without an inode, which a rename over one of several names leaves
behind, is the error of its query; and a rename of a directory into itself or
below itself, which `MemFs` answers, never returns. A fifth case is a count of
links that does not fit `MemFs`'s 32 bits.

Key definitions: `Parity.St`, `Parity.Alike`, `Parity.Agrees`, `Parity.ParityOk`, `Parity.Inv`.
Key theorems: `Parity.apply_inv`, `Parity.parity_breaks`, `Parity.parity`, `Parity.differs`.
-/
import Smfs.Lib.Reach
import Smfs.Mem
import Smfs.Names.Walks

namespace Smfs
namespace Parity

open Trans Db Fs

/-- The tables of the cache and the nodes in memory. -/
structure St where
  db : Db
  mem : MemFs
  deriving DecidableEq

/-- An operation on both. -/
def step (nowMs : ℤ) (s : St) (op : NameOp) : Option St :=
  some ⟨(op.apply s.db false nowMs).2, (s.mem.apply op).2⟩

/-- The inodes are of one kind with one count of links. -/
inductive NodeAlike : Option Inode → Option Node → Prop
  | none : NodeAlike none none
  | some {i : Inode} {n : Node} (kind : i.kind = n.kind) (nlink : i.nlink = n.nlink.toNat) :
      NodeAlike (some i) (some n)

/-- The trees have the same inodes, names and targets. -/
structure Alike (db : Db) (m : MemFs) : Prop where
  node : ∀ ino, NodeAlike (db.getInode ino) (m.getNode ino)
  child : ∀ ino name, db.childIno ino name = (m.getNode ino).bind (MemFs.childOf · name)
  target : ∀ ino, readlink db ino = m.readlink ino

/-- The operation returns, answers alike and leaves the trees alike. `MemFs` has no
loop that could keep an answer back. -/
def Agrees (nowMs : ℤ) (s : St) (op : NameOp) : Prop :=
  Walks.Returns s.db false op ∧ (op.apply s.db false nowMs).1 = (s.mem.apply op).1 ∧
    Alike (op.apply s.db false nowMs).2 (s.mem.apply op).2

/-- Something that is no directory. -/
def IsFile (db : Db) (ino : Ino) : Prop := ∃ i, db.getInode ino = some i ∧ i.kind ≠ .dir

/-- Another link can be counted in 32 bits. -/
def Fits (db : Db) (ino : Ino) : Prop := ∀ i, db.getInode ino = some i → i.nlink + 1 < 2 ^ 32

/-- An entry is not looked up in a file, the profile is not unlinked, a rename
finds inodes under its names and moves no directory into or below itself, and a
count that grows stays below `2 ^ 32`. -/
def ParityOk (s : St) : NameOp → Prop
  | .mkdir p n => validateName n = .ok () → vacant s.db p n = .ok () → Fits s.db p
  | .rmdir p n => validateName n = .ok () → ¬ IsFile s.db p
  | .unlink p n => ¬ (p = ROOT_INO ∧ n = PROFILE_NAME) ∧ (validateName n = .ok () → ¬ IsFile s.db p)
  | .link i p n => validateName n = .ok () → vacant s.db p n = .ok () → IsFile s.db i → Fits s.db i
  | .rename p n p' n' => (validateName n = .ok () → validateName n' = .ok () → ¬ IsFile s.db p ∧
      ∀ src parent, s.db.childIno p n = some src → s.db.getInode p' = some parent → parent.kind = .dir →
        (s.db.getInode src).isSome = true ∧
          ∀ dst, s.db.childIno p' n' = some dst → dst ≠ src → (s.db.getInode dst).isSome = true) ∧
      Walks.StaysAbove s.db (.rename p n p' n')
  | _ => True

/-- What the two have in common, and what their updates rely on. -/
structure Inv (db : Db) (m : MemFs) : Prop where
  next : db.nextIno = m.nextIno
  bounded : db.Bounded
  node : ∀ ino, NodeAlike (db.getInode ino) (m.getNode ino)
  child : ∀ ino name, db.childIno ino name = (m.getNode ino).bind (MemFs.childOf · name)
  target : ∀ ino, (Table.get Prod.fst db.symlinks ino).map Prod.snd = (m.getNode ino).bind Node.target
  plain : ∀ x ∈ db.inodes, x.derived = false
  dirs : ∀ ino node, m.getNode ino = some node → node.kind = .dir → 2 ≤ node.nlink.toNat

section Lemmas

variable {db : Db} {m : MemFs} {i j p : Ino} {name : String}

/-! ### What they have in common -/

theorem Inv.start : Inv .fresh .new where
  next := rfl
  bounded := ⟨by decide, by decide, by decide, by decide, by decide⟩
  node := by
    intro ino
    by_cases h : ROOT_INO = ino
    · subst h
      exact .some rfl rfl
    · have h1 : Db.fresh.getInode ino = none := by
        show Table.get Inode.ino [rootInode] ino = none
        rw [Table.get_cons, if_neg (show ¬ rootInode.ino = ino from h), Table.get_nil]
      have h2 : MemFs.new.getNode ino = none := by
        show (Table.get Prod.fst [(ROOT_INO, Node.directory 2 [])] ino).map Prod.snd = none
        rw [Table.get_cons, if_neg h, Table.get_nil]
        rfl
      rw [h1, h2]
      exact .none
  child := by
    intro ino name
    show none = ((Table.get Prod.fst [(ROOT_INO, Node.directory 2 [])] ino).map Prod.snd).bind _
    rw [Table.get_cons]
    split_ifs <;> rfl
  target := by
    intro ino
    show none = ((Table.get Prod.fst [(ROOT_INO, Node.directory 2 [])] ino).map Prod.snd).bind _
    rw [Table.get_cons]
    split_ifs <;> rfl
  plain := by decide
  dirs := by
    intro ino node h _
    have h : (Table.get Prod.fst [(ROOT_INO, Node.directory 2 [])] ino).map Prod.snd = some node := h
    rw [Table.get_cons] at h
    split_ifs at h
    · cases h
      decide
    · cases h

theorem Inv.none_iff (h : Inv db m) : db.getInode i = none ↔ m.getNode i = none := by
  have := h.node i
  cases hi : db.getInode i <;> cases hn : m.getNode i <;> rw [hi, hn] at this <;> cases this <;> simp

theorem Inv.some_of_inode (h : Inv db m) {x : Inode} (hx : db.getInode i = some x) :
    ∃ node, m.getNode i = some node ∧ x.kind = node.kind ∧ x.nlink = node.nlink.toNat := by
  have := h.node i
  rw [hx] at this
  cases hn : m.getNode i with
  | none =>
    rw [hn] at this
    cases this
  | some node =>
    rw [hn] at this
    cases this with
    | some kind nlink => exact ⟨node, rfl, kind, nlink⟩

theorem Inv.some_of_node (h : Inv db m) {node : Node} (hn : m.getNode i = some node) :
    ∃ x, db.getInode i = some x ∧ x.kind = node.kind ∧ x.nlink = node.nlink.toNat := by
  cases hx : db.getInode i with
  | none =>
    rw [h.none_iff.mp hx] at hn
    cases hn
  | some x =>
    obtain ⟨node', hn', hk, hl⟩ := h.some_of_inode hx
    obtain rfl : node' = node := Option.some.inj (hn'.symm.trans hn)
    exact ⟨x, rfl, hk, hl⟩

theorem Inv.alike (h : Inv db m) : Alike db m := by
  refine ⟨h.node, h.child, fun ino => ?_⟩
  have htarget := h.target ino
  unfold readlink MemFs.readlink
  cases hx : db.getInode ino with
  | none => rw [h.none_iff.mp hx]
  | some x =>
    obtain ⟨node, hn, hk, -⟩ := h.some_of_inode hx
    rw [hn] at htarget ⊢
    dsimp only
    cases node with
    | symlink k t =>
      have hlnk : ¬ x.kind ≠ .lnk := not_not.mpr hk
      obtain ⟨row, hrow, ht⟩ := Option.map_eq_some_iff.mp htarget
      rw [if_neg hlnk, hrow]
      exact congrArg (fun target => Except.ok (some target)) ht
    | file k data =>
      have hlnk : x.kind ≠ .lnk := ne_of_eq_of_ne hk (by decide : FileKind.reg ≠ .lnk)
      rw [if_pos hlnk]
      rfl
    | directory k c =>
      have hlnk : x.kind ≠ .lnk := ne_of_eq_of_ne hk (by decide : FileKind.dir ≠ .lnk)
      rw [if_pos hlnk]
      rfl

/-! ### Updates of both -/

theorem NodeAlike.map {a : Option Inode} {b : Option Node} {f : Node → Node} (hk : ∀ n, (f n).kind = n.kind)
    (hl : ∀ n, (f n).nlink = n.nlink) (h : NodeAlike a b) : NodeAlike a (b.map f) := by
  cases h with
  | none => exact .none
  | some kind nlink =>
    refine .some (kind.trans (hk _).symm) ?_
    rw [hl]
    exact nlink

theorem kind_mapChildren {f : List (String × Ino) → List (String × Ino)} {n : Node} :
    (n.mapChildren f).kind = n.kind ∧ (n.mapChildren f).nlink = n.nlink ∧ (n.mapChildren f).target = n.target := by
  cases n <;> exact ⟨rfl, rfl, rfl⟩

theorem kind_setNlink {k : UInt32} {n : Node} : (n.setNlink k).kind = n.kind ∧ (n.setNlink k).nlink = k ∧
    (n.setNlink k).target = n.target ∧ (n.setNlink k).children = n.children := by
  cases n <;> exact ⟨rfl, rfl, rfl, rfl⟩

/-- The number that is given out next stands for nothing. -/
theorem Inv.fresh (h : Inv db m) : m.getNode m.nextIno = none := by
  rw [← h.next, ← h.none_iff]
  exact Table.get_none.mpr fun x hx => (h.bounded.inodes x hx).ne

/-- A new inode without entries. -/
theorem Inv.addNode {node : Node} {nlink : ℤ} {syms : List (Ino × String)} (h : Inv db m) (size : ℤ)
    (hl : nlink = node.nlink.toNat) (hc : node.children = []) (hd : node.kind = .dir → 2 ≤ node.nlink.toNat)
    (ht : ∀ j, (Table.get Prod.fst syms j).map Prod.snd =
      if j = db.nextIno then node.target else (Table.get Prod.fst db.symlinks j).map Prod.snd) :
    Inv { (db.addInode node.kind nlink size false).1 with symlinks := syms } (m.addNode node).1 := by
  have hadd : (db.addInode node.kind nlink size false).1.Bounded := h.bounded.addInode
  have hget (j : Ino) : (m.addNode node).1.getNode j = if j = db.nextIno then some node else m.getNode j := by
    rw [MemFs.getNode_addNode h.fresh, h.next]
  refine ⟨congrArg (· + 1) h.next, ⟨hadd.inodes, hadd.dentries, hadd.data, hadd.remotes, hadd.sorted⟩,
    fun j => ?_, fun q n => ?_, fun j => ?_, fun x hx => ?_, fun j nd hj hk => ?_⟩
  · rw [hget]
    have hinode : (db.addInode node.kind nlink size false).1.getInode j = _ := h.bounded.getInode_addInode
    show NodeAlike ((db.addInode node.kind nlink size false).1.getInode j) _
    rw [hinode]
    split_ifs
    · exact .some rfl hl
    · exact h.node j
  · rw [hget]
    refine (h.child q n).trans ?_
    split_ifs with hq
    · rw [hq, h.next, h.fresh]
      show none = MemFs.childOf node n
      unfold MemFs.childOf
      rw [hc]
      rfl
    · rfl
  · rw [hget]
    refine (ht j).trans ?_
    split_ifs
    · rfl
    · exact h.target j
  · rcases List.mem_append.mp hx with hx | hx
    · exact h.plain x hx
    · rw [List.mem_singleton.mp hx]
  · rw [hget] at hj
    split_ifs at hj
    · cases hj
      exact hd hk
    · exact h.dirs j nd hj hk

/-- The entries of one directory change. -/
theorem Inv.mapChildren {db' : Db} {f : List (String × Ino) → List (String × Ino)} (h : Inv db m)
    (hi : db'.inodes = db.inodes) (hn : db'.nextIno = db.nextIno) (hs : db'.symlinks = db.symlinks)
    (hb : db'.Bounded) (hc : ∀ q n, db'.childIno q n = if q = p then
      (m.getNode p).bind fun node => MemFs.childOf (node.mapChildren f) n else db.childIno q n) :
    Inv db' (m.updNode p (Node.mapChildren f)) := by
  refine ⟨hn.trans h.next, hb, fun j => ?_, fun q n => ?_, fun j => ?_, fun x hx => ?_, fun j nd hj hk => ?_⟩
  · have hinode : db'.getInode j = db.getInode j := by
      unfold Db.getInode
      rw [hi]
    rw [hinode, MemFs.getNode_updNode]
    split_ifs with hj
    · rw [hj]
      exact (h.node p).map (fun _ => kind_mapChildren.1) fun _ => kind_mapChildren.2.1
    · exact h.node j
  · rw [hc, MemFs.getNode_updNode]
    split_ifs
    · cases m.getNode p <;> rfl
    · exact h.child q n
  · rw [hs, h.target, MemFs.getNode_updNode]
    split_ifs with hj
    · rw [hj]
      cases m.getNode p with
      | none => rfl
      | some node => exact kind_mapChildren.2.2.symm
    · rfl
  · rw [hi] at hx
    exact h.plain x hx
  · rw [MemFs.getNode_updNode] at hj
    split_ifs at hj
    · obtain ⟨nd', hnd', rfl⟩ := Option.map_eq_some_iff.mp hj
      rw [kind_mapChildren.1] at hk
      rw [kind_mapChildren.2.1]
      exact h.dirs p nd' hnd' hk
    · exact h.dirs j nd hj hk

theorem Inv.addChild {parent : Node} (h : Inv db m) (hp : m.getNode p = some parent)
    (hd : parent.isDirectory = true) (hfree : db.childIno p name = none) (hi : i < db.nextIno) :
    Inv (db.addDentry name p i) (m.insertChild p name i) := by
  refine h.mapChildren rfl rfl rfl (h.bounded.addDentry hi) fun q n => ?_
  rw [childIno_addDentry, hp]
  show _ = if q = p then MemFs.childOf _ n else _
  rw [MemFs.childOf_insert hd]
  by_cases hq : q = p
  · subst hq
    rw [if_pos rfl, h.child, hp]
    by_cases hn : n = name
    · subst hn
      rw [h.child, hp] at hfree
      rw [if_pos ⟨rfl, rfl⟩, if_pos rfl, hfree, Option.none_or]
    · rw [if_neg fun he => hn he.2, if_neg hn, Option.or_none]
      rfl
  · rw [if_neg fun he => hq he.1, if_neg hq, Option.or_none]

theorem Inv.delChild (h : Inv db m) (p : Ino) (name : String) : Inv (db.delChild p name) (m.removeChild p name) := by
  have hb : (db.delChild p name).Bounded :=
    h.bounded.of_subset rfl (List.Subset.refl _) (List.filter_subset_self _) (List.Subset.refl _) (List.Sublist.refl _)
  refine h.mapChildren rfl rfl rfl hb fun q n => ?_
  rw [childIno_delChild]
  by_cases hq : q = p
  · subst hq
    rw [if_pos rfl, h.child]
    cases m.getNode q with
    | none =>
      show (if _ then none else none) = none
      split_ifs <;> rfl
    | some node =>
      show _ = MemFs.childOf _ n
      rw [MemFs.childOf_erase]
      by_cases hn : n = name
      · rw [if_pos ⟨rfl, hn⟩, if_pos hn]
      · rw [if_neg fun he => hn he.2, if_neg hn]
        rfl
  · rw [if_neg fun he => hq he.1, if_neg hq]

/-- The link count of an inode changes. -/
theorem Inv.setNlink {f : ℤ → ℤ} {g : Node → Node} (h : Inv db m) (hg : ∀ node, m.getNode i = some node →
      ∃ k, g node = node.setNlink k ∧ f node.nlink.toNat = k.toNat ∧ (node.kind = .dir → 2 ≤ k.toNat)) :
    Inv (db.updInode i fun x => { x with nlink := f x.nlink }) (m.updNode i g) := by
  have hf : ∀ x : Inode, ({ x with nlink := f x.nlink } : Inode).ino = x.ino := fun _ => rfl
  refine ⟨h.next, h.bounded.updInode hf, fun j => ?_, fun q n => ?_, fun j => ?_, fun x hx => ?_, fun j nd hj hk => ?_⟩
  · rw [getInode_updInode hf, MemFs.getNode_updNode]
    split_ifs
    · cases hn : m.getNode i with
      | none =>
        rw [h.none_iff.mpr hn]
        exact .none
      | some node =>
        obtain ⟨x, hx, hk, hl⟩ := h.some_of_node hn
        obtain ⟨k, hgk, hfk, -⟩ := hg node hn
        rw [hx, Option.map_some, Option.map_some, hgk]
        refine .some (hk.trans kind_setNlink.1.symm) ?_
        rw [kind_setNlink.2.1, ← hfk, ← hl]
    · exact h.node j
  · refine (h.child q n).trans ?_
    rw [MemFs.getNode_updNode]
    split_ifs with hq
    · rw [hq]
      cases hn : m.getNode i with
      | none => rfl
      | some node =>
        obtain ⟨k, hgk, -⟩ := hg node hn
        show MemFs.childOf node n = MemFs.childOf (g node) n
        unfold MemFs.childOf
        rw [hgk, kind_setNlink.2.2.2]
    · rfl
  · refine (h.target j).trans ?_
    rw [MemFs.getNode_updNode]
    split_ifs with hj
    · rw [hj]
      cases hn : m.getNode i with
      | none => rfl
      | some node =>
        obtain ⟨k, hgk, -⟩ := hg node hn
        show node.target = (g node).target
        rw [hgk, kind_setNlink.2.2.1]
    · rfl
  · obtain ⟨y, hy, rfl⟩ := Table.mem_modify.mp hx
    have := h.plain y hy
    split_ifs <;> exact this
  · rw [MemFs.getNode_updNode] at hj
    split_ifs at hj
    · obtain ⟨nd', hnd', rfl⟩ := Option.map_eq_some_iff.mp hj
      obtain ⟨k, hgk, -, hdir⟩ := hg nd' hnd'
      rw [hgk, kind_setNlink.1] at hk
      rw [hgk, kind_setNlink.2.1]
      exact hdir hk
    · exact h.dirs j nd hj hk

/-- An inode without entries goes. -/
theorem Inv.removeNode {db' : Db} (h : Inv db m) (hb : db'.Bounded)
    (hi : db'.inodes = Table.erase Inode.ino db.inodes i)
    (hn : db'.nextIno = db.nextIno) (hd : db'.dentries = db.dentries) (hempty : ∀ n, db.childIno i n = none)
    (ht : ∀ j, (Table.get Prod.fst db'.symlinks j).map Prod.snd =
      if j = i then none else (Table.get Prod.fst db.symlinks j).map Prod.snd) : Inv db' (m.removeNode i) := by
  refine ⟨hn.trans h.next, hb, fun j => ?_, fun q n => ?_, fun j => ?_, fun x hx => ?_, fun j nd hj hk => ?_⟩
  · have hinode : db'.getInode j = if j = i then none else db.getInode j := by
      unfold Db.getInode
      rw [hi]
      exact Table.get_erase _ _ _
    rw [hinode, MemFs.getNode_removeNode]
    split_ifs
    · exact .none
    · exact h.node j
  · have hchild : db'.childIno q n = db.childIno q n := by
      unfold Db.childIno Db.child
      rw [hd]
    rw [hchild, MemFs.getNode_removeNode]
    split_ifs with hq
    · rw [hq]
      exact hempty n
    · exact h.child q n
  · rw [ht, MemFs.getNode_removeNode]
    split_ifs
    · rfl
    · exact h.target j
  · rw [hi] at hx
    exact h.plain x (Table.mem_erase.mp hx).1
  · rw [MemFs.getNode_removeNode] at hj
    split_ifs at hj
    exact h.dirs j nd hj hk

/-- The database is only known by what it finds. -/
theorem Inv.congr {db' : Db} (h : Inv db m) (hb : db'.Bounded) (hi : db'.inodes = db.inodes)
    (hn : db'.nextIno = db.nextIno) (hs : db'.symlinks = db.symlinks)
    (hc : ∀ q n, db'.childIno q n = db.childIno q n) : Inv db' m := by
  refine ⟨hn.trans h.next, hb, fun j => ?_, fun q n => (hc q n).trans (h.child q n), fun j => ?_,
    fun x hx => ?_, h.dirs⟩
  · unfold Db.getInode
    rw [hi]
    exact h.node j
  · rw [hs]
    exact h.target j
  · rw [hi] at hx
    exact h.plain x hx

theorem Inv.moveChild {parent : Node} {p' : Ino} {name' : String} (h : Inv db m) (hp : m.getNode p' = some parent)
    (hd : parent.isDirectory = true) (hsrc : db.childIno p name = some i) (hfree : db.childIno p' name' = none) :
    Inv (Fs.moveChild db p name p' name') (m.moveChild i p name p' name') := by
  have hne : (p, name) ≠ (p', name') := by
    intro he
    cases he
    rw [hsrc] at hfree
    cases hfree
  have hfree' : (db.delChild p name).childIno p' name' = none := by
    rw [childIno_delChild, hfree]
    split_ifs <;> rfl
  obtain ⟨parent', hp', hd'⟩ : ∃ parent', (m.removeChild p name).getNode p' = some parent' ∧
    parent'.isDirectory = true := by
    unfold MemFs.removeChild
    rw [MemFs.getNode_updNode]
    split_ifs with hpp
    · rw [← hpp, hp]
      refine ⟨_, rfl, ?_⟩
      unfold Node.isDirectory
      rw [kind_mapChildren.1]
      exact hd
    · exact ⟨parent, hp, hd⟩
  have hadd := (h.delChild p name).addChild hp' hd' hfree' (h.bounded.childIno hsrc)
  refine hadd.congr ⟨h.bounded.inodes, fun d hd => ?_, h.bounded.data, h.bounded.remotes, h.bounded.sorted⟩ rfl rfl rfl
    fun q n => ?_
  · obtain ⟨x, hx, rfl⟩ := List.mem_map.mp hd
    have := h.bounded.dentries x hx
    split_ifs <;> exact this
  · rw [childIno_moveChild hfree hne, childIno_addDentry, childIno_delChild, hsrc]
    by_cases h1 : q = p' ∧ n = name'
    · obtain ⟨rfl, rfl⟩ := h1
      have h2 : ¬ (q = p ∧ n = name) := fun he => hne (by rw [he.1, he.2])
      rw [if_pos ⟨rfl, rfl⟩, if_neg h2, if_pos ⟨rfl, rfl⟩, hfree, Option.none_or]
    · rw [if_neg h1, if_neg h1, Option.or_none]

theorem Inv.purge (h : Inv db m) (hempty : ∀ n, db.childIno i n = none) :
    Inv (Fs.purge db i) (m.removeNode i) := by
  have hb : (Fs.purge db i).Bounded :=
    h.bounded.of_subset rfl (Table.erase_sublist _ _).subset (List.Subset.refl _) (List.filter_subset_self _)
      (Table.erase_sublist _ _)
  refine h.removeNode hb rfl rfl rfl hempty fun j => ?_
  show (Table.get Prod.fst (Table.erase Prod.fst db.symlinks i) j).map Prod.snd = _
  rw [Table.get_erase]
  split_ifs <;> rfl

/-! ### The checks of both -/

theorem Inv.isDirectory (h : Inv db m) {x : Inode} (hx : db.getInode i = some x) {node : Node}
    (hn : m.getNode i = some node) : node.isDirectory = decide (x.kind = .dir) := by
  obtain ⟨node', hn', hk, -⟩ := h.some_of_inode hx
  obtain rfl : node' = node := Option.some.inj (hn'.symm.trans hn)
  unfold Node.isDirectory
  rw [hk]

theorem Inv.vacant (h : Inv db m) : m.vacant p name = Fs.vacant db p name := by
  unfold MemFs.vacant MemFs.directory Fs.vacant
  cases hx : db.getInode p with
  | none => rw [h.none_iff.mp hx]
  | some x =>
    obtain ⟨node, hn, hk, -⟩ := h.some_of_inode hx
    have hchild : (db.child p name).isSome = (MemFs.childOf node name).isSome := by
      have := h.child p name
      rw [hn] at this
      rw [← Option.isSome_map, ← Db.childIno, this]
      rfl
    rw [hn]
    dsimp only
    rw [h.isDirectory hx hn, hchild]
    by_cases hd : x.kind = .dir
    · rw [if_pos (decide_eq_true hd), if_neg (not_not.mpr hd)]
    · rw [if_neg (by simpa using hd), if_pos hd]

theorem Inv.vacant_ok (h : Inv db m) (hv : Fs.vacant db p name = .ok ()) :
    (∃ parent, m.getNode p = some parent ∧ parent.isDirectory = true) ∧ db.childIno p name = none := by
  unfold Fs.vacant at hv
  split at hv
  · cases hv
  · rename_i x hx
    split_ifs at hv with hd hc
    obtain ⟨node, hn, -⟩ := h.some_of_inode hx
    refine ⟨⟨node, hn, (h.isDirectory hx hn).trans (decide_eq_true (not_not.mp hd))⟩, ?_⟩
    unfold Db.childIno
    rw [Option.not_isSome_iff_eq_none.mp hc]
    rfl

theorem Inv.child_ok (h : Inv db m) (hf : ¬ IsFile db p) : m.child p name =
    match db.childIno p name with
    | none => .error .notFound
    | some i => .ok i := by
  unfold MemFs.child MemFs.directory
  rw [h.child]
  cases hn : m.getNode p with
  | none => rfl
  | some node =>
    obtain ⟨x, hx, -⟩ := h.some_of_node hn
    have hd : x.kind = .dir := by
      by_contra hk
      exact hf ⟨x, hx, hk⟩
    dsimp only
    rw [h.isDirectory hx hn, if_pos (decide_eq_true hd)]
    dsimp only
    show _ = (match MemFs.childOf node name with
      | none => .error .notFound
      | some i => .ok i : Except VfsError Ino)
    cases MemFs.childOf node name <;> rfl

/-- Nothing is found in a file, which only one of the two tells. -/
theorem Inv.child_file (h : Inv db m) (hf : IsFile db p) (name : String) :
    m.child p name = .error .notADirectory ∧ db.childIno p name = none := by
  obtain ⟨x, hx, hk⟩ := hf
  obtain ⟨node, hn, hkn, -⟩ := h.some_of_inode hx
  have hd : ¬ node.isDirectory = true := by
    rw [h.isDirectory hx hn]
    simpa using hk
  refine ⟨?_, ?_⟩
  · unfold MemFs.child MemFs.directory
    rw [hn]
    dsimp only
    rw [if_neg hd]
  · rw [h.child, hn]
    cases node with
    | directory => exact absurd rfl hd
    | file | symlink => rfl

theorem Inv.hasEntries (h : Inv db m) {node : Node} (hn : m.getNode i = some node) :
    (db.dentries.filter fun d => d.parentIno = i).length > 0 ↔ (!node.children.isEmpty) = true := by
  have hchild (n : String) : db.childIno i n = MemFs.childOf node n := by
    rw [h.child, hn]
    rfl
  rw [gt_iff_lt, List.length_pos_iff_exists_mem]
  constructor
  · rintro ⟨d, hd⟩
    obtain ⟨hd, hp⟩ := List.mem_filter.mp hd
    have hsome := childIno_isSome hd
    rw [of_decide_eq_true hp, hchild] at hsome
    unfold MemFs.childOf at hsome
    cases hc : node.children with
    | nil =>
      rw [hc] at hsome
      cases hsome
    | cons => rfl
  · intro hne
    cases hc : node.children with
    | nil =>
      rw [hc] at hne
      cases hne
    | cons e l =>
      have hget : MemFs.childOf node e.1 = some e.2 := by
        unfold MemFs.childOf
        rw [hc, Table.get_cons, if_pos rfl]
        rfl
      rw [← hchild] at hget
      exact ⟨_, List.mem_filter.mpr ⟨childIno_some hget, decide_eq_true rfl⟩⟩

theorem Inv.noEntries (h : Inv db m) {node : Node} (hn : m.getNode i = some node) (hc : node.children = [])
    (n : String) : db.childIno i n = none := by
  rw [h.child, hn]
  show MemFs.childOf node n = none
  unfold MemFs.childOf
  rw [hc]
  rfl

theorem children_of_file {node : Node} (h : ¬ node.isDirectory = true) : node.children = [] := by
  cases node with
  | directory => exact absurd rfl h
  | file | symlink => rfl

/-- An entry stands in a directory. -/
theorem Inv.parent (h : Inv db m) (hc : db.childIno p name = some i) :
    ∃ node, m.getNode p = some node ∧ node.isDirectory = true := by
  rw [h.child] at hc
  obtain ⟨node, hn, hc⟩ := Option.bind_eq_some_iff.mp hc
  refine ⟨node, hn, ?_⟩
  by_contra hd
  unfold MemFs.childOf at hc
  rw [children_of_file hd] at hc
  cases hc

/-! ### The operations -/

/-- The same answer, and trees with everything in common. -/
def Same (a : Option VfsError × Db) (b : Option VfsError × MemFs) : Prop := a.1 = b.1 ∧ Inv a.2 b.2

theorem create_ok {node : Node} (hv : validateName name = .ok ()) (hvac : m.vacant p name = .ok ()) :
    m.create p name node = (.ok m.nextIno, (m.addNode node).1.insertChild p name m.nextIno) := by
  unfold MemFs.create
  rw [hv, hvac]
  rfl

/-- The checks of `create` are those of the cache. -/
theorem create_failed {node : Node} {e : VfsError} (h : Inv db m)
    (he : validateName name = .error e ∨ validateName name = .ok () ∧ Fs.vacant db p name = .error e) :
    m.create p name node = (.error e, m) := by
  unfold MemFs.create
  rcases he with hv | ⟨hv, hvac⟩
  · rw [hv]
  · rw [hv, h.vacant, hvac]

theorem Inv.create {nlink : ℤ} {syms : List (Ino × String)} (h : Inv db m) (node : Node) (size : ℤ)
    (hl : nlink = node.nlink.toNat) (hc : node.children = []) (hd : node.kind = .dir → 2 ≤ node.nlink.toNat)
    (ht : ∀ j, (Table.get Prod.fst syms j).map Prod.snd =
      if j = db.nextIno then node.target else (Table.get Prod.fst db.symlinks j).map Prod.snd)
    (hvac : Fs.vacant db p name = .ok ()) :
    Inv (addDentry { (db.addInode node.kind nlink size false).1 with symlinks := syms } name p db.nextIno)
      ((m.addNode node).1.insertChild p name m.nextIno) := by
  obtain ⟨⟨parent, hp, hdir⟩, hfree⟩ := h.vacant_ok hvac
  have hadd := h.addNode size hl hc hd ht
  have hp' : (m.addNode node).1.getNode p = some parent := by
    rw [MemFs.getNode_addNode h.fresh, if_neg, hp]
    intro he
    rw [he, h.fresh] at hp
    cases hp
  rw [← h.next]
  exact hadd.addChild hp' hdir hfree (Nat.lt_succ_self _)

theorem createFile_same {nowMs : ℤ} (h : Inv db m) :
    Same ((NameOp.createFile p name).apply db false nowMs) (m.apply (.createFile p name)) := by
  show outcome (Fs.createFile db false p name).1 = outcome (m.createFile p name).1 ∧
    Inv (Fs.createFile db false p name).2 (m.createFile p name).2
  rw [createFile_eq, MemFs.createFile]
  cases hv : validateName name with
  | error e =>
    rw [create_failed h (.inl hv)]
    exact ⟨rfl, h⟩
  | ok _ =>
    cases hvac : Fs.vacant db p name with
    | error e =>
      rw [create_failed h (.inr ⟨hv, hvac⟩)]
      exact ⟨rfl, h⟩
    | ok _ =>
      rw [create_ok hv (h.vacant.trans hvac)]
      refine ⟨rfl, ?_⟩
      have htarget (j : Ino) : (Table.get Prod.fst db.symlinks j).map Prod.snd =
          if j = db.nextIno then (Node.file 1 []).target else (Table.get Prod.fst db.symlinks j).map Prod.snd := by
        split_ifs with hj
        · rw [hj, h.target, h.next, h.fresh]
          rfl
        · rfl
      exact h.create (.file 1 []) 0 rfl rfl (fun hk => by cases hk) htarget hvac

theorem symlink_same {target : String} {nowMs : ℤ} (h : Inv db m) :
    Same ((NameOp.symlink p name target).apply db false nowMs) (m.apply (.symlink p name target)) := by
  show outcome (Fs.symlink db p name target).1 = outcome (m.symlink p name target).1 ∧
    Inv (Fs.symlink db p name target).2 (m.symlink p name target).2
  unfold Fs.symlink MemFs.symlink
  cases hv : validateName name with
  | error e =>
    rw [create_failed h (.inl hv)]
    exact ⟨rfl, h⟩
  | ok _ =>
    cases hvac : Fs.vacant db p name with
    | error e =>
      rw [create_failed h (.inr ⟨hv, hvac⟩)]
      exact ⟨rfl, h⟩
    | ok _ =>
      rw [create_ok hv (h.vacant.trans hvac)]
      refine ⟨rfl, ?_⟩
      have htarget (j : Ino) : (Table.get Prod.fst (db.symlinks ++ [(db.nextIno, target)]) j).map Prod.snd =
          if j = db.nextIno then (Node.symlink 1 target).target
          else (Table.get Prod.fst db.symlinks j).map Prod.snd := by
        rw [Table.get_append, Table.get_cons, Table.get_nil]
        by_cases hj : j = db.nextIno
        · have hnone : Table.get Prod.fst db.symlinks j = none := by
            have := h.target j
            rw [hj, h.next, h.fresh] at this
            rw [hj, h.next]
            exact Option.map_eq_none_iff.mp this
          rw [if_pos hj, if_pos hj.symm, hnone]
          rfl
        · rw [if_neg hj, if_neg (Ne.symm hj), Option.or_none]
      exact h.create (.symlink 1 target) _ rfl rfl (fun hk => by cases hk) htarget hvac

/-- A count of links that grows below `2 ^ 32`. -/
theorem Inv.bump (h : Inv db m) (hf : Fits db i) :
    Inv (db.updInode i fun x => { x with nlink := x.nlink + 1 }) (m.updNode i MemFs.bump) := by
  refine h.setNlink (f := fun n => n + 1) fun node hn => ?_
  obtain ⟨x, hx, -, hl⟩ := h.some_of_node hn
  have hlt : node.nlink.toNat + 1 < 2 ^ 32 := by
    have := hf x hx
    rw [hl] at this
    omega
  have hnat : (node.nlink + 1).toNat = node.nlink.toNat + 1 := by
    rw [UInt32.toNat_add]
    exact Nat.mod_eq_of_lt hlt
  refine ⟨node.nlink + 1, rfl, ?_, fun hd => ?_⟩
  · rw [hnat]
    rfl
  · rw [hnat]
    exact (h.dirs i node hn hd).trans (Nat.le_succ _)

theorem mkdir_same {nowMs : ℤ} (h : Inv db m) (hok : ParityOk ⟨db, m⟩ (.mkdir p name)) :
    Same ((NameOp.mkdir p name).apply db false nowMs) (m.apply (.mkdir p name)) := by
  show outcome (Fs.mkdir db p name).1 = outcome (m.mkdir p name).1 ∧
    Inv (Fs.mkdir db p name).2 (m.mkdir p name).2
  unfold Fs.mkdir MemFs.mkdir
  cases hv : validateName name with
  | error e =>
    rw [create_failed h (.inl hv)]
    exact ⟨rfl, h⟩
  | ok _ =>
    cases hvac : Fs.vacant db p name with
    | error e =>
      rw [create_failed h (.inr ⟨hv, hvac⟩)]
      exact ⟨rfl, h⟩
    | ok _ =>
      rw [create_ok hv (h.vacant.trans hvac)]
      refine ⟨rfl, ?_⟩
      have htarget (j : Ino) : (Table.get Prod.fst db.symlinks j).map Prod.snd =
          if j = db.nextIno then (Node.directory 2 []).target
          else (Table.get Prod.fst db.symlinks j).map Prod.snd := by
        split_ifs with hj
        · rw [hj, h.target, h.next, h.fresh]
          rfl
        · rfl
      have hnew := h.create (.directory 2 []) 0 rfl rfl (fun _ => le_rfl) htarget hvac
      refine hnew.bump fun x hx => hok hv hvac x ?_
      have hpne : p ≠ db.nextIno := by
        obtain ⟨⟨parent, hp, -⟩, -⟩ := h.vacant_ok hvac
        intro he
        rw [he, h.next, h.fresh] at hp
        cases hp
      have hget : (db.addInode .dir 2 0 false).1.getInode p = some x := hx
      rwa [h.bounded.getInode_addInode, if_neg hpne] at hget

theorem setNlink_self {n : Node} : n.setNlink n.nlink = n := by cases n <;> rfl

/-- A count of links that goes down by one. -/
theorem toNat_pred {n : UInt32} (h : 1 ≤ n.toNat) : ((n - 1).toNat : ℤ) = n.toNat - 1 := by
  have hsub : (n - 1).toNat = n.toNat - 1 := UInt32.toNat_sub_of_le _ _ (UInt32.le_iff_toNat_le.mpr h)
  rw [hsub, Nat.cast_sub h]
  rfl

/-- The parent of a directory that goes loses a link, but keeps two. -/
theorem Inv.dropDotDot (h : Inv db m) {parent : Node} (hp : m.getNode p = some parent)
    (hd : parent.isDirectory = true) :
    Inv (db.updInode p fun x => { x with nlink := max (x.nlink - 1) 2 })
      (m.updNode p fun n => if n.nlink > 2 then n.setNlink (n.nlink - 1) else n) := by
  refine h.setNlink (f := fun n => max (n - 1) 2) fun node hn => ?_
  obtain rfl : parent = node := Option.some.inj (hp.symm.trans hn)
  have hdir : parent.kind = .dir := of_decide_eq_true hd
  have htwo : 2 ≤ parent.nlink.toNat := h.dirs p parent hn hdir
  by_cases hgt : parent.nlink > 2
  · have hlt : 2 < parent.nlink.toNat := UInt32.lt_iff_toNat_lt.mp hgt
    have hpred := toNat_pred (n := parent.nlink) (by omega)
    refine ⟨parent.nlink - 1, if_pos hgt, ?_, fun _ => ?_⟩
    · rw [hpred]
      exact max_eq_left (by omega)
    · omega
  · have hle : parent.nlink.toNat ≤ 2 := by
      by_contra hlt
      exact hgt (UInt32.lt_iff_toNat_lt.mpr (not_le.mp hlt))
    refine ⟨parent.nlink, ?_, ?_, fun _ => htwo⟩
    · rw [if_neg hgt, setNlink_self]
    · rw [le_antisymm hle htwo]
      rfl

/-- An empty directory goes with its entry. -/
theorem Inv.removeDir {node : Node} (h : Inv db m) (hc : db.childIno p name = some i) (hn : m.getNode i = some node)
    (hd : node.isDirectory = true) (hempty : node.children = []) :
    Inv (((db.delChild p name).delInode i).updInode p fun x => { x with nlink := max (x.nlink - 1) 2 })
      (((m.removeChild p name).updNode p fun n => if n.nlink > 2 then n.setNlink (n.nlink - 1) else n).removeNode i) := by
  obtain ⟨parent, hp, hdir⟩ := h.parent hc
  have hpne : p ≠ i := by
    intro hpi
    rw [hpi, h.noEntries hn hempty] at hc
    cases hc
  have hdel := h.delChild p name
  have hgone : Inv ((db.delChild p name).delInode i) ((m.removeChild p name).removeNode i) := by
    refine hdel.removeNode ?_ rfl rfl rfl (fun n => ?_) fun j => ?_
    · exact hdel.bounded.of_subset rfl (Table.erase_sublist _ _).subset (List.Subset.refl _)
        (List.Subset.refl _) (List.Sublist.refl _)
    · rw [childIno_delChild, h.noEntries hn hempty]
      split_ifs <;> rfl
    · split_ifs with hj
      · refine (h.target j).trans ?_
        rw [hj, hn]
        cases node with
        | directory => rfl
        | file | symlink => cases hd
      · rfl
  obtain ⟨parent', hp', hdir'⟩ : ∃ parent', ((m.removeChild p name).removeNode i).getNode p = some parent' ∧
      parent'.isDirectory = true := by
    rw [MemFs.getNode_removeNode, if_neg hpne, MemFs.removeChild, MemFs.getNode_updNode, if_pos rfl, hp]
    refine ⟨_, rfl, ?_⟩
    unfold Node.isDirectory
    rw [kind_mapChildren.1]
    exact hdir
  have hcomm {g : Node → Node} : ((m.removeChild p name).updNode p g).removeNode i =
      ((m.removeChild p name).removeNode i).updNode p g := by
    have hnodes : Table.erase Prod.fst (Table.modify Prod.fst (m.removeChild p name).nodes p fun e => (e.1, g e.2)) i =
        Table.modify Prod.fst (Table.erase Prod.fst (m.removeChild p name).nodes i) p fun e => (e.1, g e.2) :=
      Table.erase_modify fun _ => rfl
    unfold MemFs.removeNode MemFs.updNode
    dsimp only
    rw [hnodes]
  rw [hcomm]
  exact hgone.dropDotDot hp' hdir'

theorem rmdir_same {nowMs : ℤ} (h : Inv db m) (hok : ParityOk ⟨db, m⟩ (.rmdir p name)) :
    Same ((NameOp.rmdir p name).apply db false nowMs) (m.apply (.rmdir p name)) := by
  show outcome (Fs.rmdir db p name).1 = outcome (m.rmdir p name).1 ∧
    Inv (Fs.rmdir db p name).2 (m.rmdir p name).2
  unfold Fs.rmdir MemFs.rmdir
  cases hv : validateName name with
  | error e => exact ⟨rfl, h⟩
  | ok _ =>
    dsimp only
    rw [h.child_ok (hok hv), childInode]
    cases hc : db.childIno p name with
    | none => exact ⟨rfl, h⟩
    | some i =>
      dsimp only
      rw [Option.bind_some, MemFs.directory]
      cases hx : db.getInode i with
      | none =>
        rw [h.none_iff.mp hx]
        exact ⟨rfl, h⟩
      | some x =>
        obtain ⟨node, hn, -⟩ := h.some_of_inode hx
        obtain rfl := getInode_ino hx
        rw [hn]
        dsimp only
        rw [h.isDirectory hx hn]
        by_cases hd : x.kind = .dir
        · rw [if_neg (not_not.mpr hd), if_pos (decide_eq_true hd)]
          dsimp only
          by_cases he : (!node.children.isEmpty) = true
          · rw [if_pos ((h.hasEntries hn).mpr he), if_pos he]
            exact ⟨rfl, h⟩
          · rw [if_neg fun hl => he ((h.hasEntries hn).mp hl), if_neg he]
            have hempty : node.children = [] := by
              simpa using he
            exact ⟨rfl, h.removeDir hc hn ((h.isDirectory hx hn).trans (decide_eq_true hd)) hempty⟩
        · rw [if_pos hd, if_neg (by simpa using hd)]
          exact ⟨rfl, h⟩

/-- A file loses a name, and goes with the last one. -/
theorem Inv.unlinkTables {node : Node} {x : Inode} (h : Inv db m) (p : Ino) (name : String)
    (hx : db.getInode x.ino = some x)
    (hn : m.getNode x.ino = some node) (hd : ¬ node.isDirectory = true) :
    Inv (Fs.unlinkTables db p name x) (if node.nlink > 1 then
      (m.removeChild p name).updNode x.ino fun n => n.setNlink (n.nlink - 1)
      else (m.removeChild p name).removeNode x.ino) := by
  obtain ⟨node', hn', hk, hl⟩ := h.some_of_inode hx
  obtain rfl : node' = node := Option.some.inj (hn'.symm.trans hn)
  have hempty : node'.children = [] := children_of_file hd
  have hdel := h.delChild p name
  have hf : ∀ y : Inode, ({ y with nlink := y.nlink - 1 } : Inode).ino = y.ino := fun _ => rfl
  have hnode {nd : Node} (hnd : (m.removeChild p name).getNode x.ino = some nd) :
      nd.nlink = node'.nlink ∧ nd.kind = node'.kind := by
    rw [MemFs.removeChild, MemFs.getNode_updNode] at hnd
    split_ifs at hnd with hp
    · rw [← hp, hn] at hnd
      cases hnd
      exact ⟨kind_mapChildren.2.1, kind_mapChildren.1⟩
    · rw [hn] at hnd
      cases hnd
      exact ⟨rfl, rfl⟩
  unfold Fs.unlinkTables
  dsimp only
  by_cases hgt : node'.nlink > 1
  · have hlt : 1 < node'.nlink.toNat := UInt32.lt_iff_toNat_lt.mp hgt
    rw [if_pos hgt, if_neg (by rw [hl]; omega)]
    refine hdel.setNlink (f := fun n => n - 1) fun nd hnd => ?_
    obtain ⟨hnl, hkd⟩ := hnode hnd
    refine ⟨nd.nlink - 1, rfl, ?_, fun hdir => ?_⟩
    · rw [hnl]
      exact (toNat_pred hlt.le).symm
    · rw [hkd] at hdir
      exact absurd (decide_eq_true hdir) hd
  · have hle : node'.nlink.toNat ≤ 1 := by
      by_contra hlt
      exact hgt (UInt32.lt_iff_toNat_lt.mpr (not_le.mp hlt))
    rw [if_neg hgt, if_pos (by rw [hl]; omega)]
    have hb : (Fs.purge ((db.delChild p name).updInode x.ino fun y =>
      { y with nlink := y.nlink - 1 }) x.ino).Bounded := by
      refine (hdel.bounded.updInode (i := x.ino) hf).of_subset rfl (Table.erase_sublist _ _).subset
        (List.Subset.refl _) (List.filter_subset_self _) (Table.erase_sublist _ _)
    refine hdel.removeNode hb (Table.erase_modify_self hf) rfl rfl (fun n => ?_) fun j => ?_
    · rw [childIno_delChild, h.noEntries hn hempty]
      split_ifs <;> rfl
    · show (Table.get Prod.fst (Table.erase Prod.fst db.symlinks x.ino) j).map Prod.snd = _
      rw [Table.get_erase]
      split_ifs <;> rfl

theorem unlink_same {nowMs : ℤ} (h : Inv db m) (hok : ParityOk ⟨db, m⟩ (.unlink p name)) :
    Same ((NameOp.unlink p name).apply db false nowMs) (m.apply (.unlink p name)) := by
  show outcome (Fs.unlink db false p name nowMs).1 = outcome (m.unlink p name).1 ∧
    Inv (Fs.unlink db false p name nowMs).2 (m.unlink p name).2
  obtain ⟨hprofile, hfile⟩ := hok
  unfold Fs.unlink MemFs.unlink
  cases hv : validateName name with
  | error e => exact ⟨rfl, h⟩
  | ok _ =>
    dsimp only
    rw [h.child_ok (hfile hv), childInode, if_neg (by simpa using hprofile)]
    cases hc : db.childIno p name with
    | none => exact ⟨rfl, h⟩
    | some i =>
      dsimp only
      rw [Option.bind_some]
      cases hx : db.getInode i with
      | none =>
        rw [h.none_iff.mp hx]
        exact ⟨rfl, h⟩
      | some x =>
        obtain ⟨node, hn, -⟩ := h.some_of_inode hx
        obtain rfl := getInode_ino hx
        rw [hn]
        dsimp only
        rw [h.isDirectory hx hn]
        by_cases hd : x.kind = .dir
        · rw [if_pos hd, if_pos (decide_eq_true hd)]
          exact ⟨rfl, h⟩
        · rw [if_neg hd, if_neg (by simpa using hd)]
          have hnd : ¬ node.isDirectory = true := by
            rw [h.isDirectory hx hn]
            simpa using hd
          have hgone := h.unlinkTables p name hx hn hnd
          have hstay : cascadeUnlinkDerivedSiblings (unlinkEnqueue (Fs.unlinkTables db p name x) false
              (childPath db p name) x.ino nowMs) p name = Fs.unlinkTables db p name x :=
            cascadeUnlink_plain hgone.plain
          dsimp only
          rw [hstay]
          exact ⟨rfl, hgone⟩

theorem link_same {nowMs : ℤ} (h : Inv db m) (hok : ParityOk ⟨db, m⟩ (.link i p name)) :
    Same ((NameOp.link i p name).apply db false nowMs) (m.apply (.link i p name)) := by
  show outcome (Fs.link db i p name).1 = outcome (m.link i p name).1 ∧
    Inv (Fs.link db i p name).2 (m.link i p name).2
  unfold Fs.link MemFs.link
  cases hv : validateName name with
  | error e => exact ⟨rfl, h⟩
  | ok _ =>
    dsimp only
    cases hx : db.getInode i with
    | none =>
      rw [h.none_iff.mp hx]
      exact ⟨rfl, h⟩
    | some x =>
      obtain ⟨node, hn, -⟩ := h.some_of_inode hx
      rw [hn]
      dsimp only
      rw [h.isDirectory hx hn, h.vacant]
      by_cases hd : x.kind = .dir
      · rw [if_pos hd, if_pos (decide_eq_true hd)]
        exact ⟨rfl, h⟩
      · rw [if_neg hd, if_neg (by simpa using hd)]
        cases hvac : Fs.vacant db p name with
        | error e => exact ⟨rfl, h⟩
        | ok _ =>
          refine ⟨rfl, ?_⟩
          obtain ⟨⟨parent, hp, hdir⟩, hfree⟩ := h.vacant_ok hvac
          have hbump := h.bump (hok hv hvac ⟨x, hx, hd⟩)
          have hpne : p ≠ i := by
            intro he
            rw [he, hn] at hp
            cases hp
            rw [h.isDirectory hx hn] at hdir
            exact hd (of_decide_eq_true hdir)
          have hp' : (m.updNode i MemFs.bump).getNode p = some parent := by
            rw [MemFs.getNode_updNode, if_neg hpne, hp]
          exact hbump.addChild hp' hdir hfree (h.bounded.getInode hx)

/-- `children.insert` replaces what stands under the name. -/
theorem insertChild_removeChild {p' : Ino} {name' : String} :
    ((m.removeChild p' name').removeChild p name).insertChild p' name' i =
      (m.removeChild p name).insertChild p' name' i := by
  unfold MemFs.insertChild MemFs.removeChild MemFs.updNode Table.modify
  dsimp only
  rw [List.map_map, List.map_map, List.map_map]
  congr 1
  refine List.map_congr_left fun e _ => ?_
  obtain ⟨k, node⟩ := e
  simp only [Function.comp_apply]
  by_cases h1 : k = p'
  · subst h1
    by_cases h2 : k = p
    · simp only [h2, if_true]
      cases node with
      | directory n c =>
        simp only [Node.mapChildren]
        rw [Table.erase_erase_erase]
      | file | symlink => rfl
    · simp only [h2, if_true, if_false]
      cases node with
      | directory n c =>
        simp only [Node.mapChildren]
        rw [Table.erase_erase_self]
      | file | symlink => rfl
  · simp only [h1, if_false]

theorem Inv.mayReplace {x y : Inode} (h : Inv db m) (hx : db.getInode x.ino = some x)
    (hy : db.getInode y.ino = some y) : m.mayReplace x.ino y.ino = Fs.mayReplace db x y := by
  obtain ⟨nx, hnx, -⟩ := h.some_of_inode hx
  obtain ⟨ny, hny, -⟩ := h.some_of_inode hy
  unfold MemFs.mayReplace Fs.mayReplace
  rw [hnx, hny]
  simp only [Option.any_some, h.isDirectory hx hnx, h.isDirectory hy hny]
  by_cases hdx : x.kind = .dir <;> by_cases hdy : y.kind = .dir
  · rw [if_pos (decide_eq_true hdx), if_pos hdx, if_neg (by simpa using hdy), if_neg (not_not.mpr hdy)]
    by_cases he : (!ny.children.isEmpty) = true
    · rw [if_pos he, if_pos ((h.hasEntries hny).mpr he)]
    · rw [if_neg he, if_neg fun hl => he ((h.hasEntries hny).mp hl)]
  · rw [if_pos (decide_eq_true hdx), if_pos hdx, if_pos (by simpa using hdy), if_pos hdy]
  · rw [if_neg (by simpa using hdx), if_neg hdx, if_pos (decide_eq_true hdy), if_pos hdy]
  · rw [if_neg (by simpa using hdx), if_neg hdx, if_neg (by simpa using hdy), if_neg hdy]

/-- What may be replaced has no entries. -/
theorem Inv.replaced {x y : Inode} {node : Node} (h : Inv db m) (hy : db.getInode y.ino = some y)
    (hn : m.getNode y.ino = some node) (hr : Fs.mayReplace db x y = .ok ()) : node.children = [] := by
  unfold Fs.mayReplace at hr
  split_ifs at hr with hdx hdy he hdy
  · have hne : ¬ (!node.children.isEmpty) = true := fun hc => he ((h.hasEntries hn).mpr hc)
    simpa using hne
  · refine children_of_file ?_
    rw [h.isDirectory hy hn]
    simpa using hdy

/-- A node takes the place of another one. -/
theorem Inv.replace {x : Inode} {node parent : Node} {p' : Ino} {name' : String} (h : Inv db m)
    (hsrc : db.childIno p name = some x.ino) (hdst : db.childIno p' name' = some j) (hne : j ≠ x.ino)
    (hp : m.getNode p' = some parent) (hd : parent.isDirectory = true) (hn : m.getNode j = some node)
    (hempty : node.children = []) :
    Inv (Fs.moveChild (Fs.purge (db.delChild p' name') j) p name p' name')
      ((m.removeNode j).moveChild x.ino p name p' name') := by
  have hpj : p' ≠ j := by
    intro he
    rw [he, h.noEntries hn hempty] at hdst
    cases hdst
  have hgone : Inv (Fs.purge (db.delChild p' name') j) ((m.removeNode j).removeChild p' name') :=
    (h.purge (h.noEntries hn hempty)).delChild p' name'
  obtain ⟨parent', hp', hd'⟩ : ∃ parent', ((m.removeNode j).removeChild p' name').getNode p' = some parent' ∧
      parent'.isDirectory = true := by
    rw [MemFs.removeChild, MemFs.getNode_updNode, if_pos rfl, MemFs.getNode_removeNode, if_neg hpj, hp]
    refine ⟨_, rfl, ?_⟩
    unfold Node.isDirectory
    rw [kind_mapChildren.1]
    exact hd
  have hsrc' : (db.delChild p' name').childIno p name = some x.ino := by
    rw [childIno_delChild, if_neg, hsrc]
    rintro ⟨rfl, rfl⟩
    rw [hsrc] at hdst
    exact hne (Option.some.inj hdst).symm
  have hfree : (db.delChild p' name').childIno p' name' = none := by
    rw [childIno_delChild, if_pos ⟨rfl, rfl⟩]
  have hmove := hgone.moveChild hp' hd' hsrc' hfree
  unfold MemFs.moveChild at hmove ⊢
  rwa [insertChild_removeChild] at hmove

theorem rename_same {p' : Ino} {name' : String} {nowMs : ℤ} (h : Inv db m)
    (hok : ParityOk ⟨db, m⟩ (.rename p name p' name')) :
    Same ((NameOp.rename p name p' name').apply db false nowMs) (m.apply (.rename p name p' name')) := by
  show outcome (Fs.rename db false p name p' name' nowMs).1 = outcome (m.rename p name p' name').1 ∧
    Inv (Fs.rename db false p name p' name' nowMs).2 (m.rename p name p' name').2
  unfold Fs.rename MemFs.rename
  cases hv : validateName name with
  | error e => exact ⟨rfl, h⟩
  | ok _ =>
    cases hv' : validateName name' with
    | error e => exact ⟨rfl, h⟩
    | ok _ =>
      obtain ⟨hfile, hok⟩ := hok.1 hv hv'
      dsimp only
      rw [h.child_ok hfile, MemFs.directory]
      cases hc : db.childIno p name with
      | none => exact ⟨rfl, h⟩
      | some i =>
        cases hpar : db.getInode p' with
        | none =>
          rw [h.none_iff.mp hpar]
          exact ⟨rfl, h⟩
        | some parent =>
          obtain ⟨pnode, hpn, -⟩ := h.some_of_inode hpar
          rw [hpn]
          dsimp only
          rw [h.isDirectory hpar hpn]
          by_cases hd : parent.kind = .dir
          · rw [if_neg (not_not.mpr hd), if_pos (decide_eq_true hd)]
            have hpd : pnode.isDirectory = true := (h.isDirectory hpar hpn).trans (decide_eq_true hd)
            obtain ⟨hsome, hdst⟩ := hok i parent hc hpar hd
            obtain ⟨x, hx⟩ := Option.isSome_iff_exists.mp hsome
            obtain rfl := getInode_ino hx
            have hchild : MemFs.childOf pnode name' = db.childIno p' name' := by
              rw [h.child, hpn]
              rfl
            rw [hx]
            dsimp only
            rw [renameTables, hchild]
            cases hc' : db.childIno p' name' with
            | none =>
              have hmove := h.moveChild hpn hpd hc hc'
              refine ⟨rfl, ?_⟩
              show Inv (cascadeRenameDerivedSiblings (Fs.moveChild db p name p' name') p name p' name') _
              rw [cascadeRename_plain hmove.plain]
              exact hmove
            | some j =>
              dsimp only
              by_cases hji : j = x.ino
              · rw [if_pos hji, if_pos hji]
                exact ⟨rfl, h⟩
              · obtain ⟨y, hy⟩ := Option.isSome_iff_exists.mp (hdst j hc' hji)
                obtain rfl := getInode_ino hy
                rw [if_neg hji, if_neg hji, hy, h.mayReplace hx hy]
                dsimp only
                cases hr : Fs.mayReplace db x y with
                | error e => exact ⟨rfl, h⟩
                | ok _ =>
                  obtain ⟨node, hn, -⟩ := h.some_of_inode hy
                  have hmove := h.replace hc hc' hji hpn hpd hn (h.replaced hy hn hr)
                  refine ⟨rfl, ?_⟩
                  show Inv (cascadeRenameDerivedSiblings (Fs.moveChild (Fs.purge (db.delChild p' name') y.ino) p name
                    p' name') p name p' name') _
                  rw [cascadeRename_plain hmove.plain]
                  exact hmove
          · rw [if_pos hd, if_neg (by simpa using hd)]
            exact ⟨rfl, h⟩

/-- What the condition allows, both do alike. -/
theorem apply_inv (nowMs : ℤ) {op : NameOp} (h : Inv db m) (hok : ParityOk ⟨db, m⟩ op) :
    Same (op.apply db false nowMs) (m.apply op) := by
  cases op with
  | mkdir p n => exact mkdir_same h hok
  | rmdir p n => exact rmdir_same h hok
  | createFile p n => exact createFile_same h
  | unlink p n => exact unlink_same h hok
  | symlink p n t => exact symlink_same h
  | link i p n => exact link_same h hok
  | rename p n p' n' => exact rename_same h hok

/-! ### Where they differ -/

theorem Alike.small (h : Alike db m) {x : Inode} (hx : db.getInode i = some x) : x.nlink < 2 ^ 32 := by
  have hnode := h.node i
  rw [hx] at hnode
  cases hn : m.getNode i with
  | none =>
    rw [hn] at hnode
    cases hnode
  | some node =>
    rw [hn] at hnode
    cases hnode with
    | some _ nlink =>
      have hlt : node.nlink.toNat < 2 ^ 32 := node.nlink.toNat_lt
      rw [nlink]
      exact_mod_cast hlt

theorem not_fits (h : ¬ Fits db i) : ∃ x, db.getInode i = some x ∧ 2 ^ 32 ≤ x.nlink + 1 := by
  unfold Fits at h
  push Not at h
  exact h

theorem mkdir_breaks {nowMs : ℤ} (h : Inv db m) (hno : ¬ ParityOk ⟨db, m⟩ (.mkdir p name)) :
    ¬ Agrees nowMs ⟨db, m⟩ (.mkdir p name) := by
  obtain ⟨hv, hvac, hfit⟩ : validateName name = .ok () ∧ Fs.vacant db p name = .ok () ∧ ¬ Fits db p := by
    simpa [ParityOk] using hno
  obtain ⟨x, hx, hge⟩ := not_fits hfit
  rintro ⟨-, -, hafter⟩
  have hget : (Fs.mkdir db p name).2.getInode p = some { x with nlink := x.nlink + 1 } := by
    unfold Fs.mkdir
    rw [hv, hvac]
    refine getInode_updInode_self (fun _ => rfl) ?_
    show (db.addInode .dir 2 0 false).1.getInode p = some x
    rw [getInode_addInode (h.bounded.getInode hx), hx]
  exact absurd (hafter.small hget) (not_lt.mpr hge)

theorem link_breaks {nowMs : ℤ} (hno : ¬ ParityOk ⟨db, m⟩ (.link i p name)) :
    ¬ Agrees nowMs ⟨db, m⟩ (.link i p name) := by
  obtain ⟨hv, hvac, hfile, hfit⟩ : validateName name = .ok () ∧ Fs.vacant db p name = .ok () ∧ IsFile db i ∧
      ¬ Fits db i := by
    simpa [ParityOk] using hno
  obtain ⟨x, hx, hge⟩ := not_fits hfit
  have hd : ¬ x.kind = .dir := by
    obtain ⟨y, hy, hk⟩ := hfile
    rw [hx] at hy
    cases hy
    exact hk
  rintro ⟨-, -, hafter⟩
  have hget : (Fs.link db i p name).2.getInode i = some { x with nlink := x.nlink + 1 } := by
    unfold Fs.link
    rw [hv, hx]
    dsimp only
    rw [if_neg hd, hvac]
    exact getInode_updInode_self (fun _ => rfl) hx
  exact absurd (hafter.small hget) (not_lt.mpr hge)

theorem rmdir_breaks {nowMs : ℤ} (h : Inv db m) (hno : ¬ ParityOk ⟨db, m⟩ (.rmdir p name)) :
    ¬ Agrees nowMs ⟨db, m⟩ (.rmdir p name) := by
  obtain ⟨hv, hfile⟩ : validateName name = .ok () ∧ IsFile db p := by
    simpa [ParityOk] using hno
  obtain ⟨hm, hdb⟩ := h.child_file hfile name
  have h1 : (Fs.rmdir db p name).1 = .error .notFound := by
    unfold Fs.rmdir childInode
    rw [hv, hdb]
    rfl
  have h2 : (m.rmdir p name).1 = .error .notADirectory := by
    unfold MemFs.rmdir
    rw [hv, hm]
  rintro ⟨-, hsame, -⟩
  have hsame : outcome (Fs.rmdir db p name).1 = outcome (m.rmdir p name).1 := hsame
  rw [h1, h2] at hsame
  cases hsame

/-- In memory the profile is a name like others. -/
theorem unlink_allowed : outcome (m.unlink p name).1 ≠ some .permissionDenied := by
  have hchild : m.child p name ≠ .error .permissionDenied := by
    unfold MemFs.child MemFs.directory
    cases m.getNode p with
    | none => exact fun he => by cases he
    | some node =>
      dsimp only
      by_cases hd : node.isDirectory = true
      · rw [if_pos hd]
        dsimp only
        cases MemFs.childOf node name <;> exact fun he => by cases he
      · rw [if_neg hd]
        exact fun he => by cases he
  have hname : validateName name ≠ .error .permissionDenied := by
    unfold validateName
    split_ifs <;> exact fun he => by cases he
  unfold MemFs.unlink
  cases hv : validateName name with
  | error e =>
    rintro he
    cases he
    exact hname hv
  | ok _ =>
    dsimp only
    cases hc : m.child p name with
    | error e =>
      rintro he
      cases he
      exact hchild hc
    | ok i =>
      dsimp only
      cases m.getNode i with
      | none => exact fun he => by cases he
      | some node =>
        dsimp only
        by_cases hd : node.isDirectory = true
        · rw [if_pos hd]
          exact fun he => by cases he
        · rw [if_neg hd]
          exact fun he => by cases he

theorem unlink_breaks {nowMs : ℤ} (h : Inv db m) (hno : ¬ ParityOk ⟨db, m⟩ (.unlink p name)) :
    ¬ Agrees nowMs ⟨db, m⟩ (.unlink p name) := by
  rintro ⟨-, hsame, -⟩
  have hsame : outcome (Fs.unlink db false p name nowMs).1 = outcome (m.unlink p name).1 := hsame
  by_cases hprofile : p = ROOT_INO ∧ name = PROFILE_NAME
  · have hv : validateName PROFILE_NAME = .ok () := by decide
    have h1 : (Fs.unlink db false p name nowMs).1 = .error .permissionDenied := by
      unfold Fs.unlink
      rw [hprofile.1, hprofile.2, hv]
      rfl
    rw [h1] at hsame
    exact unlink_allowed hsame.symm
  · obtain ⟨hv, hfile⟩ : validateName name = .ok () ∧ IsFile db p := by
      by_contra hc
      refine hno ⟨hprofile, fun hv hf => hc ⟨hv, hf⟩⟩
    obtain ⟨hm, hdb⟩ := h.child_file hfile name
    have h1 : (Fs.unlink db false p name nowMs).1 = .error .notFound := by
      unfold Fs.unlink childInode
      rw [hv, hdb]
      dsimp only
      rw [if_neg (by simpa using hprofile)]
      rfl
    have h2 : (m.unlink p name).1 = .error .notADirectory := by
      unfold MemFs.unlink
      rw [hv, hm]
    rw [h1, h2] at hsame
    cases hsame

/-- A rename in the cache that meets a name without an inode. -/
theorem rename_io {p' : Ino} {name' : String} {nowMs : ℤ} {parent : Inode} (hv : validateName name = .ok ())
    (hv' : validateName name' = .ok ()) (hsrc : db.childIno p name = some i) (hpar : db.getInode p' = some parent)
    (hd : parent.kind = .dir) (hno : db.getInode i = none ∨ ∃ x, db.getInode i = some x ∧
      ∃ j, db.childIno p' name' = some j ∧ j ≠ i ∧ db.getInode j = none) :
    (Fs.rename db false p name p' name' nowMs).1 = .error .io := by
  unfold Fs.rename
  rw [hv, hv', hsrc, hpar]
  dsimp only
  rw [if_neg (not_not.mpr hd)]
  rcases hno with hi | ⟨x, hx, j, hj, hne, hnone⟩
  · rw [hi]
  · obtain rfl := getInode_ino hx
    rw [hx]
    dsimp only
    rw [renameTables, hj]
    dsimp only
    rw [if_neg hne, hnone]

/-- In memory no operation meets an error of a query. -/
theorem rename_noIo {p' : Ino} {name' : String} : outcome (m.rename p name p' name').1 ≠ some .io := by
  have hname (n : String) : validateName n ≠ .error .io := by
    unfold validateName
    split_ifs <;> exact fun he => by cases he
  have hdir (k : Ino) : m.directory k ≠ .error .io := by
    unfold MemFs.directory
    cases m.getNode k with
    | none => exact fun he => by cases he
    | some node =>
      dsimp only
      split_ifs <;> exact fun he => by cases he
  have hchild : m.child p name ≠ .error .io := by
    unfold MemFs.child
    cases hd : m.directory p with
    | error e =>
      rintro he
      cases he
      exact hdir p hd
    | ok node =>
      dsimp only
      cases MemFs.childOf node name <;> exact fun he => by cases he
  have hreplace (a b : Ino) : m.mayReplace a b ≠ .error .io := by
    unfold MemFs.mayReplace
    dsimp only
    split_ifs <;> exact fun he => by cases he
  unfold MemFs.rename
  cases hv : validateName name with
  | error e =>
    rintro he
    cases he
    exact hname _ hv
  | ok _ =>
    cases hv' : validateName name' with
    | error e =>
      rintro he
      cases he
      exact hname _ hv'
    | ok _ =>
      dsimp only
      cases hc : m.child p name with
      | error e =>
        rintro he
        cases he
        exact hchild hc
      | ok i =>
        cases hp : m.directory p' with
        | error e =>
          rintro he
          cases he
          exact hdir p' hp
        | ok parent =>
          dsimp only
          cases MemFs.childOf parent name' with
          | none => exact fun he => by cases he
          | some j =>
            dsimp only
            by_cases hji : j = i
            · rw [if_pos hji]
              exact fun he => by cases he
            · rw [if_neg hji]
              cases hr : m.mayReplace i j with
              | error e =>
                rintro he
                cases he
                exact hreplace i j hr
              | ok _ => exact fun he => by cases he

theorem rename_breaks {p' : Ino} {name' : String} {nowMs : ℤ} (h : Inv db m) (hs : Walks.Standing db)
    (hno : ¬ ParityOk ⟨db, m⟩ (.rename p name p' name')) : ¬ Agrees nowMs ⟨db, m⟩ (.rename p name p' name') := by
  rintro ⟨hret, hsame, -⟩
  have hstays : Walks.StaysAbove db (.rename p name p' name') := (Walks.returns_iff hs).mp hret
  have hsame : outcome (Fs.rename db false p name p' name' nowMs).1 = outcome (m.rename p name p' name').1 := hsame
  have hv : validateName name = .ok () := by
    by_contra hv
    exact hno ⟨fun hc => absurd hc hv, hstays⟩
  have hv' : validateName name' = .ok () := by
    by_contra hv'
    exact hno ⟨fun _ hc => absurd hc hv', hstays⟩
  by_cases hfile : IsFile db p
  · obtain ⟨hm, hdb⟩ := h.child_file hfile name
    have h1 : (Fs.rename db false p name p' name' nowMs).1 = .error .notFound := by
      unfold Fs.rename
      rw [hv, hv', hdb]
    have h2 : (m.rename p name p' name').1 = .error .notADirectory := by
      unfold MemFs.rename
      rw [hv, hv', hm]
    rw [h1, h2] at hsame
    cases hsame
  · obtain ⟨i, parent, hsrc, hpar, hd, hmiss⟩ : ∃ i parent, db.childIno p name = some i ∧
        db.getInode p' = some parent ∧ parent.kind = .dir ∧ (db.getInode i = none ∨
          ∃ x, db.getInode i = some x ∧ ∃ j, db.childIno p' name' = some j ∧ j ≠ i ∧ db.getInode j = none) := by
      by_contra hc
      refine hno ⟨fun _ _ => ⟨hfile, fun i parent hsrc hpar hd => ?_⟩, hstays⟩
      have hmeet := fun hmiss => hc ⟨i, parent, hsrc, hpar, hd, hmiss⟩
      cases hx : db.getInode i with
      | none => exact absurd (Or.inl hx) hmeet
      | some x =>
        refine ⟨rfl, fun j hj hne => ?_⟩
        cases hy : db.getInode j with
        | none => exact absurd (Or.inr ⟨x, hx, j, hj, hne, hy⟩) hmeet
        | some y => rfl
    rw [rename_io hv hv' hsrc hpar hd hmiss] at hsame
    exact rename_noIo hsame.symm

/-- What the condition leaves out, the two do differently. -/
theorem parity_breaks {nowMs : ℤ} {op : NameOp} (h : Inv db m) (hs : Walks.Standing db)
    (hno : ¬ ParityOk ⟨db, m⟩ op) : ¬ Agrees nowMs ⟨db, m⟩ op := by
  cases op with
  | mkdir p n => exact mkdir_breaks h hno
  | rmdir p n => exact rmdir_breaks h hno
  | unlink p n => exact unlink_breaks h hno
  | link i p n => exact link_breaks hno
  | rename p n p' n' => exact rename_breaks h hs hno
  | createFile p n | symlink p n t => exact absurd trivial hno

/-- What the condition allows moves no directory into or below itself. -/
theorem ParityOk.staysAbove {op : NameOp} (hok : ParityOk ⟨db, m⟩ op) : Walks.StaysAbove db op := by
  cases op with
  | rename p n p' n' => exact hok.2
  | mkdir | rmdir | createFile | unlink | symlink | link => trivial

end Lemmas

/-! ### Runs -/

variable {nowMs : ℤ}

/-- The two start and stay alike, and the names a tree, while the condition holds of the steps. -/
theorem reach_inv {s : St} (h : Reach (step nowMs) ParityOk ⟨.fresh, .new⟩ s) : Inv s.db s.mem ∧ Walks.Standing s.db :=
  h.inv (I := fun s => Inv s.db s.mem ∧ Walks.Standing s.db) ⟨Inv.start, .start⟩ fun s op t hi hok hst => by
    cases hst
    exact ⟨(apply_inv nowMs hi.1 hok).2, Walks.name_standing hi.2 hok.staysAbove⟩

/-- In every run of operations on names whose steps meet the condition, the
two have the same tree at every state, and each next operation returns from
both with the same answer and leaves the same tree exactly when it meets the
condition too. -/
theorem parity (nowMs : ℤ) :
    (∀ s, Reach (step nowMs) ParityOk ⟨.fresh, .new⟩ s → Alike s.db s.mem) ∧
      ∀ s op, Reach (step nowMs) ParityOk ⟨.fresh, .new⟩ s → (Agrees nowMs s op ↔ ParityOk s op) := by
  refine ⟨fun s h => (reach_inv h).1.alike, fun s op h => ?_⟩
  obtain ⟨hinv, hstanding⟩ := reach_inv h
  constructor
  · intro hagree
    by_contra hno
    exact parity_breaks hinv hstanding hno hagree
  · intro hok
    obtain ⟨hsame, hafter⟩ := apply_inv nowMs hinv hok
    exact ⟨(Walks.returns_iff hstanding).mpr hok.staysAbove, hsame, hafter.alike⟩

/-- A name looked up in a file: `NotFound` from the tables, `NotADirectory` from memory. -/
theorem differs : ¬ ∀ s op, Reach (step 0) anyStep ⟨.fresh, .new⟩ s → Agrees 0 s op := by
  intro h
  obtain ⟨s, hreach, hs⟩ : ∃ s, Reach (step 0) anyStep ⟨.fresh, .new⟩ s ∧
      decide (((NameOp.unlink 2 "b").apply s.db false 0).1 ≠ (s.mem.apply (.unlink 2 "b")).1) = true :=
    Reach.exists_of_run [.createFile ROOT_INO "a"] (by decide)
  exact (of_decide_eq_true hs) (h s (.unlink 2 "b") hreach).2.1

end Parity
end Smfs
