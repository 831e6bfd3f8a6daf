/-
# The dentry cache and the tables

A name of the cache stands for the inode of its entry, or for one that is gone
while nothing that is left has the name (`Coherence.Agrees`); so `lookup`
answers as it does without a cache. Numbers are not used again, so every
operation leaves the names it does not touch as they are. A round of the loop
of `rename_derived_sibling` puts the new name of a sibling whether or not its
entry has moved, and the entry moves exactly if it is the only one of its inode.

Key definitions: `Coherence.Agrees`, `Coherence.Coherent`, `Coherence.Alone`.
Key theorems: `Coherence.rename_coherent`, `Coherence.reconcileOne_coherent`, `Coherence.lookups`,
`Coherence.ghost`.
-/
import Smfs.DentryCache
import Smfs.Names.Cascade
import Smfs.Names.Contents
import Smfs.Names.Lookup
import Smfs.Names.Routes

namespace Smfs
namespace Coherence

open Db Fs Cache Trans

/-- The number of an inode that is gone. -/
def Gone (db : Db) (i : Ino) : Prop := i < db.nextIno ∧ sortOf db i = none

/-- What the cache may hold under a name. -/
def Agrees (db : Db) (k : Ino × String) (i : Ino) : Prop :=
  db.childIno k.1 k.2 = some i ∨ Gone db i ∧ ∀ j, db.childIno k.1 k.2 = some j → Gone db j

/-- What is gone stays gone. -/
def Fades (db db' : Db) : Prop := ∀ i, Gone db i → Gone db' i

/-- No lookup gets as far as a name that is not valid. -/
structure Coherent (s : SupermemoryFs) : Prop where
  wf : WellFormed s.db
  agrees : ∀ k i, validateName k.2 = .ok () → s.dentryCache.peek k = some i → Agrees s.db k i

/-- A sibling that stands at the old name has no second one when the new one is
cleared, or the new one is too long. -/
def Single (db : Db) (oldParent : Ino) (oldName : String) (newParent : Ino) (newName : String) : Prop :=
  validateName newName = .ok () → ∀ x, childInode db oldParent oldName = some x → x.derived = true →
    ((db.delChild newParent newName).dentries.filter fun d => d.ino = x.ino).length ≤ 1

/-- Each round of `cascade_rename_derived_siblings` finds its sibling with one name. -/
def Singles (oldParent : Ino) (oldName : String) (newParent : Ino) (newName : String) : List String → Db → Prop
  | [], _ => True
  | suffix :: rest, db => Single db oldParent (oldName ++ suffix) newParent (newName ++ suffix) ∧
      Singles oldParent oldName newParent newName rest
        (renameDerivedSibling db oldParent (oldName ++ suffix) newParent (newName ++ suffix))

instance (db : Db) (p : Ino) (name : String) (p' : Ino) (name' : String) : Decidable (Single db p name p' name') :=
  inferInstanceAs (Decidable (_ → ∀ x ∈ childInode db p name, _ → _ ≤ 1))

instance Singles.decidable (p : Ino) (name : String) (p' : Ino) (name' : String) :
    ∀ suffixes db, Decidable (Singles p name p' name' suffixes db)
  | [], _ => isTrue trivial
  | _ :: rest, _ => @instDecidableAnd _ _ inferInstance (Singles.decidable p name p' name' rest _)

/-- What the file system, a pull or the push worker is asked to do. -/
inductive Act
  | lookup (v : Ambient) (parentIno : Ino) (name : String)
  | name (op : NameOp)
  | ensureDirs (path : String)
  | reconcileOne (doc : Document)
  | applyDeletion (remoteId : String)
  | createDerivedSibling (filepath : String) (content : Bytes)
  | write (f : SqliteFile) (offset : ℕ) (data : Bytes)
  | truncate (f : SqliteFile) (size : ℕ)
  | flush (f : SqliteFile)
  | setattr (ino : Ino) (size : ℕ)

/-- An operation on names, with the cache. -/
def applyName (s : SupermemoryFs) (online : Bool) (nowMs : ℤ) : NameOp → SupermemoryFs
  | .mkdir p n => (s.mkdir p n).2
  | .rmdir p n => (s.rmdir p n).2
  | .createFile p n => (s.createFile online p n).2
  | .unlink p n => (s.unlink online p n nowMs).2
  | .symlink p n t => (s.symlink p n t).2
  | .link i p n => (s.link i p n).2
  | .rename p n p' n' => (s.rename online p n p' n' nowMs).2

def Act.apply (s : SupermemoryFs) (online : Bool) (nowMs : ℤ) : Act → SupermemoryFs
  | .lookup v p n => (s.lookup v p n).2
  | .name op => applyName s online nowMs op
  | .ensureDirs path => (s.ensureDirs path).1
  | .reconcileOne doc => (s.reconcileOne doc nowMs).2
  | .applyDeletion rid => (s.applyDeletion rid).2
  | .createDerivedSibling filepath content => (s.createDerivedSibling filepath content).2
  | .write f offset data => { s with db := (f.write s.db offset data nowMs).2 }
  | .truncate f size => { s with db := f.truncate s.db size }
  | .flush f => { s with db := f.flush s.db nowMs }
  | .setattr i size => { s with db := (setattrSize s.db i size).2 }

/-- The call on the tables. -/
def Act.route : Act → Option Route
  | .lookup _ _ _ => none
  | .name op => some (.call (.tree (.name op)))
  | .ensureDirs path => some (.call (.tree (.ensureDirs path)))
  | .reconcileOne doc => some (.call (.tree (.reconcileOne doc)))
  | .applyDeletion rid => some (.call (.tree (.applyDeletion rid)))
  | .createDerivedSibling filepath content => some (.sibling filepath content)
  | .write f offset data => some (.call (.write f offset data))
  | .truncate f size => some (.call (.truncate f size))
  | .flush f => some (.call (.flush f))
  | .setattr i size => some (.call (.setattr i size))

/-- A call at a time. -/
def step (online : Bool) (s : SupermemoryFs) (a : ℤ × Act) : Option SupermemoryFs := some (a.2.apply s online a.1)

/-- The siblings that a rename carries along have one name each. -/
def Alone (online : Bool) (s : SupermemoryFs) (a : ℤ × Act) : Prop :=
  match a.2 with
  | .name (.rename p n p' n') => ∀ mid, Cascade.Hands s.db online a.1 (.rename p n p' n') mid →
      Singles p n p' n' derivedSiblingSuffixes mid
  | _ => True

/-- No entry, and an empty cache of some capacity. -/
def start (cap : ℕ) (h : 0 < cap) : SupermemoryFs := ⟨.fresh, Lru.empty (Ino × String) Ino cap h⟩

section Lemmas

variable {s : SupermemoryFs} {db db' : Db} {c : Lru (Ino × String) Ino} {p p' i : Ino} {name name' : String}
variable {online : Bool} {nowMs : ℤ} {doc : Document}

/-! ### What is gone -/

theorem Fades.of_erodes (h : Erodes db db') (hn : db.nextIno ≤ db'.nextIno) : Fades db db' := by
  intro i hi
  refine ⟨hi.1.trans_le hn, ?_⟩
  rcases h i hi.1 with hs | hs
  · exact hs.trans hi.2
  · exact hs

theorem Fades.of_extends (h : Extends db db') : Fades db db' := .of_erodes (.of_same h.sort) h.next

theorem Fades.congr (hi : db'.inodes = db.inodes) (hn : db'.nextIno = db.nextIno) : Fades db db' :=
  .of_erodes (.of_same fun _ _ => sortOf_congr hi) hn.ge

/-! ### What the cache holds -/

theorem Agrees.same {k : Ino × String} (h : Agrees db k i) (hf : Fades db db')
    (hc : db'.childIno k.1 k.2 = db.childIno k.1 k.2) : Agrees db' k i := by
  unfold Agrees
  rw [hc]
  exact h.imp_right fun hgone => ⟨hf i hgone.1, fun j hj => hf j (hgone.2 j hj)⟩

/-- A cache that holds what the old one held under names that are as they were, and what agrees. -/
theorem Coherent.change (h : Coherent s) (hwf : WellFormed db') (hf : Fades s.db db')
    (hc : ∀ k i, validateName k.2 = .ok () → c.peek k = some i → Agrees db' k i ∨
      s.dentryCache.peek k = some i ∧ db'.childIno k.1 k.2 = s.db.childIno k.1 k.2) : Coherent ⟨db', c⟩ := by
  refine ⟨hwf, fun k i hv hk => ?_⟩
  rcases hc k i hv hk with hnew | ⟨hold, hsame⟩
  · exact hnew
  · exact (h.agrees k i hv hold).same hf hsame

theorem Coherent.still (h : Coherent s) (hwf : WellFormed db') (hf : Fades s.db db')
    (hc : ∀ q n, db'.childIno q n = s.db.childIno q n) : Coherent { s with db := db' } :=
  h.change hwf hf fun _ _ _ hk => .inr ⟨hk, hc _ _⟩

theorem Coherent.put (h : Coherent s) (hwf : WellFormed db') (hf : Fades s.db db') (hi : db'.childIno p name = some i)
    (hc : ∀ q n, (q, n) ≠ (p, name) → db'.childIno q n = s.db.childIno q n) :
    Coherent ⟨db', s.dentryCache.put (p, name) i⟩ := by
  refine h.change hwf hf fun k j hv hk => ?_
  rcases Lru.peek_put hk with ⟨rfl, rfl⟩ | ⟨hne, hk⟩
  · exact .inl (.inl hi)
  · exact .inr ⟨hk, hc _ _ hne⟩

theorem Coherent.pop (h : Coherent s) (hwf : WellFormed db') (hf : Fades s.db db')
    (hc : ∀ q n, (q, n) ≠ (p, name) → db'.childIno q n = s.db.childIno q n) :
    Coherent ⟨db', s.dentryCache.pop (p, name)⟩ := by
  refine h.change hwf hf fun k j hv hk => ?_
  rw [Lru.peek_pop] at hk
  split_ifs at hk with hkey
  exact .inr ⟨hk, hc _ _ hkey⟩

/-- An entry goes from one name to another. -/
theorem Coherent.move (h : Coherent s) (hwf : WellFormed db') (hf : Fades s.db db')
    (hi : validateName name' = .ok () → db'.childIno p' name' = some i)
    (hc : ∀ q n, (q, n) ≠ (p, name) → (q, n) ≠ (p', name') → db'.childIno q n = s.db.childIno q n) :
    Coherent ⟨db', (s.dentryCache.pop (p, name)).put (p', name') i⟩ := by
  refine h.change hwf hf fun k j hv hk => ?_
  rcases Lru.peek_put hk with ⟨rfl, rfl⟩ | ⟨hne, hk⟩
  · exact .inl (.inl (hi hv))
  · rw [Lru.peek_pop] at hk
    split_ifs at hk with hkey
    exact .inr ⟨hk, hc _ _ hkey hne⟩

theorem childIno_congr (h : db'.dentries = db.dentries) : db'.childIno p name = db.childIno p name := by
  unfold Db.childIno Db.child
  rw [h]

theorem Coherent.sameTree (h : Coherent s) (hs : SameTree s.db db') : Coherent { s with db := db' } :=
  h.still (hs.wf h.wf) (.of_erodes (.of_same fun i _ => hs.sorts i) hs.next.ge) fun _ _ => childIno_congr hs.dentries

/-! ### Lookups -/

theorem attrOf_gone {v : Ambient} (h : Gone db i) : attrOf db v i = none := by
  have hrow : db.getInode i = none := Option.map_eq_none_iff.mp h.2
  unfold attrOf
  rw [hrow]
  rfl

/-- **What the cache holds under a name is answered as without it.** -/
theorem Agrees.attr {v : Ambient} (h : Agrees db (p, name) i) :
    attrOf db v i = (db.childIno p name).bind fun k => attrOf db v k := by
  rcases h with hc | ⟨hi, hj⟩
  · rw [show db.childIno p name = some i from hc]
    rfl
  · rw [attrOf_gone hi]
    cases hc : db.childIno p name with
    | none => rfl
    | some j => exact (attrOf_gone (hj j hc)).symm

theorem Coherent.lookup (h : Coherent s) (v : Ambient) (p : Ino) (name : String) :
    (s.lookup v p name).1 = lookupTables s.db v p name := by
  unfold SupermemoryFs.lookup lookupTables
  cases hv : validateName name with
  | error e => rfl
  | ok _ =>
    dsimp only
    cases (if p = ROOT_INO ∧ name = PROFILE_NAME then v.profileFile else none) with
    | some attr => rfl
    | none =>
      dsimp only
      cases s.db.getInode p with
      | none => rfl
      | some x =>
        dsimp only
        split_ifs with hk
        · rfl
        · have hget : (s.dentryCache.get (p, name)).1 = s.dentryCache.peek (p, name) := Lru.get_fst
          generalize s.dentryCache.get (p, name) = found at hget ⊢
          obtain ⟨o, cache⟩ := found
          cases o with
          | some i => exact congrArg Except.ok (h.agrees _ i hv hget.symm).attr
          | none => cases s.db.childIno p name <;> rfl

theorem lookup_coherent {v : Ambient} (h : Coherent s) : Coherent (s.lookup v p name).2 := by
  have hget {k : Ino × String} {j : Ino} (hv : validateName k.2 = .ok ())
      (hk : (s.dentryCache.get (p, name)).2.peek k = some j) : Agrees s.db k j := h.agrees k j hv (Lru.peek_get hk)
  unfold SupermemoryFs.lookup
  cases validateName name with
  | error e => exact h
  | ok _ =>
    dsimp only
    cases (if p = ROOT_INO ∧ name = PROFILE_NAME then v.profileFile else none) with
    | some attr => exact h
    | none =>
      dsimp only
      cases s.db.getInode p with
      | none => exact h
      | some x =>
        dsimp only
        split_ifs with hk
        · exact h
        · generalize s.dentryCache.get (p, name) = found at hget ⊢
          obtain ⟨o, cache⟩ := found
          cases o with
          | some i => exact ⟨h.wf, fun k j hv hk => hget hv hk⟩
          | none =>
            cases hc : s.db.childIno p name with
            | none => exact ⟨h.wf, fun k j hv hk => hget hv hk⟩
            | some i =>
              refine ⟨h.wf, fun k j hv hk => ?_⟩
              rcases Lru.peek_put hk with ⟨rfl, rfl⟩ | ⟨-, hk⟩
              · exact .inl hc
              · exact hget hv hk

/-! ### The helpers -/

theorem child_fresh {q : Ino} {n : String} (h : (q, n) ≠ (p, name)) :
    (db.childIno q n).or (if q = p ∧ n = name then some i else none) = db.childIno q n := by
  rw [if_neg fun he => h (Prod.ext he.1 he.2), Option.or_none]

/-- A new inode under a free name. -/
theorem Coherent.create {kind : FileKind} {nlink size : ℤ} {derived : Bool} (h : Coherent s)
    (hk : derived = true → kind = .reg) (hfree : s.db.childIno p name = none) (hp : p < s.db.nextIno) :
    Coherent ⟨(s.db.addInode kind nlink size derived).1.addDentry name p s.db.nextIno,
      s.dentryCache.put (p, name) s.db.nextIno⟩ := by
  have hsort : Erodes s.db ((s.db.addInode kind nlink size derived).1.addDentry name p s.db.nextIno) :=
    .of_same fun i hi => (sortOf_addInode h.wf.bounded).trans (if_neg hi.ne)
  refine h.put (h.wf.create hk hfree hp) (.of_erodes hsort (Nat.le_succ _)) ?_ fun q n hne => ?_
  · rw [childIno_new, hfree, if_pos ⟨rfl, rfl⟩]
    rfl
  · exact childIno_new.trans (child_fresh hne)

/-- The names stay, and the rows. -/
theorem Coherent.rows (h : Coherent s) (hwf : WellFormed db') (hd : db'.dentries = s.db.dentries)
    (hs : ∀ i, sortOf db' i = sortOf s.db i) (hn : db'.nextIno = s.db.nextIno) : Coherent { s with db := db' } :=
  h.still hwf (.of_erodes (.of_same fun i _ => hs i) hn.ge) fun _ _ => childIno_congr hd

theorem Coherent.updNlink {f : ℤ → ℤ} (h : Coherent s) :
    Coherent { s with db := s.db.updInode p fun x => { x with nlink := f x.nlink } } :=
  h.rows h.wf.updNlink rfl (fun _ => sortOf_updNlink) rfl

theorem ensureDir_coherent (part : String) (h : Coherent s) (hp : Named s.db p) :
    Coherent (s.ensureDir p part).1 ∧ Named (s.ensureDir p part).1.db (s.ensureDir p part).2 := by
  unfold SupermemoryFs.ensureDir Fs.ensureDir
  cases hc : s.db.childIno p part with
  | some i => exact ⟨h, named_of_child hc⟩
  | none =>
    have hnew : Coherent ⟨(s.db.addInode .dir 2 0 false).1.addDentry part p s.db.nextIno,
        s.dentryCache.put (p, part) s.db.nextIno⟩ := h.create nofun hc (h.wf.named_lt hp)
    refine ⟨hnew.updNlink (f := fun n => n + 1), ?_⟩
    have hchild : ((s.db.addInode .dir 2 0 false).1.addDentry part p s.db.nextIno).childIno p part =
      some s.db.nextIno := by
      rw [childIno_new, hc, if_pos ⟨rfl, rfl⟩]
      rfl
    exact .inr ⟨_, childIno_some hchild, rfl⟩

theorem ensureDirs_coherent (path : String) (h : Coherent s) :
    Coherent (s.ensureDirs path).1 ∧ Named (s.ensureDirs path).1.db (s.ensureDirs path).2 := by
  unfold SupermemoryFs.ensureDirs
  have hroot : Named s.db ROOT_INO := .inl rfl
  generalize ROOT_INO = p at hroot ⊢
  induction components path generalizing s p with
  | nil => exact ⟨h, hroot⟩
  | cons part parts ih =>
    obtain ⟨hdir, hnamed⟩ := ensureDir_coherent part h hroot
    exact ih hdir _ hnamed

theorem moveDentries_child (hwf : WellFormed db) (hm : Fs.moveDentries db i p' name' = some db') {d : Dentry}
    (hd : db.dentryOf i = some d) (hp' : p' < db.nextIno) : db'.childIno p' name' = some i ∧ ∀ q n, (q, n) ≠ nameOf d →
      (q, n) ≠ (p', name') → db'.childIno q n = db.childIno q n := by
  have hwf' : WellFormed db' := hwf.moveDentries hp' hm
  obtain ⟨hmem, hino⟩ := Table.get_some hd
  refine ⟨(childIno_iff hwf'.distinct).mpr ((mem_moveDentries hm).mpr (.inr ⟨rfl, d, hmem, hino⟩)),
    fun q n hold hnew => ?_⟩
  -- no other entry is of the inode
  have honly : ∀ e ∈ db.dentries, e.ino = i → e = d := by
    intro e he hei
    unfold Fs.moveDentries at hm
    split_ifs at hm with hno
    push Not at hno
    have hlen : (db.dentries.filter fun x => x.ino = i).length ≤ 1 := by omega
    have hein : e ∈ db.dentries.filter fun x => x.ino = i := by simp [he, hei]
    have hdin : d ∈ db.dentries.filter fun x => x.ino = i := by simp [hmem, hino]
    generalize (db.dentries.filter fun x => x.ino = i) = l at hlen hein hdin
    rcases l with _ | ⟨x, _ | ⟨y, l⟩⟩
    · cases hein
    · rw [List.mem_singleton.mp hein, List.mem_singleton.mp hdin]
    · simp at hlen
  refine Option.ext fun k => ?_
  rw [childIno_iff hwf'.distinct, childIno_iff hwf.distinct, mem_moveDentries hm]
  constructor
  · rintro (⟨he, -⟩ | ⟨he, -⟩)
    · exact he
    · cases he
      exact absurd rfl hnew
  · intro he
    exact .inl ⟨he, fun hk => hold (by rw [← honly _ he hk]; rfl)⟩

theorem applyRenameTo_coherent {dir : String} (h : Coherent s) : Coherent (s.applyRenameTo i dir name).2 := by
  obtain ⟨hdirs, hnamed⟩ := ensureDirs_coherent dir h
  unfold SupermemoryFs.applyRenameTo
  generalize s.ensureDirs dir = dirs at hdirs hnamed ⊢
  dsimp only
  cases hd : dirs.1.db.dentryOf i with
  | none => exact hdirs
  | some d =>
    cases hm : Fs.moveDentries dirs.1.db i dirs.2 name with
    | none => exact hdirs
    | some db =>
      have hp := hdirs.wf.named_lt hnamed
      obtain ⟨hnew, hother⟩ := moveDentries_child hdirs.wf hm hd hp
      obtain ⟨hi, -, -, -, hn⟩ := moveDentries_rows hm
      exact hdirs.move (hdirs.wf.moveDentries hp hm) (.congr hi hn) (fun _ => hnew) hother

/-! ### Derived siblings -/

theorem createDerivedAt_child (db : Db) (p : Ino) (name : String) (content : Bytes) :
    match (createDerivedAt db p name content).1 with
    | .ok i => (createDerivedAt db p name content).2.childIno p name = some i
    | .error _ => (createDerivedAt db p name content).2.dentries = db.dentries := by
  unfold createDerivedAt
  cases hx : childInode db p name with
  | some x =>
    dsimp only
    split_ifs
    · exact (childInode_named hx).1
    · rfl
  | none =>
    dsimp only
    split_ifs with hsome
    · rfl
    · show ((db.addInode .reg 1 content.length true).1.addDentry name p db.nextIno).childIno p name = some db.nextIno
      rw [childIno_new, Db.childIno, Option.not_isSome_iff_eq_none.mp hsome, if_pos ⟨rfl, rfl⟩]
      rfl

theorem createDerivedSibling_coherent {filepath : String} {content : Bytes} (h : Coherent s) :
    Coherent (s.createDerivedSibling filepath content).2 := by
  unfold SupermemoryFs.createDerivedSibling
  split_ifs
  · exact h
  · exact h
  · obtain ⟨hdirs, hnamed⟩ := ensureDirs_coherent (splitPath filepath).1 h
    generalize s.ensureDirs (splitPath filepath).1 = dirs at hdirs hnamed ⊢
    obtain ⟨he, -, hnew⟩ := createDerivedAt_edits (R := .any) (splitPath filepath).2 content hdirs.wf hnamed trivial trivial
    have hwf := Edits.wf hdirs.wf he
    have hext := Edits.extends hdirs.wf he
    have hchild := createDerivedAt_child dirs.1.db dirs.2 (splitPath filepath).2 content
    dsimp only
    generalize createDerivedAt dirs.1.db dirs.2 (splitPath filepath).2 content = r at hnew hwf hext hchild ⊢
    obtain ⟨res, db⟩ := r
    cases res with
    | error e => exact hdirs.still hwf (.of_extends hext) fun _ _ => childIno_congr hchild
    | ok i =>
      refine hdirs.put hwf (.of_extends hext) hchild fun q n hne => Option.ext fun k => ⟨fun hk => ?_, hext.child q n k⟩
      rcases hnew q n k hk with hold | ⟨rfl, rfl⟩
      · exact hold
      · exact absurd rfl hne

theorem createRawStub_coherent {filepath : String} (h : Coherent s) : Coherent (s.createRawStub filepath).2 := by
  unfold SupermemoryFs.createRawStub
  split_ifs
  · exact h
  · exact h
  · obtain ⟨hdirs, hnamed⟩ := ensureDirs_coherent (splitPath filepath).1 h
    generalize s.ensureDirs (splitPath filepath).1 = dirs at hdirs hnamed ⊢
    dsimp only
    unfold SupermemoryFs.createStubAt Fs.createStubAt
    cases hc : dirs.1.db.childIno dirs.2 (splitPath filepath).2 with
    | some i => exact hdirs
    | none => exact hdirs.create nofun hc (hdirs.wf.named_lt hnamed)

theorem createRawStub_lt {filepath : String} (h : db.Bounded) (hi : (createRawStub db filepath).1 = .ok i) :
    i < (createRawStub db filepath).2.nextIno := by
  unfold createRawStub at hi ⊢
  by_cases hslash : filepath.toList.contains '/' = false
  · rw [if_pos hslash] at hi
    cases hi
  rw [if_neg hslash] at hi ⊢
  by_cases hempty : (splitPath filepath).2.isEmpty = true
  · rw [if_pos hempty] at hi
    cases hi
  rw [if_neg hempty] at hi ⊢
  dsimp only at hi ⊢
  have hdirs : (ensureDirs db (splitPath filepath).1).1.Bounded := ensureDirs_bounded h
  have hstub (p : Ino) (name : String) : (createStubAt (ensureDirs db (splitPath filepath).1).1 p name).1 <
      (createStubAt (ensureDirs db (splitPath filepath).1).1 p name).2.nextIno := (createStubAt_bounded hdirs).2
  have hstub := hstub (ensureDirs db (splitPath filepath).1).2 (splitPath filepath).2
  generalize createStubAt (ensureDirs db (splitPath filepath).1).1 (ensureDirs db (splitPath filepath).1).2
    (splitPath filepath).2 = stub at hi hstub ⊢
  obtain rfl : stub.1 = i := Except.ok.inj hi
  exact hstub

theorem fades_delInode (hn : db'.nextIno = db.nextIno) (hs : ∀ j, sortOf db' j = if j = i then none else sortOf db j) :
    Fades db db' := .of_erodes (.of_gone hs) hn.ge

theorem removeDerived_coherent (h : Coherent s) : Coherent (s.removeDerivedSibling p name) := by
  unfold SupermemoryFs.removeDerivedSibling
  cases hx : childInode s.db p name with
  | none => exact h
  | some x =>
    dsimp only
    split_ifs with hd
    · have hf : Fades s.db (Fs.removeDerivedSibling s.db p name) := by
        unfold Fs.removeDerivedSibling
        rw [hx]
        dsimp only
        rw [if_pos hd]
        exact fades_delInode rfl fun _ => sortOf_delInode
      exact h.pop h.wf.removeDerived hf fun q n hne => removeDerived_child hne
    · exact h

theorem cascadeUnlink_coherent (h : Coherent s) : Coherent (s.cascadeUnlinkDerivedSiblings p name) := by
  unfold SupermemoryFs.cascadeUnlinkDerivedSiblings
  induction derivedSiblingSuffixes generalizing s with
  | nil => exact h
  | cons suffix rest ih => exact ih (removeDerived_coherent h)

/-! ### The operations on names -/

theorem vacant_spec (h : WellFormed db) (hv : vacant db p name = .ok ()) :
    db.childIno p name = none ∧ p < db.nextIno := by
  obtain ⟨⟨x, hx, -⟩, hfree⟩ := vacant_ok hv
  exact ⟨hfree, h.bounded.getInode hx⟩

theorem mkdir_coherent (h : Coherent s) : Coherent (s.mkdir p name).2 := by
  unfold SupermemoryFs.mkdir Fs.mkdir
  cases validateName name with
  | error e => exact h
  | ok _ =>
    dsimp only
    cases hv : vacant s.db p name with
    | error e => exact h
    | ok _ =>
      obtain ⟨hfree, hp⟩ := vacant_spec h.wf hv
      have hnew := @Coherent.create s p name .dir 2 0 false h nofun hfree hp
      exact hnew.updNlink (f := fun n => n + 1)

theorem createFile_coherent (h : Coherent s) : Coherent (s.createFile online p name).2 := by
  unfold SupermemoryFs.createFile
  rw [createFile_eq]
  cases validateName name with
  | error e => exact h
  | ok _ =>
    dsimp only
    cases hv : vacant s.db p name with
    | error e => exact h
    | ok _ =>
      obtain ⟨hfree, hp⟩ := vacant_spec h.wf hv
      exact h.create nofun hfree hp

theorem symlink_coherent {target : String} (h : Coherent s) : Coherent (s.symlink p name target).2 := by
  have hwf : WellFormed (Fs.symlink s.db p name target).2 := name_wf h.wf true 0 (.symlink p name target)
  unfold SupermemoryFs.symlink
  unfold Fs.symlink at hwf ⊢
  cases hn : validateName name with
  | error e => exact h
  | ok _ =>
    rw [hn] at hwf
    dsimp only at hwf ⊢
    cases hv : vacant s.db p name with
    | error e => exact h
    | ok _ =>
      rw [hv] at hwf
      obtain ⟨hfree, hp⟩ := vacant_spec h.wf hv
      have hnew := @Coherent.create s p name .lnk 1 target.utf8ByteSize false h nofun hfree hp
      exact hnew.rows hwf rfl (fun _ => rfl) rfl

theorem link_coherent (h : Coherent s) : Coherent (s.link i p name).2 := by
  unfold SupermemoryFs.link Fs.link
  cases validateName name with
  | error e => exact h
  | ok _ =>
    dsimp only
    cases hx : s.db.getInode i with
    | none => exact h
    | some x =>
      dsimp only
      split_ifs with hk
      · exact h
      · cases hv : vacant s.db p name with
        | error e => exact h
        | ok _ =>
          obtain ⟨hfree, hp⟩ := vacant_spec h.wf hv
          have hroot : i ≠ ROOT_INO := by
            rintro rfl
            have hsort := h.wf.root
            unfold sortOf at hsort
            rw [hx] at hsort
            exact hk (congrArg Prod.fst (Option.some.inj hsort))
          have hwf : WellFormed (s.db.updInode i fun x => { x with nlink := x.nlink + 1 }) :=
            h.wf.updNlink (f := fun n => n + 1)
          refine h.put (hwf.addDentry hfree hp (h.wf.bounded.getInode hx) hroot) ?_ ?_ fun q n hne => ?_
          · exact .of_erodes (.of_same fun _ _ => sortOf_updNlink (f := fun n => n + 1)) le_rfl
          · refine childIno_addDentry.trans ?_
            rw [show (s.db.updInode i fun x => { x with nlink := x.nlink + 1 }).childIno p name = none from hfree,
              if_pos ⟨rfl, rfl⟩]
            rfl
          · exact childIno_addDentry.trans (child_fresh hne)

theorem child_deleted {q : Ino} {n : String} (h : (q, n) ≠ (p, name)) :
    (db.delChild p name).childIno q n = db.childIno q n := by
  rw [childIno_delChild, if_neg fun he => h (Prod.ext he.1 he.2)]

theorem rmdir_coherent (h : Coherent s) : Coherent (s.rmdir p name).2 := by
  have hwf : WellFormed (Fs.rmdir s.db p name).2 := name_wf h.wf true 0 (.rmdir p name)
  unfold SupermemoryFs.rmdir
  unfold Fs.rmdir at hwf ⊢
  cases hn : validateName name with
  | error e => exact h
  | ok _ =>
    rw [hn] at hwf
    dsimp only at hwf ⊢
    cases hx : childInode s.db p name with
    | none => exact h
    | some x =>
      rw [hx] at hwf
      dsimp only at hwf ⊢
      split_ifs at hwf ⊢
      · exact h
      · exact h
      · refine h.pop hwf (fades_delInode (i := x.ino) rfl fun j => ?_) fun q n hne => child_deleted hne
        exact (sortOf_updNlink (f := fun n => max (n - 1) 2)).trans sortOf_delInode

theorem unlinkTables_coherent {x : Inode} (h : Coherent s) (hx : x.ino ≠ ROOT_INO) (q : PushQueue) :
    Coherent ⟨{ unlinkTables s.db p name x with queue := q }, s.dentryCache.pop (p, name)⟩ := by
  have hnext : (unlinkTables s.db p name x).nextIno = s.db.nextIno := by
    unfold unlinkTables
    dsimp only
    split_ifs <;> rfl
  have he : Erodes s.db { unlinkTables s.db p name x with queue := q } := fun i hi => erodes_unlink i hi
  refine h.pop (h.wf.unlinkTables hx).queue (.of_erodes he hnext.ge) fun r n hne => ?_
  have hchild : ({ unlinkTables s.db p name x with queue := q } : Db).childIno r n =
    (s.db.delChild p name).childIno r n :=
    childIno_congr unlinkTables_dentries
  exact hchild.trans (child_deleted hne)

theorem unlink_coherent (h : Coherent s) : Coherent (s.unlink online p name nowMs).2 := by
  unfold SupermemoryFs.unlink
  cases validateName name with
  | error e => exact h
  | ok _ =>
    dsimp only
    by_cases hprofile : (p = ROOT_INO && name = PROFILE_NAME) = true
    · rw [if_pos hprofile]
      exact h
    rw [if_neg hprofile]
    cases hx : childInode s.db p name with
    | none => exact h
    | some x =>
      dsimp only
      by_cases hk : x.kind = .dir
      · rw [if_pos hk]
        exact h
      rw [if_neg hk]
      have hpop : Coherent ⟨unlinkEnqueue (unlinkTables s.db p name x) online (childPath s.db p name) x.ino nowMs,
          s.dentryCache.pop (p, name)⟩ := by
        obtain ⟨q, hq⟩ := unlinkEnqueue_cases (unlinkTables s.db p name x) online (childPath s.db p name) x.ino nowMs
        rw [hq]
        exact unlinkTables_coherent h (h.wf.ne_root (childInode_named hx).1) q
      dsimp only
      exact cascadeUnlink_coherent hpop

/-- A round moves the entry, as the cache is told, or clears the new name only. -/
theorem renameDerived_moves (hwf : WellFormed db) (hp : p' < db.nextIno) (hne : (p, name) ≠ (p', name')) {x : Inode}
    (hx : childInode db p name = some x) (hd : x.derived = true) (hone : Single db p name p' name')
    (hv : validateName name' = .ok ()) :
    (Fs.renameDerivedSibling db p name p' name').childIno p' name' = some x.ino := by
  obtain ⟨hc, hrow⟩ := childInode_named hx
  have hone := hone hv x hx hd
  have hfree : ¬ ∃ d ∈ (db.delChild p' name').dentries, d.ino ≠ x.ino ∧ d.parentIno = p' ∧ d.name = name' := by
    rintro ⟨d, hm, -, hpar, hname⟩
    exact (mem_delChild.mp hm).2 (Prod.ext hpar hname)
  have hm : Fs.moveDentries (db.delChild p' name') x.ino p' name' =
      some (Fs.renameDerivedSibling db p name p' name') := by
    unfold Fs.renameDerivedSibling
    rw [hx]
    dsimp only
    rw [if_pos hd]
    unfold Fs.moveDentries
    rw [if_neg fun hno => hno.elim (fun hlen => by omega) hfree]
    rfl
  have hwf' : WellFormed (Fs.renameDerivedSibling db p name p' name') := (hwf.renameDerived hp _ _).1
  refine (childIno_iff hwf'.distinct).mpr ((mem_moveDentries hm).mpr (.inr ⟨rfl, ⟨name, p, x.ino⟩, ?_, rfl⟩))
  exact mem_delChild.mpr ⟨childIno_some hc, hne⟩

theorem renameDerived_coherent (h : Coherent s) (hp : p' < s.db.nextIno) (hne : (p, name) ≠ (p', name'))
    (hone : Single s.db p name p' name') : Coherent (s.renameDerivedSibling p name p' name') := by
  unfold SupermemoryFs.renameDerivedSibling
  cases hx : childInode s.db p name with
  | none => exact h
  | some x =>
    dsimp only
    split_ifs with hd
    · obtain ⟨hwf, hn⟩ := h.wf.renameDerived (p := p) hp name name'
      exact h.move hwf (.congr renameDerived_inodes hn) (fun hv => renameDerived_moves h.wf hp hne hx hd hone hv)
        fun q n hold hnew => renameDerived_child h.wf hp hne hold hnew
    · exact h

theorem cascadeRename_coherent {suffixes : List String} (h : Coherent s) (hp : p' < s.db.nextIno)
    (hne : (p, name) ≠ (p', name')) (hok : Singles p name p' name' suffixes s.db) :
    Coherent (suffixes.foldl (fun s suffix => s.renameDerivedSibling p (name ++ suffix) p' (name' ++ suffix)) s) := by
  induction suffixes generalizing s with
  | nil => exact h
  | cons suffix rest ih =>
    obtain ⟨hone, hrest⟩ := hok
    rw [← SupermemoryFs.renameDerivedSibling_tables] at hrest
    refine ih (renameDerived_coherent h hp (Cascade.apart hne suffix) hone) ?_ hrest
    rw [SupermemoryFs.renameDerivedSibling_tables, (h.wf.renameDerived hp _ _).2]
    exact hp

/-- A rename stops at one of its checks, or gets as far as its cascade. -/
theorem rename_reaches (s : SupermemoryFs) (online : Bool) (p : Ino) (name : String) (p' : Ino)
    (name' : String) (nowMs : ℤ) :
    (s.rename online p name p' name' nowMs).2 = s ∨
      ∃ src r, Renames s.db p name p' name' src ∧ renameTables s.db src p name p' name' = .ok (some r) ∧
        (s.rename online p name p' name' nowMs).2 = (SupermemoryFs.mk
          (renamePush r online src.ino (childPath s.db p name) (childPath r.db p' name') (childPath s.db p' name') nowMs)
          (((s.dentryCache.pop (p, name)).pop (p', name')).put (p', name') src.ino)).cascadeRenameDerivedSiblings
            p name p' name' := by
  unfold SupermemoryFs.rename
  cases hv : validateName name with
  | error e => exact .inl rfl
  | ok _ =>
    cases hv' : validateName name' with
    | error e => exact .inl rfl
    | ok _ =>
      dsimp only
      cases hsrc : s.db.childIno p name with
      | none => exact .inl rfl
      | some i =>
        cases hpar : s.db.getInode p' with
        | none => exact .inl rfl
        | some parent =>
          dsimp only
          by_cases hd : parent.kind = .dir
          · rw [if_neg (not_not.mpr hd)]
            cases hx : s.db.getInode i with
            | none => exact .inl rfl
            | some src =>
              obtain rfl := getInode_ino hx
              dsimp only
              cases ht : renameTables s.db src p name p' name' with
              | error e => exact .inl rfl
              | ok o =>
                cases o with
                | none => exact .inl rfl
                | some r =>
                  have hchild : childInode s.db p name = some src := (Cascade.childInode_of hsrc).trans hx
                  refine .inr ⟨src, r, ⟨⟨hv, hv'⟩, hchild, ⟨parent, hpar, hd⟩, (renameTables_cases ht).2.1⟩, ht, ?_⟩
                  dsimp only
          · rw [if_pos hd]
            exact .inl rfl

/-- **A rename leaves the cache in agreement where each sibling it carries along
has one name.** -/
theorem rename_coherent (h : Coherent s) (hok : Alone online s (nowMs, .name (.rename p name p' name'))) :
    Coherent (s.rename online p name p' name' nowMs).2 := by
  rcases rename_reaches s online p name p' name' nowMs with he | ⟨src, r, hr, ht, he⟩
  · rwa [he]
  rw [he]
  have hsingles := hok _ (.rename hr ht)
  have hpushed := pushed_of_tables online nowMs ht
  generalize renamePush r online src.ino (childPath s.db p name) (childPath r.db p' name') (childPath s.db p' name') nowMs =
    mid at hsingles hpushed ⊢
  obtain ⟨hwf, hp, hd, hi⟩ := h.wf.pushed hr hpushed
  have hnext : s.db.nextIno ≤ mid.nextIno := by
    have hn := (h.wf.renamed hr).2
    cases hpushed <;> exact hn.ge
  have hfades : Fades s.db mid := by
    refine .of_erodes (fun i hlt => ?_) hnext
    rw [sortOf_congr hi]
    exact erodes_renamed i hlt
  have hchild (q : Ino) (n : String) : mid.childIno q n = after s.db p name p' name' src.ino q n :=
    (childIno_congr hd).trans (renamed_child hr q n)
  refine cascadeRename_coherent (h.change hwf hfades fun k j hv hk => ?_) hp hr.apart hsingles
  rw [hchild]
  unfold Agrees after
  rcases Lru.peek_put hk with ⟨rfl, rfl⟩ | ⟨hnew, hk⟩
  · rw [hchild]
    exact .inl (.inl (if_pos ⟨rfl, rfl⟩))
  · rw [Lru.peek_pop, if_neg hnew, Lru.peek_pop] at hk
    split_ifs at hk with hold
    rw [if_neg fun hq => hnew (Prod.ext hq.1 hq.2), if_neg fun hq => hold (Prod.ext hq.1 hq.2)]
    exact .inr ⟨hk, rfl⟩

/-! ### The calls of a pull -/

theorem syncError_coherent {filepath : String} (h : Coherent s) : Coherent (s.syncErrorSibling doc filepath) := by
  unfold SupermemoryFs.syncErrorSibling
  split_ifs
  · exact h
  · exact createDerivedSibling_coherent h

theorem syncTranscription_coherent {filepath : String} (h : Coherent s) :
    Coherent (s.syncTranscriptionSibling doc filepath) := by
  unfold SupermemoryFs.syncTranscriptionSibling
  split_ifs
  · exact h
  · split
    · exact createDerivedSibling_coherent h
    · exact h

theorem Coherent.mirror (h : Coherent s) (hi : i < s.db.nextIno) :
    Coherent { s with db := mirrorContent s.db i doc } := by
  unfold mirrorContent
  split_ifs
  · exact h
  · split
    · exact h.rows (h.wf.rewrite hi) rfl (fun _ => sortOf_rewrite) rfl
    · exact h

/-- Only tables of the sync engine change. -/
theorem Coherent.synced (h : Coherent s) (hb : db'.Bounded) (hi : db'.inodes = s.db.inodes)
    (hd : db'.dentries = s.db.dentries)
    (hn : db'.nextIno = s.db.nextIno) : Coherent { s with db := db' } :=
  h.rows (h.wf.congr hb hd hn fun _ => sortOf_congr hi) hd (fun _ => sortOf_congr hi) hn

theorem Coherent.setMirrored {u : Option ℤ} {st : Option String} {t : Option ℤ} (h : Coherent s) :
    Coherent { s with db := s.db.setMirroredState i u st t } :=
  h.synced h.wf.bounded.setMirroredState rfl rfl rfl

theorem Coherent.setRemote {rid : String} (h : Coherent s) (hi : i < s.db.nextIno) :
    Coherent { s with db := s.db.setRemoteId i rid } := h.synced (h.wf.bounded.setRemoteId hi) rfl rfl rfl

theorem reconcileContent_coherent (h : Coherent s) (hi : i < s.db.nextIno) :
    Coherent (s.reconcileContent i doc nowMs) := by
  unfold SupermemoryFs.reconcileContent
  split_ifs
  · exact syncTranscription_coherent (h.mirror hi).setMirrored
  · exact syncError_coherent h.setMirrored

theorem renameToDoc_coherent (h : Coherent s) : Coherent (s.renameToDoc i doc).2 := by
  unfold SupermemoryFs.renameToDoc
  split_ifs
  · exact h
  · exact applyRenameTo_coherent h

theorem reconcileMapped_coherent (h : Coherent s) (hi : i < s.db.nextIno) :
    Coherent (s.reconcileMapped i doc nowMs).2 := by
  unfold SupermemoryFs.reconcileMapped
  split_ifs
  · exact h
  · exact syncError_coherent (syncTranscription_coherent h)
  · have hmoved : Coherent (s.renameToDoc i doc).2 := renameToDoc_coherent h
    have hlt : i < (s.renameToDoc i doc).2.db.nextIno := by
      rw [SupermemoryFs.renameToDoc_eq.2]
      have hkeeps : Keeps i s.db (Fs.renameToDoc s.db i doc).2 := renameToDoc_keeps hi
      exact hi.trans_le hkeeps.next
    generalize s.renameToDoc i doc = r at hmoved hlt ⊢
    obtain ⟨res, t⟩ := r
    cases res with
    | error e => exact hmoved
    | ok _ => exact reconcileContent_coherent hmoved hlt

theorem reconcileAttach_coherent (h : Coherent s) (hi : i < s.db.nextIno) :
    Coherent (s.reconcileAttach i doc nowMs).2 := by
  unfold SupermemoryFs.reconcileAttach
  split_ifs
  · exact h.synced (h.wf.setRemoteId hi).queue.bounded rfl rfl rfl
  · have hset : Coherent { s with db := s.db.setRemoteId i doc.id } := h.setRemote hi
    refine Coherent.setMirrored ?_
    unfold SupermemoryFs.attachContent
    split_ifs
    · exact syncTranscription_coherent (hset.mirror hi)
    · exact hset

theorem reconcileBinary_coherent (h : Coherent s) : Coherent (s.reconcileBinary doc nowMs).2 := by
  have hsib : Coherent ((s.syncTranscriptionSibling doc doc.path).syncErrorSibling doc doc.path) :=
    syncError_coherent (syncTranscription_coherent h)
  unfold SupermemoryFs.reconcileBinary
  generalize (s.syncTranscriptionSibling doc doc.path).syncErrorSibling doc doc.path = t at hsib ⊢
  dsimp only
  split_ifs
  · have hstub : Coherent (t.createRawStub doc.path).2 := createRawStub_coherent hsib
    have hlt : ∀ i, (t.createRawStub doc.path).1 = .ok i → i < (t.createRawStub doc.path).2.db.nextIno := by
      intro i hi
      rw [SupermemoryFs.createRawStub_eq.1] at hi
      rw [SupermemoryFs.createRawStub_eq.2]
      exact createRawStub_lt hsib.wf.bounded hi
    generalize t.createRawStub doc.path = r at hstub hlt ⊢
    obtain ⟨res, u⟩ := r
    cases res with
    | error e => exact hstub
    | ok i => exact (hstub.setRemote (hlt i rfl)).setMirrored
  · exact hsib

theorem reconcileCreate_coherent (h : Coherent s) (hfree : s.db.childIno p name = none) (hp : p < s.db.nextIno) :
    Coherent (s.reconcileCreate p name doc nowMs).2 := by
  unfold SupermemoryFs.reconcileCreate
  have hnew := @Coherent.create s p name .reg 1 (doc.content.getD []).length false h nofun hfree hp
  have hrows : ((s.db.addInode .reg 1 (doc.content.getD []).length false).1.addDentry name p s.db.nextIno).Bounded →
      (addFile s.db p name (doc.content.getD [])).1.Bounded := fun hb => hb.addChunks fun c hc => by
    rw [chunkRows_ino hc]
    exact Nat.lt_succ_self _
  have hfile : Coherent ⟨(addFile s.db p name (doc.content.getD [])).1, s.dentryCache.put (p, name) s.db.nextIno⟩ :=
    hnew.synced (hrows hnew.wf.bounded) rfl rfl rfl
  exact syncTranscription_coherent (hfile.setRemote (Nat.lt_succ_self _)).setMirrored

theorem reconcileUnmapped_coherent (h : Coherent s) : Coherent (s.reconcileUnmapped doc nowMs).2 := by
  unfold SupermemoryFs.reconcileUnmapped
  by_cases hdone : doc.status ≠ "done"
  · rw [if_pos hdone]
    exact syncError_coherent h
  rw [if_neg hdone]
  obtain ⟨hdirs, hnamed⟩ := ensureDirs_coherent (splitPath doc.path).1 h
  generalize s.ensureDirs (splitPath doc.path).1 = dirs at hdirs hnamed ⊢
  dsimp only
  cases hc : dirs.1.db.childIno dirs.2 (splitPath doc.path).2 with
  | some i => exact reconcileAttach_coherent hdirs (hdirs.wf.named_lt (named_of_child hc))
  | none =>
    dsimp only
    split_ifs
    · exact reconcileBinary_coherent hdirs
    · exact reconcileCreate_coherent hdirs hc (hdirs.wf.named_lt hnamed)

/-- **A reconcile leaves the cache in agreement.** -/
theorem reconcileOne_coherent (h : Coherent s) : Coherent (s.reconcileOne doc nowMs).2 := by
  unfold SupermemoryFs.reconcileOne
  cases hi : s.db.inoByRemoteId doc.id with
  | some i => exact reconcileMapped_coherent h (h.wf.bounded.inoByRemoteId hi)
  | none => exact reconcileUnmapped_coherent h

/-- **A deletion leaves the cache in agreement**: the names that are not popped
stand for an inode that is gone, as their entries are. -/
theorem applyDeletion_coherent {rid : String} (h : Coherent s) : Coherent (s.applyDeletion rid).2 := by
  unfold SupermemoryFs.applyDeletion
  cases hj : s.db.inoByRemoteId rid with
  | none => exact h
  | some j =>
    dsimp only
    split_ifs with hdirty
    · exact h
    · cases hd : s.db.dentryOf j with
      | none => exact h
      | some d =>
        have he : (Fs.applyDeletion s.db rid).2 = (((s.db.delDentriesOf j).delData j).delInode j).deleteRemoteId j := by
          unfold Fs.applyDeletion
          rw [hj]
          dsimp only
          rw [if_neg hdirty, hd]
        have hwf : WellFormed (Fs.applyDeletion s.db rid).2 := applyDeletion_wf h.wf
        have hmem {q : Ino} {n : String} {k : Ino} : (Fs.applyDeletion s.db rid).2.childIno q n = some k ↔
            s.db.childIno q n = some k ∧ k ≠ j := by
          rw [childIno_iff hwf.distinct, childIno_iff h.wf.distinct, he]
          exact List.mem_filter.trans (and_congr_right fun _ => by simp)
        have hfades : Fades s.db (Fs.applyDeletion s.db rid).2 := by
          rw [he]
          exact fades_delInode rfl fun _ => sortOf_delInode
        have hgone : Gone (Fs.applyDeletion s.db rid).2 j := by
          rw [he]
          exact ⟨h.wf.bounded.inoByRemoteId hj, sortOf_delInode.trans (if_pos rfl)⟩
        dsimp only
        refine ⟨hwf, fun k i hv hk => ?_⟩
        rw [Lru.peek_pop] at hk
        split_ifs at hk
        rcases h.agrees k i hv hk with hold | ⟨hi, hall⟩
        · by_cases hij : i = j
          · rw [hij] at hold ⊢
            exact .inr ⟨hgone, fun j' hj' => absurd (Option.some.inj (hold.symm.trans (hmem.mp hj').1)).symm (hmem.mp hj').2⟩
          · exact .inl (hmem.mpr ⟨hold, hij⟩)
        · exact .inr ⟨hfades i hi, fun j' hj' => hfades j' (hall j' (hmem.mp hj').1)⟩

/-- A lookup changes no table, and every other call what it changes without a cache. -/
theorem apply_tables (s : SupermemoryFs) (online : Bool) (nowMs : ℤ) (act : Act) :
    (act.apply s online nowMs).db = match act.route with
      | none => s.db
      | some route => route.apply s.db online nowMs := by
  cases act with
  | lookup v p n => exact SupermemoryFs.lookup_tables
  | ensureDirs path => exact SupermemoryFs.ensureDirs_tables
  | reconcileOne doc => exact SupermemoryFs.reconcileOne_tables.2
  | applyDeletion rid => exact SupermemoryFs.applyDeletion_eq.2
  | createDerivedSibling filepath content => exact SupermemoryFs.createDerivedSibling_eq.2
  | name op =>
    cases op with
    | unlink p n => exact SupermemoryFs.unlink_eq.2
    | rename p n p' n' => exact SupermemoryFs.rename_tables.2
    | _ => exact SupermemoryFs.answer_tables
  | _ => rfl

/-- **A run with the cache is one of the tables.** -/
theorem reachable_tables {cap : ℕ} {hcap : 0 < cap} (h : Reach (step online) anyStep (start cap hcap) s) :
    Reach (routeStep online) anyStep .fresh s.db := by
  induction h with
  | start => exact .start
  | @next s t a _ _ hst ih =>
    cases hst
    have he := apply_tables s online a.1 a.2
    cases hr : a.2.route with
    | none =>
      rw [hr] at he
      rwa [he]
    | some route =>
      rw [hr] at he
      rw [he]
      exact ih.next (a := (a.1, route)) trivial rfl

/-! ### Runs -/

theorem start_coherent (cap : ℕ) (hcap : 0 < cap) : Coherent (start cap hcap) :=
  ⟨.start, fun _ _ _ hk => (nomatch hk)⟩

theorem step_coherent {t : SupermemoryFs} {a : ℤ × Act} (h : Coherent s) (hok : Alone online s a)
    (hst : step online s a = some t) : Coherent t := by
  obtain ⟨nowMs, act⟩ := a
  cases hst
  cases act with
  | lookup v p n => exact lookup_coherent h
  | ensureDirs path => exact (ensureDirs_coherent path h).1
  | reconcileOne doc => exact reconcileOne_coherent h
  | applyDeletion rid => exact applyDeletion_coherent h
  | createDerivedSibling filepath content => exact createDerivedSibling_coherent h
  | write f offset data => exact h.sameTree (write_sameTree h.wf.bounded)
  | truncate f size => exact h.sameTree truncate_sameTree
  | flush f => exact h.sameTree flush_sameTree
  | setattr i size => exact h.sameTree setattr_sameTree
  | name op =>
    cases op with
    | mkdir p n => exact mkdir_coherent h
    | rmdir p n => exact rmdir_coherent h
    | createFile p n => exact createFile_coherent h
    | unlink p n => exact unlink_coherent h
    | symlink p n t => exact symlink_coherent h
    | link i p n => exact link_coherent h
    | rename p n p' n' => exact rename_coherent h hok

end Lemmas

section Run

/-- **Whatever the capacity of the cache, in every run whose renames find each
sibling they carry along with one name, `lookup` answers as it does without a
cache.** -/
theorem lookup_agrees (cap : ℕ) (hcap : 0 < cap) (online : Bool) :
    ∀ s, Reach (step online) (Alone online) (start cap hcap) s →
    ∀ v p name, (s.lookup v p name).1 = lookupTables s.db v p name := by
  intro s hs
  have hcoherent : Coherent s := hs.inv (start_coherent cap hcap) fun _ _ _ hI hok hst => step_coherent hI hok hst
  exact hcoherent.lookup

/-- An image of the server with its transcription. -/
private def scan : Document := ⟨"A", some "/a.png", some [99], "done", "2026-01-01T00:00:00Z", some "image", none⟩

/-- What a lookup reads besides the tables, with a client and no profile text. -/
private def clientView : Ambient := ⟨true, fun _ => ⟨0, 0, 0, (0, 0), (0, 0), (0, 0), 0⟩, none, (0, 0)⟩

/-- A transcription moves along with its file, and one entry fits in the cache. -/
theorem lookup_agrees_moved : ∃ s, Reach (step true) (Alone true) (start 1 (by decide)) s ∧
    s.dentryCache.peek (1, "b.png.image-transcription.md") = some 2 ∧
    (s.lookup clientView 1 "b.png.image-transcription.md").1 =
      lookupTables s.db clientView 1 "b.png.image-transcription.md" ∧
    (s.lookup clientView 1 "a.png").1 = .ok none := by
  have hmade : Reach (step true) (Alone true) (start 1 (by decide))
      (((start 1 (by decide)).reconcileOne scan 0).2.createFile true 1 "a.png").2 :=
    (Reach.start.next (a := (0, .reconcileOne scan)) trivial rfl).next (a := (0,
      .name (.createFile 1 "a.png"))) trivial rfl
  have halone : Alone true (((start 1 (by decide)).reconcileOne scan 0).2.createFile true 1 "a.png").2
      (0, .name (.rename 1 "a.png" 1 "b.png")) := by
    intro mid hm
    cases hm with
    | @rename _ _ _ _ src r checks tables =>
      obtain rfl : (⟨3, .reg, 1, 0, none, false⟩ : Inode) = src := Option.some.inj (Eq.trans (by decide) checks.source)
      obtain rfl : _ = r := Option.some.inj (Except.ok.inj (Eq.trans rfl tables))
      decide
  have hrun := hmade.next (a := (0, .name (.rename 1 "a.png" 1 "b.png"))) halone rfl
  exact ⟨_, hrun, by decide, lookup_agrees 1 (by decide) true _ hrun clientView 1 _, by decide⟩

/-- A transcription with a second name stays where it was, and the cache gives it the new name too. -/
theorem ghost : ¬ ∀ (cap : ℕ) (hcap : 0 < cap) (s : SupermemoryFs), Reach (step true) anyStep (start cap hcap) s →
    ∀ v p name, (s.lookup v p name).1 = lookupTables s.db v p name := by
  intro hall
  obtain ⟨s, hs, hp⟩ : ∃ s, Reach (step true) anyStep (start 8 (Nat.succ_pos 7)) s ∧
      decide ((s.lookup clientView 1 "b.png.image-transcription.md").1.toOption.any Option.isSome = true ∧
        lookupTables s.db clientView 1 "b.png.image-transcription.md" = .ok none) = true :=
    Reach.exists_of_run [(0, Act.reconcileOne scan), (0, Act.name (.createFile 1 "a.png")),
      (0, Act.name (.link 2 1 "t.md")),
      (0, Act.name (.rename 1 "a.png" 1 "b.png"))] (by decide)
  obtain ⟨hcached, htables⟩ := of_decide_eq_true hp
  rw [hall 8 (Nat.succ_pos 7) s hs, htables] at hcached
  exact absurd hcached (by decide)

end Run

end Coherence
end Smfs
