/-
# Statements that do not fail

Where no statement fails, the program of an operation is the operation: it
gives the same answer and leaves the same tables and the same cache
(`run_calm`). What is proved about the operations so is proved about their
statements.

Key definitions: `Statements.calm`, `Statements.VfsOp.apply`.
Key theorems: `Statements.run_calm`.
-/
import Smfs.Statements.Rollback

namespace Smfs
namespace Statements

open Sql

/-- No statement fails. -/
def calm (s : SupermemoryFs) : Conn Db (Lru (Ino × String) Ino) := scripted s.db s.dentryCache []

section Lemmas

variable {s : SupermemoryFs} {db : Db} {m : Lru (Ino × String) Ino} {online : Bool} {p p' ino : Ino}
  {n n' : String} {nowMs : ℤ}

/-! ### Single statements -/

@[simp] theorem insertInode_calm {kind : FileKind} {nlink size : ℤ} {derived : Bool} :
    (orRaise VfsError.io (insertInode kind nlink size derived)).run (scripted db m []) =
      (.ok db.nextIno, scripted (db.addInode kind nlink size derived).1 m []) := rfl

theorem insertDentry_calm (h : (db.child p n).isSome = false) :
    (orRaise VfsError.io (insertDentry n p ino)).run (scripted db m []) =
      (.ok (), scripted (db.addDentry n p ino) m []) := by
  rw [orRaise_eq_ok, insertDentry, execute_calm, h]
  rfl

@[simp] theorem child_addInode {kind : FileKind} {nlink size : ℤ} {derived : Bool} :
    (db.addInode kind nlink size derived).1.child p n = db.child p n := rfl

@[simp] theorem child_addSymlink {target : String} : (Fs.addSymlink db ino target).child p n = db.child p n := rfl

@[simp] theorem updateInode_calm {f : Inode → Inode} :
    (orRaise VfsError.io (updateInode ino f)).run (scripted db m []) = (.ok (),
      scripted (db.updInode ino f) m []) := rfl

@[simp] theorem updateTimes_calm :
    (orRaise VfsError.io updateTimes).run (scripted db m []) = (.ok (), scripted db m []) := rfl

@[simp] theorem selectMode_calm {e : VfsError} : (orRaise e (selectMode ino)).run (scripted db m []) =
    (((db.getInode ino).map Inode.kind).elim (.error e) .ok, scripted db m []) := orRaise_query_calm _

@[simp] theorem putEntry_calm : (putEntry p n ino).run (scripted db m []) =
    (.ok (), scripted db (m.put (p, n) ino) []) := rfl

@[simp] theorem popEntry_calm : (popEntry p n).run (scripted db m []) = (.ok (), scripted db (m.pop (p, n)) []) := rfl

@[simp] theorem deleteChild_calm : (orRaise VfsError.io (deleteChild p n)).run (scripted db m []) =
    (.ok (), scripted (db.delChild p n) m []) := rfl

@[simp] theorem deleteData_calm : (orRaise VfsError.io (deleteData ino)).run (scripted db m []) =
    (.ok (), scripted (db.delData ino) m []) := rfl

@[simp] theorem deleteSymlink_calm : (orRaise VfsError.io (deleteSymlink ino)).run (scripted db m []) =
    (.ok (), scripted (db.delSymlink ino) m []) := rfl

@[simp] theorem deleteInode_calm : (orRaise VfsError.io (deleteInode ino)).run (scripted db m []) =
    (.ok (), scripted (db.delInode ino) m []) := rfl

theorem committed_calm {α : Type} {body : Sqlite α} {a : α} {db' : Db}
    (h : body.run (scripted db m []) = (.ok a, scripted db' m [])) :
    (committed body).run (scripted db m []) = (.ok a, scripted db' m []) := by
  unfold committed
  rw [transaction_calm, h]
  rfl

@[simp] theorem selectChild_calm {e : VfsError} : (orRaise e (selectChild p n)).run (scripted db m []) =
    ((db.childIno p n).elim (.error e) .ok, scripted db m []) := orRaise_query_calm _

@[simp] theorem countChildren_calm {e : VfsError} : (orRaise e (countChildren ino)).run (scripted db m []) =
    (.ok (db.dentries.filter fun d => d.parentIno = ino).length, scripted db m []) := orRaise_query_calm _

theorem vacant_calm : (vacant p n).run (scripted db m []) = (Fs.vacant db p n, scripted db m []) := by
  unfold vacant exists_ Fs.vacant
  cases hp : db.getInode p with
  | none => simp [bind_apply, hp]
  | some i =>
    by_cases hdir : i.kind = .dir
    · cases hc : db.child p n <;> simp [bind_apply, hp, hdir, hc]
    · simp [bind_apply, hp, hdir]

/-! ### Paths -/

theorem resolveParts_calm : ∀ {fuel : ℕ} {current : Ino}, (resolveParts fuel current).run (scripted db m []) =
    (.ok (Fs.resolveParts db fuel current), scripted db m [])
  | 0, _ => rfl
  | fuel + 1, current => by
    unfold resolveParts Fs.resolveParts
    split_ifs
    · rfl
    · rw [bind_ok (query_calm _)]
      cases db.dentryOf current with
      | none => rfl
      | some d => exact bind_ok resolveParts_calm

theorem resolveFilepath_calm : (resolveFilepath ino).run (scripted db m []) =
    (.ok (Fs.resolveFilepath db ino), scripted db m []) := by
  unfold resolveFilepath Fs.resolveFilepath
  split_ifs
  · rfl
  · exact (bind_ok run_peek).trans (bind_ok resolveParts_calm)

theorem childPath_calm : (childPath p n).run (scripted db m []) = (.ok (Fs.childPath db p n), scripted db m []) :=
  bind_ok resolveFilepath_calm

/-! ### New names -/

theorem mkdirTables_calm (h : (db.child p n).isSome = false) : (mkdirTables p n).run (scripted db m []) =
    (.ok db.nextIno, scripted (((db.addInode .dir 2 0 false).1.addDentry n p db.nextIno).updInode p
      fun i => { i with nlink := i.nlink + 1 }) m []) := by
  unfold mkdirTables
  simp [bind_apply, insertDentry_calm, h]

theorem createTables_calm (h : (db.child p n).isSome = false) : (createTables p n).run (scripted db m []) =
    (.ok db.nextIno, scripted ((db.addInode .reg 1 0 false).1.addDentry n p db.nextIno) m []) := by
  unfold createTables
  simp [bind_apply, insertDentry_calm, h]

theorem symlinkTables_calm (target : String) (h : (db.child p n).isSome = false) :
    (symlinkTables p n target).run (scripted db m []) = (.ok db.nextIno, scripted
      ((Fs.addSymlink (db.addInode .lnk 1 target.utf8ByteSize false).1 db.nextIno target).addDentry n p db.nextIno)
      m []) := by
  unfold symlinkTables
  simp [bind_apply, insertDentry_calm, h]

theorem linkTables_calm (h : (db.child p n).isSome = false) : (linkTables ino p n).run (scripted db m []) =
    (.ok (), scripted ((db.updInode ino fun i => { i with nlink := i.nlink + 1 }).addDentry n p ino) m []) := by
  have hfree : ((db.updInode ino fun i => { i with nlink := i.nlink + 1 }).child p n).isSome = false := h
  unfold linkTables
  simp [bind_apply, insertDentry_calm, hfree]

theorem mkdir_calm : (mkdir p n).run (calm s) = ((s.mkdir p n).1, calm (s.mkdir p n).2) := by
  unfold mkdir SupermemoryFs.mkdir Fs.mkdir calm
  cases hn : Fs.validateName n with
  | error e => simp [bind_apply, SupermemoryFs.answer]
  | ok _ =>
    cases hv : Fs.vacant s.db p n with
    | error e => simp [bind_apply, SupermemoryFs.answer, vacant_calm, hv]
    | ok _ =>
      have hbody := committed_calm (mkdirTables_calm (m := s.dentryCache) (vacant_iff.mp hv).2)
      rw [bind_ok (run_ofExcept _ _), bind_ok (vacant_calm.trans (by rw [hv])), bind_ok hbody]
      rfl

theorem createFile_calm :
    (createFile online p n).run (calm s) = ((s.createFile online p n).1, calm (s.createFile online p n).2) := by
  unfold createFile SupermemoryFs.createFile calm
  rw [Fs.createFile_eq]
  cases hn : Fs.validateName n with
  | error e => simp [bind_apply, SupermemoryFs.answer]
  | ok _ =>
    cases hv : Fs.vacant s.db p n with
    | error e => simp [bind_apply, SupermemoryFs.answer, vacant_calm, hv]
    | ok _ =>
      have hbody := committed_calm (createTables_calm (m := s.dentryCache) (vacant_iff.mp hv).2)
      rw [bind_ok (run_ofExcept _ _), bind_ok (vacant_calm.trans (by rw [hv])), bind_ok hbody,
        bind_ok putEntry_calm, bind_ok childPath_calm]
      rfl

theorem symlink_calm {target : String} :
    (symlink p n target).run (calm s) = ((s.symlink p n target).1, calm (s.symlink p n target).2) := by
  unfold symlink SupermemoryFs.symlink Fs.symlink calm
  cases hn : Fs.validateName n with
  | error e => simp [bind_apply, SupermemoryFs.answer]
  | ok _ =>
    cases hv : Fs.vacant s.db p n with
    | error e => simp [bind_apply, SupermemoryFs.answer, vacant_calm, hv]
    | ok _ =>
      have hbody := committed_calm (symlinkTables_calm (m := s.dentryCache) target (vacant_iff.mp hv).2)
      rw [bind_ok (run_ofExcept _ _), bind_ok (vacant_calm.trans (by rw [hv])), bind_ok hbody]
      rfl

/-- `link` also answers with the row of the inode. -/
theorem link_calm :
    (link ino p n >>= fun _ => pure ()).run (calm s) = ((s.link ino p n).1, calm (s.link ino p n).2) := by
  unfold link linkNames SupermemoryFs.link Fs.link calm
  cases hn : Fs.validateName n with
  | error e => simp [bind_apply, SupermemoryFs.answer]
  | ok _ =>
    cases hi : s.db.getInode ino with
    | none => simp [bind_apply, SupermemoryFs.answer, hi]
    | some i =>
      by_cases hdir : i.kind = .dir
      · simp [bind_apply, SupermemoryFs.answer, hi, hdir]
      · cases hv : Fs.vacant s.db p n with
        | error e => simp [bind_apply, SupermemoryFs.answer, hi, hdir, vacant_calm, hv]
        | ok _ =>
          have hbody := committed_calm (@linkTables_calm s.db s.dentryCache p ino n (vacant_iff.mp hv).2)
          have hrow : ((s.db.updInode ino fun i => { i with nlink := i.nlink + 1 }).addDentry n p ino).getInode ino =
              some { i with nlink := i.nlink + 1 } :=
            (getInode_linked (c := calm s) (p := p) (n := n)).trans (congrArg _ hi)
          simp [bind_apply, SupermemoryFs.answer, hi, hdir, vacant_calm, hv, hbody, hrow]

/-! ### Names that go -/

theorem rmdir_calm : (rmdir p n).run (calm s) = ((s.rmdir p n).1, calm (s.rmdir p n).2) := by
  unfold rmdir SupermemoryFs.rmdir Fs.rmdir Fs.childInode calm
  cases hn : Fs.validateName n with
  | error e => simp [bind_apply, SupermemoryFs.answer]
  | ok _ =>
    cases hc : s.db.childIno p n with
    | none => simp [bind_apply, SupermemoryFs.answer, hc]
    | some child =>
      cases hi : s.db.getInode child with
      | none => simp [bind_apply, SupermemoryFs.answer, hc, hi]
      | some i =>
        obtain rfl := Db.getInode_ino hi
        by_cases hdir : i.kind = .dir
        · by_cases hempty : (s.db.dentries.filter fun d => d.parentIno = i.ino).length > 0
          · simp [bind_apply, SupermemoryFs.answer, hc, hi, hdir, hempty]
          · have hbody : (rmdirTables p n i.ino).run (scripted s.db s.dentryCache []) = (.ok (), scripted
                (((s.db.delChild p n).delInode i.ino).updInode p fun p => { p with nlink := max (p.nlink - 1) 2 })
                s.dentryCache []) := by
              unfold rmdirTables
              simp [bind_apply]
            simp [bind_apply, SupermemoryFs.answer, hc, hi, hdir, hempty, committed_calm hbody]
        · simp [bind_apply, SupermemoryFs.answer, hc, hi, hdir]

/-! ### The queue -/

theorem pushQueueUpsert_calm {fp : String} {pl : Payload} {rid : Option String} :
    (pushQueueUpsert fp pl rid nowMs).run (scripted db m []) =
      (.ok (), scripted { db with queue := db.queue.upsert fp pl rid nowMs } m []) := by
  unfold pushQueueUpsert PushQueue.upsert
  split_ifs with hnoise hheld hrow
  · rfl
  · obtain ⟨r, hr, hin⟩ := PushQueue.inflight_eq_true.mp hheld
    have hstarted : ((db.queue.get fp).bind PushRow.inflightStartedAt).isSome = true := by rw [hr]; exact hin
    rw [bind_ok (query_calm _), if_pos hstarted]
    rfl
  · have hstarted : ¬ ((db.queue.get fp).bind PushRow.inflightStartedAt).isSome = true := by
      obtain ⟨r, hr⟩ := Option.isSome_iff_exists.mp hrow
      have := PushQueue.inflight_eq_false.mp (Bool.eq_false_iff.mpr hheld) r hr
      rw [hr]
      exact Bool.eq_false_iff.mp this
    rw [bind_ok (query_calm _), if_neg hstarted]
    have hins : insertOnConflict fp pl rid nowMs db.queue = db.queue.modify fp (PushQueue.replaced pl rid nowMs) :=
      if_pos hrow
    rw [← hins]
    rfl
  · have hstarted : ¬ ((db.queue.get fp).bind PushRow.inflightStartedAt).isSome = true := by
      rw [Option.not_isSome_iff_eq_none.mp hrow]
      exact Bool.false_ne_true
    rw [bind_ok (query_calm _), if_neg hstarted]
    have hins : insertOnConflict fp pl rid nowMs db.queue =
        ⟨db.queue.rows ++ [PushQueue.newRow db.queue.nextRowid fp pl rid nowMs], db.queue.nextRowid + 1⟩ :=
      if_neg hrow
    rw [← hins]
    rfl

/-- The row at the new filepath has gone, so nothing refuses the `UPDATE`. -/
theorem retarget_dropped {q : PushQueue} {r : PushRow} {oldFp newFp : String} {rebind : Option String}
    (hr : q.get oldFp = some r) (hmoves : PushQueue.retargetable r = true) :
    retarget oldFp newFp rebind nowMs (q.drop newFp) =
      if ((q.drop newFp).get oldFp).isSome then
        some (1, (q.drop newFp).modify oldFp fun r => PushQueue.retargeted r newFp rebind nowMs)
      else some (0, q.drop newFp) := by
  have hmain : ((r.main.op = .create || r.main.op = .uploadBinary) && !r.inflight) = true := by
    unfold PushQueue.retargetable at hmoves
    exact (Bool.and_eq_true_iff.mp hmoves).1
  unfold retarget
  rw [PushQueue.get_drop, PushQueue.get_drop_self]
  by_cases h : oldFp = newFp
  · simp [h]
  · simp [h, hr, hmain]

theorem retarget_calm {oldFp newFp : String} {rebind : Option String} :
    (pushQueueRetargetPendingCreate oldFp newFp rebind nowMs).run (scripted db m []) =
      (.ok (db.queue.retargetPendingCreate oldFp newFp rebind nowMs).2,
        scripted { db with queue := (db.queue.retargetPendingCreate oldFp newFp rebind nowMs).1 } m []) := by
  unfold pushQueueRetargetPendingCreate PushQueue.retargetPendingCreate
  rw [bind_ok (query_calm _)]
  cases hany : (db.queue.get oldFp).any PushQueue.retargetable with
  | false => rfl
  | true =>
    obtain ⟨r, hr, hmoves⟩ := (Option.any_eq_true _ _).mp hany
    have hdrop : (ignore (executeQueue fun q => q.drop newFp)).run (scripted db m []) =
        (.ok (), scripted { db with queue := db.queue.drop newFp } m []) := rfl
    rw [Option.getD_some, if_pos rfl, if_pos rfl, bind_ok hdrop, bind_apply, statement_calm]
    dsimp only
    rw [retarget_dropped hr hmoves]
    cases ((db.queue.drop newFp).get oldFp).isSome <;> rfl

/-! ### Cascades -/

theorem eachSuffix_calm {f : String → Sqlite Unit} {g : SupermemoryFs → String → SupermemoryFs}
    (h : ∀ s suffix, (f suffix).run (calm s) = (.ok (), calm (g s suffix))) :
    ∀ {suffixes : List String} {s : SupermemoryFs},
      (eachSuffix f suffixes).run (calm s) = (.ok (), calm (suffixes.foldl g s))
  | [], _ => rfl
  | _ :: _, s => (bind_ok (h s _)).trans (eachSuffix_calm h)

theorem removeDerivedSibling_calm :
    (removeDerivedSibling p n).run (calm s) = (.ok (), calm (s.removeDerivedSibling p n)) := by
  unfold removeDerivedSibling SupermemoryFs.removeDerivedSibling Fs.removeDerivedSibling calm
  rw [bind_ok (query_calm _)]
  cases hi : Fs.childInode s.db p n with
  | none => rfl
  | some i =>
    dsimp only
    split_ifs <;> rfl

theorem cascadeUnlink_calm :
    (cascadeUnlinkDerivedSiblings p n).run (calm s) = (.ok (), calm (s.cascadeUnlinkDerivedSiblings p n)) :=
  eachSuffix_calm fun _ _ => removeDerivedSibling_calm

theorem renameDerivedSibling_calm :
    (renameDerivedSibling p n p' n').run (calm s) = (.ok (), calm (s.renameDerivedSibling p n p' n')) := by
  unfold renameDerivedSibling SupermemoryFs.renameDerivedSibling Fs.renameDerivedSibling calm
  rw [bind_ok (query_calm _)]
  cases hi : Fs.childInode s.db p n with
  | none => rfl
  | some i =>
    dsimp only
    split_ifs
    · have hdel : (ignore (deleteChild p' n')).run (scripted s.db s.dentryCache []) =
          (.ok (), scripted (s.db.delChild p' n') s.dentryCache []) := rfl
      rw [bind_ok hdel]
      cases hmove : Fs.moveDentries (s.db.delChild p' n') i.ino p' n' <;> simp [bind_apply, ignore, hmove]
    · rfl

theorem cascadeRename_calm :
    (cascadeRenameDerivedSiblings p n p' n').run (calm s) = (.ok (), calm (s.cascadeRenameDerivedSiblings p n p' n')) :=
  eachSuffix_calm fun _ _ => renameDerivedSibling_calm

/-! ### `unlink` -/

theorem purge_calm : (purge ino).run (scripted db m []) = (.ok (), scripted (Fs.purge db ino) m []) := rfl

theorem unlinkTables_calm {i : Inode} (h : db.getInode i.ino = some i) :
    (unlinkTables p n i.ino).run (scripted db m []) = (.ok (), scripted (Fs.unlinkTables db p n i) m []) := by
  have hrow : ((db.delChild p n).updInode i.ino fun i => { i with nlink := i.nlink - 1 }).getInode i.ino =
      some { i with nlink := i.nlink - 1 } :=
    Db.getInode_updInode_self (f := fun i => { i with nlink := i.nlink - 1 }) (fun _ => rfl) h
  unfold unlinkTables Fs.unlinkTables
  simp only [bind_apply, deleteChild_calm, updateTimes_calm, updateInode_calm, orRaise_query_calm, hrow]
  dsimp only [Option.map_some, Option.elim_some]
  split_ifs
  · exact purge_calm
  · rfl

theorem unlinkEnqueue_calm {fp : Option String} : (unlinkEnqueue online fp ino nowMs).run (scripted db m []) =
    (.ok (), scripted (Fs.unlinkEnqueue db online fp ino nowMs) m []) := by
  unfold unlinkEnqueue Fs.unlinkEnqueue
  cases online with
  | false => rfl
  | true =>
    cases fp with
    | none => rfl
    | some fp => exact (bind_ok (query_calm _)).trans pushQueueUpsert_calm

theorem unlink_calm : (unlink online p n nowMs).run (calm s) = ((s.unlink online p n nowMs).1,
    calm (s.unlink online p n nowMs).2) := by
  unfold unlink SupermemoryFs.unlink
  cases hn : Fs.validateName n with
  | error e => simp [bind_apply]
  | ok _ =>
    rw [bind_ok (run_ofExcept _ _)]
    dsimp only
    split_ifs
    · rfl
    · rw [calm, bind_ok childPath_calm]
      unfold Fs.childInode
      cases hc : s.db.childIno p n with
      | none => simp [bind_apply, calm, hc]
      | some child =>
        cases hi : s.db.getInode child with
        | none => simp [bind_apply, calm, hc, hi]
        | some i =>
          obtain rfl := Db.getInode_ino hi
          by_cases hdir : i.kind = .dir
          · simp [bind_apply, calm, hc, hi, hdir]
          · have hbody := committed_calm (unlinkTables_calm (m := s.dentryCache) (p := p) (n := n) hi)
            simp [bind_apply, hc, hi, hdir, hbody, unlinkEnqueue_calm]
            exact cascadeUnlink_calm (s := ⟨_, s.dentryCache.pop (p, n)⟩)

/-! ### `rename` -/

theorem mayReplace_calm {src dst : Inode} (h : db.getInode dst.ino = some dst) :
    (mayReplace (src.kind = .dir) dst.ino).run (scripted db m []) = (Fs.mayReplace db src dst, scripted db m []) := by
  unfold mayReplace Fs.mayReplace
  by_cases hs : src.kind = .dir
  · by_cases hd : dst.kind = .dir
    · simp [bind_apply, h, hs, hd]
      split_ifs <;> rfl
    · simp [bind_apply, h, hs, hd]
  · by_cases hd : dst.kind = .dir
    · simp [bind_apply, h, hs, hd]
    · simp [bind_apply, h, hs, hd]

theorem removeDestination_calm : (removeDestination p n ino).run (scripted db m []) =
    (.ok (db.getRemoteId ino), scripted (Fs.purge (db.delChild p n) ino) m []) := by
  unfold removeDestination
  have hrid : (getRemoteId ino).run (scripted (((db.delChild p n).delData ino).delSymlink ino) m []) =
      (.ok (db.getRemoteId ino), scripted (((db.delChild p n).delData ino).delSymlink ino) m []) := query_calm _
  rw [bind_ok deleteChild_calm, bind_ok deleteData_calm, bind_ok deleteSymlink_calm, bind_ok hrid]
  rfl

theorem moveEntry_calm (h : db.childIno p' n' = none) : (moveEntry p n p' n').run (scripted db m []) =
    (.ok (), scripted (Fs.moveChild db p n p' n') m []) := by
  have hfree : (db.child p' n').isSome = false := by
    rw [Option.isSome_eq_false_iff, Option.isNone_iff_eq_none]
    exact Option.map_eq_none_iff.mp h
  have hmove : (orRaise VfsError.io (updateDentry p n p' n')).run (scripted db m []) =
      (.ok (), scripted (Fs.moveChild db p n p' n') m []) := by
    rw [orRaise_eq_ok, updateDentry, execute_calm, hfree, if_neg (by simp)]
  unfold moveEntry
  rw [bind_ok hmove, bind_ok updateTimes_calm, bind_ok updateTimes_calm]
  split_ifs <;> rfl

/-- The tables after the transaction of a rename, and what it answers. -/
theorem renameTables_calm {src : Inode} :
    (renameTables src.ino (src.kind = .dir) (db.childIno p' n') p n p' n').run (scripted db m []) =
      match Fs.renameTables db src p n p' n' with
      | .error e => (.error e, scripted db m [])
      | .ok none => (.ok none, scripted db m [])
      | .ok (some r) => (.ok (some (r.didOverwrite, r.dstRemoteId)), scripted r.db m []) := by
  unfold renameTables Fs.renameTables
  cases hdst : db.childIno p' n' with
  | none => exact bind_ok (moveEntry_calm hdst)
  | some dstIno =>
    dsimp only
    by_cases hsame : dstIno = src.ino
    · rw [if_pos hsame, if_pos hsame]
      rfl
    · rw [if_neg hsame, if_neg hsame]
      cases hi : db.getInode dstIno with
      | none =>
        unfold mayReplace
        simp [bind_apply, hi]
      | some dst =>
        obtain rfl := Db.getInode_ino hi
        have hfree : (Fs.purge (db.delChild p' n') dst.ino).childIno p' n' = none := by
          show (db.delChild p' n').childIno p' n' = none
          rw [Db.childIno_delChild, if_pos ⟨rfl, rfl⟩]
        dsimp only
        cases hmay : Fs.mayReplace db src dst with
        | error e => exact bind_error ((mayReplace_calm hi).trans (by rw [hmay]))
        | ok _ =>
          rw [bind_ok ((mayReplace_calm hi).trans (by rw [hmay])), bind_ok removeDestination_calm,
            bind_ok (moveEntry_calm hfree)]
          rfl

theorem renameTransaction_calm {src : Inode} :
    (transaction VfsError.io Option.isSome
      (renameTables src.ino (src.kind = .dir) (db.childIno p' n') p n p' n')).run (scripted db m []) =
      match Fs.renameTables db src p n p' n' with
      | .error e => (.error e, scripted db m [])
      | .ok none => (.ok none, scripted db m [])
      | .ok (some r) => (.ok (some (r.didOverwrite, r.dstRemoteId)), scripted r.db m []) := by
  rw [transaction_calm, renameTables_calm]
  rcases Fs.renameTables db src p n p' n' with e | _ | r <;> rfl

theorem enqueueOverwritten_calm {didOverwrite : Bool} {dstFp : Option String} :
    (enqueueOverwritten didOverwrite dstFp nowMs).run (scripted db m []) = (.ok (), scripted { db with queue :=
      match didOverwrite, dstFp with
      | true, some dstFp => db.queue.upsert dstFp ⟨.delete, none, none⟩ none nowMs
      | _, _ => db.queue } m []) := by
  cases didOverwrite with
  | false => rfl
  | true =>
    cases dstFp with
    | none => rfl
    | some dstFp => exact pushQueueUpsert_calm

theorem renameEnqueue_calm {oldFp newFp : String} {dstFp rid : Option String} {didOverwrite : Bool} :
    (renameEnqueue ino oldFp newFp dstFp didOverwrite rid nowMs).run (scripted db m []) =
      (.ok (), scripted (Fs.renameEnqueue db ino oldFp newFp dstFp didOverwrite rid nowMs) m []) := by
  unfold renameEnqueue Fs.renameEnqueue
  rw [bind_ok retarget_calm]
  dsimp only
  cases (db.queue.retargetPendingCreate oldFp newFp rid nowMs).2 with
  | true =>
    rw [if_pos rfl, if_pos rfl]
    cases rid <;> rfl
  | false =>
    rw [if_neg Bool.false_ne_true, if_neg Bool.false_ne_true, bind_ok enqueueOverwritten_calm]
    exact (bind_ok (query_calm _)).trans pushQueueUpsert_calm

theorem renamePush_calm {r : Fs.Renamed} {oldFp newFp dstFp : Option String} :
    (renamePush online ino oldFp newFp dstFp r.didOverwrite r.dstRemoteId nowMs).run (scripted r.db m []) =
      (.ok (), scripted (Fs.renamePush r online ino oldFp newFp dstFp nowMs) m []) := by
  unfold renamePush Fs.renamePush
  cases online with
  | false => rfl
  | true =>
    cases oldFp with
    | none => rfl
    | some oldFp =>
      cases newFp with
      | none => rfl
      | some newFp => exact renameEnqueue_calm

theorem rename_calm : (rename online p n p' n' nowMs).run (calm s) = ((s.rename online p n p' n' nowMs).1,
    calm (s.rename online p n p' n' nowMs).2) := by
  unfold rename SupermemoryFs.rename
  cases hn : Fs.validateName n with
  | error e => simp [bind_apply]
  | ok _ =>
    cases hn' : Fs.validateName n' with
    | error e => simp [bind_apply]
    | ok _ =>
      rw [bind_ok (run_ofExcept _ _), bind_ok (run_ofExcept _ _), calm, bind_ok childPath_calm, bind_ok childPath_calm]
      dsimp only
      cases hc : s.db.childIno p n with
      | none => simp [bind_apply, calm, hc]
      | some srcIno =>
        cases hp : s.db.getInode p' with
        | none => simp [bind_apply, calm, hc, hp]
        | some dstParent =>
          by_cases hdir : dstParent.kind = .dir
          · have hsel : (selectChild p' n').run (scripted s.db s.dentryCache []) =
                (.ok (s.db.childIno p' n'), scripted s.db s.dentryCache []) := query_calm _
            cases hi : s.db.getInode srcIno with
            | none => simp [bind_apply, calm, hc, hp, hdir, hsel, hi]
            | some src =>
              obtain rfl := Db.getInode_ino hi
              have hsrc : (orRaise VfsError.notFound (selectChild p n)).run (scripted s.db s.dentryCache []) =
                  (.ok src.ino, scripted s.db s.dentryCache []) := by rw [selectChild_calm, hc]; rfl
              have hparent : (orRaise VfsError.notFound (selectMode p')).run (scripted s.db s.dentryCache []) =
                  (.ok .dir, scripted s.db s.dentryCache []) := by rw [selectMode_calm, hp, ← hdir]; rfl
              have hmode : (orRaise VfsError.io (selectMode src.ino)).run (scripted s.db s.dentryCache []) =
                  (.ok src.kind, scripted s.db s.dentryCache []) := by rw [selectMode_calm, hi]; rfl
              rw [bind_ok hsrc, bind_ok hparent, if_neg (not_not.mpr rfl), bind_ok hsel, bind_ok hmode]
              dsimp only
              rw [if_neg (not_not.mpr hdir), hi]
              dsimp only
              have htx := @renameTransaction_calm s.db s.dentryCache p p' n n' src
              rcases hr : Fs.renameTables s.db src p n p' n' with e | _ | r <;> rw [hr] at htx <;> dsimp only at htx
              · exact bind_error htx
              · exact bind_ok htx
              · rw [bind_ok htx]
                dsimp only
                rw [bind_ok (run_touch _), bind_ok childPath_calm, bind_ok renamePush_calm]
                exact cascadeRename_calm (s := ⟨_, _⟩)
          · simp [bind_apply, calm, hc, hp, hdir]

/-! ### Open files -/

theorem chunkToWrite_calm {offset : ℕ} {data : Bytes} : (chunkToWrite ino offset data).run (scripted db m []) =
    (.ok (if data.length ≠ CHUNK_SIZE
      then SqliteFile.overwrite ((db.getChunk ino (offset / CHUNK_SIZE)).getD []) (offset % CHUNK_SIZE) data
      else data), scripted db m []) := by
  unfold chunkToWrite
  split_ifs
  · exact bind_ok (query_calm _)
  · rfl

theorem writeChunks_calm : ∀ {fuel offset : ℕ} {data : Bytes} {db : Db},
    (writeChunks ino fuel offset data).run (scripted db m []) =
      (.ok (), scripted (SqliteFile.writeChunks db ino fuel offset data) m [])
  | 0, _, _, _ => rfl
  | fuel + 1, offset, data, db => by
    unfold writeChunks SqliteFile.writeChunks
    by_cases he : data.isEmpty = true
    · rw [if_pos he, if_pos he]
      rfl
    · rw [if_neg he, if_neg he]
      dsimp only
      have hlen : (data.take (min (CHUNK_SIZE - offset % CHUNK_SIZE) data.length)).length =
          min (CHUNK_SIZE - offset % CHUNK_SIZE) data.length := by
        rw [List.length_take]
        omega
      rw [bind_ok chunkToWrite_calm, hlen]
      exact (bind_ok (orRaise_execute_calm _)).trans writeChunks_calm

theorem write_calm {f : SqliteFile} {offset : ℕ} {data : Bytes} :
    (write f offset data nowMs).run (scripted db m []) =
      ((SqliteFile.write db f offset data nowMs).1, scripted (SqliteFile.write db f offset data nowMs).2 m []) := by
  unfold write SqliteFile.write
  split_ifs
  · rfl
  · rfl
  · cases hi : db.getInode f.ino with
    | none =>
      simp [committed, writeTables, bind_apply, hi]
      rfl
    | some i =>
      have hsize : (orRaise VfsError.notFound (query fun db => (db.getInode f.ino).map Inode.size)).run
          (scripted db m []) = (.ok i.size, scripted db m []) := by rw [orRaise_query_calm, hi]; rfl
      refine committed_calm ?_
      unfold writeTables
      rw [bind_ok hsize, bind_ok writeChunks_calm]
      rfl

theorem trimChunk_calm {lastChunk remainder : ℕ} : (trimChunk ino lastChunk remainder).run (scripted db m []) =
    (.ok (), scripted (match db.getChunk ino lastChunk with
      | some chunk => if 0 < remainder && remainder < chunk.length
        then db.putChunk ino lastChunk (chunk.take remainder) else db
      | none => db) m []) := by
  unfold trimChunk
  by_cases hr : remainder > 0
  · rw [if_pos hr, bind_ok (query_calm _)]
    cases db.getChunk ino lastChunk with
    | none => rfl
    | some chunk =>
      dsimp only
      by_cases hlen : chunk.length > remainder
      · rw [if_pos hlen, if_pos (by simpa using ⟨hr, hlen⟩)]
        rfl
      · rw [if_neg hlen, if_neg (by simpa using fun _ => Nat.le_of_not_lt hlen)]
        rfl
  · have hzero : remainder = 0 := by omega
    subst hzero
    cases db.getChunk ino lastChunk <;> rfl

theorem truncate_calm {f : SqliteFile} {size : ℕ} : (truncate f size).run (scripted db m []) =
    (.ok (), scripted (SqliteFile.truncate db f size) m []) := by
  apply committed_calm
  unfold truncateTables dropChunks SqliteFile.truncate
  split_ifs with hz
  · rfl
  · have hdrop := (bind_ok (f := fun _ => trimChunk f.ino ((size - 1) / CHUNK_SIZE) (size % CHUNK_SIZE))
      (orRaise_execute_calm (e := VfsError.io) (t := db) (m := m) fun db =>
        { db with data := db.data.filter fun c => !(c.ino = f.ino && (size - 1) / CHUNK_SIZE < c.index) })).trans
      trimChunk_calm
    rw [bind_ok hdrop]
    rfl

theorem run_drop {α : Type} {q : Sqlite α} {r : Except VfsError α} {c c' : Conn Db (Lru (Ino × String) Ino)}
    (h : q.run c = (r, c')) : (q >>= fun _ => pure ()).run c = (r.map fun _ => (), c') := by
  cases r with
  | error e => exact bind_error h
  | ok a => exact bind_ok h

end Lemmas

/-- The operation as it is without failures; its answer is left out. -/
def VfsOp.apply (s : SupermemoryFs) (online : Bool) (nowMs : ℤ) : VfsOp → Except VfsError Unit × SupermemoryFs
  | .name (.mkdir p n) => ((s.mkdir p n).1.map fun _ => (), (s.mkdir p n).2)
  | .name (.rmdir p n) => s.rmdir p n
  | .name (.createFile p n) => ((s.createFile online p n).1.map fun _ => (), (s.createFile online p n).2)
  | .name (.unlink p n) => s.unlink online p n nowMs
  | .name (.symlink p n t) => ((s.symlink p n t).1.map fun _ => (), (s.symlink p n t).2)
  | .name (.link i p n) => s.link i p n
  | .name (.rename p n p' n') => s.rename online p n p' n' nowMs
  | .write f offset data =>
    ((f.write s.db offset data nowMs).1.map fun _ => (), { s with db := (f.write s.db offset data nowMs).2 })
  | .truncate f size => (.ok (), { s with db := f.truncate s.db size })

/-- **Where no statement fails, the programs are the operations.** -/
theorem run_calm (s : SupermemoryFs) (online : Bool) (nowMs : ℤ) (op : VfsOp) :
    (op.run online nowMs).run (calm s) = ((op.apply s online nowMs).1, calm (op.apply s online nowMs).2) := by
  rcases op with op | ⟨f, offset, data⟩ | ⟨f, size⟩
  · cases op with
    | mkdir p n => exact run_drop mkdir_calm
    | rmdir p n => exact rmdir_calm
    | createFile p n => exact run_drop createFile_calm
    | unlink p n => exact unlink_calm
    | symlink p n target => exact run_drop symlink_calm
    | link ino p n => exact link_calm
    | rename p n p' n' => exact rename_calm
  · exact run_drop write_calm
  · exact truncate_calm

end Statements
end Smfs
