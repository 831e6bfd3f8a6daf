/-
# What the queue is told, and for whom

`flush`, `unlink` and `rename` tell the queue what the server has to hear of a
file (`told`, `step_moves`). None of them asks whether the file is derived. So
a derived file is pushed, renamed on the server or deleted there once such a
call goes through for it, with a filepath that is no noise; and as long as no
call does, no row and no job is about a derived inode (`unpushed_iff`).

Key definitions: `Derived.Told`, `Derived.told`, `Derived.step`, `Derived.Unpushed`, `Derived.Ok`.
Key theorems: `Derived.step_moves`, `Derived.step_held`, `Derived.unpushed_iff`, `Derived.pushes_derived`.
-/
import Smfs.Queue.Slots
import Smfs.Sync.Changes
import Smfs.Sync.Drain

namespace Smfs
namespace Derived

open Trans Db Fs Cache Cascade PushQueue Changes

/-- What a file operation tells the queue. -/
inductive Told
  | upsert (filepath : String) (pl : Payload) (remoteId : Option String) (atMs : ℤ)
  | retarget (oldFp newFp : String) (rebind : Option String) (nowMs : ℤ)

namespace Told

def run (q : PushQueue) : Told → PushQueue
  | upsert filepath pl remoteId atMs => q.upsert filepath pl remoteId atMs
  | retarget oldFp newFp rebind nowMs => (q.retargetPendingCreate oldFp newFp rebind nowMs).1

/-- The queue takes no notice. -/
def idle (q : PushQueue) : Told → Bool
  | upsert filepath _ _ _ => isMacosNoisePath filepath
  | retarget oldFp _ _ _ => !(q.get oldFp).any retargetable

end Told

/-- What `flush` tells the queue, and for which inode. -/
def flushTold (db : Db) (f : SqliteFile) (nowMs : ℤ) : List (Ino × Told) :=
  match f.online, f.filepath with
  | true, some filepath =>
    if ((db.getInode f.ino).map Inode.size).getD 0 = 0 then []
    else
      let op := if (db.getRemoteId f.ino).isSome then PushOp.update else PushOp.create
      [(f.ino, .upsert filepath ⟨op, some f.ino, none⟩ (db.getRemoteId f.ino) (nowMs + PUSH_DEBOUNCE_MS))]
  | _, _ => []

def unlinkTold (db : Db) (p : Ino) (name : String) (nowMs : ℤ) : List (Ino × Told) :=
  match (unlink db true p name nowMs).1, childInode db p name, childPath db p name with
  | .ok (), some x, some filepath =>
    [(x.ino, .upsert filepath ⟨.delete, none, none⟩ ((unlinkTables db p name x).getRemoteId x.ino) nowMs)]
  | _, _, _ => []

/-- What `rename` tells the queue once its tables have changed: a queued create
moves along with the file, or else what was replaced is deleted and the file renamed. -/
def pushTold (db : Db) (src : Ino) (r : Renamed) (replaced : Option Ino) (oldFp newFp : String) (dstFp : Option String)
    (nowMs : ℤ) : List (Ino × Told) :=
  (src, .retarget oldFp newFp r.dstRemoteId nowMs) ::
    if (db.queue.retargetPendingCreate oldFp newFp r.dstRemoteId nowMs).2 then []
    else
      (match replaced, dstFp with
        | some j, some dstFp => [(j, .upsert dstFp ⟨.delete, none, none⟩ none nowMs)]
        | _, _ => []) ++
      [(src, .upsert oldFp ⟨.rename, none, some newFp⟩ (r.db.getRemoteId src) nowMs)]

def renameTold (db : Db) (p : Ino) (name : String) (p' : Ino) (name' : String) (nowMs : ℤ) : List (Ino × Told) :=
  match (rename db true p name p' name' nowMs).1, childInode db p name, childPath db p name with
  | .ok (), some src, some oldFp =>
    match renameTables db src p name p' name' with
    | .ok (some r) =>
      match childPath r.db p' name' with
      | some newFp => pushTold db src.ino r (db.childIno p' name') oldFp newFp (childPath db p' name') nowMs
      | none => []
    | _ => []
  | _, _, _ => []

/-- What a step tells the queue of files. -/
def told (m : Mount) : Changes.Act → List (Ino × Told)
  | .mount (.flush f nowMs) => flushTold m.db f nowMs
  | .mount (.unlink p name nowMs) | .name (.unlink p name) nowMs => unlinkTold m.db p name nowMs
  | .mount (.rename p name p' name' nowMs) | .name (.rename p name p' name') nowMs =>
    renameTold m.db p name p' name' nowMs
  | _ => []

def runAll (q : PushQueue) (calls : List (Ino × Told)) : PushQueue := calls.foldl (fun q c => c.2.run q) q

/-- The mount, and the derived inodes that the queue has been told something of. -/
structure St where
  mount : Mount
  blamed : List Ino

def init : St := ⟨.fresh, []⟩

def isDerived (db : Db) (i : Ino) : Bool := (db.getInode i).any Inode.derived

/-- The derived inodes that a step tells the queue of. -/
def blames (m : Mount) (a : Changes.Act) : List Ino :=
  ((told m a).filter fun c => isDerived m.db c.1 && !c.2.idle m.db.queue).map Prod.fst

def step (s : St) (a : Changes.Act) : Option St :=
  (Changes.step s.mount a).map fun m => ⟨m, s.blamed ++ blames s.mount a⟩

/-- A slot that is not about a derived inode. -/
def Own (db : Db) (pl : Payload) : Prop := ∀ i ∈ pl.contentIno, i < db.nextIno ∧ ¬ IsDerived db i

/-- No row and no job is about a derived inode, and the queue was told nothing on behalf of one. -/
structure Unpushed (s : St) : Prop where
  rows : Slots (fun pl => ∀ i ∈ pl.contentIno, ¬ IsDerived s.mount.db i) s.mount.db.queue
  jobs : ∀ k ∈ s.mount.tasks, ∀ i ∈ k.job.contentIno, ¬ IsDerived s.mount.db i
  blamed : s.blamed = []

/-- `flush` enqueues nothing of a derived file: it is empty, or the handle has
no client or no path, or one of noise. -/
def FlushOk (db : Db) (f : SqliteFile) : Prop :=
  IsDerived db f.ino → f.online = true → ∀ filepath, f.filepath = some filepath →
    ((db.getInode f.ino).map Inode.size).getD 0 = 0 ∨ isMacosNoisePath filepath = true

/-- The name that goes is not that of a derived file, unless its path is noise. -/
def UnlinkOk (db : Db) (p : Ino) (name : String) : Prop :=
  ∀ x filepath, Unlinks db p name x → x.derived = true → childPath db p name = some filepath →
    isMacosNoisePath filepath = true

/-- The file that moves is not derived, unless its path is noise and no create
is queued there; and it replaces no derived file, unless the path of that is
noise or a queued create moves there. -/
def RenameOk (db : Db) (p : Ino) (name : String) (p' : Ino) (name' : String) : Prop :=
  ∀ src r oldFp newFp, Renames db p name p' name' src → renameTables db src p name p' name' = .ok (some r) →
    childPath db p name = some oldFp → childPath r.db p' name' = some newFp →
    (src.derived = true → (db.queue.get oldFp).any retargetable = false ∧ isMacosNoisePath oldFp = true) ∧
    ∀ j dstFp, db.childIno p' name' = some j → IsDerived db j → childPath db p' name' = some dstFp →
      (db.queue.get oldFp).any retargetable = true ∧ oldFp ≠ newFp ∨ isMacosNoisePath dstFp = true

/-- The queue is told nothing of a derived file. -/
def Ok (s : St) : Changes.Act → Prop
  | .mount (.flush f _) => FlushOk s.mount.db f
  | .mount (.unlink p name _) | .name (.unlink p name) _ => UnlinkOk s.mount.db p name
  | .mount (.rename p name p' name' _) | .name (.rename p name p' name') _ => RenameOk s.mount.db p name p' name'
  | _ => True

section Lemmas

variable {db : Db} {m t : Mount} {a : Changes.Act} {C : Payload →
  Prop} {q : PushQueue} {p p' : Ino} {name name' : String}
  {nowMs : ℤ} {f : SqliteFile} {i : Ino}

theorem isDerived_iff : isDerived db i = true ↔ IsDerived db i := by
  unfold isDerived IsDerived
  rw [Option.any_eq_true]

/-! ### The calls are the code's -/

theorem unlink_ok : (unlink db true p name nowMs).1 = .ok () ↔ ∃ x, Unlinks db p name x := by
  constructor
  · intro h
    unfold unlink at h
    cases hv : validateName name with
    | error e =>
      rw [hv] at h
      cases h
    | ok _ =>
      rw [hv] at h
      dsimp only at h
      split_ifs at h with hprofile
      cases hx : childInode db p name with
      | none =>
        rw [hx] at h
        cases h
      | some x =>
        rw [hx] at h
        dsimp only at h
        split_ifs at h with hdir
        exact ⟨x, hv, by simpa using hprofile, hx, hdir⟩
  · rintro ⟨x, h⟩
    unfold unlink
    rw [h.valid]
    dsimp only
    rw [if_neg (by simpa using h.profile), h.source]
    dsimp only
    rw [if_neg h.file]

theorem rename_ok {src : Inode} {r : Renamed} (ht : renameTables db src p name p' name' = .ok (some r))
    (hsrc : childInode db p name = some src) :
    (rename db true p name p' name' nowMs).1 = .ok () ↔ Renames db p name p' name' src := by
  obtain ⟨hc, hrow⟩ := childInode_named hsrc
  constructor
  · intro h
    unfold rename at h
    cases hv : validateName name with
    | error e =>
      rw [hv] at h
      cases h
    | ok _ =>
      cases hv' : validateName name' with
      | error e =>
        rw [hv, hv'] at h
        cases h
      | ok _ =>
        rw [hv, hv', hc] at h
        dsimp only at h
        cases hpar : db.getInode p' with
        | none =>
          rw [hpar] at h
          cases h
        | some x =>
          rw [hpar] at h
          dsimp only at h
          split_ifs at h with hdir
          exact ⟨⟨hv, hv'⟩, hsrc, ⟨x, hpar, not_not.mp hdir⟩, (renameTables_cases ht).2.1⟩
  · intro h
    obtain ⟨x, hx, hdir⟩ := h.parent
    unfold rename
    rw [h.valid.1, h.valid.2]
    dsimp only
    rw [hc, hx]
    dsimp only
    rw [if_neg (not_not.mpr hdir), hrow]
    dsimp only
    rw [ht]

theorem flush_told : (f.flush db nowMs).queue = runAll db.queue (flushTold db f nowMs) := by
  unfold SqliteFile.flush flushTold
  cases f.online with
  | false => rfl
  | true =>
    cases f.filepath with
    | none => rfl
    | some filepath =>
      dsimp only
      split_ifs <;> rfl

/-- Without its checks, `unlink` changes nothing. -/
theorem unlink_still (h : ∀ x, ¬ Unlinks db p name x) : (unlink db true p name nowMs).2 = db ∧
    unlinkTold db p name nowMs = [] := by
  constructor
  · rcases unlink_cases db true p name nowMs with he | ⟨x, q, hx, -⟩
    · exact he
    · exact absurd hx (h x)
  · unfold unlinkTold
    split
    · rename_i hok _ _
      obtain ⟨x, hx⟩ := unlink_ok.mp hok
      exact absurd hx (h x)
    · rfl

theorem unlinkTold_of_checks {x : Inode} (h : Unlinks db p name x) : unlinkTold db p name nowMs =
    match childPath db p name with
    | some filepath =>
      [(x.ino, .upsert filepath ⟨.delete, none, none⟩ ((unlinkTables db p name x).getRemoteId x.ino) nowMs)]
    | none => [] := by
  unfold unlinkTold
  rw [unlink_ok.mpr ⟨x, h⟩, h.source]
  cases childPath db p name <;> rfl

theorem unlink_told : (unlink db true p name nowMs).2.queue = runAll db.queue (unlinkTold db p name nowMs) := by
  by_cases h : ∃ x, Unlinks db p name x
  · obtain ⟨x, hx⟩ := h
    rw [unlink_of_checks hx, cascadeUnlink_sameSync.queue, unlinkTold_of_checks hx]
    have hqueue : (unlinkTables db p name x).queue = db.queue := unlinkTables_queue
    unfold unlinkEnqueue
    cases childPath db p name with
    | none => exact hqueue
    | some filepath =>
      dsimp only
      rw [hqueue]
      rfl
  · obtain ⟨hdb, htold⟩ := @unlink_still db p name nowMs fun x hx => h ⟨x, hx⟩
    rw [hdb, htold]
    rfl

theorem rename_still (h : ∀ src r, Renames db p name p' name' src →
    renameTables db src p name p' name' ≠ .ok (some r)) :
    (rename db true p name p' name' nowMs).2 = db ∧ renameTold db p name p' name' nowMs = [] := by
  constructor
  · rcases (hands_or_still db true nowMs).2 p name p' name' with he | ⟨mid, hm⟩
    · exact he
    · cases hm with
      | rename checks tables => exact absurd tables (h _ _ checks)
  · unfold renameTold
    split
    · rename_i src oldFp hok hsrc _
      split
      · rename_i r ht
        exact absurd ht (h src r ((rename_ok ht hsrc).mp hok))
      · rfl
    · rfl

theorem renameTold_of_checks {src : Inode} {r : Renamed} (h : Renames db p name p' name' src)
    (ht : renameTables db src p name p' name' = .ok (some r)) : renameTold db p name p' name' nowMs =
      match childPath db p name, childPath r.db p' name' with
      | some oldFp, some newFp => pushTold db src.ino r (db.childIno p' name') oldFp newFp (childPath db p' name') nowMs
      | _, _ => [] := by
  unfold renameTold
  rw [(rename_ok ht h.source).mpr h, h.source]
  cases childPath db p name with
  | none => rfl
  | some oldFp =>
    dsimp only
    rw [ht]
    dsimp only
    cases childPath r.db p' name' <;> rfl

/-- What was replaced is known from the tables before. -/
theorem renameTables_replaced {src : Inode} {r : Renamed} (ht : renameTables db src p name p' name' = .ok (some r)) :
    r.didOverwrite = (db.childIno p' name').isSome := by
  unfold renameTables at ht
  cases hj : db.childIno p' name' with
  | none =>
    rw [hj] at ht
    cases ht
    rfl
  | some j =>
    rw [hj] at ht
    dsimp only at ht
    split_ifs at ht
    · cases ht
    · split at ht
      · cases ht
      · split at ht
        · cases ht
        · cases ht
          rfl

theorem rename_told : (rename db true p name p' name' nowMs).2.queue =
    runAll db.queue (renameTold db p name p' name' nowMs) := by
  by_cases h : ∃ src r, Renames db p name p' name' src ∧ renameTables db src p name p' name' = .ok (some r)
  · obtain ⟨src, r, hr, ht⟩ := h
    have hqueue : r.db.queue = db.queue := renameTables_queue ht
    have hover := renameTables_replaced ht
    rw [rename_of_checks hr ht, cascadeRename_sameSync.queue, renameTold_of_checks hr ht]
    unfold renamePush
    cases childPath db p name with
    | none => exact hqueue
    | some oldFp =>
      cases childPath r.db p' name' with
      | none => exact hqueue
      | some newFp =>
        dsimp only
        unfold renameEnqueue pushTold
        dsimp only
        rw [hqueue, hover]
        by_cases hmoved : (db.queue.retargetPendingCreate oldFp newFp r.dstRemoteId nowMs).2 = true
        · rw [if_pos hmoved, if_pos hmoved]
          cases r.dstRemoteId <;> rfl
        · rw [if_neg hmoved, if_neg hmoved]
          cases db.childIno p' name' with
          | none => rfl
          | some j => cases childPath db p' name' <;> rfl
  · obtain ⟨hdb, htold⟩ := @rename_still db p p' name name' nowMs fun src r hr ht => h ⟨src, r, hr, ht⟩
    rw [hdb, htold]
    rfl

/-! ### Slots and jobs -/

/-- Every slot of the queue and every job meets the property. -/
def Held (C : Payload → Prop) (m : Mount) : Prop := Slots C m.db.queue ∧ ∀ k ∈ m.tasks, C k.job.payload

/-- A slot that a call brings meets the property, or the queue takes no notice of it. -/
def Brings (C : Payload → Prop) (calls : List (Ino × Told)) : Prop :=
  ∀ c ∈ calls, ∀ fp pl rid at_, c.2 = .upsert fp pl rid at_ → isMacosNoisePath fp = true ∨ C pl

theorem run_slots {calls : List (Ino × Told)} (h : Slots C q) (hc : Brings C calls) : Slots C (runAll q calls) := by
  induction calls generalizing q with
  | nil => exact h
  | cons c calls ih =>
    have hstep : Slots C (c.2.run q) := by
      cases hcall : c.2 with
      | upsert fp pl rid now =>
        rcases hc c List.mem_cons_self fp pl rid now hcall with hnoise | hpl
        · show Slots C (q.upsert fp pl rid now)
          rwa [upsert_noise hnoise]
        · exact h.upsert hpl
      | retarget oldFp newFp rebind now => exact h.retarget
    exact ih hstep fun c hm => hc c (List.mem_cons_of_mem _ hm)

theorem setattr_queue {size : ℕ} : (setattrSize db i size).2.queue = db.queue := by
  unfold setattrSize
  split
  · rfl
  · split
    · rfl
    · rfl
    · exact SqliteFile.truncate_sameSync.queue

/-- What a step does to the queue and to the tasks. -/
inductive Moves (m : Mount) (a : Changes.Act) (t : Mount) : Prop
  | told (hq : t.db.queue = runAll m.db.queue (told m a)) (ht : t.tasks = m.tasks)
  | mapped (doc : Document) (now : ℤ) (ha : a = .mount (.reconcile doc now)) (hid : m.db.inoByRemoteId doc.id = none)
      (hdone : doc.status = "done") (hq : t.db.queue = m.db.queue.setRemoteId doc.path (some doc.id)) (ht : t.tasks = m.tasks)
      (hat : (attachTarget m.db doc).isSome = true)
  | claim (now : ℤ) (j : PushJob) (h : m.db.queue.claimNext now = some (j, t.db.queue))
      (ht : t.tasks = m.tasks ++ [⟨j, .start⟩])
      (ha : a = .mount (.claim now))
  | task (n : ℕ) (now : ℤ) (k : Task) (next : Option Phase) (ha : a =
    .mount (.taskDb n now)) (hk : m.tasks[n]? = some k)
      (hd : Task.dbStep m.db k.job now k.phase = some (t.db, next)) (ht : t.tasks = Mount.putTask m.tasks n k next)
  | answer (n : ℕ) (answer : Answer) (timedOut : Bool) (k : Task) (next : Phase)
      (ha : a = .mount (.taskAnswer n answer timedOut)) (hk : m.tasks[n]? = some k)
      (hn : Task.answered k.job timedOut k.phase answer = some next) (hdb : t.db = m.db)
      (ht : t.tasks = m.tasks.set n { k with phase := next })
  | crash (ha : a = .mount .crash) (hq : t.db.queue = m.db.queue) (ht : t.tasks = [])

/-- A reconcile stores an id in the queue only where it maps the document to the file at its path. -/
theorem reconcile_moves {doc : Document} : (reconcileOne db doc nowMs).2.queue = db.queue ∨
    db.inoByRemoteId doc.id = none ∧ doc.status = "done" ∧
      (reconcileOne db doc nowMs).2.queue = db.queue.setRemoteId doc.path (some doc.id) ∧
        (attachTarget db doc).isSome = true := by
  unfold reconcileOne
  cases hid : db.inoByRemoteId doc.id with
  | some i => exact .inl reconcileMapped_sameQueue.queue
  | none =>
    dsimp only
    by_cases hdone : doc.status = "done"
    · cases hat : attachTarget db doc with
      | none =>
        refine .inl ?_
        have hdirs : SameQueue db (ensureDirs db (splitPath doc.path).1).1 := ensureDirs_sameSync.sameQueue
        unfold attachTarget at hat
        unfold reconcileUnmapped
        rw [if_neg (not_not.mpr hdone)]
        dsimp only
        rw [hat]
        dsimp only
        split_ifs
        · exact (hdirs.trans reconcileBinary_sameQueue).queue
        · exact (hdirs.trans reconcileCreate_sameQueue).queue
      | some i =>
        have hqueue : QueueMapped doc db (reconcileUnmapped db doc nowMs).2 := reconcileUnmapped_queue
        rcases hqueue.queue with he | he
        · exact .inl he
        · exact .inr ⟨rfl, hdone, he, rfl⟩
    · refine .inl ?_
      unfold reconcileUnmapped
      rw [if_pos hdone]
      exact syncErrorSibling_sameSync.queue

theorem step_moves (h : Changes.step m a = some t) : Moves m a t := by
  cases a with
  | setattr ino size => cases h; exact .told setattr_queue rfl
  | name op now =>
    cases h
    cases op with
    | mkdir p n =>
      refine .told ?_ rfl
      show (mkdir m.db p n).2.queue = m.db.queue
      rcases mkdir_cases m.db p n with he | ⟨-, -, he⟩
      · rw [he]
      · rw [he]
        rfl
    | rmdir p n =>
      refine .told ?_ rfl
      show (rmdir m.db p n).2.queue = m.db.queue
      rcases rmdir_cases m.db p n with he | ⟨x, -, -, -, -, he⟩
      · rw [he]
      · rw [he]
        rfl
    | createFile p n => exact .told createFile_sameSync.queue rfl
    | unlink p n => exact .told unlink_told rfl
    | symlink p n target =>
      refine .told ?_ rfl
      show (symlink m.db p n target).2.queue = m.db.queue
      rcases symlink_cases m.db p n target with he | ⟨-, -, he⟩
      · rw [he]
      · rw [he]
        rfl
    | link i p n =>
      refine .told ?_ rfl
      show (link m.db i p n).2.queue = m.db.queue
      rcases link_cases m.db i p n with he | ⟨x, -, -, -, -, he⟩
      · rw [he]
      · rw [he]
        rfl
    | rename p n p' n' => exact .told rename_told rfl
  | mount a =>
    cases a with
    | createFile parentIno n => cases h; exact .told createFile_sameSync.queue rfl
    | write f offset data now => cases h; exact .told SqliteFile.write_sameSync.queue rfl
    | truncate f size => cases h; exact .told SqliteFile.truncate_sameSync.queue rfl
    | flush f now => cases h; exact .told flush_told rfl
    | unlink parentIno n now => cases h; exact .told unlink_told rfl
    | rename op on np nn now => cases h; exact .told rename_told rfl
    | reconcile doc now =>
      cases h
      rcases (reconcile_moves : (reconcileOne m.db doc now).2.queue = m.db.queue ∨ _) with he | ⟨hid, hdone, he, hat⟩
      · exact .told he rfl
      · exact .mapped doc now rfl hid hdone he rfl hat
    | applyDeletion rid => cases h; exact .told applyDeletion_queue rfl
    | rehydrate ino bytes => cases h; exact .told rfl rfl
    | poll row processing terminal now => cases h; exact .told pollRow_queue rfl
    | claim now =>
      unfold Changes.step Mount.step at h
      dsimp only at h
      split_ifs at h
      obtain ⟨⟨j, q⟩, hc, rfl⟩ := Option.map_eq_some_iff.mp h
      exact .claim now j hc rfl rfl
    | taskDb i now =>
      obtain ⟨k, hk, h⟩ := Option.bind_eq_some_iff.mp h
      obtain ⟨⟨db, next⟩, hd, rfl⟩ := Option.map_eq_some_iff.mp h
      exact .task i now k next rfl hk hd rfl
    | taskAnswer i answer timedOut =>
      obtain ⟨k, hk, h⟩ := Option.bind_eq_some_iff.mp h
      obtain ⟨next, hn, rfl⟩ := Option.map_eq_some_iff.mp h
      exact .answer i answer timedOut k next rfl hk hn rfl rfl
    | crash => cases h; exact .crash rfl (Mount.openDb_queue _) rfl

/-- A step brings no other slots than what it tells the queue of files. -/
theorem step_held (h : Changes.step m a = some t) (hm : Held C m) (hnew : Brings C (told m a)) : Held C t := by
  obtain ⟨hs, hj⟩ := hm
  cases step_moves h with
  | told hq ht => exact ⟨hq ▸ run_slots hs hnew, ht ▸ hj⟩
  | mapped doc now ha hid hdone hq ht => exact ⟨hq ▸ hs.setRemoteId, ht ▸ hj⟩
  | claim now j hc ht =>
    obtain ⟨hslots, hpl⟩ := hs.claimed hc
    refine ⟨hslots, fun k hk => ?_⟩
    rw [ht] at hk
    rcases List.mem_append.mp hk with hk | hk
    · exact hj k hk
    · obtain rfl := List.mem_singleton.mp hk
      exact hpl
  | task n now k next ha hk hd ht =>
    refine ⟨Task.dbStep_slots hd hs, fun x hx => ?_⟩
    rw [ht] at hx
    rcases Mount.mem_putTask hx with hx | ⟨ph, -, rfl⟩
    · exact hj x hx
    · exact hj k (List.mem_of_getElem? hk)
  | answer n answer timedOut k next ha hk hn hdb ht =>
    refine ⟨hdb ▸ hs, fun x hx => ?_⟩
    rw [ht] at hx
    rcases List.mem_or_eq_of_mem_set hx with hx | rfl
    · exact hj x hx
    · exact hj k (List.mem_of_getElem? hk)
  | crash ha hq ht =>
    refine ⟨hq ▸ hs, fun x hx => ?_⟩
    rw [ht] at hx
    cases hx

/-! ### Which calls are about derived files -/

/-- A call about a derived inode, if any, is one that the queue takes no notice of. -/
def Quiet (db : Db) (calls : List (Ino × Told)) : Prop := ∀ c ∈ calls, IsDerived db c.1 → c.2.idle db.queue = true

theorem quiet_nil : Quiet db [] := fun _ hc => (nomatch hc)

theorem flush_quiet : Quiet db (flushTold db f nowMs) ↔ FlushOk db f := by
  unfold FlushOk flushTold
  split
  · rename_i filepath hon hf
    by_cases hempty : ((db.getInode f.ino).map Inode.size).getD 0 = 0
    · rw [if_pos hempty]
      exact iff_of_true quiet_nil fun _ _ _ _ => .inl hempty
    · rw [if_neg hempty]
      constructor
      · intro h hd _ fp hfp
        rw [hf] at hfp
        cases hfp
        exact .inr (h _ List.mem_cons_self hd)
      · intro h c hc hd
        obtain rfl := List.mem_singleton.mp hc
        exact (h hd hon filepath hf).resolve_left hempty
  · rename_i hno
    exact iff_of_true quiet_nil fun _ hon filepath hf => absurd hf (hno filepath hon)

theorem unlink_quiet : Quiet db (unlinkTold db p name nowMs) ↔ UnlinkOk db p name := by
  by_cases h : ∃ x, Unlinks db p name x
  · obtain ⟨x, hx⟩ := h
    obtain ⟨-, hrow⟩ := childInode_named hx.source
    rw [unlinkTold_of_checks hx]
    cases hp : childPath db p name with
    | none =>
      refine iff_of_true quiet_nil fun _ filepath _ _ hfp => ?_
      rw [hp] at hfp
      cases hfp
    | some filepath =>
      constructor
      · intro hq y fp hy hd hfp
        obtain rfl : x = y := Option.some.inj (hx.source.symm.trans hy.source)
        obtain rfl : filepath = fp := Option.some.inj (hp.symm.trans hfp)
        exact hq _ List.mem_cons_self ⟨x, hrow, hd⟩
      · intro hok c hc hd
        obtain rfl := List.mem_singleton.mp hc
        obtain ⟨y, hy, hyd⟩ := hd
        obtain rfl : x = y := Option.some.inj (hrow.symm.trans hy)
        exact hok x filepath hx hyd hp
  · rw [(unlink_still fun x hx => h ⟨x, hx⟩).2]
    exact iff_of_true quiet_nil fun x _ hx => absurd ⟨x, hx⟩ h

theorem retarget_moves {oldFp newFp : String} {rebind : Option String} :
    (q.retargetPendingCreate oldFp newFp rebind nowMs).2 = true ↔
      (q.get oldFp).any retargetable = true ∧ oldFp ≠ newFp := by
  by_cases hr : (q.get oldFp).any retargetable = true
  · obtain ⟨r, hg, hre⟩ := (Option.any_eq_true _ _).mp hr
    by_cases hne : oldFp = newFp
    · subst hne
      have hsnd : (q.retargetPendingCreate oldFp oldFp rebind nowMs).2 = false := by
        unfold retargetPendingCreate
        rw [if_pos hr, get_drop_self]
        rfl
      rw [hsnd]
      simp
    · exact iff_of_true (retarget_moved hne hg hre).1 ⟨hr, hne⟩
  · rw [retarget_unmoved fun r hg => ?_]
    · exact iff_of_false nofun fun h => hr h.1
    · simpa [hg] using hr

theorem push_quiet {src : Inode} {r : Renamed} {j : Option Ino} {oldFp newFp : String} {dstFp : Option String}
    (hsrc : db.getInode src.ino = some src) : Quiet db (pushTold db src.ino r j oldFp newFp dstFp nowMs) ↔
      (src.derived = true → (db.queue.get oldFp).any retargetable = false ∧ isMacosNoisePath oldFp = true) ∧
      ∀ k fp, j = some k → IsDerived db k → dstFp = some fp →
        (db.queue.get oldFp).any retargetable = true ∧ oldFp ≠ newFp ∨ isMacosNoisePath fp = true := by
  have hder : IsDerived db src.ino ↔ src.derived = true :=
    ⟨fun ⟨x, hx, hd⟩ => by rw [Option.some.inj (hsrc.symm.trans hx)]; exact hd, fun hd => ⟨src, hsrc, hd⟩⟩
  have hmoves := @retarget_moves db.queue nowMs oldFp newFp r.dstRemoteId
  unfold pushTold
  by_cases hm : (db.queue.retargetPendingCreate oldFp newFp r.dstRemoteId nowMs).2 = true
  · rw [if_pos hm]
    obtain ⟨hr, hne⟩ := hmoves.mp hm
    constructor
    · intro h
      refine ⟨fun hd => ?_, fun _ _ _ _ _ => .inl ⟨hr, hne⟩⟩
      have hidle : (!(db.queue.get oldFp).any retargetable) = true := h _ List.mem_cons_self (hder.mpr hd)
      rw [hr] at hidle
      cases hidle
    · rintro ⟨h, -⟩ c hc hd
      obtain rfl := List.mem_singleton.mp hc
      rw [(h (hder.mp hd)).1] at hr
      cases hr
  · rw [if_neg hm]
    have hno : ¬ ((db.queue.get oldFp).any retargetable = true ∧ oldFp ≠ newFp) := fun h => hm (hmoves.mpr h)
    constructor
    · intro h
      refine ⟨fun hd => ⟨?_, ?_⟩, fun k fp hj hk hfp => .inr ?_⟩
      · have hidle : (!(db.queue.get oldFp).any retargetable) = true := h _ List.mem_cons_self (hder.mpr hd)
        simpa using hidle
      · exact h _ (List.mem_cons_of_mem _ (List.mem_append_right _ List.mem_cons_self)) (hder.mpr hd)
      · subst hj hfp
        exact h _ (List.mem_cons_of_mem _ (List.mem_append_left _ List.mem_cons_self)) hk
    · rintro ⟨hs, hd⟩ c hc hdc
      rcases List.mem_cons.mp hc with rfl | hc
      · show (!(db.queue.get oldFp).any retargetable) = true
        rw [(hs (hder.mp hdc)).1]
        rfl
      · rcases List.mem_append.mp hc with hc | hc
        · cases j with
          | none => cases hc
          | some k =>
            cases dstFp with
            | none => cases hc
            | some fp =>
              obtain rfl := List.mem_singleton.mp hc
              exact (hd k fp rfl hdc rfl).resolve_left hno
        · obtain rfl := List.mem_singleton.mp hc
          exact (hs (hder.mp hdc)).2

theorem rename_quiet : Quiet db (renameTold db p name p' name' nowMs) ↔ RenameOk db p name p' name' := by
  by_cases h : ∃ src r, Renames db p name p' name' src ∧ renameTables db src p name p' name' = .ok (some r)
  · obtain ⟨src, r, hr, ht⟩ := h
    obtain ⟨-, hrow⟩ := childInode_named hr.source
    have hthis : RenameOk db p name p' name' ↔ ∀ oldFp newFp, childPath db p name = some oldFp →
        childPath r.db p' name' = some newFp →
        (src.derived = true → (db.queue.get oldFp).any retargetable = false ∧ isMacosNoisePath oldFp = true) ∧
        ∀ j dstFp, db.childIno p' name' = some j → IsDerived db j → childPath db p' name' = some dstFp →
          (db.queue.get oldFp).any retargetable = true ∧ oldFp ≠ newFp ∨ isMacosNoisePath dstFp = true := by
      constructor
      · exact fun hok oldFp newFp ho hn => hok src r oldFp newFp hr ht ho hn
      · intro hok src' r' oldFp newFp hr' ht' ho hn
        obtain rfl : src = src' := Option.some.inj (hr.source.symm.trans hr'.source)
        obtain rfl : r = r' := by
          have he := ht.symm.trans ht'
          cases he
          rfl
        exact hok oldFp newFp ho hn
    rw [hthis, renameTold_of_checks hr ht]
    cases ho : childPath db p name with
    | none => exact iff_of_true quiet_nil fun _ _ he => (nomatch he)
    | some oldFp =>
      cases hn : childPath r.db p' name' with
      | none => exact iff_of_true quiet_nil fun _ _ _ he => (nomatch he)
      | some newFp =>
        dsimp only
        rw [push_quiet hrow]
        constructor
        · rintro hok _ _ ⟨⟩ ⟨⟩
          exact hok
        · exact fun hok => hok oldFp newFp rfl rfl
  · rw [(rename_still fun src r hr ht => h ⟨src, r, hr, ht⟩).2]
    exact iff_of_true quiet_nil fun src r _ _ hr ht => absurd ⟨src, r, hr, ht⟩ h

end Lemmas

/-! ### Runs -/

section Run

variable {s t : St} {a : Changes.Act} {m : Mount} {db : Db}

theorem ok_iff : Ok s a ↔ Quiet s.mount.db (told s.mount a) := by
  cases a with
  | setattr ino size => exact iff_of_true trivial quiet_nil
  | name op now =>
    cases op with
    | unlink p n => exact unlink_quiet.symm
    | rename p n p' n' => exact rename_quiet.symm
    | mkdir | rmdir | createFile | symlink | link => exact iff_of_true trivial quiet_nil
  | mount a =>
    cases a with
    | flush f now => exact flush_quiet.symm
    | unlink p n now => exact unlink_quiet.symm
    | rename p n p' n' now => exact rename_quiet.symm
    | createFile | write | truncate | reconcile | applyDeletion | rehydrate | poll | claim | taskDb | taskAnswer | crash =>
      exact iff_of_true trivial quiet_nil

theorem blames_nil : blames m a = [] ↔ Quiet m.db (told m a) := by
  unfold blames Quiet
  rw [List.map_eq_nil_iff, List.filter_eq_nil_iff]
  simp only [Bool.and_eq_true, isDerived_iff, Bool.not_eq_true', not_and, Bool.not_eq_false]

/-- What is told is told by a flush, an unlink or a rename. -/
theorem told_cases (m : Mount) (a : Changes.Act) : told m a = [] ∨ (∃ f now, told m a = flushTold m.db f now) ∨
    (∃ p n now, told m a = unlinkTold m.db p n now) ∨ ∃ p n p' n' now, told m a = renameTold m.db p n p' n' now := by
  cases a with
  | setattr => exact .inl rfl
  | name op now =>
    cases op with
    | unlink p n => exact .inr (.inr (.inl ⟨p, n, now, rfl⟩))
    | rename p n p' n' => exact .inr (.inr (.inr ⟨p, n, p', n', now, rfl⟩))
    | mkdir | rmdir | createFile | symlink | link => exact .inl rfl
  | mount a =>
    cases a with
    | flush f now => exact .inr (.inl ⟨f, now, rfl⟩)
    | unlink p n now => exact .inr (.inr (.inl ⟨p, n, now, rfl⟩))
    | rename p n p' n' now => exact .inr (.inr (.inr ⟨p, n, p', n', now, rfl⟩))
    | createFile | write | truncate | reconcile | applyDeletion | rehydrate | poll | claim | taskDb | taskAnswer | crash =>
      exact .inl rfl

/-- The call is an upsert. -/
def Upserts (calls : List (Ino × Told)) : Prop := ∀ c ∈ calls, ∃ fp pl rid now, c.2 = .upsert fp pl rid now

theorem upserts_nil : Upserts [] := fun _ hc => (nomatch hc)

theorem flush_upserts {f : SqliteFile} {now : ℤ} : Upserts (flushTold m.db f now) := by
  unfold flushTold
  split
  · dsimp only
    split_ifs
    · exact upserts_nil
    · exact fun c hc => by rw [List.mem_singleton.mp hc]; exact ⟨_, _, _, _, rfl⟩
    · exact fun c hc => by rw [List.mem_singleton.mp hc]; exact ⟨_, _, _, _, rfl⟩
  · exact upserts_nil

theorem unlink_upserts {p : Ino} {n : String} {now : ℤ} : Upserts (unlinkTold m.db p n now) := by
  unfold unlinkTold
  split
  · exact fun c hc => by rw [List.mem_singleton.mp hc]; exact ⟨_, _, _, _, rfl⟩
  · exact upserts_nil

/-- A retarget is told first, if at all. -/
theorem told_upserts : Upserts (told m a) ∨ ∃ i oldFp newFp rebind now rest,
    told m a = (i, .retarget oldFp newFp rebind now) :: rest ∧ Upserts rest := by
  have hrename {p p' : Ino} {n n' : String} {now : ℤ} : Upserts (renameTold m.db p n p' n' now) ∨
      ∃ i oldFp newFp rebind now' rest, renameTold m.db p n p' n' now = (i, .retarget oldFp newFp rebind now') :: rest ∧
        Upserts rest := by
    unfold renameTold
    split
    · split
      · split
        · refine .inr ⟨_, _, _, _, _, _, rfl, ?_⟩
          split_ifs
          · exact upserts_nil
          · intro c hc
            rcases List.mem_append.mp hc with hc | hc
            · split at hc
              · rw [List.mem_singleton.mp hc]
                exact ⟨_, _, _, _, rfl⟩
              · cases hc
            · rw [List.mem_singleton.mp hc]
              exact ⟨_, _, _, _, rfl⟩
        · exact .inl upserts_nil
      · exact .inl upserts_nil
    · exact .inl upserts_nil
  rcases told_cases m a with ht | ⟨f, now, ht⟩ | ⟨p, n, now, ht⟩ | ⟨p, n, p', n', now, ht⟩
  · exact .inl (ht ▸ upserts_nil)
  · exact .inl (ht ▸ flush_upserts)
  · exact .inl (ht ▸ unlink_upserts)
  · rw [ht]
    exact hrename

theorem told_wf {q : PushQueue} {calls : List (Ino × Told)} (hq : q.WF) : (runAll q calls).WF := by
  induction calls generalizing q with
  | nil => exact hq
  | cons c calls ih =>
    refine ih (q := c.2.run q) ?_
    cases c.2 with
    | upsert fp pl rid now => exact hq.upsert fp pl rid now
    | retarget oldFp newFp rebind now => exact hq.retarget oldFp newFp rebind now

/-- An unlink enqueues no content. -/
theorem unlinkTold_empty {p : Ino} {name : String} {now : ℤ} {c : Ino × Told} (hc : c ∈ unlinkTold m.db p name now)
    {fp : String} {pl : Payload} {rid : Option String} {at_ : ℤ} (he : c.2 = .upsert fp pl rid at_) :
    pl.contentIno = none := by
  unfold unlinkTold at hc
  split at hc
  · obtain rfl := List.mem_singleton.mp hc
    cases he
    rfl
  · cases hc

/-- A rename enqueues no content. -/
theorem renameTold_empty {p p' : Ino} {name name' : String} {now : ℤ} {c : Ino × Told}
    (hc : c ∈ renameTold m.db p name p' name' now) {fp : String} {pl : Payload} {rid : Option String} {at_ : ℤ}
    (he : c.2 = .upsert fp pl rid at_) : pl.contentIno = none := by
  unfold renameTold at hc
  split at hc
  · split at hc
    · split at hc
      · unfold pushTold at hc
        rcases List.mem_cons.mp hc with rfl | hc
        · cases he
        · split_ifs at hc
          · cases hc
          · rcases List.mem_append.mp hc with hc | hc
            · split at hc
              · obtain rfl := List.mem_singleton.mp hc
                cases he
                rfl
              · cases hc
            · obtain rfl := List.mem_singleton.mp hc
              cases he
              rfl
      · cases hc
    · cases hc
  · cases hc

/-- A content that a file operation enqueues is that of the inode it is for. -/
theorem told_content {c : Ino × Told} (hc : c ∈ told m a) {fp : String} {pl : Payload} {rid : Option String} {at_ : ℤ}
    (he : c.2 = .upsert fp pl rid at_) {i : Ino} (hi : i ∈ pl.contentIno) :
    i = c.1 ∧ (m.db.getInode i).isSome = true := by
  have hnone (h : pl.contentIno = none) : i = c.1 ∧ (m.db.getInode i).isSome = true := by
    rw [h] at hi
    cases hi
  rcases told_cases m a with ht | ⟨f, now, ht⟩ | ⟨p, n, now, ht⟩ | ⟨p, n, p', n', now, ht⟩
  · rw [ht] at hc
    cases hc
  · rw [ht] at hc
    unfold flushTold at hc
    split at hc
    · by_cases hempty : ((m.db.getInode f.ino).map Inode.size).getD 0 = 0
      · rw [if_pos hempty] at hc
        cases hc
      · rw [if_neg hempty] at hc
        obtain rfl := List.mem_singleton.mp hc
        cases he
        obtain rfl : f.ino = i := Option.some.inj hi
        refine ⟨rfl, ?_⟩
        by_contra hgone
        rw [Option.not_isSome_iff_eq_none.mp hgone] at hempty
        exact hempty rfl
    · cases hc
  · exact hnone (unlinkTold_empty (ht ▸ hc) he)
  · exact hnone (renameTold_empty (ht ▸ hc) he)

/-- The contents that are queued or pushed are of inodes that have been there. -/
theorem step_contents {m' : Mount} (hm : Changes.step m a = some m') (hnext : m.db.nextIno ≤ m'.db.nextIno)
    (hrows : ∀ x ∈ m.db.inodes, x.ino < m.db.nextIno) (h : Held (fun pl => ∀ i ∈ pl.contentIno, i < m.db.nextIno) m) :
    Held (fun pl => ∀ i ∈ pl.contentIno, i < m'.db.nextIno) m' := by
  have hbrings : Brings (fun pl => ∀ i ∈ pl.contentIno, i < m.db.nextIno) (told m a) := by
    intro c hc fp pl rid at_ he
    refine .inr fun i hi => ?_
    obtain ⟨x, hx⟩ := Option.isSome_iff_exists.mp (told_content hc he hi).2
    obtain ⟨hmem, hino⟩ := Table.get_some hx
    exact hino ▸ hrows x hmem
  obtain ⟨hslots, hjobs⟩ := step_held hm h hbrings
  exact ⟨hslots.mono fun _ hpl i hi => (hpl i hi).trans_le hnext, fun k hk i hi => (hjobs k hk i hi).trans_le hnext⟩

/-- What holds in every state that such a run reaches. -/
structure Inv (s : St) : Prop where
  sorted : Sorted s.mount.db
  inodes : ∀ x ∈ s.mount.db.inodes, x.ino < s.mount.db.nextIno
  root : ROOT_INO < s.mount.db.nextIno
  held : Held (Own s.mount.db) s.mount
  blamed : s.blamed = []

theorem Inv.start : Inv init :=
  ⟨.nil, by decide, by decide, ⟨Slots.empty, fun _ hk => (nomatch hk)⟩, rfl⟩

theorem Inv.unpushed (h : Inv s) : Unpushed s :=
  ⟨h.held.1.mono fun _ hpl i hi => (hpl i hi).2, fun k hk i hi => (h.held.2 k hk i hi).2, h.blamed⟩

theorem step_inv (h : Inv s) (hok : Ok s a) (hst : step s a = some t) : Inv t := by
  obtain ⟨m, hm, rfl⟩ := Option.map_eq_some_iff.mp hst
  have hquiet := ok_iff.mp hok
  have hmany : Many (permit s.mount a) s.mount.db m.db := step_changes h.sorted hm
  obtain ⟨hinodes, hroot⟩ := hmany.rows h.inodes h.root
  have hown (pl : Payload) (hpl : Own s.mount.db pl) : Own m.db pl := fun i hi =>
    ⟨(hpl i hi).1.trans_le hmany.next, fun hd => (hpl i hi).2 (hmany.derived (hpl i hi).1 hd)⟩
  have hbrings : Brings (Own s.mount.db) (told s.mount a) := by
    intro c hc fp pl rid at_ he
    by_cases hnoise : isMacosNoisePath fp = true
    · exact .inl hnoise
    · refine .inr fun i hi => ?_
      obtain ⟨rfl, hsome⟩ := told_content hc he hi
      obtain ⟨x, hx⟩ := Option.isSome_iff_exists.mp hsome
      obtain ⟨hmem, hino⟩ := Table.get_some hx
      refine ⟨hino ▸ h.inodes x hmem, fun hd => hnoise ?_⟩
      have hidle := hquiet c hc hd
      rwa [he] at hidle
  obtain ⟨hslots, hjobs⟩ := step_held hm h.held hbrings
  refine ⟨hmany.sorted h.sorted, hinodes, hroot, ⟨hslots.mono hown, fun k hk => hown _ (hjobs k hk)⟩, ?_⟩
  show s.blamed ++ blames s.mount a = []
  rw [h.blamed, blames_nil.mpr hquiet]
  rfl

/-- As long as no call that tells the queue something goes through for a derived
file, nothing of one is pushed; and the first such call pushes it. -/
theorem unpushed_iff (h : Reach step Ok init s) :
    Unpushed s ∧ ∀ a t, step s a = some t → (Unpushed t ↔ Ok s a) := by
  have hinv : Inv s := h.inv .start fun _ _ _ hI hok hst => step_inv hI hok hst
  refine ⟨hinv.unpushed, fun a t hst => ⟨fun ht => ?_, fun hok => (step_inv hinv hok hst).unpushed⟩⟩
  obtain ⟨m, -, rfl⟩ := Option.map_eq_some_iff.mp hst
  exact ok_iff.mpr (blames_nil.mp (List.append_eq_nil_iff.mp ht.blamed).2)

/-- An image of the server that a transcription is known of. -/
private def photo : Document := ⟨"A", some "/a.png", some [99], "done", "2026-01-01T00:00:00Z", some "image", none⟩

instance : DecidableRel Ok := fun s a => decidable_of_iff (blames s.mount a = []) (blames_nil.trans ok_iff.symm)

/-- The transcription appears, is written to without a flush and gets a second
name; another file is written, renamed and pushed. -/
def besideRun : List Changes.Act :=
  [.mount (.reconcile photo 0), .mount (.write ⟨2, true, some "/a.png.image-transcription.md"⟩ 0 [120] 1),
   .name (.link 2 ROOT_INO "notes.md") 2, .mount (.createFile ROOT_INO "b.md"),
   .mount (.write ⟨3, true, some "/b.md"⟩ 0 [98] 3), .mount (.flush ⟨3, true, some "/b.md"⟩ 4),
   .mount (.rename ROOT_INO "b.md" ROOT_INO "c.md" 5), .mount (.claim 1000), .mount (.taskDb 0 1000)]

/-- The file is being posted, and nothing is enqueued for the transcription. -/
theorem unpushed_iff_beside :
    ∃ s, run step Ok init besideRun = some s ∧
      (isDerived s.mount.db 2 = true ∧ s.mount.db.childIno ROOT_INO "notes.md" = some 2 ∧
        s.mount.db.queue.rows.map (fun r => (r.filepath, r.main.contentIno)) = [("/c.md", some 3)] ∧
        s.mount.tasks.map Task.phase = [.post 3 [98]]) ∧
      Unpushed s := by
  obtain ⟨s, hs, hp⟩ := (Option.any_eq_true _ _).mp
    (by decide +kernel : (run step Ok init besideRun).any (fun s => decide
      (isDerived s.mount.db 2 = true ∧ s.mount.db.childIno ROOT_INO "notes.md" = some 2 ∧
        s.mount.db.queue.rows.map (fun r => (r.filepath, r.main.contentIno)) = [("/c.md", some 3)] ∧
        s.mount.tasks.map Task.phase = [.post 3 [98]])) = true)
  exact ⟨s, hs, of_decide_eq_true hp, (unpushed_iff (.of_run hs)).1⟩

/-- The transcription is opened and flushed. -/
theorem pushes_derived : ¬ ∀ s, Reach step anyStep init s → Unpushed s := by
  intro hall
  obtain ⟨s, hreach, hs⟩ : ∃ s, Reach step anyStep init s ∧ decide
      (s.mount.db.queue.rows.map (fun r => r.main.contentIno) = [some 2] ∧ isDerived s.mount.db 2 = true) = true :=
    Reach.exists_of_run [.mount (.reconcile photo 0),
      .mount (.flush ⟨2, true, some "/a.png.image-transcription.md"⟩ 0)] (by decide)
  obtain ⟨hrows, hder⟩ := of_decide_eq_true hs
  obtain ⟨r, hr, hri⟩ : ∃ r ∈ s.mount.db.queue.rows, r.main.contentIno = some 2 :=
    List.mem_map.mp (hrows ▸ List.mem_singleton_self _)
  exact ((hall s hreach).rows r hr).1 2 hri (isDerived_iff.mp hder)

end Run

end Derived
end Smfs
