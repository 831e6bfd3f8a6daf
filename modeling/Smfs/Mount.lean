/-
# The mount

The cache with everything that runs on it: the file operations, the pull
side, the tasks of the push worker and the poller, step by step in any
order, and a crash, which ends every task and leaves the database. A task
takes one step of `process_job` at a time; every other call is one step.

Key definitions: `Mount`, `Mount.Act`, `Mount.step`.
-/
import Smfs.Lib.Reach
import Smfs.Ops
import Smfs.Push

namespace Smfs

/-- The database, and the running tasks of the push worker. -/
structure Mount where
  db : Db
  tasks : List Task
  deriving DecidableEq

namespace Mount

/-- What may happen. `nowMs` is the clock at the call. -/
inductive Act
  | createFile (parentIno : Ino) (name : String)
  | write (f : SqliteFile) (offset : ℕ) (data : Bytes) (nowMs : ℤ)
  | truncate (f : SqliteFile) (size : ℕ)
  | flush (f : SqliteFile) (nowMs : ℤ)
  | unlink (parentIno : Ino) (name : String) (nowMs : ℤ)
  | rename (oldParent : Ino) (oldName : String) (newParent : Ino) (newName : String) (nowMs : ℤ)
  | reconcile (doc : Document) (nowMs : ℤ)
  | applyDeletion (remoteId : String)
  | rehydrate (ino : Ino) (bytes : Bytes)
  | poll (row : Db.AwaitingDone) (processing : List (String × String))
      (terminal : Except ApiError Document) (nowMs : ℤ)
  | claim (nowMs : ℤ)
  | taskDb (i : ℕ) (nowMs : ℤ)
  | taskAnswer (i : ℕ) (answer : Answer) (timedOut : Bool)
  | crash

/-- The tasks once the `i`-th has moved on to a phase, or ended. -/
def putTask (tasks : List Task) (i : ℕ) (t : Task) : Option Phase → List Task
  | some phase => tasks.set i { t with phase := phase }
  | none => tasks.eraseIdx i

/-- A task that is in the list afterwards is another one, or the one that has moved on to its next phase. -/
theorem others_or_next {tasks : List Task} {i : ℕ} {k x : Task} {next : Option Phase} (h : x ∈ putTask tasks i k next) :
    (∃ j, j ≠ i ∧ tasks[j]? = some x) ∨ ∃ ph, next = some ph ∧ x = { k with phase := ph } := by
  cases next with
  | none => exact .inl (List.mem_eraseIdx_iff_getElem?.mp h)
  | some ph =>
    obtain ⟨j, hj⟩ := List.mem_iff_getElem?.mp h
    by_cases hji : i = j
    · subst hji
      have hlt : i < tasks.length := by
        have := (List.getElem?_eq_some_iff.mp hj).1
        rwa [putTask, List.length_set] at this
      have hset : (tasks.set i { k with phase := ph })[i]? = some { k with phase := ph } := List.getElem?_set_self hlt
      exact .inr ⟨ph, rfl, Option.some.inj (hj.symm.trans hset)⟩
    · exact .inl ⟨j, Ne.symm hji, (List.getElem?_set_ne hji).symm.trans hj⟩

/-- A task that is in the list afterwards was there before, or has moved on to its next phase. -/
theorem mem_putTask {tasks : List Task} {i : ℕ} {k x : Task} {next : Option Phase}
    (h : x ∈ putTask tasks i k next) : x ∈ tasks ∨ ∃ ph, next = some ph ∧ x = { k with phase := ph } :=
  (others_or_next h).imp_left fun ⟨_, _, hj⟩ => List.mem_of_getElem? hj

/-- The other tasks stay. -/
theorem mem_putTask_of_ne {tasks : List Task} {i j : ℕ} {k x : Task} {next : Option Phase} (hx : tasks[j]? = some x)
    (hne : j ≠ i) : x ∈ putTask tasks i k next := by
  cases next with
  | none => exact List.mem_eraseIdx_iff_getElem?.mpr ⟨j, hne, hx⟩
  | some ph =>
    refine List.mem_iff_getElem?.mpr ⟨j, ?_⟩
    exact (List.getElem?_set_ne (Ne.symm hne)).trans hx

/-- One step. After a crash the tables are opened again by `Db::open`, and
`run_push_worker` starts with no task. -/
def step (m : Mount) : Act → Option Mount
  | .createFile parentIno name => some { m with db := (Fs.createFile m.db true parentIno name).2 }
  | .write f offset data now => some { m with db := (f.write m.db offset data now).2 }
  | .truncate f size => some { m with db := f.truncate m.db size }
  | .flush f now => some { m with db := f.flush m.db now }
  | .unlink parentIno name now => some { m with db := (Fs.unlink m.db true parentIno name now).2 }
  | .rename op on np nn now => some { m with db := (Fs.rename m.db true op on np nn now).2 }
  | .reconcile doc now => some { m with db := (Fs.reconcileOne m.db doc now).2 }
  | .applyDeletion rid => some { m with db := (Fs.applyDeletion m.db rid).2 }
  | .rehydrate ino bytes => some { m with db := Fs.rehydrateRawBytes m.db ino bytes }
  | .poll row processing terminal now => some { m with db := pollRow m.db row processing terminal now }
  | .claim now =>
    if m.tasks.length < PUSH_CONCURRENCY then
      (m.db.queue.claimNext now).map fun (j, q) =>
        { db := { m.db with queue := q }, tasks := m.tasks ++ [⟨j, .start⟩] }
    else none
  | .taskDb i now =>
    (m.tasks[i]?).bind fun t =>
      (Task.dbStep m.db t.job now t.phase).map fun (db, phase) =>
        { db := db, tasks := putTask m.tasks i t phase }
  | .taskAnswer i answer timedOut =>
    (m.tasks[i]?).bind fun t =>
      (Task.answered t.job timedOut t.phase answer).map fun phase =>
        { m with tasks := m.tasks.set i { t with phase := phase } }
  | .crash => some ⟨m.db.openDb, []⟩

/-- A first mount. -/
def fresh : Mount := ⟨.fresh, []⟩

open PushQueue in
/-- What a step may do to the queue and to the tasks. -/
inductive QueueStep (m : Mount) (a : Act) (t : Mount) : Prop
  | client (hq : ClientCalls m.db.queue t.db.queue) (ht : t.tasks = m.tasks)
  | claim (now : ℤ) (j : PushJob) (h : m.db.queue.claimNext now = some (j, t.db.queue))
      (ht : t.tasks = m.tasks ++ [⟨j, .start⟩])
  | task (i : ℕ) (now : ℤ) (k : Task) (next : Option Phase) (hi : m.tasks[i]? = some k)
      (h : Task.dbStep m.db k.job now k.phase = some (t.db, next)) (ht : t.tasks = putTask m.tasks i k next)
  | answer (i : ℕ) (answer : Answer) (timedOut : Bool) (k : Task) (next : Phase) (hi : m.tasks[i]? = some k)
      (h : Task.answered k.job timedOut k.phase answer = some next) (hq : t.db.queue = m.db.queue)
      (ht : t.tasks = m.tasks.set i { k with phase := next })
  | crash (ha : a = .crash) (hq : t.db.queue = m.db.queue) (ht : t.tasks = [])

theorem openDb_queue (db : Db) : db.openDb.queue = db.queue := by
  unfold Db.openDb
  split_ifs <;> rfl

open PushQueue in
theorem step_queue {m t : Mount} {a : Act} (h : step m a = some t) : QueueStep m a t := by
  have same : ∀ {q : PushQueue}, q = m.db.queue → ClientCalls m.db.queue q := fun he => he ▸ .refl
  cases a with
  | createFile parentIno name =>
    cases h
    exact .client (same Fs.createFile_sameSync.queue) rfl
  | write f offset data now => cases h; exact .client (same SqliteFile.write_sameSync.queue) rfl
  | truncate f size => cases h; exact .client (same SqliteFile.truncate_sameSync.queue) rfl
  | flush f now =>
    cases h
    rcases (SqliteFile.flush_queue : f.flush m.db now = m.db ∨ _) with he | ⟨p, op, rid, -, he⟩
    · exact .client (same (by rw [he])) rfl
    · refine .client ?_ rfl
      show ClientCalls m.db.queue (f.flush m.db now).queue
      rw [he]
      exact .single (.upsert _ _ _ _ _)
  | unlink parentIno name now => cases h; exact .client Fs.unlink_calls rfl
  | rename op on np nn now => cases h; exact .client Fs.rename_calls rfl
  | reconcile doc now =>
    cases h
    rcases (Fs.reconcileOne_queue : Fs.QueueMapped doc m.db (Fs.reconcileOne m.db doc now).2).queue with he | he
    · exact .client (same he) rfl
    · refine .client ?_ rfl
      show ClientCalls m.db.queue (Fs.reconcileOne m.db doc now).2.queue
      rw [he]
      exact .single (.setRemoteId _ _ _)
  | applyDeletion rid => cases h; exact .client (same Fs.applyDeletion_queue) rfl
  | rehydrate ino bytes => cases h; exact .client .refl rfl
  | poll row processing terminal now => cases h; exact .client (same pollRow_queue) rfl
  | claim now =>
    unfold step at h
    split_ifs at h
    obtain ⟨⟨j, q⟩, hc, rfl⟩ := Option.map_eq_some_iff.mp h
    exact .claim now j hc rfl
  | taskDb i now =>
    unfold step at h
    obtain ⟨k, hk, h⟩ := Option.bind_eq_some_iff.mp h
    obtain ⟨⟨db, next⟩, hd, rfl⟩ := Option.map_eq_some_iff.mp h
    exact .task i now k next hk hd rfl
  | taskAnswer i answer timedOut =>
    unfold step at h
    obtain ⟨k, hk, h⟩ := Option.bind_eq_some_iff.mp h
    obtain ⟨next, hn, rfl⟩ := Option.map_eq_some_iff.mp h
    exact .answer i answer timedOut k next hk hn rfl rfl
  | crash => cases h; exact .crash rfl (openDb_queue _) rfl

end Mount
end Smfs
