/-
# A document that is not there any more

The server answers 404 to a request for the document of a row. A `PATCH` with
content clears the id from the row and from `fs_remote`, and the next try makes
a new document. No other request does: a wait goes on to its `PATCH` with the
same id, and a delete and a rename fail and are tried again with it
(`asks_again`). So a row is rid of an id in every run in which only such a
`PATCH`, or the last wait of a job, hears a 404, and nothing brings the id back
(`unwedged`).

Key definitions: `Vanished.St`, `Vanished.step`, `Vanished.Unwedged`, `Vanished.Ok`.
Key theorems: `Vanished.Clear.drift`, `Vanished.Clear.task`, `Vanished.Clear.answer`, `Vanished.unwedged`, `Vanished.asks_again`.
-/
import Smfs.Queue.Lineage
import Smfs.Sync.Derived

namespace Smfs
namespace Vanished

open Trans Db Fs PushQueue Changes Derived

/-- The mount, and for each row the ids that the server has answered 404 for. -/
structure St where
  mount : Mount
  gone : List (ℕ × String)
  deriving DecidableEq

def init : St := ⟨.fresh, []⟩

/-- The document that a request is for. -/
def idOf : Call → Option String
  | .getDocument id | .updateDocument id .. | .deleteDocumentsByIds id => some id
  | .createDocument .. | .createDocumentMultipart .. | .deleteDocuments _ | .listDocuments _ => none

/-- The document that a task's request is for. -/
def requested (k : Task) : Option String := (Task.call k.job k.phase).bind idOf

/-- The document that a call hears a 404 for: that of a task's request, or of the poller's. -/
def vanished (m : Mount) : Changes.Act → Option String
  | .mount (.taskAnswer n (.err .notFound) _) => (m.tasks[n]?).bind requested
  | .mount (.poll row processing terminal now) =>
    match processing.reverse.find? fun d => d.1 = row.remoteId, terminal with
    | none, .error .notFound =>
      if stuckTier ((row.lastStatusAt.map (now - ·)).getD 0) = .stop then none else some row.remoteId
    | _, _ => none
  | _ => none

/-- The row whose job asks. -/
def asker (m : Mount) : Changes.Act → Option String
  | .mount (.taskAnswer n ..) => (m.tasks[n]?).map fun k => k.job.filepath
  | _ => none

/-- A 404 is for every row with the id, and for the row whose job asks. -/
def newlyGone (m : Mount) (a : Changes.Act) : List (ℕ × String) :=
  (vanished m a).elim [] fun rid =>
    (m.db.queue.rows.filter fun r => r.remoteId = some rid ∨ some r.filepath = asker m a).map fun r => (r.rowid, rid)

def step (s : St) (a : Changes.Act) : Option St :=
  (Changes.step s.mount a).map fun m => ⟨m, s.gone ++ newlyGone s.mount a⟩

/-- The phases between a 404 and the end of the job: the id is cleared, or the job has succeeded. -/
def Ends (rid : String) : Phase → Prop
  | .clearRemoteId r => r = rid
  | .markMirrored _ | .clearDirty _ | .succeed => True
  | _ => False

/-- No request of a row's job is for an id that is gone for the row; and a row with such an id is in the hands of a job
that asks nothing more of the server: it clears the id, or has succeeded. -/
structure Unwedged (s : St) : Prop where
  requests : ∀ k ∈ s.mount.tasks, ∀ r, s.mount.db.queue.get k.job.filepath = some r → ∀ rid, requested k = some rid →
    (r.rowid, rid) ∉ s.gone
  rows : ∀ r ∈ s.mount.db.queue.rows, ∀ rid, r.remoteId = some rid → (r.rowid, rid) ∈ s.gone →
    r.inflight = true ∧ ∃ k ∈ s.mount.tasks, k.job.filepath = r.filepath ∧ Ends rid k.phase

/-- No file has the document. -/
def Absent (db : Db) (rid : String) : Prop := ∀ x ∈ db.remotes, x.remoteId ≠ rid

/-- Neither the row nor a file has the document. -/
def Forgotten (db : Db) (r : PushRow) (rid : String) : Prop := Absent db rid ∧ r.remoteId ≠ some rid

/-- The task is about to map the document. -/
def Maps (rid : String) : Phase → Prop
  | .mapInode _ r | .mapRow _ r => r = rid
  | .wait _ next => Maps rid next
  | _ => False

/-- The task sends content to the document, or waits for it once its job is done. -/
def Recovers : Phase → Prop
  | .patch .. => True
  | .wait _ (.markMirrored _) | .wait _ .succeed => True
  | _ => False

/-- A 404 is heard by a `PATCH` with content or by a last wait, for a document that no other row has and no task is about
to map; and the server makes or lists no document that is gone for a row. -/
def AnswerOk (s : St) (k : Task) : Answer → Prop
  | .err .notFound => ∀ rid, requested k = some rid → Recovers k.phase ∧
      (∀ r ∈ s.mount.db.queue.rows, r.remoteId = some rid → r.filepath = k.job.filepath) ∧
      ∀ x ∈ s.mount.tasks, ¬ Maps rid x.phase
  | .created rid => ∀ r ∈ s.mount.db.queue.rows, (r.rowid, rid) ∉ s.gone
  | .documents ids => ∀ rid, ids.head? = some rid → ∀ r ∈ s.mount.db.queue.rows, (r.rowid, rid) ∉ s.gone
  | _ => True

/-- Every document that is gone for a row is forgotten. -/
def AllForgotten (s : St) (r : PushRow) : Prop := ∀ rid, (r.rowid, rid) ∈ s.gone → Forgotten s.mount.db r rid

/-- The answers are as they must be; the poller hears no 404 for the document of a row; a reconcile maps no document that
is gone for a row; a job that succeeds with a pending slot, and a crash, find what is gone forgotten; and no rename moves
a queued create over a row that a worker holds. -/
def Ok (s : St) (a : Changes.Act) : Prop :=
  match a with
  | .mount (.taskAnswer n answer _) => ∀ k, s.mount.tasks[n]? = some k → AnswerOk s k answer
  | .mount (.poll ..) => ∀ rid, vanished s.mount a = some rid → ∀ r ∈ s.mount.db.queue.rows, r.remoteId ≠ some rid
  | .mount (.reconcile doc _) => s.mount.db.inoByRemoteId doc.id = none → doc.status = "done" →
      ∀ r ∈ s.mount.db.queue.rows, (r.rowid, doc.id) ∉ s.gone
  | .mount (.taskDb n _) => ∀ k r, s.mount.tasks[n]? = some k → k.phase = .succeed →
      s.mount.db.queue.get k.job.filepath = some r → r.pending.isSome = true → AllForgotten s r
  | .mount .crash => ∀ r ∈ s.mount.db.queue.rows, AllForgotten s r
  | .mount (.rename ..) | .name (.rename ..) _ => ∀ c ∈ told s.mount a, ∀ oldFp newFp rebind now,
      c.2 = .retarget oldFp newFp rebind now → (s.mount.db.queue.get oldFp).any retargetable = true → oldFp ≠ newFp →
      s.mount.db.queue.inflight newFp = false
  | _ => True

/-! ### What a task uses -/

/-- The documents that a task uses from here on. -/
def uses (j : PushJob) : Phase → List String
  | .start | .delete => j.remoteId.toList
  | .wait rid next => rid :: uses j next
  | .patch _ _ rid | .mapInode _ rid | .mapRow _ rid | .rename _ rid => [rid]
  | _ => []

section Tasks

variable {db db' : Db} {j : PushJob} {nowMs : ℤ} {rid : String} {ph next : Phase}

theorem requested_uses {k : Task} (h : requested k = some rid) : rid ∈ uses k.job k.phase := by
  unfold requested at h
  cases hph : k.phase with
  | wait r next =>
    rw [hph] at h
    cases h
    exact List.mem_cons_self
  | patch | rename =>
    rw [hph] at h
    cases h
    exact List.mem_singleton_self _
  | delete =>
    rw [hph] at h
    unfold Task.call at h
    dsimp only at h
    cases hr : k.job.remoteId with
    | none =>
      rw [hr] at h
      cases h
    | some r =>
      rw [hr] at h
      cases h
      exact Option.mem_toList.mpr hr
  | start | post | upload | clearRemoteId | mapInode | mapRow | markMirrored | clearDirty | lookup | succeed | fail | poison
  | sibling | drop =>
    rw [hph] at h
    cases h

theorem begin_uses : ∀ x ∈ uses j (Task.begin db j), x ∈ j.remoteId.toList := by
  intro x hx
  unfold Task.begin at hx
  cases hop : j.op with
  | create | update =>
    rw [hop] at hx
    dsimp only at hx
    cases hc : j.contentIno with
    | none =>
      rw [hc] at hx
      cases hx
    | some ino =>
      rw [hc] at hx
      dsimp only at hx
      split_ifs at hx
      · cases hx
      · cases hr : j.remoteId with
        | none =>
          rw [hr] at hx
          cases hx
        | some r =>
          rw [hr] at hx
          simpa [uses] using hx
  | uploadBinary =>
    rw [hop] at hx
    dsimp only at hx
    cases hc : j.contentIno with
    | none =>
      rw [hc] at hx
      cases hx
    | some ino =>
      rw [hc] at hx
      cases hx
  | delete =>
    rw [hop] at hx
    exact hx
  | rename =>
    rw [hop] at hx
    dsimp only at hx
    cases hto : j.renameTo with
    | none =>
      rw [hto] at hx
      cases hx
    | some newFp =>
      rw [hto] at hx
      dsimp only at hx
      cases hr : j.remoteId with
      | none =>
        rw [hr] at hx
        cases hx
      | some r =>
        rw [hr] at hx
        simpa [uses] using hx

/-- After a call on the database a task uses nothing that it did not use before. -/
theorem dbStep_uses (h : Task.dbStep db j nowMs ph = some (db', some next)) : ∀ x ∈ uses j next, x ∈ uses j ph := by
  cases ph with
  | start => cases h; exact begin_uses
  | mapInode ino r => cases h; exact fun _ hx => hx
  | mapRow ino r => cases h; exact fun _ hx => hx
  | clearRemoteId | markMirrored | clearDirty => cases h; exact fun _ hx => (nomatch hx)
  | poison status body sib =>
    cases sib with
    | true => cases h; exact fun _ hx => (nomatch hx)
    | false => cases h
  | succeed | fail | sibling | drop => cases h
  | wait | patch | post | upload | delete | lookup | rename => cases h

/-- What a task uses after an answer it has used before, or it has just been told of it. -/
theorem answered_uses {timedOut : Bool} {answer : Answer} (h : Task.answered j timedOut ph answer = some next) :
    ∀ x ∈ uses j next, x ∈ uses j ph ∨ answer = .created x ∨ ∃ ids, answer = .documents ids ∧ ids.head? = some x := by
  cases ph with
  | wait r ph =>
    rcases Task.answered_wait h with rfl | rfl
    · exact fun x hx => .inl (List.mem_cons_of_mem _ hx)
    · exact fun x hx => .inl hx
  | patch ino content r =>
    cases answer with
    | ok => cases h; exact fun x hx => .inl hx
    | err e => cases e <;> cases h <;> exact fun _ hx => (nomatch hx)
    | created | status | documents => cases h
  | post ino content | upload ino content =>
    cases answer with
    | created r => cases h; exact fun x hx => .inr (.inl (by rw [List.mem_singleton.mp hx]))
    | err e => cases e <;> cases h <;> exact fun _ hx => (nomatch hx)
    | ok | status | documents => cases h
  | delete =>
    cases answer with
    | ok => cases h; exact fun _ hx => (nomatch hx)
    | err e => cases e <;> cases h <;> exact fun _ hx => (nomatch hx)
    | created | status | documents => cases h
  | lookup newFp =>
    cases answer with
    | documents ids =>
      cases ids with
      | nil => cases h; exact fun _ hx => (nomatch hx)
      | cons r ids =>
        cases h
        refine fun x hx => .inr (.inr ⟨r :: ids, rfl, ?_⟩)
        have hx : x = r := by simpa [uses] using hx
        rw [hx]
        rfl
    | err e => cases h; exact fun _ hx => (nomatch hx)
    | ok | created | status => cases h
  | rename newFp r =>
    cases answer with
    | ok => cases h; exact fun x hx => .inl hx
    | err e => cases e <;> cases h <;> exact fun _ hx => (nomatch hx)
    | created | status | documents => cases h
  | start | clearRemoteId | mapInode | mapRow | markMirrored | clearDirty | succeed | fail | poison | sibling | drop => cases h

/-- A task is about to map what it was about to map before, or what has just been created. -/
theorem answered_maps {timedOut : Bool} {answer : Answer} (h : Task.answered j timedOut ph answer = some next)
    (hm : Maps rid next) : Maps rid ph ∨ answer = .created rid := by
  cases ph with
  | wait r ph =>
    rcases Task.answered_wait h with rfl | rfl
    · exact .inl hm
    · exact .inl hm
  | patch ino content r =>
    cases answer with
    | ok => cases h; cases hm
    | err e => cases e <;> cases h <;> cases hm
    | created | status | documents => cases h
  | post ino content | upload ino content =>
    cases answer with
    | created r => cases h; exact .inr (congrArg Answer.created hm)
    | err e => cases e <;> cases h <;> cases hm
    | ok | status | documents => cases h
  | delete =>
    cases answer with
    | ok => cases h; cases hm
    | err e => cases e <;> cases h <;> cases hm
    | created | status | documents => cases h
  | lookup newFp =>
    cases answer with
    | documents ids => cases ids <;> cases h <;> cases hm
    | err e => cases h; cases hm
    | ok | created | status => cases h
  | rename newFp r =>
    cases answer with
    | ok => cases h; cases hm
    | err e => cases e <;> cases h <;> cases hm
    | created | status | documents => cases h
  | start | clearRemoteId | mapInode | mapRow | markMirrored | clearDirty | succeed | fail | poison | sibling | drop => cases h

/-- A task that a 404 leaves with its row uses nothing more, and ends. -/
theorem recovers_ends {timedOut : Bool} (hr : Recovers ph) (hreq : requested ⟨j, ph⟩ = some rid)
    (h : Task.answered j timedOut ph (.err .notFound) = some next) : uses j next = [] ∧ Ends rid next := by
  cases ph with
  | patch ino content r =>
    cases h
    cases hreq
    exact ⟨rfl, rfl⟩
  | wait r ph =>
    cases ph with
    | markMirrored ino => cases h; exact ⟨rfl, trivial⟩
    | succeed => cases h; exact ⟨rfl, trivial⟩
    | start | wait | patch | post | upload | clearRemoteId | mapInode | mapRow | clearDirty | delete | lookup | rename | fail
    | poison | sibling | drop => cases hr
  | start | post | upload | clearRemoteId | mapInode | mapRow | markMirrored | clearDirty | delete | lookup | rename | succeed
  | fail | poison | sibling | drop => cases hr

theorem Ends.owes (h : Ends rid ph) : ph.owes = true := by
  cases ph with
  | clearRemoteId | markMirrored | clearDirty | succeed => rfl
  | start | wait | patch | post | upload | mapInode | mapRow | delete | lookup | rename | fail | poison | sibling | drop =>
    cases h

theorem Ends.unanswered {timedOut : Bool} {answer : Answer} (h : Ends rid ph) :
    Task.answered j timedOut ph answer = none := by
  cases ph with
  | clearRemoteId | markMirrored | clearDirty | succeed => rfl
  | start | wait | patch | post | upload | mapInode | mapRow | delete | lookup | rename | fail | poison | sibling | drop =>
    cases h

theorem maps_uses (h : Maps rid ph) : rid ∈ uses j ph := by
  induction ph with
  | mapInode ino r | mapRow ino r => rw [show r = rid from h]; exact List.mem_singleton_self _
  | wait r ph ih => exact List.mem_cons_of_mem _ (ih h)
  | start | patch | post | upload | clearRemoteId | markMirrored | clearDirty | delete | lookup | rename | succeed | fail
  | poison | sibling | drop => cases h

end Tasks

/-! ### Which files have a document -/

section Files

variable {P : Permit} {db db' : Db} {m t : Mount} {a : Changes.Act} {rid : String} {i : Ino}

theorem Change.absent (h : Change P db db') (hmap : ∀ i, ¬ P.map i rid) (ha : Absent db rid) : Absent db' rid := by
  cases h with
  | rest inodes next remotes =>
    intro x hx
    exact ha x (remotes ▸ hx)
  | inode | root | attrs | drop => exact ha
  | map may =>
    intro x hx
    rcases Table.mem_put hx with rfl | hx
    · rintro rfl
      exact hmap _ may
    · exact ha x hx
  | unmap may => exact fun x hx => ha x (Table.mem_erase.mp hx).1
  | forget may => exact fun x hx => ha x (List.mem_filter.mp hx).1
  | mark u t may =>
    intro x hx
    obtain ⟨y, hy, rfl⟩ := Table.mem_modify.mp hx
    have hno := ha y hy
    split_ifs
    · exact hno
    · exact hno

theorem Many.absent (h : Many P db db') (hmap : ∀ i, ¬ P.map i rid) (ha : Absent db rid) : Absent db' rid := by
  induction h with
  | refl => exact ha
  | tail _ hc ih => exact Change.absent hc hmap ih

theorem not_absent (h : db.getRemoteId i = some rid) : ¬ Absent db rid := by
  obtain ⟨x, hx, rfl⟩ := Option.map_eq_some_iff.mp h
  exact fun ha => ha x (Table.get_some hx).1 rfl

/-- A document is mapped that a file has, or that a reconcile brings or a task has created. -/
theorem permit_map (h : (permit m a).map i rid) : ¬ Absent m.db rid ∨
    (∃ doc now, a = .mount (.reconcile doc now) ∧ rid = doc.id ∧ m.db.inoByRemoteId doc.id = none ∧
      doc.status = "done") ∨
    ∃ n now k, a = .mount (.taskDb n now) ∧ m.tasks[n]? = some k ∧ Maps rid k.phase := by
  cases a with
  | setattr ino size => cases h
  | name op now =>
    cases op with
    | rename p n p' n' =>
      obtain ⟨src, j, -, -, -, -, hj⟩ := h
      exact .inl (not_absent hj)
    | mkdir | rmdir | createFile | unlink | symlink | link => cases h
  | mount b =>
    cases b with
    | rename p n p' n' now =>
      obtain ⟨src, j, -, -, -, -, hj⟩ := h
      exact .inl (not_absent hj)
    | reconcile doc now =>
      obtain ⟨rfl, hid, hdone, -⟩ := h
      exact .inr (.inl ⟨doc, now, rfl, rfl, hid, hdone⟩)
    | taskDb n now =>
      cases hk : m.tasks[n]? with
      | none =>
        have h : (((m.tasks[n]?).elim {} fun k => phasePermit k.phase).map i rid) := h
        rw [hk] at h
        cases h
      | some k =>
        rw [permit_task hk] at h
        refine .inr (.inr ⟨n, now, k, rfl, hk, ?_⟩)
        cases hph : k.phase with
        | mapInode ino r =>
          rw [hph] at h
          exact h.2.symm
        | start | wait | patch | post | upload | clearRemoteId | mapRow | markMirrored | clearDirty | delete | lookup | rename
        | succeed | fail | poison | sibling | drop =>
          rw [hph] at h
          cases h
    | createFile | write | truncate | flush | unlink | applyDeletion | rehydrate | poll | claim | taskAnswer | crash => cases h

/-! ### What the queue is told -/

/-- The document that a call on the queue brings. -/
def brought : Told → Option String
  | .upsert _ _ rid _ => rid
  | .retarget _ _ rebind _ => rebind

theorem remotes_of_unlink {p : Ino} {name : String} {x : Inode} : (unlinkTables db p name x).remotes ⊆ db.remotes := by
  unfold unlinkTables
  dsimp only
  split_ifs
  · exact fun y hy => (Table.mem_erase.mp hy).1
  · exact fun y hy => hy

theorem remotes_of_rename {p p' : Ino} {name name' : String} :
    (Cache.renamedTables db p name p' name').remotes ⊆ db.remotes := by
  unfold Cache.renamedTables
  split
  · exact fun y hy => hy
  · exact fun y hy => (Table.mem_erase.mp hy).1

theorem absent_of_subset (h : db'.remotes ⊆ db.remotes) (ha : Absent db rid) : Absent db' rid := fun x hx => ha x (h hx)

theorem push_brought {src : Ino} {r : Renamed} {replaced : Option Ino} {oldFp newFp : String}
    {dstFp : Option String} {now : ℤ}
    {c : Ino × Told} (hr : ∀ rid, r.dstRemoteId = some rid → ¬ Absent db rid)
    (hdb : ∀ rid, r.db.getRemoteId src = some rid → ¬ Absent db rid)
    (hc : c ∈ pushTold db src r replaced oldFp newFp dstFp now)
    (h : brought c.2 = some rid) : ¬ Absent db rid := by
  unfold pushTold at hc
  rcases List.mem_cons.mp hc with rfl | hc
  · exact hr rid h
  · split_ifs at hc
    · cases hc
    · rcases List.mem_append.mp hc with hc | hc
      · split at hc
        · obtain rfl := List.mem_singleton.mp hc
          cases h
        · cases hc
      · obtain rfl := List.mem_singleton.mp hc
        exact hdb rid h

/-- What a call brings to the queue is the document of a file. -/
theorem told_brought {c : Ino × Told} (hc : c ∈ told m a) (h : brought c.2 = some rid) : ¬ Absent m.db rid := by
  have hflush {f : SqliteFile} {now : ℤ} (hc : c ∈ flushTold m.db f now) : ¬ Absent m.db rid := by
    unfold flushTold at hc
    split at hc
    · split_ifs at hc
      · cases hc
      · obtain rfl := List.mem_singleton.mp hc
        exact not_absent h
      · obtain rfl := List.mem_singleton.mp hc
        exact not_absent h
    · cases hc
  have hunlink {p : Ino} {n : String} {now : ℤ} (hc : c ∈ unlinkTold m.db p n now) : ¬ Absent m.db rid := by
    unfold unlinkTold at hc
    split at hc
    · obtain rfl := List.mem_singleton.mp hc
      exact fun ha => not_absent h (absent_of_subset remotes_of_unlink ha)
    · cases hc
  have hrename {p p' : Ino} {n n' : String} {now : ℤ} (hc : c ∈ renameTold m.db p n p' n' now) : ¬ Absent m.db rid := by
    unfold renameTold at hc
    split at hc
    · split at hc
      · rename_i r ht
        obtain ⟨hdb, -, hdst⟩ := Cache.renameTables_cases ht
        split at hc
        · refine push_brought (fun rid hr => ?_) (fun rid hr ha => ?_) hc h
          · rw [hdst] at hr
            obtain ⟨j, -, hj⟩ := Option.bind_eq_some_iff.mp hr
            exact not_absent hj
          · exact not_absent hr (hdb ▸ absent_of_subset remotes_of_rename ha)
        · cases hc
      · cases hc
    · cases hc
  rcases told_cases m a with ht | ⟨f, now, ht⟩ | ⟨p, n, now, ht⟩ | ⟨p, n, p', n', now, ht⟩
  · rw [ht] at hc
    cases hc
  · exact hflush (ht ▸ hc)
  · exact hunlink (ht ▸ hc)
  · exact hrename (ht ▸ hc)

theorem upserts_descend {C : String → Prop} {q : PushQueue} {calls : List (Ino × Told)} (hu : Upserts calls)
    (hC : ∀ c ∈ calls, ∀ rid, brought c.2 = some rid → C rid) : Descends C q (runAll q calls) := by
  induction calls generalizing q with
  | nil => exact .refl
  | cons c calls ih =>
    obtain ⟨fp, pl, rid, now, hcall⟩ := hu c List.mem_cons_self
    have hfirst : Descends C q (c.2.run q) := by
      rw [hcall]
      exact .upsert fun x hx => hC c List.mem_cons_self x (by rw [hcall]; exact hx)
    exact hfirst.trans (ih (fun c hc => hu c (List.mem_cons_of_mem _ hc)) fun c hc => hC c (List.mem_cons_of_mem _ hc))

/-- What is told leaves the rows their ids, or gives them the document of a file. -/
theorem told_descends (hfree : ∀ c ∈ told m a, ∀ oldFp newFp rebind now, c.2 = .retarget oldFp newFp rebind now →
      (m.db.queue.get oldFp).any retargetable = true → oldFp ≠ newFp → m.db.queue.inflight newFp = false) :
    Descends (fun rid => ¬ Absent m.db rid) m.db.queue (runAll m.db.queue (told m a)) := by
  have hC : ∀ c ∈ told m a, ∀ rid, brought c.2 = some rid → ¬ Absent m.db rid := fun c hc rid => told_brought hc
  rcases told_upserts (m := m) (a := a) with hu | ⟨i, oldFp, newFp, rebind, now, rest, he, hu⟩
  · exact upserts_descend hu hC
  · rw [he] at hC hfree ⊢
    have hfirst : Descends (fun rid => ¬ Absent m.db rid) m.db.queue (m.db.queue.retargetPendingCreate oldFp newFp rebind now).1 :=
      .retarget (fun x hx => hC _ List.mem_cons_self x hx) (hfree _ List.mem_cons_self oldFp newFp rebind now rfl)
    exact hfirst.trans (upserts_descend hu fun c hc => hC c (List.mem_cons_of_mem _ hc))

end Files

/-! ### Jobs and their rows -/

/-- The task has a job for the row, and owes the call that frees it. -/
def onRow (p : String) (k : Task) : Bool := decide (k.job.filepath = p) && k.phase.owes

theorem onRow_iff {p : String} {k : Task} : onRow p k = true ↔ k.job.filepath = p ∧ k.phase.owes = true := by
  unfold onRow
  rw [Bool.and_eq_true, decide_eq_true_iff]

/-- Each task that owes the call that frees its row holds it, and no other does. -/
structure Crewed (q : PushQueue) (tasks : List Task) : Prop where
  phases : ∀ k ∈ tasks, k.phase.owes = true ∨ ∃ status body, k.phase = .sibling status body
  held : ∀ k ∈ tasks, k.phase.owes = true → ∃ r, q.get k.job.filepath = some r ∧ r.inflight = true
  single : ∀ p, Drain.AtMostOne (onRow p) tasks

section Crew

variable {db db' : Db} {q q' : PushQueue} {tasks : List Task} {nowMs : ℤ} {n : ℕ} {k : Task} {next : Option Phase}
  {C : String → Prop}

theorem Crewed.none : Crewed q [] :=
  ⟨fun _ hk => (nomatch hk), fun _ hk => (nomatch hk), fun _ _ _ _ _ hx => (nomatch hx)⟩

theorem Crewed.drift (h : Crewed q tasks) (hd : Descends C q q') : Crewed q' tasks := by
  refine ⟨h.phases, fun k hk ho => ?_, h.single⟩
  obtain ⟨r, hr, hi⟩ := h.held k hk ho
  obtain ⟨r', hr', -, hi'⟩ := hd.held _ r hr hi
  exact ⟨r', hr', hi'⟩

theorem Crewed.claim (h : Crewed q tasks) {r : PushRow} (hr : q.get r.filepath = some r) (hidle : r.inflight = false) :
    Crewed (q.modify r.filepath (PushQueue.held nowMs)) (tasks ++ [⟨jobOf r, .start⟩]) := by
  have hget (p : String) : (q.modify r.filepath (PushQueue.held nowMs)).get p =
    if p = r.filepath then some (PushQueue.held nowMs r) else q.get p := get_claimed hr
  -- the row was idle, so that no task had it
  have hfree : ∀ x ∈ tasks, onRow r.filepath x = false := by
    intro x hx
    by_contra hon
    obtain ⟨hp, ho⟩ := onRow_iff.mp (by simpa using hon)
    obtain ⟨y, hy, hi⟩ := h.held x hx ho
    rw [hp, hr] at hy
    obtain rfl := Option.some.inj hy
    exact absurd (hidle.symm.trans hi) nofun
  refine ⟨fun x hx => ?_, fun x hx ho => ?_, fun p => ?_⟩
  · rcases List.mem_append.mp hx with hx | hx
    · exact h.phases x hx
    · rw [List.mem_singleton.mp hx]
      exact .inl rfl
  · rw [hget]
    rcases List.mem_append.mp hx with hx | hx
    · obtain ⟨y, hy, hi⟩ := h.held x hx ho
      have hne : x.job.filepath ≠ r.filepath := fun hp => by
        have hon := hfree x hx
        rw [onRow_iff.mpr ⟨hp, ho⟩] at hon
        cases hon
      rw [if_neg hne]
      exact ⟨y, hy, hi⟩
    · rw [List.mem_singleton.mp hx]
      exact ⟨_, if_pos rfl, rfl⟩
  · by_cases hp : r.filepath = p
    · subst hp
      exact Drain.atMostOne_append hfree
    · refine (h.single p).append_other ?_
      unfold onRow
      rw [decide_eq_false (show ¬ (jobOf r).filepath = p from hp)]
      rfl

/-- Two tasks do not owe the same row. -/
theorem Crewed.other (h : Crewed q tasks) {i : ℕ} {x : Task} (hk : tasks[n]? = some k) (ho : k.phase.owes = true)
    (hx : tasks[i]? = some x) (hne : i ≠ n) (hox : x.phase.owes = true) : x.job.filepath ≠ k.job.filepath := by
  intro hp
  have hfalse := (h.single k.job.filepath).other hk (onRow_iff.mpr ⟨rfl, ho⟩) hx hne
  rw [onRow_iff.mpr ⟨hp, hox⟩] at hfalse
  cases hfalse

theorem dbStep_phases {j : PushJob} {ph ph' : Phase} (h : Task.dbStep db j nowMs ph = some (db', some ph')) :
    ph.owes = true ∧ (ph'.owes = true ∨ ∃ status body, ph' = .sibling status body) := by
  cases ph with
  | start => cases h; exact ⟨rfl, .inl Task.begin_owes⟩
  | clearRemoteId | mapInode | mapRow | markMirrored | clearDirty => cases h; exact ⟨rfl, .inl rfl⟩
  | poison status body sib =>
    cases sib with
    | true => cases h; exact ⟨rfl, .inr ⟨status, body, rfl⟩⟩
    | false => cases h
  | succeed | fail | sibling | drop => cases h
  | wait | patch | post | upload | delete | lookup | rename => cases h

/-- A task that still owes the call holds its row. -/
theorem dbStep_holds {j : PushJob} {ph ph' : Phase} {r : PushRow} (h : Task.dbStep db j nowMs ph = some (db', some ph'))
    (ho : ph'.owes = true) (hr : db.queue.get j.filepath = some r) (hi : r.inflight = true) :
    ∃ r', db'.queue.get j.filepath = some r' ∧ r'.inflight = true := by
  cases ph with
  | start | mapInode | markMirrored | clearDirty => cases h; exact ⟨r, hr, hi⟩
  | clearRemoteId rid =>
    cases h
    refine ⟨{ r with remoteId := none }, ?_, hi⟩
    show (db.queue.setRemoteId j.filepath none).get j.filepath = _
    rw [get_setRemoteId, if_pos rfl, hr]
    rfl
  | mapRow ino rid =>
    cases h
    refine ⟨{ r with remoteId := some rid }, ?_, hi⟩
    show (db.queue.setRemoteId j.filepath (some rid)).get j.filepath = _
    rw [get_setRemoteId, if_pos rfl, hr]
    rfl
  | poison status body sib =>
    cases sib with
    | true =>
      cases h
      cases ho
    | false => cases h
  | succeed | fail | sibling | drop => cases h
  | wait | patch | post | upload | delete | lookup | rename => cases h

theorem Crewed.task (h : Crewed db.queue tasks) (hk : tasks[n]? = some k)
    (hd : Task.dbStep db k.job nowMs k.phase = some (db', next)) : Crewed db'.queue (Mount.putTask tasks n k next) := by
  have hmem : k ∈ tasks := List.mem_of_getElem? hk
  refine ⟨fun x hx => ?_, fun x hx ho => ?_, fun p => ?_⟩
  · rcases Mount.others_or_next hx with ⟨i, -, hi⟩ | ⟨ph, rfl, rfl⟩
    · exact h.phases x (List.mem_of_getElem? hi)
    · exact (dbStep_phases hd).2
  · rcases Mount.others_or_next hx with ⟨i, hne, hi⟩ | ⟨ph, rfl, rfl⟩
    · obtain ⟨r, hr, hri⟩ := h.held x (List.mem_of_getElem? hi) ho
      refine ⟨r, ?_, hri⟩
      rcases h.phases k hmem with hko | ⟨status, body, hph⟩
      · rw [Drain.dbStep_get (h.other hk hko hi hne ho) hd, hr]
      · rw [hph] at hd
        cases hd
        rw [createDerivedSibling_sameSync.queue, hr]
    · obtain ⟨r, hr, hri⟩ := h.held k hmem (dbStep_phases hd).1
      exact dbStep_holds hd ho hr hri
  · by_cases hon : onRow p k = true
    · exact ((h.single p).put hk hon next).1
    · refine (h.single p).put_other fun ph hnext => ?_
      subst hnext
      have hko := (dbStep_phases hd).1
      unfold onRow
      rw [decide_eq_false fun hp => hon (onRow_iff.mpr ⟨hp, hko⟩)]
      rfl

theorem Crewed.answer {timedOut : Bool} {answer : Answer} {ph : Phase} (h : Crewed q tasks) (hk : tasks[n]? = some k)
    (hn : Task.answered k.job timedOut k.phase answer = some ph) : Crewed q (tasks.set n { k with phase := ph }) := by
  have hmem : k ∈ tasks := List.mem_of_getElem? hk
  have hko : k.phase.owes = true := by
    rcases h.phases k hmem with hko | ⟨status, body, hph⟩
    · exact hko
    · rw [hph] at hn
      cases hn
  have hpo : ph.owes = true := Task.answered_owes hko hn
  refine ⟨fun x hx => ?_, fun x hx ho => ?_, fun p => ?_⟩
  · rcases List.mem_or_eq_of_mem_set hx with hx | rfl
    · exact h.phases x hx
    · exact .inl hpo
  · rcases List.mem_or_eq_of_mem_set hx with hx | rfl
    · exact h.held x hx ho
    · exact h.held k hmem hko
  · by_cases hon : onRow p k = true
    · exact ((h.single p).put hk hon (some ph)).1
    · have hput : Drain.AtMostOne (onRow p) (Mount.putTask tasks n k (some ph)) := by
        refine (h.single p).put_other fun ph' _ => ?_
        unfold onRow
        rw [decide_eq_false fun hp => hon (onRow_iff.mpr ⟨hp, hko⟩)]
        rfl
      exact hput

end Crew

/-! ### What is gone -/

/-- A task uses nothing that is gone for its row, and maps nothing that is gone for any; and what is gone for a row is
forgotten, or its job ends. -/
structure Clear (db : Db) (tasks : List Task) (gone : List (ℕ × String)) : Prop where
  bound : ∀ e ∈ gone, e.1 < db.queue.nextRowid
  uses : ∀ k ∈ tasks, k.phase.owes = true → ∀ r, db.queue.get k.job.filepath = some r →
    ∀ rid ∈ Vanished.uses k.job k.phase, (r.rowid, rid) ∉ gone
  maps : ∀ k ∈ tasks, ∀ rid, Maps rid k.phase → ∀ p r, db.queue.get p = some r → (r.rowid, rid) ∉ gone
  rows : ∀ p r, db.queue.get p = some r → ∀ rid, (r.rowid, rid) ∈ gone →
    Forgotten db r rid ∨ r.inflight = true ∧ ∃ k ∈ tasks, k.job.filepath = p ∧ Ends rid k.phase

section Gone

variable {db db' : Db} {tasks : List Task} {gone : List (ℕ × String)} {nowMs : ℤ} {n : ℕ} {k : Task} {next : Option Phase}
  {C : String → Prop}

/-- No file comes to have a document that is gone for a row. -/
def Keeps (db db' : Db) (gone : List (ℕ × String)) : Prop :=
  ∀ p r, db.queue.get p = some r → ∀ rid, (r.rowid, rid) ∈ gone → Absent db rid → Absent db' rid

/-- Without tasks, what is gone is forgotten. -/
theorem Clear.none (hbound : ∀ e ∈ gone, e.1 < db.queue.nextRowid)
    (hrows : ∀ p r, db.queue.get p = some r → ∀ rid, (r.rowid, rid) ∈ gone → Forgotten db r rid) : Clear db [] gone :=
  ⟨hbound, fun _ hk => (nomatch hk), fun _ hk => (nomatch hk), fun p r hr rid hgone => .inl (hrows p r hr rid hgone)⟩

theorem Clear.drift (h : Clear db tasks gone) (hc : Crewed db.queue tasks) (hd : Descends C db.queue db'.queue)
    (hkeep : Keeps db db' gone)
    (hC : ∀ p r, db.queue.get p = some r → ∀ rid, (r.rowid, rid) ∈ gone → Absent db rid → ¬ C rid) :
    Clear db' tasks gone := by
  refine ⟨fun e he => (h.bound e he).trans_le hd.next, fun k hk ho r hr rid hrid => ?_,
    fun k hk rid hm p r hr hmem => ?_,
    fun p r hr rid hmem => ?_⟩
  · obtain ⟨r₀, hr₀, hi₀⟩ := hc.held k hk ho
    obtain ⟨r', hr', hid, -⟩ := hd.held _ r₀ hr₀ hi₀
    obtain rfl := Option.some.inj (hr.symm.trans hr')
    rw [hid]
    exact h.uses k hk ho r₀ hr₀ rid hrid
  · rcases hd.rows p r hr with hnew | ⟨p₀, r₀, hr₀, hid, -, -, -⟩
    · exact absurd (h.bound _ hmem) (Nat.not_lt.mpr hnew)
    · exact h.maps k hk rid hm p₀ r₀ hr₀ (hid ▸ hmem)
  · rcases hd.rows p r hr with hnew | ⟨p₀, r₀, hr₀, hid, hi, hp, hrid⟩
    · exact absurd (h.bound _ hmem) (Nat.not_lt.mpr hnew)
    · rw [← hid] at hmem
      rcases h.rows p₀ r₀ hr₀ rid hmem with ⟨habs, hne⟩ | ⟨hi₀, k, hk, hkp, hends⟩
      · refine .inl ⟨hkeep p₀ r₀ hr₀ rid hmem habs, fun hr' => ?_⟩
        rcases hrid rid hr' with hr' | hr'
        · exact hne hr'
        · exact hC p₀ r₀ hr₀ rid hmem habs hr'
      · exact .inr ⟨hi.trans hi₀, k, hk, hkp.trans (hp hi₀), hends⟩

theorem Clear.claim (h : Clear db tasks gone) {r : PushRow} (hr : db.queue.get r.filepath = some r)
    (hidle : r.inflight = false)
    (hq : db'.queue = db.queue.modify r.filepath (PushQueue.held nowMs)) (hkeep : Keeps db db' gone) :
    Clear db' (tasks ++ [⟨jobOf r, .start⟩]) gone := by
  have hget (p : String) (x : PushRow) (hx : db'.queue.get p = some x) :
    ∃ y, db.queue.get p = some y ∧ x.rowid = y.rowid ∧
      x.remoteId = y.remoteId ∧ (y.inflight = true → x.inflight = true) := by
    rw [hq, get_claimed hr] at hx
    split_ifs at hx with hp
    · obtain rfl := Option.some.inj hx
      exact ⟨r, hp ▸ hr, rfl, rfl, fun _ => rfl⟩
    · exact ⟨x, hx, rfl, rfl, id⟩
  have hforgotten : ∀ rid, (r.rowid, rid) ∈ gone → Forgotten db r rid := by
    intro rid hmem
    rcases h.rows r.filepath r hr rid hmem with hf | ⟨hi, -⟩
    · exact hf
    · exact absurd (hidle.symm.trans hi) nofun
  refine ⟨fun e he => ?_, fun k hk ho x hx rid hrid => ?_, fun k hk rid hm p x hx => ?_, fun p x hx rid hmem => ?_⟩
  · rw [hq]
    exact h.bound e he
  · obtain ⟨y, hy, hid, -, -⟩ := hget _ x hx
    rw [hid]
    rcases List.mem_append.mp hk with hk | hk
    · exact h.uses k hk ho y hy rid hrid
    · obtain rfl := List.mem_singleton.mp hk
      obtain rfl := Option.some.inj (hr.symm.trans hy)
      exact fun hmem => (hforgotten rid hmem).2 (Option.mem_toList.mp hrid)
  · obtain ⟨y, hy, hid, -, -⟩ := hget p x hx
    rw [hid]
    rcases List.mem_append.mp hk with hk | hk
    · exact h.maps k hk rid hm p y hy
    · rw [List.mem_singleton.mp hk] at hm
      cases hm
  · obtain ⟨y, hy, hid, hrid, hi⟩ := hget p x hx
    rw [hid] at hmem
    rcases h.rows p y hy rid hmem with ⟨habs, hne⟩ | ⟨hyi, k, hk, hkp, hends⟩
    · exact .inl ⟨hkeep p y hy rid hmem habs, hrid ▸ hne⟩
    · exact .inr ⟨hi hyi, k, List.mem_append_left _ hk, hkp, hends⟩

/-- The row of a task after its call on the database. -/
theorem dbStep_own {j : PushJob} {ph : Phase} {r' : PushRow} (h : Task.dbStep db j nowMs ph = some (db', next))
    (hr' : db'.queue.get j.filepath = some r') : ∃ r, db.queue.get j.filepath = some r ∧ r'.rowid = r.rowid ∧
      (∀ rid, r'.remoteId = some rid → (r.remoteId = some rid ∧ ∀ rid, ph ≠ .clearRemoteId rid) ∨ Maps rid ph) ∧
      (ph = .succeed → r.pending.isSome = true) := by
  cases ph with
  | start | mapInode | markMirrored | clearDirty => cases h; exact ⟨r', hr', rfl, fun _ hx => .inl ⟨hx, nofun⟩, nofun⟩
  | clearRemoteId rid =>
    cases h
    have hget : (db.queue.setRemoteId j.filepath none).get j.filepath = some r' := hr'
    rw [get_setRemoteId, if_pos rfl] at hget
    obtain ⟨r, hr, rfl⟩ := Option.map_eq_some_iff.mp hget
    exact ⟨r, hr, rfl, nofun, nofun⟩
  | mapRow ino rid =>
    cases h
    have hget : (db.queue.setRemoteId j.filepath (some rid)).get j.filepath = some r' := hr'
    rw [get_setRemoteId, if_pos rfl] at hget
    obtain ⟨r, hr, rfl⟩ := Option.map_eq_some_iff.mp hget
    exact ⟨r, hr, rfl, fun x hx => .inr (Option.some.inj hx), nofun⟩
  | succeed =>
    cases h
    have hget : (db.queue.finalizeSuccess j.filepath nowMs).get j.filepath = some r' := hr'
    rw [get_finalizeSuccess, if_pos rfl] at hget
    obtain ⟨r, hr, hp⟩ := Option.bind_eq_some_iff.mp hget
    obtain ⟨pl, hpl, rfl⟩ := Option.map_eq_some_iff.mp hp
    exact ⟨r, hr, rfl, fun _ hx => .inl ⟨hx, nofun⟩, fun _ => Option.isSome_iff_exists.mpr ⟨pl, hpl⟩⟩
  | fail error bo =>
    cases h
    have hget : (db.queue.finalizeFailure j.filepath error nowMs bo).get j.filepath = some r' := hr'
    rw [get_finalizeFailure, if_pos rfl] at hget
    obtain ⟨r, hr, rfl⟩ := Option.map_eq_some_iff.mp hget
    exact ⟨r, hr, rfl, fun _ hx => .inl ⟨hx, nofun⟩, nofun⟩
  | poison status body sib =>
    cases h
    have hget : (db.queue.poison j.filepath status body nowMs).get j.filepath = some r' := hr'
    rw [get_poison, if_pos rfl] at hget
    obtain ⟨r, hr, rfl⟩ := Option.map_eq_some_iff.mp hget
    exact ⟨r, hr, rfl, fun _ hx => .inl ⟨hx, nofun⟩, nofun⟩
  | drop =>
    cases h
    have hget : (db.queue.drop j.filepath).get j.filepath = some r' := hr'
    rw [get_drop_self] at hget
    cases hget
  | sibling status body =>
    cases h
    rw [createDerivedSibling_sameSync.queue] at hr'
    exact ⟨r', hr', rfl, fun _ hx => .inl ⟨hx, nofun⟩, nofun⟩
  | wait | patch | post | upload | delete | lookup | rename => cases h

theorem dbStep_maps {j : PushJob} {ph ph' : Phase} {rid : String} (h : Task.dbStep db j nowMs ph = some (db', some ph'))
    (hm : Maps rid ph') : Maps rid ph := by
  cases ph with
  | mapInode ino r => cases h; exact hm
  | start =>
    cases h
    -- a job begins with a request, or is dropped
    unfold Task.begin at hm
    split at hm
    · split at hm
      · cases hm
      · dsimp only at hm
        split_ifs at hm
        · cases hm
        · split at hm <;> cases hm
    · split at hm
      · cases hm
      · dsimp only at hm
        split_ifs at hm
        · cases hm
        · split at hm <;> cases hm
    · split at hm <;> cases hm
    · cases hm
    · split at hm
      · cases hm
      · split at hm <;> cases hm
  | mapRow | clearRemoteId | markMirrored | clearDirty => cases h; cases hm
  | poison status body sib =>
    cases sib with
    | true =>
      cases h
      cases hm
    | false => cases h
  | succeed | fail | sibling | drop => cases h
  | wait | patch | post | upload | delete | lookup | rename => cases h

/-- A job that ends goes on to end, or has cleared the id, or has succeeded. -/
theorem dbStep_ends {j : PushJob} {ph : Phase} {rid : String} (h : Task.dbStep db j nowMs ph = some (db', next))
    (hends : Ends rid ph) : db'.queue = db.queue ∧ (∃ ph', next = some ph' ∧ Ends rid ph') ∨
      (ph = .clearRemoteId rid ∧ Absent db' rid) ∨ ph = .succeed := by
  cases ph with
  | clearRemoteId r =>
    cases h
    obtain rfl : r = rid := hends
    refine .inr (.inl ⟨rfl, fun x hx => ?_⟩)
    exact of_decide_eq_true (List.mem_filter.mp hx).2
  | markMirrored ino => cases h; exact .inl ⟨rfl, _, rfl, trivial⟩
  | clearDirty ino => cases h; exact .inl ⟨rfl, _, rfl, trivial⟩
  | succeed => exact .inr (.inr rfl)
  | start | wait | patch | post | upload | mapInode | mapRow | delete | lookup | rename | fail | poison | sibling | drop =>
    cases hends

theorem dbStep_next {j : PushJob} {ph : Phase} (h : Task.dbStep db j nowMs ph = some (db', next)) :
    db'.queue.nextRowid = db.queue.nextRowid := by
  cases ph with
  | start | mapInode | markMirrored | clearDirty | clearRemoteId | mapRow | fail | poison | drop => cases h; rfl
  | succeed =>
    cases h
    show (db.queue.finalizeSuccess j.filepath nowMs).nextRowid = _
    unfold finalizeSuccess
    split <;> rfl
  | sibling => cases h; rw [createDerivedSibling_sameSync.queue]
  | wait | patch | post | upload | delete | lookup | rename => cases h

theorem Clear.task (h : Clear db tasks gone) (hc : Crewed db.queue tasks) (hk : tasks[n]? = some k)
    (hd : Task.dbStep db k.job nowMs k.phase = some (db', next)) (hkeep : Keeps db db' gone)
    (hok : k.phase = .succeed → ∀ r, db.queue.get k.job.filepath = some r → r.pending.isSome = true →
      ∀ rid, (r.rowid, rid) ∈ gone → Forgotten db r rid) : Clear db' (Mount.putTask tasks n k next) gone := by
  have hmem : k ∈ tasks := List.mem_of_getElem? hk
  -- each row afterwards was there before
  have hrow (p : String) (r' : PushRow) (hr' : db'.queue.get p = some r') :
      ∃ r, db.queue.get p = some r ∧ r'.rowid = r.rowid := by
    by_cases hp : p = k.job.filepath
    · subst hp
      obtain ⟨r, hr, hid, -⟩ := dbStep_own hd hr'
      exact ⟨r, hr, hid⟩
    · rw [Drain.dbStep_get hp hd] at hr'
      exact ⟨r', hr', rfl⟩
  refine ⟨fun e he => ?_, fun x hx ho r' hr' rid hrid => ?_, fun x hx rid hm p r' hr' => ?_,
    fun p r' hr' rid hgone => ?_⟩
  · rw [dbStep_next hd]
    exact h.bound e he
  · obtain ⟨r, hr, hid⟩ := hrow _ r' hr'
    rw [hid]
    rcases Mount.others_or_next hx with ⟨i, -, hi⟩ | ⟨ph, rfl, rfl⟩
    · exact h.uses x (List.mem_of_getElem? hi) ho r hr rid hrid
    · exact h.uses k hmem (dbStep_phases hd).1 r hr rid (dbStep_uses hd rid hrid)
  · obtain ⟨r, hr, hid⟩ := hrow p r' hr'
    rw [hid]
    rcases Mount.others_or_next hx with ⟨i, -, hi⟩ | ⟨ph, rfl, rfl⟩
    · exact h.maps x (List.mem_of_getElem? hi) rid hm p r hr
    · exact h.maps k hmem rid (dbStep_maps hd hm) p r hr
  · by_cases hp : p = k.job.filepath
    · subst hp
      obtain ⟨r, hr, hid, hrid, hpend⟩ := dbStep_own hd hr'
      rw [hid] at hgone
      have hforgotten (hf : Forgotten db r rid) : Forgotten db' r' rid := by
        refine ⟨hkeep _ r hr rid hgone hf.1, fun he => ?_⟩
        rcases hrid rid he with ⟨he, -⟩ | hm
        · exact hf.2 he
        · exact h.maps k hmem rid hm _ r hr hgone
      rcases h.rows _ r hr rid hgone with hf | ⟨hi, x, hx, hxp, hends⟩
      · exact .inl (hforgotten hf)
      · obtain ⟨i, hxi⟩ := List.mem_iff_getElem?.mp hx
        by_cases hin : i = n
        · subst hin
          obtain rfl := Option.some.inj (hk.symm.trans hxi)
          rcases dbStep_ends hd hends with ⟨hq, ph, rfl, hends'⟩ | ⟨hph, habs⟩ | hph
          · rw [hq, hr] at hr'
            obtain rfl := Option.some.inj hr'
            refine .inr ⟨hi, { k with phase := ph }, ?_, rfl, hends'⟩
            exact List.mem_iff_getElem?.mpr ⟨i, List.getElem?_set_self (List.getElem?_eq_some_iff.mp hk).1⟩
          · refine .inl ⟨habs, fun he => ?_⟩
            rcases hrid rid he with ⟨-, hno⟩ | hm
            · exact hno rid hph
            · rw [hph] at hm
              cases hm
          · exact .inl (hforgotten (hok hph r hr (hpend hph) rid hgone))
        · rcases hc.phases k hmem with hko | ⟨status, body, hph⟩
          · exact absurd hxp (hc.other hk hko hxi hin hends.owes)
          · rw [hph] at hd
            cases hd
            rw [createDerivedSibling_sameSync.queue, hr] at hr'
            obtain rfl := Option.some.inj hr'
            exact .inr ⟨hi, x, Mount.mem_putTask_of_ne hxi hin, hxp, hends⟩
    · have hr : db.queue.get p = some r' := (Drain.dbStep_get hp hd).symm.trans hr'
      rcases h.rows p r' hr rid hgone with ⟨habs, hne⟩ | ⟨hi, x, hx, hxp, hends⟩
      · exact .inl ⟨hkeep p r' hr rid hgone habs, hne⟩
      · obtain ⟨i, hxi⟩ := List.mem_iff_getElem?.mp hx
        have hin : i ≠ n := by
          rintro rfl
          obtain rfl := Option.some.inj (hk.symm.trans hxi)
          exact hp hxp.symm
        exact .inr ⟨hi, x, Mount.mem_putTask_of_ne hxi hin, hxp, hends⟩

/-- The entries that a step adds. -/
theorem mem_newlyGone {m : Mount} {a : Changes.Act} {e : ℕ × String} (h : e ∈ newlyGone m a) : ∃ r ∈ m.db.queue.rows,
    vanished m a = some e.2 ∧ (r.remoteId = some e.2 ∨ some r.filepath = asker m a) ∧ e.1 = r.rowid := by
  unfold newlyGone at h
  cases hv : vanished m a with
  | none =>
    rw [hv] at h
    cases h
  | some rid =>
    rw [hv] at h
    obtain ⟨r, hr, rfl⟩ := List.mem_map.mp h
    obtain ⟨hmem, hor⟩ := List.mem_filter.mp hr
    exact ⟨r, hmem, rfl, of_decide_eq_true hor, rfl⟩

/-- What an answer adds is for the row of the job that asked, which ends. -/
theorem newly_answer {s : St} {answer : Answer} {timedOut : Bool} {ph : Phase} {e : ℕ × String}
    (hq : s.mount.db.queue.WF) (hk : s.mount.tasks[n]? = some k)
    (hn : Task.answered k.job timedOut k.phase answer = some ph)
    (hok : AnswerOk s k answer) (he : e ∈ newlyGone s.mount (.mount (.taskAnswer n answer timedOut))) :
    (∃ r, s.mount.db.queue.get k.job.filepath = some r ∧ e.1 = r.rowid) ∧ Vanished.uses k.job ph = [] ∧ Ends e.2 ph ∧
      ∀ x ∈ s.mount.tasks, ¬ Maps e.2 x.phase := by
  obtain ⟨r, hr, hv, hor, hid⟩ := mem_newlyGone he
  cases answer with
  | err err =>
    cases err with
    | notFound =>
      have hreq : requested k = some e.2 := by
        have hv : (s.mount.tasks[n]?).bind requested = some e.2 := hv
        rwa [hk] at hv
      obtain ⟨hrec, hrows, hmaps⟩ := hok e.2 hreq
      obtain ⟨huses, hends⟩ := recovers_ends (j := k.job) hrec hreq hn
      have hp : r.filepath = k.job.filepath := by
        rcases hor with hrid | hask
        · exact hrows r hr hrid
        · have hask : some r.filepath = (s.mount.tasks[n]?).map fun k => k.job.filepath := hask
          rw [hk] at hask
          exact Option.some.inj hask
      exact ⟨⟨r, hp ▸ hq.get_mem hr, hid⟩, huses, hends, hmaps⟩
    | _ => cases hv
  | ok | created | status | documents => cases hv

theorem Clear.answer {s : St} {answer : Answer} {timedOut : Bool} {ph : Phase}
    (h : Clear s.mount.db s.mount.tasks s.gone)
    (hq : s.mount.db.queue.WF) (hc : Crewed s.mount.db.queue s.mount.tasks) (hk : s.mount.tasks[n]? = some k)
    (hn : Task.answered k.job timedOut k.phase answer = some ph) (hok : AnswerOk s k answer) :
    Clear s.mount.db (s.mount.tasks.set n { k with phase := ph })
      (s.gone ++ newlyGone s.mount (.mount (.taskAnswer n answer timedOut))) := by
  have hmem : k ∈ s.mount.tasks := List.mem_of_getElem? hk
  have hput {x : Task} (hx : x ∈ s.mount.tasks.set n { k with phase := ph }) :
      (∃ i, i ≠ n ∧ s.mount.tasks[i]? = some x) ∨ x = { k with phase := ph } := by
    have hx : x ∈ Mount.putTask s.mount.tasks n k (some ph) := hx
    rcases Mount.others_or_next hx with hx | ⟨ph', hph', rfl⟩
    · exact .inl hx
    · obtain rfl := Option.some.inj hph'
      exact .inr rfl
  have hko : k.phase.owes = true := by
    rcases hc.phases k hmem with hko | ⟨status, body, hph⟩
    · exact hko
    · rw [hph] at hn
      cases hn
  -- an entry that is new for a row is for the row of the job
  have hnew {p : String} {r : PushRow} {rid : String} (hr : s.mount.db.queue.get p = some r)
      (he : (r.rowid, rid) ∈ newlyGone s.mount (.mount (.taskAnswer n answer timedOut))) :
      p = k.job.filepath ∧ Vanished.uses k.job ph = [] ∧ Ends rid ph ∧ ∀ x ∈ s.mount.tasks, ¬ Maps rid x.phase := by
    obtain ⟨⟨x, hx, hid⟩, hrest⟩ := newly_answer hq hk hn hok he
    obtain rfl : r = x := hq.rowid_inj (Table.get_some hr).1 (Table.get_some hx).1 hid
    exact ⟨(Table.get_some hr).2.symm.trans (Table.get_some hx).2, hrest⟩
  refine ⟨fun e he => ?_, fun x hx ho r hr rid hrid => ?_, fun x hx rid hm p r hr => ?_, fun p r hr rid hgone => ?_⟩
  · rcases List.mem_append.mp he with he | he
    · exact h.bound e he
    · obtain ⟨⟨r, hr, hid⟩, -⟩ := newly_answer hq hk hn hok he
      rw [hid]
      exact hq.fresh r (Table.get_some hr).1
  · intro hin
    rcases hput hx with ⟨i, hne, hi⟩ | rfl
    · rcases List.mem_append.mp hin with hgone | hgone
      · exact h.uses x (List.mem_of_getElem? hi) ho r hr rid hrid hgone
      · exact hc.other hk hko hi hne ho (hnew hr hgone).1
    · rcases List.mem_append.mp hin with hgone | hgone
      · rcases answered_uses hn rid hrid with hold | rfl | ⟨ids, rfl, hids⟩
        · exact h.uses k hmem hko r hr rid hold hgone
        · exact hok r (Table.get_some hr).1 hgone
        · exact hok rid hids r (Table.get_some hr).1 hgone
      · have hnil := (hnew hr hgone).2.1
        exact List.ne_nil_of_mem hrid hnil
  · intro hin
    rcases List.mem_append.mp hin with hgone | hgone
    · rcases hput hx with ⟨i, -, hi⟩ | rfl
      · exact h.maps x (List.mem_of_getElem? hi) rid hm p r hr hgone
      · rcases answered_maps hn hm with hm | rfl
        · exact h.maps k hmem rid hm p r hr hgone
        · exact hok r (Table.get_some hr).1 hgone
    · obtain ⟨-, hnil, -, hmaps⟩ := hnew hr hgone
      rcases hput hx with ⟨i, -, hi⟩ | rfl
      · exact hmaps x (List.mem_of_getElem? hi) hm
      · exact List.ne_nil_of_mem (maps_uses hm) hnil
  · rcases List.mem_append.mp hgone with hgone | hgone
    · rcases h.rows p r hr rid hgone with hf | ⟨hi, x, hx, hxp, hends⟩
      · exact .inl hf
      · obtain ⟨i, hxi⟩ := List.mem_iff_getElem?.mp hx
        have hin : i ≠ n := by
          rintro rfl
          obtain rfl := Option.some.inj (hk.symm.trans hxi)
          rw [hends.unanswered] at hn
          cases hn
        have hput : x ∈ Mount.putTask s.mount.tasks n k (some ph) := Mount.mem_putTask_of_ne hxi hin
        exact .inr ⟨hi, x, hput, hxp, hends⟩
    · obtain ⟨rfl, -, hends, -⟩ := hnew hr hgone
      obtain ⟨x, hx, hi⟩ := hc.held k hmem hko
      obtain rfl := Option.some.inj (hr.symm.trans hx)
      refine .inr ⟨hi, { k with phase := ph }, ?_, rfl, hends⟩
      exact List.mem_iff_getElem?.mpr ⟨n, List.getElem?_set_self (List.getElem?_eq_some_iff.mp hk).1⟩

end Gone

/-! ### Runs -/

section Run

variable {s t : St} {a : Changes.Act} {m : Mount}

/-- Only a task's answer adds an entry. -/
theorem newly_nil (hok : Ok s a) (hne : ∀ n answer timedOut, a ≠ .mount (.taskAnswer n answer timedOut)) :
    newlyGone s.mount a = [] := by
  refine List.eq_nil_iff_forall_not_mem.mpr fun e he => ?_
  obtain ⟨r, hr, hv, hor, -⟩ := mem_newlyGone he
  cases a with
  | setattr | name => cases hv
  | mount b =>
    cases b with
    | poll row processing terminal now =>
      rcases hor with hrid | hask
      · exact hok e.2 hv r hr hrid
      · cases hask
    | taskAnswer n answer timedOut => exact hne n answer timedOut rfl
    | createFile | write | truncate | flush | unlink | rename | reconcile | applyDeletion | rehydrate | claim | taskDb | crash =>
      cases hv

/-- No retarget moves a row over one that a worker holds. -/
theorem retarget_free (hok : Ok s a) {c : Ino × Told} (hc : c ∈ told s.mount a) {oldFp newFp : String}
    {rebind : Option String}
    {now : ℤ} (he : c.2 = .retarget oldFp newFp rebind now) (hre : (s.mount.db.queue.get oldFp).any retargetable = true)
    (hfp : oldFp ≠ newFp) : s.mount.db.queue.inflight newFp = false := by
  have hno (hu : Upserts (told s.mount a)) : s.mount.db.queue.inflight newFp = false := by
    obtain ⟨fp, pl, rid, now', hcall⟩ := hu c hc
    rw [he] at hcall
    cases hcall
  cases a with
  | setattr => exact hno upserts_nil
  | name op now' =>
    cases op with
    | rename p n p' n' => exact hok c hc oldFp newFp rebind now he hre hfp
    | unlink p n => exact hno unlink_upserts
    | mkdir | rmdir | createFile | symlink | link => exact hno upserts_nil
  | mount b =>
    cases b with
    | rename p n p' n' now' => exact hok c hc oldFp newFp rebind now he hre hfp
    | flush f now' => exact hno flush_upserts
    | unlink p n now' => exact hno unlink_upserts
    | createFile | write | truncate | reconcile | applyDeletion | rehydrate | poll | claim | taskDb | taskAnswer | crash =>
      exact hno upserts_nil

/-- What holds in every state that such a run reaches. -/
structure Inv (s : St) : Prop where
  sorted : Sorted s.mount.db
  wf : s.mount.db.queue.WF
  crewed : Crewed s.mount.db.queue s.mount.tasks
  clear : Clear s.mount.db s.mount.tasks s.gone

theorem Inv.start : Inv init where
  sorted := .nil
  wf := empty_wf
  crewed := .none
  clear := .none (fun _ he => (nomatch he)) fun _ _ _ _ he => (nomatch he)

/-- No file comes to have a document that is gone for a row. -/
theorem Inv.keeps (h : Inv s) (hok : Ok s a) (hm : Changes.step s.mount a = some m) : Keeps s.mount.db m.db s.gone := by
  intro p r hr rid hgone habs
  refine Many.absent (step_changes h.sorted hm) (fun i hmap => ?_) habs
  rcases permit_map hmap with hno | ⟨doc, now, rfl, rfl, hid, hdone⟩ | ⟨n, now, k, rfl, hk, hmaps⟩
  · exact hno habs
  · exact hok hid hdone r (Table.get_some hr).1 hgone
  · exact h.clear.maps k (List.mem_of_getElem? hk) rid hmaps p r hr hgone

theorem answer_inv {n : ℕ} {answer : Answer} {timedOut : Bool} (h : Inv s)
    (hok : Ok s (.mount (.taskAnswer n answer timedOut)))
    (hst : step s (.mount (.taskAnswer n answer timedOut)) = some t) : Inv t := by
  obtain ⟨m, hm, rfl⟩ := Option.map_eq_some_iff.mp hst
  obtain ⟨k, next, hk, hn, rfl⟩ := Drain.answer_cases hm
  exact ⟨h.sorted, h.wf, h.crewed.answer hk hn, h.clear.answer h.wf h.crewed hk hn (hok k hk)⟩

theorem step_inv (h : Inv s) (hok : Ok s a) (hst : step s a = some t) : Inv t := by
  by_cases hans : ∃ n answer timedOut, a = .mount (.taskAnswer n answer timedOut)
  · obtain ⟨n, answer, timedOut, rfl⟩ := hans
    exact answer_inv h hok hst
  obtain ⟨m, hm, rfl⟩ := Option.map_eq_some_iff.mp hst
  rw [newly_nil hok fun n answer timedOut ha => hans ⟨n, answer, timedOut, ha⟩, List.append_nil]
  have hkeep : Keeps s.mount.db m.db s.gone := h.keeps hok hm
  have hsorted : Sorted m.db := Many.sorted (step_changes h.sorted hm) h.sorted
  cases step_moves hm with
  | told hq ht =>
    have hd : Descends (fun rid => ¬ Absent s.mount.db rid) s.mount.db.queue m.db.queue :=
      hq ▸ told_descends fun c hc oldFp newFp rebind now he => retarget_free hok hc he
    refine ⟨hsorted, hq ▸ told_wf h.wf, ht ▸ h.crewed.drift hd, ht ▸ h.clear.drift h.crewed hd hkeep ?_⟩
    exact fun _ _ _ _ _ habs hno => hno habs
  | mapped doc now ha hid hdone hq ht =>
    subst ha
    have hd : Descends (· = doc.id) s.mount.db.queue m.db.queue :=
      hq ▸ .setRemoteId fun x hx => (Option.some.inj hx).symm
    refine ⟨hsorted, hq ▸ h.wf.setRemoteId doc.path (some doc.id), ht ▸ h.crewed.drift hd, ?_⟩
    refine ht ▸ h.clear.drift h.crewed hd hkeep fun p r hr rid hgone _ he => ?_
    subst he
    exact hok hid hdone r (Table.get_some hr).1 hgone
  | claim now j hc ht =>
    have hwf : m.db.queue.WF := h.wf.claimNext hc
    obtain ⟨r, hr, hclaim, rfl, -, hq⟩ := claimNext_spec hc
    have hg : s.mount.db.queue.get r.filepath = some r := h.wf.get_mem hr
    have hidle : r.inflight = false := (claimable_iff.mp hclaim).1
    exact ⟨hsorted, hwf, by rw [hq, ht]; exact h.crewed.claim hg hidle, ht ▸ h.clear.claim hg hidle hq hkeep⟩
  | task n now k next ha hk hd ht =>
    subst ha
    refine ⟨hsorted, Drain.dbStep_wf h.wf hd, ht ▸ h.crewed.task hk hd, ht ▸ h.clear.task h.crewed hk hd hkeep ?_⟩
    exact fun hph r hr hpend => hok k r hk hph hr hpend
  | answer n answer timedOut k next ha => exact absurd ⟨n, answer, timedOut, ha⟩ hans
  | crash ha hq ht =>
    subst ha
    refine ⟨hsorted, hq ▸ h.wf, ht ▸ Crewed.none, ht ▸ .none (fun e he =>
      hq ▸ h.clear.bound e he) fun p r hr rid hgone => ?_⟩
    rw [hq] at hr
    obtain ⟨habs, hne⟩ := hok r (Table.get_some hr).1 rid hgone
    exact ⟨hkeep p r hr rid hgone habs, hne⟩

theorem Inv.no_wedge (h : Inv s) : Unwedged s := by
  refine ⟨fun k hk r hr rid hreq => ?_, fun r hr rid hrid hgone => ?_⟩
  · rcases h.crewed.phases k hk with ho | ⟨status, body, hph⟩
    · exact h.clear.uses k hk ho r hr rid (requested_uses hreq)
    · unfold requested at hreq
      rw [hph] at hreq
      cases hreq
  · rcases h.clear.rows r.filepath r (h.wf.get_mem hr) rid hgone with hf | hheld
    · exact absurd hrid hf.2
    · exact hheld

/-- A row is rid of an id that is gone, as long as each 404 is heard by a `PATCH` with content or by the last wait of a
job, and nothing brings the id back. -/
theorem unwedged (h : Reach step Ok init s) : Unwedged s := by
  have hinv : Inv s := h.inv .start fun _ _ _ hI hok hst => step_inv hI hok hst
  exact hinv.no_wedge

private def patches : Phase → Bool
  | .patch .. => true
  | _ => false

private theorem patches_cases {ph : Phase} (h : patches ph = true) : ∃ i c r, ph = .patch i c r := by
  unfold patches at h
  split at h
  · exact ⟨_, _, _, rfl⟩
  · cases h

/-- Steps of a run on one row whose `PATCH` hears a 404. -/
private def tame (s : St) : Changes.Act → Bool
  | .mount (.reconcile ..) => s.gone.isEmpty
  | .mount (.write ..) | .mount (.flush ..) | .mount (.claim _) => true
  | .mount (.taskDb n _) => (s.mount.tasks[n]?).all fun k => k.phase ≠ .succeed
  | .mount (.taskAnswer n (.err .notFound) _) =>
    (s.mount.tasks[n]?).all fun k => s.mount.db.queue.rows.all (fun r => r.filepath = k.job.filepath) &&
      s.mount.tasks.all fun x => patches x.phase
  | .mount (.taskAnswer _ (.status _) _) => true
  | _ => false

private theorem tame_ok {s : St} {a : Changes.Act} (h : tame s a = true) : Ok s a := by
  cases a with
  | setattr | name => cases h
  | mount b =>
    cases b with
    | reconcile doc now =>
      have hnil : s.gone = [] := List.isEmpty_iff.mp h
      intro _ _ r _
      rw [hnil]
      exact List.not_mem_nil
    | write | flush | claim => trivial
    | taskDb n now =>
      intro k r hk hph
      have h : (s.mount.tasks[n]?).all (fun k => k.phase ≠ .succeed) = true := h
      rw [hk] at h
      exact absurd hph (of_decide_eq_true h)
    | taskAnswer n answer timedOut =>
      intro k hk
      cases answer with
      | status => trivial
      | err e =>
        cases e with
        | notFound =>
          unfold tame at h
          dsimp only at h
          rw [hk, Option.all_some, Bool.and_eq_true, List.all_eq_true, List.all_eq_true] at h
          obtain ⟨hrows, htasks⟩ := h
          have hpatch (x : Task) (hx : x ∈ s.mount.tasks) : ∃ i c r, x.phase = .patch i c r :=
            patches_cases (htasks x hx)
          refine fun rid _ => ⟨?_, fun r hr _ => of_decide_eq_true (hrows r hr), fun x hx hm => ?_⟩
          · obtain ⟨i, c, r, hph⟩ := hpatch k (List.mem_of_getElem? hk)
            rw [hph]
            trivial
          · obtain ⟨i, c, r, hph⟩ := hpatch x hx
            rw [hph] at hm
            exact hm
        | _ => cases h
      | ok | created | documents => cases h
    | createFile | truncate | unlink | rename | applyDeletion | rehydrate | poll | crash => cases h

/-- A note of the server. -/
private def memo : Document := ⟨"A", some "/a.md", some [97], "done", "2026-01-01T00:00:00Z", some "text", none⟩

/-- The note is edited, and its `PATCH` hears a 404: the next job for the row makes a new document. -/
theorem unwedged_patch : ∃ s, Reach step Ok init s ∧ s.gone = [(1, "A")] ∧
    s.mount.tasks.map Task.phase = [.post 2 [98]] ∧ Unwedged s := by
  obtain ⟨s, hreach, hs⟩ : ∃ s, Reach step (fun s a => tame s a = true) init s ∧
      decide (s.gone = [(1, "A")] ∧ s.mount.tasks.map Task.phase = [.post 2 [98]]) = true :=
    Reach.exists_of_run
      [.mount (.reconcile memo 0), .mount (.write ⟨2, true, some "/a.md"⟩ 0 [98] 0),
       .mount (.flush ⟨2, true, some "/a.md"⟩ 0), .mount (.claim 5000), .mount (.taskDb 0 5000),
       .mount (.taskAnswer 0 (.status "done") false), .mount (.taskAnswer 0 (.err .notFound) false),
       .mount (.taskDb 0 5000), .mount (.taskDb 0 5000), .mount (.claim 9000), .mount (.taskDb 0 9000)] (by decide)
  have hok : Reach step Ok init s := hreach.mono fun _ _ => tame_ok
  obtain ⟨hgone, hphase⟩ := of_decide_eq_true hs
  exact ⟨s, hok, hgone, hphase, unwedged hok⟩

/-- The note is renamed, and the server has it no more: the job fails, and the next one asks for it again. -/
theorem asks_again : ¬ ∀ s, Reach step anyStep init s → Unwedged s := by
  intro hall
  obtain ⟨s, hreach, hs⟩ : ∃ s, Reach step anyStep init s ∧ decide
      (s.gone = [(1, "A")] ∧ s.mount.tasks.map (fun k => (k.job.filepath, requested k)) = [("/a.md", some "A")] ∧
        (s.mount.db.queue.get "/a.md").map PushRow.rowid = some 1) = true :=
    Reach.exists_of_run
      [.mount (.reconcile memo 0), .mount (.rename ROOT_INO "a.md" ROOT_INO "b.md" 1), .mount (.claim 5000),
       .mount (.taskDb 0 5000), .mount (.taskAnswer 0 (.status "done") false),
       .mount (.taskAnswer 0 (.err .notFound) false), .mount (.taskDb 0 5000), .mount (.claim 99000),
       .mount (.taskDb 0 99000)] (by decide)
  obtain ⟨hgone, htasks, hrow⟩ := of_decide_eq_true hs
  obtain ⟨r, hr, hid⟩ := Option.map_eq_some_iff.mp hrow
  obtain ⟨k, hk, hjob⟩ : ∃ k ∈ s.mount.tasks, (k.job.filepath, requested k) = ("/a.md", some "A") :=
    List.mem_map.mp (htasks ▸ List.mem_singleton_self _)
  obtain ⟨hp, hreq⟩ := Prod.mk.inj hjob
  have hno := (hall s hreach).requests k hk r (hp ▸ hr) "A" hreq
  rw [hid, hgone] at hno
  exact hno (List.mem_singleton_self _)

end Run

end Vanished
end Smfs
