/-
# The push worker and the status poller

`process_job` (`sync/push.rs`) as a machine. A task is a claimed job and the
phase it is in: either it is about to make one call on the database
(`Task.dbStep`), or it waits for the answer to one request (`Task.call`,
`Task.answered`). Between two phases anything else may run. The answers are
the server's; that a deadline has passed is part of what a task hears.

Key definitions: `ApiError`, `Call`, `Phase`, `Task`, `Task.dbStep`, `Task.call`,
`Task.answered`, `stuckTier`, `pollRow`.
-/
import Smfs.Reconcile

namespace Smfs

/-- `ApiError`. -/
inductive ApiError
  | network (msg : String)
  | auth
  | notFound
  | conflict (msg : String)
  | rateLimited
  | rejected (status : ℕ) (body : String)
  | server (status : ℕ) (body : String)
  deriving DecidableEq, Repr

/-- `to_string` of an error. -/
def ApiError.text : ApiError → String
  | .network msg => "network error: " ++ msg
  | .auth => "auth failed (401)"
  | .notFound => "not found (404)"
  | .conflict msg => "conflict (409): " ++ msg
  | .rateLimited => "rate limited (429)"
  | .rejected status body => "rejected (" ++ toString status ++ "): " ++ body
  | .server status body => "server error (" ++ toString status ++ "): " ++ body

/-- `backoff_ms`. -/
def backoffMs (attempt : ℤ) : ℤ :=
  if attempt = 0 then 500
  else if attempt = 1 then 1000
  else if attempt = 2 then 2000
  else if attempt = 3 then 5000
  else if attempt = 4 then 15000
  else if attempt = 5 then 30000
  else 60000

/-- `PUSH_CONCURRENCY`. -/
def PUSH_CONCURRENCY : ℕ := 8

/-- The requests of the push worker. -/
inductive Call
  | getDocument (id : String)
  | updateDocument (id filepath : String) (content : Option Bytes)
  | createDocument (content : Bytes) (filepath : String)
  | createDocumentMultipart (content : Bytes) (filepath : String)
  | deleteDocumentsByIds (id : String)
  | deleteDocuments (filepath : String)
  | listDocuments (filepath : String)
  deriving DecidableEq, Repr

/-- What a task hears: the server's answer to its request. -/
inductive Answer
  | ok
  | created (id : String)
  | status (status : String)
  | documents (ids : List String)
  | err (e : ApiError)
  deriving DecidableEq, Repr

/-- Where a task stands in `process_job`. -/
inductive Phase
  | start
  /-- `wait_until_done`; its result is used nowhere. -/
  | wait (remoteId : String) (next : Phase)
  | patch (ino : Ino) (content : Bytes) (remoteId : String)
  | post (ino : Ino) (content : Bytes)
  | upload (ino : Ino) (content : Bytes)
  | clearRemoteId (remoteId : String)
  | mapInode (ino : Ino) (remoteId : String)
  | mapRow (ino : Ino) (remoteId : String)
  | markMirrored (ino : Ino)
  | clearDirty (ino : Ino)
  | delete
  | lookup (newFp : String)
  | rename (newFp remoteId : String)
  | succeed
  | fail (error : String) (backoff : ℤ)
  | poison (status : ℕ) (body : String) (withSibling : Bool)
  | sibling (status : ℕ) (body : String)
  | drop
  deriving DecidableEq, Repr

/-- A task of the push worker. -/
structure Task where
  job : PushJob
  phase : Phase
  deriving DecidableEq, Repr

/-- The call that frees the task's row is still to come. -/
def Phase.owes : Phase → Bool
  | .sibling _ _ => false
  | .wait _ next => next.owes
  | _ => true

namespace Task

/-- The text of the error sibling of a rejected file. -/
def rejectionText (status : ℕ) (body : String) : String :=
  "smfs: server rejected this file (HTTP " ++ toString status ++ ").\n\nreason: " ++ body ++
  "\n\nTo retry, delete this error file and re-copy the source.\n"

/-- Where `process_job` goes after it has matched on the operation and read the content. -/
def begin (db : Db) (j : PushJob) : Phase :=
  match j.op with
  | .create | .update =>
    match j.contentIno with
    | none => .drop
    | some ino =>
      let content := db.readAllContent ino
      -- non-UTF-8 goes through multipart, whether or not the document exists
      if !validUtf8 content then .upload ino content
      else match j.remoteId with
        | some remoteId => .wait remoteId (.patch ino content remoteId)
        | none => .post ino content
  | .uploadBinary =>
    match j.contentIno with
    | none => .drop
    | some ino => .upload ino (db.readAllContent ino)
  | .delete => .delete
  | .rename =>
    match j.renameTo with
    | none => .drop
    | some newFp =>
      match j.remoteId with
      | some remoteId => .wait remoteId (.rename newFp remoteId)
      | none => .lookup newFp

/-- A call on the database; `none` as the next phase ends the task. -/
def dbStep (db : Db) (j : PushJob) (nowMs : ℤ) : Phase → Option (Db × Option Phase)
  | .start => some (db, some (begin db j))
  | .clearRemoteId rid =>
    some (db.clearRemoteIdAfter404 j.filepath rid, some (.fail "patch_404_retry_create" 0))
  | .mapInode ino rid => some (db.setRemoteId ino rid, some (.mapRow ino rid))
  | .mapRow ino rid =>
    some ({ db with queue := db.queue.setRemoteId j.filepath (some rid) },
      some (.wait rid (.markMirrored ino)))
  | .markMirrored ino =>
    some (db.setMirroredState ino none (some "done") (some nowMs), some (.clearDirty ino))
  | .clearDirty ino => some (db.setDirtySince ino none, some .succeed)
  | .succeed => some ({ db with queue := db.queue.finalizeSuccess j.filepath nowMs }, none)
  | .fail error backoff =>
    some ({ db with queue := db.queue.finalizeFailure j.filepath error nowMs backoff }, none)
  | .poison status body withSibling =>
    some ({ db with queue := db.queue.poison j.filepath status body nowMs },
      if withSibling then some (.sibling status body) else none)
  | .sibling status body =>
    some ((Fs.createDerivedSibling db (j.filepath ++ ".smfs-error.txt")
      (bytesOf (rejectionText status body))).2, none)
  | .drop => some ({ db with queue := db.queue.drop j.filepath }, none)
  | .wait .. | .patch .. | .post .. | .upload .. | .delete | .lookup .. | .rename .. => none

/-- The request a task waits for. -/
def call (j : PushJob) : Phase → Option Call
  | .wait rid _ => some (.getDocument rid)
  | .patch _ content rid => some (.updateDocument rid j.filepath (some content))
  | .post _ content => some (.createDocument content j.filepath)
  | .upload _ content => some (.createDocumentMultipart content j.filepath)
  | .delete =>
    match j.remoteId with
    | some rid => some (.deleteDocumentsByIds rid)
    | none => some (.deleteDocuments j.filepath)
  | .lookup _ => some (.listDocuments j.filepath)
  | .rename newFp rid => some (.updateDocument rid newFp none)
  | _ => none

/-- Where an error leads that is neither a 404 of a `PATCH` with content nor a rejection. -/
def failed (j : PushJob) (error : String) : Phase := .fail error (backoffMs j.attempt)

/-- Where a task goes with the answer to its request. -/
def answered (j : PushJob) (timedOut : Bool) : Phase → Answer → Option Phase
  | .wait rid next, .status status =>
    if status = "done" || timedOut then some next else some (.wait rid next)
  | .wait rid next, .err e => if e = .notFound || timedOut then some next else some (.wait rid next)
  | .patch ino _ rid, .ok => some (.wait rid (.markMirrored ino))
  | .patch _ _ rid, .err e =>
    match e with
    | .notFound => some (.clearRemoteId rid)
    | .rejected status body => some (.poison status body true)
    | e => some (failed j e.text)
  | .post ino _, .created rid | .upload ino _, .created rid => some (.mapInode ino rid)
  | .post _ _, .err e | .upload _ _, .err e =>
    match e with
    | .rejected status body => some (.poison status body true)
    | e => some (failed j e.text)
  | .delete, .ok => some .succeed
  | .delete, .err e =>
    match e with
    | .rejected status body => some (.poison status body false)
    | e => some (failed j e.text)
  | .lookup newFp, .documents ids =>
    match ids.head? with
    | some rid => some (.wait rid (.rename newFp rid))
    | none => some .succeed
  | .lookup _, .err e => some (failed j ("rename lookup: " ++ e.text))
  | .rename _ rid, .ok => some (.wait rid .succeed)
  | .rename _ _, .err e =>
    match e with
    | .rejected status body => some (.poison status body false)
    | e => some (failed j e.text)
  | _, _ => none

/-! ### What a task's step does to its row -/

section Lemmas

open PushQueue

variable {db db' : Db} {j : PushJob} {nowMs : ℤ}

theorem begin_owes : (begin db j).owes = true := by
  unfold begin
  cases j.op with
  | create | update =>
    cases j.contentIno with
    | none => rfl
    | some ino =>
      dsimp only
      split_ifs
      · rfl
      · cases j.remoteId <;> rfl
  | uploadBinary => cases j.contentIno <;> rfl
  | delete => rfl
  | rename =>
    cases j.renameTo with
    | none => rfl
    | some newFp => cases j.remoteId <;> rfl

theorem answered_owes {timedOut : Bool} {ph ph' : Phase} {a : Answer} (h : ph.owes = true)
    (ha : answered j timedOut ph a = some ph') : ph'.owes = true := by
  unfold answered at ha
  -- one case for each phase and the answers it may hear
  split at ha <;> (try split_ifs at ha) <;> (try split at ha) <;> cases ha <;> exact h

/-- A task that waits goes on waiting, or on to its next phase. -/
theorem answered_wait {timedOut : Bool} {rid : String} {ph next : Phase} {a : Answer}
    (ha : answered j timedOut (.wait rid ph) a = some next) : next = ph ∨ next = .wait rid ph := by
  cases a with
  | status status =>
    unfold answered at ha
    dsimp only at ha
    split_ifs at ha <;> cases ha
    · exact .inl rfl
    · exact .inr rfl
  | err e =>
    unfold answered at ha
    dsimp only at ha
    split_ifs at ha <;> cases ha
    · exact .inl rfl
    · exact .inr rfl
  | ok | created | documents => cases ha

/-- The calls that free a row. -/
inductive Frees (q : PushQueue) (p : String) : PushQueue → Prop
  | success (now : ℤ) : Frees q p (q.finalizeSuccess p now)
  | failure (error : String) (now bo : ℤ) : Frees q p (q.finalizeFailure p error now bo)
  | poison (status : ℕ) (reason : String) (now : ℤ) : Frees q p (q.poison p status reason now)
  | drop : Frees q p (q.drop p)

theorem Frees.wf {q q' : PushQueue} {p : String} (h : Frees q p q') (hq : q.WF) : q'.WF := by
  cases h with
  | success now => exact hq.finalizeSuccess p now
  | failure error now bo => exact hq.finalizeFailure p error now bo
  | poison status reason now => exact hq.poison p status reason now
  | drop => exact hq.drop p

/-- The row is free afterwards, and the others are as they were. -/
theorem Frees.inflight {q q' : PushQueue} {p p' : String} (h : Frees q p q') (hi : q'.inflight p' = true) :
    q.inflight p' = true ∧ p' ≠ p := by
  obtain ⟨r, hr, hri⟩ := inflight_eq_true.mp hi
  by_cases hp : p' = p
  · subst hp
    exfalso
    cases h with
    | success now =>
      rw [get_finalizeSuccess, if_pos rfl] at hr
      obtain ⟨x, -, hx⟩ := Option.bind_eq_some_iff.mp hr
      obtain ⟨pl, -, rfl⟩ := Option.map_eq_some_iff.mp hx
      cases hri
    | failure error now bo =>
      rw [get_finalizeFailure, if_pos rfl] at hr
      obtain ⟨x, -, rfl⟩ := Option.map_eq_some_iff.mp hr
      cases hri
    | poison status reason now =>
      rw [get_poison, if_pos rfl] at hr
      obtain ⟨x, -, rfl⟩ := Option.map_eq_some_iff.mp hr
      cases hri
    | drop =>
      rw [get_drop_self] at hr
      cases hr
  · refine ⟨inflight_eq_true.mpr ⟨r, ?_, hri⟩, hp⟩
    cases h with
    | success now => rwa [get_finalizeSuccess, if_neg hp] at hr
    | failure error now bo => rwa [get_finalizeFailure, if_neg hp] at hr
    | poison status reason now => rwa [get_poison, if_neg hp] at hr
    | drop => rwa [get_drop, if_neg hp] at hr

/-- The one step of a task that touches the mark of a file. -/
theorem dbStep_keeps {i : Ino} {ph : Phase} {next : Option Phase} (hi : i < db.nextIno)
    (hd : Fs.NotDerived db i) (hph : ph ≠ .clearDirty i) (h : dbStep db j nowMs ph = some (db', next)) :
    db.Keeps i db' := by
  cases ph with
  | start => cases h; exact .refl _ _
  | clearDirty ino =>
    cases h
    exact Db.keeps_updInode (fun _ => rfl) fun he => hph (he ▸ rfl)
  | sibling status body => cases h; exact Fs.createDerivedSibling_keeps hi hd
  | clearRemoteId | mapInode | mapRow | markMirrored | succeed | fail | poison | drop =>
    cases h
    exact .of_eq rfl rfl rfl
  | wait | patch | post | upload | delete | lookup | rename => cases h

/-- A step of a task either frees its row, or leaves the held marks alone
and, if it owed the call that frees it, still owes it. -/
theorem dbStep_queue {ph : Phase} {next : Option Phase} (h : dbStep db j nowMs ph = some (db', next)) :
    Frees db.queue j.filepath db'.queue ∨
      ClientCalls db.queue db'.queue ∧ (ph.owes = true → ∃ ph', next = some ph' ∧ ph'.owes = true) := by
  have keep : ∀ {db' : Db} {ph' : Phase}, db'.queue = db.queue → ph'.owes = true →
      ClientCalls db.queue db'.queue ∧ (ph.owes = true → ∃ ph'', some ph' = some ph'' ∧ ph''.owes = true) :=
    fun he ho => ⟨he ▸ .refl, fun _ => ⟨_, rfl, ho⟩⟩
  cases ph with
  | start => cases h; exact .inr (keep rfl begin_owes)
  | clearRemoteId rid => cases h; exact .inr ⟨.single (.setRemoteId _ _ _), fun _ => ⟨_, rfl, rfl⟩⟩
  | mapInode ino rid => cases h; exact .inr (keep rfl rfl)
  | mapRow ino rid => cases h; exact .inr ⟨.single (.setRemoteId _ _ _), fun _ => ⟨_, rfl, rfl⟩⟩
  | markMirrored ino => cases h; exact .inr (keep rfl rfl)
  | clearDirty ino => cases h; exact .inr (keep rfl rfl)
  | succeed => cases h; exact .inl (.success _)
  | fail error bo => cases h; exact .inl (.failure _ _ _)
  | poison status body b => cases h; exact .inl (.poison _ _ _)
  | drop => cases h; exact .inl .drop
  | sibling status body =>
    cases h
    refine .inr ⟨?_, fun ho => by cases ho⟩
    rw [Fs.createDerivedSibling_sameSync.queue]
  | wait | patch | post | upload | delete | lookup | rename => cases h

end Lemmas

end Task

/-! ### The status poller -/

/-- `StuckTier`. -/
inductive StuckTier
  | ok
  | info
  | warn
  | stop
  deriving DecidableEq, Repr

/-- `stuck_tier`. -/
def stuckTier (ageMs : ℤ) : StuckTier :=
  if ageMs < 60000 then .ok
  else if ageMs < 300000 then .info
  else if ageMs < 3600000 then .warn
  else .stop

/-- One row of a tick of `run_inflight_poller`. `processing` are the ids and
states of the bulk answer, and `terminal` is the answer to the single `GET`
that a row outside of it gets; `nowMs` is the clock at the tick. -/
def pollRow (db : Db) (row : Db.AwaitingDone) (processing : List (String × String))
    (terminal : Except ApiError Document) (nowMs : ℤ) : Db :=
  let age := (row.lastStatusAt.map (nowMs - ·)).getD 0
  if stuckTier age = .stop then
    (db.setMirroredState row.ino none (some "stuck") (some nowMs)).setDirtySince row.ino (some nowMs)
  else
    match (processing.reverse.find? fun d => d.1 = row.remoteId) with
    | some d => db.setMirroredState row.ino none (some d.2) (some nowMs)
    | none =>
      match terminal with
      | .ok doc =>
        if doc.status = "done" then
          db.setMirroredState row.ino (parseIsoToMs doc.updatedAt) (some "done") (some nowMs)
        else db.setMirroredState row.ino none (some doc.status) (some nowMs)
      | .error .notFound => db.deleteRemoteId row.ino
      | .error _ => db.setMirroredState row.ino none none (some nowMs)

theorem pollRow_queue {db : Db} {row : Db.AwaitingDone} {processing : List (String × String)}
    {terminal : Except ApiError Document} {nowMs : ℤ} :
    (pollRow db row processing terminal nowMs).queue = db.queue := by
  unfold pollRow
  dsimp only
  split_ifs
  · rfl
  · split
    · rfl
    · split
      · split_ifs <;> rfl
      · rfl
      · rfl

end Smfs
