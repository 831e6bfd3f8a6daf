/-
# A push that succeeded was delivered, unless it met a busy document

Any number of `process_job` tasks run against a server that processes
documents for as long as it likes, loses answers and fails. Before a `PATCH`
a task waits until the document is done, but nothing looks at how the wait
ended, and between the wait and the `PATCH` another task may have sent the
same document something else. A `PATCH` that then meets a document that is not
done is accepted, and its content is gone.

The pushes that the server accepted are kept in a log beside it. As long as
every `PATCH` with content meets a document that is done, or that has the
content already (`PatchOk`), the last push of each document is what the server
stores, and what a task read is stored or superseded when the task succeeds
(`delivered`); `dropped` is a run in which a task succeeds with nothing
stored.

Key definitions: `Delivery.St`, `Delivery.step`, `Delivery.Delivered`, `Delivery.PatchOk`.
Key theorems: `Delivery.serve_stored`, `Delivery.step_inv`, `Delivery.delivered`,
`Delivery.dropped`.
-/
import Smfs.Lib.Reach
import Smfs.Ops
import Smfs.Server

namespace Smfs
namespace Delivery

open Trans

/-- A task, the content it read, and the place in the log of the push that the
server accepted from it. -/
structure Job where
  task : Task
  read : Option Bytes
  sent : Option ℕ
  deriving DecidableEq

/-- The log holds the document and the content of each push accepted so far. -/
structure St where
  db : Db
  jobs : List Job
  server : Server
  log : List (String × Bytes)
  deriving DecidableEq

/-- What may happen. The rest of the mount may change the database in any
way, and any job but a delete may be started. -/
inductive Act
  | change (db : Db)
  | start (job : PushJob)
  | jobDb (i : ℕ) (nowMs : ℤ)
  /-- The server handles a task's request, and the task hears its answer, or an error instead. -/
  | serve (i : ℕ) (newId : String) (heard : Option ApiError) (timedOut : Bool)
  /-- A task's request fails before it reaches the server. -/
  | fail (i : ℕ) (e : ApiError) (timedOut : Bool)
  | finish (id : String)

/-- The push that a request is, with the document it is for. -/
def pushOf (newId : String) : Call → Option (String × Bytes)
  | .updateDocument id _ (some content) => some (id, content)
  | .createDocument content _ | .createDocumentMultipart content _ => some (newId, content)
  | _ => none

/-- The request creates a document. -/
def creates : Call → Bool
  | .createDocument .. | .createDocumentMultipart .. => true
  | _ => false

/-- The server has taken the request. -/
def took : Answer → Bool
  | .ok | .created _ => true
  | _ => false

/-- The log with a push that the server has taken. -/
def logged (log : List (String × Bytes)) (newId : String) (c : Call) (a : Answer) : List (String × Bytes) :=
  match pushOf newId c with
  | some push => if took a then log ++ [push] else log
  | none => log

/-- The jobs once the `i`-th has moved on to a phase, or ended. -/
def putJob (jobs : List Job) (i : ℕ) (j : Job) : Option Phase → List Job
  | some phase => jobs.set i { j with task := { j.task with phase := phase } }
  | none => jobs.eraseIdx i

/-- The job as it reads the content at its start. -/
def readBy (db : Db) (j : Job) : Job :=
  if j.task.phase = .start then { j with read := j.task.job.contentIno.map db.readAllContent } else j

def step (s : St) : Act → Option St
  | .change db => some { s with db := db }
  | .start job =>
    if job.op = .delete then none
    else some { s with jobs := s.jobs ++ [⟨⟨job, .start⟩, none, none⟩] }
  | .jobDb i now =>
    (s.jobs[i]?).bind fun j =>
      (Task.dbStep s.db j.task.job now j.task.phase).map fun (db, next) =>
        { s with db := db, jobs := putJob s.jobs i (readBy s.db j) next }
  | .serve i newId heard timedOut =>
    (s.jobs[i]?).bind fun j => (Task.call j.task.job j.task.phase).bind fun c =>
      -- an id is given to one document
      if creates c && (s.server.get newId).isSome then none
      else
        let (a, server) := s.server.handle newId c
        let log := logged s.log newId c a
        match heard with
        | some e =>
          (Task.answered j.task.job timedOut j.task.phase (.err e)).map fun next =>
            { s with server := server, log := log, jobs := putJob s.jobs i j (some next) }
        | none =>
          (Task.answered j.task.job timedOut j.task.phase a).map fun next =>
            let j := if log = s.log then j else { j with sent := some s.log.length }
            { s with server := server, log := log, jobs := putJob s.jobs i j (some next) }
  | .fail i e timedOut =>
    (s.jobs[i]?).bind fun j =>
      (Task.answered j.task.job timedOut j.task.phase (.err e)).map fun next =>
        { s with jobs := putJob s.jobs i j (some next) }
  | .finish id => some { s with server := s.server.finish id }

/-- The push at a place of the log is what its document holds, or a later one
of the document was accepted. -/
def Holds (s : St) (n : ℕ) : Prop :=
  ∀ id b, s.log[n]? = some (id, b) →
    s.server.contentOf id = some b ∨ ∃ m b', n < m ∧ s.log[m]? = some (id, b')

/-- A content job that is about to succeed has sent what it read, and the
server stores it or has accepted a later push. -/
def Delivered (s : St) : Prop :=
  ∀ j ∈ s.jobs, j.task.phase = .succeed → j.task.job.op = .create ∨ j.task.job.op = .update →
    ∃ b n id, j.read = some b ∧ j.sent = some n ∧ s.log[n]? = some (id, b) ∧
      (s.server.contentOf id = some b ∨ ∃ m b', n < m ∧ s.log[m]? = some (id, b'))

/-- A `PATCH` with content meets a document that is done, or that has the
content already. -/
def PatchOk (s : St) : Act → Prop
  | .serve i _ _ _ => ∀ j id fp b d, s.jobs[i]? = some j →
      Task.call j.task.job j.task.phase = some (.updateDocument id fp (some b)) →
      s.server.get id = some d → d.done = true ∨ d.content = b
  | _ => True

/-- Every push is stored or superseded, and so is what succeeding jobs read. -/
structure Sound (s : St) : Prop where
  stored : ∀ n, Holds s n
  delivered : Delivered s

/-- No job has started. -/
structure Start (s : St) : Prop where
  jobs : s.jobs = []
  log : s.log = []

/-! ### The invariant -/

/-- The server has accepted what the job read. -/
def Accepted (log : List (String × Bytes)) (j : Job) : Prop :=
  ∃ b n id, j.read = some b ∧ j.sent = some n ∧ log[n]? = some (id, b)

/-- What holds of a job in each phase. -/
def Good (log : List (String × Bytes)) (j : Job) : Phase → Prop
  | .wait _ next => Good log j next
  | .patch _ b _ | .post _ b | .upload _ b => j.read = some b
  | .mapInode .. | .mapRow .. | .markMirrored _ | .clearDirty _ => Accepted log j
  | .succeed => j.task.job.op = .create ∨ j.task.job.op = .update → Accepted log j
  | .delete => False
  | .lookup _ | .rename .. => j.task.job.op = .rename
  | .start | .fail .. | .poison .. | .sibling .. | .drop | .clearRemoteId _ => True

structure Inv (s : St) : Prop where
  stored : ∀ n, Holds s n
  known : ∀ id b, (id, b) ∈ s.log → (s.server.contentOf id).isSome = true
  jobs : ∀ j ∈ s.jobs, j.task.job.op ≠ .delete ∧ Good s.log j j.task.phase

theorem Start.inv {s : St} (h : Start s) : Inv s where
  stored := fun n id b hn => by simp [h.log] at hn
  known := fun id b hm => by simp [h.log] at hm
  jobs := fun j hj => by simp [h.jobs] at hj

/-- A longer log keeps what is known of a job. -/
theorem Good.mono {log log' : List (String × Bytes)} {j : Job} (hlog : log <+: log') :
    ∀ {ph : Phase}, Good log j ph → Good log' j ph := by
  have hacc : Accepted log j → Accepted log' j := by
    rintro ⟨b, n, id, hr, hs, hn⟩
    refine ⟨b, n, id, hr, hs, ?_⟩
    obtain ⟨l, hl⟩ := hlog
    rw [← hl, List.getElem?_append_left (List.getElem?_eq_some_iff.mp hn).1, hn]
  intro ph
  induction ph with
  | wait rid next ih => exact ih
  | mapInode | mapRow | markMirrored | clearDirty => exact hacc
  | succeed => exact fun h ho => hacc (h ho)
  | patch | post | upload | delete | lookup | rename => exact id
  | start | fail | poison | sibling | drop | clearRemoteId => exact id

/-- A push that is stored supersedes the earlier ones of its document. -/
theorem stored_push {s t : St} {id : String} {b : Bytes} (h : ∀ n, Holds s n)
    (hlog : t.log = s.log ++ [(id, b)]) (hc : t.server.contentOf id = some b)
    (hother : ∀ id' b', (id', b') ∈ s.log → id' ≠ id → t.server.contentOf id' = s.server.contentOf id') :
    ∀ n, Holds t n := by
  intro n id' b' hn
  have hnew : t.log[s.log.length]? = some (id, b) := by rw [hlog]; simp
  rw [hlog] at hn
  by_cases hlt : n < s.log.length
  · rw [List.getElem?_append_left hlt] at hn
    by_cases hid : id' = id
    · subst hid
      exact .inr ⟨s.log.length, b, hlt, hnew⟩
    · rcases h n id' b' hn with hs | ⟨m, b'', hm, hs⟩
      · exact .inl ((hother id' b' (List.mem_of_getElem? hn) hid).trans hs)
      · refine .inr ⟨m, b'', hm, ?_⟩
        rw [hlog, List.getElem?_append_left (List.getElem?_eq_some_iff.mp hs).1, hs]
  · rw [List.getElem?_append_right (by omega)] at hn
    have hz : n - s.log.length = 0 := by
      have := (List.getElem?_eq_some_iff.mp hn).1
      simpa using this
    rw [hz] at hn
    cases hn
    exact .inl hc

theorem stored_same {s t : St} (h : ∀ n, Holds s n) (hlog : t.log = s.log)
    (hc : ∀ id, t.server.contentOf id = s.server.contentOf id) : ∀ n, Holds t n := by
  intro n id b hn
  rw [hlog] at hn
  rw [hc, hlog]
  exact h n id b hn

/-- What a request does to the documents and to the log. -/
inductive Served (s : St) (newId : String) (c : Call) (a : Answer) (server : Server)
    (log : List (String × Bytes)) : Prop
  | same (hlog : log = s.log) (hc : ∀ id, server.contentOf id = s.server.contentOf id)
      (ha : pushOf newId c = none ∨ took a = false)
  | push (id : String) (b : Bytes) (hp : pushOf newId c = some (id, b)) (hlog : log = s.log ++ [(id, b)])
      (hc : server.contentOf id = some b)
      (hother : ∀ id', id' ≠ id → server.contentOf id' = s.server.contentOf id')

/-- **A request that meets the condition is stored.** -/
theorem serve_stored {s : St} {newId : String} {c : Call}
    (hfresh : creates c = true → s.server.get newId = none)
    (hdel : ∀ id, c ≠ .deleteDocumentsByIds id) (hdel' : ∀ fp, c ≠ .deleteDocuments fp)
    (hok : ∀ id fp b d, c = .updateDocument id fp (some b) → s.server.get id = some d →
      d.done = true ∨ d.content = b) :
    Served s newId c (s.server.handle newId c).1 (s.server.handle newId c).2
      (logged s.log newId c (s.server.handle newId c).1) := by
  have hcreate : ∀ (b : Bytes) (fp : String), s.server.get newId = none →
      ∀ id', Server.contentOf (s.server ++ [⟨newId, fp, b, false⟩]) id' =
        if id' = newId then some b else s.server.contentOf id' := fun b fp h id' =>
    Server.contentOf_create (d := ⟨newId, fp, b, false⟩) h
  cases c with
  | getDocument id =>
    refine .same rfl (fun id' => ?_) (.inl rfl)
    simp only [Server.handle]
    split <;> rfl
  | updateDocument id fp content =>
    cases hg : s.server.get id with
    | none =>
      simp only [Server.handle, hg]
      refine .same ?_ (fun _ => rfl) (.inr rfl)
      cases content <;> rfl
    | some d =>
      simp only [Server.handle, hg]
      cases content with
      | none =>
        refine .same rfl (fun id' => ?_) (.inl rfl)
        rw [Server.contentOf_update]
        split_ifs with hid
        · subst hid
          rw [Server.contentOf, hg]
          simp
        · rfl
      | some b =>
        refine .push id b rfl rfl ?_ fun id' hid => ?_
        · rw [Server.contentOf_update, if_pos rfl, hg]
          simp only [Option.map_some, Option.getD_some, Option.some.injEq]
          rcases hok id fp b d rfl hg with hd | hd
          · rw [if_pos hd]
          · rw [hd, ite_self]
        · rw [Server.contentOf_update, if_neg hid]
  | createDocument b fp =>
    refine .push newId b rfl rfl ?_ fun id' hid => ?_
    · exact (hcreate b fp (hfresh rfl) newId).trans (if_pos rfl)
    · exact (hcreate b fp (hfresh rfl) id').trans (if_neg hid)
  | createDocumentMultipart b fp =>
    refine .push newId b rfl rfl ?_ fun id' hid => ?_
    · exact (hcreate b fp (hfresh rfl) newId).trans (if_pos rfl)
    · exact (hcreate b fp (hfresh rfl) id').trans (if_neg hid)
  | deleteDocumentsByIds id => exact absurd rfl (hdel id)
  | deleteDocuments fp => exact absurd rfl (hdel' fp)
  | listDocuments fp => exact .same rfl (fun _ => rfl) (.inl rfl)

/-- The content a phase sends. -/
def sends : Phase → Option Bytes
  | .patch _ b _ | .post _ b | .upload _ b => some b
  | _ => none

theorem pushOf_call {j : PushJob} {ph : Phase} {c : Call} {newId : String} (hc : Task.call j ph = some c) :
    (sends ph = none → pushOf newId c = none) ∧ ∀ b, sends ph = some b → ∃ id, pushOf newId c = some (id, b) := by
  cases ph <;> simp only [Task.call] at hc <;> (try split at hc) <;> cases hc <;>
    simp [sends, pushOf]

/-- A phase that a job is good in leads to such a phase; the answer that
accepts a content leads there once the content is in the log. -/
theorem answered_good {log : List (String × Bytes)} {j : Job} {timedOut : Bool} {ph next : Phase}
    {a : Answer} (h : Good log j ph) (ha : Task.answered j.task.job timedOut ph a = some next) :
    (sends ph = none ∨ took a = false) ∧ Good log j next ∨
      ∃ b, sends ph = some b ∧ j.read = some b ∧ took a = true ∧
        ∀ log' j', Accepted log' j' → Good log' j' next := by
  have hop : j.task.job.op = .rename → j.task.job.op = .create ∨ j.task.job.op = .update →
      Accepted log j := by
    rintro hr (hc | hc) <;> rw [hr] at hc <;> cases hc
  unfold Task.answered at ha
  split at ha
  -- the wait
  · split_ifs at ha <;> cases ha <;> exact .inl ⟨.inl rfl, h⟩
  · split_ifs at ha <;> cases ha <;> exact .inl ⟨.inl rfl, h⟩
  -- the `PATCH` with content
  · cases ha
    exact .inr ⟨_, rfl, h, rfl, fun log' j' hacc => hacc⟩
  · split at ha <;> cases ha <;> exact .inl ⟨.inr rfl, trivial⟩
  -- the `POST`s
  · cases ha
    exact .inr ⟨_, rfl, h, rfl, fun log' j' hacc => hacc⟩
  · cases ha
    exact .inr ⟨_, rfl, h, rfl, fun log' j' hacc => hacc⟩
  · split at ha <;> cases ha <;> exact .inl ⟨.inr rfl, trivial⟩
  · split at ha <;> cases ha <;> exact .inl ⟨.inr rfl, trivial⟩
  -- the delete
  · exact absurd h id
  · exact absurd h id
  -- the rename
  · split at ha <;> cases ha
    · exact .inl ⟨.inl rfl, h⟩
    · exact .inl ⟨.inl rfl, hop h⟩
  · cases ha
    exact .inl ⟨.inl rfl, trivial⟩
  · cases ha
    exact .inl ⟨.inl rfl, hop h⟩
  · split at ha <;> cases ha <;> exact .inl ⟨.inl rfl, trivial⟩
  · cases ha

theorem begin_good {log : List (String × Bytes)} {db : Db} {j : Job} (hop : j.task.job.op ≠ .delete)
    (hr : j.read = j.task.job.contentIno.map db.readAllContent) : Good log j (Task.begin db j.task.job) := by
  have hread : ∀ ino, j.task.job.contentIno = some ino → j.read = some (db.readAllContent ino) :=
    fun ino hi => by rw [hr, hi]; rfl
  unfold Task.begin
  cases ho : j.task.job.op with
  | create | update =>
    cases hi : j.task.job.contentIno with
    | none => trivial
    | some ino =>
      dsimp only
      split_ifs
      · exact hread ino hi
      · cases j.task.job.remoteId <;> exact hread ino hi
  | uploadBinary =>
    cases hi : j.task.job.contentIno with
    | none => trivial
    | some ino => exact hread ino hi
  | delete => exact absurd ho hop
  | rename =>
    cases j.task.job.renameTo with
    | none => trivial
    | some newFp => cases j.task.job.remoteId <;> exact ho

theorem dbStep_good {log : List (String × Bytes)} {j : Job} {now : ℤ} {db db' : Db} {next : Phase}
    (hop : j.task.job.op ≠ .delete) (h : Good log j j.task.phase)
    (hd : Task.dbStep db j.task.job now j.task.phase = some (db', some next)) :
    Good log (readBy db j) next := by
  unfold readBy
  cases hph : j.task.phase with
  | start =>
    rw [hph] at hd
    cases hd
    rw [if_pos rfl]
    exact begin_good hop rfl
  | mapInode | mapRow | markMirrored =>
    rw [hph] at hd h
    cases hd
    exact h
  | clearDirty =>
    rw [hph] at hd h
    cases hd
    exact fun _ => h
  | clearRemoteId =>
    rw [hph] at hd
    cases hd
    trivial
  | poison status body b =>
    rw [hph] at hd
    cases b
    · cases hd
    · cases hd
      trivial
  | succeed | fail | sibling | drop => rw [hph] at hd; cases hd
  | wait | patch | post | upload | delete | lookup | rename => rw [hph] at hd; cases hd

theorem good_putJob {log log' : List (String × Bytes)} {jobs : List Job} {i : ℕ} {j : Job}
    {next : Option Phase} (hlog : log <+: log')
    (h : ∀ k ∈ jobs, k.task.job.op ≠ .delete ∧ Good log k k.task.phase) (hop : j.task.job.op ≠ .delete)
    (hnext : ∀ ph, next = some ph → Good log' j ph) :
    ∀ k ∈ putJob jobs i j next, k.task.job.op ≠ .delete ∧ Good log' k k.task.phase := by
  have hrest : ∀ k ∈ jobs, k.task.job.op ≠ .delete ∧ Good log' k k.task.phase :=
    fun k hk => ⟨(h k hk).1, (h k hk).2.mono hlog⟩
  intro k hk
  cases next with
  | none => exact hrest k (List.mem_of_mem_eraseIdx hk)
  | some ph =>
    rcases List.mem_or_eq_of_mem_set hk with hk | rfl
    · exact hrest k hk
    · have hg : ∀ {ph' : Phase}, Good log' j ph' → Good log' { j with task := { j.task with phase := ph } } ph' := by
        intro ph'
        induction ph' with
        | wait rid next ih => exact ih
        | _ => exact id
      exact ⟨hop, hg (hnext ph rfl)⟩

/-- The job whose request the server has handled. -/
theorem serve_inv {s : St} (h : Inv s) {i : ℕ} {j : Job} (hj : s.jobs[i]? = some j) {newId : String}
    {c : Call} (hc : Task.call j.task.job j.task.phase = some c)
    (hfresh : ¬ (creates c && (s.server.get newId).isSome) = true)
    (hok : ∀ id fp b d, c = .updateDocument id fp (some b) → s.server.get id = some d →
      d.done = true ∨ d.content = b) :
    (∀ t : St, t.server = (s.server.handle newId c).2 →
      t.log = logged s.log newId c (s.server.handle newId c).1 →
      (∀ n, Holds t n) ∧ (∀ id b, (id, b) ∈ t.log → (t.server.contentOf id).isSome = true) ∧
        s.log <+: t.log) ∧
    Served s newId c (s.server.handle newId c).1 (s.server.handle newId c).2
      (logged s.log newId c (s.server.handle newId c).1) := by
  obtain ⟨hop, hg⟩ := h.jobs j (List.mem_of_getElem? hj)
  have hdel : j.task.phase ≠ .delete := fun he => by rw [he] at hg; exact hg
  have hcd : (∀ id, c ≠ .deleteDocumentsByIds id) ∧ ∀ fp, c ≠ .deleteDocuments fp := by
    cases hph : j.task.phase <;> rw [hph] at hc hdel <;> simp only [Task.call] at hc <;>
      (try exact absurd rfl hdel) <;> cases hc <;> exact ⟨fun _ => Call.noConfusion, fun _ => Call.noConfusion⟩
  have hserved : Served s newId c (s.server.handle newId c).1 (s.server.handle newId c).2
      (logged s.log newId c (s.server.handle newId c).1) :=
    serve_stored (fun hcr => by simpa [hcr] using hfresh) hcd.1 hcd.2 hok
  refine ⟨fun t hts htl => ?_, hserved⟩
  cases hserved with
  | same hlog hcont ha =>
    rw [hlog] at htl
    refine ⟨stored_same h.stored htl fun id => by rw [hts, hcont], fun id b hm => ?_, htl ▸ List.prefix_rfl⟩
    rw [hts, hcont]
    exact h.known id b (htl ▸ hm)
  | push id b hp hlog hcont hother =>
    rw [hlog] at htl
    refine ⟨stored_push h.stored htl (by rw [hts, hcont]) fun id' b' _ hid => by rw [hts, hother id' hid],
      fun id' b' hm => ?_, htl ▸ List.prefix_append _ _⟩
    rw [hts]
    by_cases hid : id' = id
    · rw [hid, hcont]
      rfl
    · rw [hother id' hid]
      rw [htl] at hm
      rcases List.mem_append.mp hm with hm | hm
      · exact h.known id' b' hm
      · cases List.mem_singleton.mp hm
        exact absurd rfl hid

theorem step_inv (s : St) (a : Act) (t : St) (h : Inv s) (hok : PatchOk s a) (hst : step s a = some t) :
    Inv t := by
  cases a with
  | change db => cases hst; exact ⟨h.stored, h.known, h.jobs⟩
  | start job =>
    simp only [step] at hst
    split_ifs at hst with hop
    cases hst
    refine ⟨h.stored, h.known, fun j hj => ?_⟩
    rcases List.mem_append.mp hj with hj | hj
    · exact h.jobs j hj
    · obtain rfl := List.mem_singleton.mp hj
      exact ⟨hop, trivial⟩
  | jobDb i now =>
    simp only [step] at hst
    obtain ⟨j, hj, hst⟩ := Option.bind_eq_some_iff.mp hst
    obtain ⟨⟨db, next⟩, hd, rfl⟩ := Option.map_eq_some_iff.mp hst
    obtain ⟨hop, hg⟩ := h.jobs j (List.mem_of_getElem? hj)
    have hop' : (readBy s.db j).task.job.op ≠ .delete := by
      unfold readBy
      split_ifs <;> exact hop
    refine ⟨h.stored, h.known, good_putJob List.prefix_rfl h.jobs hop' fun ph hph => ?_⟩
    subst hph
    exact dbStep_good hop hg hd
  | serve i newId heard timedOut =>
    simp only [step] at hst
    obtain ⟨j, hj, hst⟩ := Option.bind_eq_some_iff.mp hst
    obtain ⟨c, hc, hst⟩ := Option.bind_eq_some_iff.mp hst
    obtain ⟨hop, hg⟩ := h.jobs j (List.mem_of_getElem? hj)
    by_cases hfresh : (creates c && (s.server.get newId).isSome) = true
    · rw [if_pos hfresh] at hst
      cases hst
    rw [if_neg hfresh] at hst
    have hpatch : ∀ id fp b d, c = .updateDocument id fp (some b) → s.server.get id = some d →
        d.done = true ∨ d.content = b := fun id fp b d hcb hget => by
      subst hcb
      exact hok j id fp b d hj hc hget
    obtain ⟨hinv, hserved⟩ := serve_inv h hj hc hfresh hpatch
    cases heard with
    | some e =>
      obtain ⟨next, hn, ht⟩ := Option.map_eq_some_iff.mp hst
      obtain ⟨hs, hk, hlog⟩ := hinv t (by rw [← ht]) (by rw [← ht])
      refine ⟨hs, hk, ?_⟩
      have hjobs : t.jobs = putJob s.jobs i j (some next) := by rw [← ht]
      rw [hjobs]
      refine good_putJob hlog h.jobs hop fun ph hph => ?_
      cases hph
      rcases answered_good hg hn with ⟨-, hgood⟩ | ⟨b, -, -, hf, -⟩
      · exact hgood.mono hlog
      · cases hf
    | none =>
      obtain ⟨next, hn, ht⟩ := Option.map_eq_some_iff.mp hst
      obtain ⟨hs, hk, hlog⟩ := hinv t (by rw [← ht]) (by rw [← ht])
      refine ⟨hs, hk, ?_⟩
      rcases answered_good hg hn with ⟨hno, hgood⟩ | ⟨b, hb, hr, htook, hgood⟩
      · -- nothing is sent, so nothing is logged
        have hsame : logged s.log newId c (s.server.handle newId c).1 = s.log := by
          unfold logged
          rcases hno with hno | hno
          · rw [(pushOf_call hc).1 hno]
          · split
            · rw [hno]
              rfl
            · rfl
        rw [if_pos hsame] at ht
        have hjobs : t.jobs = putJob s.jobs i j (some next) := by rw [← ht]
        rw [hjobs]
        exact good_putJob hlog h.jobs hop fun ph hph => by
          cases hph
          exact hgood.mono hlog
      · obtain ⟨id, hp⟩ : ∃ id, pushOf newId c = some (id, b) := (pushOf_call hc).2 b hb
        have hl : logged s.log newId c (s.server.handle newId c).1 = s.log ++ [(id, b)] := by
          simp only [logged, hp, htook, if_true]
        have hne : logged s.log newId c (s.server.handle newId c).1 ≠ s.log := by
          rw [hl]
          simp
        rw [if_neg hne] at ht
        have hjobs : t.jobs = putJob s.jobs i { j with sent := some s.log.length } (some next) := by
          rw [← ht]
        have htl : t.log = s.log ++ [(id, b)] := by rw [← ht]; exact hl
        rw [hjobs]
        refine good_putJob hlog h.jobs hop fun ph hph => ?_
        cases hph
        refine hgood _ _ ⟨b, s.log.length, id, hr, rfl, ?_⟩
        rw [htl]
        simp
  | fail i e timedOut =>
    simp only [step] at hst
    obtain ⟨j, hj, hst⟩ := Option.bind_eq_some_iff.mp hst
    obtain ⟨next, hn, rfl⟩ := Option.map_eq_some_iff.mp hst
    obtain ⟨hop, hg⟩ := h.jobs j (List.mem_of_getElem? hj)
    have hjobs : ∀ k ∈ putJob s.jobs i j (some next), k.task.job.op ≠ .delete ∧ Good s.log k k.task.phase := by
      refine good_putJob List.prefix_rfl h.jobs hop fun ph hph => ?_
      cases hph
      rcases answered_good hg hn with ⟨-, hgood⟩ | ⟨b, -, -, hf, -⟩
      · exact hgood
      · cases hf
    exact ⟨h.stored, h.known, hjobs⟩
  | finish id =>
    cases hst
    refine ⟨stored_same h.stored rfl fun id' => Server.contentOf_finish, fun id' b hm => ?_,
      h.jobs⟩
    show (Server.contentOf (s.server.finish id) id').isSome = true
    rw [Server.contentOf_finish]
    exact h.known id' b hm

/-! ### The result -/

theorem Inv.sound {s : St} (h : Inv s) : Sound s where
  stored := h.stored
  delivered := fun j hj hph hop => by
    have hg := (h.jobs j hj).2
    rw [hph] at hg
    obtain ⟨b, n, id, hr, hs, hn⟩ := hg hop
    exact ⟨b, n, id, hr, hs, hn, h.stored n id b hn⟩

/-- A `PATCH` whose content is dropped is the last of its document, and not stored. -/
theorem stored_breaks {s t : St} {a : Act} (hst : step s a = some t) (ht : ∀ n, Holds t n) :
    PatchOk s a := by
  cases a with
  | serve i newId heard timedOut =>
    intro j id fp b d hj hc hg
    by_contra hno
    push Not at hno
    simp only [step, hj, hc, Option.bind_some, creates, Bool.false_and, Bool.false_eq_true, if_false,
      Server.handle, hg, logged, pushOf, took, if_true] at hst
    obtain ⟨hlog, hserver⟩ : t.log = s.log ++ [(id, b)] ∧
        t.server = Table.modify ServerDoc.id s.server id (Server.patched fp (some b)) := by
      cases heard with
      | none =>
        obtain ⟨next, -, rfl⟩ := Option.map_eq_some_iff.mp hst
        exact ⟨rfl, rfl⟩
      | some e =>
        obtain ⟨next, -, rfl⟩ := Option.map_eq_some_iff.mp hst
        exact ⟨rfl, rfl⟩
    have hn : t.log[s.log.length]? = some (id, b) := by rw [hlog]; simp
    rcases ht _ id b hn with hcont | ⟨m, b', hm, hlt⟩
    · rw [hserver, Server.contentOf_update, if_pos rfl, hg, Option.map_some, if_neg hno.1] at hcont
      exact hno.2 (Option.some.inj hcont)
    · have := (List.getElem?_eq_some_iff.mp hlt).1
      rw [hlog, List.length_append, List.length_singleton] at this
      omega
  | change | start | jobDb | fail | finish => trivial

/-- **What a job reports as sent is stored or superseded, exactly when every
`PATCH` with content meets a document that is done or has the content
already.** -/
theorem delivered (s₀ : St) (h₀ : Start s₀) :
    (∀ s, Reach step PatchOk s₀ s → Sound s) ∧
    ∀ s a t, Reach step PatchOk s₀ s → step s a = some t → (Sound t ↔ PatchOk s a) := by
  refine ⟨fun s h => (h.inv h₀.inv step_inv).sound, fun s a t h hst => ?_⟩
  have hi := h.inv h₀.inv step_inv
  exact ⟨fun ht => stored_breaks hst ht.stored, fun hok => (step_inv s a t hi hok hst).sound⟩

/-- `/a.md` holds `a` on the server, and `b` in the cache. -/
def edited : St where
  db :=
    let db := (Fs.createFile .fresh true ROOT_INO "a.md").2
    (SqliteFile.write db ⟨2, true, some "/a.md"⟩ 0 [98] 0).2
  jobs := []
  server := [⟨"d1", "/a.md", [97], true⟩]
  log := []

theorem edited_start : Start edited := ⟨rfl, rfl⟩

/-- A `PATCH` with content among the requests meets a document that is done, or has the content. -/
def patchMeets (server : Server) : Call → Bool
  | .updateDocument id _ (some b) => (server.get id).all fun d => d.done || d.content = b
  | _ => true

theorem patchMeets_iff {server : Server} {c : Call} : patchMeets server c = true ↔
    ∀ id fp b d, c = .updateDocument id fp (some b) → server.get id = some d → d.done = true ∨ d.content = b := by
  cases c with
  | updateDocument id fp content =>
    cases content with
    | none => simp [patchMeets]
    | some b =>
      simp only [patchMeets, Option.all_eq_true, Bool.or_eq_true, decide_eq_true_eq]
      constructor
      · rintro h _ _ _ d ⟨⟩ hd
        exact h d hd
      · exact fun h d hd => h id fp b d rfl hd
  | _ => simp [patchMeets]

instance : DecidableRel PatchOk
  | s, .serve i _ _ _ => decidable_of_iff (∀ j, s.jobs[i]? = some j →
      ∀ c, Task.call j.task.job j.task.phase = some c → patchMeets s.server c = true) <| by
    constructor
    · intro h j id fp b d hj hc
      exact patchMeets_iff.mp (h j hj _ hc) id fp b d rfl
    · intro h j hj c hc
      exact patchMeets_iff.mpr fun id fp b d hcb => h j id fp b d hj (hcb ▸ hc)
  | _, .change _ | _, .start _ | _, .jobDb _ _ | _, .fail _ _ _ | _, .finish _ => isTrue trivial

/-- The job of a flush finds the document done and sends the content. Another
job copies it to a new document, whose answer is lost. The first one waits
until its document is done, and is about to succeed. -/
def sentRun : List Act :=
  [.start ⟨"/a.md", .update, some 2, none, some "d1", 0⟩, .jobDb 0 0, .serve 0 "" none false, .serve 0 "" none false,
   .start ⟨"/b.md", .create, some 2, none, none, 0⟩, .jobDb 1 0, .serve 1 "d2" (some (.network "reset")) false,
   .serve 0 "" none false, .finish "d1", .serve 0 "" none false, .jobDb 0 0, .jobDb 0 0]

theorem delivered_sent :
    ∃ s, run step PatchOk edited sentRun = some s ∧
      (s.jobs.map (fun j => (j.task.phase, j.read, j.sent)) =
          [(.succeed, some [98], some 0), (.fail "network error: reset" 500, some [98], none)] ∧
        s.log = [("d1", [98]), ("d2", [98])] ∧ s.server.contentOf "d1" = some [98]) ∧
      Sound s := by
  obtain ⟨s, hs, hp⟩ := (Option.any_eq_true _ _).mp
    (by decide : (run step PatchOk edited sentRun).any (fun s => decide
      (s.jobs.map (fun j => (j.task.phase, j.read, j.sent)) =
          [(.succeed, some [98], some 0), (.fail "network error: reset" 500, some [98], none)] ∧
        s.log = [("d1", [98]), ("d2", [98])] ∧ s.server.contentOf "d1" = some [98])) = true)
  exact ⟨s, hs, of_decide_eq_true hp, (delivered edited edited_start).1 s (.of_run hs)⟩

/-- The job of a flush waits for the document and finds it done; so does the
job of a rename, whose `PATCH` comes first; and the document is still busy when
the content arrives and when the last wait runs out. -/
def droppedRun : List Act :=
  [.start ⟨"/a.md", .update, some 2, none, some "d1", 0⟩, .jobDb 0 0, .serve 0 "" none false,
   .start ⟨"/b.md", .rename, none, some "/c.md", some "d1", 0⟩, .jobDb 1 0, .serve 1 "" none false,
   .serve 1 "" none false, .serve 0 "" none false, .serve 0 "" none true, .jobDb 0 0, .jobDb 0 0]

/-- Without the condition a job succeeds and the server keeps the old content. -/
theorem dropped :
    ¬ (∀ s, Reach step anyStep edited s → Delivered s) ∧
    (run step anyStep edited (droppedRun ++ [.jobDb 0 0, .finish "d1"])).map (·.server.contentOf "d1") =
      some (some [97]) := by
  refine ⟨fun h => ?_, by decide⟩
  obtain ⟨s, hs, hp⟩ : ∃ s, Reach step anyStep edited s ∧ ((s.jobs[0]?).any (fun j : Job =>
      decide (j.task.phase = .succeed ∧ j.task.job.op = .update)) && decide (s.log = [("d1", [98])] ∧
        s.server.contentOf "d1" = some [97])) = true :=
    Reach.exists_of_run droppedRun (by decide)
  simp only [Bool.and_eq_true, Option.any_eq_true, decide_eq_true_eq] at hp
  obtain ⟨⟨j, hj, hph, hop⟩, hlog, hcont⟩ := hp
  obtain ⟨b, n, id, -, -, hn, hstored⟩ := h s hs j (List.mem_of_getElem? hj) hph (.inr hop)
  rw [hlog] at hn hstored
  obtain rfl : n = 0 := by
    have := (List.getElem?_eq_some_iff.mp hn).1
    simpa using this
  cases hn
  rcases hstored with hc | ⟨m, b', hm, hlt⟩
  · rw [hcont] at hc
    exact absurd hc (by decide)
  · have := (List.getElem?_eq_some_iff.mp hlt).1
    simp only [List.length_singleton] at this
    omega

end Delivery
end Smfs
