/-
# The last name goes, and its document with it

The mapping of a file goes with its last name, and `unlink` looks for the id
afterwards: the delete that it enqueues has no id of its own. It takes over
the id that an earlier row at the path has; otherwise the worker asks the
server to delete whatever stands at the path, which is the document only if
the server has it there, and it alone.

The requests that delete jobs of the path send are kept in a log, with the
documents before and after. In a run without failures the path's row goes
once one such request was answered, and it has removed the document and
nothing else exactly if it named it (`removed_iff`).

Key definitions: `Removal.Entry`, `Removal.step`, `Removal.Aimed`, `Removal.Removed`, `Removal.Ready`.
Key theorems: `Removal.exact_iff`, `Removal.step_inv`, `Removal.removed_iff`, `Removal.missed`.
-/
import Smfs.Sync.HardLinks

namespace Smfs
namespace Removal

open Trans Db Fs Cache PushQueue Drain HardLinks

/-- A request of a delete job: the id that the job has, and the documents
before and after. -/
structure Entry where
  rid : Option String
  before : Server
  after : Server
  deriving DecidableEq

/-- The system, and what the delete jobs of the path have asked for. -/
structure St where
  sys : Drain.St
  log : List Entry
  deriving DecidableEq

def logged (p : String) (s : St) (t : Drain.St) : Act → List Entry
  | .serve i _ _ _ =>
    match s.sys.mount.tasks[i]? with
    | some k =>
      if k.job.filepath = p ∧ k.phase = .delete then s.log ++ [⟨k.job.remoteId, s.sys.server, t.server⟩] else s.log
    | none => s.log
  | _ => s.log

def step (p : String) (s : St) (a : Act) : Option St := (Drain.step s.sys a).map fun t => ⟨t, logged p s t a⟩

/-- Nothing fails, and the id of the document is not given again. -/
def Quiet (id : String) (_ : St) : Act → Prop
  | .serve _ newId heard _ => heard = none ∧ newId ≠ id
  | .fail .. | .crash => False
  | _ => True

instance (id : String) : DecidableRel (Quiet id)
  | _, .serve _ newId heard _ => inferInstanceAs (Decidable (heard = none ∧ newId ≠ id))
  | _, .fail .. | _, .crash => isFalse False.elim
  | _, .claim _ | _, .taskDb .. | _, .finish _ => isTrue trivial

/-- A regular file loses its last name. Where nothing is enqueued for the
path, nothing is queued for it. -/
structure Start (c : Case) (s : Drain.St) : Prop extends Goes c s where
  file : c.file.kind = .reg
  last : c.file.nlink ≤ 1
  noise : isMacosNoisePath c.path = true → s.mount.db.queue.get c.path = none ∧
    ∀ k ∈ s.mount.tasks, k.job.filepath ≠ c.path

/-- The worker has nothing left to do for the path. -/
def Drained (p : String) (s : Drain.St) : Prop :=
  (∀ x, s.mount.db.queue.get p = some x → x.poisoned = true) ∧ ∀ k ∈ s.mount.tasks, works p k = false

/-- One request removed the document and nothing else, and it is gone. -/
def Removed (id : String) (s : St) : Prop :=
  ∃ e, s.log = [e] ∧ (∃ d ∈ e.before, d.id = id) ∧ e.after = Table.erase ServerDoc.id e.before id ∧
    s.sys.server.get id = none

/-- A request names the document: by its id, or by a path where it is, and it alone. -/
def Aimed (p id : String) (rid : Option String) (server : Server) : Prop :=
  (∃ d ∈ server, d.id = id) ∧
    match rid with
    | some rid => rid = id
    | none => ∀ d ∈ server, d.filepath = p ↔ d.id = id

/-- Nobody is at the path's row, and nothing is parked in it. -/
def Free (p : String) (s : Drain.St) : Prop :=
  (∀ x, s.mount.db.queue.get p = some x → x.inflight = false ∧ x.pending = none) ∧
    ∀ k ∈ s.mount.tasks, works p k = false

/-- The id of the path's row. -/
def rowId (p : String) (s : Drain.St) : Option String := (s.mount.db.queue.get p).bind PushRow.remoteId

/-- What a slot asks for can be done, and is no delete. -/
def Other (pl : Payload) : Prop :=
  match pl.op with
  | .create | .update | .uploadBinary => pl.contentIno.isSome = true
  | .rename => pl.renameTo.isSome = true
  | .delete => False

/-- A phase from which such a job goes on to its end. -/
def GoesOn : Phase → Prop
  | .wait _ next => GoesOn next
  | .poison .. | .drop | .delete | .sibling .. => False
  | _ => True

/-- A task is at the row, with a job that is no delete. -/
structure Busy (p : String) (s : Drain.St) : Prop where
  row : ∃ x, s.mount.db.queue.get p = some x ∧ x.inflight = true ∧ Other x.main
  one : AtMostOne (works p) s.mount.tasks
  tasks : ∀ k ∈ s.mount.tasks, works p k = true → Other k.job.payload ∧ GoesOn k.phase

/-- The delete is enqueued, and its row comes to be claimed. -/
structure Ready (p : String) (s : Drain.St) : Prop where
  sent : isMacosNoisePath p = false
  row : ∀ x, s.mount.db.queue.get p = some x → x.poisoned = false
  turn : Free p s ∨ Busy p s

/-! ### The invariant -/

/-- How far the row of the path has come: the delete is parked behind another
job, it is the row's, it is answered, the row is gone. -/
inductive Stage
  | parked
  | asked
  | answered
  | gone

/-- What `unlink` enqueues. -/
def deletion : Payload := ⟨.delete, none, none⟩

/-- `Q` is what is known of the id that the delete will have. -/
def RowOk (Q : Option String → Prop) : Stage → Option PushRow → Prop
  | .parked, o => ∃ x, o = some x ∧ x.poisoned = false ∧ Other x.main ∧ x.pending = some deletion
  | .asked, o | .answered, o =>
    ∃ x, o = some x ∧ x.poisoned = false ∧ x.main = deletion ∧ x.pending = none ∧ Q x.remoteId
  | .gone, o => o = none

/-- What holds of the task at the row. -/
def WorkOk (Q : Option String → Prop) : Stage → Task → Prop
  | .parked, k => Other k.job.payload ∧ GoesOn k.phase
  | .asked, k => k.job.op = .delete ∧ Q k.job.remoteId ∧ (k.phase = .start ∨ k.phase = .delete)
  | .answered, k => k.phase = .succeed
  | .gone, _ => False

/-- What the request was, and what it did. -/
def Sent (p : String) (e : Entry) : Prop :=
  e.after = match e.rid with
    | some rid => Table.erase ServerDoc.id e.before rid
    | none => e.before.filter fun d => d.filepath ≠ p

def LogOk (Q : Option String → Prop) (p id : String) (log : List Entry) (server : Server) : Stage → Prop
  | .parked | .asked => log = []
  | .answered | .gone => ∃ e, log = [e] ∧ Sent p e ∧ Q e.rid ∧ (Aimed p id e.rid e.before → ∀ d ∈ server, d.id ≠ id)

structure Inv (Q : Option String → Prop) (p id : String) (g : Stage) (s : St) : Prop where
  known : g = .parked → ∀ o, Q o
  queue : s.sys.mount.db.queue.WF
  one : AtMostOne (works p) s.sys.mount.tasks
  held : ∀ k ∈ s.sys.mount.tasks, works p k = true → s.sys.mount.db.queue.inflight p = true
  row : RowOk Q g (s.sys.mount.db.queue.get p)
  tasks : ∀ k ∈ s.sys.mount.tasks, works p k = true → WorkOk Q g k
  busy : g = .answered → ∃ k ∈ s.sys.mount.tasks, works p k = true
  log : LogOk Q p id s.log s.sys.server g

section Lemmas

variable {c : Case} {s t : St} {p id : String} {Q : Option String →
  Prop} {g : Stage} {k : Task} {nowMs : ℤ} {db db' : Db}

/-! ### The request -/

/-- **A request removes the document and nothing else exactly if it names it.** -/
theorem exact_iff {e : Entry} (h : Sent p e) :
    (∃ d ∈ e.before, d.id = id) ∧ e.after = Table.erase ServerDoc.id e.before id ↔ Aimed p id e.rid e.before := by
  unfold Aimed
  refine and_congr_right fun ⟨d, hd, hid⟩ => ?_
  unfold Sent at h
  rw [h]
  cases e.rid with
  | some rid =>
    dsimp only
    refine ⟨fun he => ?_, fun he => by rw [he]⟩
    by_contra hne
    have hmem : d ∈ Table.erase ServerDoc.id e.before rid := Table.mem_erase.mpr ⟨hd, fun h => hne (h.symm.trans hid)⟩
    rw [he] at hmem
    exact (Table.mem_erase.mp hmem).2 hid
  | none =>
    dsimp only
    refine ⟨fun he x hx => ?_, fun he => ?_⟩
    · have hmem : x ∈ e.before.filter (fun d => d.filepath ≠ p) ↔ x ∈ Table.erase ServerDoc.id e.before id := by rw [he]
      rw [List.mem_filter, Table.mem_erase, decide_eq_true_eq] at hmem
      have := hmem
      tauto
    · refine List.filter_congr fun x hx => ?_
      rw [decide_eq_decide]
      exact not_congr (he x hx)

/-! ### Jobs that are no deletes -/

theorem GoesOn.owes : ∀ {ph : Phase}, GoesOn ph → ph.owes = true := by
  intro ph
  induction ph with
  | wait rid next ih => exact ih
  | sibling | poison | drop | delete => exact False.elim
  | _ => exact fun _ => rfl

theorem begin_goesOn {j : PushJob} (h : Other j.payload) : GoesOn (Task.begin db j) := by
  unfold Other at h
  unfold Task.begin
  cases hop : j.op with
  | create | update =>
    rw [show j.payload.op = _ from hop] at h
    obtain ⟨ino, hino⟩ := Option.isSome_iff_exists.mp h
    rw [show j.contentIno = some ino from hino]
    dsimp only
    split_ifs
    · trivial
    · cases j.remoteId <;> trivial
  | uploadBinary =>
    rw [show j.payload.op = _ from hop] at h
    obtain ⟨ino, hino⟩ := Option.isSome_iff_exists.mp h
    rw [show j.contentIno = some ino from hino]
    trivial
  | rename =>
    rw [show j.payload.op = _ from hop] at h
    obtain ⟨fp, hfp⟩ := Option.isSome_iff_exists.mp h
    rw [show j.renameTo = some fp from hfp]
    cases j.remoteId <;> trivial
  | delete =>
    rw [show j.payload.op = _ from hop] at h
    exact h.elim

/-- The server never rejects a request. -/
theorem handle_accepts {server : Server} {newId : String} {call : Call} {status : ℕ} {body : String} :
    (server.handle newId call).1 ≠ .err (.rejected status body) := by
  cases call with
  | getDocument rid =>
    unfold Server.handle
    dsimp only
    cases server.get rid <;> simp
  | updateDocument rid fp b =>
    rw [Server.handle_updateDocument]
    split_ifs <;> simp
  | _ => simp [Server.handle]

theorem answered_goesOn {j : PushJob} {timedOut : Bool} {ph next : Phase} {a : Answer} (h : GoesOn ph)
    (hacc : ∀ status body, a ≠ .err (.rejected status body)) (ha : Task.answered j timedOut ph a = some next) :
    GoesOn next := by
  have hfailed : ∀ error, GoesOn (Task.failed j error) := fun _ => trivial
  cases ph with
  | wait rid nx => rcases Task.answered_wait ha with rfl | rfl <;> exact h
  | patch ino b rid =>
    cases a with
    | ok => cases ha; trivial
    | err e =>
      cases e with
      | rejected status body => exact absurd rfl (hacc status body)
      | _ => cases ha; trivial
    | created | status | documents => cases ha
  | post ino b | upload ino b =>
    cases a with
    | created rid => cases ha; trivial
    | err e =>
      cases e with
      | rejected status body => exact absurd rfl (hacc status body)
      | _ => cases ha; trivial
    | ok | status | documents => cases ha
  | lookup fp =>
    cases a with
    | documents ids =>
      unfold Task.answered at ha
      dsimp only at ha
      cases hh : ids.head? <;> rw [hh] at ha <;> cases ha <;> trivial
    | err e => cases ha; trivial
    | ok | created | status => cases ha
  | rename fp rid =>
    cases a with
    | ok => cases ha; trivial
    | err e =>
      cases e with
      | rejected status body => exact absurd rfl (hacc status body)
      | _ => cases ha; trivial
    | created | status | documents => cases ha
  | delete | poison | drop | sibling => exact h.elim
  | start | clearRemoteId | mapInode | mapRow | markMirrored | clearDirty | succeed | fail => cases ha

/-! ### The start -/

theorem Start.idAfter (h : Start c s.sys) : idAfter c = none := by
  have hlast := h.last
  unfold HardLinks.idAfter
  rw [if_pos (by omega)]

theorem Start.get_unlinked (h : Start c s.sys) (hn : isMacosNoisePath c.path = false) :
    (unlinked c s.sys).mount.db.queue.WF ∧ (unlinked c s.sys).mount.db.queue.get c.path =
      some (s.sys.mount.db.queue.upserted c.path deletion none c.nowMs) := by
  have hqueue := queue_unlinked h.toGoes
  rw [h.idAfter] at hqueue
  rw [hqueue]
  exact ⟨h.queue.upsert _ _ _ _, (get_upsert hn).trans (if_pos rfl)⟩

theorem Start.asked (h : Start c s.sys) (hr : Ready c.path s.sys) (hf : Free c.path s.sys) :
    Inv (· = rowId c.path s.sys) c.path c.id .asked ⟨unlinked c s.sys, []⟩ := by
  obtain ⟨hwf, hget⟩ := h.get_unlinked hr.sent
  have hidle : ∀ k ∈ s.sys.mount.tasks, works c.path k ≠ true := by
    intro k hk
    rw [hf.2 k hk]
    exact Bool.false_ne_true
  refine ⟨fun he => (nomatch he), hwf, fun i j a b ha _ hwa => (hidle a (List.mem_of_getElem? ha) hwa).elim,
    fun k hk hw => (hidle k hk hw).elim, ⟨_, hget, ?_⟩, fun k hk hw => (hidle k hk hw).elim,
      fun he => (nomatch he), rfl⟩
  obtain ⟨hmain, hpend, hrid⟩ := upserted_main deletion none c.nowMs hf.1
  refine ⟨?_, hmain, hpend, hrid⟩
  cases hx : s.sys.mount.db.queue.get c.path with
  | none =>
    rw [upserted_none hx]
    rfl
  | some x =>
    rw [upserted_idle hx (hf.1 x hx).1]
    exact hr.row x hx

theorem Start.parked (h : Start c s.sys) (hr : Ready c.path s.sys) (hb : Busy c.path s.sys) :
    Inv (fun _ => True) c.path c.id .parked ⟨unlinked c s.sys, []⟩ := by
  obtain ⟨hwf, hget⟩ := h.get_unlinked hr.sent
  obtain ⟨x, hx, hi, hmain⟩ := hb.row
  rw [upserted_held hx hi] at hget
  exact ⟨fun _ _ => trivial, hwf, hb.one, fun k hk hw => inflight_eq_true.mpr ⟨_, hget, hi⟩,
    ⟨_, hget, hr.row x hx, hmain, rfl⟩, hb.tasks, fun he => (nomatch he), rfl⟩

/-! ### Steps that leave the path alone -/

/-- The documents that a request leaves were there, or are new. -/
theorem handle_ids {server : Server} {newId : String} {call : Call} :
    ∀ d ∈ (server.handle newId call).2, d.id = newId ∨ ∃ e ∈ server, e.id = d.id := by
  have hold : ∀ d ∈ server, d.id = newId ∨ ∃ e ∈ server, e.id = d.id := fun d hd => .inr ⟨d, hd, rfl⟩
  have hadd : ∀ b fp, ∀ d ∈ server ++ [⟨newId, fp, b, false⟩], d.id = newId ∨ ∃ e ∈ server, e.id = d.id := by
    intro b fp d hd
    rcases List.mem_append.mp hd with hd | hd
    · exact hold d hd
    · rw [List.mem_singleton.mp hd]
      exact .inl rfl
  cases call with
  | getDocument rid =>
    rw [Server.handle_getDocument]
    exact hold
  | updateDocument rid fp b =>
    rw [Server.handle_updateDocument]
    split_ifs
    · intro d hd
      obtain ⟨e, he, rfl⟩ := Table.mem_modify.mp hd
      refine .inr ⟨e, he, ?_⟩
      split_ifs <;> rfl
    · exact hold
  | createDocument b fp | createDocumentMultipart b fp => exact hadd b fp
  | deleteDocumentsByIds rid => exact fun d hd => hold d (Table.mem_erase.mp hd).1
  | deleteDocuments fp => exact fun d hd => hold d (List.mem_filter.mp hd).1
  | listDocuments fp => exact hold

/-- The document does not come back. -/
def Fresh (id : String) (server server' : Server) : Prop := ∀ d ∈ server', d.id ≠ id ∨ ∃ e ∈ server, e.id = d.id

theorem LogOk.fresh {server server' : Server} {log : List Entry} (h : LogOk Q p id log server g)
    (hf : Fresh id server server') :
    LogOk Q p id log server' g := by
  cases g with
  | parked | asked => exact h
  | answered | gone =>
    obtain ⟨e, he, hsent, hq, hgone⟩ := h
    refine ⟨e, he, hsent, hq, fun haim d hd => ?_⟩
    rcases hf d hd with hne | ⟨x, hx, hid⟩
    · exact hne
    · rw [← hid]
      exact hgone haim x hx

theorem Inv.frame (h : Inv Q p id g s) (hq : t.sys.mount.db.queue.WF)
    (hrow : t.sys.mount.db.queue.get p = s.sys.mount.db.queue.get p) (hone : AtMostOne (works p) t.sys.mount.tasks)
    (hsub : ∀ k ∈ t.sys.mount.tasks, works p k = true → k ∈ s.sys.mount.tasks)
    (hsup : ∀ k ∈ s.sys.mount.tasks, works p k = true → k ∈ t.sys.mount.tasks) (hlog : t.log = s.log)
    (hids : Fresh id s.sys.server t.sys.server) : Inv Q p id g t where
  known := h.known
  queue := hq
  one := hone
  held := by
    intro k hk hw
    unfold PushQueue.inflight
    rw [hrow]
    exact h.held k (hsub k hk hw) hw
  row := by rw [hrow]; exact h.row
  tasks := fun k hk hw => h.tasks k (hsub k hk hw) hw
  busy := by
    intro he
    obtain ⟨k, hk, hw⟩ := h.busy he
    exact ⟨k, hsup k hk hw, hw⟩
  log := by
    rw [hlog]
    exact h.log.fresh hids

/-- A task that is not at the row moves on. -/
theorem Inv.others (h : Inv Q p id g s) {i : ℕ} {next : Option Phase} (hk : s.sys.mount.tasks[i]? = some k)
    (hw : works p k = false) (hnext : ∀ ph, next = some ph → works p { k with phase := ph } = false)
    (hq : t.sys.mount.db.queue.WF) (hrow : t.sys.mount.db.queue.get p = s.sys.mount.db.queue.get p)
    (ht : t.sys.mount.tasks = Mount.putTask s.sys.mount.tasks i k next) (hlog : t.log = s.log)
    (hids : Fresh id s.sys.server t.sys.server) : Inv Q p id g t := by
  refine h.frame hq hrow (by rw [ht]; exact h.one.put_other hnext) (fun x hx hwx => ?_) (fun x hx hwx => ?_) hlog hids
  · rw [ht] at hx
    rcases Mount.mem_putTask hx with hx | ⟨ph, hph, rfl⟩
    · exact hx
    · rw [hnext ph hph] at hwx
      cases hwx
  · obtain ⟨j, hj⟩ := List.mem_iff_getElem?.mp hx
    rw [ht]
    refine Mount.mem_putTask_of_ne hj ?_
    rintro rfl
    obtain rfl : k = x := Option.some.inj (hk.symm.trans hj)
    rw [hw] at hwx
    cases hwx

/-! ### Steps of the task at the row -/

theorem works_iff : works p k = true ↔ k.job.filepath = p ∧ k.phase.owes = true := by
  unfold works
  rw [Bool.and_eq_true, decide_eq_true_eq]

/-- The task goes on. -/
theorem Inv.goes {g' : Stage} {i : ℕ} {ph : Phase} (h : Inv Q p id g s) (hk : s.sys.mount.tasks[i]? = some k)
    (hw : works p k = true) (hq : t.sys.mount.db.queue.WF)
    (ht : t.sys.mount.tasks = Mount.putTask s.sys.mount.tasks i k (some ph)) (ho : ph.owes = true)
    (hheld : t.sys.mount.db.queue.inflight p = true) (hrow : RowOk Q g' (t.sys.mount.db.queue.get p))
    (hwork : WorkOk Q g' { k with phase := ph }) (hlog : LogOk Q p id t.log t.sys.server g')
    (hknown : g' = .parked → ∀ o, Q o) : Inv Q p id g' t := by
  obtain ⟨hone, hother⟩ := h.one.put hk hw (some ph)
  have hwork' : ∀ x ∈ t.sys.mount.tasks, works p x = true → WorkOk Q g' x := by
    intro x hx hwx
    rw [ht] at hx
    obtain ⟨ph', he, rfl⟩ := hother x hx hwx
    cases he
    exact hwork
  refine ⟨hknown, hq, by rw [ht]; exact hone, fun _ _ _ => hheld, hrow, hwork', fun _ => ?_, hlog⟩
  refine ⟨{ k with phase := ph }, ?_, works_iff.mpr ⟨(works_iff.mp hw).1, ho⟩⟩
  rw [ht]
  exact List.mem_iff_getElem?.mpr ⟨i, List.getElem?_set_self (List.getElem?_eq_some_iff.mp hk).1⟩

/-- The task ends. -/
theorem Inv.ends {g' : Stage} {i : ℕ} (h : Inv Q p id g s) (hk : s.sys.mount.tasks[i]? = some k)
    (hw : works p k = true) (hq : t.sys.mount.db.queue.WF)
    (ht : t.sys.mount.tasks = Mount.putTask s.sys.mount.tasks i k none)
    (hrow : RowOk Q g' (t.sys.mount.db.queue.get p)) (hlog : LogOk Q p id t.log t.sys.server g')
    (hknown : g' = .parked → ∀ o, Q o) (hg : g' ≠ .answered) : Inv Q p id g' t := by
  obtain ⟨hone, hother⟩ := h.one.put hk hw none
  have hnone : ∀ x ∈ t.sys.mount.tasks, works p x ≠ true := by
    intro x hx hwx
    rw [ht] at hx
    obtain ⟨ph', he, -⟩ := hother x hx hwx
    cases he
  exact ⟨hknown, hq, by rw [ht]; exact hone, fun x hx hwx => (hnone x hx hwx).elim, hrow,
    fun x hx hwx => (hnone x hx hwx).elim, fun he => absurd he hg, hlog⟩

/-- The row of a parked delete with another id, or free. -/
theorem row_parked {f : PushRow → PushRow} {o : Option PushRow} (h : RowOk Q .parked o)
    (hf : ∀ x, (f x).poisoned = x.poisoned ∧ (f x).main = x.main ∧ (f x).pending = x.pending) :
    RowOk Q .parked (o.map f) := by
  obtain ⟨x, rfl, hp, hmain, hpend⟩ := h
  obtain ⟨h₁, h₂, h₃⟩ := hf x
  exact ⟨f x, rfl, h₁.trans hp, by rw [h₂]; exact hmain, h₃.trans hpend⟩

/-- The job before the delete makes its calls. -/
theorem parked_call {i : ℕ} {next : Option Phase} (h : Inv Q p id .parked s) (hk : s.sys.mount.tasks[i]? = some k)
    (hw : works p k = true) (hd : Task.dbStep s.sys.mount.db k.job nowMs k.phase = some (db', next)) :
    ∃ g', Inv Q p id g' ⟨⟨⟨db', Mount.putTask s.sys.mount.tasks i k next⟩, s.sys.server⟩, s.log⟩ := by
  have hmem := List.mem_of_getElem? hk
  obtain ⟨hp, -⟩ := works_iff.mp hw
  obtain ⟨hother, hgo⟩ := h.tasks k hmem hw
  have hheld := h.held k hmem hw
  have hwf := dbStep_wf h.queue hd
  -- a call that leaves the row held
  have hgoes : ∀ ph, next = some ph → GoesOn ph → db'.queue.inflight p = true → RowOk Q .parked (db'.queue.get p) →
      ∃ g', Inv Q p id g' ⟨⟨⟨db', Mount.putTask s.sys.mount.tasks i k next⟩, s.sys.server⟩, s.log⟩ := by
    rintro ph rfl hph hi hrow
    exact ⟨.parked, h.goes hk hw hwf rfl hph.owes hi hrow ⟨hother, hph⟩ h.log h.known⟩
  cases hphase : k.phase with
  | start =>
    rw [hphase] at hd
    cases hd
    exact hgoes _ rfl (begin_goesOn hother) hheld h.row
  | mapInode | markMirrored | clearDirty =>
    rw [hphase] at hd
    cases hd
    exact hgoes _ rfl trivial hheld h.row
  | clearRemoteId rid =>
    rw [hphase] at hd
    cases hd
    refine hgoes _ rfl trivial (inflight_setRemoteId.trans hheld) ?_
    have hget : (s.sys.mount.db.queue.setRemoteId k.job.filepath none).get p =
        (s.sys.mount.db.queue.get p).map fun x => { x with remoteId := none } := by
      rw [get_setRemoteId, hp, if_pos rfl]
    show RowOk Q .parked ((s.sys.mount.db.queue.setRemoteId k.job.filepath none).get p)
    rw [hget]
    exact row_parked h.row fun _ => ⟨rfl, rfl, rfl⟩
  | mapRow ino rid =>
    rw [hphase] at hd
    cases hd
    refine hgoes _ rfl trivial (inflight_setRemoteId.trans hheld) ?_
    have hget : (s.sys.mount.db.queue.setRemoteId k.job.filepath (some rid)).get p =
        (s.sys.mount.db.queue.get p).map fun x => { x with remoteId := some rid } := by
      rw [get_setRemoteId, hp, if_pos rfl]
    show RowOk Q .parked ((s.sys.mount.db.queue.setRemoteId k.job.filepath (some rid)).get p)
    rw [hget]
    exact row_parked h.row fun _ => ⟨rfl, rfl, rfl⟩
  | succeed =>
    rw [hphase] at hd
    cases hd
    obtain ⟨x, hx, hpois, -, hpend⟩ := h.row
    have hget : (s.sys.mount.db.queue.finalizeSuccess k.job.filepath nowMs).get p =
      some (promoted deletion nowMs x) := by
      rw [get_finalizeSuccess, hp, if_pos rfl, hx, Option.bind_some, hpend]
      rfl
    refine ⟨.asked, h.ends hk hw hwf rfl ⟨_, hget, hpois, rfl, rfl,
      h.known rfl _⟩ h.log (fun he => (nomatch he)) fun he => (nomatch he)⟩
  | fail error backoff =>
    rw [hphase] at hd
    cases hd
    have hget : (s.sys.mount.db.queue.finalizeFailure k.job.filepath error nowMs backoff).get p =
        (s.sys.mount.db.queue.get p).map (PushQueue.failed error nowMs backoff) := by
      rw [get_finalizeFailure, hp, if_pos rfl]
    refine ⟨.parked, h.ends hk hw hwf rfl ?_ h.log h.known fun he => (nomatch he)⟩
    show RowOk Q .parked ((s.sys.mount.db.queue.finalizeFailure k.job.filepath error nowMs backoff).get p)
    rw [hget]
    exact row_parked h.row fun _ => ⟨rfl, rfl, rfl⟩
  | poison | drop | delete | sibling =>
    rw [hphase] at hgo
    exact hgo.elim
  | wait | patch | post | upload | lookup | rename =>
    rw [hphase] at hd
    cases hd

/-- The task at the row makes a call. -/
theorem Inv.call {i : ℕ} {next : Option Phase} (h : Inv Q p id g s) (hk : s.sys.mount.tasks[i]? = some k)
    (hw : works p k = true) (hd : Task.dbStep s.sys.mount.db k.job nowMs k.phase = some (db', next)) :
    ∃ g', Inv Q p id g' ⟨⟨⟨db', Mount.putTask s.sys.mount.tasks i k next⟩, s.sys.server⟩, s.log⟩ := by
  have hmem := List.mem_of_getElem? hk
  obtain ⟨hp, -⟩ := works_iff.mp hw
  have hheld := h.held k hmem hw
  have hwork := h.tasks k hmem hw
  have hwf := dbStep_wf h.queue hd
  cases g with
  | parked => exact parked_call h hk hw hd
  | asked =>
    obtain ⟨hop, hq, hph⟩ := hwork
    rcases hph with hph | hph <;> rw [hph] at hd <;> cases hd
    have hbegin : Task.begin s.sys.mount.db k.job = .delete := by
      unfold Task.begin
      rw [hop]
    rw [hbegin]
    exact ⟨.asked, h.goes hk hw hwf rfl rfl hheld h.row ⟨hop, hq, .inr rfl⟩ h.log fun he => (nomatch he)⟩
  | answered =>
    have hph : k.phase = .succeed := hwork
    rw [hph] at hd
    cases hd
    obtain ⟨x, hx, -, -, hpend, -⟩ := h.row
    have hget : (s.sys.mount.db.queue.finalizeSuccess k.job.filepath nowMs).get p = none := by
      rw [get_finalizeSuccess, hp, if_pos rfl, hx, Option.bind_some, hpend]
      rfl
    exact ⟨.gone, h.ends hk hw hwf rfl hget h.log (fun he => (nomatch he)) fun he => (nomatch he)⟩
  | gone => exact hwork.elim

/-- The task at the row hears the answer to its request. -/
theorem Inv.request {i : ℕ} {newId : String} {call : Call} {next : Phase} {timedOut : Bool} (h : Inv Q p id g s)
    (hk : s.sys.mount.tasks[i]? = some k) (hw : works p k = true) (hnew : newId ≠ id)
    (hcall : Task.call k.job k.phase = some call)
    (ha : Task.answered k.job timedOut k.phase (s.sys.server.handle newId call).1 = some next)
    (hdb : t.sys.mount.db = s.sys.mount.db) (ht : t.sys.mount.tasks = Mount.putTask s.sys.mount.tasks i k (some next))
    (hserver : t.sys.server = (s.sys.server.handle newId call).2)
    (hlog : t.log = if k.phase = .delete then s.log ++ [⟨k.job.remoteId, s.sys.server, t.sys.server⟩] else s.log) :
    ∃ g', Inv Q p id g' t := by
  have hmem := List.mem_of_getElem? hk
  obtain ⟨hp, ho⟩ := works_iff.mp hw
  have hwork := h.tasks k hmem hw
  have hwf : t.sys.mount.db.queue.WF := by rw [hdb]; exact h.queue
  have hheld : t.sys.mount.db.queue.inflight p = true := by rw [hdb]; exact h.held k hmem hw
  have hfresh : Fresh id s.sys.server t.sys.server := by
    intro d hd
    rw [hserver] at hd
    rcases handle_ids d hd with he | he
    · rw [he]
      exact .inl hnew
    · exact .inr he
  cases g with
  | parked =>
    obtain ⟨hother, hgo⟩ := hwork
    have hne : k.phase ≠ .delete := by
      intro he
      rw [he] at hgo
      exact hgo
    rw [if_neg hne] at hlog
    have hnext := answered_goesOn hgo (fun _ _ => handle_accepts) ha
    refine ⟨.parked, h.goes hk hw hwf ht hnext.owes hheld (by rw [hdb]; exact h.row) ⟨hother, hnext⟩ ?_ h.known⟩
    rw [hlog]
    exact h.log
  | asked =>
    obtain ⟨hop, hq, hph⟩ := hwork
    rcases hph with hph | hph <;> rw [hph] at hcall
    · cases hcall
    · rw [if_pos hph, show s.log = [] from h.log, List.nil_append] at hlog
      rw [hph] at ha
      have hsent : Sent p ⟨k.job.remoteId, s.sys.server, t.sys.server⟩ := by
        unfold Task.call at hcall
        unfold Sent
        dsimp only at hcall ⊢
        cases hrid : k.job.remoteId with
        | none =>
          rw [hrid] at hcall
          cases hcall
          rw [hserver, hp]
          rfl
        | some rid =>
          rw [hrid] at hcall
          cases hcall
          exact hserver
      have hnext : next = .succeed := by
        unfold Task.call at hcall
        dsimp only at hcall
        cases hrid : k.job.remoteId <;> rw [hrid] at hcall <;> cases hcall <;> cases ha <;> rfl
      subst hnext
      refine ⟨.answered, h.goes hk hw hwf ht rfl hheld (by rw [hdb]; exact h.row) rfl ?_ fun he => (nomatch he)⟩
      refine ⟨_, hlog, hsent, hq, fun haim d hd hid => ?_⟩
      have hafter : t.sys.server = Table.erase ServerDoc.id s.sys.server id := ((exact_iff hsent).mpr haim).2
      rw [hafter] at hd
      exact (Table.mem_erase.mp hd).2 hid
  | answered =>
    have hph : k.phase = .succeed := hwork
    rw [hph] at hcall
    cases hcall
  | gone => exact hwork.elim

/-! ### Steps -/

theorem claim_inv {sys : Drain.St} (h : Inv Q p id g s) (hst : Drain.step s.sys (.claim nowMs) = some sys) :
    ∃ g', Inv Q p id g' ⟨sys, s.log⟩ := by
  obtain ⟨r, hr, hclaim, hserver, hwf, htasks, hget, -⟩ := claim_cases h.queue hst
  obtain ⟨hidle, -, -⟩ := claimable_iff.mp hclaim
  by_cases hp : p = r.filepath
  · have hrow := hget p
    rw [if_pos hp] at hrow
    rw [← hp] at hr
    have hfree : ∀ k ∈ s.sys.mount.tasks, works p k = false := by
      intro k hk
      by_contra hw
      obtain ⟨x, hx, hi⟩ := inflight_eq_true.mp (h.held k hk (by simpa using hw))
      obtain rfl : r = x := Option.some.inj (hr.symm.trans hx)
      rw [hidle] at hi
      cases hi
    have hnew : ∀ k ∈ sys.mount.tasks, works p k = true → k = ⟨jobOf r, .start⟩ := by
      intro k hk hw
      rw [htasks] at hk
      rcases List.mem_append.mp hk with hk | hk
      · rw [hfree k hk] at hw
        cases hw
      · exact List.mem_singleton.mp hk
    -- the row is the one that was claimed
    have htaken : ∀ g', RowOk Q g' (some (held nowMs r)) → WorkOk Q g' ⟨jobOf r, .start⟩ → g' ≠ .answered →
        LogOk Q p id s.log s.sys.server g' → (g' = .parked → ∀ o, Q o) → Inv Q p id g' ⟨sys, s.log⟩ := by
      intro g' hrow' hwork hne hlog hknown
      refine ⟨hknown, hwf, by rw [htasks]; exact atMostOne_append hfree,
        fun k hk hw => inflight_eq_true.mpr ⟨_, hrow, rfl⟩,
        by rw [hrow]; exact hrow', fun k hk hw => by rw [hnew k hk hw]; exact hwork, fun he => absurd he hne, ?_⟩
      rw [hserver]
      exact hlog
    have hrowOk := h.row
    rw [hr] at hrowOk
    cases g with
    | parked =>
      obtain ⟨x, ⟨⟩, hpois, hmain, hpend⟩ := hrowOk
      exact ⟨.parked, htaken .parked ⟨_, rfl, hpois, hmain, hpend⟩ ⟨hmain,
        trivial⟩ (fun he => (nomatch he)) h.log h.known⟩
    | asked =>
      obtain ⟨x, ⟨⟩, hpois, hmain, hpend, hq⟩ := hrowOk
      exact ⟨.asked, htaken .asked ⟨_, rfl, hpois, hmain, hpend, hq⟩ ⟨congrArg Payload.op hmain, hq, .inl rfl⟩
        (fun he => (nomatch he)) h.log fun he => (nomatch he)⟩
    | answered =>
      obtain ⟨k, hk, hw⟩ := h.busy rfl
      rw [hfree k hk] at hw
      cases hw
    | gone => cases hrowOk
  · have hw : works p ⟨jobOf r, .start⟩ = false := by
      unfold works
      rw [Bool.and_eq_false_iff]
      exact .inl (decide_eq_false (Ne.symm hp))
    refine ⟨g, h.frame hwf ((hget p).trans (if_neg hp)) ?_ (fun k hk hwk => ?_) (fun k hk _ => ?_) rfl ?_⟩
    · rw [htasks]
      exact h.one.append_other hw
    · rw [htasks] at hk
      rcases List.mem_append.mp hk with hk | hk
      · exact hk
      · rw [List.mem_singleton.mp hk, hw] at hwk
        cases hwk
    · rw [htasks]
      exact List.mem_append_left _ hk
    · rw [hserver]
      exact fun d hd => .inr ⟨d, hd, rfl⟩

theorem step_inv (a : Act) (h : Inv Q p id g s) (hok : Quiet id s a) (hst : step p s a = some t) :
    ∃ g', Inv Q p id g' t := by
  obtain ⟨sys, hsys, rfl⟩ := Option.map_eq_some_iff.mp hst
  cases a with
  | claim now => exact claim_inv h hsys
  | taskDb i now =>
    obtain ⟨k, next, hk, hd, ht, hserver⟩ := taskDb_cases hsys
    cases hw : works p k with
    | true =>
      obtain ⟨g', hinv⟩ := h.call hk hw hd
      rw [← ht, ← hserver] at hinv
      exact ⟨g', hinv⟩
    | false =>
      have hidle := works_false.mp hw
      have hsame : sys.mount.db.queue.get p = s.sys.mount.db.queue.get p := by
        by_cases hp : k.job.filepath = p
        · rw [(queue_of_idle (hidle hp) hd).1]
        · exact dbStep_get (Ne.symm hp) hd
      refine ⟨g, h.others hk hw (fun ph hph => ?_) (dbStep_wf h.queue hd) hsame ht rfl ?_⟩
      · refine works_false.mpr fun hp => ?_
        rw [(queue_of_idle (hidle hp) hd).2] at hph
        cases hph
      · rw [hserver]
        exact fun d hd => .inr ⟨d, hd, rfl⟩
  | serve i newId heard timedOut =>
    obtain ⟨rfl, hnew⟩ := hok
    obtain ⟨k, call, next, -, hk, hcall, -, hserver, ha, hm⟩ := serve_cases hsys
    have hfresh : Fresh id s.sys.server sys.server := by
      intro d hd
      rw [hserver] at hd
      rcases handle_ids d hd with he | he
      · rw [he]
        exact .inl hnew
      · exact .inr he
    have hlog : logged p s sys (.serve i newId none timedOut) =
        if k.job.filepath = p ∧ k.phase = .delete then s.log ++ [⟨k.job.remoteId, s.sys.server,
          sys.server⟩] else s.log := by
      unfold logged
      dsimp only
      rw [hk]
    have hdb : sys.mount.db = s.sys.mount.db := by rw [hm]
    have ht : sys.mount.tasks = Mount.putTask s.sys.mount.tasks i k (some next) := by rw [hm]; rfl
    cases hw : works p k with
    | true =>
      have hp := (works_iff.mp hw).1
      refine h.request (t := ⟨sys, _⟩) hk hw hnew hcall ha hdb ht hserver (hlog.trans ?_)
      by_cases hph : k.phase = .delete
      · rw [if_pos ⟨hp, hph⟩, if_pos hph]
      · rw [if_neg fun he => hph he.2, if_neg hph]
    | false =>
      have hidle := works_false.mp hw
      refine ⟨g, h.others hk hw (fun ph hph => ?_) (by rw [hdb]; exact h.queue) (by rw [hdb]) ht ?_ hfresh⟩
      · cases hph
        exact works_false.mpr fun hp => answered_idle (hidle hp) ha
      · refine hlog.trans (if_neg ?_)
        rintro ⟨hp, hph⟩
        have := hidle hp
        rw [hph] at this
        cases this
  | finish rid =>
    cases hsys
    refine ⟨g, h.frame h.queue rfl h.one (fun _ hk _ => hk) (fun _ hk _ => hk) rfl fun d hd => ?_⟩
    obtain ⟨e, he, rfl⟩ := Table.mem_modify.mp hd
    refine .inr ⟨e, he, ?_⟩
    split_ifs <;> rfl
  | fail | crash => exact hok.elim

/-! ### The result -/

/-- Once the worker has nothing left to do, the row is gone. -/
theorem Inv.drained (h : Inv Q p id g s) (hd : Drained p s.sys) : g = .gone := by
  have hfree : ∀ x, s.sys.mount.db.queue.get p = some x → x.poisoned ≠ false := by
    intro x hx he
    rw [hd.1 x hx] at he
    cases he
  cases g with
  | parked =>
    obtain ⟨x, hx, hp, -⟩ := h.row
    exact (hfree x hx hp).elim
  | asked | answered =>
    obtain ⟨x, hx, hp, -⟩ := h.row
    exact (hfree x hx hp).elim
  | gone => rfl

/-- One request was sent. -/
theorem Inv.answered_iff (h : Inv Q p id .gone s) :
    (∀ e ∈ s.log, Q e.rid) ∧ (Removed id s ↔ ∀ e ∈ s.log, Aimed p id e.rid e.before) := by
  obtain ⟨e, he, hsent, hq, hgone⟩ := h.log
  refine ⟨fun x hx => ?_, ?_⟩
  · rw [he] at hx
    rw [List.mem_singleton.mp hx]
    exact hq
  · constructor
    · rintro ⟨e', he', hd, hafter, -⟩ x hx
      rw [he'] at hx he
      obtain rfl : e' = e := List.singleton_inj.mp he
      rw [List.mem_singleton.mp hx]
      exact (exact_iff hsent).mp ⟨hd, hafter⟩
    · intro haim
      have haim := haim e (by rw [he]; exact List.mem_singleton_self e)
      obtain ⟨hd, hafter⟩ := (exact_iff hsent).mpr haim
      exact ⟨e, he, hd, hafter, Table.get_none.mpr (hgone haim)⟩

/-- A row that is never claimed again sends no request. -/
theorem silent_step (a : Act) (h : Wedged p s.sys ∧ s.log = []) (hst : step p s a = some t) :
    Wedged p t.sys ∧ t.log = [] := by
  obtain ⟨sys, hsys, rfl⟩ := Option.map_eq_some_iff.mp hst
  refine ⟨h.1.step hsys, ?_⟩
  show logged p s sys a = []
  cases a with
  | serve i newId heard timedOut =>
    unfold logged
    dsimp only
    cases hk : s.sys.mount.tasks[i]? with
    | none => exact h.2
    | some k =>
      refine (if_neg ?_).trans h.2
      rintro ⟨hp, hph⟩
      have hidle := works_false.mp (h.1.idle k (List.mem_of_getElem? hk)) hp
      rw [hph] at hidle
      cases hidle
  | claim | taskDb | fail | finish | crash => exact h.2

/-- Where the delete is not enqueued, or its row is never claimed, no request is sent. -/
theorem Start.silent (h : Start c s.sys) (hf : Free c.path s.sys) (hr : ¬ Ready c.path s.sys) :
    Wedged c.path (unlinked c s.sys) := by
  cases hn : isMacosNoisePath c.path with
  | true =>
    have hqueue := queue_unlinked h.toGoes
    rw [upsert_noise hn] at hqueue
    refine ⟨by rw [hqueue]; exact h.queue, hf.2, fun x hx => ?_⟩
    rw [hqueue, (h.noise hn).1] at hx
    cases hx
  | false =>
    have hpois : ∃ x, s.sys.mount.db.queue.get c.path = some x ∧ x.poisoned = true := by
      by_contra hnot
      push Not at hnot
      exact hr ⟨hn, fun x hx => by simpa using hnot x hx, .inl hf⟩
    obtain ⟨x, hx, hp⟩ := hpois
    exact wedged_unlinked h.toGoes hn hf.2 hx (.inl hp)

/-- **Once the worker has nothing left to do for the path, the document has
been removed and nothing else, exactly if the delete was enqueued and its one
request named the document.** The id it was sent with is that of the row that
`unlink` found at the path, where nobody was at it. -/
theorem removed_iff (s₀ : Drain.St) (h : Start c s₀) (hr : Reach (step c.path) (Quiet c.id) ⟨unlinked c s₀, []⟩ t)
    (hd : Drained c.path t.sys) :
    (Free c.path s₀ → (Removed c.id t ↔
      Ready c.path s₀ ∧ ∀ e ∈ t.log, Aimed c.path c.id (rowId c.path s₀) e.before)) ∧
    (Ready c.path s₀ → (Removed c.id t ↔ ∀ e ∈ t.log, Aimed c.path c.id e.rid e.before)) := by
  have hrun : ∀ {Q : Option String → Prop} {g : Stage}, Inv Q c.path c.id g ⟨unlinked c s₀, []⟩ →
    Inv Q c.path c.id .gone t := by
    intro Q g h₀
    obtain ⟨g', hinv⟩ := hr.inv (I := fun s => ∃ g, Inv Q c.path c.id g s) ⟨g, h₀⟩ fun _ a _ ⟨_, hI⟩ hok hst =>
      step_inv a hI hok hst
    obtain rfl := hinv.drained hd
    exact hinv
  refine ⟨fun hf => ?_, fun hready => ?_⟩
  · by_cases hready : Ready c.path s₀
    · obtain ⟨hids, hiff⟩ := (hrun (h.asked (s := ⟨s₀, []⟩) hready hf)).answered_iff
      refine hiff.trans ⟨fun haim => ⟨hready, fun e he => ?_⟩, fun haim e he => ?_⟩
      · rw [← show e.rid = rowId c.path s₀ from hids e he]
        exact haim e he
      · rw [show e.rid = rowId c.path s₀ from hids e he]
        exact haim.2 e he
    · refine ⟨?_, fun haim => absurd haim.1 hready⟩
      have hsilent := hr.inv (I := fun s => Wedged c.path s.sys ∧ s.log = []) ⟨h.silent (s := ⟨s₀, []⟩) hf hready, rfl⟩
        fun _ a _ hI _ hst => silent_step a hI hst
      rintro ⟨e, he, -⟩
      rw [hsilent.2] at he
      cases he
  · rcases hready.turn with hf | hb
    · exact (hrun (h.asked (s := ⟨s₀, []⟩) hready hf)).answered_iff.2
    · exact (hrun (h.parked (s := ⟨s₀, []⟩) hready hb)).answered_iff.2

end Lemmas

/-! ### A file and where the server has its document -/

/-- A file mapped to a document. -/
def oneFile : Db := (Fs.createFile .fresh true ROOT_INO "a").2.setRemoteId 2 "r"

/-- The filepath that the server has for it. -/
def lone (filepath : String) : Drain.St := ⟨⟨oneFile, []⟩, [⟨"r", filepath, [], true⟩]⟩

def only : Case := ⟨ROOT_INO, "a", 5, ⟨2, .reg, 1, 0, none, false⟩, "/a", "r"⟩

theorem lone_start (filepath : String) : Start only (lone filepath) where
  queue := empty_wf
  unlinks := ⟨by decide, by decide, (by decide : childInode oneFile ROOT_INO "a" = some only.file), by decide⟩
  path := (by decide : childPath oneFile ROOT_INO "a" = some "/a")
  mapped := (by decide : oneFile.getRemoteId 2 = some "r")
  doc := rfl
  file := rfl
  last := by decide
  noise := fun hn => absurd hn (by decide)

/-- The row's job from the claim to its end. -/
def drainRun : List Act := [.claim 5, .taskDb 0 5, .serve 0 "" none false, .taskDb 0 6]

/-- The worker at its end, and the one request that it has sent. -/
def finished (before after : Server) (t : St) : Bool :=
  (t.sys.mount.db.queue.get "/a").isNone && t.sys.mount.tasks.isEmpty && decide (t.log = [⟨none, before, after⟩])

theorem finished_iff {before after : Server} {t : St} (h : finished before after t = true) :
    Drained "/a" t.sys ∧ t.log = [⟨none, before, after⟩] := by
  unfold finished at h
  rw [Bool.and_eq_true, Bool.and_eq_true, Option.isNone_iff_eq_none, List.isEmpty_iff, decide_eq_true_eq] at h
  obtain ⟨⟨hrow, htasks⟩, hlog⟩ := h
  refine ⟨⟨fun x hx => ?_, fun k hk => ?_⟩, hlog⟩
  · rw [hrow] at hx
    cases hx
  · rw [htasks] at hk
    cases hk

theorem removed_in_place : ∃ t, Reach (step "/a") (Quiet "r") ⟨unlinked only (lone "/a"), []⟩ t ∧ Removed "r" t := by
  obtain ⟨t, hr, hfin⟩ : ∃ t, Reach (step "/a") (Quiet "r") ⟨unlinked only (lone "/a"), []⟩ t ∧
      finished [⟨"r", "/a", [], true⟩] [] t = true := Reach.exists_of_run drainRun (by decide)
  obtain ⟨hd, hlog⟩ := finished_iff hfin
  have hready : Ready "/a" (lone "/a") := ⟨by decide, fun x hx => (nomatch hx),
    .inl ⟨fun x hx => (nomatch hx), fun k hk => (nomatch hk)⟩⟩
  refine ⟨t, hr, ((removed_iff _ (lone_start "/a") hr hd).2 hready).mpr fun e he => ?_⟩
  rw [hlog] at he
  rw [List.mem_singleton.mp he]
  exact ⟨⟨_, List.mem_singleton_self _, rfl⟩, fun d hmem => by rw [List.mem_singleton.mp hmem]; exact ⟨fun _ => rfl,
    fun _ => rfl⟩⟩

/-- The server has moved the document, and nothing has told the mount yet:
the worker deletes what is at the old path, and the document stays. -/
theorem missed : ¬ ∀ c s, Start c s → ∀ t, Reach (step c.path) (Quiet c.id) ⟨unlinked c s, []⟩ t →
    Drained c.path t.sys → Removed c.id t := by
  intro hall
  obtain ⟨t, hr, hfin⟩ : ∃ t, Reach (step "/a") (Quiet "r") ⟨unlinked only (lone "/b"), []⟩ t ∧
      finished [⟨"r", "/b", [], true⟩] [⟨"r", "/b", [], true⟩] t = true := Reach.exists_of_run drainRun (by decide)
  obtain ⟨hd, hlog⟩ := finished_iff hfin
  obtain ⟨e, he, -, hafter, -⟩ := hall only _ (lone_start "/b") t hr hd
  rw [hlog] at he
  obtain rfl := List.singleton_inj.mp he
  exact absurd hafter (by decide)

end Removal
end Smfs
