/-
# A name goes, and others are left

`unlink` enqueues the delete of the path once the name is gone, with the id
that the inode is mapped to then. A file that has other names keeps its
mapping, so the delete names the document of a file that is still there, and
the worker removes it by its id. It does not come to that where the row of the
path is never claimed again: it is poisoned, or was left held by a crash. At a
path where no task is at work this is exactly so (`spared_iff`).

Key definitions: `HardLinks.Case`, `HardLinks.Meanwhile`, `HardLinks.Condemned`, `HardLinks.Harmless`.
Key theorems: `HardLinks.queue_unlinked`, `HardLinks.claim_comes`, `HardLinks.spared_iff`, `HardLinks.condemned`.
-/
import Smfs.Names.Links
import Smfs.Sync.CrashRecovery
import Smfs.Sync.Drain

namespace Smfs
namespace HardLinks

open Db Fs Cache PushQueue Drain Relation

/-- The name that goes, its file, and the document of the file. -/
structure Case where
  parentIno : Ino
  name : String
  nowMs : ℤ
  file : Inode
  path : String
  id : String

/-- The mount once `unlink` has returned. -/
def unlinked (c : Case) (s : St) : St :=
  { s with mount := { s.mount with db := (Fs.unlink s.mount.db true c.parentIno c.name c.nowMs).2 } }

/-- The name leads to a file whose document is on the server. -/
structure Goes (c : Case) (s : St) : Prop where
  queue : s.mount.db.queue.WF
  unlinks : Unlinks s.mount.db c.parentIno c.name c.file
  path : childPath s.mount.db c.parentIno c.name = some c.path
  mapped : s.mount.db.getRemoteId c.file.ino = some c.id
  doc : (s.server.get c.id).isSome = true

/-- A task of the path that has yet to free its row. -/
def works (p : String) (k : Task) : Bool := k.job.filepath = p && k.phase.owes

/-- Nothing that may come of the row of the path is a delete. -/
def NoDelete (p : String) (s : St) : Prop :=
  (∀ x, s.mount.db.queue.get p = some x → x.main.op ≠ .delete ∧ ∀ pl, x.pending = some pl → pl.op ≠ .delete) ∧
    ∀ k ∈ s.mount.tasks, k.job.filepath = p → k.job.op ≠ .delete

/-- The file has another name; and where nothing is enqueued for the path, no
delete waits there from before. -/
structure Start (c : Case) (s : St) : Prop extends Goes c s where
  tables : WellFormed s.mount.db
  count : c.file.nlink = names s.mount.db c.file.ino
  other : ∃ d ∈ s.mount.db.dentries, d.ino = c.file.ino ∧ nameOf d ≠ (c.parentIno, c.name)
  noise : isMacosNoisePath c.path = true → NoDelete c.path s

/-- What may happen afterwards: the worker and the server take their steps,
and anything else that leaves the row of the path as it is, links, unlinks and
renames of other names among them. -/
inductive Meanwhile (p : String) (s t : St) : Prop
  | worker (a : Act) (h : step s a = some t)
  | elsewhere (hq : ClientCalls s.mount.db.queue t.mount.db.queue)
      (hp : t.mount.db.queue.get p = s.mount.db.queue.get p) (ht : t.mount.tasks = s.mount.tasks)

/-- A `Delete` job of the path is about to remove the document. -/
def Removes (p id : String) (s : St) : Prop :=
  ∃ i newId k call, request s i = some (k, call) ∧ k.job.filepath = p ∧ k.job.op = .delete ∧
    (s.server.get id).isSome = true ∧ Server.get (s.server.handle newId call).2 id = none

/-- It may come to that. -/
def Condemned (c : Case) (s : St) : Prop := ∃ t, ReflTransGen (Meanwhile c.path) s t ∧ Removes c.path c.id t

/-- The path's row is never claimed again, or nothing is enqueued for the path. -/
def Harmless (p : String) (s : St) : Prop :=
  isMacosNoisePath p = true ∨ (∀ k ∈ s.mount.tasks, works p k = false) ∧
    ∃ x, s.mount.db.queue.get p = some x ∧ (x.poisoned = true ∨ x.inflight = true)

section Lemmas

variable {c : Case} {s t : St} {p : String} {nowMs : ℤ}

/-! ### What `unlink` enqueues -/

/-- The id that the delete names. -/
def idAfter (c : Case) : Option String := if c.file.nlink - 1 ≤ 0 then none else some c.id

theorem remoteId_unlinkTables {db : Db} {q : Ino} {name : String} {x : Inode} :
    (unlinkTables db q name x).getRemoteId x.ino = if x.nlink - 1 ≤ 0 then none else db.getRemoteId x.ino := by
  have hpurge : ∀ db' : Db, (purge db' x.ino).getRemoteId x.ino = none := by
    intro db'
    have hg : Table.get Remote.ino (Table.erase Remote.ino db'.remotes x.ino) x.ino = none := by
      rw [Table.get_erase, if_pos rfl]
    show (Table.get Remote.ino (Table.erase Remote.ino db'.remotes x.ino) x.ino).map Remote.remoteId = none
    rw [hg]
    rfl
  unfold unlinkTables
  dsimp only
  split_ifs
  · exact hpurge _
  · rfl

theorem queue_unlinked (h : Goes c s) : (unlinked c s).mount.db.queue =
    s.mount.db.queue.upsert c.path ⟨.delete, none, none⟩ (idAfter c) c.nowMs := by
  have hid : (unlinkTables s.mount.db c.parentIno c.name c.file).getRemoteId c.file.ino = idAfter c := by
    rw [remoteId_unlinkTables, h.mapped]
    rfl
  show (Fs.unlink s.mount.db true c.parentIno c.name c.nowMs).2.queue = _
  unfold Fs.unlink
  rw [h.unlinks.valid]
  dsimp only
  rw [if_neg (by simpa using h.unlinks.profile), h.unlinks.source]
  dsimp only
  rw [if_neg h.unlinks.file, cascadeUnlink_sameSync.queue, h.path]
  unfold unlinkEnqueue
  dsimp only
  rw [hid, unlinkTables_queue]

/-- With another name left, it is the id of the document. -/
theorem Start.idAfter (h : Start c s) : idAfter c = some c.id := by
  obtain ⟨d, hd, hino, hname⟩ := h.other
  obtain ⟨hchild, -⟩ := childInode_named h.unlinks.source
  have hleft : 0 < names (s.mount.db.delChild c.parentIno c.name) c.file.ino :=
    names_pos.mpr ⟨d, mem_delChild.mpr ⟨hd, hname⟩, hino⟩
  have hnames := names_delChild (i := c.file.ino) h.tables hchild
  rw [if_pos rfl] at hnames
  have hcount := h.count
  unfold HardLinks.idAfter
  rw [if_neg (by omega)]

/-! ### A row that is never claimed again -/

/-- No task works for the path, and its row, if any, is poisoned or held. -/
structure Wedged (p : String) (s : St) : Prop where
  queue : s.mount.db.queue.WF
  idle : ∀ k ∈ s.mount.tasks, works p k = false
  row : ∀ x, s.mount.db.queue.get p = some x → x.poisoned = true ∨ x.inflight = true

theorem works_false {k : Task} : works p k = false ↔ (k.job.filepath = p → k.phase.owes = false) := by
  unfold works
  by_cases hp : k.job.filepath = p
  · rw [decide_eq_true hp, Bool.true_and]
    exact ⟨fun h _ => h, fun h => h hp⟩
  · rw [decide_eq_false hp, Bool.false_and]
    exact ⟨fun _ he => absurd he hp, fun _ => rfl⟩

/-- A task that owes nothing makes no call on the queue. -/
theorem queue_of_idle {db db' : Db} {j : PushJob} {ph : Phase} {next : Option Phase} (ho : ph.owes = false)
    (h : Task.dbStep db j nowMs ph = some (db', next)) : db'.queue = db.queue ∧ next = none := by
  cases ph with
  | sibling status body =>
    cases h
    exact ⟨Fs.createDerivedSibling_sameSync.queue, rfl⟩
  | wait => cases h
  | _ => cases ho

/-- Nor does an answer give it anything to do. -/
theorem answered_idle {j : PushJob} {timedOut : Bool} {ph next : Phase} {a : Answer} (ho : ph.owes = false)
    (h : Task.answered j timedOut ph a = some next) : next.owes = false := by
  cases ph with
  | sibling => cases a <;> cases h
  | wait rid nx =>
    rcases Task.answered_wait h with rfl | rfl <;> exact ho
  | _ => cases ho

theorem idle_putTask {tasks : List Task} {i : ℕ} {k : Task} (next : Option Phase)
    (hidle : ∀ x ∈ tasks, works p x = false) (hnext : k.job.filepath = p → ∀ ph, next = some ph → ph.owes = false) :
    ∀ x ∈ Mount.putTask tasks i k next, works p x = false := by
  intro x hx
  rcases Mount.mem_putTask hx with hx | ⟨ph, hph, rfl⟩
  · exact hidle x hx
  · exact works_false.mpr fun hp => hnext hp ph hph

theorem Wedged.step (h : Wedged p s) {a : Act} (hst : Drain.step s a = some t) : Wedged p t := by
  cases a with
  | claim now =>
    obtain ⟨r, hr, hclaim, -, hwf, htasks, hget, -⟩ := claim_cases h.queue hst
    have hne : p ≠ r.filepath := by
      rintro rfl
      obtain ⟨hi, hp, -⟩ := claimable_iff.mp hclaim
      have hrow := h.row r hr
      rw [hi, hp] at hrow
      rcases hrow with hrow | hrow <;> cases hrow
    refine ⟨hwf, fun k hk => ?_, fun x hx => h.row x ?_⟩
    rotate_left
    · rw [hget, if_neg hne] at hx
      exact hx
    rw [htasks] at hk
    rcases List.mem_append.mp hk with hk | hk
    · exact h.idle k hk
    · obtain rfl := List.mem_singleton.mp hk
      exact works_false.mpr fun he => absurd he.symm hne
  | taskDb i now =>
    obtain ⟨k, next, hk, hd, ht, -⟩ := taskDb_cases hst
    have hidle := works_false.mp (h.idle k (List.mem_of_getElem? hk))
    have hsame : t.mount.db.queue.get p = s.mount.db.queue.get p := by
      by_cases hp : k.job.filepath = p
      · rw [(queue_of_idle (hidle hp) hd).1]
      · exact dbStep_get (Ne.symm hp) hd
    refine ⟨dbStep_wf h.queue hd, ?_, ?_⟩
    · rw [ht]
      refine idle_putTask next h.idle fun hp ph hph => ?_
      rw [(queue_of_idle (hidle hp) hd).2] at hph
      cases hph
    · rw [hsame]
      exact h.row
  | serve i newId heard timedOut =>
    obtain ⟨k, c, next, -, hk, -, -, -, hans, hm⟩ := serve_cases hst
    have hidle := works_false.mp (h.idle k (List.mem_of_getElem? hk))
    refine ⟨by rw [hm]; exact h.queue, ?_, by rw [hm]; exact h.row⟩
    rw [hm]
    exact idle_putTask (some next) h.idle fun hp ph hph => by cases hph; exact answered_idle (hidle hp) hans
  | fail i e timedOut =>
    obtain ⟨k, next, hk, hans, rfl⟩ := fail_cases hst
    have hidle := works_false.mp (h.idle k (List.mem_of_getElem? hk))
    exact ⟨h.queue, idle_putTask (some next) h.idle fun hp ph hph => by cases hph; exact answered_idle (hidle hp) hans,
      h.row⟩
  | finish id =>
    cases hst
    exact ⟨h.queue, h.idle, h.row⟩
  | crash =>
    cases hst
    have hqueue : s.mount.db.openDb.queue = s.mount.db.queue := Mount.openDb_queue _
    exact ⟨hqueue ▸ h.queue, fun k hk => (nomatch hk), hqueue ▸ h.row⟩

theorem Wedged.run (h : Wedged p s) (hrun : ReflTransGen (Meanwhile p) s t) : Wedged p t := by
  induction hrun with
  | refl => exact h
  | tail _ hstep ih =>
    cases hstep with
    | worker a hst => exact ih.step hst
    | elsewhere hq hp ht => exact ⟨hq.wf ih.queue, by rw [ht]; exact ih.idle, by rw [hp]; exact ih.row⟩

/-- The tasks that are left only wait. -/
theorem Wedged.spares {id : String} (h : Wedged p s) : ¬ Removes p id s := by
  rintro ⟨i, newId, k, call, hreq, hp, -, hsome, hnone⟩
  obtain ⟨k', hk, hcall⟩ := Option.bind_eq_some_iff.mp hreq
  obtain ⟨call', hcall, he⟩ := Option.map_eq_some_iff.mp hcall
  cases he
  have hidle := works_false.mp (h.idle k (List.mem_of_getElem? hk)) hp
  cases hph : k.phase with
  | wait rid next =>
    rw [hph] at hcall
    cases hcall
    rw [Server.handle_getDocument] at hnone
    rw [hnone] at hsome
    cases hsome
  | sibling =>
    rw [hph] at hcall
    cases hcall
  | _ =>
    rw [hph] at hidle
    cases hidle

/-! ### A path without deletes -/

theorem NoDelete.step (hq : s.mount.db.queue.WF) (h : NoDelete p s) {a : Act} (hst : Drain.step s a = some t) :
    NoDelete p t ∧ t.mount.db.queue.WF := by
  obtain ⟨hrow, htasks⟩ := h
  have hput : ∀ {i : ℕ} {k : Task} (next : Option Phase), s.mount.tasks[i]? = some k →
      ∀ x ∈ Mount.putTask s.mount.tasks i k next, x.job.filepath = p → x.job.op ≠ .delete := by
    intro i k next hk x hx hp
    rcases Mount.mem_putTask hx with hx | ⟨ph, -, rfl⟩
    · exact htasks x hx hp
    · exact htasks k (List.mem_of_getElem? hk) hp
  cases a with
  | claim now =>
    obtain ⟨r, hr, -, -, hwf, ht, hget, -⟩ := claim_cases hq hst
    refine ⟨⟨fun x hx => ?_, fun k hk hp => ?_⟩, hwf⟩
    · rw [hget] at hx
      split_ifs at hx with hp
      · cases hx
        exact hrow r (hp ▸ hr)
      · exact hrow x hx
    · rw [ht] at hk
      rcases List.mem_append.mp hk with hk | hk
      · exact htasks k hk hp
      · obtain rfl := List.mem_singleton.mp hk
        have hp : r.filepath = p := hp
        exact (hrow r (hp ▸ hr)).1
  | taskDb i now =>
    obtain ⟨k, next, hk, hd, ht, -⟩ := taskDb_cases hst
    refine ⟨⟨fun x hx => ?_, by rw [ht]; exact hput next hk⟩, dbStep_wf hq hd⟩
    by_cases hp : k.job.filepath = p
    · rw [← hp] at hx
      obtain ⟨y, hy, hslots⟩ := dbStep_slots hd hx
      obtain ⟨hmain, hpend⟩ := hrow y (hp ▸ hy)
      rcases hslots with ⟨hm, hpn⟩ | ⟨hm, hpn⟩
      · rw [hm, hpn]
        exact ⟨hmain, hpend⟩
      · rw [hpn]
        exact ⟨hpend _ hm, fun pl he => by cases he⟩
    · rw [dbStep_get (Ne.symm hp) hd] at hx
      exact hrow x hx
  | serve i newId heard timedOut =>
    obtain ⟨k, c, next, -, hk, -, -, -, -, hm⟩ := serve_cases hst
    rw [hm]
    exact ⟨⟨by rw [hm]; exact hrow, by rw [hm]; exact hput (some next) hk⟩, hq⟩
  | fail i e timedOut =>
    obtain ⟨k, next, hk, -, rfl⟩ := fail_cases hst
    exact ⟨⟨hrow, hput (some next) hk⟩, hq⟩
  | finish id =>
    cases hst
    exact ⟨⟨hrow, htasks⟩, hq⟩
  | crash =>
    cases hst
    have hqueue : s.mount.db.openDb.queue = s.mount.db.queue := Mount.openDb_queue _
    exact ⟨⟨hqueue ▸ hrow, fun k hk => (nomatch hk)⟩, hqueue ▸ hq⟩

theorem NoDelete.run (hq : s.mount.db.queue.WF) (h : NoDelete p s) (hrun : ReflTransGen (Meanwhile p) s t) :
    NoDelete p t ∧ t.mount.db.queue.WF := by
  induction hrun with
  | refl => exact ⟨h, hq⟩
  | tail _ hstep ih =>
    cases hstep with
    | worker a hst => exact ih.1.step ih.2 hst
    | elsewhere hcalls hp ht =>
      refine ⟨⟨?_, ?_⟩, hcalls.wf ih.2⟩
      · rw [hp]
        exact ih.1.1
      · rw [ht]
        exact ih.1.2

/-! ### A row that is claimed -/

/-- Every row that may be claimed is claimed in some run: the rows before it
come first, and a restart ends their tasks. -/
theorem claim_comes {now : ℤ} {x : PushRow} : ∀ {n : ℕ} {s : St}, s.mount.db.queue.WF →
    s.mount.db.queue.get p = some x →
    claimable now x = true → s.mount.db.queue.rows.countP (claimable now) ≤ n →
    ∃ t, ReflTransGen (Meanwhile p) s t ∧ ⟨jobOf x, .start⟩ ∈ t.mount.tasks ∧ t.server = s.server := by
  intro n
  induction n with
  | zero =>
    intro s _ hx hc hn
    have : 0 < s.mount.db.queue.rows.countP (claimable now) := List.countP_pos_iff.mpr ⟨x, (get_some hx).1, hc⟩
    omega
  | succ n ih =>
    intro s hq hx hc hn
    have hqueue : s.mount.db.openDb.queue = s.mount.db.queue := Mount.openDb_queue _
    have hcrash : Meanwhile p s ⟨⟨s.mount.db.openDb, []⟩, s.server⟩ := .worker .crash rfl
    cases hclaim : s.mount.db.queue.claimNext now with
    | none =>
      have hnot := claimNext_none hclaim x (get_some hx).1
      rw [hc] at hnot
      cases hnot
    | some jq =>
      obtain ⟨j, q⟩ := jq
      have hwf := hq.claimNext hclaim
      have hstep : Meanwhile p ⟨⟨s.mount.db.openDb, []⟩, s.server⟩
          ⟨⟨{ s.mount.db.openDb with queue := q }, [⟨j, .start⟩]⟩, s.server⟩ := by
        refine .worker (.claim now) ?_
        show ((Mount.step ⟨s.mount.db.openDb, []⟩ (.claim now)).map fun m => (⟨m, s.server⟩ : St)) = _
        unfold Mount.step
        dsimp only
        rw [if_pos (by decide), hqueue, hclaim]
        rfl
      obtain ⟨y, hy, hyc, rfl, -, rfl⟩ := claimNext_spec hclaim
      have hget : (s.mount.db.queue.modify y.filepath (held now)).get p =
          if p = y.filepath then some (held now y) else s.mount.db.queue.get p := get_claimed (hq.get_mem hy)
      by_cases hp : p = y.filepath
      · have hxy : x = y := by
          rw [hp, hq.get_mem hy] at hx
          exact (Option.some.inj hx).symm
        exact ⟨_, .tail (.single hcrash) hstep, hxy ▸ List.mem_singleton_self _, rfl⟩
      · have hlt : (s.mount.db.queue.modify y.filepath (held now)).rows.countP (claimable now) <
            s.mount.db.queue.rows.countP (claimable now) := by
          refine countP_modify_lt hy hyc (fun z _ hz => ?_) ?_
          · split_ifs at hz with he
            · cases hz
            · exact hz
          · rw [if_pos rfl]
            rfl
        obtain ⟨t, hrun, hmem, hserver⟩ := ih
          (s := ⟨⟨{ s.mount.db.openDb with queue := s.mount.db.queue.modify y.filepath (held now) },
            [⟨jobOf y, .start⟩]⟩, s.server⟩)
          hwf (hget.trans ((if_neg hp).trans hx)) hc (by show (PushQueue.modify _ _ _).rows.countP _ ≤ n; omega)
        exact ⟨t, .head hcrash (.head hstep hrun), hmem, hserver⟩

/-- A row that deletes the document by its id, and may be claimed. -/
theorem condemned_of_row {x : PushRow} {id : String} (hq : s.mount.db.queue.WF) (hx : s.mount.db.queue.get p = some x)
    (hdel : x.main.op = .delete) (hid : x.remoteId = some id) (hc : claimable nowMs x = true)
    (hdoc : (s.server.get id).isSome = true) : ∃ t, ReflTransGen (Meanwhile p) s t ∧ Removes p id t := by
  obtain ⟨t, hrun, hmem, hserver⟩ := claim_comes hq hx hc le_rfl
  obtain ⟨i, hi⟩ := List.mem_iff_getElem?.mp hmem
  have hbegin : Task.begin t.mount.db (jobOf x) = .delete := by
    unfold Task.begin
    rw [show (jobOf x).op = .delete from hdel]
  have hstep : Drain.step t (.taskDb i nowMs) =
      some ⟨⟨t.mount.db, t.mount.tasks.set i ⟨jobOf x, .delete⟩⟩, t.server⟩ := by
    show ((t.mount.step (.taskDb i nowMs)).map fun m => { t with mount := m }) = _
    unfold Mount.step
    dsimp only
    rw [hi]
    show some _ = some _
    rw [hbegin]
    rfl
  refine ⟨_, hrun.tail (.worker _ hstep), i, "", ⟨jobOf x, .delete⟩, .deleteDocumentsByIds id, ?_,
    (get_some hx).2, hdel,
    by rw [hserver]; exact hdoc, ?_⟩
  · have hset : (t.mount.tasks.set i ⟨jobOf x, .delete⟩)[i]? = some ⟨jobOf x, .delete⟩ :=
      List.getElem?_set_self (List.getElem?_eq_some_iff.mp hi).1
    unfold request
    rw [hset]
    show (Task.call (jobOf x) .delete).map _ = _
    unfold Task.call
    rw [show (jobOf x).remoteId = some id from hid]
    rfl
  · show Table.get ServerDoc.id (Table.erase ServerDoc.id t.server id) id = none
    rw [Table.get_erase, if_pos rfl]

/-! ### The result -/

/-- A row that is never claimed again keeps to that when the delete is put into it. -/
theorem wedged_unlinked (h : Goes c s) (hn : isMacosNoisePath c.path = false)
    (hidle : ∀ k ∈ s.mount.tasks, works c.path k = false)
    {x : PushRow} (hx : s.mount.db.queue.get c.path = some x) (hrow : x.poisoned = true ∨ x.inflight = true) :
    Wedged c.path (unlinked c s) := by
  have hget : (unlinked c s).mount.db.queue.get c.path =
      some (s.mount.db.queue.upserted c.path ⟨.delete, none, none⟩ (idAfter c) c.nowMs) := by
    rw [queue_unlinked h, get_upsert hn, if_pos rfl]
  refine ⟨?_, hidle, fun y hy => ?_⟩
  · rw [queue_unlinked h]
    exact h.queue.upsert _ _ _ _
  · obtain rfl := Option.some.inj (hget.symm.trans hy)
    cases hi : x.inflight with
    | true =>
      rw [upserted_held hx hi]
      exact .inr hi
    | false =>
      rw [upserted_idle hx hi]
      rw [hi] at hrow
      exact .inl (hrow.resolve_right Bool.false_ne_true)

/-- A row that is free takes the delete with the id of the document. -/
theorem claimable_unlinked (h : Goes c s) (hn : isMacosNoisePath c.path = false) (hid : idAfter c = some c.id)
    (hfree : ∀ x, s.mount.db.queue.get c.path = some x → x.poisoned = false ∧ x.inflight = false) :
    ∃ x, (unlinked c s).mount.db.queue.get c.path = some x ∧ x.main.op = .delete ∧ x.remoteId = some c.id ∧
      claimable c.nowMs x = true := by
  have hget : (unlinked c s).mount.db.queue.get c.path =
      some (s.mount.db.queue.upserted c.path ⟨.delete, none, none⟩ (some c.id) c.nowMs) := by
    rw [queue_unlinked h, get_upsert hn, if_pos rfl, hid]
  refine ⟨_, hget, ?_⟩
  cases hx : s.mount.db.queue.get c.path with
  | none =>
    rw [upserted_none hx]
    exact ⟨rfl, rfl, claimable_iff.mpr ⟨rfl, rfl, le_rfl⟩⟩
  | some x =>
    obtain ⟨hp, hi⟩ := hfree x hx
    rw [upserted_idle hx hi]
    exact ⟨rfl, rfl, claimable_iff.mpr ⟨hi, hp, le_rfl⟩⟩

/-- **The unlink of one of several names comes to the removal of the document,
unless the path's row is never claimed again**, or is never written; where no
task works for the path it comes to it in every other case. -/
theorem spared_iff (h : Start c s) : (Harmless c.path s → ¬ Condemned c (unlinked c s)) ∧
    ((∀ k ∈ s.mount.tasks, works c.path k = false) → (¬ Condemned c (unlinked c s) ↔ Harmless c.path s)) := by
  have hwf : (unlinked c s).mount.db.queue.WF := by
    rw [queue_unlinked h.toGoes]
    exact h.queue.upsert _ _ _ _
  have hspared : Harmless c.path s → ¬ Condemned c (unlinked c s) := by
    rintro hharm ⟨t, hrun, hremoves⟩
    cases hn : isMacosNoisePath c.path with
    | true =>
      have hqueue := queue_unlinked h.toGoes
      rw [upsert_noise hn] at hqueue
      have hno : NoDelete c.path (unlinked c s) := ⟨by rw [hqueue]; exact (h.noise hn).1, (h.noise hn).2⟩
      obtain ⟨i, newId, k, call, hreq, hp, hop, -⟩ := hremoves
      obtain ⟨k', hk, hcall⟩ := Option.bind_eq_some_iff.mp hreq
      obtain ⟨call', -, he⟩ := Option.map_eq_some_iff.mp hcall
      cases he
      exact (hno.run hwf hrun).1.2 k (List.mem_of_getElem? hk) hp hop
    | false =>
      rcases hharm with hnoise | ⟨hidle, x, hx, hrow⟩
      · rw [hn] at hnoise
        cases hnoise
      · exact ((wedged_unlinked h.toGoes hn hidle hx hrow).run hrun).spares hremoves
  refine ⟨hspared, fun hidle => ⟨fun hnot => ?_, hspared⟩⟩
  by_contra hharm
  unfold Harmless at hharm
  push Not at hharm
  obtain ⟨hn, hrow⟩ := hharm
  have hfree : ∀ x, s.mount.db.queue.get c.path = some x → x.poisoned = false ∧ x.inflight = false := by
    intro x hx
    obtain ⟨hp, hi⟩ := hrow hidle x hx
    exact ⟨by simpa using hp, by simpa using hi⟩
  obtain ⟨x, hx, hop, hid, hc⟩ := claimable_unlinked h.toGoes (by simpa using hn) h.idAfter hfree
  exact hnot (condemned_of_row hwf hx hop hid hc h.doc)

end Lemmas

/-! ### One of two names -/

/-- A file with the names `a` and `b`, mapped to a document. -/
def twoNames : Db := ((Fs.link (Fs.createFile .fresh true ROOT_INO "a").2 2 ROOT_INO "b").2).setRemoteId 2 "r"

def first : Case := ⟨ROOT_INO, "a", 5, ⟨2, .reg, 2, 0, none, false⟩, "/a", "r"⟩

def mounted : St := ⟨⟨twoNames, []⟩, [⟨"r", "/a", [], true⟩]⟩

theorem first_start : Start first mounted := by
  have hone : WellFormed (Fs.createFile .fresh true ROOT_INO "a").2 := name_wf .start true 0 (.createFile ROOT_INO "a")
  have htwo : WellFormed (Fs.link (Fs.createFile .fresh true ROOT_INO "a").2 2 ROOT_INO "b").2 :=
    name_wf hone true 0 (.link 2 ROOT_INO "b")
  exact {
    queue := empty_wf
    unlinks := ⟨by decide, by decide, by decide, by decide⟩
    path := by decide
    mapped := by decide
    doc := by decide
    tables := htwo.setRemoteId (by decide)
    count := by decide
    other := ⟨⟨"b", ROOT_INO, 2⟩, by decide, rfl, by decide⟩
    noise := fun hn => absurd hn (by decide) }

theorem condemned_first : Condemned first (unlinked first mounted) := by
  by_contra hnot
  rcases ((spared_iff first_start).2 fun k hk => nomatch hk).mp hnot with hn | ⟨-, x, hx, -⟩
  · exact absurd hn (by decide)
  · cases hx

/-- The name `a` goes, and with it the document of the file that is still there as `b`. -/
theorem condemned : ¬ ∀ c s, Start c s → ¬ Condemned c (unlinked c s) := by
  intro hall
  have hwf : (unlinked first mounted).mount.db.queue.WF := by
    rw [queue_unlinked first_start.toGoes]
    exact empty_wf.upsert _ _ _ _
  obtain ⟨x, hx, hop, hid, hc⟩ := claimable_unlinked first_start.toGoes (by decide) first_start.idAfter fun x hx => by cases hx
  exact hall first mounted first_start (condemned_of_row hwf hx hop hid hc first_start.doc)

end HardLinks
end Smfs
