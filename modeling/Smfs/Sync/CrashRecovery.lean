/-
# Crash recovery of the push queue

`push.rs` promises a durable, crash-safe write path. The table survives a
crash with the marks of the rows that were held, and nothing clears them:
`Db::open` creates what is missing and inserts the root. So a row that a
task held at the crash stays held for ever, is never claimed again, and parks
every later write behind it.

`recovered` proves that this is all: in every run in which no row is held at
a crash (`CrashOk`), every held row has a task that will free it, every other
row that is not poisoned is handed out at any time after its `updated_at`,
and a new write is where one or the other finds it; and a crash keeps this
exactly if no row is held. `wedged` is a run that crashes while a row is
held.

Key definitions: `PushQueue.claims`, `Recovered`, `CrashOk`.
Key theorems: `PushQueue.mem_claims`, `recovered_step`, `recovered`, `wedged`.
-/
import Smfs.Mount

namespace Smfs

namespace PushQueue

/-- The jobs that `push_queue_claim_next` returns at one time, in at most
`fuel` calls. -/
def claims (q : PushQueue) (nowMs : ℤ) : ℕ → List PushJob
  | 0 => []
  | fuel + 1 =>
    match q.claimNext nowMs with
    | some (j, q) => j :: claims q nowMs fuel
    | none => []

theorem countP_modify_lt {rows : List PushRow} {p : PushRow → Bool} {f : PushRow → PushRow} {x : PushRow}
    (hx : x ∈ rows) (hp : p x = true) (hf : ∀ r ∈ rows, p (f r) = true → p r = true) (hfx : p (f x) = false) :
    (rows.map f).countP p < rows.countP p := by
  induction rows with
  | nil => cases hx
  | cons y rows ih =>
    have hle : (rows.map f).countP p ≤ rows.countP p := by
      rw [List.countP_map]
      exact List.countP_mono_left fun r hr => hf r (List.mem_cons_of_mem _ hr)
    rw [List.map_cons, List.countP_cons, List.countP_cons]
    rcases List.mem_cons.mp hx with rfl | hx
    · rw [hp, hfx]
      simp only [Bool.false_eq_true, if_false, if_true]
      omega
    · have hlt := ih hx fun r hr => hf r (List.mem_cons_of_mem _ hr)
      by_cases hy : p (f y) = true
      · rw [hy, hf y List.mem_cons_self hy]
        omega
      · rw [if_neg hy]
        omega

/-- **Every claimable row is handed out.** Each call takes the row of the
smallest `updated_at`, and leaves the others claimable. -/
theorem mem_claims {q : PushQueue} {now : ℤ} : ∀ {fuel : ℕ} {r : PushRow}, q.WF → r ∈ q.rows →
    claimable now r = true → q.rows.countP (claimable now) ≤ fuel → jobOf r ∈ q.claims now fuel := by
  intro fuel
  induction fuel generalizing q with
  | zero =>
    intro r _ hr hc hn
    have : 0 < q.rows.countP (claimable now) := List.countP_pos_iff.mpr ⟨r, hr, hc⟩
    omega
  | succ fuel ih =>
    intro r hq hr hc hn
    cases h : q.claimNext now with
    | none =>
      have := claimNext_none h r hr
      rw [hc] at this
      cases this
    | some jq =>
      obtain ⟨j, q'⟩ := jq
      have hq' := hq.claimNext h
      obtain ⟨x, hx, hxc, rfl, -, rfl⟩ := claimNext_spec h
      simp only [claims, h]
      by_cases hrx : r = x
      · rw [hrx]
        exact List.mem_cons_self
      · have hne : r.filepath ≠ x.filepath := fun he => by
          have h1 := hq.get_mem hr
          have h2 := hq.get_mem hx
          rw [he, h2] at h1
          exact hrx (Option.some.inj h1).symm
        have hr' : r ∈ (q.modify x.filepath (held now)).rows :=
          Table.mem_modify.mpr ⟨r, hr, (if_neg hne).symm⟩
        have hlt : (q.modify x.filepath (held now)).rows.countP (claimable now) <
            q.rows.countP (claimable now) := by
          refine countP_modify_lt hx hxc (fun y _ hy => ?_) ?_
          · split_ifs at hy with he
            · cases hy
            · exact hy
          · rw [if_pos rfl]
            rfl
        exact List.mem_cons_of_mem _ (ih hq' hr' hc (by omega))

end PushQueue

namespace CrashRecovery

open Trans PushQueue

/-- The row of a filepath has a task that will free it. -/
def Served (m : Mount) (p : String) : Prop := ∃ k ∈ m.tasks, k.job.filepath = p ∧ k.phase.owes = true

/-- A row is handed out at any time after its `updated_at`. -/
def Returned (q : PushQueue) (r : PushRow) : Prop :=
  ∀ now, r.updatedAt ≤ now → jobOf r ∈ q.claims now q.rows.length

/-- A write waits in the main slot of a row that is handed out, or behind the
job of a task. -/
def Waits (m : Mount) (q : PushQueue) (p : String) (pl : Payload) : Prop :=
  ∃ r, q.get p = some r ∧ r.poisoned = false ∧
    (r.main = pl ∧ Returned q r ∨ r.pending = some pl ∧ Served m p)

/-- Every held row has its task, every other row is handed out unless it is
poisoned, and a new write waits where it will be found. -/
structure Recovered (m : Mount) : Prop where
  held : ∀ p, m.db.queue.inflight p = true → Served m p
  idle : ∀ r ∈ m.db.queue.rows, r.inflight = false → r.poisoned = false → Returned m.db.queue r
  write : ∀ p pl rid now, isMacosNoisePath p = false →
    (∀ r, m.db.queue.get p = some r → r.poisoned = false) →
    Waits m (m.db.queue.upsert p pl rid now) p pl

/-- No row is held at a crash. -/
def CrashOk (m : Mount) : Mount.Act → Prop
  | .crash => ∀ r ∈ m.db.queue.rows, r.inflight = false
  | _ => True

/-! ### The invariant -/

structure Inv (m : Mount) : Prop where
  wf : m.db.queue.WF
  held : ∀ p, m.db.queue.inflight p = true → Served m p

theorem fresh_inv : Inv Mount.fresh := ⟨empty_wf, fun _ h => by cases h⟩

/-- Moving a task on, or ending it, leaves the other tasks in place. -/
theorem served_putTask {m : Mount} {i : ℕ} {k : Task} {next : Option Phase} {p : String}
    (hk : m.tasks[i]? = some k) (hs : Served m p)
    (hnext : k.job.filepath = p → k.phase.owes = true → ∃ ph, next = some ph ∧ ph.owes = true) :
    ∃ k' ∈ Mount.putTask m.tasks i k next, k'.job.filepath = p ∧ k'.phase.owes = true := by
  obtain ⟨k', hk', hp, ho⟩ := hs
  obtain ⟨n, hn⟩ := List.mem_iff_getElem?.mp hk'
  have hlt : i < m.tasks.length := (List.getElem?_eq_some_iff.mp hk).1
  by_cases hin : n = i
  · subst hin
    rw [hk] at hn
    cases hn
    obtain ⟨ph, rfl, hph⟩ := hnext hp ho
    exact ⟨{ k with phase := ph }, List.mem_iff_getElem?.mpr ⟨n, List.getElem?_set_self hlt⟩, hp, hph⟩
  · exact ⟨k', Mount.mem_putTask_of_ne hn hin, hp, ho⟩

theorem inflight_claimed {q q' : PushQueue} {now : ℤ} {j : PushJob} {p : String} (hq : q.WF)
    (h : q.claimNext now = some (j, q')) (hi : q'.inflight p = true) :
    p = j.filepath ∨ q.inflight p = true := by
  obtain ⟨r, hr, -, rfl, -, rfl⟩ := claimNext_spec h
  obtain ⟨x, hx, hxi⟩ := inflight_eq_true.mp hi
  rw [get_claimed (hq.get_mem hr)] at hx
  by_cases hp : p = r.filepath
  · exact .inl hp
  · rw [if_neg hp] at hx
    exact .inr (inflight_eq_true.mpr ⟨x, hx, hxi⟩)

theorem recovered_step (m : Mount) (a : Mount.Act) (t : Mount) (h : Inv m) (hok : CrashOk m a)
    (hst : Mount.step m a = some t) : Inv t := by
  cases Mount.step_queue hst with
  | client hq ht =>
    refine ⟨hq.wf h.wf, fun p hi => ?_⟩
    unfold Served
    rw [ht]
    exact h.held p (hq.inflight hi)
  | claim now j hc ht =>
    refine ⟨h.wf.claimNext hc, fun p hi => ?_⟩
    unfold Served
    rw [ht]
    rcases inflight_claimed h.wf hc hi with rfl | hi
    · exact ⟨_, List.mem_append_right _ List.mem_cons_self, rfl, rfl⟩
    · obtain ⟨k, hk, hp⟩ := h.held p hi
      exact ⟨k, List.mem_append_left _ hk, hp⟩
  | task i now k next hk hd ht =>
    rcases Task.dbStep_queue hd with hf | ⟨hc, ho⟩
    · refine ⟨hf.wf h.wf, fun p hi => ?_⟩
      obtain ⟨hi, hne⟩ := hf.inflight hi
      unfold Served
      rw [ht]
      exact served_putTask hk (h.held p hi) fun he => absurd he.symm hne
    · refine ⟨hc.wf h.wf, fun p hi => ?_⟩
      unfold Served
      rw [ht]
      exact served_putTask hk (h.held p (hc.inflight hi)) fun _ => ho
  | answer i answer timedOut k next hk hn hq ht =>
    refine ⟨by rw [hq]; exact h.wf, fun p hi => ?_⟩
    rw [hq] at hi
    unfold Served
    rw [ht]
    exact served_putTask hk (h.held p hi) fun _ ho => ⟨next, rfl, Task.answered_owes ho hn⟩
  | crash ha hq ht =>
    subst ha
    refine ⟨by rw [hq]; exact h.wf, fun p hi => ?_⟩
    rw [hq] at hi
    obtain ⟨r, hr, hri⟩ := inflight_eq_true.mp hi
    have hidle : r.inflight = false := hok r (get_some hr).1
    rw [hri] at hidle
    cases hidle

/-! ### The result -/

theorem returned_of_idle {q : PushQueue} (hq : q.WF) {r : PushRow} (hr : r ∈ q.rows)
    (hi : r.inflight = false) (hp : r.poisoned = false) : Returned q r := by
  intro now hnow
  have hc : claimable now r = true := by simp [claimable, hi, hp, hnow]
  exact mem_claims hq hr hc List.countP_le_length

theorem waits_upsert {m : Mount} (h : Inv m) {p : String} {pl : Payload} {rid : Option String} {now : ℤ}
    (hn : isMacosNoisePath p = false) (hrow : ∀ r, m.db.queue.get p = some r → r.poisoned = false) :
    Waits m (m.db.queue.upsert p pl rid now) p pl := by
  have hwf := h.wf.upsert p pl rid now
  have hget : (m.db.queue.upsert p pl rid now).get p = some (m.db.queue.upserted p pl rid now) :=
    (get_upsert hn).trans (if_pos rfl)
  have hmem := (get_some hget).1
  cases hg : m.db.queue.get p with
  | none =>
    rw [upserted_none hg] at hget hmem
    exact ⟨_, hget, rfl, .inl ⟨rfl, returned_of_idle hwf hmem rfl rfl⟩⟩
  | some r =>
    have hp := hrow r hg
    cases hi : r.inflight
    · rw [upserted_idle hg hi] at hget hmem
      exact ⟨_, hget, hp, .inl ⟨rfl, returned_of_idle hwf hmem hi hp⟩⟩
    · rw [upserted_held hg hi] at hget
      exact ⟨_, hget, hp, .inr ⟨rfl, h.held p (inflight_eq_true.mpr ⟨r, hg, hi⟩)⟩⟩

theorem Inv.holds {m : Mount} (h : Inv m) : Recovered m :=
  ⟨h.held, fun _ hr hi hp => returned_of_idle h.wf hr hi hp,
    fun _ _ _ _ hn hrow => waits_upsert h hn hrow⟩

/-- A row that is held at a crash has no task afterwards. -/
theorem recovered_breaks {m t : Mount} (hwf : m.db.queue.WF) (hst : Mount.step m .crash = some t)
    (ht : Recovered t) : CrashOk m .crash := by
  cases hst
  intro r hr
  by_contra hi
  have hri : r.inflight = true := by simpa using hi
  have hheld : m.db.openDb.queue.inflight r.filepath = true := by
    rw [Mount.openDb_queue]
    exact inflight_eq_true.mpr ⟨r, hwf.get_mem hr, hri⟩
  obtain ⟨k, hk, -⟩ := ht.held _ hheld
  cases hk

/-- **The queue recovers from crashes at which no row is held, and from no
others.** -/
theorem recovered (m : Mount) (h : Reach Mount.step CrashOk .fresh m) :
    Recovered m ∧ ∀ t, Mount.step m .crash = some t → (Recovered t ↔ CrashOk m .crash) := by
  have hi := h.inv fresh_inv recovered_step
  refine ⟨hi.holds, fun t hst => ⟨recovered_breaks hi.wf hst, fun hok => ?_⟩⟩
  exact (recovered_step m .crash t hi hok hst).holds

instance : DecidableRel CrashOk
  | m, .crash => inferInstanceAs (Decidable (∀ r ∈ m.db.queue.rows, r.inflight = false))
  | _, .createFile _ _ | _, .write _ _ _ _ | _, .truncate _ _ | _, .flush _ _ | _, .unlink _ _ _
  | _, .rename _ _ _ _ _ | _, .reconcile _ _ | _, .applyDeletion _ | _, .rehydrate _ _
  | _, .poll _ _ _ _ | _, .claim _ | _, .taskDb _ _ | _, .taskAnswer _ _ _ => isTrue trivial

/-- Three files are written and flushed, and the mount crashes with their rows
queued. Then the first file is posted, and the second is being sent. -/
def drainedRun : List Mount.Act :=
  let a : SqliteFile := ⟨2, true, some "/a.md"⟩
  let b : SqliteFile := ⟨3, true, some "/b.md"⟩
  let c : SqliteFile := ⟨4, true, some "/c.md"⟩
  [.createFile 1 "a.md", .write a 0 [97] 0, .flush a 0, .createFile 1 "b.md", .write b 0 [98] 1, .flush b 1,
   .createFile 1 "c.md", .write c 0 [99] 2, .flush c 2, .crash,
   .claim 1000, .taskDb 0 1000, .taskAnswer 0 (.created "d1") false, .taskDb 0 1001, .taskDb 0 1002,
   .taskAnswer 0 (.status "done") false, .taskDb 0 1003, .taskDb 0 1004, .taskDb 0 1005,
   .claim 1006, .taskDb 0 1006]

/-- What was queued at the crash is sent after it: the first row is gone, the
second has its task, and the third is handed out. -/
theorem recovered_drained :
    ∃ m, run Mount.step CrashOk .fresh drainedRun = some m ∧
      (m.db.queue.rows.map (fun r => (r.filepath, r.inflight)) = [("/b.md", true), ("/c.md", false)] ∧
        m.tasks.map (fun k => (k.job.filepath, k.phase)) = [("/b.md", .post 3 [98])]) ∧
      Recovered m := by
  obtain ⟨m, hm, hp⟩ := (Option.any_eq_true _ _).mp
    (by decide : (run Mount.step CrashOk .fresh drainedRun).any (fun m => decide
      (m.db.queue.rows.map (fun r => (r.filepath, r.inflight)) = [("/b.md", true), ("/c.md", false)] ∧
        m.tasks.map (fun k => (k.job.filepath, k.phase)) = [("/b.md", .post 3 [98])])) = true)
  exact ⟨m, hm, of_decide_eq_true hp, (recovered m (.of_run hm)).1⟩

/-- A file is created, written and flushed, its row is claimed, and the mount
crashes before the task has done anything. -/
def wedgedRun : List Mount.Act :=
  let f : SqliteFile := ⟨2, true, some "/a.md"⟩
  [.createFile 1 "a.md", .write f 0 [97] 0, .flush f 0, .claim 500, .crash]

/-- Without the condition the row stays held without a task, and a write that
comes after the crash is parked behind it: nothing is ever claimed. -/
theorem wedged : ¬ (∀ m, Reach Mount.step anyStep .fresh m → Recovered m) ∧
    (run Mount.step anyStep .fresh (wedgedRun ++ [.write ⟨2, true, some "/a.md"⟩ 0 [98] 1000,
      .flush ⟨2, true, some "/a.md"⟩ 1000])).map (fun m => m.db.queue.claims 1000000 1) = some [] := by
  refine ⟨fun h => ?_, by decide⟩
  obtain ⟨m, hm, hp⟩ : ∃ m, Reach Mount.step anyStep .fresh m ∧
      (m.db.queue.inflight "/a.md" && m.tasks.isEmpty) = true :=
    Reach.exists_of_run wedgedRun (by decide)
  simp only [Bool.and_eq_true, List.isEmpty_iff] at hp
  obtain ⟨k, hk, -⟩ := (h m hm).held _ hp.1
  rw [hp.2] at hk
  cases hk

end CrashRecovery
end Smfs
