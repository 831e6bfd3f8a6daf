/-
# A worker's row, until a rename moves another row over it

Workers name their row by its filepath. `push_queue_claim_next` hands out
only rows that no worker holds, so the held rows and the workers stay in
step: one worker for each filepath, and at its filepath the very row it
claimed (`Owned`). One call can take that row away:
`push_queue_retarget_pending_create` deletes the row at the destination of a
rename without looking whether it is held, and puts another row there.
`owned` proves ownership for every run in which no retarget that moves a row
finds the destination's row held (`OwnOk`), and that the first one that does
breaks it; `stolen` is a run in which the worker of the old row then deletes
the new one, whose content no worker sent.

Key definitions: `Ownership.St`, `Ownership.step`, `Ownership.Owned`, `Ownership.OwnOk`.
Key theorems: `Ownership.step_inv`, `Ownership.owned`, `Ownership.stolen`.
-/
import Smfs.Lib.Reach
import Smfs.Queue

namespace Smfs
namespace Ownership

open Trans PushQueue

/-- A worker: the job it executes, and the row it claimed. -/
structure Worker where
  job : PushJob
  rowid : ℕ
  deriving DecidableEq, Repr

def Worker.filepath (w : Worker) : String := w.job.filepath

structure St where
  q : PushQueue
  workers : List Worker
  deriving DecidableEq

/-- The calls on the queue: those of the file operations, and those of the
workers, which name the `i`-th of them. -/
inductive Act
  | upsert (filepath : String) (pl : Payload) (remoteId : Option String) (nowMs : ℤ)
  | retarget (oldFp newFp : String) (rebind : Option String) (nowMs : ℤ)
  | claim (nowMs : ℤ)
  | setRemoteId (i : ℕ) (remoteId : Option String)
  | success (i : ℕ) (nowMs : ℤ)
  | failure (i : ℕ) (error : String) (nowMs backoffMs : ℤ)
  | poison (i : ℕ) (httpStatus : ℕ) (reason : String) (nowMs : ℤ)

def init : St := ⟨.empty, []⟩

/-- The worker that has claimed a row. -/
def workerOf (r : PushRow) : Worker := ⟨jobOf r, r.rowid⟩

/-- A worker's last call on the queue. -/
def finish (s : St) (i : ℕ) (f : PushQueue → String → PushQueue) : Option St :=
  s.workers[i]?.map fun w => ⟨f s.q w.filepath, s.workers.eraseIdx i⟩

def step (s : St) : Act → Option St
  | .upsert p pl rid now => some { s with q := s.q.upsert p pl rid now }
  | .retarget old new rebind now => some { s with q := (s.q.retargetPendingCreate old new rebind now).1 }
  | .claim now =>
    (s.q.nextRow now).map fun r => ⟨s.q.modify r.filepath (held now), workerOf r :: s.workers⟩
  | .setRemoteId i rid => s.workers[i]?.map fun w => { s with q := s.q.setRemoteId w.filepath rid }
  | .success i now => finish s i fun q p => q.finalizeSuccess p now
  | .failure i error now bo => finish s i fun q p => q.finalizeFailure p error now bo
  | .poison i status reason now => finish s i fun q p => q.poison p status reason now

/-- The claim step is `push_queue_claim_next`. -/
theorem step_claim (s : St) (now : ℤ) :
    (step s (.claim now)).map (fun t => (t.q, t.workers.map Worker.job)) =
      (s.q.claimNext now).map fun (j, q) => (q, j :: s.workers.map Worker.job) := by
  simp only [step, claimNext]
  cases s.q.nextRow now <;> rfl

/-- One worker for a filepath, and at its filepath the row it claimed. -/
def Owned (s : St) : Prop :=
  (s.workers.map Worker.filepath).Nodup ∧
  ∀ w ∈ s.workers, ∃ r, s.q.get w.filepath = some r ∧ r.rowid = w.rowid ∧ r.inflight = true

/-- A retarget that moves a row does not find the destination's row held. -/
def OwnOk (s : St) : Act → Prop
  | .retarget old new _ _ => (s.q.get old).any retargetable = true → s.q.inflight new = false
  | _ => True

/-! ### The invariant -/

/-- Ownership, and every held row has its worker. -/
structure Inv (s : St) : Prop where
  wf : s.q.WF
  owned : Owned s
  worker : ∀ p r, s.q.get p = some r → r.inflight = true → ∃ w ∈ s.workers, w.filepath = p

theorem init_inv : Inv init :=
  ⟨empty_wf, ⟨List.nodup_nil, fun _ h => by cases h⟩, fun _ _ h => by cases h⟩

/-- A call that changes no rowid and no held mark keeps ownership. -/
theorem Inv.frame {s : St} (h : Inv s) {q : PushQueue} (hwf : q.WF)
    (hsome : ∀ p r, s.q.get p = some r → r.inflight = true →
      ∃ r', q.get p = some r' ∧ r'.rowid = r.rowid ∧ r'.inflight = true)
    (hback : ∀ p r', q.get p = some r' → r'.inflight = true →
      ∃ r, s.q.get p = some r ∧ r.inflight = true) : Inv { s with q := q } := by
  refine ⟨hwf, ⟨h.owned.1, fun w hw => ?_⟩, fun p r' hr' hi => ?_⟩
  · obtain ⟨r, hr, he, hi⟩ := h.owned.2 w hw
    obtain ⟨r', hr', he', hi'⟩ := hsome _ r hr hi
    exact ⟨r', hr', he'.trans he, hi'⟩
  · obtain ⟨r, hr, hi⟩ := hback p r' hr' hi
    exact h.worker p r hr hi

theorem upsert_inv {s : St} (h : Inv s) (p : String) (pl : Payload) (rid : Option String) (now : ℤ) :
    Inv { s with q := s.q.upsert p pl rid now } := by
  cases hn : isMacosNoisePath p
  · refine h.frame (h.wf.upsert _ _ _ _) (fun p' r hr hi => ?_) fun p' r' hr' hi' => ?_
    · rw [get_upsert hn]
      by_cases hp : p' = p
      · subst hp
        exact ⟨parked pl now r, by rw [if_pos rfl, upserted_held hr hi], rfl, hi⟩
      · exact ⟨r, by rw [if_neg hp, hr], rfl, hi⟩
    · rw [get_upsert hn] at hr'
      by_cases hp : p' = p
      · subst hp
        simp only [if_true, Option.some.injEq] at hr'
        subst hr'
        cases hg : s.q.get p' with
        | none => rw [upserted_none hg] at hi'; cases hi'
        | some r =>
          refine ⟨r, rfl, ?_⟩
          by_contra hr
          have hr : r.inflight = false := by simpa using hr
          rw [upserted_idle hg hr] at hi'
          exact absurd (hr.symm.trans hi') (by decide)
      · rw [if_neg hp] at hr'
        exact ⟨r', hr', hi'⟩
  · rw [upsert_noise hn]; exact h

theorem retarget_inv {s : St} (h : Inv s) {old new : String} {rebind : Option String} {now : ℤ}
    (hok : OwnOk s (.retarget old new rebind now)) :
    Inv { s with q := (s.q.retargetPendingCreate old new rebind now).1 } := by
  by_cases he : (s.q.get old).any retargetable = true
  · obtain ⟨r, hr, hre⟩ := (Option.any_eq_true _ _).mp he
    have hidle : r.inflight = false := by
      simp only [retargetable, Bool.and_eq_true, Bool.not_eq_true'] at hre; exact hre.1.2
    by_cases hne : old = new
    · -- a path onto itself: only the row's deletion happens
      subst hne
      have hd : (s.q.retargetPendingCreate old old rebind now).1 = s.q.drop old := by
        simp [retargetPendingCreate, he, get_drop_self]
      rw [hd]
      refine h.frame (h.wf.drop _) (fun p x hx hi => ?_) fun p x hx hi => ?_
      · have hp : p ≠ old := fun hp => by
          rw [hp, hr] at hx; cases hx; rw [hidle] at hi; cases hi
        exact ⟨x, by rw [get_drop, if_neg hp, hx], rfl, hi⟩
      · rw [get_drop] at hx
        split_ifs at hx
        exact ⟨x, hx, hi⟩
    · have hget : ∀ p, (s.q.retargetPendingCreate old new rebind now).1.get p = _ :=
        (retarget_moved hne hr hre).2
      refine h.frame (h.wf.retarget _ _ _ _) (fun p x hx hi => ?_) fun p x hx hi => ?_
      · have h1 : p ≠ new := fun hp => by
          have := inflight_eq_false.mp (hok he) x (hp ▸ hx)
          rw [this] at hi; cases hi
        have h2 : p ≠ old := fun hp => by
          rw [hp, hr] at hx; cases hx; rw [hidle] at hi; cases hi
        exact ⟨x, by rw [hget, if_neg h1, if_neg h2, hx], rfl, hi⟩
      · rw [hget] at hx
        split_ifs at hx
        · cases hx
          have : r.inflight = true := hi
          rw [hidle] at this; cases this
        · exact ⟨x, hx, hi⟩
  · rw [retarget_unmoved fun r hr => ?_]
    · exact h
    · simpa [hr] using he

theorem claim_inv {s t : St} (h : Inv s) {now : ℤ} (hst : step s (.claim now) = some t) : Inv t := by
  simp only [step] at hst
  obtain ⟨r, hnx, rfl⟩ := Option.map_eq_some_iff.mp hst
  have hmem := List.mem_filter.mp (List.minOn?_mem hnx)
  have hg := h.wf.get_mem hmem.1
  have hidle : r.inflight = false := by
    have := hmem.2
    simp only [claimable, Bool.and_eq_true, Bool.not_eq_true'] at this
    exact this.1.1
  have hfresh : ∀ w ∈ s.workers, w.filepath ≠ r.filepath := by
    intro w hw he
    obtain ⟨r', hr', -, hi⟩ := h.owned.2 w hw
    rw [he, hg] at hr'
    cases hr'
    rw [hidle] at hi; cases hi
  refine ⟨h.wf.modify _ (fun _ => rfl) fun _ => rfl, ⟨?_, fun w hw => ?_⟩, fun p x hx hi => ?_⟩
  · simp only [List.map_cons, List.nodup_cons]
    refine ⟨fun hm => ?_, h.owned.1⟩
    obtain ⟨w, hw, he⟩ := List.mem_map.mp hm
    exact hfresh w hw he
  · rcases List.mem_cons.mp hw with rfl | hw
    · exact ⟨_, (get_claimed hg).trans (if_pos rfl), rfl, rfl⟩
    · obtain ⟨r', hr', he, hi⟩ := h.owned.2 w hw
      exact ⟨r', (get_claimed hg).trans ((if_neg (hfresh w hw)).trans hr'), he, hi⟩
  · rw [get_claimed hg] at hx
    by_cases hp : p = r.filepath
    · exact ⟨_, List.mem_cons_self, hp.symm⟩
    · rw [if_neg hp] at hx
      obtain ⟨w, hw, he⟩ := h.worker p x hx hi
      exact ⟨w, List.mem_cons_of_mem _ hw, he⟩

/-- A worker's last call leaves the other filepaths alone and its row free. -/
theorem finish_inv {s t : St} (h : Inv s) {i : ℕ} {f : PushQueue → String → PushQueue}
    (hst : finish s i f = some t) (hwf : ∀ p, (f s.q p).WF)
    (hne : ∀ p p', p' ≠ p → (f s.q p).get p' = s.q.get p')
    (hfree : ∀ p r, (f s.q p).get p = some r → r.inflight = false) : Inv t := by
  unfold finish at hst
  obtain ⟨w, hw, rfl⟩ := Option.map_eq_some_iff.mp hst
  refine ⟨hwf _, ⟨?_, fun w' hw' => ?_⟩, fun p x hx hi => ?_⟩
  · exact h.owned.1.sublist ((List.eraseIdx_sublist _ _).map _)
  · obtain ⟨hm, hnp⟩ := Table.mem_eraseIdx h.owned.1 hw hw'
    obtain ⟨r, hr, he, hi⟩ := h.owned.2 w' hm
    exact ⟨r, (hne _ _ hnp).trans hr, he, hi⟩
  · have hp : p ≠ w.filepath := fun hp => by
      rw [hp] at hx
      have := hfree _ x hx
      rw [this] at hi; cases hi
    rw [hne _ _ hp] at hx
    obtain ⟨w', hw', he⟩ := h.worker p x hx hi
    obtain ⟨k, hk⟩ := List.mem_iff_getElem?.mp hw'
    refine ⟨w', List.mem_eraseIdx_iff_getElem?.mpr ⟨k, fun hki => ?_, hk⟩, he⟩
    subst hki
    rw [hw] at hk
    cases hk
    exact hp he.symm

theorem step_inv (s : St) (a : Act) (t : St) (h : Inv s) (hok : OwnOk s a) (hst : step s a = some t) :
    Inv t := by
  cases a with
  | upsert p pl rid now => cases hst; exact upsert_inv h p pl rid now
  | retarget old new rebind now => cases hst; exact retarget_inv h hok
  | claim now => exact claim_inv h hst
  | setRemoteId i rid =>
    obtain ⟨w, -, rfl⟩ := Option.map_eq_some_iff.mp hst
    refine h.frame (h.wf.setRemoteId _ _) (fun p r hr hi => ?_) fun p r' hr' hi' => ?_
    · rw [get_setRemoteId]
      split_ifs with hp
      · rw [← hp, hr]; exact ⟨_, rfl, rfl, hi⟩
      · exact ⟨r, hr, rfl, hi⟩
    · rw [get_setRemoteId] at hr'
      split_ifs at hr' with hp
      · obtain ⟨r, hr, rfl⟩ := Option.map_eq_some_iff.mp hr'
        exact ⟨r, hp ▸ hr, hi'⟩
      · exact ⟨r', hr', hi'⟩
  | success i now =>
    have hfin : finish s i (fun q p => q.finalizeSuccess p now) = some t := hst
    refine finish_inv h hfin (fun p => h.wf.finalizeSuccess p now)
      (fun p p' hp => get_finalizeSuccess.trans (if_neg hp)) fun p r hr => ?_
    rw [get_finalizeSuccess, if_pos rfl] at hr
    obtain ⟨x, -, hx⟩ := Option.bind_eq_some_iff.mp hr
    obtain ⟨pl, -, rfl⟩ := Option.map_eq_some_iff.mp hx
    rfl
  | failure i error now bo =>
    have hfin : finish s i (fun q p => q.finalizeFailure p error now bo) = some t := hst
    refine finish_inv h hfin (fun p => h.wf.finalizeFailure p error now bo)
      (fun p p' hp => get_finalizeFailure.trans (if_neg hp)) fun p r hr => ?_
    rw [get_finalizeFailure, if_pos rfl] at hr
    obtain ⟨x, -, rfl⟩ := Option.map_eq_some_iff.mp hr
    rfl
  | poison i status reason now =>
    have hfin : finish s i (fun q p => q.poison p status reason now) = some t := hst
    refine finish_inv h hfin (fun p => h.wf.poison p status reason now)
      (fun p p' hp => get_poison.trans (if_neg hp)) fun p r hr => ?_
    rw [get_poison, if_pos rfl] at hr
    obtain ⟨x, -, rfl⟩ := Option.map_eq_some_iff.mp hr
    rfl

/-- A retarget onto a held row takes the row from its worker. -/
theorem owned_breaks {s t : St} {a : Act} (h : Inv s) (hst : step s a = some t) (ht : Owned t) :
    OwnOk s a := by
  cases a with
  | retarget old new rebind now =>
    cases hst
    intro he
    obtain ⟨r, hr, hre⟩ := (Option.any_eq_true _ _).mp he
    by_contra hc
    obtain ⟨x, hx, hi⟩ := inflight_eq_true.mp (by simpa using hc)
    have hne : old ≠ new := fun hon => by
      rw [hon, hx] at hr
      cases hr
      simp [retargetable, hi] at hre
    obtain ⟨w, hw, rfl⟩ := h.worker new x hx hi
    obtain ⟨y, hy, hyr, -⟩ := ht.2 w hw
    rw [(retarget_moved hne hr hre).2, if_pos rfl] at hy
    cases hy
    -- the moved row has its own rowid, not the one the worker claimed
    obtain ⟨x', hx', hxw, -⟩ := h.owned.2 w hw
    rw [hx] at hx'
    cases hx'
    have hid : r.rowid = x.rowid := hyr.trans hxw.symm
    have hrx := h.wf.rowid_inj (get_some hr).1 (get_some hx).1 hid
    exact hne ((get_some hr).2.symm.trans (hrx ▸ (get_some hx).2))
  | upsert | claim | setRemoteId | success | failure | poison => trivial

/-- **A worker's row is its own, exactly when no retarget finds the
destination's row held.** Ownership holds in every state of every run whose
steps all meet the condition, so every call a worker makes is on the row it
claimed; and the first retarget that does not meet it breaks ownership. -/
theorem owned (s : St) (h : Reach step OwnOk init s) :
    Owned s ∧ ∀ a t, step s a = some t → (Owned t ↔ OwnOk s a) := by
  have hi := h.inv init_inv step_inv
  refine ⟨hi.owned, fun a t hst => ⟨owned_breaks hi hst, fun hok => ?_⟩⟩
  exact (step_inv s a t hi hok hst).owned

instance : DecidableRel OwnOk
  | s, .retarget old new _ _ =>
    inferInstanceAs (Decidable ((s.q.get old).any retargetable = true → s.q.inflight new = false))
  | _, .upsert _ _ _ _ | _, .claim _ | _, .setRemoteId _ _ | _, .success _ _ | _, .failure _ _ _ _
  | _, .poison _ _ _ _ => isTrue trivial

/-- A worker sends `/final.md` while `/tmp.md` is created and renamed over
`/other.md`, whose own row waits; a second worker claims the row moved there,
and the first one fails. -/
def movedRun : List Act :=
  [.upsert "/final.md" ⟨.update, some 2, none⟩ (some "d1") 0, .claim 0,
   .upsert "/other.md" ⟨.update, some 4, none⟩ (some "d2") 1, .upsert "/tmp.md" ⟨.create, some 3, none⟩ none 1,
   .retarget "/tmp.md" "/other.md" (some "d2") 2, .claim 2, .failure 1 "network error" 3 500]

/-- The second worker owns the third row, where the second row was. -/
theorem owned_moved :
    ∃ s, run step OwnOk init movedRun = some s ∧
      (s.workers = [⟨⟨"/other.md", .create, some 3, none, some "d2", 0⟩, 3⟩] ∧
        s.q.rows.map (fun r => (r.rowid, r.filepath, r.inflight)) =
          [(1, "/final.md", false), (3, "/other.md", true)]) ∧
      Owned s := by
  obtain ⟨s, hs, hp⟩ := (Option.any_eq_true _ _).mp
    (by decide : (run step OwnOk init movedRun).any (fun s => decide
      (s.workers = [⟨⟨"/other.md", .create, some 3, none, some "d2", 0⟩, 3⟩] ∧
        s.q.rows.map (fun r => (r.rowid, r.filepath, r.inflight)) =
          [(1, "/final.md", false), (3, "/other.md", true)])) = true)
  exact ⟨s, hs, of_decide_eq_true hp, (owned s (.of_run hs)).1⟩

/-- A worker sends `/final.md`; `/tmp.md` is created, flushed and renamed over it. -/
def stolenRun : List Act :=
  [.upsert "/final.md" ⟨.update, some 2, none⟩ (some "d1") 0, .claim 0,
   .upsert "/tmp.md" ⟨.create, some 3, none⟩ none 1,
   .retarget "/tmp.md" "/final.md" (some "d1") 2]

/-- Without the condition the worker of the old row is left with the row of
the new content, and its success deletes that row: the queue is empty and
nobody has claimed the create. -/
theorem stolen :
    ¬ (∀ s, Reach step anyStep init s → Owned s) ∧
    (run step anyStep init (stolenRun ++ [.success 0 3])).map (fun s => (s.q.rows, s.workers)) =
      some ([], []) := by
  refine ⟨fun h => ?_, by decide⟩
  obtain ⟨s, hs, hp⟩ : ∃ s, Reach step anyStep init s ∧
      (s.workers.any fun w => (s.q.get w.filepath).all fun r => r.rowid ≠ w.rowid) = true :=
    Reach.exists_of_run stolenRun (by decide)
  obtain ⟨w, hw, hr⟩ := List.any_eq_true.mp hp
  obtain ⟨r, hg, he, -⟩ := (h s hs).2 w hw
  simp [hg, he] at hr

end Ownership
end Smfs
