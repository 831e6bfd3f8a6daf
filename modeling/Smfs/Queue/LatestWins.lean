/-
# Latest write wins, until a failure leaves a parked write behind

`push_queue_upsert` promises that the newest write wins in both slots of a
row. Run any number of upserts, claims, successes and failures from an empty
queue. As long as no upsert finds another write parked in a row that no worker holds
(`LatestOk`), the last job that succeeded for a filepath whose row is gone
carried its last upsert, and a parked write is the last upsert
(`latest_wins`).

A failure hands the row back with its pending slot full. The next upsert
then goes to the main slot, and its success promotes the older pending write
over it: `latest_lost` runs the queue into that state.

Key definitions: `Queue.St`, `Queue.step`, `Queue.LatestOk`, `Queue.Latest`.
Key theorems: `Queue.step_latest`, `Queue.latest_wins`, `Queue.latest_lost`.
-/
import Smfs.Lib.Reach
import Smfs.Queue

namespace Smfs
namespace Queue

open Trans PushQueue

/-- The queue, the jobs claimed and not yet finalized, and two histories that
no step reads: the last upsert of each filepath and the last job that
succeeded for it. -/
structure St where
  q : PushQueue
  jobs : List PushJob
  lastUpsert : String → Option Payload
  lastDone : String → Option Payload

/-- The calls of the queue. A finalize is made by the worker of a claimed job. -/
inductive Act
  | upsert (filepath : String) (pl : Payload) (remoteId : Option String) (nowMs : ℤ)
  | claim (nowMs : ℤ)
  | success (i : ℕ) (nowMs : ℤ)
  | failure (i : ℕ) (error : String) (nowMs backoffMs : ℤ)

def init : St := ⟨.empty, [], fun _ => none, fun _ => none⟩

def step (s : St) : Act → Option St
  | .upsert p pl rid now =>
    -- a noise path is refused before the table is read
    if isMacosNoisePath p then some s
    else some { s with q := s.q.upsert p pl rid now,
                       lastUpsert := Function.update s.lastUpsert p (some pl) }
  | .claim now => (s.q.claimNext now).map fun (j, q) => { s with q := q, jobs := j :: s.jobs }
  | .success i now =>
    s.jobs[i]?.map fun j =>
      { s with q := s.q.finalizeSuccess j.filepath now, jobs := s.jobs.eraseIdx i,
               lastDone := Function.update s.lastDone j.filepath (some j.payload) }
  | .failure i error now bo =>
    s.jobs[i]?.map fun j =>
      { s with q := s.q.finalizeFailure j.filepath error now bo, jobs := s.jobs.eraseIdx i }

/-- An upsert does not find another write parked in a row that no worker holds. -/
def LatestOk (s : St) : Act → Prop
  | .upsert p pl _ _ => isMacosNoisePath p = false → ∀ r, s.q.get p = some r → r.inflight = false →
      ∀ pl', r.pending = some pl' → pl' = pl
  | _ => True

/-- Once the row of a filepath is gone, the last job that succeeded for it
carried its last upsert; and a parked write is the last upsert, so no newer
one has been sent when it is promoted. -/
def Latest (s : St) : Prop :=
  ∀ p, (s.q.get p = none → s.lastDone p = s.lastUpsert p) ∧
    ∀ r pl, s.q.get p = some r → r.pending = some pl → some pl = s.lastUpsert p

/-! ### The invariant -/

/-- What the row of a filepath and the two histories know of each other. -/
def RowOk (s : St) (p : String) : Prop :=
  match s.q.get p with
  | none => s.lastDone p = s.lastUpsert p
  | some r => r.pending.or (some r.main) = s.lastUpsert p

/-- The jobs are those of the held rows, one each. -/
structure Inv (s : St) : Prop where
  wf : s.q.WF
  row : ∀ p, RowOk s p
  nodup : (s.jobs.map PushJob.filepath).Nodup
  held : ∀ j ∈ s.jobs, ∃ r, s.q.get j.filepath = some r ∧ r.inflight = true ∧ r.main = j.payload

theorem init_inv : Inv init :=
  ⟨empty_wf, fun _ => rfl, List.nodup_nil, fun _ h => by cases h⟩

theorem Inv.erase_nodup {s : St} (h : Inv s) (i : ℕ) :
    ((s.jobs.eraseIdx i).map PushJob.filepath).Nodup :=
  h.nodup.sublist ((List.eraseIdx_sublist _ _).map _)

theorem upsert_inv {s t : St} (h : Inv s) {p : String} {pl : Payload} {rid : Option String} {now : ℤ}
    (hok : LatestOk s (.upsert p pl rid now)) (hst : step s (.upsert p pl rid now) = some t) : Inv t := by
  simp only [step] at hst
  split_ifs at hst with hn
  · cases hst; exact h
  cases hst
  have hn' : isMacosNoisePath p = false := by simpa using hn
  refine ⟨h.wf.upsert _ _ _ _, fun p' => ?_, h.nodup, fun j hj => ?_⟩
  · by_cases hp : p' = p
    · subst hp
      unfold RowOk
      simp only [get_upsert hn', if_true, Function.update_self]
      cases hg : s.q.get p' with
      | none => simp [upserted_none hg, newRow]
      | some r =>
        cases hr : r.inflight
        · rw [upserted_idle hg hr]
          cases hpd : r.pending with
          | none => simp [replaced, hpd]
          | some pl' => simp [replaced, hpd, hok hn' r hg hr pl' hpd]
        · simp [upserted_held hg hr, parked]
    · have := h.row p'
      unfold RowOk at this ⊢
      simpa only [get_upsert hn', if_neg hp, Function.update_of_ne hp] using this
  · obtain ⟨r, hr, hi, hm⟩ := h.held j hj
    rw [get_upsert hn']
    by_cases hp : j.filepath = p
    · rw [hp] at hr ⊢
      exact ⟨parked pl now r, by rw [if_pos rfl, upserted_held hr hi], hi, hm⟩
    · exact ⟨r, by rw [if_neg hp, hr], hi, hm⟩

theorem claim_inv {s t : St} (h : Inv s) {now : ℤ} (hst : step s (.claim now) = some t) : Inv t := by
  unfold step at hst
  obtain ⟨⟨j, q'⟩, hc, rfl⟩ := Option.map_eq_some_iff.mp hst
  have hwf := h.wf.claimNext hc
  obtain ⟨r, hr, hcl, rfl, -, rfl⟩ := claimNext_spec hc
  have hg := h.wf.get_mem hr
  have hidle : r.inflight = false := by
    simp only [claimable, Bool.and_eq_true, Bool.not_eq_true'] at hcl; exact hcl.1.1
  have hfresh : ∀ j ∈ s.jobs, j.filepath ≠ r.filepath := by
    intro j hj he
    obtain ⟨r', hr', hi, -⟩ := h.held j hj
    rw [he, hg] at hr'
    cases hr'
    rw [hidle] at hi; cases hi
  refine ⟨hwf, fun p => ?_, ?_, fun j hj => ?_⟩
  · have := h.row p
    unfold RowOk at this ⊢
    simp only [get_claimed hg]
    by_cases hp : p = r.filepath
    · subst hp; simpa [hg, PushQueue.held] using this
    · simpa only [if_neg hp] using this
  · simp only [List.map_cons, List.nodup_cons]
    refine ⟨fun hm => ?_, h.nodup⟩
    obtain ⟨j, hj, he⟩ := List.mem_map.mp hm
    exact hfresh j hj he
  · rcases List.mem_cons.mp hj with rfl | hj
    · exact ⟨_, (get_claimed hg).trans (if_pos rfl), rfl, rfl⟩
    · obtain ⟨r', hr', hi, hm⟩ := h.held j hj
      exact ⟨r', (get_claimed hg).trans ((if_neg (hfresh j hj)).trans hr'), hi, hm⟩

theorem success_inv {s t : St} (h : Inv s) {i : ℕ} {now : ℤ} (hst : step s (.success i now) = some t) :
    Inv t := by
  unfold step at hst
  obtain ⟨j, hj, rfl⟩ := Option.map_eq_some_iff.mp hst
  obtain ⟨r, hr, -, hm⟩ := h.held j (List.mem_of_getElem? hj)
  refine ⟨h.wf.finalizeSuccess _ _, fun p => ?_, h.erase_nodup i, fun j' hj' => ?_⟩
  · have hrow := h.row p
    unfold RowOk at hrow ⊢
    simp only [get_finalizeSuccess]
    by_cases hp : p = j.filepath
    · subst hp
      rw [hr] at hrow
      simp only [if_true, hr, Option.bind_some, promoted, Function.update_self] at hrow ⊢
      cases hpd : r.pending with
      | none => simpa [hpd, hm] using hrow
      | some pl => simpa [hpd] using hrow
    · simpa only [if_neg hp, Function.update_of_ne hp] using hrow
  · obtain ⟨hmem, hne⟩ := Table.mem_eraseIdx h.nodup hj hj'
    obtain ⟨r', hr', hi, hm'⟩ := h.held j' hmem
    exact ⟨r', get_finalizeSuccess.trans ((if_neg hne).trans hr'), hi, hm'⟩

theorem failure_inv {s t : St} (h : Inv s) {i : ℕ} {error : String} {now bo : ℤ}
    (hst : step s (.failure i error now bo) = some t) : Inv t := by
  unfold step at hst
  obtain ⟨j, hj, rfl⟩ := Option.map_eq_some_iff.mp hst
  obtain ⟨r, hr, -, -⟩ := h.held j (List.mem_of_getElem? hj)
  refine ⟨h.wf.finalizeFailure _ _ _ _, fun p => ?_, h.erase_nodup i, fun j' hj' => ?_⟩
  · have hrow := h.row p
    unfold RowOk at hrow ⊢
    simp only [get_finalizeFailure]
    by_cases hp : p = j.filepath
    · subst hp
      simpa [hr, failed] using hrow
    · simpa only [if_neg hp] using hrow
  · obtain ⟨hmem, hne⟩ := Table.mem_eraseIdx h.nodup hj hj'
    obtain ⟨r', hr', hi, hm'⟩ := h.held j' hmem
    exact ⟨r', get_finalizeFailure.trans ((if_neg hne).trans hr'), hi, hm'⟩

theorem step_latest (s : St) (a : Act) (t : St) (h : Inv s) (hok : LatestOk s a)
    (hst : step s a = some t) : Inv t := by
  cases a with
  | upsert p pl rid now => exact upsert_inv h hok hst
  | claim now => exact claim_inv h hst
  | success i now => exact success_inv h hst
  | failure i error now bo => exact failure_inv h hst

theorem Inv.latest {s : St} (h : Inv s) : Latest s := fun p => by
  have hrow := h.row p
  unfold RowOk at hrow
  refine ⟨fun hg => by simpa [hg] using hrow, fun r pl hg hpd => ?_⟩
  simpa [hg, hpd] using hrow

/-- An upsert that does find one leaves it parked behind the newer write. -/
theorem latest_breaks {s t : St} {a : Act} (hst : step s a = some t) (hl : Latest t) :
    LatestOk s a := by
  cases a with
  | upsert p pl rid now =>
    intro hn r hg hr pl' hpd
    simp only [step, hn, Bool.false_eq_true, if_false, Option.some.injEq] at hst
    subst hst
    have hg' : (s.q.upsert p pl rid now).get p = some (replaced pl rid now r) := by
      rw [get_upsert hn, if_pos rfl, upserted_idle hg hr]
    have := (hl p).2 _ pl' hg' hpd
    simpa using this
  | claim | success | failure => trivial

/-- **Latest write wins, exactly when no upsert finds another write parked in
an idle row.** It holds in every state of every run whose steps all meet the
condition, and the first step that does not meet it breaks it. -/
theorem latest_wins (s : St) (h : Reach step LatestOk init s) :
    Latest s ∧ ∀ a t, step s a = some t → (Latest t ↔ LatestOk s a) := by
  have hi := h.inv init_inv step_latest
  refine ⟨hi.latest, fun a t hst => ⟨latest_breaks hst, fun hok => ?_⟩⟩
  exact (step_latest s a t hi hok hst).latest

instance : DecidableRel LatestOk
  | s, .upsert p pl _ _ => inferInstanceAs (Decidable (isMacosNoisePath p = false →
      ∀ r, s.q.get p = some r → r.inflight = false → ∀ pl', r.pending = some pl' → pl' = pl))
  | _, .claim _ | _, .success _ _ | _, .failure _ _ _ _ => isTrue trivial

/-- A create is sent while an update is parked behind it and fails; the retry
and the parked update are sent. Then another file is being sent, and an
update of it is parked. -/
def drainedRun : List Act :=
  [.upsert "/a.md" ⟨.create, some 2, none⟩ none 0, .claim 0,
   .upsert "/a.md" ⟨.update, some 2, some "/c.md"⟩ none 1, .failure 0 "network error" 2 500,
   .claim 502, .success 0 503, .claim 503, .success 0 504,
   .upsert "/b.md" ⟨.create, some 3, none⟩ none 600, .claim 600,
   .upsert "/b.md" ⟨.update, some 3, none⟩ none 601]

theorem latest_wins_drained :
    ∃ s, run step LatestOk init drainedRun = some s ∧
      (s.q.get "/a.md" = none ∧ s.lastDone "/a.md" = some ⟨.update, some 2, some "/c.md"⟩ ∧
        (s.q.get "/b.md").bind PushRow.pending = some ⟨.update, some 3, none⟩ ∧
        s.jobs.map PushJob.payload = [⟨.create, some 3, none⟩]) ∧
      Latest s := by
  obtain ⟨s, hs, hp⟩ := (Option.any_eq_true _ _).mp
    (by decide : (run step LatestOk init drainedRun).any (fun s => decide
      (s.q.get "/a.md" = none ∧ s.lastDone "/a.md" = some ⟨.update, some 2, some "/c.md"⟩ ∧
        (s.q.get "/b.md").bind PushRow.pending = some ⟨.update, some 3, none⟩ ∧
        s.jobs.map PushJob.payload = [⟨.create, some 3, none⟩])) = true)
  exact ⟨s, hs, of_decide_eq_true hp, (latest_wins s (.of_run hs)).1⟩

/-- A create is being sent, an update is parked behind it, the attempt fails,
a delete comes, and both slots are sent in turn. -/
def lostRun : List Act :=
  [.upsert "/a.md" ⟨.create, some 2, none⟩ none 0, .claim 0,
   .upsert "/a.md" ⟨.update, some 2, none⟩ none 1, .failure 0 "network error" 2 500,
   .upsert "/a.md" ⟨.delete, none, none⟩ none 3,
   .claim 3, .success 0 4, .claim 4, .success 0 5]

/-- Without the condition the row goes with the parked update as the last
job, and the delete, the last upsert, undone. -/
theorem latest_lost : ¬ ∀ s, Reach step anyStep init s → Latest s := by
  intro h
  obtain ⟨s, hs, hp⟩ : ∃ s, Reach step anyStep init s ∧
      ((s.q.get "/a.md").isNone && decide (s.lastDone "/a.md" ≠ s.lastUpsert "/a.md")) = true :=
    Reach.exists_of_run lostRun (by decide)
  simp only [Bool.and_eq_true, Option.isNone_iff_eq_none, decide_eq_true_eq] at hp
  exact hp.2 ((h s hs "/a.md").1 hp.1)

end Queue
end Smfs
