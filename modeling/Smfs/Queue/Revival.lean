/-
# A new edit at a path whose row was rejected

`push_queue_poison` takes a row out of the worker's reach and leaves its
pending slot as it is. No function sets the flag back: `push_queue_upsert`
replaces the main slot of a row that no worker holds and leaves it poisoned, so
the edit is not sent, and neither is what waits in the pending slot. An edit
makes its row eligible exactly where the row is not poisoned, noise apart
(`revives_iff`).

Key definitions: `Revival.WorkerStep`, `Revival.Sends`, `Revival.Revives`, `Revival.Revivable`.
Key theorems: `Revival.poisoned_silent`, `Revival.revives_iff`, `Revival.not_revived`.
-/
import Smfs.Push

namespace Smfs
namespace Revival

open PushQueue Relation

/-- A call of the worker: it claims a row, or it stamps or frees one that it holds. -/
inductive WorkerStep (q : PushQueue) : PushQueue → Prop
  | claim {now : ℤ} {j : PushJob} {q' : PushQueue} (h : q.claimNext now = some (j, q')) : WorkerStep q q'
  | stamp {p : String} (rid : Option String) (h : q.inflight p = true) : WorkerStep q (q.setRemoteId p rid)
  | free {p : String} {q' : PushQueue} (h : q.inflight p = true) (hf : Task.Frees q p q') : WorkerStep q q'

/-- The worker may come to claim the operation at the path. -/
def Sends (q : PushQueue) (p : String) (pl : Payload) : Prop :=
  ∃ q' now j q'', ReflTransGen WorkerStep q q' ∧ q'.claimNext now = some (j, q'') ∧ j.filepath = p ∧ j.payload = pl

/-- From the time on, the path's row may be claimed, and the job made from it carries the operation. -/
def Eligible (q : PushQueue) (p : String) (pl : Payload) (t : ℤ) : Prop :=
  ∃ r, q.get p = some r ∧ (∀ now, t ≤ now → claimable now r = true) ∧ (jobOf r).payload = pl

/-- The edit makes the row eligible, and what was parked when the row was poisoned is still to be sent. -/
def Revives (q : PushQueue) (p : String) (pl : Payload) (rid : Option String) (t : ℤ) : Prop :=
  Eligible (q.upsert p pl rid t) p pl t ∧
    ∀ r x, q.get p = some r → r.poisoned = true → r.pending = some x → Sends (q.upsert p pl rid t) p x

/-- The row is not poisoned; at the path of noise, where an edit changes nothing, it is what the edit asks for. -/
def Revivable (q : PushQueue) (p : String) (pl : Payload) (t : ℤ) : Prop :=
  if isMacosNoisePath p then ∃ r, q.get p = some r ∧ r.poisoned = false ∧ r.updatedAt ≤ t ∧ r.main = pl
  else ∀ r, q.get p = some r → r.poisoned = false

/-- The path's row is poisoned, and no worker holds it. -/
def Stuck (q : PushQueue) (p : String) : Prop := ∃ r, q.get p = some r ∧ r.poisoned = true ∧ r.inflight = false

section Lemmas

variable {q q' : PushQueue} {p : String} {pl x : Payload} {rid : Option String} {t now : ℤ}

theorem Stuck.unclaimed (hq : q.WF) (h : Stuck q p) {j : PushJob} (hc : q.claimNext now = some (j, q')) :
    j.filepath ≠ p := by
  obtain ⟨r, hr, hpois, -⟩ := h
  obtain ⟨y, hy, hclaim, rfl, -, -⟩ := claimNext_spec hc
  rintro rfl
  have hsame : q.get y.filepath = some y := hq.get_mem hy
  obtain rfl : y = r := Option.some.inj (hsame.symm.trans hr)
  rw [(claimable_iff.mp hclaim).2.1] at hpois
  cases hpois

theorem WorkerStep.wf (h : WorkerStep q q') (hq : q.WF) : q'.WF := by
  cases h with
  | claim h => exact hq.claimNext h
  | stamp rid h => exact hq.setRemoteId _ rid
  | free h hf => exact hf.wf hq

/-- A worker only touches rows that it may claim, or that it holds. -/
theorem Stuck.step (hq : q.WF) (h : Stuck q p) (hs : WorkerStep q q') : Stuck q' p := by
  obtain ⟨r, hr, hpois, hidle⟩ := h
  have hfree : q.inflight p = false := by
    refine inflight_eq_false.mpr fun r' hr' => ?_
    obtain rfl : r = r' := Option.some.inj (hr.symm.trans hr')
    exact hidle
  have hother {p' : String} (hp : q.inflight p' = true) : p ≠ p' := by
    rintro rfl
    rw [hfree] at hp
    cases hp
  cases hs with
  | claim hc =>
    have hunclaimed := Stuck.unclaimed hq ⟨r, hr, hpois, hidle⟩ hc
    obtain ⟨y, hy, -, rfl, -, rfl⟩ := claimNext_spec hc
    have hne : y.filepath ≠ p := hunclaimed
    refine ⟨r, ?_, hpois, hidle⟩
    rw [get_claimed (hq.get_mem hy), if_neg (Ne.symm hne)]
    exact hr
  | stamp rid hp =>
    refine ⟨r, ?_, hpois, hidle⟩
    rw [get_setRemoteId, if_neg (hother hp)]
    exact hr
  | free hp hf =>
    refine ⟨r, ?_, hpois, hidle⟩
    cases hf with
    | success now => rw [get_finalizeSuccess, if_neg (hother hp), hr]
    | failure error now bo => rw [get_finalizeFailure, if_neg (hother hp), hr]
    | poison status reason now => rw [get_poison, if_neg (hother hp), hr]
    | drop => rw [get_drop, if_neg (hother hp), hr]

theorem Stuck.run (hq : q.WF) (h : Stuck q p) (hrun : ReflTransGen WorkerStep q q') : q'.WF ∧ Stuck q' p := by
  induction hrun with
  | refl => exact ⟨hq, h⟩
  | tail _ hs ih => exact ⟨hs.wf ih.1, ih.2.step ih.1 hs⟩

/-- Nothing is ever sent for a poisoned row. -/
theorem poisoned_silent (hq : q.WF) (h : Stuck q p) : ¬ Sends q p x := by
  rintro ⟨q', now, j, q'', hrun, hc, hj, -⟩
  have hinv := h.run hq hrun
  exact hinv.2.unclaimed hinv.1 hc hj

/-- An edit leaves the flag as it is. -/
theorem upserted_poisoned {r : PushRow} (hr : q.get p = some r) (hidle : r.inflight = false) :
    (q.upserted p pl rid t).poisoned = r.poisoned ∧ (q.upserted p pl rid t).inflight = false := by
  rw [upserted_idle hr hidle]
  exact ⟨rfl, hidle⟩

theorem upsert_stuck {r : PushRow} (hr : q.get p = some r) (hidle : r.inflight = false) (hpois : r.poisoned = true) :
    Stuck (q.upsert p pl rid t) p := by
  cases hn : isMacosNoisePath p with
  | true =>
    rw [upsert_noise hn]
    exact ⟨r, hr, hpois, hidle⟩
  | false =>
    have hup : (q.upserted p pl rid t).poisoned = r.poisoned ∧ (q.upserted p pl rid t).inflight = false :=
      upserted_poisoned hr hidle
    exact ⟨_, (get_upsert hn).trans (if_pos rfl), hup.1.trans hpois, hup.2⟩

theorem due_iff {r : PushRow} : (∀ now, t ≤ now → claimable now r = true) ↔
    r.inflight = false ∧ r.poisoned = false ∧ r.updatedAt ≤ t := by
  constructor
  · exact fun h => claimable_iff.mp (h t le_rfl)
  · rintro ⟨hi, hp, hu⟩ now hnow
    exact claimable_iff.mpr ⟨hi, hp, hu.trans hnow⟩

theorem payload_jobOf {r : PushRow} : (jobOf r).payload = r.main := rfl

theorem eligible_upsert (hidle : ∀ r, q.get p = some r → r.inflight = false) (h : Revivable q p pl t) :
    Eligible (q.upsert p pl rid t) p pl t := by
  unfold Revivable at h
  cases hn : isMacosNoisePath p with
  | true =>
    rw [hn, if_pos rfl] at h
    obtain ⟨r, hr, hpois, hu, hmain⟩ := h
    rw [upsert_noise hn]
    exact ⟨r, hr, due_iff.mpr ⟨hidle r hr, hpois, hu⟩, payload_jobOf.trans hmain⟩
  | false =>
    rw [hn, if_neg Bool.false_ne_true] at h
    refine ⟨q.upserted p pl rid t, (get_upsert hn).trans (if_pos rfl), ?_⟩
    cases hr : q.get p with
    | none =>
      rw [upserted_none hr]
      exact ⟨due_iff.mpr ⟨rfl, rfl, le_rfl⟩, rfl⟩
    | some r =>
      rw [upserted_idle hr (hidle r hr)]
      exact ⟨due_iff.mpr ⟨hidle r hr, h r hr, le_rfl⟩, rfl⟩

/-- **An edit makes its row eligible, and loses nothing that was parked, exactly
where the row is not poisoned**, or the path is one of noise and its row is what
the edit asks for; and what was parked in a poisoned row is never sent. -/
theorem revives_iff (hq : q.WF) (hidle : ∀ r, q.get p = some r → r.inflight = false) :
    (Revives q p pl rid t ↔ Revivable q p pl t) ∧
      ∀ r x, q.get p = some r → r.poisoned = true → ¬ Sends (q.upsert p pl rid t) p x := by
  have hsilent : ∀ r x, q.get p = some r → r.poisoned = true → ¬ Sends (q.upsert p pl rid t) p x :=
    fun r x hr hpois => poisoned_silent (hq.upsert _ _ _ _) (upsert_stuck hr (hidle r hr) hpois)
  refine ⟨⟨?_, fun h => ⟨eligible_upsert hidle h, fun r x hr hpois _ => ?_⟩⟩, hsilent⟩
  · rintro ⟨⟨r', hr', hclaim, hmain⟩, -⟩
    obtain ⟨-, hpois, hu⟩ := due_iff.mp hclaim
    unfold Revivable
    cases hn : isMacosNoisePath p with
    | true =>
      rw [if_pos rfl]
      rw [upsert_noise hn] at hr'
      exact ⟨r', hr', hpois, hu, hmain⟩
    | false =>
      rw [if_neg Bool.false_ne_true]
      intro r hr
      rw [get_upsert hn, if_pos rfl] at hr'
      obtain rfl := Option.some.inj hr'
      exact (upserted_poisoned hr (hidle r hr)).1.symm.trans hpois
  · unfold Revivable at h
    split_ifs at h
    · obtain ⟨r', hr', hgood, -⟩ := h
      obtain rfl : r = r' := Option.some.inj (hr.symm.trans hr')
      rw [hpois] at hgood
      cases hgood
    · rw [h r hr] at hpois
      cases hpois

/-- A create is sent, an update of the file waits meanwhile, and the server rejects the create. -/
def rejectedWithPending : PushQueue :=
  (((empty.upsert "/bad.xyz" ⟨.create, some 2, none⟩ none 0).modify "/bad.xyz" (held 1)).upsert "/bad.xyz"
    ⟨.update, some 2, none⟩ none 2).poison "/bad.xyz" 415 "unsupported" 3

/-- Beside it a row whose create failed with an update parked. -/
def rejectedAndFailed : PushQueue :=
  (((rejectedWithPending.upsert "/a.md" ⟨.create, some 3, none⟩ none 4).modify "/a.md" (held 4)).upsert "/a.md"
    ⟨.update, some 3, none⟩ none 5).finalizeFailure "/a.md" "network error" 6 500

theorem rejectedWithPending_wf : rejectedWithPending.WF :=
  (((empty_wf.upsert _ _ _ _).modify (f := held 1) _ (fun _ => rfl) fun _ => rfl).upsert _ _ _ _).poison _ _ _ _

/-- An edit revives the row whose create failed; an edit at the path of the
poisoned row does not, and what is parked there is never sent. -/
theorem revives_failed :
    (rejectedAndFailed.get "/bad.xyz").map (fun r => (r.poisoned, r.pending)) =
        some (true, some ⟨.update, some 2, none⟩) ∧
      Revives rejectedAndFailed "/a.md" ⟨.update, some 3, none⟩ none 7 ∧
      ¬ Revives rejectedAndFailed "/bad.xyz" ⟨.create, some 2, none⟩ none 7 ∧
      ¬ Sends (rejectedAndFailed.upsert "/bad.xyz" ⟨.create, some 2, none⟩ none 7) "/bad.xyz"
        ⟨.update, some 2, none⟩ := by
  have hwf : rejectedAndFailed.WF :=
    (((rejectedWithPending_wf.upsert _ _ _ _).modify (f := held 4) _ (fun _ => rfl) fun _ => rfl).upsert
      _ _ _ _).finalizeFailure _ _ _ _
  have hrow : (rejectedAndFailed.get "/bad.xyz").map (fun r => (r.poisoned, r.pending)) =
      some (true, some ⟨.update, some 2, none⟩) := by decide
  obtain ⟨r, hr, hpair⟩ := Option.map_eq_some_iff.mp hrow
  obtain ⟨hpois, hpend⟩ := Prod.mk.inj hpair
  have hbad := @revives_iff rejectedAndFailed "/bad.xyz" ⟨.create, some 2, none⟩ none 7 hwf (by decide)
  refine ⟨hrow, (revives_iff hwf (by decide)).1.mpr ?_, fun h => ?_, hbad.2 r _ hr hpois⟩
  · unfold Revivable
    rw [if_neg (by decide)]
    decide
  · have hrev := hbad.1.mp h
    unfold Revivable at hrev
    rw [if_neg (by decide)] at hrev
    rw [hrev r hr] at hpois
    cases hpois

/-- The file is written again, and the row stays poisoned. -/
theorem not_revived : ¬ ∀ q p pl rid t, PushQueue.WF q → (∀ r, q.get p = some r → r.inflight = false) →
    Revives q p pl rid t := by
  intro hall
  have hidle : ∀ r, rejectedWithPending.get "/bad.xyz" = some r → r.inflight = false := by decide
  obtain ⟨⟨r, hr, hclaim, -⟩, -⟩ := hall _ "/bad.xyz" ⟨.update, some 2, none⟩ none 4 rejectedWithPending_wf hidle
  have hpois : (((rejectedWithPending.upsert "/bad.xyz" ⟨.update, some 2, none⟩ none 4).get "/bad.xyz").map
      PushRow.poisoned) = some true := by decide
  rw [hr, Option.map_some, (due_iff.mp hclaim).2.1] at hpois
  cases hpois

end Lemmas

end Revival
end Smfs
