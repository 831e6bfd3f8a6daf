/-
# What the slots of the queue hold

A property of the slots of rows passes from state to state: only
`push_queue_upsert` puts a slot into the queue that was not there, every other
call moves slots or drops them, and a job is made of the main slot of its row
(`Slots`).

Key definitions: `PushQueue.Slots`.
Key theorems: `PushQueue.Slots.upsert`, `PushQueue.Slots.claimed`, `Task.dbStep_slots`.
-/
import Smfs.Push

namespace Smfs
namespace PushQueue

/-- Both slots of every row meet the property. -/
def Slots (C : Payload → Prop) (q : PushQueue) : Prop := ∀ r ∈ q.rows, C r.main ∧ ∀ pl ∈ r.pending, C pl

section Lemmas

variable {C : Payload → Prop} {q : PushQueue} {p : String}

theorem Slots.mono {C' : Payload → Prop} (h : Slots C q) (hc : ∀ pl, C pl → C' pl) : Slots C' q := fun r hr =>
  ⟨hc _ (h r hr).1, fun pl hp => hc pl ((h r hr).2 pl hp)⟩

theorem Slots.empty : Slots C empty := fun _ hr => (nomatch hr)

theorem Slots.modify {f : PushRow → PushRow} (h : Slots C q)
    (hf : ∀ r ∈ q.rows, C (f r).main ∧ ∀ pl ∈ (f r).pending, C pl) : Slots C (q.modify p f) := by
  intro r hr
  obtain ⟨x, hx, rfl⟩ := Table.mem_modify.mp hr
  split_ifs
  · exact hf x hx
  · exact h x hx

/-- The slots stay where only other columns change. -/
theorem Slots.modify_same {f : PushRow → PushRow} (h : Slots C q) (hm : ∀ r, (f r).main = r.main)
    (hp : ∀ r, (f r).pending = r.pending) : Slots C (q.modify p f) := by
  refine h.modify fun r hr => ?_
  rw [hm, hp]
  exact h r hr

theorem Slots.drop (h : Slots C q) : Slots C (q.drop p) := fun r hr => h r (Table.mem_erase.mp hr).1

theorem Slots.upsert {pl : Payload} {rid : Option String} {now : ℤ} (h : Slots C q) (hc : C pl) :
    Slots C (q.upsert p pl rid now) := by
  unfold PushQueue.upsert
  split_ifs
  · exact h
  · refine h.modify fun r hr => ⟨(h r hr).1, fun x hx => ?_⟩
    obtain rfl : pl = x := Option.some.inj hx
    exact hc
  · exact h.modify fun r hr => ⟨hc, (h r hr).2⟩
  · intro r hr
    rcases List.mem_append.mp hr with hr | hr
    · exact h r hr
    · obtain rfl := List.mem_singleton.mp hr
      exact ⟨hc, fun _ hx => (nomatch hx)⟩

theorem Slots.retarget {oldFp newFp : String} {rebind : Option String} {now : ℤ} (h : Slots C q) :
    Slots C (q.retargetPendingCreate oldFp newFp rebind now).1 := by
  unfold retargetPendingCreate
  split_ifs
  · exact h.drop.modify_same (fun _ => rfl) fun _ => rfl
  · exact h.drop
  · exact h

theorem Slots.setRemoteId {rid : Option String} (h : Slots C q) : Slots C (q.setRemoteId p rid) :=
  h.modify_same (fun _ => rfl) fun _ => rfl

theorem Slots.finalizeSuccess {now : ℤ} (h : Slots C q) : Slots C (q.finalizeSuccess p now) := by
  unfold PushQueue.finalizeSuccess
  split
  · rename_i pl hpl
    obtain ⟨r, hr, hrp⟩ := Option.bind_eq_some_iff.mp hpl
    have hc : C pl := (h r (get_some hr).1).2 pl hrp
    exact h.modify fun _ _ => ⟨hc, fun _ hx => (nomatch hx)⟩
  · exact h.drop

/-- A job is made of a slot. -/
theorem Slots.claimed {now : ℤ} {j : PushJob} {q' : PushQueue} (h : Slots C q) (hc : q.claimNext now = some (j, q')) :
    Slots C q' ∧ C j.payload := by
  obtain ⟨r, hr, -, rfl, -, rfl⟩ := claimNext_spec hc
  exact ⟨h.modify_same (fun _ => rfl) fun _ => rfl, (h r hr).1⟩

end Lemmas

end PushQueue

open PushQueue

/-- A task's call puts no slot into the queue. -/
theorem Task.dbStep_slots {C : Payload → Prop} {db db' : Db} {j : PushJob} {nowMs : ℤ} {ph : Phase}
    {next : Option Phase}
    (h : Task.dbStep db j nowMs ph = some (db', next)) (hs : Slots C db.queue) : Slots C db'.queue := by
  cases ph with
  | start | mapInode | markMirrored | clearDirty => cases h; exact hs
  | clearRemoteId rid => cases h; exact hs.setRemoteId
  | mapRow ino rid => cases h; exact hs.setRemoteId
  | succeed => cases h; exact hs.finalizeSuccess
  | fail error bo => cases h; exact hs.modify_same (fun _ => rfl) fun _ => rfl
  | poison status body b => cases h; exact hs.modify_same (fun _ => rfl) fun _ => rfl
  | drop => cases h; exact hs.drop
  | sibling status body =>
    cases h
    rw [Fs.createDerivedSibling_sameSync.queue]
    exact hs
  | wait | patch | post | upload | delete | lookup | rename => cases h

end Smfs
