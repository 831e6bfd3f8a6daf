/-
# Where the rows of the queue come from

A row keeps its rowid through every call of the file operations and the pull
side: it is changed in place, or moved by a retarget while no worker holds it.
So each row afterwards is new, or comes from one row, and has the document id
of that row or one that a call has brought (`Descends`). A held row stays
where it is, unless a retarget moves a row over it.

Key definitions: `PushQueue.Descends`.
Key theorems: `PushQueue.Descends.upsert`, `PushQueue.Descends.retarget`, `PushQueue.Descends.trans`.
-/
import Smfs.Queue

namespace Smfs
namespace PushQueue

/-- Each row is new or comes from one with its rowid, and the ids that rows gain have the property. Held rows stay. -/
structure Descends (C : String → Prop) (q q' : PushQueue) : Prop where
  next : q.nextRowid ≤ q'.nextRowid
  rows : ∀ p r, q'.get p = some r → q.nextRowid ≤ r.rowid ∨ ∃ p₀ r₀, q.get p₀ = some r₀ ∧ r₀.rowid = r.rowid ∧
    r.inflight = r₀.inflight ∧ (r₀.inflight = true → p₀ = p) ∧ ∀ rid, r.remoteId = some rid →
      r₀.remoteId = some rid ∨ C rid
  held : ∀ p r, q.get p = some r → r.inflight = true → ∃ r', q'.get p = some r' ∧ r'.rowid = r.rowid ∧
    r'.inflight = true

section Lemmas

variable {C : String → Prop} {q q' q'' : PushQueue} {p : String} {rid : Option String} {now : ℤ}

theorem Descends.refl : Descends C q q where
  next := le_rfl
  rows p r hr := .inr ⟨p, r, hr, rfl, rfl, fun _ => rfl, fun _ => .inl⟩
  held _ r hr hi := ⟨r, hr, rfl, hi⟩

theorem Descends.trans (h : Descends C q q') (h' : Descends C q' q'') : Descends C q q'' := by
  refine ⟨h.next.trans h'.next, fun p r hr => ?_, fun p r hr hi => ?_⟩
  · rcases h'.rows p r hr with hnew | ⟨p₁, r₁, hr₁, hid₁, hi₁, hp₁, hrid₁⟩
    · exact .inl (h.next.trans hnew)
    · rcases h.rows p₁ r₁ hr₁ with hnew | ⟨p₀, r₀, hr₀, hid₀, hi₀, hp₀, hrid₀⟩
      · exact .inl (hid₁ ▸ hnew)
      · refine .inr ⟨p₀, r₀, hr₀, hid₀.trans hid₁, hi₁.trans hi₀, fun hi => ?_, fun rid hrid => ?_⟩
        · exact (hp₀ hi).trans (hp₁ (hi₀.trans hi))
        · rcases hrid₁ rid hrid with hrid | hrid
          · exact hrid₀ rid hrid
          · exact .inr hrid
  · obtain ⟨r', hr', hid, hi'⟩ := h.held p r hr hi
    obtain ⟨r'', hr'', hid', hi''⟩ := h'.held p r' hr' hi'
    exact ⟨r'', hr'', hid'.trans hid, hi''⟩

/-- A change of one row in place. -/
theorem Descends.of_modify {f : PushRow → PushRow} (hf : ∀ r, (f r).filepath = r.filepath)
    (hid : ∀ r, (f r).rowid = r.rowid)
    (hi : ∀ r, (f r).inflight = r.inflight)
    (hrid : ∀ r rid, (f r).remoteId = some rid → r.remoteId = some rid ∨ C rid) :
    Descends C q (q.modify p f) := by
  have hget (p' : String) : (q.modify p f).get p' = if p' = p then (q.get p).map f else q.get p' := get_modify f hf
  refine ⟨le_rfl, fun p' r hr => .inr ?_, fun p' r hr hheld => ?_⟩
  · rw [hget] at hr
    split_ifs at hr with hp
    · obtain ⟨x, hx, rfl⟩ := Option.map_eq_some_iff.mp hr
      exact ⟨p, x, hx, (hid x).symm, hi x, fun _ => hp.symm, hrid x⟩
    · exact ⟨p', r, hr, rfl, rfl, fun _ => rfl, fun _ => .inl⟩
  · rw [hget]
    split_ifs with hp
    · subst hp
      exact ⟨f r, by rw [hr]; rfl, hid r, (hi r).trans hheld⟩
    · exact ⟨r, hr, rfl, hheld⟩

theorem Descends.setRemoteId (h : ∀ x ∈ rid, C x) : Descends C q (q.setRemoteId p rid) :=
  .of_modify (fun _ => rfl) (fun _ => rfl) (fun _ => rfl) fun _ x hx => .inr (h x hx)

theorem Descends.upsert {pl : Payload} (h : ∀ x ∈ rid, C x) : Descends C q (q.upsert p pl rid now) := by
  unfold PushQueue.upsert
  split_ifs
  · exact .refl
  · exact .of_modify (fun _ => rfl) (fun _ => rfl) (fun _ => rfl) fun _ _ => .inl
  · refine .of_modify (fun _ => rfl) (fun _ => rfl) (fun _ => rfl) fun r x hx => ?_
    have hor : rid.or r.remoteId = some x := hx
    cases rid with
    | none => exact .inl hor
    | some y => exact .inr (h x hor)
  · rename_i hnone
    have hget (p' : String) : PushQueue.get ⟨q.rows ++ [newRow q.nextRowid p pl rid now], q.nextRowid + 1⟩ p' =
        (q.get p').or (if p = p' then some (newRow q.nextRowid p pl rid now) else none) := by
      refine (Table.get_append _ _ _).trans ?_
      rw [Table.get_cons, Table.get_nil]
      rfl
    refine ⟨Nat.le_succ _, fun p' r hr => ?_, fun p' r hr hheld => ⟨r, ?_, rfl, hheld⟩⟩
    · rw [hget] at hr
      cases hg : q.get p' with
      | some x =>
        rw [hg] at hr
        obtain rfl := Option.some.inj hr
        exact .inr ⟨p', x, hg, rfl, rfl, fun _ => rfl, fun _ => .inl⟩
      | none =>
        rw [hg, Option.none_or] at hr
        split_ifs at hr
        obtain rfl := Option.some.inj hr
        exact .inl le_rfl
    · rw [hget, hr]
      rfl

/-- A retarget moves a row that no worker holds. The row that it moves it over, if any, must not be held. -/
theorem Descends.retarget {oldFp newFp : String} (h : ∀ x ∈ rid, C x)
    (hfree : (q.get oldFp).any retargetable = true → oldFp ≠ newFp → q.inflight newFp = false) :
    Descends C q (q.retargetPendingCreate oldFp newFp rid now).1 := by
  by_cases he : (q.get oldFp).any retargetable = true
  · obtain ⟨r, hr, hre⟩ := (Option.any_eq_true _ _).mp he
    have hidle : r.inflight = false := by
      simp only [retargetable, Bool.and_eq_true, Bool.not_eq_true'] at hre
      exact hre.1.2
    have hnext : q.nextRowid ≤ (q.retargetPendingCreate oldFp newFp rid now).1.nextRowid := by
      unfold retargetPendingCreate
      split_ifs <;> exact le_rfl
    by_cases hne : oldFp = newFp
    · subst hne
      have hdrop : (q.retargetPendingCreate oldFp oldFp rid now).1 = q.drop oldFp := by
        unfold retargetPendingCreate
        rw [if_pos he, get_drop_self]
        rfl
      refine ⟨hnext, fun p' x hx => ?_, fun p' x hx hheld => ⟨x, ?_, rfl, hheld⟩⟩
      · rw [hdrop, get_drop] at hx
        split_ifs at hx
        exact .inr ⟨p', x, hx, rfl, rfl, fun _ => rfl, fun _ => .inl⟩
      · rw [hdrop, get_drop, if_neg]
        · exact hx
        · rintro rfl
          obtain rfl := Option.some.inj (hr.symm.trans hx)
          exact absurd (hidle.symm.trans hheld) Bool.false_ne_true
    · have hget := (retarget_moved hne hr hre : _ ∧ ∀ p', (q.retargetPendingCreate oldFp newFp rid now).1.get p' = _).2
      refine ⟨hnext, fun p' x hx => .inr ?_, fun p' x hx hheld => ⟨x, ?_, rfl, hheld⟩⟩
      · rw [hget] at hx
        split_ifs at hx
        · obtain rfl := Option.some.inj hx
          refine ⟨oldFp, r, hr, rfl, rfl, fun hi => absurd (hidle.symm.trans hi) Bool.false_ne_true, fun y hy => ?_⟩
          have hor : rid.or r.remoteId = some y := hy
          cases rid with
          | none => exact .inl hor
          | some z => exact .inr (h y hor)
        · exact ⟨p', x, hx, rfl, rfl, fun _ => rfl, fun _ => .inl⟩
      · rw [hget, if_neg, if_neg]
        · exact hx
        · rintro rfl
          obtain rfl := Option.some.inj (hr.symm.trans hx)
          exact absurd (hidle.symm.trans hheld) Bool.false_ne_true
        · rintro rfl
          exact absurd hheld (by simp [inflight_eq_false.mp (hfree he hne) x hx])
  · rw [retarget_unmoved fun r hr => by simpa [hr] using he]
    exact .refl

end Lemmas

end PushQueue
end Smfs
