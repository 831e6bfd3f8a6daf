/-
# Batches of jobs

The tree operations run their jobs in batches, the jobs of a batch at once.
Jobs that tolerate each other in one batch do so in several: while a batch
runs, the ones to come wait, and what those that have ended reached stays
(`runBatches_safe`).

Key definitions: `Has`.
Key theorems: `has_of_list`, `runBatches_safe`.
-/
import Smfs.Lib.Rely
import Smfs.Bash.Listing
import Smfs.Bash.Shape

namespace Smfs.Bash

open Turns Relation

/-- The server has the document at the path. -/
def Has (s : Container) (id p : String) : Prop := ∃ d ∈ s.docs, d.id = id ∧ d.filepath = some p

variable {ι : Type} {w : World} {s : Container} {p q id : String}

/-! ### Containers -/

theorem stands_iff : Stands s p ↔ ∃ id, Has s id p :=
  ⟨fun ⟨d, hd, hp⟩ => ⟨d.id, d, hd, rfl, hp⟩, fun ⟨_, d, hd, _, hp⟩ => ⟨d, hd, hp⟩⟩

theorem update_ids (content : Option String) : (s.update id content q).2.docs.map Memory.id = s.docs.map Memory.id := by
  unfold Container.update
  cases s.get id with
  | none => rfl
  | some d₀ =>
    refine Table.map_modify _ _ _ _ fun r hr => ?_
    cases content <;> rfl

theorem has_of_list {params : ListParams} {m : Memory} (hm : m ∈ (s.list params).memories) (hp : m.filepath = some p) :
    Has s m.id p := by
  obtain ⟨d, hd, rfl⟩ := List.mem_map.mp hm
  refine ⟨d, (List.mem_filter.mp (Paging.mem_of_mem_page hd)).1, ?_, ?_⟩
  · split_ifs <;> rfl
  · rw [← hp]
    split_ifs <;> rfl

/-! ### One batch after another -/

/-- The batches one after another: where no job has an error, each has its end. -/
theorem runBatches_safe {S : Spec ι World (Option Thrown)} {is : List ι}
    {batches : List (List (Async World (Option Thrown)))}
    {sched : ℕ → List ℕ} {n : ℕ} (hnodup : is.Nodup) (htol : S.Tolerant is)
    (h : List.Forall₂ (S.safe w) is batches.flatten) :
    ReflTransGen (S.Step is) w (runBatches sched n batches w).2 ∧
      ((runBatches sched n batches w).1 = [] → ∀ i ∈ is, S.safe (runBatches sched n batches w).2 i (.ret none)) := by
  induction batches generalizing n w is with
  | nil =>
    obtain rfl := List.forall₂_nil_right_iff.mp h
    exact ⟨.refl, fun _ _ hi => (nomatch hi)⟩
  | cons batch rest ih =>
    rw [List.flatten_cons] at h
    generalize hnow : is.take batch.length = now
    generalize hlater : is.drop batch.length = later
    have hsplit : now ++ later = is := by rw [← hnow, ← hlater, List.take_append_drop]
    subst hsplit
    obtain ⟨hnow', hlater', hdisjoint⟩ := List.nodup_append.mp hnodup
    have hbatch : List.Forall₂ (S.safe w) now batch := hnow ▸ List.forall₂_take_append _ _ _ h
    have hrest : List.Forall₂ (S.safe w) later rest.flatten := hlater ▸ List.forall₂_drop_append _ _ _ h
    have hin : ∀ i ∈ now, i ∈ now ++ later := fun i hi => List.mem_append_left _ hi
    have hin' : ∀ i ∈ later, i ∈ now ++ later := fun i hi => List.mem_append_right _ hi
    have hended : Ended S now w (interleave (sched n) batch w) := interleave_safe hnow' (htol.mono hin) hbatch
    -- the batches to come wait
    have hwait : List.Forall₂ (S.safe (interleave (sched n) batch w).2) later rest.flatten :=
      forall₂_imp hrest fun i hi x hx => hx.others htol (hin' i hi)
        (fun j hj => ⟨hin j hj, hdisjoint j hj i hi⟩) hended.steps
    obtain ⟨hsteps, hends⟩ := ih (n := n + 1) hlater' (htol.mono hin') hwait
    unfold runBatches
    generalize interleave (sched n) batch w = r at hended hsteps hends
    obtain ⟨ended, t⟩ := r
    dsimp only at hended hsteps hends ⊢
    generalize runBatches sched (n + 1) rest t = r at hsteps hends
    obtain ⟨errors, u⟩ := r
    dsimp only at hsteps hends ⊢
    refine ⟨(Spec.steps_mono hin hended.steps).trans (Spec.steps_mono hin' hsteps), fun herr i hi => ?_⟩
    obtain ⟨hnone, herrors⟩ := List.append_eq_nil_iff.mp herr
    rcases List.mem_append.mp hi with hi | hi
    · obtain ⟨a, ha, hsafe⟩ := hended.results i hi
      have hnil : a = none := List.filterMap_eq_nil_iff.mp hnone a ha
      subst hnil
      exact hsafe.others htol (hin i hi) (fun j hj => ⟨hin' j hj, fun he => hdisjoint i hi j hj he.symm⟩) hsteps
    · exact hends herrors i hi

end Smfs.Bash
