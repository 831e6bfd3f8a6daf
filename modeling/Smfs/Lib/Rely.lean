/-
# What a task keeps while others run

A task is `Safe` if, from a state it starts in and with only `R`-steps of others
between its sections, each of its sections takes a `G`-step and its result
meets `Q`, also after further `R`-steps. Tasks each of which tolerates what the
others do (`Tolerant`) end with their own results met, in any schedule and in
any number of batches; tasks that have a part of the state each do
(`Spec.parts`).

Key definitions: `Safe`, `Succeeds`, `Spec`, `Tolerant`, `Spec.parts`.
Key theorems: `Safe.bind`, `Succeeds.bind`, `interleave_safe`, `interleave_answers`.
-/
import Mathlib.Data.List.Forall2
import Mathlib.Data.List.Nodup
import Smfs.Lib.Async

namespace Turns

open Relation

variable {ι σ ε α β γ : Type} {R G : σ → σ → Prop} {s t : σ}

/-- The task, started in this state, keeps to `G` and ends with `Q` as long as
the others keep to `R`. -/
def Safe (R G : σ → σ → Prop) (Q : α → σ → Prop) : Async σ α → σ → Prop
  | .ret a, s => ∀ t, ReflTransGen R s t → Q a t
  | .act f k, s => ∀ t, ReflTransGen R s t → G t (f t) ∧ Safe R G Q (k t) (f t)

theorem Safe.stable {Q : α → σ → Prop} {x : Async σ α} (h : Safe R G Q x s) (hst : ReflTransGen R s t) :
    Safe R G Q x t := by
  cases x with
  | ret a => exact fun u hu => h u (hst.trans hu)
  | act f k => exact fun u hu => h u (hst.trans hu)

theorem Safe.bind {P : α → σ → Prop} {Q : β → σ → Prop} {x : Async σ α} {g : α → Async σ β} (h : Safe R G P x s)
    (hg : ∀ a t, P a t → Safe R G Q (g a) t) : Safe R G Q (x >>= g) s := by
  induction x generalizing s with
  | ret a => exact hg a s (h s .refl)
  | act f k ih => exact fun t ht => ⟨(h t ht).1, ih t (h t ht).2⟩

/-- Alone, the task takes `G`-steps to its result. -/
theorem Safe.run {Q : α → σ → Prop} {x : Async σ α} (h : Safe R G Q x s) :
    ReflTransGen G s (x.run s).2 ∧ Safe R G Q (.ret (x.run s).1) (x.run s).2 := by
  induction x generalizing s with
  | ret a => exact ⟨.refl, h⟩
  | act f k ih =>
    obtain ⟨hstep, hrest⟩ := h s .refl
    obtain ⟨hsteps, hend⟩ := ih s hrest
    exact ⟨.head hstep hsteps, hend⟩

/-! ### Computations that may throw -/

/-- The job does not throw, and its result meets `Q`. -/
def Succeeds (R G : σ → σ → Prop) (Q : α → σ → Prop) (x : Job ε σ α) (s : σ) : Prop :=
  Safe R G (fun r t => ∃ a, r = .ok a ∧ Q a t) x.run s

theorem succeeds_pure {Q : α → σ → Prop} {a : α} (h : ∀ t, ReflTransGen R s t → Q a t) :
    Succeeds R G Q (pure a : Job ε σ α) s := fun t ht => ⟨a, rfl, h t ht⟩

theorem Succeeds.bind {P : α → σ → Prop} {Q : β → σ → Prop} {x : Job ε σ α} {g : α → Job ε σ β} (h : Succeeds R G P x s)
    (hg : ∀ a t, P a t → Succeeds R G Q (g a) t) : Succeeds R G Q (x >>= g) s := by
  refine Safe.bind h fun r t hr => ?_
  obtain ⟨a, rfl, ha⟩ := hr
  exact hg a t ha

theorem Succeeds.sync_bind {Q : β → σ → Prop} {f : σ → α × σ} {g : α → Job ε σ β}
    (h : ∀ t, ReflTransGen R s t → G t (f t).2 ∧ Succeeds R G Q (g (f t).1) (f t).2) :
    Succeeds R G Q (sync f >>= g) s :=
  fun t ht => h t ht

theorem Succeeds.sync {Q : α → σ → Prop} {f : σ → α × σ}
    (h : ∀ t, ReflTransGen R s t → G t (f t).2 ∧ ∀ u, ReflTransGen R (f t).2 u → Q (f t).1 u) :
    Succeeds R G Q (Turns.sync f : Job ε σ α) s :=
  fun t ht => ⟨(h t ht).1, fun u hu => ⟨_, rfl, (h t ht).2 u hu⟩⟩

/-! ### Tasks that run at once -/

/-- What the tasks rely on, what they keep to, and what they end with. -/
structure Spec (ι σ α : Type) where
  rely : ι → σ → σ → Prop
  keep : ι → σ → σ → Prop
  ends : ι → α → σ → Prop

/-- Each task tolerates what the others do. -/
def Spec.Tolerant (S : Spec ι σ α) (is : List ι) : Prop :=
  ∀ i ∈ is, ∀ j ∈ is, i ≠ j → ∀ s t, S.keep j s t → S.rely i s t

/-- A step of one of these tasks. -/
def Spec.Step (S : Spec ι σ α) (is : List ι) (s t : σ) : Prop := ∃ i ∈ is, S.keep i s t

/-- Tasks each of which has a part of the state, and all of which keep an
invariant. -/
def Spec.parts (I : σ → Prop) (part : ι → σ → γ) (is : List ι) (ends : ι → α → σ → Prop) : Spec ι σ α where
  rely i s t := I t ∧ part i t = part i s
  keep i s t := I t ∧ ∀ j ∈ is, j ≠ i → part j t = part j s
  ends := ends

section Parts

variable {I : σ → Prop} {part : ι → σ → γ} {is : List ι} {ends : ι → α → σ → Prop} {i : ι}

theorem Spec.parts_tolerant : (Spec.parts I part is ends).Tolerant is :=
  fun i hi _ _ hne _ _ h => ⟨h.1, h.2 i hi hne⟩

/-- While the others run, the invariant stays, and the task's own part. -/
theorem Spec.parts_rely (h : ReflTransGen ((Spec.parts I part is ends).rely i) s t) (hI : I s) :
    I t ∧ part i t = part i s := by
  induction h with
  | refl => exact ⟨hI, rfl⟩
  | tail _ h ih => exact ⟨h.1, h.2.trans ih.2⟩

/-- A section that only looks. -/
theorem Spec.parts_look (hI : I s) : (Spec.parts I part is ends).keep i s s := ⟨hI, fun _ _ _ => rfl⟩

theorem Spec.parts_steps (h : ReflTransGen ((Spec.parts I part is ends).Step is) s t) (hI : I s) : I t := by
  induction h with
  | refl => exact hI
  | tail _ h _ =>
    obtain ⟨_, _, hkeep⟩ := h
    exact hkeep.1

end Parts

/-- Task `i` is safe. -/
def Spec.safe (S : Spec ι σ α) (s : σ) (i : ι) (x : Async σ α) : Prop := Safe (S.rely i) (S.keep i) (S.ends i) x s

variable {S : Spec ι σ α} {is js : List ι} {xs : List (Async σ α)}

/-- A task tolerates the steps of other tasks. -/
theorem Spec.safe.others {i : ι} {x : Async σ α} (h : S.safe s i x) (htol : S.Tolerant is) (hi : i ∈ is)
    (hjs : ∀ j ∈ js, j ∈ is ∧ j ≠ i) (hst : ReflTransGen (S.Step js) s t) : S.safe t i x := by
  refine Safe.stable h (ReflTransGen.mono (fun u v hstep => ?_) s t hst)
  obtain ⟨j, hj, hkeep⟩ := hstep
  exact htol i hi j (hjs j hj).1 (hjs j hj).2.symm u v hkeep

theorem Spec.steps_mono (h : ∀ i ∈ js, i ∈ is) (hst : ReflTransGen (S.Step js) s t) : ReflTransGen (S.Step is) s t :=
  ReflTransGen.mono (fun _ _ ⟨i, hi, hkeep⟩ => ⟨i, h i hi, hkeep⟩) s t hst

theorem Spec.steps_one {i : ι} (hi : i ∈ is) (hst : ReflTransGen (S.keep i) s t) : ReflTransGen (S.Step is) s t :=
  ReflTransGen.mono (fun _ _ hkeep => ⟨i, hi, hkeep⟩) s t hst

theorem Spec.Tolerant.mono (h : S.Tolerant is) (hjs : ∀ i ∈ js, i ∈ is) : S.Tolerant js :=
  fun i hi j hj => h i (hjs i hi) j (hjs j hj)

/-- What is known when the tasks have ended: the way to the state, and for each
task a result that meets its end. -/
structure Ended (S : Spec ι σ α) (is : List ι) (s : σ) (r : List α × σ) : Prop where
  steps : ReflTransGen (S.Step is) s r.2
  results : ∀ i ∈ is, ∃ a ∈ r.1, S.safe r.2 i (.ret a)

/-- What holds task by task, weakened for the tasks that are there. -/
theorem forall₂_imp {P P' : ι → Async σ α → Prop} (h : List.Forall₂ P is xs) (himp : ∀ i ∈ is, ∀ x, P i x → P' i x) :
    List.Forall₂ P' is xs := by
  have hmem : List.Forall₂ (fun i x => i ∈ is ∧ P i x) is xs := (List.forall₂_and_left is xs).mpr ⟨fun _ hi => hi, h⟩
  exact hmem.imp fun i x hix => himp i hix.1 x hix.2

/-- After steps of one task the others are as they were. -/
theorem safe_after {i : ι} (htol : S.Tolerant is) (hi : i ∈ is) (hjs : ∀ j ∈ js, j ∈ is ∧ j ≠ i)
    (h : List.Forall₂ (S.safe s) js xs) (hst : ReflTransGen (S.keep i) s t) : List.Forall₂ (S.safe t) js xs := by
  refine forall₂_imp h fun j hj x hx => ?_
  have hone : ReflTransGen (S.Step [i]) s t := Spec.steps_one List.mem_cons_self hst
  refine hx.others htol (hjs j hj).1 (fun k hk => ?_) hone
  rw [List.mem_singleton.mp hk]
  exact ⟨hi, (hjs j hj).2.symm⟩

theorem runAll_safe (hnodup : is.Nodup) (htol : S.Tolerant is) (h : List.Forall₂ (S.safe s) is xs) :
    Ended S is s (runAll xs s) := by
  induction xs generalizing is s with
  | nil =>
    obtain rfl := List.forall₂_nil_right_iff.mp h
    exact ⟨.refl, fun _ hi => (nomatch hi)⟩
  | cons x xs ih =>
    obtain ⟨i, js, hx, hxs, rfl⟩ := List.forall₂_cons_right_iff.mp h
    obtain ⟨hi, hjs⟩ := List.nodup_cons.mp hnodup
    have hothers : ∀ j ∈ js, j ∈ i :: js ∧ j ≠ i := fun j hj => ⟨List.mem_cons_of_mem i hj, fun he => hi (he ▸ hj)⟩
    obtain ⟨hsteps, hend⟩ := Safe.run hx
    have hrest := ih hjs (htol.mono fun j hj => (hothers j hj).1) (safe_after htol List.mem_cons_self hothers hxs hsteps)
    refine ⟨(Spec.steps_one List.mem_cons_self hsteps).trans (Spec.steps_mono (fun j hj =>
      (hothers j hj).1) hrest.steps), ?_⟩
    intro j hj
    rcases List.mem_cons.mp hj with rfl | hj
    · exact ⟨_, List.mem_cons_self, Spec.safe.others hend htol List.mem_cons_self hothers hrest.steps⟩
    · obtain ⟨a, ha, hsafe⟩ := hrest.results j hj
      exact ⟨a, List.mem_cons_of_mem _ ha, hsafe⟩

/-! ### Lists of tasks -/

variable {P P' : ι → Async σ α → Prop}

theorem forall₂_at {P : ι → β → Prop} {ys : List β} (h : List.Forall₂ P is ys) {k : ℕ} {y : β} (hy : ys[k]? = some y) :
    ∃ i, is[k]? = some i ∧ P i y := by
  induction h generalizing k with
  | nil => cases hy
  | cons hp hrest ih =>
    cases k with
    | zero => exact ⟨_, rfl, Option.some.inj hy ▸ hp⟩
    | succ k => exact ih hy

theorem forall₂_mem {P : ι → β → Prop} {ys : List β} (h : List.Forall₂ P is ys) {y : β} (hy : y ∈ ys) :
    ∃ i ∈ is, P i y := by
  obtain ⟨k, hk⟩ := List.mem_iff_getElem?.mp hy
  obtain ⟨i, hi, hp⟩ := forall₂_at h hk
  exact ⟨i, List.mem_of_getElem? hi, hp⟩

/-- Task `i` goes on, and the others stay. -/
theorem forall₂_set (hnodup : is.Nodup) (h : List.Forall₂ P is xs) {k : ℕ} {i : ι} {y : Async σ α}
    (hi : is[k]? = some i)
    (hy : P' i y) (hothers : ∀ j ∈ is, j ≠ i → ∀ x, P j x → P' j x) : List.Forall₂ P' is (xs.set k y) := by
  induction h generalizing k with
  | nil => cases hi
  | @cons j x is xs hp hrest ih =>
    obtain ⟨hj, hnodup⟩ := List.nodup_cons.mp hnodup
    cases k with
    | zero =>
      obtain rfl := Option.some.inj hi
      exact .cons hy (forall₂_imp hrest fun l hl => hothers l (List.mem_cons_of_mem _ hl) fun he => hj (he ▸ hl))
    | succ k =>
      have hne : j ≠ i := fun he => hj (he ▸ List.mem_of_getElem? hi)
      exact .cons (hothers j List.mem_cons_self hne x hp) (ih hnodup hi fun l hl =>
        hothers l (List.mem_cons_of_mem _ hl))

theorem forall₂_eraseIdx (h : List.Forall₂ P is xs) (k : ℕ) : List.Forall₂ P (is.eraseIdx k) (xs.eraseIdx k) := by
  induction h generalizing k with
  | nil => exact .nil
  | cons hp hrest ih =>
    cases k with
    | zero => exact hrest
    | succ k => exact .cons hp (ih k)

/-- What is left when task `i` is taken out. -/
theorem mem_eraseIdx {k : ℕ} {i j : ι} (hnodup : is.Nodup) (hi : is[k]? = some i) :
    j ∈ is.eraseIdx k ↔ j ∈ is ∧ j ≠ i := by
  rw [List.mem_eraseIdx_iff_getElem?]
  constructor
  · rintro ⟨l, hl, hj⟩
    refine ⟨List.mem_of_getElem? hj, ?_⟩
    rintro rfl
    obtain ⟨hlen, -⟩ := List.getElem?_eq_some_iff.mp hj
    exact hl ((List.getElem?_inj hlen hnodup).mp (hj.trans hi.symm))
  · rintro ⟨hmem, hne⟩
    obtain ⟨l, hl⟩ := List.mem_iff_getElem?.mp hmem
    refine ⟨l, fun he => hne ?_, hl⟩
    rw [he, hi] at hl
    exact (Option.some.inj hl).symm

/-- However the tasks take turns, each ends as if only its own steps and those
it tolerates had been made. -/
theorem interleave_safe {sched : List ℕ} (hnodup : is.Nodup) (htol : S.Tolerant is)
    (h : List.Forall₂ (S.safe s) is xs) :
    Ended S is s (interleave sched xs s) := by
  induction sched generalizing is xs s with
  | nil => exact runAll_safe hnodup htol h
  | cons k sched ih =>
    unfold interleave
    cases hx : xs[k]? with
    | none => exact ih hnodup htol h
    | some x =>
      obtain ⟨i, hk, hsafe⟩ := forall₂_at h hx
      have hi := List.mem_of_getElem? hk
      cases x with
      | ret a =>
        have hleft : ∀ j ∈ is.eraseIdx k, j ∈ is ∧ j ≠ i := fun j hj => (mem_eraseIdx hnodup hk).mp hj
        have hrest := ih (hnodup.eraseIdx k) (htol.mono fun j hj => (hleft j hj).1) (forall₂_eraseIdx h k)
        refine ⟨Spec.steps_mono (fun j hj => (hleft j hj).1) hrest.steps, fun j hj => ?_⟩
        by_cases hne : j = i
        · subst hne
          exact ⟨a, List.mem_cons_self, hsafe.others htol hj hleft hrest.steps⟩
        · obtain ⟨b, hb, hend⟩ := hrest.results j ((mem_eraseIdx hnodup hk).mpr ⟨hj, hne⟩)
          exact ⟨b, List.mem_cons_of_mem a hb, hend⟩
      | act f g =>
        obtain ⟨hstep, hnext⟩ := hsafe s .refl
        -- the others tolerate the section, and the task goes on from it
        have hafter : List.Forall₂ (S.safe (f s)) is (xs.set k (g s)) :=
          forall₂_set hnodup h hk hnext fun j hj hne x hjx =>
            Safe.stable hjx (.single (htol j hj i hi hne s (f s) hstep))
        have hrest := ih hnodup htol hafter
        exact ⟨.head ⟨i, hi, hstep⟩ hrest.steps, hrest.results⟩

/-- What every task can end with, the results are. -/
theorem runAll_answers {P : α → Prop} (hP : ∀ i ∈ is, ∀ a t, S.ends i a t → P a) (hnodup : is.Nodup)
    (htol : S.Tolerant is)
    (h : List.Forall₂ (S.safe s) is xs) : ∀ a ∈ (runAll xs s).1, P a := by
  induction xs generalizing is s with
  | nil => exact fun _ ha => (nomatch ha)
  | cons x xs ih =>
    obtain ⟨i, js, hx, hxs, rfl⟩ := List.forall₂_cons_right_iff.mp h
    obtain ⟨hi, hjs⟩ := List.nodup_cons.mp hnodup
    have hothers : ∀ j ∈ js, j ∈ i :: js ∧ j ≠ i := fun j hj => ⟨List.mem_cons_of_mem i hj, fun he => hi (he ▸ hj)⟩
    obtain ⟨hsteps, hend⟩ := Safe.run hx
    have hrest := ih (fun j hj => hP j (hothers j hj).1) hjs (htol.mono fun j hj => (hothers j hj).1)
      (safe_after htol List.mem_cons_self hothers hxs hsteps)
    intro a ha
    rcases List.mem_cons.mp ha with rfl | ha
    · exact hP i List.mem_cons_self _ _ (hend _ .refl)
    · exact hrest a ha

theorem interleave_answers {P : α → Prop} {sched : List ℕ} (hP : ∀ i ∈ is, ∀ a t, S.ends i a t → P a)
    (hnodup : is.Nodup)
    (htol : S.Tolerant is) (h : List.Forall₂ (S.safe s) is xs) : ∀ a ∈ (interleave sched xs s).1, P a := by
  induction sched generalizing is xs s with
  | nil => exact runAll_answers hP hnodup htol h
  | cons k sched ih =>
    unfold interleave
    cases hx : xs[k]? with
    | none => exact ih hP hnodup htol h
    | some x =>
      obtain ⟨i, hk, hsafe⟩ := forall₂_at h hx
      have hi := List.mem_of_getElem? hk
      cases x with
      | ret a =>
        have hleft : ∀ j ∈ is.eraseIdx k, j ∈ is ∧ j ≠ i := fun j hj => (mem_eraseIdx hnodup hk).mp hj
        have hrest := ih (fun j hj => hP j (hleft j hj).1) (hnodup.eraseIdx k) (htol.mono fun j hj => (hleft j hj).1)
          (forall₂_eraseIdx h k)
        intro b hb
        rcases List.mem_cons.mp hb with rfl | hb
        · exact hP i hi _ _ (hsafe s .refl)
        · exact hrest b hb
      | act f g =>
        obtain ⟨hstep, hnext⟩ := hsafe s .refl
        have hafter : List.Forall₂ (S.safe (f s)) is (xs.set k (g s)) :=
          forall₂_set hnodup h hk hnext fun j hj hne x hjx =>
            Safe.stable hjx (.single (htol j hj i hi hne s (f s) hstep))
        exact ih hP hnodup htol hafter

end Turns
