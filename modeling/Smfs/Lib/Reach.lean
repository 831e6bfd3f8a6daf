/-
# Runs of a transition system under a condition on its steps

A system is a partial step function: `step s a = some t` says that action `a`
is enabled in `s` and leads to `t`. `Reach step ok s₀` are the states of the
runs from `s₀` all of whose steps meet `ok`; with `ok` always true they are
the reachable states. What one step preserves, a run preserves (`Reach.inv`);
`run` executes a list of actions, and what it arrives at is reached
(`Reach.of_run`). Where every action is enabled and a condition says exactly
which steps keep an invariant, it says exactly which runs do
(`invariant_iff`).

Key definitions: `Reach`, `run`.
Key theorems: `Reach.inv`, `Reach.of_run`, `Reach.exists_of_run`, `invariant_iff`.
-/
import Mathlib.Tactic.Common
import Mathlib.Data.List.Basic

namespace Trans

variable {σ α : Type*} {step : σ → α → Option σ} {ok : σ → α → Prop} {s₀ : σ}

/-- The condition every step meets. -/
def anyStep : σ → α → Prop := fun _ _ => True

instance : DecidableRel (anyStep : σ → α → Prop) := fun _ _ => isTrue trivial

/-- The states of the runs from `s₀` all of whose steps meet `ok`. -/
inductive Reach (step : σ → α → Option σ) (ok : σ → α → Prop) (s₀ : σ) : σ → Prop
  | start : Reach step ok s₀ s₀
  | next {s t : σ} {a : α} : Reach step ok s₀ s → ok s a → step s a = some t → Reach step ok s₀ t

/-- What holds at the start and is preserved by every step that meets the
condition holds in every state of every such run. -/
theorem Reach.inv {I : σ → Prop} (h0 : I s₀)
    (hstep : ∀ s a t, I s → ok s a → step s a = some t → I t) {s : σ}
    (h : Reach step ok s₀ s) : I s := by
  induction h with
  | start => exact h0
  | next _ ha hst ih => exact hstep _ _ _ ih ha hst

theorem Reach.trans {s t : σ} (h : Reach step ok s₀ s) (h' : Reach step ok s t) :
    Reach step ok s₀ t := by
  induction h' with
  | start => exact h
  | next _ ha hst ih => exact ih.next ha hst

/-- A run under a condition is a run under a weaker one. -/
theorem Reach.mono {ok' : σ → α → Prop} (hok : ∀ s a, ok s a → ok' s a) {s : σ}
    (h : Reach step ok s₀ s) : Reach step ok' s₀ s := by
  induction h with
  | start => exact .start
  | next _ ha hst ih => exact ih.next (hok _ _ ha) hst

/-- Execute a list of actions; `none` if one is not enabled or does not meet
the condition. -/
def run (step : σ → α → Option σ) (ok : σ → α → Prop) [DecidableRel ok] : σ → List α → Option σ
  | s, [] => some s
  | s, a :: as => if ok s a then (step s a).bind fun t => run step ok t as else none

theorem Reach.of_run [DecidableRel ok] : ∀ {as : List α} {s t : σ},
    run step ok s as = some t → Reach step ok s t
  | [], _, _, h => by
    simp only [run, Option.some.injEq] at h
    exact h ▸ .start
  | a :: as, s, t, h => by
    unfold run at h
    split_ifs at h with ha
    obtain ⟨u, hu, h'⟩ := Option.bind_eq_some_iff.mp h
    exact (Reach.start.next ha hu).trans (of_run h')

/-- A state with a property, found by executing a list of actions. -/
theorem Reach.exists_of_run [DecidableRel ok] (as : List α) {p : σ → Bool}
    (h : (run step ok s₀ as).any p = true) : ∃ s, Reach step ok s₀ s ∧ p s = true := by
  cases hr : run step ok s₀ as with
  | none => rw [hr] at h; cases h
  | some t => exact ⟨t, .of_run hr, by simpa [hr] using h⟩

/-- Where the condition says which steps keep the invariant, a run keeps it
throughout exactly if each of its steps meets the condition. -/
theorem invariant_iff {next : σ → α → σ} {I : σ → Prop} (hstep : ∀ s a, I s → (I (next s a) ↔ ok s a)) :
    ∀ (as : List α) {s : σ}, I s → ((∀ before, before <+: as → I (before.foldl next s)) ↔
      ∀ before a, before ++ [a] <+: as → ok (before.foldl next s) a)
  | [], s, h0 => by simp [h0]
  | a :: as, s, h0 => by
    constructor
    · intro h before b hb
      have h₁ : I (before.foldl next s) := h before ((List.prefix_append before [b]).trans hb)
      have h₂ := h _ hb
      rw [List.foldl_append] at h₂
      exact (hstep _ _ h₁).mp h₂
    · intro h before hb
      have ha : ok s a := h [] a (by simp)
      cases before with
      | nil => exact h0
      | cons b before =>
        obtain ⟨rfl, hrest⟩ := List.cons_prefix_cons.mp hb
        refine (invariant_iff hstep as ((hstep s b h0).mpr ha)).mpr (fun mid c hc => ?_) before hrest
        exact h (b :: mid) c (List.cons_prefix_cons.mpr ⟨rfl, hc⟩)

end Trans
