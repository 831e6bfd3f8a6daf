/-
# What a computation does to the state

A relation that is a preorder is kept by a whole computation if each of its
parts keeps it, each from the states it is run in: a part may use what the
parts before it answered (`Effect.bind`).

Key definitions: `Effect`.
Key theorems: `Effect.bind`, `Effect.tryCatch`.
-/
import Smfs.Lib.Async
import Mathlib.Order.Defs.Unbundled

namespace Turns

variable {ε σ τ α β : Type} {R R' : σ → σ → Prop} {x : Job ε σ α} {g : α → Job ε σ β} {s t : σ}

/-- What the computation leaves of the state stands in the relation to it. -/
def Effect (R : σ → σ → Prop) (x : Job ε σ α) (s : σ) : Prop := R s (eval x s).2

theorem effect_sync {f : σ → α × σ} : Effect R (sync f : Job ε σ α) s ↔ R s (f s).2 := Iff.rfl

theorem Effect.of_eval {r : Except ε α} (h : Effect R x s) (he : eval x s = (r, t)) : R s t := by
  unfold Effect at h
  rw [he] at h
  exact h

theorem Effect.mono (h : Effect R x s) (hR : ∀ s t, R s t → R' s t) : Effect R' x s := hR _ _ h

theorem effect_ite {c : Prop} [Decidable c] {y : Job ε σ α} (hx : c → Effect R x s) (hy : ¬ c → Effect R y s) :
    Effect R (if c then x else y) s := by
  split_ifs with h
  · exact hx h
  · exact hy h

section Refl

variable [Std.Refl R]

theorem effect_pure (a : α) : Effect R (pure a : Job ε σ α) s := refl_of R s

theorem effect_throw (e : ε) : Effect R (throw e : Job ε σ α) s := refl_of R s

end Refl

section Trans

variable [IsTrans σ R]

theorem Effect.bind (hx : Effect R x s) (hg : ∀ a t, eval x s = (.ok a, t) → Effect R (g a) t) :
    Effect R (x >>= g) s := by
  unfold Effect at hx ⊢
  rw [eval_bind]
  cases he : eval x s with
  | mk r t =>
    rw [he] at hx
    cases r with
    | error e => exact hx
    | ok a => exact trans_of R hx (hg a t he)

/-- The parts keep the relation whatever was answered before them. -/
theorem Effect.seq (hx : Effect R x s) (hg : ∀ a t, Effect R (g a) t) : Effect R (x >>= g) s :=
  hx.bind fun a t _ => hg a t

theorem effect_sync_bind {f : σ → α × σ} (hf : R s (f s).2) (hg : Effect R (g (f s).1) (f s).2) :
    Effect R (sync f >>= g) s := by
  apply Effect.bind (effect_sync.mpr hf)
  intro a t he
  cases he
  exact hg

theorem Effect.tryCatch {h : ε → Job ε σ α} (hx : Effect R x s) (hh : ∀ e t, eval x s = (.error e, t) →
    Effect R (h e) t) : Effect R (tryCatch x h) s := by
  unfold Effect at hx ⊢
  rw [eval_tryCatch]
  cases he : eval x s with
  | mk r t =>
    rw [he] at hx
    cases r with
    | ok a => exact hx
    | error e => exact trans_of R hx (hh e t he)

end Trans

end Turns
