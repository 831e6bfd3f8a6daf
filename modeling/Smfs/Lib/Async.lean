/-
# Computations that take turns on a shared state

`Async σ α` is a computation over a state `σ` that others also work on: it runs
in sections, each of which changes the state at once, and between two sections
the others may run. `run` is a computation that has the state for itself;
`interleave` is a group of them, taking turns as a schedule says, and gives
their results in the order in which they end. A computation that may throw is
one in `Job ε σ`, and `eval` runs it alone. What every section does
(`Sections`), a run does step by step, and so does a group in any schedule.

Key definitions: `Async`, `Async.run`, `interleave`, `Job`, `eval`, `Throws`, `Sections`.
Key theorems: `Async.run_bind`, `eval_bind`, `eval_tryCatch`, `throws_bind`, `interleave_steps`, `Sections.eval`.
-/
import Mathlib.Logic.Relation
import Mathlib.Tactic.Common
import Mathlib.Data.List.Basic

namespace Turns

variable {σ ε α β : Type}

/-- A computation: its result, or the section to come and, from the state
before that section, the rest. -/
inductive Async (σ α : Type)
  | ret (a : α)
  | act (f : σ → σ) (k : σ → Async σ α)

namespace Async

def bind : Async σ α → (α → Async σ β) → Async σ β
  | ret a, g => g a
  | act f k, g => act f fun s => (k s).bind g

instance : Monad (Async σ) where
  pure := ret
  bind := bind

/-- One section. -/
def atomic (f : σ → α × σ) : Async σ α := act (fun s => (f s).2) fun s => ret (f s).1

/-- The computation has the state for itself. -/
def run : Async σ α → σ → α × σ
  | ret a, s => (a, s)
  | act f k, s => (k s).run (f s)

theorem run_bind (x : Async σ α) (g : α → Async σ β) (s : σ) :
    (x >>= g).run s = (g (x.run s).1).run (x.run s).2 := by
  induction x generalizing s with
  | ret a => rfl
  | act f k ih => exact ih s (f s)

end Async

/-! ### Taking turns -/

/-- The tasks one after another, to their ends. -/
def runAll : List (Async σ α) → σ → List α × σ
  | [], s => ([], s)
  | x :: xs, s => ((x.run s).1 :: (runAll xs (x.run s).2).1, (runAll xs (x.run s).2).2)

theorem runAll_append (xs ys : List (Async σ α)) (s : σ) :
    runAll (xs ++ ys) s = ((runAll xs s).1 ++ (runAll ys (runAll xs s).2).1, (runAll ys (runAll xs s).2).2) := by
  induction xs generalizing s with
  | nil => rfl
  | cons x xs ih =>
    rw [List.cons_append, runAll, ih]
    rfl

/-- The tasks take turns as the schedule says: each entry names the task whose
turn it is, by its place among those that have not ended. When the schedule is
over the tasks run one after another. -/
def interleave : List ℕ → List (Async σ α) → σ → List α × σ
  | [], xs, s => runAll xs s
  | i :: sched, xs, s =>
    match xs[i]? with
    | some (.act f k) => interleave sched (xs.set i (k s)) (f s)
    | some (.ret a) =>
      let (as, t) := interleave sched (xs.eraseIdx i) s
      (a :: as, t)
    | none => interleave sched xs s

/-! ### Computations that may throw -/

/-- A computation that may throw an `ε`. -/
abbrev Job (ε σ α : Type) := ExceptT ε (Async σ) α

/-- The job has the state for itself. -/
def eval (x : Job ε σ α) (s : σ) : Except ε α × σ := Async.run x.run s

/-- What runs after `x`, in the state `x` leaves. -/
def andThen (r : Except ε α × σ) (g : α → σ → Except ε β × σ) : Except ε β × σ :=
  match r.1 with
  | .ok a => g a r.2
  | .error e => (.error e, r.2)

@[simp] theorem andThen_ok (a : α) (s : σ) (g : α → σ → Except ε β × σ) : andThen (.ok a, s) g = g a s := rfl

@[simp] theorem andThen_error (e : ε) (s : σ) (g : α → σ → Except ε β × σ) :
    andThen (.error e, s) g = (.error e, s) := rfl

@[simp] theorem eval_pure (a : α) (s : σ) : eval (pure a : Job ε σ α) s = (.ok a, s) := rfl

@[simp] theorem eval_throw (e : ε) (s : σ) : eval (throw e : Job ε σ α) s = (.error e, s) := rfl

@[simp] theorem eval_bind (x : Job ε σ α) (g : α → Job ε σ β) (s : σ) :
    eval (x >>= g) s = andThen (eval x s) fun a t => eval (g a) t := by
  unfold eval andThen
  change Async.run (x.run >>= ExceptT.bindCont fun a => g a) s = _
  rw [Async.run_bind]
  rcases (Async.run x.run s) with ⟨_ | a, t⟩
  · rfl
  · rfl

@[simp] theorem eval_tryCatch (x : Job ε σ α) (h : ε → Job ε σ α) (s : σ) :
    eval (tryCatch x h) s = match eval x s with
      | (.ok a, t) => (.ok a, t)
      | (.error e, t) => eval (h e) t := by
  unfold eval
  change Async.run (x.run >>= fun r => match r with
    | .ok a => pure (.ok a)
    | .error e => (h e).run) s = _
  rw [Async.run_bind]
  rcases (Async.run x.run s) with ⟨_ | a, t⟩
  · rfl
  · rfl

/-- Where the whole does not throw, neither does its first part. -/
theorem eval_bind_ok {x : Job ε σ α} {g : α → Job ε σ β} {s u : σ} {b : β} (h : eval (x >>= g) s = (.ok b, u)) :
    ∃ a t, eval x s = (.ok a, t) ∧ eval (g a) t = (.ok b, u) := by
  rw [eval_bind] at h
  rcases hx : eval x s with ⟨e | a, t⟩
  · rw [hx, andThen_error] at h
    exact (nomatch congrArg Prod.fst h)
  · rw [hx, andThen_ok] at h
    exact ⟨a, t, rfl, h⟩

/-- One section that does not throw. -/
def sync (f : σ → α × σ) : Job ε σ α := ExceptT.lift (Async.atomic f)

@[simp] theorem eval_sync (f : σ → α × σ) (s : σ) : eval (sync f : Job ε σ α) s = (.ok (f s).1, (f s).2) := rfl

/-! ### What may be thrown -/

/-- From this state the job throws, if at all, what is allowed. -/
def Throws (ok : ε → Prop) (x : Job ε σ α) (s : σ) : Prop := ∀ e t, eval x s = (.error e, t) → ok e

section Throws

variable {ok : ε → Prop} {s : σ}

theorem throws_pure (a : α) : Throws ok (pure a : Job ε σ α) s := by
  intro e t h
  simp at h

theorem throws_sync (f : σ → α × σ) : Throws ok (sync f : Job ε σ α) s := by
  intro e t h
  simp at h

theorem throws_throw {e : ε} : Throws ok (throw e : Job ε σ α) s ↔ ok e := by simp [Throws]

/-- The rule of the sequence. -/
theorem throws_bind {x : Job ε σ α} {g : α → Job ε σ β} :
    Throws ok (x >>= g) s ↔ Throws ok x s ∧ ∀ a t, eval x s = (.ok a, t) → Throws ok (g a) t := by
  unfold Throws
  rw [eval_bind]
  rcases eval x s with ⟨e | a, t⟩
  · simp
  · simp

theorem throws_ok_bind {t : σ} {x : Job ε σ α} {a : α} {g : α → Job ε σ β} (h : eval x s = (.ok a, t)) :
    Throws ok (x >>= g) s ↔ Throws ok (g a) t := by
  unfold Throws
  rw [eval_bind, h, andThen_ok]

theorem throws_assoc {δ : Type} {x : Job ε σ α} {f : α → Job ε σ β} {g : β → Job ε σ δ} :
    Throws ok (x >>= f >>= g) s ↔ Throws ok (x >>= fun a => f a >>= g) s := by
  unfold Throws
  simp only [eval_bind]
  rcases eval x s with ⟨_ | a, t⟩
  · rfl
  · rfl

end Throws

/-! ### What every section does -/

variable {R : σ → σ → Prop}

/-- Every section of the computation, in whatever state it runs, takes an
`R`-step. -/
def Async.All (R : σ → σ → Prop) : Async σ α → Prop
  | .ret _ => True
  | .act f k => ∀ s, R s (f s) ∧ (k s).All R

theorem Async.All.bind {x : Async σ α} {g : α → Async σ β} (hx : x.All R) (hg : ∀ a, (g a).All R) :
    (x >>= g).All R := by
  induction x with
  | ret a => exact hg a
  | act f k ih => exact fun s => ⟨(hx s).1, ih s (hx s).2⟩

theorem Async.All.run {x : Async σ α} (h : x.All R) (s : σ) : Relation.ReflTransGen R s (x.run s).2 := by
  induction x generalizing s with
  | ret a => exact .refl
  | act f k ih => exact .head (h s).1 (ih s (h s).2 (f s))

theorem runAll_steps {xs : List (Async σ α)} (h : ∀ x ∈ xs, x.All R) (s : σ) :
    Relation.ReflTransGen R s (runAll xs s).2 := by
  induction xs generalizing s with
  | nil => exact .refl
  | cons x xs ih =>
    exact ((h x List.mem_cons_self).run s).trans (ih (fun y hy => h y (List.mem_cons_of_mem x hy)) _)

/-- However the tasks take turns, the state goes through their steps. -/
theorem interleave_steps {sched : List ℕ} {xs : List (Async σ α)} (h : ∀ x ∈ xs, x.All R) (s : σ) :
    Relation.ReflTransGen R s (interleave sched xs s).2 := by
  induction sched generalizing xs s with
  | nil => exact runAll_steps h s
  | cons i sched ih =>
    unfold interleave
    cases hx : xs[i]? with
    | none => exact ih h s
    | some x =>
      have hmem := h x (List.mem_of_getElem? hx)
      cases x with
      | ret a => exact ih (fun y hy => h y (List.mem_of_mem_eraseIdx hy)) s
      | act f k =>
        refine .head (hmem s).1 (ih (fun y hy => ?_) (f s))
        rcases List.mem_or_eq_of_mem_set hy with hy | rfl
        · exact h y hy
        · exact (hmem s).2

/-- Every section of the job takes an `R`-step. -/
def Sections (R : σ → σ → Prop) (x : Job ε σ α) : Prop := Async.All R x.run

theorem sections_pure (a : α) : Sections R (pure a : Job ε σ α) := trivial

theorem sections_throw (e : ε) : Sections R (throw e : Job ε σ α) := trivial

theorem sections_sync {f : σ → α × σ} (h : ∀ s, R s (f s).2) : Sections R (sync f : Job ε σ α) :=
  fun s => ⟨h s, trivial⟩

theorem Sections.bind {x : Job ε σ α} {g : α → Job ε σ β} (hx : Sections R x) (hg : ∀ a, Sections R (g a)) :
    Sections R (x >>= g) := by
  refine Async.All.bind hx fun r => ?_
  cases r with
  | ok a => exact hg a
  | error e => exact trivial

theorem Sections.eval {x : Job ε σ α} (h : Sections R x) (s : σ) : Relation.ReflTransGen R s (eval x s).2 :=
  Async.All.run h s

end Turns
