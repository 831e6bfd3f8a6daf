/-
# A slot that coalesces what arrives

One value waits or is worked on, and one more may be parked behind it. A `put`
replaces what waits (or what is parked); a `take` hands the value that waits to
a worker, and `done` ends its work: what was parked meanwhile waits in its
turn, and otherwise the slot is empty. Whatever the order of the steps, a
`take` gets the last value that was put, and there are no more of them than
`put`s into the empty slot and works during which something was put.

Key definitions: `Slot`, `Event`, `Step`, `Run`, `puts`, `takes`, `fresh`, `windows`.
Key theorems: `Run.take_latest`, `Run.window`, `Run.takes_le`, `Run.gone`, `Run.takes_le_two`.
-/
import Mathlib.Data.List.Basic
import Mathlib.Tactic.Common

namespace Coalesce

/-- A slot: nothing, a value that waits, or a value that is worked on with what is parked behind it. -/
inductive Slot (α : Type*)
  | absent
  | idle (x : α)
  | busy (x : α) (next : Option α)

/-- What happens to a slot. A `put` is `fresh` if the slot was empty. -/
inductive Event (α : Type*)
  | put (fresh : Bool) (x : α)
  | take (x : α)
  | done

variable {α : Type*}

namespace Event

/-- The value that is put. -/
def value : Event α → Option α
  | put _ x => some x
  | _ => none

def isFresh : Event α → Bool
  | put fresh _ => fresh
  | _ => false

def isTake : Event α → Bool
  | take _ => true
  | _ => false

end Event

open Event

/-- The values that are put, in order. -/
def puts (es : List (Event α)) : List α := es.filterMap value

/-- The number of values handed out. -/
def takes (es : List (Event α)) : ℕ := es.countP isTake

/-- The number of values put into the empty slot. -/
def fresh (es : List (Event α)) : ℕ := es.countP isFresh

/-- The number of works that end with something put since their `take`; `since` says
that something has been put since the last one. -/
def windows : Bool → List (Event α) → ℕ
  | _, [] => 0
  | _, put _ _ :: es => windows true es
  | _, take _ :: es => windows false es
  | since, done :: es => since.toNat + windows since es

/-- One step of a slot. -/
inductive Step : Slot α → Event α → Slot α → Prop
  | first (x : α) : Step .absent (put true x) (.idle x)
  | replace (x y : α) : Step (.idle x) (put false y) (.idle y)
  | park (x : α) (next : Option α) (y : α) : Step (.busy x next) (put false y) (.busy x (some y))
  | take (x : α) : Step (.idle x) (take x) (.busy x none)
  | promote (x y : α) : Step (.busy x (some y)) done (.idle y)
  | finish (x : α) : Step (.busy x none) done .absent

/-- A run of a slot, with what happened to it. -/
inductive Run : Slot α → List (Event α) → Slot α → Prop
  | nil (s : Slot α) : Run s [] s
  | cons {s u t : Slot α} {e : Event α} {es : List (Event α)} (he : Step s e u) (hr : Run u es t) : Run s (e :: es) t

variable {s t u : Slot α} {es es' : List (Event α)} {x y : α}

theorem puts_append : puts (es ++ es') = puts es ++ puts es' := List.filterMap_append

theorem takes_append : takes (es ++ es') = takes es + takes es' := List.countP_append

theorem Run.split (h : Run s (es ++ es') u) : ∃ t, Run s es t ∧ Run t es' u := by
  induction es generalizing s with
  | nil => exact ⟨s, .nil s, h⟩
  | cons e es ih =>
    obtain _ | ⟨he, hr⟩ := h
    obtain ⟨t, h1, h2⟩ := ih hr
    exact ⟨t, .cons he h1, h2⟩

theorem Run.single {e : Event α} (h : Run s [e] t) : Step s e t := by
  obtain _ | ⟨he, _ | _⟩ := h
  exact he

/-! ### What is handed out is what was put last -/

/-- The last value that was put, as the slot holds it. -/
def Slot.latest : Slot α → Option α
  | .absent => none
  | .idle x => some x
  | .busy x next => some (next.getD x)

/-- The last value put in a list of steps, or the one from before. -/
def lastPut (before : Option α) (es : List (Event α)) : Option α := (puts es).getLast?.or before

theorem lastPut_put {b : Option α} {f : Bool} : lastPut b (put f x :: es) = lastPut (some x) es := by
  have hcons : puts (put f x :: es) = x :: puts es := rfl
  unfold lastPut
  rw [hcons, List.getLast?_cons]
  cases (puts es).getLast? <;> rfl

theorem lastPut_of_none {b : Option α} (h : lastPut none es = some x) : lastPut b es = some x := by
  unfold lastPut at h ⊢
  rw [Option.or_none] at h
  rw [h, Option.some_or]

/-- A slot that holds a value holds the last one that was put. -/
theorem Run.latest (h : Run s es t) (hx : t.latest = some x) : lastPut s.latest es = some x := by
  induction h with
  | nil s => exact hx
  | cons he _ ih =>
    have ih := ih hx
    cases he with
    | first y => rw [lastPut_put]; exact ih
    | replace y z => rw [lastPut_put]; exact ih
    | park y next z => rw [lastPut_put]; exact ih
    | take y => exact ih
    | promote y z => exact ih
    | finish y => exact lastPut_of_none ih

/-- A `take` gets the last value put before it. -/
theorem Run.take_latest (h : Run s (es ++ take x :: es') t) : lastPut s.latest es = some x := by
  obtain ⟨u, h1, _ | ⟨he, _⟩⟩ := h.split
  cases he
  exact h1.latest rfl

/-- A worker that holds a value with nothing behind it has just taken it, or holds it from the start. -/
theorem Run.just_taken (h : Run s es (.busy x none)) : es = [] ∨ ∃ es', es = es' ++ [take x] := by
  rcases List.eq_nil_or_concat es with rfl | ⟨es', e, rfl⟩
  · exact .inl rfl
  · rw [List.concat_eq_append] at h ⊢
    obtain ⟨u, -, h2⟩ := h.split
    obtain _ | _ | _ | _ | _ | _ := h2.single
    exact .inr ⟨es', rfl⟩

/-- The slot empties behind the `take` of the last value that was put. -/
theorem Run.gone (h : Run .absent (es ++ [done]) .absent) :
    ∃ es' x, es = es' ++ [take x] ∧ lastPut none es' = some x := by
  obtain ⟨u, h1, h2⟩ := h.split
  obtain _ | _ | _ | _ | _ | ⟨x⟩ := h2.single
  rcases h1.just_taken with rfl | ⟨es', rfl⟩
  · cases h1
  · exact ⟨es', x, rfl, h1.take_latest⟩

/-! ### What was put during one work -/

/-- The steps put values into a slot that holds one. -/
def OnlyPuts (es : List (Event α)) : Prop := ∀ e ∈ es, ∃ x, e = put false x

/-- While a worker holds a value, others are put, and the last is parked. -/
theorem Run.held {n : Option α} (h : Run (.busy x n) es t) (hd : done ∉ es) :
    OnlyPuts es ∧ t = .busy x (lastPut n es) := by
  induction es generalizing n with
  | nil =>
    cases h
    exact ⟨fun _ he => (List.not_mem_nil he).elim, rfl⟩
  | cons e es ih =>
    obtain ⟨he, hes⟩ := not_or.mp (mt List.mem_cons.mpr hd)
    obtain _ | ⟨hstep, hr⟩ := h
    cases hstep with
    | park _ _ y =>
      obtain ⟨honly, rfl⟩ := ih hr hes
      refine ⟨fun e' he' => ?_, by rw [lastPut_put]⟩
      rcases List.mem_cons.mp he' with rfl | he'
      · exact ⟨y, rfl⟩
      · exact honly e' he'
    | promote => exact absurd rfl he
    | finish => exact absurd rfl he

/-- What becomes of a value that waits: others replace it, and then the last is taken, or it still waits. -/
theorem Run.waiting (h : Run (.idle x) es t) :
    ∃ us y, OnlyPuts us ∧ lastPut (some x) us = some y ∧
      (es = us ∧ t = .idle y ∨ ∃ rest, es = us ++ take y :: rest ∧ Run (.busy y none) rest t) := by
  induction es generalizing x with
  | nil =>
    cases h
    exact ⟨[], x, fun _ he => (List.not_mem_nil he).elim, rfl, .inl ⟨rfl, rfl⟩⟩
  | cons e es ih =>
    obtain _ | ⟨hstep, hr⟩ := h
    cases hstep with
    | replace _ z =>
      obtain ⟨us, y, honly, hlast, hcase⟩ := ih hr
      refine ⟨put false z :: us, y, fun e he => ?_, by rwa [lastPut_put], ?_⟩
      · rcases List.mem_cons.mp he with rfl | he
        · exact ⟨z, rfl⟩
        · exact honly e he
      · rcases hcase with ⟨rfl, ht⟩ | ⟨rest, rfl, hrest⟩
        · exact .inl ⟨rfl, ht⟩
        · exact .inr ⟨rest, rfl, hrest⟩
    | take _ =>
      exact ⟨[], x, fun _ he => (List.not_mem_nil he).elim, rfl, .inr ⟨es, rfl, hr⟩⟩

/-- The `take`s that are still to come if nothing more is put. -/
def Slot.due : Slot α → ℕ
  | .idle _ | .busy _ (some _) => 1
  | .absent | .busy _ none => 0

theorem Run.due (h : Run s es t) (hn : puts es = []) : takes es + t.due = s.due := by
  induction h with
  | nil s => exact Nat.zero_add _
  | @cons s u t e es he _ ih =>
    cases he with
    | first y => cases hn
    | replace y z => cases hn
    | park y next z => cases hn
    | take y =>
      have hcons : takes (take y :: es) = takes es + 1 := List.countP_cons_of_pos rfl
      have hu : takes es + t.due = 0 := ih hn
      show takes (take y :: es) + t.due = 1
      omega
    | promote y z => exact ih hn
    | finish y => exact ih hn

/-- **What was put during a work leads to one more `take`**, of the last value put before it:
when the work has ended, either that `take` is still to come, or it has come and there is no other
before something more is put. -/
theorem Run.window {w rest : List (Event α)} (h : Run s (es ++ take x :: w ++ done :: rest) t)
    (hd : done ∉ w) (hw : puts w ≠ []) :
    ∃ us y, OnlyPuts w ∧ OnlyPuts us ∧ (puts (w ++ us)).getLast? = some y ∧
      (rest = us ∧ t = .idle y ∨ ∃ more, rest = us ++ take y :: more ∧
        ∀ a b, more = a ++ b → puts a = [] → takes a = 0) := by
  obtain ⟨v, h1, h2⟩ := h.split
  obtain ⟨u, -, h3⟩ := h1.split
  obtain _ | ⟨htake, hheld⟩ := h3
  cases htake
  obtain ⟨honly, rfl⟩ := hheld.held hd
  obtain ⟨z, hz⟩ : ∃ z, (puts w).getLast? = some z := ⟨_, List.getLast?_eq_some_getLast hw⟩
  have hlast : lastPut none w = some z := by rw [lastPut, hz, Option.some_or]
  rw [hlast] at h2
  obtain _ | ⟨hdone, hwait⟩ := h2
  cases hdone
  obtain ⟨us, y, hus, hy, hcase⟩ := hwait.waiting
  refine ⟨us, y, honly, hus, by rw [puts_append, List.getLast?_append, hz]; exact hy, ?_⟩
  rcases hcase with ⟨rfl, ht⟩ | ⟨more, rfl, hmore⟩
  · exact .inl ⟨rfl, ht⟩
  · refine .inr ⟨more, rfl, ?_⟩
    rintro a b rfl ha
    obtain ⟨v, h1, -⟩ := hmore.split
    have hdue : takes a + v.due = 0 := h1.due ha
    omega

/-! ### How many values are handed out -/

/-- A value waits. -/
def Slot.waits : Slot α → ℕ
  | .idle _ => 1
  | _ => 0

/-- Each value that was handed out or waits was put into the empty slot or parked during a work that ended. -/
theorem Run.takes_add_waits (h : Run s es t) {since : Bool}
    (hs : ∀ x n, s = .busy x n → since = n.isSome) :
    takes es + t.waits = s.waits + fresh es + windows since es := by
  induction h generalizing since with
  | nil s => simp [takes, fresh, windows]
  | @cons s u t e es he _ ih =>
    cases he with
    | first y =>
      have ih := @ih true fun _ _ hb => by cases hb
      simp only [takes, fresh, windows, Slot.waits, List.countP_cons, isTake, isFresh, if_true, Bool.false_eq_true,
        if_false] at ih ⊢
      omega
    | replace y z =>
      have ih := @ih true fun _ _ hb => by cases hb
      simpa [takes, fresh, windows, Slot.waits, isTake, isFresh] using ih
    | park y next z =>
      have ih := @ih true fun _ _ hb => by cases hb; rfl
      simpa [takes, fresh, windows, Slot.waits, isTake, isFresh] using ih
    | take y =>
      have ih := @ih false fun _ _ hb => by cases hb; rfl
      simp only [takes, fresh, windows, Slot.waits, List.countP_cons, isTake, isFresh, if_true, Bool.false_eq_true,
        if_false] at ih ⊢
      omega
    | promote y z =>
      obtain rfl : since = true := hs y (some z) rfl
      have ih := @ih true fun _ _ hb => by cases hb
      simp only [takes, fresh, windows, Slot.waits, List.countP_cons, isTake, isFresh, Bool.toNat_true,
        Bool.false_eq_true, if_false] at ih ⊢
      omega
    | finish y =>
      obtain rfl : since = false := hs y none rfl
      have ih := @ih false fun _ _ hb => by cases hb
      simpa [takes, fresh, windows, Slot.waits, isTake, isFresh] using ih

/-- From an empty slot on, no more values are handed out than are put into the empty slot and
parked during works that end. -/
theorem Run.takes_le (h : Run .absent es t) : takes es ≤ fresh es + windows false es := by
  have heq : takes es + t.waits = Slot.waits (.absent : Slot α) + fresh es + windows false es :=
    h.takes_add_waits fun _ _ hb => by cases hb
  have hw : Slot.waits (.absent : Slot α) = 0 := rfl
  omega

/-- Before the first work ends, one value is handed out. -/
theorem Run.takes_before_done (h : Run s es t) (hd : done ∉ es) (hs : ∀ x n, s ≠ .busy x n) : takes es ≤ 1 := by
  induction h with
  | nil => exact Nat.zero_le _
  | @cons s u t e es he hr ih =>
    obtain ⟨-, hes⟩ := not_or.mp (mt List.mem_cons.mpr hd)
    cases he with
    | first y => exact ih hes fun _ _ hb => by cases hb
    | replace y z => exact ih hes fun _ _ hb => by cases hb
    | park y n z => exact absurd rfl (hs y n)
    | take y =>
      -- the value is held from here on, and the rest only puts
      obtain ⟨honly, -⟩ := hr.held hes
      have hnone : takes es = 0 := List.countP_eq_zero.mpr fun e he => by
        obtain ⟨z, rfl⟩ := honly e he
        exact Bool.false_ne_true
      have hcons : takes (take y :: es) = takes es + 1 := List.countP_cons_of_pos rfl
      omega
    | promote y z => exact absurd rfl (hs y _)
    | finish y => exact absurd rfl (hs y _)

/-- **What is put into an empty slot before the first work ends costs two `take`s at most.** -/
theorem Run.takes_le_two (h : Run .absent (es ++ es') t) (hd : done ∉ es) (hn : puts es' = []) :
    takes (es ++ es') ≤ 2 := by
  obtain ⟨u, h1, h2⟩ := h.split
  have hfirst : takes es ≤ 1 := h1.takes_before_done hd fun _ _ hb => by cases hb
  have hrest : takes es' + t.due = u.due := h2.due hn
  have hdue : u.due ≤ 1 := by
    rcases u with _ | _ | ⟨_, _ | _⟩
    · exact Nat.zero_le _
    · exact Nat.le_refl 1
    · exact Nat.zero_le _
    · exact Nat.le_refl 1
  rw [takes_append]
  omega

end Coalesce
