/-
# Parts between separators, and parts that a separator ends

A list that is empty or ends in the separator is the list of its parts, each
with the separator after it. To split it gives the parts and one more, which is
empty; to join parts with separators between them gives what the parts are with
separators after them, without the last.

Key definitions: `Lines.ended`.
Key theorems: `Lines.splitOn_ended`, `Lines.intercalate_concat_nil`, `Lines.exists_ended`, `Lines.ended_tail_iff`.
-/
import Mathlib.Data.List.Basic
import Mathlib.Tactic.Common

namespace Lines

variable {α : Type}

/-- The parts, each with the separator after it. -/
def ended (x : α) (ls : List (List α)) : List α := ls.flatMap (· ++ [x])

variable {x : α} {ls : List (List α)} {l : List α}

@[simp] theorem ended_nil : ended x [] = [] := rfl

@[simp] theorem ended_cons : ended x (l :: ls) = l ++ x :: ended x ls := by simp [ended]

@[simp] theorem ended_append (ms : List (List α)) : ended x (ls ++ ms) = ended x ls ++ ended x ms := by simp [ended]

theorem ended_take_drop (n : ℕ) : ended x (ls.take n) ++ ended x (ls.drop n) = ended x ls := by
  rw [← ended_append, List.take_append_drop]

/-- With one more separator. -/
theorem intercalate_append_self (h : ls ≠ []) : [x].intercalate ls ++ [x] = ended x ls := by
  induction ls with
  | nil => exact absurd rfl h
  | cons l ls ih =>
    cases ls with
    | nil => simp
    | cons m ms =>
      have ih' : [x].intercalate (m :: ms) ++ [x] = ended x (m :: ms) := ih (List.cons_ne_nil _ _)
      rw [List.intercalate_cons_cons, ended_cons, ← ih']
      simp

/-- An empty part more. -/
theorem intercalate_concat_nil (ls : List (List α)) : [x].intercalate (ls ++ [[]]) = ended x ls := by
  induction ls with
  | nil => rfl
  | cons l ls ih =>
    obtain ⟨m, ms, hm⟩ : ∃ m ms, ls ++ [[]] = m :: ms := List.exists_cons_of_ne_nil (by simp)
    rw [List.cons_append, hm, List.intercalate_cons_cons, ended_cons, ← ih, hm]
    simp

section Split

variable [BEq α] [LawfulBEq α]

theorem splitOn_ended (h : ∀ l ∈ ls, x ∉ l) : (ended x ls).splitOn x = ls ++ [[]] := by
  rw [← intercalate_concat_nil]
  apply List.splitOn_intercalate
  · intro l hl
    rcases List.mem_append.mp hl with hl | hl
    · exact h l hl
    · rw [List.mem_singleton.mp hl]
      exact List.not_mem_nil
  · simp

theorem count_ended (h : ∀ l ∈ ls, x ∉ l) : (ended x ls).count x = ls.length := by
  induction ls with
  | nil => rfl
  | cons l ls ih =>
    have hl : l.count x = 0 := List.count_eq_zero.mpr (h l List.mem_cons_self)
    have ih' : (ended x ls).count x = ls.length := ih fun m hm => h m (List.mem_cons_of_mem l hm)
    simp [hl, ih']

/-- No part of a split has the separator. -/
theorem not_mem_splitOn {t : List α} (h : l ∈ t.splitOn x) : x ∉ l := by
  induction t generalizing l with
  | nil =>
    rw [List.splitOn_nil, List.mem_singleton] at h
    rw [h]
    exact List.not_mem_nil
  | cons a t ih =>
    obtain ⟨m, ms, hm⟩ : ∃ m ms, t.splitOn x = m :: ms := List.exists_cons_of_ne_nil (List.splitOn_ne_nil x t)
    rw [List.splitOn_cons_eq_if_modifyHead, hm] at h
    rw [hm] at ih
    split_ifs at h with ha
    · rcases List.mem_cons.mp h with rfl | h
      · exact List.not_mem_nil
      · exact ih h
    · rw [List.modifyHead_cons] at h
      rcases List.mem_cons.mp h with rfl | h
      · rw [List.mem_cons, not_or]
        exact ⟨fun hx => ha (by rw [hx]; exact beq_self_eq_true _), ih List.mem_cons_self⟩
      · exact ih (List.mem_cons_of_mem _ h)

/-- A list that is empty or ends in the separator has such parts. -/
theorem exists_ended {t : List α} (h : t = [] ∨ t.getLast? = some x) : ∃ ls, (∀ l ∈ ls, x ∉ l) ∧ t = ended x ls := by
  rcases h with rfl | h
  · exact ⟨[], by simp, rfl⟩
  · obtain ⟨cs, hcs⟩ := List.getLast?_eq_some_iff.mp h
    refine ⟨cs.splitOn x, fun l hl => not_mem_splitOn hl, ?_⟩
    rw [← intercalate_append_self (List.splitOn_ne_nil x cs), List.intercalate_splitOn, hcs]

end Split

/-- A list that goes round has one element only. -/
theorem eq_of_append_self {t : List α} (h : t ++ [x] = x :: t) : ∀ a ∈ t, a = x := by
  induction t with
  | nil => simp
  | cons b t ih =>
    rw [List.cons_append, List.cons.injEq] at h
    obtain ⟨rfl, ht⟩ : b = x ∧ t ++ [x] = b :: t := h
    intro a ha
    rcases List.mem_cons.mp ha with rfl | ha
    · rfl
    · exact ih ht a ha

theorem ended_of_empty (h : ∀ m ∈ ls, m = []) : ended x ls = List.replicate ls.length x := by
  induction ls with
  | nil => rfl
  | cons l ls ih =>
    have hl : l = [] := h l List.mem_cons_self
    have ih' : ended x ls = _ := ih fun m hm => h m (List.mem_cons_of_mem l hm)
    rw [ended_cons, hl, ih', List.nil_append, List.length_cons, List.replicate_succ]

/-- The parts but the first, with a separator more, are the parts just if all
parts are empty. -/
theorem ended_tail_iff (h : ∀ m ∈ ls, x ∉ m) :
    ended x ls ++ [x] = ended x (l :: ls) ↔ ∀ m ∈ l :: ls, m = [] := by
  constructor
  · intro he
    have hl : l = [] := by
      have hlen := congrArg List.length he
      simp only [List.length_append, ended_cons, List.length_cons, List.length_nil] at hlen
      apply List.length_eq_zero_iff.mp
      omega
    rw [ended_cons, hl, List.nil_append] at he
    have hall : ∀ a ∈ ended x ls, a = x := eq_of_append_self he
    intro m hm
    rcases List.mem_cons.mp hm with rfl | hm
    · exact hl
    · apply List.eq_nil_iff_forall_not_mem.mpr
      intro a ha
      have hx : a = x := hall a (List.mem_flatMap.mpr ⟨m, hm, List.mem_append_left _ ha⟩)
      exact h m hm (hx ▸ ha)
  · intro hall
    have hls : ended x ls = _ := ended_of_empty fun m hm => hall m (List.mem_cons_of_mem l hm)
    have hcons : ended x (l :: ls) = _ := ended_of_empty hall
    rw [hls, hcons, List.length_cons, List.replicate_succ']

end Lines
