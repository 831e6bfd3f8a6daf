/-
# Reading a list in pages while it changes

A reader asks for one page after another, by offset, of a list that others
change between its requests. What it has not been handed yet is found behind
the pages it has read, as long as nothing that is still listed falls back
into their range (`KeepsAhead`). `Covers` is the reader's invariant, with one
lemma for each thing that can happen to it.

Key definitions: `Paging.page`, `Paging.ahead`, `Paging.KeepsAhead`, `Paging.Covers`.
Key theorems: `Paging.Covers.page`, `Paging.Covers.change`, `Paging.Covers.last`,
`Paging.take_ahead`, `Paging.page_ahead`, `Paging.flatten_toChunks`.
-/
import Mathlib.Tactic.Common
import Mathlib.Data.List.Basic

namespace Paging

variable {α : Type*} {L n : ℕ} {xs ys : List α}

/-- Page `p` of a list, counted from 1. -/
def page (L : ℕ) (xs : List α) (p : ℕ) : List α := (xs.drop ((p - 1) * L)).take L

/-- The number of pages. -/
def totalPages (L : ℕ) (xs : List α) : ℕ := (xs.length + L - 1) / L

/-- What lies behind the first `n` pages. -/
def ahead (L : ℕ) (xs : List α) (n : ℕ) : List α := xs.drop (n * L)

/-- Nothing behind the first `n` pages that stays listed falls back into them. -/
def KeepsAhead (L n : ℕ) (xs ys : List α) : Prop := ∀ x ∈ ahead L xs n, x ∈ ys → x ∈ ahead L ys n

instance [DecidableEq α] : Decidable (KeepsAhead L n xs ys) := by
  unfold KeepsAhead
  infer_instance

theorem page_succ (L : ℕ) (xs : List α) (n : ℕ) : page L xs (n + 1) = (ahead L xs n).take L := rfl

theorem ahead_succ (L : ℕ) (xs : List α) (n : ℕ) : ahead L xs (n + 1) = (ahead L xs n).drop L := by
  unfold ahead
  rw [List.drop_drop, Nat.succ_mul]

/-- A page, and what lies behind it. -/
theorem page_append_ahead (L : ℕ) (xs : List α) (n : ℕ) : page L xs (n + 1) ++ ahead L xs (n + 1) = ahead L xs n := by
  rw [page_succ, ahead_succ, List.take_append_drop]

theorem mem_ahead {x : α} (h : x ∈ ahead L xs n) : x ∈ page L xs (n + 1) ∨ x ∈ ahead L xs (n + 1) := by
  rw [← List.take_append_drop L (ahead L xs n)] at h
  rw [page_succ, ahead_succ]
  exact List.mem_append.mp h

theorem mem_of_mem_page {x : α} {p : ℕ} (h : x ∈ page L xs p) : x ∈ xs :=
  List.mem_of_mem_drop (List.mem_of_mem_take h)

theorem mem_of_mem_ahead {x : α} (h : x ∈ ahead L xs n) : x ∈ xs := List.mem_of_mem_drop h

theorem mem_take_or_ahead {x : α} (h : x ∈ xs) (n : ℕ) : x ∈ xs.take (n * L) ∨ x ∈ ahead L xs n := by
  rw [← List.take_append_drop (n * L) xs] at h
  exact List.mem_append.mp h

/-- In a sorted list the pages read come before what lies behind them. -/
theorem take_ahead {R : α → α → Prop} (h : xs.Pairwise R) {x y : α} (hx : x ∈ xs.take (n * L))
    (hy : y ∈ ahead L xs n) : R x y := by
  rw [← List.take_append_drop (n * L) xs] at h
  exact (List.pairwise_append.mp h).2.2 x hx y hy

theorem page_ahead {R : α → α → Prop} (h : xs.Pairwise R) {x y : α} (hx : x ∈ page L xs (n + 1))
    (hy : y ∈ ahead L xs (n + 1)) : R x y := by
  have hn : (ahead L xs n).Pairwise R := h.sublist (List.drop_sublist _ _)
  rw [← List.take_append_drop L (ahead L xs n)] at hn
  rw [ahead_succ] at hy
  exact (List.pairwise_append.mp hn).2.2 x hx y hy

theorem page_sublist (L : ℕ) (xs : List α) (p : ℕ) : (page L xs p).Sublist xs :=
  (List.take_sublist _ _).trans (List.drop_sublist _ _)

/-- Behind an empty page there is nothing. -/
theorem ahead_of_page_nil (hL : 0 < L) (h : page L xs (n + 1) = []) : ahead L xs n = [] := by
  rw [page_succ, List.take_eq_nil_iff] at h
  rcases h with h | h
  · omega
  · exact h

/-- Behind the last page there is nothing. -/
theorem ahead_of_last (hL : 0 < L) (h : totalPages L xs ≤ n) : ahead L xs n = [] := by
  unfold totalPages at h
  have h1 : xs.length + L - 1 < (n + 1) * L := by
    have := Nat.lt_succ_of_le h
    exact (Nat.div_lt_iff_lt_mul hL).mp this
  rw [Nat.succ_mul] at h1
  unfold ahead
  rw [List.drop_eq_nil_iff]
  omega

/-- A reader that has read `n` pages: what concerns it is settled, or lies
behind them. -/
def Covers (L : ℕ) (xs : List α) (n : ℕ) (concerns settled : α → Prop) : Prop :=
  ∀ x ∈ xs, concerns x → settled x ∨ x ∈ ahead L xs n

variable {C C' S S' : α → Prop}

theorem Covers.start : Covers L xs 0 C S := by
  intro x hx _
  refine .inr ?_
  unfold ahead
  rwa [Nat.zero_mul, List.drop_zero]

/-- The next page is handed over. -/
theorem Covers.page (h : Covers L xs n C S) (hS : ∀ x, S x → S' x)
    (hp : ∀ x ∈ Paging.page L xs (n + 1), S' x) : Covers L xs (n + 1) C S' := by
  intro x hx hc
  rcases h x hx hc with hs | ha
  · exact .inl (hS x hs)
  · rcases mem_ahead ha with hin | ha
    · exact .inl (hp x hin)
    · exact .inr ha

/-- The list changes; what newly concerns the reader comes in behind. -/
theorem Covers.change (h : Covers L xs n C S) (hk : KeepsAhead L n xs ys)
    (hnew : ∀ y ∈ ys, C' y → y ∈ xs ∧ C y ∨ y ∈ ahead L ys n) : Covers L ys n C' S := by
  intro y hy hc
  rcases hnew y hy hc with ⟨hx, hcx⟩ | ha
  · rcases h y hx hcx with hs | ha
    · exact .inl hs
    · exact .inr (hk y ha hy)
  · exact .inr ha

/-- With nothing behind the pages read, all is settled. -/
theorem Covers.last (h : Covers L xs n C S) (hn : ahead L xs n = []) : ∀ x ∈ xs, C x → S x := by
  intro x hx hc
  rcases h x hx hc with hs | ha
  · exact hs
  · rw [hn] at ha
    cases ha

/-! ### Batches -/

/-- Nothing is lost when a list is cut up, and nothing changes places. -/
theorem flatten_toChunks (n : ℕ) (xs : List α) : (xs.toChunks n).flatten = xs := by
  have hgo : ∀ (xs : List α) (acc₁ : Array α) (acc₂ : Array (List α)),
      (List.toChunks.go n xs acc₁ acc₂).flatten = acc₂.toList.flatten ++ acc₁.toList ++ xs := by
    intro xs
    induction xs with
    | nil => simp [List.toChunks.go]
    | cons x xs ih =>
      intro acc₁ acc₂
      unfold List.toChunks.go
      split_ifs
      · simp [ih]
      · simp [ih]
  cases xs with
  | nil => cases n <;> rfl
  | cons x xs =>
    cases n with
    | zero => simp [List.toChunks]
    | succ n =>
      show (List.toChunks.go (n + 1) xs #[x] #[]).flatten = x :: xs
      simp [hgo]

theorem mem_of_mem_chunk {x : α} {batch : List α} (hb : batch ∈ xs.toChunks n) (hx : x ∈ batch) : x ∈ xs := by
  rw [← flatten_toChunks n xs]
  exact List.mem_flatten.mpr ⟨batch, hb, hx⟩

end Paging
