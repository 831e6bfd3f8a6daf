/-
# Decimal numerals and their order

A numeral is the list of its digits, the first one the most significant.
Numerals of one width are in the order of their numbers, and a record that is
written as fields of fixed widths is in the lexicographic order of its fields;
the same order is that of the number in which the fields are counted up with a
bound for each.

Key definitions: `Decimal.value`, `Decimal.digits`.
Key theorems: `Decimal.value_digits`, `Decimal.digits_lt_iff`, `Decimal.append_lt_append_iff`,
`Decimal.add_lt_add_iff`.
-/
import Mathlib.Data.List.Basic
import Mathlib.Order.Monotone.Basic
import Mathlib.Order.Fin.Basic
import Mathlib.Algebra.Order.Ring.Int
import Mathlib.Tactic.Common
import Mathlib.Tactic.Ring

namespace Decimal

/-- The number the digits write. -/
def value (ds : List (Fin 10)) : ℕ := ds.foldl (fun n (d : Fin 10) => n * 10 + d.val) 0

/-- The last `w` digits of a number. -/
def digits : ℕ → ℕ → List (Fin 10)
  | 0, _ => []
  | w + 1, n => digits w (n / 10) ++ [Fin.ofNat 10 n]

theorem foldl_value (ds : List (Fin 10)) (n : ℕ) :
    ds.foldl (fun n (d : Fin 10) => n * 10 + d.val) n = n * 10 ^ ds.length + value ds := by
  induction ds generalizing n with
  | nil => simp [value]
  | cons d ds ih =>
    unfold value
    rw [List.foldl_cons, List.foldl_cons, ih, ih (0 * 10 + d.val), List.length_cons, pow_succ]
    ring

theorem value_append (ds es : List (Fin 10)) : value (ds ++ es) = value ds * 10 ^ es.length + value es := by
  unfold value
  rw [List.foldl_append, foldl_value]
  rfl

theorem value_cons (d : Fin 10) (ds : List (Fin 10)) : value (d :: ds) = d * 10 ^ ds.length + value ds := by
  unfold value
  rw [List.foldl_cons, foldl_value, zero_mul, zero_add]
  rfl

theorem value_lt (ds : List (Fin 10)) : value ds < 10 ^ ds.length := by
  induction ds with
  | nil => simp [value]
  | cons d ds ih =>
    have hd : (d : ℕ) + 1 ≤ 10 := d.isLt
    calc value (d :: ds) = d * 10 ^ ds.length + value ds := value_cons d ds
      _ < (d + 1) * 10 ^ ds.length := by
        rw [add_mul, one_mul]
        omega
      _ ≤ 10 * 10 ^ ds.length := Nat.mul_le_mul_right _ hd
      _ = 10 ^ (d :: ds).length := by rw [List.length_cons, pow_succ, mul_comm]

@[simp] theorem length_digits (w n : ℕ) : (digits w n).length = w := by
  induction w generalizing n with
  | zero => rfl
  | succ w ih => simp [digits, ih]

theorem value_digits {w n : ℕ} (h : n < 10 ^ w) : value (digits w n) = n := by
  induction w generalizing n with
  | zero =>
    obtain rfl : n = 0 := by simpa using h
    rfl
  | succ w ih =>
    rw [pow_succ] at h
    rw [digits, value_append, ih (by omega)]
    simp [value]
    omega

/-! ### Order -/

section Order

variable {α β : Type*}

/-- Of two records the first fields decide, and then the rest. -/
theorem append_lt_append_iff [Preorder α] {l l' r r' : List α} (h : l.length = l'.length) :
    l ++ r < l' ++ r' ↔ l < l' ∨ l = l' ∧ r < r' := by
  induction l generalizing l' with
  | nil =>
    obtain rfl := List.eq_nil_of_length_eq_zero h.symm
    simp
  | cons a l ih =>
    cases l' with
    | nil => cases h
    | cons b l' =>
      have h : l.length = l'.length := Nat.succ.inj h
      rw [List.cons_append, List.cons_append, List.cons_lt_cons_iff, List.cons_lt_cons_iff, ih h, List.cons.injEq]
      tauto

theorem cons_lt_cons_self [Preorder α] {a : α} {l l' : List α} : a :: l < a :: l' ↔ l < l' := by
  simp

theorem map_lt_map_iff [LinearOrder α] [Preorder β] {f : α → β} (hf : StrictMono f) {l l' : List α} :
    l.map f < l'.map f ↔ l < l' := by
  induction l generalizing l' with
  | nil => cases l' <;> simp
  | cons a l ih =>
    cases l' with
    | nil => simp
    | cons b l' => simp [List.cons_lt_cons_iff, hf.lt_iff_lt, hf.injective.eq_iff, ih]

theorem value_lt_iff {ds es : List (Fin 10)} (h : ds.length = es.length) : ds < es ↔ value ds < value es := by
  induction ds generalizing es with
  | nil =>
    obtain rfl := List.eq_nil_of_length_eq_zero h.symm
    simp [value]
  | cons d ds ih =>
    cases es with
    | nil => cases h
    | cons e es =>
      have h : ds.length = es.length := Nat.succ.inj h
      have hd : value ds < 10 ^ es.length := h ▸ value_lt ds
      have he : value es < 10 ^ es.length := value_lt es
      rw [List.cons_lt_cons_iff, ih h, value_cons, value_cons, h]
      constructor
      · rintro (hlt | ⟨rfl, hlt⟩)
        · have hle : ((d : ℕ) + 1) * 10 ^ es.length ≤ e * 10 ^ es.length := Nat.mul_le_mul_right _ hlt
          rw [add_mul, one_mul] at hle
          omega
        · omega
      · intro hlt
        rcases lt_trichotomy d e with hde | rfl | hde
        · exact .inl hde
        · exact .inr ⟨rfl, by omega⟩
        · have hle : ((e : ℕ) + 1) * 10 ^ es.length ≤ d * 10 ^ es.length := Nat.mul_le_mul_right _ hde
          rw [add_mul, one_mul] at hle
          omega

theorem digits_lt_iff {w n m : ℕ} (hn : n < 10 ^ w) (hm : m < 10 ^ w) : digits w n < digits w m ↔ n < m := by
  rw [value_lt_iff (by rw [length_digits, length_digits]), value_digits hn, value_digits hm]

theorem digits_eq_iff {w n m : ℕ} (hn : n < 10 ^ w) (hm : m < 10 ^ w) : digits w n = digits w m ↔ n = m := by
  refine ⟨fun h => ?_, fun h => h ▸ rfl⟩
  rw [← value_digits hn, h, value_digits hm]

/-- A count that goes on by more than what is added to it. -/
theorem add_lt_add_iff {f : ℕ → ℕ} (hf : Monotone f) {a b r s : ℕ} (hr : f a + r < f (a + 1))
    (hs : f b + s < f (b + 1)) :
    f a + r < f b + s ↔ a < b ∨ a = b ∧ r < s := by
  rcases lt_trichotomy a b with hab | rfl | hab
  · have hle : f (a + 1) ≤ f b := hf hab
    exact ⟨fun _ => .inl hab, fun _ => by omega⟩
  · simp
  · have hle : f (b + 1) ≤ f a := hf hab
    constructor
    · intro hlt
      omega
    · rintro (hlt | ⟨rfl, -⟩)
      · omega
      · omega

end Order

end Decimal
