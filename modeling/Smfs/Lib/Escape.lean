/-
# Texts with some characters escaped

Some characters are written as two: an escape character, which is one of them,
and a letter of their own. Such a text does not have the others among its
characters, and it is read back letter by letter.

Key definitions: `Escape.encode`, `Escape.decode`, `Escape.Code`.
Key theorems: `Escape.decode_encode`, `Escape.not_mem_encode`, `Escape.encode_replace`.
-/
import Mathlib.Data.List.Basic
import Mathlib.Tactic.Common

namespace Escape

variable {α : Type} {esc : α} {letter : α → Option α}

/-- The characters that have a letter are written as the escape character and
that letter. -/
def encode (esc : α) (letter : α → Option α) (xs : List α) : List α :=
  xs.flatMap fun x => match letter x with
    | some c => [esc, c]
    | none => [x]

@[simp] theorem encode_nil : encode esc letter [] = [] := rfl

theorem encode_cons_some {x c : α} (h : letter x = some c) (xs : List α) :
    encode esc letter (x :: xs) = esc :: c :: encode esc letter xs := by simp [encode, h]

theorem encode_cons_none {x : α} (h : letter x = none) (xs : List α) :
    encode esc letter (x :: xs) = x :: encode esc letter xs := by simp [encode, h]

/-- Each letter is one character's, and the escape character has one. -/
structure Code (esc : α) (letter unletter : α → Option α) : Prop where
  escaped : (letter esc).isSome = true
  back : ∀ x c, letter x = some c → unletter c = some x

section Decode

variable [DecidableEq α] {unletter : α → Option α}

/-- After an escape character a letter is read; one that is none is left as it is. -/
def decode (esc : α) (unletter : α → Option α) : List α → List α
  | [] => []
  | [x] => [x]
  | x :: y :: rest =>
    if x = esc then (unletter y).getD y :: decode esc unletter rest else x :: decode esc unletter (y :: rest)

theorem decode_cons {x : α} (h : x ≠ esc) (xs : List α) :
    decode esc unletter (x :: xs) = x :: decode esc unletter xs := by
  cases xs with
  | nil => rfl
  | cons y rest => simp [decode, h]

/-- **An escaped text is read back.** -/
theorem decode_encode (h : Code esc letter unletter) (xs : List α) :
    decode esc unletter (encode esc letter xs) = xs := by
  induction xs with
  | nil => rfl
  | cons x xs ih =>
    cases hx : letter x with
    | some c => simp [encode_cons_some hx, decode, h.back x c hx, ih]
    | none =>
      have hne : x ≠ esc := by
        rintro rfl
        simpa [hx] using h.escaped
      simp [encode_cons_none hx, decode_cons hne, ih]

end Decode

/-- A character that has a letter and is none is not there any more. -/
theorem not_mem_encode {y : α} (hy : (letter y).isSome = true) (hne : y ≠ esc) (hl : ∀ x c, letter x = some c → c ≠ y)
    (xs : List α) : y ∉ encode esc letter xs := by
  simp only [encode, List.mem_flatMap, not_exists, not_and]
  intro x _ hmem
  cases hx : letter x with
  | some c =>
    rw [hx] at hmem
    simp only [List.mem_cons, List.not_mem_nil, or_false] at hmem
    rcases hmem with he | he
    · exact hne he
    · exact hl x c hx he.symm
  | none =>
    rw [hx] at hmem
    simp only [List.mem_singleton] at hmem
    subst hmem
    simp [hx] at hy

/-- To replace one more character in what was escaped is to escape one more, if
it is no letter so far. -/
theorem encode_replace [DecidableEq α] {y c : α} (hy : letter y = none) (hne : y ≠ esc)
    (hl : ∀ x d, letter x = some d → d ≠ y) (xs : List α) :
    (encode esc letter xs).flatMap (fun x => if x = y then [esc, c] else [x]) =
      encode esc (Function.update letter y (some c)) xs := by
  induction xs with
  | nil => rfl
  | cons x xs ih =>
    by_cases hx : x = y
    · subst hx
      rw [encode_cons_none hy, encode_cons_some (Function.update_self x (some c) letter), List.flatMap_cons, ih]
      simp
    · have hsame : Function.update letter y (some c) x = letter x := Function.update_of_ne hx (some c) letter
      cases hd : letter x with
      | some d =>
        rw [encode_cons_some hd, encode_cons_some (hsame.trans hd), ← ih]
        simp [hl x d hd, hne.symm]
      | none =>
        rw [encode_cons_none hd, encode_cons_none (hsame.trans hd), ← ih]
        simp [hx]

end Escape
