/-
# Regular expressions over classes of symbols

A regular expression is built of classes of symbols, so that one expression
may be read over characters or over code units. `Matches` says that a whole
word is matched; an anchor at the end that also stands before a last newline
is `MatchesLine`.

Key definitions: `Regex.Re`, `Regex.Matches`, `Regex.MatchesLine`.
Key theorems: `Regex.matches_seq`, `Regex.matches_star_cls`, `Regex.matches_plus_cls`.
-/
import Mathlib.Data.List.Basic
import Mathlib.Tactic.Common

namespace Regex

variable {α : Type*}

inductive Re (α : Type*)
  | cls (p : α → Bool)
  | seq (r s : Re α)
  | opt (r : Re α)
  | star (r : Re α)

/-- One or more times. -/
def Re.plus (r : Re α) : Re α := .seq r (.star r)

/-- The expression matches the word. -/
inductive Matches : Re α → List α → Prop
  | cls {p : α → Bool} {a : α} : p a = true → Matches (.cls p) [a]
  | seq {r s : Re α} {x y : List α} : Matches r x → Matches s y → Matches (.seq r s) (x ++ y)
  | optNone {r : Re α} : Matches (.opt r) []
  | optSome {r : Re α} {x : List α} : Matches r x → Matches (.opt r) x
  | starNil {r : Re α} : Matches (.star r) []
  | starCons {r : Re α} {x y : List α} : Matches r x → Matches (.star r) y → Matches (.star r) (x ++ y)

/-- The expression matches the word, or the word up to a last newline. -/
def MatchesLine (newline : α) (r : Re α) (w : List α) : Prop := Matches r w ∨ ∃ x, w = x ++ [newline] ∧ Matches r x

variable {r s : Re α} {p : α → Bool} {w : List α}

@[simp] theorem matches_cls : Matches (.cls p) w ↔ ∃ a, w = [a] ∧ p a = true := by
  constructor
  · rintro ⟨h⟩
    exact ⟨_, rfl, h⟩
  · rintro ⟨a, rfl, h⟩
    exact .cls h

@[simp] theorem matches_seq : Matches (.seq r s) w ↔ ∃ x y, w = x ++ y ∧ Matches r x ∧ Matches s y := by
  constructor
  · rintro (- | ⟨hx, hy⟩)
    exact ⟨_, _, rfl, hx, hy⟩
  · rintro ⟨x, y, rfl, hx, hy⟩
    exact .seq hx hy

@[simp] theorem matches_opt : Matches (.opt r) w ↔ w = [] ∨ Matches r w := by
  constructor
  · rintro (- | - | - | h)
    · exact .inl rfl
    · exact .inr h
  · rintro (rfl | h)
    · exact .optNone
    · exact .optSome h

/-- Any number of symbols of a class. -/
@[simp] theorem matches_star_cls : Matches (.star (.cls p)) w ↔ ∀ a ∈ w, p a = true := by
  constructor
  · intro h
    generalize hr : Re.star (.cls p) = r at h
    induction h with
    | starNil => exact fun a ha => (nomatch ha)
    | starCons hx _ _ ih =>
      cases hr
      obtain ⟨a, rfl, ha⟩ := matches_cls.mp hx
      intro b hb
      rcases List.mem_cons.mp hb with rfl | hb
      · exact ha
      · exact ih rfl b hb
    | cls | seq | optNone | optSome => cases hr
  · intro h
    induction w with
    | nil => exact .starNil
    | cons a w ih => exact .starCons (.cls (h a List.mem_cons_self)) (ih fun b hb => h b (List.mem_cons_of_mem a hb))

@[simp] theorem matches_plus_cls : Matches (.plus (.cls p)) w ↔ w ≠ [] ∧ ∀ a ∈ w, p a = true := by
  rw [Re.plus, matches_seq]
  constructor
  · rintro ⟨x, y, rfl, hx, hy⟩
    obtain ⟨a, rfl, ha⟩ := matches_cls.mp hx
    refine ⟨List.cons_ne_nil _ _, fun b hb => ?_⟩
    rcases List.mem_cons.mp hb with rfl | hb
    · exact ha
    · exact matches_star_cls.mp hy b hb
  · rintro ⟨hne, hall⟩
    obtain ⟨a, w, rfl⟩ := List.exists_cons_of_ne_nil hne
    exact ⟨[a], w, rfl, .cls (hall a List.mem_cons_self), matches_star_cls.mpr fun b hb =>
      hall b (List.mem_cons_of_mem a hb)⟩

end Regex
