/-
# Forests under a root, edge by edge

`E p c` says that `c` has an entry in `p`; a node may have several. A node
reaches the root if every way up from it ends there, so a relation all of
whose nodes reach the root has no loop and no loose end. The relation stays
so when an edge comes from a node that reaches the root and does not lie
under the edge's own child, and when edges go while every parent keeps one.

Key definitions: `Forest.Reaches`, `Forest.Rooted`.
Key theorems: `Forest.Rooted.acyclic`, `Forest.Rooted.change`, `Forest.Rooted.drop`,
`Forest.under_of_change`.
-/
import Mathlib.Logic.Relation

namespace Forest

open Relation

variable {ι : Type*} {E E' : ι → ι → Prop} {root p c k : ι}

/-- Every way up from the node ends at the root. -/
inductive Reaches (E : ι → ι → Prop) (root : ι) : ι → Prop
  | root : Reaches E root root
  | up {c : ι} (has : ∃ p, E p c) (all : ∀ p, E p c → Reaches E root p) : Reaches E root c

/-- Every node that has an entry reaches the root, which has none. -/
structure Rooted (E : ι → ι → Prop) (root : ι) : Prop where
  top : ∀ p, ¬ E p root
  reaches : ∀ p c, E p c → Reaches E root c

/-- What reaches the root lies under it. -/
theorem Reaches.under (h : Reaches E root c) : ReflTransGen E root c := by
  induction h with
  | root => exact .refl
  | up has _ ih =>
    obtain ⟨p, hp⟩ := has
    exact (ih p hp).tail hp

theorem Reaches.named (h : Reaches E root c) : c = root ∨ ∃ p, E p c := by
  cases h with
  | root => exact .inl rfl
  | up has _ => exact .inr has

namespace Rooted

theorem reaches_of_named (h : Rooted E root) (hc : c = root ∨ ∃ p, E p c) : Reaches E root c := by
  rcases hc with rfl | ⟨p, hp⟩
  · exact .root
  · exact h.reaches p c hp

theorem parent (h : Rooted E root) (hp : E p c) : Reaches E root p := by
  cases h.reaches p c hp with
  | root => exact absurd hp (h.top p)
  | up _ all => exact all p hp

/-- No way down leads back. -/
theorem acyclic (h : Rooted E root) : ¬ TransGen E c c := by
  intro hcyc
  obtain ⟨p, -, hp⟩ := TransGen.tail'_iff.mp hcyc
  have hr := h.reaches p c hp
  clear hp
  induction hr with
  | root =>
    obtain ⟨q, -, hq⟩ := TransGen.tail'_iff.mp hcyc
    exact h.top q hq
  | up has all ih =>
    obtain ⟨q, hcq, hq⟩ := TransGen.tail'_iff.mp hcyc
    exact ih q hq (TransGen.head' hq hcq)

/-- Edges go, and every parent that is left keeps one. -/
theorem drop (h : Rooted E root) (hsub : ∀ a b, E' a b → E a b)
    (hkeep : ∀ a b, E' a b → a = root ∨ ∃ q, E' q a) : Rooted E' root := by
  have key : ∀ a, Reaches E root a → (a = root ∨ ∃ q, E' q a) → Reaches E' root a := by
    intro a ha
    induction ha with
    | root => exact fun _ => .root
    | up has all ih =>
      rename_i b
      rintro (rfl | hex)
      · exact .root
      · exact .up hex fun q hq => ih q (hsub q b hq) (hkeep q b hq)
  exact ⟨fun q hq => h.top q (hsub q root hq), fun q b hq => key b (h.reaches q b (hsub q b hq)) (.inr ⟨q, hq⟩)⟩

/-- An edge comes. -/
theorem insert (h : Rooted E root) (hp : Reaches E root p) (hu : ¬ ReflTransGen E k p)
    (hE : ∀ a b, E' a b ↔ E a b ∨ a = p ∧ b = k) : Rooted E' root := by
  have hroot : k ≠ root := by
    rintro rfl
    exact hu hp.under
  -- what does not lie under the new child has the ways up that it had
  have hout : ∀ a, Reaches E root a → ¬ ReflTransGen E k a → Reaches E' root a := by
    intro a ha
    induction ha with
    | root => exact fun _ => .root
    | up has all ih =>
      rename_i b
      intro hb
      obtain ⟨q, hq⟩ := has
      refine .up ⟨q, (hE q b).mpr (.inl hq)⟩ fun q' hq' => ?_
      rcases (hE q' b).mp hq' with hold | ⟨-, rfl⟩
      · exact ih q' hold fun hkq => hb (hkq.tail hold)
      · exact absurd .refl hb
  have hp' : Reaches E' root p := hout p hp hu
  have hin : ∀ a, Reaches E root a → Reaches E' root a := by
    intro a ha
    induction ha with
    | root => exact .root
    | up has all ih =>
      rename_i b
      obtain ⟨q, hq⟩ := has
      refine .up ⟨q, (hE q b).mpr (.inl hq)⟩ fun q' hq' => ?_
      rcases (hE q' b).mp hq' with hold | ⟨rfl, -⟩
      · exact ih q' hold
      · exact hp'
  refine ⟨fun q hq => ?_, fun q b hq => ?_⟩
  · rcases (hE q root).mp hq with hold | ⟨-, he⟩
    · exact h.top q hold
    · exact hroot he.symm
  · refine .up ⟨q, hq⟩ fun q' hq' => ?_
    rcases (hE q' b).mp hq' with hold | ⟨rfl, -⟩
    · exact hin q' (h.parent hold)
    · exact hp'

/-- An edge comes and others go. -/
theorem change (h : Rooted E root) (hp : Reaches E root p) (hu : ¬ ReflTransGen E k p)
    (hnew : ∀ a b, E' a b → E a b ∨ a = p ∧ b = k) (hkeep : ∀ a b, E' a b → a = root ∨ ∃ q, E' q a) :
    Rooted E' root := by
  have hins : Rooted (fun a b => E a b ∨ a = p ∧ b = k) root := h.insert hp hu fun _ _ => Iff.rfl
  exact hins.drop hnew hkeep

end Rooted

/-- New edges from `p` make no new way down to `p`. -/
theorem under_of_change (hnew : ∀ a b, E' a b → E a b ∨ a = p) (h : ReflTransGen E' k p) :
    ReflTransGen E k p := by
  induction h using ReflTransGen.head_induction_on with
  | refl => exact .refl
  | head hab _ ih =>
    rcases hnew _ _ hab with hold | rfl
    · exact ih.head hold
    · exact .refl

end Forest
