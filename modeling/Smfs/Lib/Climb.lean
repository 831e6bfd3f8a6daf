/-
# The way up from a node

Every node has at most one parent, and an edge to it that carries a label.
The way up from a node passes the labels up to the root; there is at most one,
it passes every node once, and it stays as long as the nodes on it keep their
parents. `climb` follows it for a number of steps, and as many steps as there
are nodes are enough.

Key definitions: `Climb.Way`, `Climb.climb`.
Key theorems: `Climb.Way.unique`, `Climb.Way.length_le`, `Climb.Way.congr`, `Climb.Way.inj`, `Climb.climb_iff`.
-/
import Mathlib.Data.List.Perm.Subperm
import Mathlib.Order.Nat

namespace Climb

variable {ι β : Type*} {root i j : ι} {up up' : ι → Option (ι × β)} {bs cs : List β}

/-- The labels on the way from the root to a node. -/
inductive Way (root : ι) (up : ι → Option (ι × β)) : ι → List β → Prop
  | root : Way root up root []
  | step {i p : ι} {b : β} {bs : List β} (hi : i ≠ root) (hup : up i = some (p, b)) (h : Way root up p bs) :
      Way root up i (bs ++ [b])

/-- The way up, for at most as many steps as are given. -/
def climb [DecidableEq ι] (root : ι) (up : ι → Option (ι × β)) : ℕ → ι → Option (List β)
  | 0, i => if i = root then some [] else none
  | n + 1, i =>
    if i = root then some []
    else
      match up i with
      | some (p, b) => (climb root up n p).map (· ++ [b])
      | none => none

theorem Way.unique (h : Way root up i bs) : Way root up i cs → bs = cs := by
  induction h generalizing cs with
  | root =>
    intro h'
    cases h' with
    | root => rfl
    | step hi => exact absurd rfl hi
  | step hi hup _ ih =>
    intro h'
    cases h' with
    | root => exact absurd rfl hi
    | step _ hup' hrest =>
      rw [hup] at hup'
      cases hup'
      rw [ih hrest]

/-- The nodes on the way, the root apart. -/
theorem Way.nodes (h : Way root up i bs) : ∃ ks : List ι, ks.length = bs.length ∧ ks.Nodup ∧
    ∀ k ∈ ks, (up k).isSome = true ∧ ∃ cs, Way root up k cs ∧ cs.length ≤ bs.length := by
  induction h with
  | root => exact ⟨[], rfl, List.nodup_nil, fun _ hk => (nomatch hk)⟩
  | @step i p b bs hi hup h ih =>
    obtain ⟨ks, hlen, hnodup, hks⟩ := ih
    have hway : Way root up i (bs ++ [b]) := .step hi hup h
    refine ⟨i :: ks, by simp [hlen], List.nodup_cons.mpr ⟨fun hmem => ?_, hnodup⟩, fun k hk => ?_⟩
    · -- the way from the node is longer than that of any node further up
      obtain ⟨-, cs, hcs, hle⟩ := hks i hmem
      have hsame : cs = bs ++ [b] := hcs.unique hway
      have hlt : bs.length < cs.length := by
        rw [hsame, List.length_append]
        simp
      exact absurd hle (not_le.mpr hlt)
    · rcases List.mem_cons.mp hk with rfl | hk
      · exact ⟨by rw [hup]; rfl, _, hway, le_rfl⟩
      · obtain ⟨hsome, cs, hcs, hle⟩ := hks k hk
        refine ⟨hsome, cs, hcs, hle.trans ?_⟩
        rw [List.length_append]
        exact Nat.le_add_right _ _

/-- The way is not longer than there are nodes. -/
theorem Way.length_le (h : Way root up i bs) {nodes : List ι} (hall : ∀ k, (up k).isSome = true → k ∈ nodes) :
    bs.length ≤ nodes.length := by
  obtain ⟨ks, hlen, hnodup, hks⟩ := h.nodes
  rw [← hlen]
  exact (List.subperm_of_subset hnodup fun k hk => hall k (hks k hk).1).length_le

/-- The way stays where the nodes on it keep their parents. -/
theorem Way.congr {P : ι → Prop} (h : Way root up i bs) (hi : P i)
    (hP : ∀ k p b, P k → up k = some (p, b) → P p) (hup : ∀ k, P k → up' k = up k) : Way root up' i bs := by
  induction h with
  | root => exact .root
  | step hne he _ ih => exact .step hne ((hup _ hi).trans he) (ih (hP _ _ _ hi he))

/-- Where no two nodes have the same parent and label, the way names the node. -/
theorem Way.inj (huniq : ∀ i j p b, up i = some (p, b) → up j = some (p, b) → i = j) (h : Way root up i bs) :
    Way root up j bs → i = j := by
  induction h generalizing j with
  | root =>
    intro h'
    generalize hnil : ([] : List β) = l at h'
    cases h' with
    | root => rfl
    | step => exact absurd hnil (by simp)
  | @step i p b bs hi hup _ ih =>
    intro h'
    generalize hl : bs ++ [b] = l at h'
    cases h' with
    | root => exact absurd hl (by simp)
    | step hj hup' hrest =>
      obtain ⟨rfl, hb⟩ := List.append_inj' hl rfl
      cases hb
      obtain rfl := ih hrest
      exact huniq _ _ _ _ hup hup'

theorem climb_iff [DecidableEq ι] {n : ℕ} : climb root up n i = some bs ↔ Way root up i bs ∧ bs.length ≤ n := by
  induction n generalizing i bs with
  | zero =>
    unfold climb
    constructor
    · intro h
      split_ifs at h with hi
      cases h
      rw [hi]
      exact ⟨.root, le_rfl⟩
    · rintro ⟨h, hlen⟩
      obtain rfl := List.length_eq_zero_iff.mp (Nat.le_zero.mp hlen)
      generalize hnil : ([] : List β) = l at h
      cases h with
      | root => rw [if_pos rfl]
      | step => exact absurd hnil (by simp)
  | succ n ih =>
    unfold climb
    by_cases hi : i = root
    · subst hi
      rw [if_pos rfl]
      constructor
      · intro h
        cases h
        exact ⟨.root, Nat.zero_le _⟩
      · rintro ⟨h, -⟩
        rw [h.unique .root]
    · rw [if_neg hi]
      constructor
      · intro h
        cases hup : up i with
        | none =>
          rw [hup] at h
          cases h
        | some pb =>
          rw [hup] at h
          obtain ⟨cs, hcs, rfl⟩ := Option.map_eq_some_iff.mp h
          obtain ⟨hway, hlen⟩ := ih.mp hcs
          refine ⟨.step hi hup hway, ?_⟩
          rw [List.length_append]
          exact Nat.add_le_add_right hlen 1
      · rintro ⟨h, hlen⟩
        cases h with
        | root => exact absurd rfl hi
        | step _ hup hrest =>
          rw [hup]
          rw [List.length_append] at hlen
          have hclimb : climb root up n _ = some _ := ih.mpr ⟨hrest, Nat.le_of_succ_le_succ hlen⟩
          show (climb root up n _).map _ = _
          rw [hclimb]
          rfl

end Climb
