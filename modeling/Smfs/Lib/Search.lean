/-
# The first occurrence of a list in a list

`find pat text` is the position of the first occurrence of `pat` in `text`.
An occurrence in `x ++ y` is in `x`, in `y`, or across the seam between them;
of a pattern that begins with two elements of which the second does not come
again (`Sharp`), none is across a seam at which such a pattern begins or ends.

Key definitions: `Search.find`, `Search.OccursAt`, `Search.FirstAt`, `Search.Straddles`, `Search.Sharp`.
Key theorems: `Search.find_eq_some_iff`, `Search.find_eq_none_iff`, `Search.occurs_append`, `Search.find_eq_length`,
`Search.Sharp.not_straddles_right`, `Search.Sharp.not_straddles_left`.
-/
import Mathlib.Data.List.Infix
import Mathlib.Data.Nat.Find
import Mathlib.Tactic.Common

namespace Search

variable {α : Type*}

/-- `pat` stands in `text` from position `i` on. -/
def OccursAt (pat text : List α) (i : ℕ) : Prop := ∃ pre post, text = pre ++ pat ++ post ∧ pre.length = i

def Occurs (pat text : List α) : Prop := ∃ i, OccursAt pat text i

/-- No occurrence is before it. -/
def FirstAt (pat text : List α) (i : ℕ) : Prop := OccursAt pat text i ∧ ∀ j < i, ¬ OccursAt pat text j

/-- Look for `pat` at every position, from the first on. -/
def find [DecidableEq α] (pat : List α) : List α → Option ℕ
  | [] => if pat <+: [] then some 0 else none
  | a :: text => if pat <+: a :: text then some 0 else (find pat text).map (· + 1)

theorem occursAt_zero {pat text : List α} : OccursAt pat text 0 ↔ pat <+: text := by
  constructor
  · rintro ⟨pre, post, rfl, h⟩
    obtain rfl := List.eq_nil_of_length_eq_zero h
    exact ⟨post, rfl⟩
  · rintro ⟨post, rfl⟩
    exact ⟨[], post, rfl, rfl⟩

theorem occursAt_succ {pat text : List α} {a : α} {i : ℕ} : OccursAt pat (a :: text) (i + 1) ↔ OccursAt pat text i := by
  constructor
  · rintro ⟨pre, post, h, hlen⟩
    cases pre with
    | nil => cases hlen
    | cons b pre =>
      obtain ⟨-, rfl⟩ := List.cons.inj h
      exact ⟨pre, post, rfl, Nat.succ.inj hlen⟩
  · rintro ⟨pre, post, rfl, rfl⟩
    exact ⟨a :: pre, post, rfl, rfl⟩

theorem not_occursAt_nil {pat : List α} {i : ℕ} : ¬ OccursAt pat [] (i + 1) := by
  rintro ⟨pre, post, h, hlen⟩
  have hnil := List.append_eq_nil_iff.mp (List.append_eq_nil_iff.mp h.symm).1
  rw [hnil.1] at hlen
  cases hlen

/-- What an occurrence reads is what stands in the text. -/
theorem OccursAt.getElem {pat text : List α} {i k : ℕ} (h : OccursAt pat text i) (hk : k < pat.length) :
    text[i + k]? = pat[k]? := by
  obtain ⟨pre, post, rfl, rfl⟩ := h
  rw [List.append_assoc, List.getElem?_append_right (Nat.le_add_right _ _), Nat.add_sub_cancel_left,
    List.getElem?_append_left hk]

theorem OccursAt.le {pat text : List α} {i : ℕ} (h : OccursAt pat text i) : i + pat.length ≤ text.length := by
  obtain ⟨pre, post, rfl, rfl⟩ := h
  simp

theorem firstAt_zero {pat text : List α} (h : pat <+: text) : FirstAt pat text 0 :=
  ⟨occursAt_zero.mpr h, fun _ hj => absurd hj (Nat.not_lt_zero _)⟩

theorem firstAt_succ {pat text : List α} {a : α} {i : ℕ} (h : ¬ pat <+: a :: text) :
    FirstAt pat (a :: text) (i + 1) ↔ FirstAt pat text i := by
  constructor
  · rintro ⟨ho, hall⟩
    exact ⟨occursAt_succ.mp ho, fun j hj hp => hall (j + 1) (Nat.succ_lt_succ hj) (occursAt_succ.mpr hp)⟩
  · rintro ⟨ho, hall⟩
    refine ⟨occursAt_succ.mpr ho, fun j hj hp => ?_⟩
    cases j with
    | zero => exact h (occursAt_zero.mp hp)
    | succ j => exact hall j (Nat.lt_of_succ_lt_succ hj) (occursAt_succ.mp hp)

/-! ### Occurrences across a seam -/

/-- The pattern begins in `x` and ends in `y`. -/
def Straddles (pat x y : List α) : Prop := ∃ p q, p ≠ [] ∧ q ≠ [] ∧ pat = p ++ q ∧ p <:+ x ∧ q <+: y

section Seams

variable {pat x y z text : List α} {a b : α} {i : ℕ}

theorem occurs_iff_within : Occurs pat text ↔ pat <:+: text := by
  constructor
  · rintro ⟨i, pre, post, rfl, -⟩
    exact ⟨pre, post, rfl⟩
  · rintro ⟨pre, post, rfl⟩
    exact ⟨_, pre, post, rfl, rfl⟩

theorem Occurs.append_left (h : Occurs pat x) (y : List α) : Occurs pat (x ++ y) :=
  occurs_iff_within.mpr ((occurs_iff_within.mp h).trans (List.prefix_append x y).isInfix)

theorem Occurs.append_right (h : Occurs pat y) (x : List α) : Occurs pat (x ++ y) :=
  occurs_iff_within.mpr ((occurs_iff_within.mp h).trans (List.suffix_append x y).isInfix)

theorem occurs_self (pat y : List α) : Occurs pat (pat ++ y) := ⟨0, [], y, rfl, rfl⟩

/-- What contains the pattern contains its beginning. -/
theorem Occurs.of_append (h : Occurs (pat ++ z) text) : Occurs pat text :=
  occurs_iff_within.mpr ((List.prefix_append pat z).isInfix.trans (occurs_iff_within.mp h))

/-- An occurrence in two texts is in one of them or across the seam. -/
theorem occurs_append : Occurs pat (x ++ y) → Occurs pat x ∨ Occurs pat y ∨ Straddles pat x y := by
  rintro ⟨i, pre, post, h, -⟩
  rw [List.append_assoc] at h
  rcases List.append_eq_append_iff.mp h with ⟨as, rfl, hy⟩ | ⟨bs, rfl, hx⟩
  · exact .inr (.inl ⟨_, as, post, by rw [hy, List.append_assoc], rfl⟩)
  · rcases List.append_eq_append_iff.mp hx with ⟨cs, rfl, hpost⟩ | ⟨cs, rfl, hpost⟩
    · exact .inl ⟨_, pre, cs, by rw [List.append_assoc], rfl⟩
    · -- the pattern is `bs ++ cs`, with `bs` the end of `x` and `cs` the beginning of `y`
      cases bs with
      | nil => exact .inr (.inl ⟨0, [], post, by rw [hpost]; rfl, rfl⟩)
      | cons b bs =>
        cases cs with
        | nil => exact .inl ⟨_, pre, [], by simp, rfl⟩
        | cons c cs =>
          exact .inr (.inr ⟨b :: bs, c :: cs, List.cons_ne_nil _ _, List.cons_ne_nil _ _, rfl,
            List.suffix_append _ _, post, hpost.symm⟩)

theorem not_occurs_append (hx : ¬ Occurs pat x) (hy : ¬ Occurs pat y) (hs : ¬ Straddles pat x y) :
    ¬ Occurs pat (x ++ y) := by
  intro h
  rcases occurs_append h with h | h | h
  · exact hx h
  · exact hy h
  · exact hs h

theorem not_occurs_nil (h : pat ≠ []) : ¬ Occurs pat [] := by
  rintro ⟨i, pre, post, he, -⟩
  exact h (List.append_eq_nil_iff.mp (List.append_eq_nil_iff.mp he.symm).1).2

/-- A pattern with an element that the text has not. -/
theorem not_occurs_of_not_mem (ha : a ∈ pat) (h : a ∉ x) : ¬ Occurs pat x :=
  fun ho => h ((occurs_iff_within.mp ho).subset ha)

theorem not_straddles_of_head (h : pat.head? = some a) (hx : a ∉ x) : ¬ Straddles pat x y := by
  rintro ⟨p, q, hp, -, rfl, hsuf, -⟩
  obtain ⟨c, cs, rfl⟩ := List.exists_cons_of_ne_nil hp
  cases h
  exact hx (hsuf.subset List.mem_cons_self)

theorem not_straddles_of_last (h : x.getLast? = some a) (ha : a ∉ pat) : ¬ Straddles pat x y := by
  rintro ⟨p, q, hp, -, rfl, ⟨t, rfl⟩, -⟩
  rw [List.getLast?_append, List.getLast?_eq_some_getLast hp] at h
  cases h
  exact ha (List.mem_append_left _ (List.getLast_mem hp))

theorem not_straddles_of_first (h : y.head? = some a) (ha : a ∉ pat) : ¬ Straddles pat x y := by
  rintro ⟨p, q, -, hq, rfl, -, ⟨t, rfl⟩⟩
  obtain ⟨c, q, rfl⟩ := List.exists_cons_of_ne_nil hq
  cases h
  exact ha (List.mem_append_right _ List.mem_cons_self)

/-- The last of the occurrences. -/
theorem exists_last (hpat : pat ≠ []) (h : Occurs pat text) : ∃ x y, text = x ++ pat ++ y ∧ ¬ Occurs pat y := by
  induction hn : text.length using Nat.strong_induction_on generalizing text with
  | _ n ih =>
    obtain ⟨i, x, y, rfl, -⟩ := h
    by_cases hy : Occurs pat y
    · have hlt : y.length < n := by
        have := List.length_pos_of_ne_nil hpat
        rw [← hn, List.length_append, List.length_append]
        omega
      obtain ⟨x', y', rfl, hlast⟩ := ih _ hlt hy rfl
      exact ⟨x ++ pat ++ x', y', by simp only [List.append_assoc], hlast⟩
    · exact ⟨x, y, rfl, hy⟩

/-! ### Sharp patterns -/

/-- The pattern begins with `a` and `b`, its only `b`, and does not end with `a`. -/
def Sharp (a b : α) (pat : List α) : Prop := ∃ r, pat = a :: b :: r ∧ b ∉ r ∧ pat.getLast? ≠ some a ∧ a ≠ b

/-- Where the rest begins as a sharp pattern does, no sharp pattern is across the seam. -/
theorem Sharp.not_straddles_right (h : Sharp a b pat) (hy : [a, b] <+: y) : ¬ Straddles pat x y := by
  rintro ⟨p, q, hp, hq, rfl, -, ⟨t', ht'⟩⟩
  obtain ⟨r, hr, hb, hlast, hab⟩ := h
  obtain ⟨t, rfl⟩ := hy
  rcases q with - | ⟨d, - | ⟨e, q⟩⟩
  · exact hq rfl
  · obtain ⟨hd, -⟩ := List.cons.inj ht'
    exact hlast (by rw [hd, List.getLast?_append]; rfl)
  · simp only [List.cons_append, List.cons.injEq] at ht'
    obtain ⟨hd, he, -⟩ := ht'
    rcases p with - | ⟨c, - | ⟨f, p⟩⟩
    · exact hp rfl
    · simp only [List.cons_append, List.nil_append, List.cons.injEq] at hr
      exact hab (hd.symm.trans hr.2.1)
    · simp only [List.cons_append, List.cons.injEq] at hr
      exact hb (by rw [← hr.2.2, ← he]; simp)

/-- Where the text is a sharp pattern's beginning only if it is not that of
`pat`, `pat` is not across its end. -/
theorem Sharp.not_straddles_left (h : Sharp a b pat) (hx : Sharp a b x) (hne : ¬ x <+: pat) : ¬ Straddles pat x y := by
  rintro ⟨p, q, hp, hq, rfl, ⟨t, ht⟩, -⟩
  obtain ⟨r, hr, -, -, hab⟩ := h
  obtain ⟨r', hx', hb, hlast, -⟩ := hx
  rcases p with - | ⟨c, - | ⟨d, p⟩⟩
  · exact hp rfl
  · obtain ⟨hc, -⟩ := List.cons.inj hr
    exact hlast (by rw [← ht, hc]; simp)
  · simp only [List.cons_append, List.cons.injEq] at hr
    obtain ⟨hc, hd, -⟩ := hr
    rw [hc, hd] at ht
    rcases t with - | ⟨e, - | ⟨f, t⟩⟩
    · rw [List.nil_append] at ht
      exact hne (by rw [hc, hd, ← ht]; exact List.prefix_append _ _)
    · rw [← ht] at hx'
      exact hab (List.cons.inj (List.cons.inj hx').2).1
    · rw [← ht] at hx'
      simp only [List.cons_append, List.cons.injEq] at hx'
      exact hb (by rw [← hx'.2.2]; simp)

/-- A sharp pattern is in another only at its beginning. -/
theorem Sharp.not_occurs (h : Sharp a b pat) (hx : Sharp a b x) (hne : ¬ pat <+: x) : ¬ Occurs pat x := by
  rintro ⟨i, pre, post, he, -⟩
  obtain ⟨r, rfl, -, -, hab⟩ := h
  obtain ⟨r', hx', hb, -, -⟩ := hx
  rw [hx'] at he
  rcases pre with - | ⟨c, - | ⟨d, pre⟩⟩
  · exact hne ⟨post, by rw [hx', he]; rfl⟩
  · simp only [List.cons_append, List.nil_append, List.cons.injEq] at he
    exact hab he.2.1.symm
  · simp only [List.cons_append, List.cons.injEq] at he
    exact hb (by rw [he.2.2]; simp)

end Seams

variable [DecidableEq α]

theorem find_eq_some_iff {pat text : List α} {i : ℕ} : find pat text = some i ↔ FirstAt pat text i := by
  induction text generalizing i with
  | nil =>
    unfold find
    split_ifs with h
    · constructor
      · rintro ⟨⟩
        exact firstAt_zero h
      · rintro ⟨ho, -⟩
        cases i with
        | zero => rfl
        | succ i => exact absurd ho not_occursAt_nil
    · refine ⟨fun he => (nomatch he), ?_⟩
      rintro ⟨ho, -⟩
      cases i with
      | zero => exact absurd (occursAt_zero.mp ho) h
      | succ i => exact absurd ho not_occursAt_nil
  | cons a text ih =>
    unfold find
    split_ifs with h
    · constructor
      · rintro ⟨⟩
        exact firstAt_zero h
      · rintro ⟨-, hall⟩
        cases i with
        | zero => rfl
        | succ i => exact absurd (occursAt_zero.mpr h) (hall 0 (Nat.succ_pos i))
    · cases i with
      | zero =>
        constructor
        · intro he
          obtain ⟨j, -, hj⟩ := Option.map_eq_some_iff.mp he
          exact absurd hj (Nat.succ_ne_zero j)
        · rintro ⟨ho, -⟩
          exact absurd (occursAt_zero.mp ho) h
      | succ i =>
        rw [firstAt_succ h, ← ih]
        simp

theorem find_eq_none_iff {pat text : List α} : find pat text = none ↔ ¬ Occurs pat text := by
  constructor
  · rintro hn ⟨i, hi⟩
    -- the least position of an occurrence would have been found
    obtain ⟨j, hj⟩ : ∃ j, FirstAt pat text j := by
      classical
      exact ⟨Nat.find ⟨i, hi⟩, Nat.find_spec (⟨i, hi⟩ : ∃ i, OccursAt pat text i), fun k hk => Nat.find_min _ hk⟩
    rw [find_eq_some_iff.mpr hj] at hn
    cases hn
  · intro hn
    cases hf : find pat text with
    | none => rfl
    | some i => exact absurd ⟨i, (find_eq_some_iff.mp hf).1⟩ hn

/-- What is found is the pattern, and it is not in what comes before. -/
theorem find_split {pat text : List α} {i : ℕ} (hpat : pat ≠ []) (h : find pat text = some i) :
    ∃ x y, text = x ++ (pat ++ y) ∧ x.length = i ∧ ¬ Occurs pat x := by
  obtain ⟨⟨x, y, rfl, rfl⟩, hfirst⟩ := find_eq_some_iff.mp h
  refine ⟨x, y, List.append_assoc _ _ _, rfl, ?_⟩
  rintro ⟨j, pre, post, rfl, rfl⟩
  have := List.length_pos_of_ne_nil hpat
  refine hfirst pre.length (by simp only [List.length_append]; omega) ⟨pre, post ++ pat ++ y, ?_, rfl⟩
  simp only [List.append_assoc]

/-- The pattern is found where it is neither before nor across the seam. -/
theorem find_eq_length {pat x y : List α} (hx : ¬ Occurs pat x) (hs : ¬ Straddles pat x (pat ++ y)) :
    find pat (x ++ (pat ++ y)) = some x.length := by
  refine find_eq_some_iff.mpr ⟨⟨x, y, (List.append_assoc _ _ _).symm, rfl⟩, fun j hj => ?_⟩
  rintro ⟨pre, post, he, rfl⟩
  rw [List.append_assoc] at he
  rcases List.append_eq_append_iff.mp he with ⟨as, rfl, -⟩ | ⟨bs, rfl, hx'⟩
  · rw [List.length_append] at hj
    omega
  · rcases List.append_eq_append_iff.mp hx' with ⟨cs, rfl, -⟩ | ⟨cs, rfl, hpost⟩
    · exact hx ⟨_, pre, cs, by rw [List.append_assoc], rfl⟩
    · have hbs : bs ≠ [] := by
        rintro rfl
        simp at hj
      cases cs with
      | nil => exact hx ⟨_, pre, [], by simp, rfl⟩
      | cons c cs =>
        exact hs ⟨bs, c :: cs, hbs, List.cons_ne_nil _ _, rfl, List.suffix_append _ _, post, hpost.symm⟩

/-! ### Literals -/

/-- A property of the characters of a literal. -/
theorem of_ofList {p : List Char → Prop} {cs : List Char} (h : p cs) : p (String.ofList cs).toList := by
  rwa [String.toList_ofList]

/-- A property of the characters of two literals. -/
theorem of_ofList_append {p : List Char → Prop} {cs cs' : List Char} (h : p (cs ++ cs')) :
    p (String.ofList cs ++ String.ofList cs').toList := by
  rwa [String.toList_append, String.toList_ofList, String.toList_ofList]

end Search
