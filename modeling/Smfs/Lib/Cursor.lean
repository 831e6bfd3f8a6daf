/-
# Reading a list by a cursor while entries go

A reader asks for one part of a list after another and says how far it is: by
the key of the entry it was handed last (`after`), or by an offset. Between two
requests entries may go from the list, and new ones come behind it
(`Shrinks`). As long as the entries handed over stand before the others
(`Reading`), the cursor is right where it points behind the last of them
(`InPlace` for a key, `Counts` for an offset), and then a request continues
where the one before it ended.

Key definitions: `Cursor.after`, `Cursor.ahead`, `Cursor.behind`, `Cursor.Reading`, `Cursor.InPlace`, `Cursor.Counts`.
Key theorems: `Cursor.after_append`, `Cursor.Reading.shrinks`, `Cursor.Reading.hand`, `Cursor.Reading.after_iff`, `Cursor.Reading.drop_iff`.
-/
import Mathlib.Tactic.Common
import Mathlib.Data.List.Basic
import Mathlib.Data.List.Nodup
import Mathlib.Data.List.Perm.Subperm

namespace Cursor

variable {α β κ : Type*}

/-! ### What follows a key -/

section After

variable [DecidableEq κ] {key : α → κ} {k : κ} {x : α} {xs ys : List α}

/-- What follows the first entry with the key. -/
def after (key : α → κ) (k : κ) : List α → List α
  | [] => []
  | x :: xs => if key x = k then xs else after key k xs

theorem after_suffix : after key k xs <:+ xs := by
  induction xs with
  | nil => exact List.suffix_refl _
  | cons x xs ih =>
    unfold after
    split_ifs
    · exact List.suffix_cons x xs
    · exact ih.trans (List.suffix_cons x xs)

theorem after_map {key' : β → κ} {f : α → β} (h : ∀ x, key' (f x) = key x) :
    after key' k (xs.map f) = (after key k xs).map f := by
  induction xs with
  | nil => rfl
  | cons x xs ih =>
    simp only [List.map_cons, after, h, ih]
    split_ifs <;> rfl

/-- The cursor is right where no entry before has the key; otherwise it falls back. -/
theorem after_append (before : List α) (x : α) (rest : List α) :
    (∀ y ∈ before, key y ≠ key x) ∧ after key (key x) (before ++ x :: rest) = rest ∨
      (∃ y ∈ before, key y = key x) ∧ rest.length < (after key (key x) (before ++ x :: rest)).length := by
  induction before with
  | nil => exact .inl ⟨fun _ hy => (nomatch hy), if_pos rfl⟩
  | cons y before ih =>
    rw [List.cons_append, after]
    by_cases hy : key y = key x
    · rw [if_pos hy]
      refine .inr ⟨⟨y, List.mem_cons_self, hy⟩, ?_⟩
      rw [List.length_append, List.length_cons]
      omega
    · rw [if_neg hy]
      rcases ih with ⟨hne, he⟩ | ⟨⟨z, hz, hk⟩, hlt⟩
      · exact .inl ⟨List.forall_mem_cons.mpr ⟨hy, hne⟩, he⟩
      · exact .inr ⟨⟨z, List.mem_cons_of_mem y hz, hk⟩, hlt⟩

theorem after_of_find (h : xs.find? (fun x => key x = k) = some x) :
    ∃ before, xs = before ++ x :: after key k xs ∧ key x = k := by
  induction xs with
  | nil => cases h
  | cons y xs ih =>
    rw [List.find?_cons] at h
    unfold after
    by_cases hy : key y = k
    · simp only [hy, decide_true, Option.some.injEq] at h
      subst h
      exact ⟨[], by simp [hy], hy⟩
    · simp only [hy, decide_false] at h
      obtain ⟨before, hxs, hx⟩ := ih h
      refine ⟨y :: before, ?_, hx⟩
      rw [if_neg hy, List.cons_append, ← hxs]

theorem after_of_find_none (h : xs.find? (fun x => key x = k) = none) : after key k xs = [] := by
  induction xs with
  | nil => rfl
  | cons y xs ih =>
    rw [List.find?_eq_none] at h
    unfold after
    rw [if_neg (by simpa using h y List.mem_cons_self)]
    exact ih (List.find?_eq_none.mpr fun z hz => h z (List.mem_cons_of_mem y hz))

end After

/-! ### What has been handed over -/

/-- A list without repetitions is cut at an entry in one way. -/
theorem cut_unique {x : α} {as bs as' bs' : List α} (hd : (as ++ x :: bs).Nodup) (h : as ++ x :: bs = as' ++ x :: bs') :
    as = as' ∧ bs = bs' := by
  obtain ⟨-, hcons, hne⟩ := List.nodup_append.mp hd
  have hx : x ∉ as := fun hm => hne x hm x List.mem_cons_self rfl
  obtain ⟨ha, -, hb⟩ := (List.append_cons_inj_of_notMem hx (List.nodup_cons.mp hcons).1).mp h
  exact ⟨ha, hb⟩

/-- Of two ends of a list without repetitions, equal pages make equal ends. -/
theorem take_eq_iff {us vs : List α} {n : ℕ} (hn : 1 ≤ n) (hd : xs.Nodup) (hu : us <:+ xs) (hv : vs <:+ xs) :
    us.take n = vs.take n ↔ us = vs := by
  refine ⟨fun he => ?_, fun he => by rw [he]⟩
  obtain ⟨before, hbefore⟩ := hu
  obtain ⟨before', hbefore'⟩ := hv
  obtain ⟨m, rfl⟩ : ∃ m, n = m + 1 := ⟨n - 1, by omega⟩
  cases us with
  | nil =>
    cases vs with
    | nil => rfl
    | cons v vs => simp at he
  | cons u us =>
    cases vs with
    | nil => simp at he
    | cons v vs =>
      rw [List.take_succ_cons, List.take_succ_cons, List.cons.injEq] at he
      obtain ⟨rfl, -⟩ := he
      rw [← hbefore'] at hbefore hd
      rw [(cut_unique hd hbefore.symm).2]

section Reading

variable [DecidableEq α] {out xs ys : List α}

/-- The entries that have not been handed over. -/
def ahead (out xs : List α) : List α := xs.filter fun x => x ∉ out

/-- The entries that have been handed over and still stand. -/
def behind (out xs : List α) : List α := xs.filter fun x => x ∈ out

/-- What has been handed over stands before the rest, in the order in which it was, and once. -/
structure Reading (out xs : List α) : Prop where
  split : xs = behind out xs ++ ahead out xs
  sublist : (behind out xs).Sublist out
  once : out.Nodup
  distinct : xs.Nodup

/-- Entries go, and those that come are new ones behind the rest. -/
def Shrinks (out xs ys : List α) : Prop := ∃ kept new, kept.Sublist xs ∧ ys = kept ++ new ∧ ∀ x ∈ new, x ∉ out

theorem mem_ahead {x : α} : x ∈ ahead out xs ↔ x ∈ xs ∧ x ∉ out := by simp [ahead]

theorem mem_behind {x : α} : x ∈ behind out xs ↔ x ∈ xs ∧ x ∈ out := by simp [behind]

/-- How a list divides, once it is known to. -/
theorem parts {S U : List α} (hxs : xs = S ++ U) (hS : ∀ x ∈ S, x ∈ out) (hU : ∀ x ∈ U, x ∉ out) :
    behind out xs = S ∧ ahead out xs = U := by
  subst hxs
  unfold behind ahead
  rw [List.filter_append, List.filter_append]
  refine ⟨?_, ?_⟩
  · rw [List.filter_eq_self.mpr (by simpa using hS), List.filter_eq_nil_iff.mpr (by simpa using hU), List.append_nil]
  · rw [List.filter_eq_nil_iff.mpr (by simpa using hS), List.filter_eq_self.mpr (by simpa using hU), List.nil_append]

theorem Reading.of_split {S U : List α} (hxs : xs = S ++ U) (hS : S.Sublist out) (hU : ∀ x ∈ U, x ∉ out)
    (ho : out.Nodup)
    (hd : xs.Nodup) : Reading out xs := by
  obtain ⟨hb, ha⟩ := parts hxs (fun x hx => hS.subset hx) hU
  exact ⟨by rw [hb, ha]; exact hxs, by rw [hb]; exact hS, ho, hd⟩

theorem Reading.start (hd : xs.Nodup) : Reading [] xs :=
  .of_split (List.nil_append xs).symm (List.Sublist.refl []) (fun _ _ => List.not_mem_nil) List.nodup_nil hd

theorem Reading.shrinks (h : Reading out xs) (hs : Shrinks out xs ys) (hd : ys.Nodup) : Reading out ys := by
  obtain ⟨kept, new, hkept, rfl, hnew⟩ := hs
  rw [h.split] at hkept
  obtain ⟨S, U, rfl, hS, hU⟩ := List.sublist_append_iff.mp hkept
  refine .of_split (List.append_assoc S U new) (hS.trans h.sublist) (fun x hx => ?_) h.once hd
  rcases List.mem_append.mp hx with hx | hx
  · exact (mem_ahead.mp (hU.subset hx)).2
  · exact hnew x hx

/-- The next entries are handed over. -/
theorem Reading.hand (h : Reading out xs) (n : ℕ) : Reading (out ++ (ahead out xs).take n) xs ∧
    ahead (out ++ (ahead out xs).take n) xs = (ahead out xs).drop n := by
  have hnodup : (ahead out xs).Nodup := h.distinct.filter _
  have hsplit : xs = (behind out xs ++ (ahead out xs).take n) ++ (ahead out xs).drop n := by
    rw [List.append_assoc, List.take_append_drop]
    exact h.split
  have hrest : ∀ x ∈ (ahead out xs).drop n, x ∉ out ++ (ahead out xs).take n := by
    intro x hx hmem
    rcases List.mem_append.mp hmem with hmem | hmem
    · exact (mem_ahead.mp (List.mem_of_mem_drop hx)).2 hmem
    · exact List.disjoint_take_drop hnodup (Nat.le_refl n) hmem hx
  have hS : (behind out xs ++ (ahead out xs).take n).Sublist (out ++ (ahead out xs).take n) :=
    h.sublist.append (List.Sublist.refl _)
  refine ⟨.of_split hsplit hS hrest (List.Nodup.append h.once (hnodup.sublist (List.take_sublist _ _)) ?_) h.distinct, ?_⟩
  · intro x hx hmem
    exact (mem_ahead.mp (List.mem_of_mem_take hmem)).2 hx
  · exact (parts hsplit (fun x hx => hS.subset hx) hrest).2

/-- The cursor points behind the last entry that was handed over and still
stands; where it points to nothing, nothing is left. -/
def InPlace [DecidableEq κ] (key : α → κ) (k : κ) (out xs : List α) : Prop :=
  match xs.find? fun x => key x = k with
  | some x => (behind out xs).getLast? = some x
  | none => ahead out xs = []

/-- All entries that were handed over still stand, or nothing is left. -/
def Counts (out xs : List α) : Prop := (∀ x ∈ out, x ∈ xs) ∨ ahead out xs = []

instance [DecidableEq κ] {key : α → κ} {k : κ} : Decidable (InPlace key k out xs) := by
  unfold InPlace
  split <;> infer_instance

instance : Decidable (Counts out xs) := inferInstanceAs (Decidable (_ ∨ _))

theorem Reading.after_iff [DecidableEq κ] {key : α → κ} {k : κ} (h : Reading out xs) :
    after key k xs = ahead out xs ↔ InPlace key k out xs := by
  unfold InPlace
  split
  · rename_i x hx
    obtain ⟨before, hxs, -⟩ := after_of_find hx
    constructor
    · intro he
      have hb : behind out xs = before ++ [x] := by
        have hcut : before ++ [x] ++ ahead out xs = behind out xs ++ ahead out xs := by
          rw [← h.split, List.append_assoc, List.singleton_append, ← he]
          exact hxs.symm
        exact (List.append_cancel_right hcut).symm
      rw [hb, List.getLast?_concat]
    · intro hlast
      obtain ⟨S, hS⟩ := List.getLast?_eq_some_iff.mp hlast
      have hcut : before ++ x :: after key k xs = S ++ x :: ahead out xs := by
        rw [← hxs]
        conv_lhs => rw [h.split, hS, List.append_assoc, List.singleton_append]
      have hd : (before ++ x :: after key k xs).Nodup := hxs ▸ h.distinct
      exact (cut_unique hd hcut).2
  · rename_i hnone
    rw [after_of_find_none hnone]
    exact eq_comm

theorem Reading.length_behind (h : Reading out xs) : (behind out xs).length = out.length ↔ ∀ x ∈ out, x ∈ xs := by
  constructor
  · intro he x hx
    rw [← h.sublist.eq_of_length he] at hx
    exact (mem_behind.mp hx).1
  · intro hall
    refine Nat.le_antisymm h.sublist.length_le ?_
    have hsub : out ⊆ behind out xs := fun x hx => mem_behind.mpr ⟨hall x hx, hx⟩
    exact (List.subperm_of_subset h.once hsub).length_le

theorem Reading.drop_iff (h : Reading out xs) : xs.drop out.length = ahead out xs ↔ Counts out xs := by
  unfold Counts
  rw [← h.length_behind]
  have hle := h.sublist.length_le
  have hlen : xs.length = (behind out xs).length + (ahead out xs).length := by
    conv_lhs => rw [h.split, List.length_append]
  constructor
  · intro he
    have hdrop := congrArg List.length he
    rw [List.length_drop] at hdrop
    rcases Nat.eq_zero_or_pos (ahead out xs).length with hzero | hpos
    · exact .inr (List.length_eq_zero_iff.mp hzero)
    · exact .inl (by omega)
  · rintro (he | hnil)
    · conv_lhs => rw [h.split, ← he, List.drop_left]
    · rw [hnil, List.drop_eq_nil_iff]
      rw [hnil, List.length_nil] at hlen
      omega

end Reading

end Cursor
