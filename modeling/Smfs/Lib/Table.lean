/-
# Tables of rows with a key

A table is a list of rows in the order a scan visits them; `key` reads the
key column of a row. `get`, `modify` and `erase` are `SELECT`, `UPDATE` and
`DELETE` with `WHERE key = k`, and `put` is `INSERT OR REPLACE` into a table
that is scanned in key order. Each update has one lemma that says what every
key holds afterwards.

Key definitions: `Table.get`, `Table.modify`, `Table.erase`, `Table.put`.
Key theorems: `Table.get_modify`, `Table.get_erase`, `Table.get_append`, `Table.get_put`.
-/
import Mathlib.Tactic.Common
import Mathlib.Data.List.Basic
import Mathlib.Order.Lattice

namespace Table

variable {ρ κ : Type*} [DecidableEq κ] (key : ρ → κ)

/-- The first row with the key. -/
def get (t : List ρ) (k : κ) : Option ρ := t.find? fun r => key r = k

/-- Change the rows with the key. -/
def modify (t : List ρ) (k : κ) (f : ρ → ρ) : List ρ := t.map fun r => if key r = k then f r else r

/-- Delete the rows with the key. -/
def erase (t : List ρ) (k : κ) : List ρ := t.filter fun r => key r ≠ k

/-- Replace the row with the key of `r`, or add `r` at the end. -/
def set (t : List ρ) (r : ρ) : List ρ :=
  if (get key t (key r)).isSome then modify key t (key r) fun _ => r else t ++ [r]

/-- Insert a row, or replace the row with its key, in a table in key order. -/
def put [LT κ] [DecidableLT κ] (r : ρ) : List ρ → List ρ
  | [] => [r]
  | x :: t =>
    if key x = key r then r :: t
    else if key x < key r then x :: put r t
    else r :: x :: t

variable {key}

theorem get_some {t : List ρ} {k : κ} {r : ρ} (h : get key t k = some r) : r ∈ t ∧ key r = k :=
  ⟨List.mem_of_find?_eq_some h, by simpa using List.find?_some h⟩

theorem get_none {t : List ρ} {k : κ} : get key t k = none ↔ ∀ r ∈ t, key r ≠ k := by
  simp [get]

theorem get_isSome_of_mem {t : List ρ} {r : ρ} (h : r ∈ t) : (get key t (key r)).isSome := by
  rw [Option.isSome_iff_ne_none]
  exact fun hn => get_none.mp hn r h rfl

/-- With distinct keys, a row of the table is the one its key finds. -/
theorem get_of_mem {t : List ρ} (hn : (t.map key).Nodup) {r : ρ} (h : r ∈ t) :
    get key t (key r) = some r := by
  induction t with
  | nil => cases h
  | cons x t ih =>
    simp only [List.map_cons, List.nodup_cons] at hn
    rcases List.mem_cons.mp h with rfl | h
    · simp [get]
    · have hx : key x ≠ key r := fun he => hn.1 (he ▸ List.mem_map_of_mem h)
      have := ih hn.2 h
      simpa [get, hx] using this

@[simp] theorem get_nil (k : κ) : get key [] k = none := rfl

theorem get_cons (x : ρ) (t : List ρ) (k : κ) :
    get key (x :: t) k = if key x = k then some x else get key t k := by
  unfold get
  by_cases h : key x = k <;> simp [h]

theorem get_append (t u : List ρ) (k : κ) :
    get key (t ++ u) k = (get key t k).or (get key u k) := by
  simp [get, List.find?_append]

theorem get_modify (t : List ρ) (k k' : κ) (f : ρ → ρ) (hf : ∀ r, key r = k → key (f r) = k) :
    get key (modify key t k f) k' = if k' = k then (get key t k).map f else get key t k' := by
  induction t with
  | nil => simp [modify]
  | cons x t ih =>
    simp only [modify, List.map_cons] at ih ⊢
    rw [get_cons, ih, get_cons, get_cons]
    by_cases hx : key x = k
    · have := hf x hx
      by_cases hk : k' = k
      · subst hk; simp [hx, this]
      · simp [hx, this, hk, Ne.symm hk]
    · by_cases hk : k' = k
      · subst hk; simp [hx]
      · simp [hx, hk]

theorem get_set (t : List ρ) (r : ρ) (k : κ) :
    get key (set key t r) k = if k = key r then some r else get key t k := by
  unfold set
  by_cases hr : (get key t (key r)).isSome = true
  · rw [if_pos hr, get_modify t (key r) k _ fun _ _ => rfl]
    obtain ⟨x, hx⟩ := Option.isSome_iff_exists.mp hr
    rw [hx]
    rfl
  · rw [if_neg hr, get_append, get_cons, get_nil]
    have hnone : get key t (key r) = none := by simpa using hr
    by_cases hk : k = key r
    · subst hk
      rw [hnone, if_pos rfl]
      simp
    · rw [if_neg (Ne.symm hk), if_neg hk, Option.or_none]

/-- Giving the rows of one key a key no row has. -/
theorem get_rekey (t : List ρ) (k k₁ k' : κ) (f : ρ → ρ) (hf : ∀ r, key r = k → key (f r) = k₁)
    (hne : k ≠ k₁) (hk₁ : get key t k₁ = none) :
    get key (modify key t k f) k' =
      if k' = k₁ then (get key t k).map f else if k' = k then none else get key t k' := by
  induction t with
  | nil => simp [modify]
  | cons x t ih =>
    rw [get_cons] at hk₁
    split_ifs at hk₁ with hx₁
    simp only [modify, List.map_cons] at ih ⊢
    rw [get_cons, ih hk₁, get_cons, get_cons]
    by_cases hx : key x = k
    · have := hf x hx
      by_cases h1 : k' = k₁
      · subst h1; simp [hx, this]
      · by_cases h2 : k' = k
        · subst h2; simp [hx, this, h1, Ne.symm h1]
        · simp [hx, this, h1, h2, Ne.symm h1, Ne.symm h2]
    · by_cases h1 : k' = k₁
      · subst h1; simp [hx, hx₁]
      · by_cases h2 : k' = k
        · subst h2; simp [hx, h1]
        · simp [hx, h1, h2]

theorem get_erase (t : List ρ) (k k' : κ) :
    get key (erase key t k) k' = if k' = k then none else get key t k' := by
  induction t with
  | nil => simp [erase]
  | cons x t ih =>
    simp only [erase, ne_eq, decide_not] at ih
    simp only [erase, ne_eq, decide_not, List.filter_cons]
    by_cases hx : key x = k
    · simp only [hx, decide_true, Bool.not_true, Bool.false_eq_true, if_false, ih, get_cons]
      by_cases hk : k' = k
      · simp [hk]
      · simp [hk, Ne.symm hk]
    · simp only [hx, decide_false, Bool.not_false, if_true, get_cons, ih]
      by_cases hk : k' = k
      · subst hk; simp [hx]
      · simp [hk]

/-- A search that the removed rows do not answer. -/
theorem find?_erase {t : List ρ} {k : κ} {p : ρ → Bool} (h : ∀ r ∈ t, key r = k → p r = false) :
    (erase key t k).find? p = t.find? p := by
  unfold erase
  induction t with
  | nil => rfl
  | cons x t ih =>
    have ih := ih fun r hr => h r (List.mem_cons_of_mem x hr)
    rw [List.filter_cons, List.find?_cons]
    by_cases hx : key x = k
    · rw [if_neg (by simp [hx]), ih, h x List.mem_cons_self hx]
    · rw [if_pos (by simp [hx]), List.find?_cons, ih]

/-- A search that the changed rows do not answer. -/
theorem find?_modify {t : List ρ} {k : κ} {f : ρ → ρ} {p : ρ → Bool} (hf : ∀ r, p (f r) = p r)
    (h : ∀ r ∈ t, key r = k → p r = false) : (modify key t k f).find? p = t.find? p := by
  unfold modify
  induction t with
  | nil => rfl
  | cons x t ih =>
    have ih := ih fun r hr => h r (List.mem_cons_of_mem x hr)
    rw [List.map_cons, List.find?_cons, List.find?_cons, ih]
    by_cases hx : key x = k
    · rw [if_pos hx, hf, h x List.mem_cons_self hx]
    · rw [if_neg hx]

theorem mem_modify {t : List ρ} {k : κ} {f : ρ → ρ} {r : ρ} :
    r ∈ modify key t k f ↔ ∃ x ∈ t, r = if key x = k then f x else x := by
  simp [modify, eq_comm]

theorem mem_erase {t : List ρ} {k : κ} {r : ρ} : r ∈ erase key t k ↔ r ∈ t ∧ key r ≠ k := by
  simp [erase]

/-- A row with a key of its own goes, and the count with it. -/
theorem countP_erase {t : List ρ} (hn : (t.map key).Nodup) {k : κ} {r : ρ} (h : get key t k = some r) (p : ρ → Bool) :
    t.countP p = (erase key t k).countP p + if p r then 1 else 0 := by
  induction t with
  | nil => cases h
  | cons x t ih =>
    simp only [List.map_cons, List.nodup_cons] at hn
    rw [get_cons] at h
    unfold erase at ih ⊢
    by_cases hx : key x = k
    · rw [if_pos hx] at h
      obtain rfl := Option.some.inj h
      have hrest : t.filter (fun r => key r ≠ k) = t := by
        refine List.filter_eq_self.mpr fun y hy => ?_
        have hne : key y ≠ k := fun he => hn.1 (hx ▸ he ▸ List.mem_map_of_mem hy)
        simpa using hne
      rw [List.filter_cons_of_neg (by simpa using hx), hrest, List.countP_cons]
    · rw [if_neg hx] at h
      rw [List.filter_cons_of_pos (by simpa using hx), List.countP_cons, List.countP_cons, ih hn.2 h]
      omega

/-- A row with a key of its own changes, and the count with it. -/
theorem countP_change {t : List ρ} (hn : (t.map key).Nodup) {k : κ} {r : ρ} (h : get key t k = some r) (f : ρ → ρ)
    (p : ρ → Bool) :
    (modify key t k f).countP p + (if p r then 1 else 0) = t.countP p + if p (f r) then 1 else 0 := by
  induction t with
  | nil => cases h
  | cons x t ih =>
    simp only [List.map_cons, List.nodup_cons] at hn
    rw [get_cons] at h
    unfold modify at ih ⊢
    rw [List.map_cons, List.countP_cons, List.countP_cons]
    by_cases hx : key x = k
    · rw [if_pos hx] at h
      obtain rfl := Option.some.inj h
      have hrest : t.map (fun r => if key r = k then f r else r) = t := by
        refine (List.map_congr_left fun y hy => ?_).trans (List.map_id t)
        have hne : key y ≠ k := fun he => hn.1 (hx ▸ he ▸ List.mem_map_of_mem hy)
        rw [if_neg hne, id_eq]
      rw [if_pos hx, hrest]
      omega
    · rw [if_neg hx] at h
      have hcount := ih hn.2 h
      rw [if_neg hx]
      omega

/-- What no longer counts counts no more than what is gone. -/
theorem countP_modify {t : List ρ} {k : κ} {f : ρ → ρ} {p : ρ → Bool} (hf : ∀ r, p (f r) = false) :
    (modify key t k f).countP p = (erase key t k).countP p := by
  unfold modify erase
  rw [List.countP_map, List.countP_filter]
  refine List.countP_congr fun r _ => ?_
  by_cases hr : key r = k <;> simp [hr, hf]

theorem map_modify {β : Type*} (t : List ρ) (k : κ) (f : ρ → ρ) (g : ρ → β)
    (h : ∀ r, key r = k → g (f r) = g r) : (modify key t k f).map g = t.map g := by
  rw [modify, List.map_map]
  refine List.map_congr_left fun r _ => ?_
  by_cases hr : key r = k <;> simp [hr, h]

theorem set_nodup {t : List ρ} {r : ρ} (h : (t.map key).Nodup) : ((set key t r).map key).Nodup := by
  unfold set
  split_ifs with hr
  · rw [map_modify t (key r) _ key fun _ hx => hx.symm]
    exact h
  · rw [List.map_append, List.nodup_append]
    refine ⟨h, List.pairwise_singleton _ _, fun k hk k' hk' => ?_⟩
    obtain ⟨x, hx, rfl⟩ := List.mem_map.mp hk
    obtain rfl := List.mem_singleton.mp hk'
    have hnone : get key t (key r) = none := by simpa using hr
    exact get_none.mp hnone x hx

theorem erase_sublist (t : List ρ) (k : κ) : (erase key t k).Sublist t := List.filter_sublist

/-- A selection that takes none of the changed rows, before or after. -/
theorem filter_modify {t : List ρ} {k : κ} {f : ρ → ρ} {p : ρ → Bool}
    (h : ∀ r ∈ t, key r = k → p r = false ∧ p (f r) = false) : (modify key t k f).filter p = t.filter p := by
  unfold modify
  induction t with
  | nil => rfl
  | cons x t ih =>
    have ih := ih fun r hr => h r (List.mem_cons_of_mem x hr)
    rw [List.map_cons, List.filter_cons, List.filter_cons, ih]
    by_cases hx : key x = k
    · obtain ⟨hbefore, hafter⟩ := h x List.mem_cons_self hx
      simp [hx, hbefore, hafter]
    · rw [if_neg hx]

/-- A selection that takes none of the deleted rows. -/
theorem filter_erase {t : List ρ} {k : κ} {p : ρ → Bool} (h : ∀ r ∈ t, key r = k → p r = false) :
    (erase key t k).filter p = t.filter p := by
  unfold erase
  rw [List.filter_filter]
  apply List.filter_congr
  intro r hr
  by_cases hk : key r = k
  · simp [h r hr hk]
  · simp [hk]

theorem erase_modify {t : List ρ} {k k' : κ} {f : ρ → ρ} (hf : ∀ r, key (f r) = key r) :
    erase key (modify key t k f) k' = modify key (erase key t k') k f := by
  unfold erase modify
  rw [List.filter_map]
  congr 1
  refine List.filter_congr fun r _ => ?_
  show decide (key (if key r = k then f r else r) ≠ k') = _
  split_ifs
  · rw [hf]
  · rfl

theorem erase_modify_self {t : List ρ} {k : κ} {f : ρ → ρ} (hf : ∀ r, key (f r) = key r) :
    erase key (modify key t k f) k = erase key t k := by
  rw [erase_modify hf, modify, List.map_congr_left (g := id), List.map_id]
  intro r hr
  rw [if_neg (mem_erase.mp hr).2]
  rfl

theorem erase_erase_erase (t : List ρ) (k k' : κ) :
    erase key (erase key (erase key t k) k') k = erase key (erase key t k') k := by
  unfold erase
  rw [List.filter_filter, List.filter_filter, List.filter_filter]
  refine List.filter_congr fun r _ => ?_
  by_cases h : key r = k <;> simp [h]

theorem erase_erase_self (t : List ρ) (k : κ) : erase key (erase key t k) k = erase key t k := by
  unfold erase
  rw [List.filter_filter]
  exact List.filter_congr fun r _ => Bool.and_self _

omit [DecidableEq κ] in
/-- With distinct keys, deleting the `i`-th row leaves rows with other keys. -/
theorem mem_eraseIdx {t : List ρ} (hn : (t.map key).Nodup) {i : ℕ} {x y : ρ} (hx : t[i]? = some x)
    (hy : y ∈ t.eraseIdx i) : y ∈ t ∧ key y ≠ key x := by
  refine ⟨List.mem_of_mem_eraseIdx hy, fun he => ?_⟩
  obtain ⟨k, hk, hyk⟩ := List.mem_eraseIdx_iff_getElem?.mp hy
  refine hk ((List.getElem?_inj ?_ hn).mp ?_)
  · have := (List.getElem?_eq_some_iff.mp hyk).1
    simpa using this
  · simp [hyk, hx, he]

theorem get_put [LT κ] [DecidableLT κ] (r : ρ) (t : List ρ) (k : κ) :
    get key (put key r t) k = if k = key r then some r else get key t k := by
  induction t with
  | nil => simp [put, get_cons, eq_comm]
  | cons x t ih =>
    unfold put
    by_cases hx : key x = key r
    · simp only [hx, if_true, get_cons]
      by_cases hk : k = key r
      · simp [hk]
      · simp [hk, Ne.symm hk]
    · rw [if_neg hx]
      by_cases hk : k = key r
      · subst hk
        by_cases hlt : key x < key r
        · simp [hlt, get_cons, hx, ih]
        · simp [hlt, get_cons]
      · by_cases hlt : key x < key r
        · simp [hlt, get_cons, ih, hk]
        · simp [hlt, get_cons, hk, Ne.symm hk]

theorem mem_put [LT κ] [DecidableLT κ] {r x : ρ} {t : List ρ} (h : x ∈ put key r t) :
    x = r ∨ x ∈ t := by
  induction t with
  | nil => simpa [put] using h
  | cons y t ih =>
    unfold put at h
    split_ifs at h with h1 h2
    · rcases List.mem_cons.mp h with h | h
      · exact Or.inl h
      · exact Or.inr (List.mem_cons_of_mem _ h)
    · rcases List.mem_cons.mp h with rfl | h
      · exact Or.inr List.mem_cons_self
      · exact (ih h).imp_right (List.mem_cons_of_mem _)
    · exact List.mem_cons.mp h

theorem put_sorted [LinearOrder κ] {r : ρ} {t : List ρ} (h : t.Pairwise fun x y => key x < key y) :
    (put key r t).Pairwise fun x y => key x < key y := by
  induction t with
  | nil => simp [put]
  | cons x t ih =>
    obtain ⟨hx, ht⟩ := List.pairwise_cons.mp h
    unfold put
    split_ifs with he hlt
    · exact List.pairwise_cons.mpr ⟨fun y hy => he ▸ hx y hy, ht⟩
    · refine List.pairwise_cons.mpr ⟨fun y hy => ?_, ih ht⟩
      rcases mem_put hy with rfl | hy
      · exact hlt
      · exact hx y hy
    · have hrx : key r < key x := lt_of_le_of_ne (not_lt.mp hlt) (Ne.symm he)
      refine List.pairwise_cons.mpr ⟨fun y hy => ?_, h⟩
      rcases List.mem_cons.mp hy with rfl | hy
      · exact hrx
      · exact hrx.trans (hx y hy)

theorem modify_sorted [LinearOrder κ] {t : List ρ} {k : κ} {f : ρ → ρ} (hf : ∀ r, key (f r) = key r)
    (h : t.Pairwise fun x y => key x < key y) : (modify key t k f).Pairwise fun x y => key x < key y := by
  refine List.pairwise_map.mpr (h.imp fun {x y} hxy => ?_)
  split_ifs <;> simpa [hf] using hxy

omit [DecidableEq κ] in
theorem nodup_of_sorted [LinearOrder κ] {t : List ρ} (h : t.Pairwise fun x y => key x < key y) :
    (t.map key).Nodup :=
  List.pairwise_map.mpr (h.imp fun hxy => hxy.ne)

end Table
