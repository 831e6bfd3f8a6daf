/-
# The image of a path under another directory

A tree operation puts what lies under one directory under another: a path keeps
what follows the prefix of its directory. Where the images are paths that may
be written, two of them lie one below the other exactly if their paths do, and
a path that is neither at, above nor below the target is so of each image.

Key definitions: `Rooted`.
Key theorems: `image_inj`, `image_below`, `apart_image`, `Rooted.mem_ancestors`.
-/
import Smfs.Bash.PyVolume
import Smfs.Bash.Shape

namespace Smfs.Bash

open Shape

variable {src dest p q : String} {x : List Char}

/-! ### Prefixes -/

theorem toList_withSlash (p : String) : (withSlash p).toList =
    if endsWithSlash p then p.toList else p.toList ++ ['/'] := by
  unfold withSlash
  split_ifs
  · rfl
  · rw [String.toList_append]
    rfl

theorem below_iff_starts : Below q p ↔ (withSlash p).toList <+: q.toList := by
  unfold Below startsWith
  exact List.isPrefixOf_iff_prefix

/-- What follows the prefix stays. -/
theorem image_rest (h : Below p src) :
    ∃ x, p.toList = (withSlash src).toList ++ x ∧ (image src dest p).toList = (withSlash dest).toList ++ x := by
  obtain ⟨x, hx⟩ := below_iff_starts.mp h
  refine ⟨x, hx.symm, ?_⟩
  unfold image sliceAfter
  rw [String.toList_append, String.toList_ofList, ← hx, List.drop_left]

theorem below_image (p : String) : Below (image src dest p) dest := by
  rw [below_iff_starts]
  unfold image
  rw [String.toList_append]
  exact List.prefix_append _ _

theorem image_inj (hp : Below p src) (hq : Below q src) (h : image src dest p = image src dest q) : p = q := by
  obtain ⟨x, hx, hx'⟩ : ∃ x, p.toList = _ ++ x ∧ (image src dest p).toList = _ ++ x := image_rest hp
  obtain ⟨y, hy, hy'⟩ : ∃ y, q.toList = _ ++ y ∧ (image src dest q).toList = _ ++ y := image_rest hq
  rw [h, hy'] at hx'
  rw [List.append_cancel_left hx'] at hy
  exact String.toList_inj.mp (hx.trans hy.symm)

/-- A list that a slash does not end, with another before it. -/
theorem endsWithSlash_append {xs : List Char} (h : (xs ++ x).getLast? ≠ some '/') (hxs : xs.getLast? = some '/') :
    x ≠ [] ∧ x.getLast? ≠ some '/' := by
  have hne : x ≠ [] := by
    rintro rfl
    rw [List.append_nil] at h
    exact h hxs
  rw [List.getLast?_append_of_ne_nil _ hne] at h
  exact ⟨hne, h⟩

theorem getLast_withSlash (p : String) : (withSlash p).toList.getLast? = some '/' :=
  of_decide_eq_true (endsWithSlash_withSlash p)

/-- Images that do not end in a slash lie one below the other as their paths do. -/
theorem image_below (hp : Below p src) (hq : Below q src) (h : endsWithSlash (image src dest p) = false) :
    Below (image src dest q) (image src dest p) ↔ Below q p := by
  obtain ⟨x, hx, hx'⟩ : ∃ x, p.toList = _ ++ x ∧ (image src dest p).toList = _ ++ x := image_rest hp
  obtain ⟨y, hy, hy'⟩ : ∃ y, q.toList = _ ++ y ∧ (image src dest q).toList = _ ++ y := image_rest hq
  have hlast : ((withSlash dest).toList ++ x).getLast? ≠ some '/' := hx' ▸ of_decide_eq_false h
  obtain ⟨hne, hslash⟩ := endsWithSlash_append hlast (getLast_withSlash dest)
  have hp' : endsWithSlash p = false := by
    refine decide_eq_false ?_
    rw [hx, List.getLast?_append_of_ne_nil _ hne]
    exact hslash
  rw [below_iff_starts, below_iff_starts, toList_withSlash, toList_withSlash, h, hp', if_neg Bool.false_ne_true,
    if_neg Bool.false_ne_true, hx, hx', hy, hy', List.append_assoc, List.append_assoc, List.prefix_append_right_inj,
    List.prefix_append_right_inj]

/-- Of two prefixes with their slashes, one of which goes on from the other:
the paths are one, or one lies below the other. -/
theorem slashed_starts (h : (withSlash p).toList <+: (withSlash q).toList) : p = q ∨ Below q p ∨ Below p q := by
  have hself : endsWithSlash p = true → Below p p := fun hs => by
    rw [below_iff_starts, toList_withSlash, if_pos hs]
  by_cases hq : endsWithSlash q = true
  · rw [toList_withSlash q, if_pos hq] at h
    exact .inr (.inl (below_iff_starts.mpr h))
  · have hslash := h
    rw [toList_withSlash q, if_neg hq, List.prefix_concat_iff] at h
    rcases h with he | h
    · by_cases hp : endsWithSlash p = true
      · -- `p` is `q` with the slash
        rw [toList_withSlash, if_pos hp] at he
        refine .inr (.inr (below_iff_starts.mpr ?_))
        rw [toList_withSlash, if_neg hq, he]
      · rw [toList_withSlash, if_neg hp] at he
        exact .inl (String.toList_inj.mp (List.append_cancel_right he))
    · exact .inr (.inl (below_iff_starts.mpr h))

/-- A path that is not at, above or below the target is not so of an image. -/
theorem apart_image (hq : q ≠ dest) (habove : ¬ Below dest q) (hbelow : ¬ Below q dest) (p : String) :
    q ≠ image src dest p ∧ ¬ Below q (image src dest p) ∧ ¬ Below (image src dest p) q := by
  have himage : (withSlash dest).toList <+: (image src dest p).toList := below_iff_starts.mp (below_image p)
  refine ⟨?_, fun h => ?_, fun h => ?_⟩
  · rintro rfl
    exact hbelow (below_image p)
  · refine hbelow (below_iff_starts.mpr (himage.trans (List.IsPrefix.trans ?_ (below_iff_starts.mp h))))
    rw [toList_withSlash]
    split_ifs
    · exact List.prefix_refl _
    · exact List.prefix_append _ _
  · rcases List.prefix_or_prefix_of_prefix (below_iff_starts.mp h) himage with h | h
    · rcases slashed_starts h with he | h | h
      · exact hq he
      · exact habove h
      · exact hbelow h
    · rcases slashed_starts h with he | h | h
      · exact hq he.symm
      · exact hbelow h
      · exact habove h

/-! ### Paths that may be written -/

/-- A path with a name, and no empty ones. -/
structure Rooted (p : String) : Prop where
  absolute : startsWith p "/" = true
  slashes : hasDoubleSlash p = false
  named : endsWithSlash p = false

theorem Rooted.not_below_self (h : Rooted p) : ¬ Below p p := by
  intro hb
  have hlen := (below_iff_starts.mp hb).length_le
  rw [toList_withSlash, h.named, if_neg Bool.false_ne_true, List.length_append, List.length_singleton] at hlen
  omega

/-- A dialect that lets no other paths be written. -/
def Dialect.Strict (D : Dialect) : Prop := ∀ p, D.checkFilepath p = none → Rooted p

theorem basename_of_slash (h : endsWithSlash p = true) : basename p = some "" := by
  obtain ⟨cs, hcs⟩ := List.getLast?_eq_some_iff.mp (of_decide_eq_true h : p.toList.getLast? = some '/')
  have hlast : p.toList.splitOn '/' = cs.splitOn '/' ++ [[]] := by
    rw [hcs, List.splitOn_append_cons_self, List.splitOn_nil]
  unfold basename
  rw [hlast, List.drop_append_of_le_length (List.length_pos_iff.mpr (List.splitOn_ne_nil _ _)), List.getLast?_append]
  rfl

theorem strict_typescript : typescript.Strict := by
  intro p h
  change checkFilepath p = none at h
  refine ⟨?_, ?_, endsWithSlash_of_check h⟩
  · unfold checkFilepath at h
    split_ifs at h with h1 h2 h3 h4 h5
    simpa using h3
  · unfold checkFilepath at h
    split_ifs at h with h1 h2 h3 h4 h5
    simpa using h5

theorem strict_python : python.Strict := by
  intro p h
  change Py.checkFilepath p = none at h
  have hslash : endsWithSlash p = false := by
    by_contra hslash
    unfold Py.checkFilepath at h
    rw [basename_of_slash (Bool.not_eq_false _ |>.mp hslash)] at h
    split_ifs at h
    cases h
  unfold Py.checkFilepath at h
  split_ifs at h with h1 h2 h3 h4 h5
  exact ⟨by simpa using h3, by simpa using h5, hslash⟩

/-- The last part is empty only after a slash. -/
theorem getLast_splitOn {cs : List Char} (h : (cs.splitOn '/').getLast? = some []) :
    ('/' :: cs).getLast? = some '/' := by
  induction cs with
  | nil => rfl
  | cons c cs ih =>
    rw [List.splitOn_cons_eq_if_modifyHead] at h
    obtain ⟨y, ys, hs⟩ := List.exists_cons_of_ne_nil (List.splitOn_ne_nil '/' cs)
    split_ifs at h with hc
    · rw [hs, List.getLast?_cons_cons, ← hs] at h
      obtain rfl := eq_of_beq hc
      rw [List.getLast?_cons_cons]
      exact ih h
    · rw [hs] at h ih
      cases ys with
      | nil => simp at h
      | cons z zs =>
        rw [List.modifyHead_cons, List.getLast?_cons_cons] at h
        have hlast := ih (by rw [List.getLast?_cons_cons]; exact h)
        cases cs with
        | nil => simp at hs
        | cons d ds =>
          rw [List.getLast?_cons_cons] at hlast
          rw [List.getLast?_cons_cons, List.getLast?_cons_cons]
          exact hlast

/-- **A rooted path is its names.** -/
theorem Rooted.pathOf (h : Rooted p) : ∃ names, (∀ n ∈ names, Plain n) ∧ names ≠ [] ∧ p = pathOf names := by
  obtain ⟨cs, hcs⟩ := startsWith_iff.mp h.absolute
  change p.toList = '/' :: cs at hcs
  have hsplit : p.toList.splitOn '/' = [] :: cs.splitOn '/' := by
    rw [hcs, List.splitOn_cons_eq_if_modifyHead, if_pos (beq_self_eq_true _)]
  have hparts : ∀ l ∈ cs.splitOn '/', l ≠ [] := by
    have hinit := components_ne_nil h.slashes
    rw [hsplit, List.drop_one, List.tail_cons] at hinit
    rintro l hl rfl
    rcases List.eq_nil_or_concat (cs.splitOn '/') with hnil | ⟨init, last, he⟩
    · rw [hnil] at hl
      cases hl
    · rw [List.concat_eq_append] at he
      rw [he, List.dropLast_concat] at hinit
      rw [he] at hl
      rcases List.mem_append.mp hl with hl | hl
      · exact hinit [] hl rfl
      · -- the path would end in a slash
        have hlast : (cs.splitOn '/').getLast? = some [] := by
          rw [he, ← List.mem_singleton.mp hl, List.getLast?_concat]
        have hslash := getLast_splitOn hlast
        rw [← hcs] at hslash
        exact absurd (decide_eq_true hslash) (by rw [← endsWithSlash, h.named]; exact Bool.false_ne_true)
  refine ⟨(cs.splitOn '/').map String.ofList, fun n hn => ?_, ?_, String.toList_inj.mp ?_⟩
  · obtain ⟨l, hl, rfl⟩ := List.mem_map.mp hn
    unfold Plain
    rw [String.toList_ofList]
    exact ⟨not_mem_of_mem_splitOn hl, hparts l hl⟩
  · exact fun he => List.splitOn_ne_nil '/' cs (List.map_eq_nil_iff.mp he)
  · have hmap : ((cs.splitOn '/').map String.ofList).map String.toList = cs.splitOn '/' := by
      rw [List.map_map]
      exact List.map_id'' (fun l => String.toList_ofList) _
    rw [toList_pathOf, hmap, List.intercalate_splitOn, hcs]

theorem mem_ancestors {names : List String} (h : ∀ n ∈ names, Plain n) :
    q ∈ PathIndex.ancestors (pathOf names) ↔ ∃ above rest, above ≠ [] ∧ rest ≠ [] ∧ names = above ++ rest ∧
      q = pathOf above := by
  unfold PathIndex.ancestors
  rw [components_pathOf h]
  simp only [List.mem_map, List.mem_reverse, List.mem_range'_1]
  constructor
  · rintro ⟨i, hi, rfl⟩
    refine ⟨names.take i, names.drop i, ?_, ?_, (List.take_append_drop i names).symm, rfl⟩
    · rw [← List.length_pos_iff, List.length_take]
      omega
    · rw [← List.length_pos_iff, List.length_drop]
      omega
  · rintro ⟨above, rest, hne, hne', rfl, rfl⟩
    have h1 := List.length_pos_iff.mpr hne
    have h2 := List.length_pos_iff.mpr hne'
    refine ⟨above.length, ?_, by rw [List.take_left]⟩
    rw [List.length_append]
    omega

/-- What is above a rooted path is one of its ancestors. -/
theorem Rooted.mem_ancestors (h : Rooted p) (hq : Rooted q) : q ∈ PathIndex.ancestors p ↔ Below p q := by
  obtain ⟨names, hplain, -, rfl⟩ := h.pathOf
  obtain ⟨above, hplain', hne, rfl⟩ := hq.pathOf
  rw [Bash.mem_ancestors hplain, Below, below_iff hplain' hplain hne]
  constructor
  · rintro ⟨above', rest, -, hrest, rfl, he⟩
    have hsub : ∀ n ∈ above', Plain n := fun n hn => hplain n (List.mem_append_left _ hn)
    rw [pathOf_inj hplain' hsub he]
    exact ⟨rest, hrest, rfl⟩
  · rintro ⟨rest, hrest, rfl⟩
    exact ⟨above, rest, hne, hrest, rfl, rfl⟩

theorem Rooted.below_of_ancestor (h : Rooted p) (hq : q ∈ PathIndex.ancestors p) : Below p q := by
  obtain ⟨names, hplain, -, rfl⟩ := h.pathOf
  obtain ⟨above, rest, hne, hrest, rfl, rfl⟩ := (Bash.mem_ancestors hplain).mp hq
  exact (below_iff (fun n hn => hplain n (List.mem_append_left _ hn)) hplain hne).mpr ⟨rest, hrest, rfl⟩

/-- **Where a path may be written**: nothing that is indexed is above or below it. -/
theorem Dialect.assertWritable_none {D : Dialect} {ix : PathIndex} {intent : WriteIntent}
    (hp : D.checkFilepath p = none)
    (hreserved : isReservedFilepath p = false) (hrooted : Rooted p) :
    (∀ q, ix.isFile q = true → ¬ Below q p ∧ ¬ Below p q) → D.assertWritable ix p intent = none := by
  intro h
  unfold Dialect.assertWritable Dialect.ruleShape ruleReserved ruleAncestorNotFile ruleNoDescendants
  have habove : ix.findAncestorFile p = none := by
    refine List.find?_eq_none.mpr fun q hq hfile => ?_
    exact (h q hfile).2 (hrooted.below_of_ancestor hq)
  have hbelow : ix.hasDescendant p = false := by
    unfold PathIndex.hasDescendant
    split_ifs
    · rfl
    · refine eq_false_of_ne_true fun hb => ?_
      obtain ⟨q, hq, hpre⟩ := PathIndex.hasBelow_iff.mp hb
      exact (h q hq).1 hpre
  rw [hp, hreserved, habove, hbelow]
  rfl

/-- What the rules let pass is apart from what is indexed. -/
theorem Dialect.apart_of_assertWritable {D : Dialect} (hD : D.Strict) {ix : PathIndex} {intent : WriteIntent}
    (h : D.assertWritable ix p intent = none) : D.checkFilepath p = none ∧ isReservedFilepath p = false ∧
      ∀ q, Rooted q → ix.isFile q = true → ¬ Below q p ∧ ¬ Below p q := by
  unfold Dialect.assertWritable at h
  simp only [Option.or_eq_none_iff] at h
  obtain ⟨hshape, hreserved, habove, hbelow⟩ := h
  have hcheck : D.checkFilepath p = none := by
    unfold Dialect.ruleShape at hshape
    split at hshape
    · assumption
    · cases hshape
    · cases hshape
    · cases hshape
  have hrooted := hD p hcheck
  refine ⟨hcheck, ?_, fun q hq hfile => ⟨fun hb => ?_, fun hb => ?_⟩⟩
  · unfold ruleReserved at hreserved
    split_ifs at hreserved with hr
    exact eq_false_of_ne_true hr
  · unfold ruleNoDescendants PathIndex.hasDescendant at hbelow
    have hroot : ¬ (p = "/" ∨ p = "") := by
      rintro (rfl | rfl)
      · exact absurd hrooted.named (by decide)
      · exact absurd hrooted.absolute (by decide)
    rw [if_neg hroot, if_pos (PathIndex.hasBelow_iff.mpr ⟨q, hfile, hb⟩)] at hbelow
    cases hbelow
  · unfold ruleAncestorNotFile at habove
    have hnone := List.find?_eq_none.mp (Option.map_eq_none_iff.mp habove) q ((hrooted.mem_ancestors hq).mpr hb)
    exact hnone hfile

end Smfs.Bash
