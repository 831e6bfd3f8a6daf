/-
# The user's text in a file of hints

The user's text is what stands around the blocks, without the newlines at the
seams (`Sheet.userText`). No operation changes it, and none brings a marker
into it.

Key definitions: `Hint.trim`, `Hint.join`, `Hint.Sheet.userText`, `Hint.PathOk`.
Key theorems: `Hint.trim_seam`, `Hint.userText_install`, `Hint.userText_uninstall`, `Hint.userText_sweep`,
`Hint.Sheet.Quiet.install`, `Hint.Sheet.Quiet.uninstall`, `Hint.Sheet.Quiet.sweep`.
-/
import Smfs.Hint.History

namespace Smfs
namespace Hint

open Search

/-- Without the newlines around it. -/
def trim (text : List Char) : List Char := trimStart (trimEnd text)

/-- Two texts on lines of their own, where there are two. -/
def join (x y : List Char) : List Char := if x = [] then y else if y = [] then x else x ++ '\n' :: y

/-- The texts around the blocks, one after the other. -/
def around : List Char → List (Block × List Char) → List Char
  | before, [] => trim before
  | before, (_, after) :: parts => join (trim before) (around after parts)

def Sheet.userText (s : Sheet) : List Char := around s.front s.parts

section Seams

variable {x y z : List Char}

theorem join_nil_left (y : List Char) : join [] y = y := if_pos rfl

theorem join_nil_right (x : List Char) : join x [] = x := by
  by_cases hx : x = [] <;> simp [join, hx]

theorem join_assoc (x y z : List Char) : join (join x y) z = join x (join y z) := by
  by_cases hx : x = []
  · rw [hx, join_nil_left, join_nil_left]
  by_cases hy : y = []
  · rw [hy, join_nil_left, join_nil_right]
  by_cases hz : z = []
  · rw [hz, join_nil_right, join_nil_right]
  simp [join, hx, hy, hz]

theorem trimStart_eq_nil : trimStart x = [] ↔ Blank x := by simp [trimStart, Blank]

theorem blank_trimStart : Blank (trimStart x) ↔ Blank x := by
  obtain ⟨y, hy, he⟩ := trimStart_split x
  refine ⟨fun h c hc => ?_, fun h c hc => h c (by rw [he]; exact List.mem_append_right _ hc)⟩
  rw [he] at hc
  rcases List.mem_append.mp hc with hc | hc
  · exact hy c hc
  · exact h c hc

theorem trimStart_append (y : List Char) (h : trimStart x ≠ []) : trimStart (x ++ y) = trimStart x ++ y := by
  simp only [trimStart, List.dropWhile_append, List.isEmpty_iff]
  exact if_neg h

theorem trimStart_trimStart (x : List Char) : trimStart (trimStart x) = trimStart x := by
  obtain ⟨y, hy, he⟩ := trimStart_split x
  calc trimStart (trimStart x) = trimStart (y ++ trimStart x) := (trimStart_append_blank _ hy).symm
    _ = trimStart x := by rw [← he]

/-- Either end may be trimmed first. -/
theorem trimEnd_trimStart (x : List Char) : trimEnd (trimStart x) = trim x := by
  obtain ⟨y, hy, he⟩ := trimStart_split x
  by_cases hblank : Blank x
  · rw [trim, trimEnd_eq_nil.mpr hblank, trimStart_eq_nil.mpr hblank]
    rfl
  · have hne : trimEnd (trimStart x) ≠ [] := fun h => hblank (blank_trimStart.mp (trimEnd_eq_nil.mp h))
    obtain ⟨z, hz, hsplit⟩ := trimEnd_split (trimStart x)
    have hfix : trimStart (trimEnd (trimStart x)) ≠ [] := by
      rw [Ne, trimStart_eq_nil, ← trimEnd_eq_nil, trimEnd_trimEnd]
      exact hne
    have hself : trimStart (trimEnd (trimStart x)) ++ z = trimEnd (trimStart x) ++ z := by
      rw [← trimStart_append z hfix, ← hsplit, trimStart_trimStart]
    calc trimEnd (trimStart x) = trimStart (trimEnd (trimStart x)) := (List.append_cancel_right hself).symm
      _ = trimStart (y ++ trimEnd (trimStart x)) := (trimStart_append_blank _ hy).symm
      _ = trimStart (trimEnd (y ++ trimStart x)) := by rw [trimEnd_append _ hne]
      _ = trim x := by rw [← he]; rfl

theorem trim_eq_nil : trim x = [] ↔ Blank x := by
  rw [trim, trimStart_eq_nil, ← trimEnd_eq_nil, trimEnd_trimEnd, trimEnd_eq_nil]

theorem trim_close {sep : List Char} (hsep : Blank sep) (start : Bool) (x : List Char) :
    trim (close sep start x) = trim x :=
  congrArg trimStart (trimEnd_close hsep start x)

/-- **Where a block was, one newline is left between the texts.** -/
theorem trim_seam (start : Bool) (x y : List Char) :
    trim (close ['\n'] start x ++ trimStart y) = join (trim x) (trim y) := by
  by_cases hy : Blank y
  · rw [trimStart_eq_nil.mpr hy, List.append_nil, trim_close blank_line, trim_eq_nil.mpr hy, join_nil_right]
  by_cases hx : Blank x
  · have hblank : Blank (close ['\n'] start x) := by
      rw [← trim_eq_nil, trim_close blank_line, trim_eq_nil]
      exact hx
    rw [← trimEnd_trimStart, trimStart_append_blank _ hblank, trimStart_trimStart, trimEnd_trimStart,
      trim_eq_nil.mpr hx,
      join_nil_left]
  · have hclose : close ['\n'] start x = trimEnd x ++ ['\n'] := if_neg fun h => hx (trimEnd_eq_nil.mp h.2)
    have hstart : trimStart (trimEnd x) ≠ [] := fun h => hx (trim_eq_nil.mp h)
    have hend : trimEnd (trimStart y) ≠ [] := fun h => hy (blank_trimStart.mp (trimEnd_eq_nil.mp h))
    calc trim (close ['\n'] start x ++ trimStart y)
        = trimStart (trimEnd x ++ ['\n'] ++ trimEnd (trimStart y)) := by rw [hclose, trim, trimEnd_append _ hend]
      _ = trimStart (trimEnd x) ++ ('\n' :: trimEnd (trimStart y)) := by
          rw [List.append_assoc, trimStart_append _ hstart]
          rfl
      _ = join (trim x) (trim y) := by
          rw [trimEnd_trimStart, join, if_neg fun h => hx (trim_eq_nil.mp h), if_neg fun h => hy (trim_eq_nil.mp h)]
          rfl

theorem around_of_trim {parts : List (Block × List Char)} (h : trim x = join (trim y) (trim z)) :
    around x parts = join (trim y) (around z parts) := by
  cases parts with
  | nil => exact h
  | cons p parts =>
    show join (trim x) _ = _
    rw [h, join_assoc]
    rfl

end Seams

/-! ### The user's text is kept -/

section Kept

variable {s : Sheet} {b : Block} {d : String}

theorem around_erase (d : String) (start : Bool) (before : List Char) (parts : List (Block × List Char)) :
    around (erase d start before parts).1 (erase d start before parts).2 = around before parts := by
  induction parts generalizing before start with
  | nil => rfl
  | cons p parts ih =>
    obtain ⟨b, after⟩ := p
    rw [erase]
    split_ifs with hd
    · exact around_of_trim (trim_seam start before after)
    · show join (trim before) _ = join (trim before) _
      rw [ih]

theorem around_closeWith {sep : List Char} (hsep : Blank sep) (start : Bool) (before : List Char)
    (parts parts' : List (Block × List Char)) :
    around (closeWith sep start before parts).1 ((closeWith sep start before parts).2 ++ parts') =
      around before (parts ++ parts') := by
  induction parts generalizing before start with
  | nil =>
    show around (close sep start before) parts' = around before parts'
    cases parts' with
    | nil => exact trim_close hsep start before
    | cons p parts' => exact congrArg (join · _) (trim_close hsep start before)
  | cons p parts ih => exact congrArg (join _) (ih false p.2)

theorem around_push (before : List Char) (parts : List (Block × List Char)) (b : Block) :
    around before (parts ++ [(b, ['\n'])]) = around before parts := by
  induction parts generalizing before with
  | nil =>
    show join (trim before) (trim ['\n']) = trim before
    rw [trim_eq_nil.mpr blank_line, join_nil_right]
  | cons p parts ih => exact congrArg (join _) (ih p.2)

theorem userText_erase : (s.erase d).userText = s.userText := around_erase d true s.front s.parts

theorem userText_closed : s.closed.userText = s.userText := by
  have := around_closeWith blank_line true s.front s.parts []
  rwa [List.append_nil, List.append_nil] at this

theorem userText_install : (s.install b).userText = s.userText := by
  refine (around_closeWith blank_lines true _ _ [(b, ['\n'])]).trans ?_
  rw [around_push]
  exact userText_erase

theorem userText_uninstall : (s.uninstall d).userText = s.userText := by
  rw [Sheet.uninstall, userText_closed, userText_erase]

theorem userText_sweep (ds : List String) : (s.sweep ds).userText = s.userText := by
  rw [Sheet.sweep, userText_closed]
  induction ds generalizing s with
  | nil => rfl
  | cons d ds ih => rw [List.foldl_cons, ih, userText_erase]

end Kept

/-! ### No marker comes in -/

section Quiet

variable {s : Sheet} {b : Block} {d : String} {pat before : List Char} {parts : List (Block × List Char)}

theorem not_occurs_trimStart {x : List Char} (h : ¬ Occurs pat x) : ¬ Occurs pat (trimStart x) := fun ho =>
  h (occurs_iff_within.mpr ((occurs_iff_within.mp ho).trans (List.dropWhile_suffix _).isInfix))

/-- A pattern without newlines is not at the seam. -/
theorem not_occurs_close {sep : List Char} (hsep : Blank sep) (hpat : '\n' ∉ pat) (hne : pat ≠ [])
    (h : ¬ Occurs pat before) (start : Bool) : ¬ Occurs pat (close sep start before) := by
  have htrim : ¬ Occurs pat (trimEnd before) := fun ho =>
    h (occurs_iff_within.mpr ((occurs_iff_within.mp ho).trans (List.rdropWhile_prefix _ before).isInfix))
  obtain ⟨a, rest, rfl⟩ := List.exists_cons_of_ne_nil hne
  have hblank : ¬ Occurs (a :: rest) sep := not_occurs_of_not_mem List.mem_cons_self fun ha =>
    hpat (by rw [← hsep a ha]; exact List.mem_cons_self)
  unfold close
  split_ifs with hnil
  · exact not_occurs_nil hne
  · cases sep with
    | nil => rwa [List.append_nil]
    | cons c sep =>
      refine not_occurs_append htrim hblank (not_straddles_of_first ?_ hpat)
      rw [hsep c List.mem_cons_self]
      rfl

/-- No block and no text has the beginning of a begin marker. -/
def Still (before : List Char) (parts : List (Block × List Char)) : Prop :=
  ¬ Occurs beginPrefix before ∧ ∀ p ∈ parts, ¬ Occurs beginPrefix p.1.body ∧ ¬ Occurs beginPrefix p.2

theorem Still.tail {p : Block × List Char} (h : Still before (p :: parts)) : Still p.2 parts :=
  ⟨(h.2 p List.mem_cons_self).2, fun q hq => h.2 q (List.mem_cons_of_mem _ hq)⟩

theorem Still.cons {b : Block} {after : List Char} (hbefore : ¬ Occurs beginPrefix before)
    (hb : ¬ Occurs beginPrefix b.body)
    (h : Still after parts) : Still before ((b, after) :: parts) := by
  refine ⟨hbefore, fun q hq => ?_⟩
  rcases List.mem_cons.mp hq with rfl | hq
  · exact ⟨hb, h.1⟩
  · exact h.2 q hq

theorem Still.erase (start : Bool) (h : Still before parts) :
    Still (Hint.erase d start before parts).1 (Hint.erase d start before parts).2 := by
  induction parts generalizing before start with
  | nil => exact h
  | cons p parts ih =>
    obtain ⟨b, after⟩ := p
    rw [Hint.erase]
    split_ifs with hd
    · refine ⟨not_occurs_append (not_occurs_close blank_line (by decide) (by decide) h.1 start)
        (not_occurs_trimStart h.tail.1) fun hs => ?_, h.tail.2⟩
      rcases Classical.em (close ['\n'] start before = []) with hnil | hnil
      · obtain ⟨p, q, hp, -, -, hsuf, -⟩ := hs
        rw [hnil, List.suffix_nil] at hsuf
        exact hp hsuf
      · have hclose : close ['\n'] start before = trimEnd before ++ ['\n'] := if_neg fun hh => hnil (if_pos hh)
        rw [hclose] at hs
        exact not_straddles_of_last (a := '\n') (by simp) (by decide) hs
    · exact .cons h.1 (h.2 _ List.mem_cons_self).1 (ih false h.tail)

theorem Still.closeWith {sep : List Char} (hsep : Blank sep) (start : Bool) (h : Still before parts) :
    Still (Hint.closeWith sep start before parts).1 (Hint.closeWith sep start before parts).2 := by
  induction parts generalizing before start with
  | nil => exact ⟨not_occurs_close hsep (by decide) (by decide) h.1 start, h.2⟩
  | cons p parts ih => exact .cons h.1 (h.2 p List.mem_cons_self).1 (ih false h.tail)

theorem Sheet.Quiet.erase (h : s.Quiet) : (s.erase d).Quiet := Still.erase true h

theorem Sheet.Quiet.install (h : s.Quiet) (hb : ¬ Occurs beginPrefix b.body) : (s.install b).Quiet := by
  obtain ⟨hfront, hparts⟩ := Still.closeWith blank_lines true (h.erase (d := b.delim))
  refine ⟨hfront, fun p hp => ?_⟩
  rcases List.mem_append.mp hp with hp | hp
  · exact hparts p hp
  · rw [List.mem_singleton.mp hp]
    exact ⟨hb, not_occurs_of_not_mem (a := '<') (by decide) (by simp)⟩

theorem Sheet.Quiet.uninstall (h : s.Quiet) : (s.uninstall d).Quiet := Still.closeWith blank_line true h.erase

theorem Sheet.Quiet.sweep (h : s.Quiet) (ds : List String) : (s.sweep ds).Quiet := by
  refine Still.closeWith blank_line true ?_
  show (ds.foldl Sheet.erase s).Quiet
  induction ds generalizing s with
  | nil => exact h
  | cons d ds ih => exact ih h.erase

end Quiet

/-- A path without marker text. -/
def PathOk (pathStr : String) : Prop := ¬ Occurs beginPrefix pathStr.toList ∧ ¬ Occurs endPrefix pathStr.toList

instance (pathStr : String) : Decidable (PathOk pathStr) :=
  decidable_of_iff (find beginPrefix pathStr.toList = none ∧ find endPrefix pathStr.toList = none)
    (and_congr find_eq_none_iff find_eq_none_iff)

theorem PathOk.unmarked {pathStr : String} (h : PathOk pathStr) : Unmarked pathStr.toList := fun tag _ => by
  have hend : endMarker tag = endPrefix ++ ((sanitizeForDelim tag).toList ++ endSuffix) := List.append_assoc _ _ _
  have hbegin : beginMarker tag = beginPrefix ++ ((sanitizeForDelim tag).toList ++ beginSuffix) :=
    List.append_assoc _ _ _
  exact ⟨fun ho => h.1 (Occurs.of_append (hbegin ▸ ho)), fun ho => h.2 (Occurs.of_append (hend ▸ ho))⟩

/-- Nor is there a begin marker inside the block. -/
theorem PathOk.body {pathStr : String} (h : PathOk pathStr) : ¬ Occurs beginPrefix (blockBody pathStr) :=
  not_occurs_blockBody (.inl List.prefix_rfl) (by decide) h.1

end Hint
end Smfs
