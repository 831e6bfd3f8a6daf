/-
# The grep wrapper of the shell

`smfs init` writes a shell function into `~/.zshrc`: the lines from one with
the marker up to one with nothing but `}` are taken out, and a fresh wrapper is
appended. The wrapper begins with a blank line that is not taken out, so each
time the file grows by a line (`count_clean`), and no file is one that may be
installed into twice (`reinstall_never_safe`).

Key definitions: `Wrapper.shellWrapper`, `Wrapper.lines`, `Wrapper.clean`, `Wrapper.reinstallGrepWrapper`,
`Wrapper.outside`, `Wrapper.ReinstallSafe`.
Key theorems: `Wrapper.reinstall_pieces`, `Wrapper.lines_lost`, `Wrapper.count_clean`, `Wrapper.not_idempotent`,
`Wrapper.reinstall_never_safe`.
-/
import Smfs.Lib.Search
import Smfs.Grep
import Smfs.Text
import Mathlib.Data.List.DropRight

namespace Smfs
namespace Wrapper

open Search

/-- The line with the marker. -/
def header : String := "# supermemoryfs grep wrapper — semantic search inside mounted containers"

/-- The lines of the function. -/
def body : List String := [
  "grep() \x7b",
  "    # Any flag → real grep; semantic doesn't know about flags.",
  "    for arg in \"$@\"; do",
  "        case \"$arg\" in",
  "            -*) command grep \"$@\"; return ;;",
  "        esac",
  "    done",
  "",
  "    _smfs_found=\"\"",
  "",
  "    # Path A: CWD walk. Trigger if $PWD is actually inside a mount path.",
  "    _smfs_dir=\"$PWD\"",
  "    _smfs_pwd_real=\"$(pwd -P)\"",
  "    while [ \"$_smfs_dir\" != \"/\" ]; do",
  "        if [ -f \"$_smfs_dir/.smfs\" ]; then",
  "            while IFS= read -r _smfs_mp; do",
  "                _smfs_mp_real=\"$(cd \"$_smfs_mp\" 2>/dev/null && pwd -P)\"",
  "                case \"$_smfs_pwd_real\" in \"$_smfs_mp_real\"|\"$_smfs_mp_real\"/*) _smfs_found=1; break ;; esac",
  "            done <<_SMFS_A_EOF",
  "$(command grep '^mount_path=' \"$_smfs_dir/.smfs\" 2>/dev/null | cut -d= -f2-)",
  "_SMFS_A_EOF",
  "            break",
  "        fi",
  "        _smfs_dir=\"$(dirname \"$_smfs_dir\")\"",
  "    done",
  "",
  "    # Path B: check path args (skip the first non-flag arg — it's grep's pattern).",
  "    # A match only counts when the resolved path is actually inside the mount.",
  "    if [ -z \"$_smfs_found\" ]; then",
  "        _smfs_pattern_seen=0",
  "        for arg in \"$@\"; do",
  "            case \"$arg\" in -*) continue ;; esac",
  "            if [ \"$_smfs_pattern_seen\" = \"0\" ]; then",
  "                _smfs_pattern_seen=1",
  "                continue",
  "            fi",
  "            if [ -d \"$arg\" ]; then",
  "                _smfs_resolved=\"$(cd \"$arg\" 2>/dev/null && pwd -P)\"",
  "            elif [ -e \"$arg\" ] || [ -d \"$(dirname \"$arg\")\" ]; then",
  "                _smfs_parent=\"$(cd \"$(dirname \"$arg\")\" 2>/dev/null && pwd -P)\"",
  "                [ -z \"$_smfs_parent\" ] && continue",
  "                _smfs_resolved=\"$_smfs_parent/$(basename \"$arg\")\"",
  "            else",
  "                continue",
  "            fi",
  "            [ -z \"$_smfs_resolved\" ] && continue",
  "            _smfs_dir=\"$_smfs_resolved\"",
  "            [ ! -d \"$_smfs_dir\" ] && _smfs_dir=\"$(dirname \"$_smfs_dir\")\"",
  "            while [ \"$_smfs_dir\" != \"/\" ]; do",
  "                if [ -f \"$_smfs_dir/.smfs\" ]; then",
  "                    while IFS= read -r _smfs_mp; do",
  "                        _smfs_mp_real=\"$(cd \"$_smfs_mp\" 2>/dev/null && pwd -P)\"",
  "                        case \"$_smfs_resolved\" in",
  "                            \"$_smfs_mp_real\"|\"$_smfs_mp_real\"/*) _smfs_found=1; break 2 ;;",
  "                        esac",
  "                    done <<_SMFS_B_EOF",
  "$(command grep '^mount_path=' \"$_smfs_dir/.smfs\" 2>/dev/null | cut -d= -f2-)",
  "_SMFS_B_EOF",
  "                    break",
  "                fi",
  "                _smfs_dir=\"$(dirname \"$_smfs_dir\")\"",
  "            done",
  "        done",
  "    fi",
  "",
  "    if [ -n \"$_smfs_found\" ]; then",
  "        smfs grep \"$@\"",
  "    else",
  "        command grep \"$@\"",
  "    fi"]

/-- The lines of `SHELL_WRAPPER`, of which the first is blank. -/
def wrapperLines : List (List Char) := [] :: header.toList :: (body.map String.toList ++ [['}']])

/-- Each line with a newline at its end. -/
def unlines (ls : List (List Char)) : List Char := ls.flatMap (· ++ ['\n'])

/-- `SHELL_WRAPPER`. -/
def shellWrapper : List Char := unlines wrapperLines

/-- `MARKER`. -/
def marker : List Char := "supermemoryfs grep wrapper".toList

/-! ### Lines -/

/-- `split_inclusive('\n')`. -/
def splitInclusive : List Char → List (List Char)
  | [] => []
  | c :: cs =>
    if c = '\n' then [c] :: splitInclusive cs
    else match splitInclusive cs with
      | [] => [[c]]
      | line :: rest => (c :: line) :: rest

/-- A line without the newline at its end, nor the carriage return before that. -/
def stripNewline (line : List Char) : List Char :=
  if line.getLast? = some '\n' then
    if line.dropLast.getLast? = some '\r' then line.dropLast.dropLast else line.dropLast
  else line

/-- `str::lines`. -/
def lines (text : List Char) : List (List Char) := (splitInclusive text).map stripNewline

/-- `str::trim`. -/
def trim (line : List Char) : List Char := (line.dropWhile Grep.isWhitespace).rdropWhile Grep.isWhitespace

/-- The loop of `reinstall_grep_wrapper`: the lines that are kept, where `skip` says that a wrapper has begun. -/
def keep : Bool → List (List Char) → List (List Char)
  | _, [] => []
  | skip, line :: rest =>
    if (find marker line).isSome then keep true rest
    else if skip && trim line = ['}'] then keep false rest
    else if skip then keep skip rest
    else line :: keep skip rest

/-- What is left of a text with a wrapper in it. -/
def clean (content : List Char) : List Char := unlines (keep false (lines content))

/-- What `append_wrapper` appends to. -/
def prior (content : List Char) : List Char := if (find marker content).isSome then clean content else content

/-- `reinstall_grep_wrapper`: the bytes of `~/.zshrc` after it. A file that is
not there, or that is not UTF-8, is not read. -/
def reinstallGrepWrapper (zshrc : Option ByteArray) : ByteArray :=
  match zshrc.bind String.fromUTF8? with
  | some content => (String.ofList (prior content.toList ++ shellWrapper)).toByteArray
  | none => zshrc.getD ByteArray.empty ++ (String.ofList shellWrapper).toByteArray

/-! ### What a reinstall is to do -/

/-- The bytes between the newlines. -/
def rows (file : ByteArray) : List Bytes := file.data.toList.splitOn 10

/-- The rows of a wrapper from its marker on. -/
def wrapperRows : List Bytes := (wrapperLines.drop 1).map fun line => bytesOf (String.ofList line)

/-- The rows outside the wrappers, complete or cut short, where `expected` are
the rows with which a wrapper that has begun goes on. -/
def outside : List Bytes → List Bytes → List Bytes
  | _, [] => []
  | expected, row :: rest =>
    if expected.head? = some row then outside expected.tail rest
    else if wrapperRows.head? = some row then outside wrapperRows.tail rest
    else row :: outside [] rest

/-- The rows outside the wrappers are there, in order and unchanged. -/
def KeepsRows (zshrc : Option ByteArray) : Prop :=
  (outside [] (rows (zshrc.getD ByteArray.empty))).Sublist (outside [] (rows (reinstallGrepWrapper zshrc)))

/-- There is exactly one complete wrapper in the file. -/
def OneWrapper (file : ByteArray) : Prop := ∃! i, OccursAt (bytesOf (String.ofList shellWrapper)) file.data.toList i

/-- A reinstall keeps the user's rows and leaves one wrapper, and a second one changes nothing. -/
structure ReinstallSafe (zshrc : Option ByteArray) : Prop where
  keeps : KeepsRows zshrc
  one : OneWrapper (reinstallGrepWrapper zshrc)
  idempotent : reinstallGrepWrapper (some (reinstallGrepWrapper zshrc)) = reinstallGrepWrapper zshrc

/-! ### Lines of a text -/

section Lines

variable {x y line : List Char}

theorem splitInclusive_ne_nil (h : x ≠ []) : splitInclusive x ≠ [] := by
  obtain ⟨c, x, rfl⟩ := List.exists_cons_of_ne_nil h
  unfold splitInclusive
  split_ifs
  · exact List.cons_ne_nil _ _
  · cases splitInclusive x <;> exact List.cons_ne_nil _ _

theorem splitInclusive_append (x y : List Char) :
    splitInclusive (x ++ '\n' :: y) = splitInclusive (x ++ ['\n']) ++ splitInclusive y := by
  induction x with
  | nil => simp [splitInclusive]
  | cons c x ih =>
    rw [List.cons_append, List.cons_append, splitInclusive, splitInclusive, ih]
    split_ifs
    · rfl
    · obtain ⟨line, rest, he⟩ := List.exists_cons_of_ne_nil (splitInclusive_ne_nil (x := x ++ ['\n']) (by simp))
      rw [he]
      rfl

theorem length_splitInclusive (x : List Char) : (splitInclusive (x ++ ['\n'])).length = x.count '\n' + 1 := by
  induction x with
  | nil => rfl
  | cons c x ih =>
    rw [List.cons_append, splitInclusive, List.count_cons]
    split_ifs with hc hc' hc'
    · rw [List.length_cons, ih]
    · exact absurd (beq_iff_eq.mpr hc) hc'
    · exact absurd (beq_iff_eq.mp hc') hc
    · obtain ⟨line, rest, he⟩ := List.exists_cons_of_ne_nil (splitInclusive_ne_nil (x := x ++ ['\n']) (by simp))
      rw [he] at ih ⊢
      exact ih

theorem splitInclusive_line (h : '\n' ∉ x) : splitInclusive (x ++ ['\n']) = [x ++ ['\n']] := by
  induction x with
  | nil => rfl
  | cons c x ih =>
    rw [List.mem_cons, not_or] at h
    rw [List.cons_append, splitInclusive, if_neg (Ne.symm h.1), ih h.2]

theorem flatten_splitInclusive (x : List Char) : (splitInclusive x).flatten = x := by
  induction x with
  | nil => rfl
  | cons c x ih =>
    unfold splitInclusive
    split_ifs
    · rw [List.flatten_cons, ih]
      rfl
    · cases he : splitInclusive x with
      | nil =>
        rw [he] at ih
        rw [← ih]
        rfl
      | cons line rest =>
        rw [he] at ih
        rw [← ih]
        rfl

theorem infix_of_mem_lines (h : line ∈ lines x) : line <:+: x := by
  obtain ⟨l, hl, rfl⟩ := List.mem_map.mp h
  have hinfix : l <:+: x := by
    conv_rhs => rw [← flatten_splitInclusive x]
    exact List.infix_of_mem_flatten hl
  have hprefix : stripNewline l <+: l := by
    unfold stripNewline
    split_ifs
    · exact (List.dropLast_prefix _).trans (List.dropLast_prefix _)
    · exact List.dropLast_prefix _
    · exact List.prefix_rfl
  exact hprefix.isInfix.trans hinfix

theorem newline_not_mem_dropLast (h : line ∈ splitInclusive x) : '\n' ∉ line.dropLast := by
  induction x generalizing line with
  | nil => cases h
  | cons c x ih =>
    unfold splitInclusive at h
    split_ifs at h with hc
    · rcases List.mem_cons.mp h with rfl | h
      · simp
      · exact ih h
    · cases he : splitInclusive x with rw [he] at h
      | nil => simp_all
      | cons l rest =>
        rw [he] at ih
        rcases List.mem_cons.mp h with rfl | h
        · have hl := ih List.mem_cons_self
          cases l with
          | nil => simp
          | cons d l => simpa [Ne.symm hc] using hl
        · exact ih (List.mem_cons_of_mem _ h)

theorem newline_not_mem_lines (h : line ∈ lines x) : '\n' ∉ line := by
  obtain ⟨l, hl, rfl⟩ := List.mem_map.mp h
  have hlast := newline_not_mem_dropLast hl
  unfold stripNewline
  split_ifs with hn
  · exact fun hm => hlast (List.dropLast_subset _ hm)
  · exact hlast
  · rcases List.eq_nil_or_concat l with rfl | ⟨m, c, rfl⟩
    · exact List.not_mem_nil
    · simp only [List.concat_eq_append, List.dropLast_concat, List.getLast?_concat, List.mem_append, List.mem_singleton,
        Option.some.injEq] at hlast hn ⊢
      exact fun hm => hm.elim hlast (Ne.symm hn)

end Lines

/-! ### What is taken out -/

section Clean

variable {x : List Char} {ls ls' : List (List Char)} {skip : Bool}

theorem mem_keep {l : List Char} (h : l ∈ keep skip ls) : l ∈ ls ∧ find marker l = none := by
  induction ls generalizing skip with
  | nil => cases h
  | cons line rest ih =>
    unfold keep at h
    split_ifs at h with hmark hend hskip
    · exact ⟨List.mem_cons_of_mem _ (ih h).1, (ih h).2⟩
    · exact ⟨List.mem_cons_of_mem _ (ih h).1, (ih h).2⟩
    · exact ⟨List.mem_cons_of_mem _ (ih h).1, (ih h).2⟩
    · rcases List.mem_cons.mp h with rfl | h
      · exact ⟨List.mem_cons_self, by simpa using hmark⟩
      · exact ⟨List.mem_cons_of_mem _ (ih h).1, (ih h).2⟩

/-- Lines without the marker are kept. -/
theorem keep_append (h : ∀ l ∈ ls, find marker l = none) : keep false (ls ++ ls') = ls ++ keep false ls' := by
  induction ls with
  | nil => rfl
  | cons line rest ih =>
    have hline : (find marker line).isSome = false := by rw [h line List.mem_cons_self]; rfl
    rw [List.cons_append, keep, hline]
    simp [ih fun l hl => h l (List.mem_cons_of_mem _ hl)]

theorem not_occurs_unlines (h : ∀ l ∈ ls, find marker l = none) : ¬ Occurs marker (unlines ls) := by
  induction ls with
  | nil => exact not_occurs_nil (by decide)
  | cons line rest ih =>
    have hline : ¬ Occurs marker (line ++ ['\n']) := not_occurs_append (find_eq_none_iff.mp (h line List.mem_cons_self))
      (not_occurs_of_not_mem (a := 's') (by decide) (by decide)) (not_straddles_of_first (a := '\n') rfl (by decide))
    rw [unlines, List.flatMap_cons]
    exact not_occurs_append hline (ih fun l hl => h l (List.mem_cons_of_mem _ hl))
      (not_straddles_of_last (a := '\n') (by simp) (by decide))

/-- A fresh wrapper is appended to a text without a marker. -/
theorem not_occurs_prior (content : List Char) : ¬ Occurs marker (prior content) := by
  unfold prior
  split_ifs with h
  · exact not_occurs_unlines fun l hl => (mem_keep hl).2
  · exact find_eq_none_iff.mp (by simpa using h)

/-- The lines that a text is made of. -/
theorem lines_unlines (h : ∀ l ∈ ls, '\n' ∉ l ∧ l.getLast? ≠ some '\r') : lines (unlines ls) = ls := by
  induction ls with
  | nil => rfl
  | cons line rest ih =>
    have hrest := ih fun l hl => h l (List.mem_cons_of_mem _ hl)
    obtain ⟨hnew, hret⟩ := h line List.mem_cons_self
    rw [unlines, List.flatMap_cons, ← unlines, List.append_assoc, List.singleton_append, lines, splitInclusive_append,
      splitInclusive_line hnew, List.map_append, ← lines, hrest]
    simp [stripNewline, hret]

/-- No line of the function ends with a line break, or ends the function. -/
theorem body_lines : ∀ l ∈ body, '\n' ∉ l.toList ∧ l.toList.getLast? ≠ some '\r' ∧ trim l.toList ≠ ['}'] := by
  repeat refine List.forall_mem_cons.mpr ⟨@of_ofList (fun l => '\n' ∉ l ∧ l.getLast? ≠ some '\r' ∧
    trim l ≠ ['}']) _ (by decide +kernel), ?_⟩
  exact List.forall_mem_nil _

theorem header_line : '\n' ∉ header.toList ∧ header.toList.getLast? ≠ some '\r' ∧
    (find marker header.toList).isSome := by
  decide +kernel

/-- Up to the line that ends it a wrapper is skipped. -/
theorem keep_true {rest : List (List Char)} (h : ∀ l ∈ ls, trim l ≠ ['}']) :
    keep true (ls ++ ['}'] :: rest) = keep false rest := by
  induction ls with
  | nil =>
    have hmark : find marker ['}'] = none := by decide
    have htrim : trim ['}'] = ['}'] := by decide
    simp [keep, hmark, htrim]
  | cons line ls ih =>
    have hline := h line List.mem_cons_self
    rw [List.cons_append, keep, ih fun l hl => h l (List.mem_cons_of_mem _ hl)]
    simp [hline]

/-- The lines of a wrapper are lines, and all but the first are taken out. -/
theorem wrapperLines_ok : ∀ l ∈ wrapperLines, '\n' ∉ l ∧ l.getLast? ≠ some '\r' := by
  intro l hl
  simp only [wrapperLines, List.mem_cons, List.mem_append, List.mem_map, List.not_mem_nil, or_false] at hl
  rcases hl with rfl | rfl | ⟨b, hb, rfl⟩ | rfl
  · simp
  · exact ⟨header_line.1, header_line.2.1⟩
  · exact ⟨(body_lines b hb).1, (body_lines b hb).2.1⟩
  · decide

theorem keep_wrapperLines (rest : List (List Char)) :
    keep false (wrapperLines ++ rest) = [] :: keep false rest := by
  have hbody : ∀ l ∈ body.map String.toList, trim l ≠ ['}'] := by
    intro l hl
    obtain ⟨b, hb, rfl⟩ := List.mem_map.mp hl
    exact (body_lines b hb).2.2
  have hblank : (find marker []).isSome = false := by decide
  calc keep false (wrapperLines ++ rest)
      = [] :: keep false (header.toList :: (body.map String.toList ++ ['}'] :: rest)) := by
        rw [wrapperLines, List.cons_append, List.cons_append, List.append_assoc, keep, hblank]
        rfl
    _ = [] :: keep true (body.map String.toList ++ ['}'] :: rest) := by rw [keep, if_pos header_line.2.2]
    _ = [] :: keep false rest := by rw [keep_true hbody]

/-- The wrapper is its blank first line and lines that are all taken out. -/
theorem keep_wrapper : shellWrapper = '\n' :: unlines (wrapperLines.drop 1) ∧
    keep false (lines (unlines (wrapperLines.drop 1))) = [] := by
  refine ⟨rfl, ?_⟩
  rw [lines_unlines fun l hl => wrapperLines_ok l (List.mem_of_mem_drop hl)]
  have hall := keep_wrapperLines []
  have hblank : keep false wrapperLines = [] :: keep false (wrapperLines.drop 1) := by
    rw [wrapperLines, keep, if_neg (by decide)]
    rfl
  rw [List.append_nil, hblank] at hall
  exact (List.cons.inj hall).2

/-- A part of the file: a line of the user's, or a wrapper. -/
inductive Piece
  | own (line : List Char)
  | wrapper

/-- The lines of a part. -/
def Piece.lines : Piece → List (List Char)
  | .own line => [line]
  | .wrapper => wrapperLines

/-- The line that is left of a part. -/
def Piece.left : Piece → List Char
  | .own line => line
  | .wrapper => []

/-- A line of the user's without a line break, a carriage return at its end, or the marker. -/
def Piece.Ok : Piece → Prop
  | .own line => '\n' ∉ line ∧ line.getLast? ≠ some '\r' ∧ find marker line = none
  | .wrapper => True

theorem pieces_lines {pieces : List Piece} (h : ∀ p ∈ pieces, p.Ok) :
    ∀ l ∈ pieces.flatMap Piece.lines, '\n' ∉ l ∧ l.getLast? ≠ some '\r' := by
  intro l hl
  obtain ⟨p, hp, hl⟩ := List.mem_flatMap.mp hl
  cases p with
  | own line =>
    rw [List.mem_singleton.mp hl]
    exact ⟨(h _ hp).1, (h _ hp).2.1⟩
  | wrapper => exact wrapperLines_ok l hl

theorem keep_pieces {pieces : List Piece} (h : ∀ p ∈ pieces, p.Ok) (rest : List (List Char)) :
    keep false (pieces.flatMap Piece.lines ++ rest) = pieces.map Piece.left ++ keep false rest := by
  induction pieces with
  | nil => rfl
  | cons p pieces ih =>
    have hrest := ih fun q hq => h q (List.mem_cons_of_mem _ hq)
    cases p with
    | own line =>
      have hline := (h _ List.mem_cons_self).2.2
      rw [List.flatMap_cons, List.append_assoc, keep_append (by simpa [Piece.lines] using hline), hrest]
      rfl
    | wrapper =>
      rw [List.flatMap_cons, List.append_assoc, Piece.lines, keep_wrapperLines, hrest]
      rfl

/-- A wrapper that does not end is skipped with all that comes after it. -/
theorem keep_lost (h : ∀ l ∈ ls, trim l ≠ ['}']) : keep true ls = [] := by
  induction ls with
  | nil => rfl
  | cons line ls ih =>
    have hline := h line List.mem_cons_self
    rw [keep, ih fun l hl => h l (List.mem_cons_of_mem _ hl)]
    simp [hline]

theorem occurs_unlines {line : List Char} (h : (find marker line).isSome) (hl : line ∈ ls) :
    Occurs marker (unlines ls) := by
  have hline : Occurs marker line := by
    by_contra hn
    rw [find_eq_none_iff.mpr hn] at h
    cases h
  have hinfix : line ++ ['\n'] <:+: unlines ls :=
    List.infix_of_mem_flatten (List.mem_map_of_mem (f := (· ++ ['\n'])) hl)
  exact occurs_iff_within.mpr ((occurs_iff_within.mp (hline.append_left _)).trans hinfix)

/-- A text without the marker loses no line. -/
theorem prior_unlines (h : ∀ l ∈ ls, '\n' ∉ l ∧ l.getLast? ≠ some '\r') :
    prior (unlines ls) = unlines (keep false ls) := by
  unfold prior
  split_ifs with hmark
  · rw [clean, lines_unlines h]
  · have hplain : ∀ l ∈ ls, find marker l = none := by
      intro l hl
      rw [← Option.not_isSome_iff_eq_none]
      intro hsome
      have hnone : find marker (unlines ls) = none := by simpa using hmark
      exact find_eq_none_iff.mp hnone (occurs_unlines hsome hl)
    have hkeep : keep false (ls ++ []) = ls ++ keep false [] := keep_append hplain
    rw [List.append_nil, keep, List.append_nil] at hkeep
    rw [hkeep]

/-- **In a file of the user's lines and complete wrappers** the lines are kept,
and each wrapper leaves its blank line. -/
theorem prior_pieces {pieces : List Piece} (h : ∀ p ∈ pieces, p.Ok) :
    prior (unlines (pieces.flatMap Piece.lines)) = unlines (pieces.map Piece.left) := by
  have hkeep := keep_pieces h []
  rw [List.append_nil, keep, List.append_nil] at hkeep
  rw [prior_unlines (pieces_lines h), hkeep]

/-- **A wrapper that is cut short takes the lines after it with it**, and so
does a line of the user's that mentions it. -/
theorem lines_lost {pieces : List Piece} {line : List Char} (h : ∀ p ∈ pieces, p.Ok)
    (hline : '\n' ∉ line ∧ line.getLast? ≠ some '\r') (hmark : (find marker line).isSome)
    (hls : ∀ l ∈ ls, '\n' ∉ l ∧ l.getLast? ≠ some '\r' ∧ trim l ≠ ['}']) :
    prior (unlines (pieces.flatMap Piece.lines ++ line :: ls)) = unlines (pieces.map Piece.left) := by
  have hlines : ∀ l ∈ pieces.flatMap Piece.lines ++ line :: ls, '\n' ∉ l ∧ l.getLast? ≠ some '\r' := by
    intro l hl
    rcases List.mem_append.mp hl with hl | hl
    · exact pieces_lines h l hl
    · rcases List.mem_cons.mp hl with rfl | hl
      · exact hline
      · exact ⟨(hls l hl).1, (hls l hl).2.1⟩
  have hlost : keep false (line :: ls) = [] := by
    rw [keep, if_pos hmark]
    exact keep_lost fun l hl => (hls l hl).2.2
  rw [prior_unlines hlines, keep_pieces h, hlost, List.append_nil]

theorem count_unlines (h : ∀ l ∈ ls, '\n' ∉ l) : (unlines ls).count '\n' = ls.length := by
  induction ls with
  | nil => rfl
  | cons line rest ih =>
    rw [unlines, List.flatMap_cons, ← unlines, List.count_append, List.count_append,
      List.count_eq_zero_of_not_mem (h line List.mem_cons_self),
      ih fun l hl => h l (List.mem_cons_of_mem _ hl), List.length_cons]
    simp
    omega

/-- **Taking the wrapper out again leaves its blank line.** -/
theorem count_clean (h : ¬ Occurs marker x) : (clean (x ++ shellWrapper)).count '\n' = x.count '\n' + 1 := by
  obtain ⟨hwrapper, hkeep⟩ := keep_wrapper
  have hlines : lines (x ++ shellWrapper) = lines (x ++ ['\n']) ++ lines (unlines (wrapperLines.drop 1)) := by
    rw [hwrapper, lines, splitInclusive_append, List.map_append]
    rfl
  have hplain : ∀ l ∈ lines (x ++ ['\n']), find marker l = none := by
    intro l hl
    refine find_eq_none_iff.mpr fun ho => ?_
    have hfull : Occurs marker (x ++ ['\n']) := occurs_iff_within.mpr ((occurs_iff_within.mp ho).trans (infix_of_mem_lines hl))
    exact not_occurs_append h (not_occurs_of_not_mem (a := 's') (by decide) (by decide))
      (not_straddles_of_first (a := '\n') rfl (by decide)) hfull
  have hclean : clean (x ++ shellWrapper) = unlines (lines (x ++ ['\n'])) := by
    rw [clean, hlines, keep_append hplain, hkeep, List.append_nil]
  calc (clean (x ++ shellWrapper)).count '\n' = (lines (x ++ ['\n'])).length := by
        rw [hclean, count_unlines fun l hl => newline_not_mem_lines hl]
    _ = x.count '\n' + 1 := by rw [lines, List.length_map, length_splitInclusive]

end Clean

/-! ### Bytes -/

section Bytes

variable {b : ByteArray} {s : String}

theorem fromUTF8_toByteArray (s : String) : String.fromUTF8? s.toByteArray = some s := by
  rw [String.fromUTF8?, dif_pos s.isValidUTF8]
  rfl

/-- A newline is no part of another character: bytes before one are UTF-8 where the whole is. -/
theorem valid_of_append {w : List Char} (h : (b ++ (String.ofList ('\n' :: w)).toByteArray).IsValidUTF8) :
    b.IsValidUTF8 := by
  have hsplit : (String.ofList ('\n' :: w)).toByteArray = "\n".toByteArray ++ (String.ofList w).toByteArray := by
    rw [← String.toByteArray_append]
    congr 1
    exact @String.ofList_append [ '\n' ] w
  have hsize : "\n".toByteArray.size = 1 := by decide
  have hbyte (hpos : 0 < "\n".toByteArray.size) : "\n".toByteArray[0] = 10 := rfl
  rw [hsplit] at h
  have hlt : b.size < (b ++ ("\n".toByteArray ++ (String.ofList w).toByteArray)).size := by
    simp only [ByteArray.size_append, hsize]
    omega
  have hget : (b ++ ("\n".toByteArray ++ (String.ofList w).toByteArray))[b.size] = 10 := by
    rw [ByteArray.getElem_append_right (Nat.le_refl _)]
    simp only [Nat.sub_self]
    rw [ByteArray.getElem_append_left (by rw [hsize]; omega)]
    exact hbyte _
  have hvalid : String.Pos.Raw.IsValid (String.ofByteArray _ h) ⟨b.size⟩ := by
    refine String.Pos.Raw.isValid_iff_isUTF8FirstByte.mpr (.inr ⟨hlt, ?_⟩)
    show ((b ++ _)[b.size]).IsUTF8FirstByte
    rw [hget]
    decide
  have hextract := (String.Pos.Raw.isValid_iff_isValidUTF8_extract_zero.mp hvalid).2
  rwa [show (String.ofByteArray _ h).toByteArray = b ++ ("\n".toByteArray ++ (String.ofList w).toByteArray) from rfl,
    ByteArray.extract_append_eq_left rfl] at hextract

theorem fromUTF8_append (h : String.fromUTF8? b = none) :
    String.fromUTF8? (b ++ (String.ofList shellWrapper).toByteArray) = none := by
  unfold String.fromUTF8? at h ⊢
  split_ifs at h with hb
  rw [dif_neg]
  rw [keep_wrapper.1]
  exact fun hv => hb (valid_of_append hv)

end Bytes

/-! ### Installed again -/

section Again

variable {zshrc : Option ByteArray}

theorem occurs_wrapper (x : List Char) : Occurs marker (x ++ shellWrapper) :=
  (occurs_unlines header_line.2.2 (List.mem_cons_of_mem _ List.mem_cons_self)).append_right x

theorem reinstall_read {s : String} (h : zshrc.bind String.fromUTF8? = some s) :
    reinstallGrepWrapper zshrc = (String.ofList (prior s.toList ++ shellWrapper)).toByteArray := by
  unfold reinstallGrepWrapper
  rw [h]

theorem reinstall_unread (h : zshrc.bind String.fromUTF8? = none) :
    reinstallGrepWrapper zshrc = zshrc.getD ByteArray.empty ++ (String.ofList shellWrapper).toByteArray := by
  unfold reinstallGrepWrapper
  rw [h]

/-- **What is there after a reinstall**: a text without the marker and a
wrapper; or, where the file was not a text, its bytes and a wrapper. -/
theorem reinstall_cases (zshrc : Option ByteArray) :
    (∃ x, ¬ Occurs marker x ∧ reinstallGrepWrapper zshrc = (String.ofList (x ++ shellWrapper)).toByteArray) ∨
    ∃ b, zshrc = some b ∧ String.fromUTF8? b = none ∧ reinstallGrepWrapper zshrc = b ++
      (String.ofList shellWrapper).toByteArray := by
  cases zshrc with
  | none =>
    refine .inl ⟨[], not_occurs_nil (by decide), ?_⟩
    rw [reinstall_unread (Option.bind_none _), Option.getD_none, ByteArray.empty_append, List.nil_append]
  | some b =>
    cases hb : String.fromUTF8? b with
    | none =>
      refine .inr ⟨b, rfl, hb, ?_⟩
      rw [reinstall_unread ((Option.bind_some ..).trans hb), Option.getD_some]
    | some s => exact .inl ⟨prior s.toList, not_occurs_prior _, reinstall_read ((Option.bind_some ..).trans hb)⟩

/-- A text with a wrapper at its end gets another blank line. -/
theorem reinstall_text (x : List Char) :
    reinstallGrepWrapper (some (String.ofList (x ++ shellWrapper)).toByteArray) =
      (String.ofList (clean (x ++ shellWrapper) ++ shellWrapper)).toByteArray := by
  have hmark : (find marker (x ++ shellWrapper)).isSome = true := by
    rw [Option.isSome_iff_ne_none]
    exact fun hn => find_eq_none_iff.mp hn (occurs_wrapper x)
  rw [reinstall_read ((Option.bind_some ..).trans (fromUTF8_toByteArray _))]
  simp only [String.toList_ofList, prior, hmark, if_true]

/-- The user's lines and complete wrappers: the lines stay, and at the end there
is one wrapper. -/
theorem reinstall_pieces {pieces : List Piece} (h : ∀ p ∈ pieces, p.Ok) :
    reinstallGrepWrapper (some (String.ofList (unlines (pieces.flatMap Piece.lines))).toByteArray) =
      (String.ofList (unlines (pieces.map Piece.left) ++ shellWrapper)).toByteArray := by
  rw [reinstall_read ((Option.bind_some ..).trans (fromUTF8_toByteArray _)), String.toList_ofList, prior_pieces h]

/-- **A second reinstall never leaves the file as it is.** -/
theorem not_idempotent (zshrc : Option ByteArray) :
    reinstallGrepWrapper (some (reinstallGrepWrapper zshrc)) ≠ reinstallGrepWrapper zshrc := by
  intro h
  rcases reinstall_cases zshrc with ⟨x, hx, he⟩ | ⟨b, -, hb, he⟩
  · rw [he, reinstall_text, String.toByteArray_inj, String.ofList_inj] at h
    have hcount := count_clean hx
    rw [List.append_cancel_right h] at hcount
    omega
  · have hnone := fromUTF8_append hb
    rw [he, reinstall_unread ((Option.bind_some ..).trans hnone), Option.getD_some] at h
    have hsize := congrArg ByteArray.size h
    rw [ByteArray.size_append, Nat.add_eq_left, String.size_toByteArray, String.utf8ByteSize_eq_zero_iff] at hsize
    have hempty := congrArg String.toList hsize
    rw [String.toList_ofList, keep_wrapper.1] at hempty
    cases hempty

end Again

/-- **No file is one into which the wrapper may safely be installed again.** -/
theorem reinstall_never_safe (zshrc : Option ByteArray) :
    ¬ ReinstallSafe zshrc := fun h => not_idempotent zshrc h.idempotent

/-- One line of the user's, and two more blank lines after two reinstalls. -/
theorem export_line : ¬ ReinstallSafe (some "export A=1\n".toByteArray) := fun h => not_idempotent _ h.idempotent

end Wrapper
end Smfs
