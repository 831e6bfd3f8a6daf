/-
# The lines of a search hit

`line_range_in_file` (`cmd/grep.rs`) says on which lines of a file a chunk of
the search index stands. Where the chunk is not in the file letter by letter,
both are looked at with runs of whitespace made one space, and a walk over the
file counts along in the collapsed text. Texts are lists of characters, and
the byte offsets of the code are positions in them.

Key definitions: `Grep.norm`, `Grep.walk`, `Grep.lineRangeInFile`, `Grep.Stands`.
Key theorems: `Grep.walk_spec`, `Grep.lineRange_correct`.
-/
import Smfs.Lib.Search

namespace Smfs
namespace Grep

open Search

/-- `char::is_whitespace`: the characters with the property `White_Space`. -/
def isWhitespace (c : Char) : Bool :=
  let n := c.toNat
  (0x9 ≤ n && n ≤ 0xD) || n = 0x20 || n = 0x85 || n = 0xA0 || n = 0x1680 || (0x2000 ≤ n && n ≤ 0x200A) ||
    n = 0x2028 || n = 0x2029 || n = 0x202F || n = 0x205F || n = 0x3000

/-- `split_whitespace`. -/
def splitWhitespace (cs : List Char) : List (List Char) := (cs.splitOnP isWhitespace).filter (· ≠ [])

/-- `s.split_whitespace().collect::<Vec<_>>().join(" ")`. -/
def norm (cs : List Char) : List Char := [' '].intercalate (splitWhitespace cs)

/-- `matches('\n').count()`. -/
def newlines (cs : List Char) : ℕ := cs.count '\n'

/-- The loop over `char_indices`: the positions in the file of the characters
at `targetStart` and `targetEnd` of the collapsed text. -/
def walk (targetStart targetEnd : ℕ) : List Char → ℕ → ℕ → Bool → Option ℕ → Option ℕ × Option ℕ
  | [], _, _, _, origStart => (origStart, none)
  | ch :: rest, i, normIdx, needSeparator, origStart =>
    if isWhitespace ch then
      walk targetStart targetEnd rest (i + 1) normIdx (if normIdx > 0 then true else needSeparator) origStart
    else
      let normIdx := if needSeparator then normIdx + 1 else normIdx
      let origStart := if normIdx = targetStart && origStart.isNone then some i else origStart
      if normIdx = targetEnd then (origStart, some i)
      else walk targetStart targetEnd rest (i + 1) (normIdx + 1) false origStart

/-- The lines of a hit that only the collapsed texts show. -/
def collapsedRange (file chunk : List Char) : Option (ℕ × ℕ) :=
  let normedFile := norm file
  let normedChunk := norm chunk
  if normedChunk.isEmpty then none
  else
    match find normedChunk normedFile with
    | none => none
    | some targetStart =>
      match walk targetStart (targetStart + normedChunk.length - 1) file 0 0 false none with
      | (some startAt, some endAt) => some (newlines (file.take startAt) + 1, newlines (file.take endAt) + 1)
      | _ => none

/-- `line_range_in_file`. -/
def lineRangeInFile (file chunk : List Char) : Option (ℕ × ℕ) :=
  if chunk.isEmpty then none
  else
    match find chunk file with
    | some pos => some (newlines (file.take pos) + 1, newlines (file.take (pos + chunk.length - 1)) + 1)
    | none => collapsedRange file chunk

/-! ### What the lines should be -/

/-- The line of the character at a position, from 1. -/
def lineOf (cs : List Char) (i : ℕ) : ℕ := newlines (cs.take i) + 1

/-- `str::lines().count()`: a last line counts without a newline too. -/
def lineCount (cs : List Char) : ℕ := newlines cs + if cs.getLast?.all (· = '\n') then 0 else 1

/-- The characters of a text that are not whitespace. -/
def letters (cs : List Char) : ℕ := cs.countP fun c => !isWhitespace c

/-- A letter stands at the position. -/
def LetterAt (cs : List Char) (i : ℕ) : Prop := ∃ c, cs[i]? = some c ∧ isWhitespace c = false

/-- The character at position `p` of the collapsed text is the one at position
`i` of the text: the same letter, counting the letters from the start. -/
def Stands (text : List Char) (p i : ℕ) : Prop :=
  LetterAt text i ∧ letters (text.take i) = letters ((norm text).take p)

def HasWord (cs : List Char) : Prop := ∃ c ∈ cs, isWhitespace c = false

/-- What the texts have to do with a hit on the lines `s` to `e`: the chunk
stands on them, or its collapsed form stands there in the collapsed text. -/
inductive HitOn (file chunk : List Char) (s e : ℕ) : Prop
  | verbatim {i : ℕ} (first : FirstAt chunk file i) (start : s = lineOf file i)
      (last : e = lineOf file (i + chunk.length - 1))
  | collapsed {p i j : ℕ} (absent : ¬ Occurs chunk file) (word : HasWord chunk) (first : FirstAt (norm chunk) (norm file) p)
      (start : Stands file p i) (last : Stands file (p + (norm chunk).length - 1) j) (hs : s = lineOf file i)
      (he : e = lineOf file j)

/-! ### The collapsed text -/

/-- The collapsed text as it grows along the text: whether a letter has come
before, and whether whitespace has come since. -/
def collapse : Bool → Bool → List Char → List Char
  | _, _, [] => []
  | seen, need, c :: cs =>
    if isWhitespace c then collapse seen (if seen then true else need) cs
    else (if need then [' '] else []) ++ c :: collapse true false cs

theorem intercalate_words (w : List Char) (ws : List (List Char)) :
    [' '].intercalate (w :: ws) = w ++ ws.flatMap fun v => ' ' :: v := by
  induction ws generalizing w with
  | nil => simp
  | cons v ws ih => simp [List.intercalate_cons_cons, ih]

theorem splitWhitespace_skip {c : Char} {cs : List Char} (hc : isWhitespace c = true) :
    splitWhitespace (c :: cs) = splitWhitespace cs := by
  simp [splitWhitespace, List.splitOnP_cons_eq_if_modifyHead, hc]

theorem splitWhitespace_letter {c : Char} {cs h : List Char} {t : List (List Char)} (hc : isWhitespace c = false)
    (hs : cs.splitOnP isWhitespace = h :: t) : splitWhitespace (c :: cs) = (c :: h) :: t.filter (· ≠ []) := by
  simp [splitWhitespace, List.splitOnP_cons_eq_if_modifyHead, hc, hs]

/-- What is still to come of the collapsed text: within a word the rest of it
and the other words, after whitespace the words, each with a space before it. -/
theorem collapse_words (cs : List Char) : (∀ h t, cs.splitOnP isWhitespace = h :: t →
      collapse true false cs = h ++ (t.filter (· ≠ [])).flatMap (fun w => ' ' :: w)) ∧
    collapse true true cs = (splitWhitespace cs).flatMap (fun w => ' ' :: w) ∧ collapse false false cs = norm cs := by
  induction cs with
  | nil =>
    refine ⟨fun h t hs => ?_, rfl, rfl⟩
    rw [List.splitOnP_nil] at hs
    cases hs
    rfl
  | cons c cs ih =>
    obtain ⟨hword, hgap, hstart⟩ := ih
    obtain ⟨h, t, hs⟩ : ∃ h t, cs.splitOnP isWhitespace = h :: t :=
      List.exists_cons_of_ne_nil (List.splitOnP_ne_nil _ _)
    cases hc : isWhitespace c with
    | true =>
      refine ⟨fun h' t' hs' => ?_, ?_, ?_⟩
      · rw [List.splitOnP_cons_eq_if_modifyHead, if_pos hc] at hs'
        cases hs'
        simpa [collapse, hc, splitWhitespace] using hgap
      · rw [splitWhitespace_skip hc]
        simpa [collapse, hc] using hgap
      · have hskip : norm (c :: cs) = norm cs := by rw [norm, splitWhitespace_skip hc, norm]
        rw [hskip]
        simpa [collapse, hc] using hstart
    | false =>
      have hrest := hword h t hs
      refine ⟨fun h' t' hs' => ?_, ?_, ?_⟩
      · rw [List.splitOnP_cons_eq_if_modifyHead, if_neg (by simp [hc]), hs, List.modifyHead_cons] at hs'
        cases hs'
        simp [collapse, hc, hrest]
      · rw [splitWhitespace_letter hc hs]
        simp [collapse, hc, hrest]
      · rw [norm, splitWhitespace_letter hc hs, intercalate_words]
        simp [collapse, hc, hrest]

theorem collapse_norm (cs : List Char) : collapse false false cs = norm cs := (collapse_words cs).2.2

/-! ### The walk -/

section Walk

variable {c : Char} {cs : List Char} {i n ts te : ℕ} {need : Bool}

theorem letterAt_succ : LetterAt (c :: cs) (i + 1) ↔ LetterAt cs i := by
  simp [LetterAt]

theorem letterAt_zero : LetterAt (c :: cs) 0 ↔ isWhitespace c = false := by
  simp [LetterAt]

theorem letters_cons : letters (c :: cs) = letters cs + if isWhitespace c then 0 else 1 := by
  unfold letters
  cases h : isWhitespace c <;> simp [h]

/-- The space before a letter, if whitespace has come since the last one. -/
def gap (need : Bool) : List Char := if need then [' '] else []

theorem letterAt_gap {r : List Char} {k : ℕ} (hl : LetterAt (gap need ++ c :: r) k) :
    k = (gap need).length ∨ ∃ m, k = (gap need).length + (m + 1) ∧ LetterAt r m := by
  cases need with
  | false =>
    cases k with
    | zero => exact .inl rfl
    | succ m => exact .inr ⟨m, (Nat.zero_add _).symm, letterAt_succ.mp hl⟩
  | true =>
    cases k with
    | zero => exact absurd (letterAt_zero.mp hl) (by decide)
    | succ k =>
      cases k with
      | zero => exact .inl rfl
      | succ m => exact .inr ⟨m, Nat.add_comm _ _, letterAt_succ.mp (letterAt_succ.mp hl)⟩

theorem letters_gap {r : List Char} : letters ((gap need ++ c :: r).take (gap need).length) = 0 := by
  cases need <;> rfl

theorem letters_past_gap {r : List Char} {m : ℕ} (hc : isWhitespace c = false) :
    letters ((gap need ++ c :: r).take ((gap need).length + (m + 1))) = letters (r.take m) + 1 := by
  rw [List.take_length_add_append, List.take_succ_cons]
  have hspace : isWhitespace ' ' = true := by decide
  cases need <;> simp [gap, letters_cons, hc, hspace]

/-- The walk stops at the letter that `targetEnd` is in the collapsed text. -/
theorem walk_end (start : Option ℕ) (hle : n ≤ te) (hl : LetterAt (collapse (decide (n > 0)) need cs) (te - n)) :
    ∃ b, (walk ts te cs i n need start).2 = some (i + b) ∧ LetterAt cs b ∧
      letters (cs.take b) = letters ((collapse (decide (n > 0)) need cs).take (te - n)) := by
  induction cs generalizing i n need start with
  | nil =>
    obtain ⟨c, hc, -⟩ := hl
    cases hc
  | cons c cs ih =>
    unfold walk
    unfold collapse at hl ⊢
    cases hc : isWhitespace c with
    | true =>
      have hneed : (if n > 0 then true else need) = if decide (n > 0) = true then true else need := by simp
      rw [hc, if_pos rfl, ← hneed] at hl
      obtain ⟨b, hb, hlet, hcount⟩ := ih (i := i + 1) start hle hl
      refine ⟨b + 1, ?_, letterAt_succ.mpr hlet, ?_⟩
      · rw [if_pos rfl, hb]
        congr 1
        omega
      · rw [if_pos rfl, ← hneed, ← hcount, List.take_succ_cons, letters_cons, hc]
        rfl
    | false =>
      have hnext : (if need = true then n + 1 else n) = n + (gap need).length := by cases need <;> rfl
      have hseen : decide (n + (gap need).length + 1 > 0) = true := decide_eq_true (Nat.succ_pos _)
      rw [hc, if_neg Bool.false_ne_true, ← gap] at hl
      rw [if_neg Bool.false_ne_true, if_neg Bool.false_ne_true, hnext, ← gap]
      dsimp only
      rcases letterAt_gap hl with hk | ⟨m, hk, hm⟩
      · refine ⟨0, ?_, letterAt_zero.mpr hc, ?_⟩
        · rw [if_pos (by omega)]
          rfl
        · rw [hk, letters_gap]
          rfl
      · have hstep : te - (n + (gap need).length + 1) = m := by omega
        rw [if_neg (by omega), hk, letters_past_gap hc]
        rw [← hseen, ← hstep] at hm
        obtain ⟨b, hb, hlet, hcount⟩ := ih (i := i + 1) _ (by omega) hm
        refine ⟨b + 1, ?_, letterAt_succ.mpr hlet, ?_⟩
        · rw [hb]
          congr 1
          omega
        · rw [hseen, hstep] at hcount
          rw [← hcount, List.take_succ_cons, letters_cons, hc]
          rfl

/-- A start that is found is kept. -/
theorem walk_kept (a : ℕ) : (walk ts te cs i n need (some a)).1 = some a := by
  induction cs generalizing i n need with
  | nil => rfl
  | cons c cs ih =>
    unfold walk
    simp only [Option.isNone_some, Bool.and_false, Bool.false_eq_true, if_false]
    split_ifs
    all_goals first | rfl | exact ih

/-- The walk finds the letter that `targetStart` is in the collapsed text. -/
theorem walk_start (hle : n ≤ ts) (hte : ts ≤ te) (hl : LetterAt (collapse (decide (n > 0)) need cs) (ts - n)) :
    ∃ a, (walk ts te cs i n need none).1 = some (i + a) ∧ LetterAt cs a ∧
      letters (cs.take a) = letters ((collapse (decide (n > 0)) need cs).take (ts - n)) := by
  induction cs generalizing i n need with
  | nil =>
    obtain ⟨c, hc, -⟩ := hl
    cases hc
  | cons c cs ih =>
    unfold walk
    unfold collapse at hl ⊢
    cases hc : isWhitespace c with
    | true =>
      have hneed : (if n > 0 then true else need) = if decide (n > 0) = true then true else need := by simp
      rw [hc, if_pos rfl, ← hneed] at hl
      obtain ⟨a, ha, hlet, hcount⟩ := ih (i := i + 1) hle hl
      refine ⟨a + 1, ?_, letterAt_succ.mpr hlet, ?_⟩
      · rw [if_pos rfl, ha]
        congr 1
        omega
      · rw [if_pos rfl, ← hneed, ← hcount, List.take_succ_cons, letters_cons, hc]
        rfl
    | false =>
      have hnext : (if need = true then n + 1 else n) = n + (gap need).length := by cases need <;> rfl
      have hseen : decide (n + (gap need).length + 1 > 0) = true := decide_eq_true (Nat.succ_pos _)
      rw [hc, if_neg Bool.false_ne_true, ← gap] at hl
      rw [if_neg Bool.false_ne_true, if_neg Bool.false_ne_true, hnext, ← gap]
      dsimp only
      rcases letterAt_gap hl with hk | ⟨m, hk, hm⟩
      · have hts : n + (gap need).length = ts := by omega
        refine ⟨0, ?_, letterAt_zero.mpr hc, ?_⟩
        · simp only [hts, decide_true, Option.isNone_none, Bool.and_self, if_true]
          split_ifs
          · rfl
          · exact walk_kept i
        · rw [hk, letters_gap]
          rfl
      · have hstep : ts - (n + (gap need).length + 1) = m := by omega
        have hts : decide (n + (gap need).length = ts) = false := decide_eq_false (by omega)
        rw [if_neg (by omega), hts, if_neg (by simp), hk, letters_past_gap hc]
        rw [← hseen, ← hstep] at hm
        obtain ⟨a, ha, hlet, hcount⟩ := ih (i := i + 1) (by omega) hm
        refine ⟨a + 1, ?_, letterAt_succ.mpr hlet, ?_⟩
        · rw [ha]
          congr 1
          omega
        · rw [hseen, hstep] at hcount
          rw [← hcount, List.take_succ_cons, letters_cons, hc]
          rfl

/-- **The walk over the file finds the letters that stand in the collapsed
text where the match starts and ends.** -/
theorem walk_spec {file : List Char} (h : ts ≤ te) (hs : LetterAt (norm file) ts) (he : LetterAt (norm file) te) :
    ∃ a b, walk ts te file 0 0 false none = (some a, some b) ∧ Stands file ts a ∧ Stands file te b := by
  rw [← collapse_norm] at hs he
  obtain ⟨a, ha, hla, hca⟩ := @walk_start file 0 0 ts te false (Nat.zero_le ts) h hs
  obtain ⟨b, hb, hlb, hcb⟩ := @walk_end file 0 0 ts te false none (Nat.zero_le te) he
  refine ⟨a, b, ?_, ⟨hla, ?_⟩, ⟨hlb, ?_⟩⟩
  · rw [Nat.zero_add] at ha hb
    exact Prod.ext ha hb
  · rw [hca, ← collapse_norm]
    rfl
  · rw [hcb, ← collapse_norm]
    rfl

end Walk

/-! ### Ends of the collapsed text -/

section Ends

variable {text : List Char} {i j p q : ℕ}

theorem norm_ne_nil : norm text ≠ [] ↔ HasWord text := by
  rw [← collapse_norm]
  unfold HasWord
  induction text with
  | nil => simp [collapse]
  | cons c cs ih => cases hc : isWhitespace c <;> simp [collapse, hc, ih]

theorem norm_head (h : HasWord text) : LetterAt (norm text) 0 := by
  rw [← collapse_norm]
  unfold HasWord at h
  induction text with
  | nil => simp at h
  | cons c cs ih =>
    cases hc : isWhitespace c with
    | true =>
      rw [collapse, if_pos hc]
      exact ih (by simpa [hc] using h)
    | false =>
      rw [collapse, if_neg (by simp [hc])]
      exact letterAt_zero.mpr hc

theorem collapse_last (seen need : Bool) (cs : List Char) :
    ∀ c ∈ (collapse seen need cs).getLast?, isWhitespace c = false := by
  induction cs generalizing seen need with
  | nil => simp [collapse]
  | cons c cs ih =>
    cases hc : isWhitespace c with
    | true =>
      rw [collapse, if_pos hc]
      exact ih _ _
    | false =>
      rw [collapse, if_neg (by simp [hc]), List.getLast?_append_of_ne_nil _ (List.cons_ne_nil _ _), List.getLast?_cons]
      rintro d ⟨⟩
      cases hl : (collapse true false cs).getLast? with
      | none => exact hc
      | some e => exact ih true false e hl

theorem norm_last (h : HasWord text) : LetterAt (norm text) ((norm text).length - 1) := by
  have hlast := collapse_last false false text
  rw [collapse_norm, List.getLast?_eq_getElem?] at hlast
  have hne := norm_ne_nil.mpr h
  have hlt : (norm text).length - 1 < (norm text).length := Nat.sub_lt (List.length_pos_iff.mpr hne) Nat.one_pos
  exact ⟨_, List.getElem?_eq_getElem hlt, hlast _ (List.getElem?_eq_getElem hlt)⟩

theorem letterAt_of_occurs {pat : List Char} {k : ℕ} (ho : OccursAt pat text i) (hl : LetterAt pat k) :
    LetterAt text (i + k) := by
  obtain ⟨c, hc, hw⟩ := hl
  refine ⟨c, ?_, hw⟩
  rw [ho.getElem (List.getElem?_eq_some_iff.mp hc).1, hc]

/-! ### Lines -/

theorem letters_mono (h : i ≤ j) : letters (text.take i) ≤ letters (text.take j) := by
  have hsub : (text.take i).Sublist (text.take j) := (List.take_prefix_take_left h).sublist
  exact hsub.countP_le

theorem letters_lt (hl : LetterAt text i) (h : i < j) : letters (text.take i) < letters (text.take j) := by
  obtain ⟨c, hc, hw⟩ := hl
  have hstep : letters (text.take (i + 1)) = letters (text.take i) + 1 := by
    rw [List.take_add_one, hc]
    simp [letters, hw]
  have hle : letters (text.take (i + 1)) ≤ letters (text.take j) := letters_mono h
  omega

/-- Letters of the collapsed text are in the order of the letters of the text. -/
theorem Stands.le (hi : Stands text p i) (hj : Stands text q j) (h : p ≤ q) : i ≤ j := by
  by_contra hlt
  have hless := letters_lt hj.1 (not_le.mp hlt)
  have hle : letters ((norm text).take p) ≤ letters ((norm text).take q) := letters_mono h
  rw [hi.2, hj.2] at hless
  omega

theorem Stands.unique (hi : Stands text p i) (hj : Stands text p j) : i = j :=
  le_antisymm (hi.le hj le_rfl) (hj.le hi le_rfl)

theorem lineOf_mono (h : i ≤ j) : lineOf text i ≤ lineOf text j := by
  have hsub : (text.take i).Sublist (text.take j) := (List.take_prefix_take_left h).sublist
  exact Nat.succ_le_succ (hsub.count_le '\n')

theorem lineOf_le (h : i < text.length) : lineOf text i ≤ lineCount text := by
  obtain ⟨init, last, rfl⟩ : ∃ init last, text = init ++ [last] := by
    obtain ⟨a, l, rfl⟩ := List.exists_cons_of_length_pos (Nat.zero_lt_of_lt h)
    exact ⟨_, _, (List.dropLast_append_getLast (List.cons_ne_nil a l)).symm⟩
  have hle : i ≤ init.length := by
    rw [List.length_append, List.length_singleton] at h
    omega
  have hcount : newlines (init.take i) ≤ newlines init := (List.take_sublist i init).count_le '\n'
  unfold lineOf lineCount
  rw [List.take_append_of_le_length hle]
  unfold newlines at hcount ⊢
  by_cases hl : last = '\n'
  · simp [hl]
    omega
  · simp [hl]
    omega

end Ends

/-! ### The function -/

section Range

variable {file chunk : List Char} {s e : ℕ}

theorem collapsedRange_some (hw : HasWord chunk) {p : ℕ} (hp : FirstAt (norm chunk) (norm file) p) :
    ∃ i j, collapsedRange file chunk = some (lineOf file i, lineOf file j) ∧ Stands file p i ∧
      Stands file (p + (norm chunk).length - 1) j := by
  have hne := norm_ne_nil.mpr hw
  have hpos : 0 < (norm chunk).length := List.length_pos_iff.mpr hne
  have hfirst : LetterAt (norm file) p := letterAt_of_occurs hp.1 (norm_head hw)
  have hlast : LetterAt (norm file) (p + (norm chunk).length - 1) := by
    rw [Nat.add_sub_assoc hpos]
    exact letterAt_of_occurs hp.1 (norm_last hw)
  obtain ⟨i, j, hwalk, hi, hj⟩ := walk_spec (by omega) hfirst hlast
  refine ⟨i, j, ?_, hi, hj⟩
  unfold collapsedRange
  rw [if_neg (by simpa using hne), find_eq_some_iff.mpr hp]
  dsimp only
  rw [hwalk]
  rfl

theorem collapsedRange_none (h : ¬ (HasWord chunk ∧ Occurs (norm chunk) (norm file))) :
    collapsedRange file chunk = none := by
  unfold collapsedRange
  by_cases hw : HasWord chunk
  · have hno : ¬ Occurs (norm chunk) (norm file) := fun ho => h ⟨hw, ho⟩
    rw [if_neg (by simpa using norm_ne_nil.mpr hw), find_eq_none_iff.mpr hno]
  · rw [if_pos]
    simpa using not_not.mp (mt norm_ne_nil.mp hw)

/-- The result is the one pair of lines that the chunk is on. -/
theorem lineRange_iff (hne : chunk ≠ []) : lineRangeInFile file chunk = some (s, e) ↔ HitOn file chunk s e := by
  unfold lineRangeInFile
  rw [if_neg (by simpa using hne)]
  cases hf : find chunk file with
  | some i =>
    have hi := find_eq_some_iff.mp hf
    constructor
    · rintro ⟨⟩
      exact .verbatim hi rfl rfl
    · rintro (⟨hj, rfl, rfl⟩ | ⟨absent, -, -, -, -, -, -⟩)
      · have hsame := find_eq_some_iff.mpr hj
        rw [hf] at hsame
        cases hsame
        rfl
      · exact absurd ⟨i, hi.1⟩ absent
  | none =>
    have habsent := find_eq_none_iff.mp hf
    dsimp only
    constructor
    · intro h
      by_cases hw : HasWord chunk ∧ Occurs (norm chunk) (norm file)
      · obtain ⟨hw, ho⟩ := hw
        obtain ⟨p, hp⟩ : ∃ p, FirstAt (norm chunk) (norm file) p := by
          cases hn : find (norm chunk) (norm file) with
          | some p => exact ⟨p, find_eq_some_iff.mp hn⟩
          | none => exact absurd ho (find_eq_none_iff.mp hn)
        obtain ⟨i, j, hr, hi, hj⟩ := collapsedRange_some hw hp
        rw [hr] at h
        cases h
        exact .collapsed habsent hw hp hi hj rfl rfl
      · rw [collapsedRange_none hw] at h
        cases h
    · rintro (⟨hj, -, -⟩ | ⟨-, hw, hp, hi, hj, rfl, rfl⟩)
      · exact absurd ⟨_, hj.1⟩ habsent
      · obtain ⟨i', j', hr, hi', hj'⟩ := collapsedRange_some hw hp
        rw [hr, hi.unique hi', hj.unique hj']

theorem hitOn_bounds (h : HitOn file chunk s e) (hne : chunk ≠ []) : 1 ≤ s ∧ s ≤ e ∧ e ≤ lineCount file := by
  have hpos : 0 < chunk.length := List.length_pos_iff.mpr hne
  rcases h with ⟨hi, rfl, rfl⟩ | ⟨-, hw, hp, hi, hj, rfl, rfl⟩
  · have hle := hi.1.le
    exact ⟨Nat.le_add_left _ _, lineOf_mono (by omega), lineOf_le (by omega)⟩
  · obtain ⟨c, hc, -⟩ := hj.1
    exact ⟨Nat.le_add_left _ _, lineOf_mono (hi.le hj (by
      have hlen : 0 < (norm chunk).length := List.length_pos_iff.mpr (norm_ne_nil.mpr hw)
      omega)), lineOf_le (List.getElem?_eq_some_iff.mp hc).1⟩

/-- **The lines of a search hit are right.** There is a result just where the
chunk stands in the file, or its collapsed form in the collapsed file; the
result is the lines of the first and the last character of the first such
place, and these are lines of the file. -/
theorem lineRange_correct (file chunk : List Char) : ((lineRangeInFile file chunk).isSome = true ↔
      chunk ≠ [] ∧ (Occurs chunk file ∨ HasWord chunk ∧ Occurs (norm chunk) (norm file))) ∧
    ∀ s e, (lineRangeInFile file chunk = some (s, e) ↔ chunk ≠ [] ∧ HitOn file chunk s e) ∧
      (lineRangeInFile file chunk = some (s, e) → 1 ≤ s ∧ s ≤ e ∧ e ≤ lineCount file) := by
  have hempty : lineRangeInFile file [] = none := rfl
  have hresult (s e : ℕ) : lineRangeInFile file chunk = some (s, e) ↔ chunk ≠ [] ∧ HitOn file chunk s e := by
    by_cases hne : chunk = []
    · subst hne
      rw [hempty]
      simp
    · simp [hne, lineRange_iff hne]
  refine ⟨⟨fun h => ?_, ?_⟩, fun s e => ⟨hresult s e, fun h => ?_⟩⟩
  · obtain ⟨⟨s, e⟩, hr⟩ := Option.isSome_iff_exists.mp h
    obtain ⟨hne, hit⟩ := (hresult s e).mp hr
    refine ⟨hne, ?_⟩
    rcases hit with ⟨hi, -, -⟩ | ⟨-, hw, hp, -, -, -, -⟩
    · exact .inl ⟨_, hi.1⟩
    · exact .inr ⟨hw, _, hp.1⟩
  · rintro ⟨hne, ho⟩
    unfold lineRangeInFile
    rw [if_neg (by simpa using hne)]
    cases hf : find chunk file with
    | some i => rfl
    | none =>
      obtain ⟨hw, ho⟩ := ho.resolve_left (find_eq_none_iff.mp hf)
      cases hn : find (norm chunk) (norm file) with
      | none => exact absurd ho (find_eq_none_iff.mp hn)
      | some p =>
        obtain ⟨i, j, hr, -, -⟩ := collapsedRange_some hw (find_eq_some_iff.mp hn)
        dsimp only
        rw [hr]
        rfl
  · obtain ⟨hne, hit⟩ := (hresult s e).mp h
    exact hitOn_bounds hit hne

example : lineRangeInFile "abc\n\ndef\n".toList "abc def".toList = some (1, 3) := by decide

end Range

end Grep
end Smfs
