/-
# The paths of the Python client

`check_filepath` of `_filepath.py` is `checkFilepath` with the lengths of
Python: a JavaScript string is as long as its UTF-16 encoding, a Python string
as it has characters, and the limits are called numbers of bytes. The pattern
of a basename is one, read over code units or over characters
(`validBasename_iff_js`, `validBasename_iff_py`), so the two verdicts differ
by the lengths alone.

Key definitions: `basenameRe`, `Py.checkFilepath`, `WellFormedPath`, `SameVerdict`, `LengthsAgree`.
Key theorems: `validBasename_iff_js`, `validBasename_iff_py`, `sameVerdict_iff`.
-/
import Mathlib.Data.List.Infix
import Smfs.Lib.Regex
import Smfs.Bash.Filepath

namespace Smfs.Bash

open Regex

/-! ### The pattern of a basename -/

/-- `^\.?[^/]*\.[^/.]+$`, without its anchors. -/
def basenameRe {α : Type} [DecidableEq α] (dot slash : α) : Re α :=
  .seq (.opt (.cls (· = dot))) <| .seq (.star (.cls (· ≠ slash))) <| .seq (.cls (· = dot)) <|
    .plus (.cls fun a => a ≠ slash && a ≠ dot)

/-- `_VALID_BASENAME.match`, where `$` also stands before a last newline. -/
def Py.validBasename (name : String) : Bool :=
  Bash.validBasename name || (name.toList.getLast? = some '\n' && Bash.validBasename (String.ofList name.toList.dropLast))

section Pattern

variable {α : Type} [DecidableEq α] {dot slash : α} {w : List α} {name : String}

omit [DecidableEq α] in
/-- A word with a symbol, up to the last one and after it. -/
theorem exists_last_of_mem {a : α} (h : a ∈ w) : ∃ x y, w = x ++ a :: y ∧ a ∉ y := by
  obtain ⟨y, x, he, hy⟩ := List.eq_append_cons_of_mem (List.mem_reverse.mpr h)
  refine ⟨x.reverse, y.reverse, ?_, by simpa using hy⟩
  simpa using congrArg List.reverse he

/-- A word that has a dot, does not end in one, and has no slash. -/
theorem matches_basenameRe (hne : dot ≠ slash) :
    Matches (basenameRe dot slash) w ↔ slash ∉ w ∧ dot ∈ w ∧ w.getLast? ≠ some dot := by
  simp only [basenameRe, matches_seq, matches_opt, matches_cls, matches_star_cls, matches_plus_cls]
  constructor
  · rintro ⟨x, rest, rfl, hx, y, rest, rfl, hy, z, ext, rfl, ⟨d, rfl, hd⟩, hext, hall⟩
    obtain rfl : d = dot := by simpa using hd
    have hslash : ∀ a ∈ ext, a ≠ slash ∧ a ≠ d := fun a ha => by simpa using hall a ha
    have hfirst : slash ∉ x := by
      rcases hx with rfl | ⟨a, rfl, ha⟩
      · exact List.not_mem_nil
      · obtain rfl : a = d := by simpa using ha
        simpa using hne.symm
    refine ⟨?_, by simp, ?_⟩
    · simp only [List.mem_append, List.mem_singleton, not_or]
      exact ⟨hfirst, fun hm => by simpa using hy slash hm, hne.symm, fun hm => (hslash slash hm).1 rfl⟩
    · rw [List.getLast?_append_of_ne_nil _ (by simp), List.getLast?_append_of_ne_nil _ (by simp),
        List.getLast?_append_of_ne_nil _ hext, List.getLast?_eq_some_getLast hext]
      exact fun he => (hslash _ (List.getLast_mem hext)).2 (Option.some.inj he)
  · rintro ⟨hslash, hdot, hlast⟩
    obtain ⟨x, y, rfl, hy⟩ := exists_last_of_mem hdot
    have hext : y ≠ [] := by
      rintro rfl
      exact hlast (by simp)
    simp only [List.mem_append, List.mem_cons, not_or] at hslash
    refine ⟨[], x ++ dot :: y, rfl, .inl rfl, x, dot :: y, rfl, fun a ha => ?_, [dot], y, rfl, ⟨dot, rfl, by simp⟩,
      hext, fun a ha => ?_⟩
    · have : a ≠ slash := fun he => hslash.1 (he ▸ ha)
      simpa using this
    · have h1 : a ≠ slash := fun he => hslash.2.2 (he ▸ ha)
      have h2 : a ≠ dot := fun he => hy (he ▸ ha)
      simpa using ⟨h1, h2⟩

/-- Something follows the last dot, unless that is the last symbol. -/
theorem afterLastDot_ne_nil (cs : List Char) : cs.reverse.takeWhile (· ≠ '.') ≠ [] ↔ cs ≠ [] ∧
    cs.getLast? ≠ some '.' := by
  obtain ⟨ds, rfl⟩ : ∃ ds, cs = ds.reverse := ⟨cs.reverse, (List.reverse_reverse cs).symm⟩
  rw [List.reverse_reverse, List.getLast?_reverse]
  cases ds with
  | nil => simp
  | cons d ds => simp [List.takeWhile_cons]

theorem validBasename_iff : validBasename name = true ↔
    '/' ∉ name.toList ∧ '.' ∈ name.toList ∧ name.toList.getLast? ≠ some '.' := by
  unfold validBasename
  simp only [Bool.and_eq_true, decide_eq_true_eq, afterLastDot_ne_nil, List.contains_iff_mem, List.all_eq_true]
  constructor
  · rintro ⟨⟨hdot, hall⟩, -, hend⟩
    exact ⟨fun hm => hall '/' hm rfl, hdot, hend⟩
  · rintro ⟨hslash, hdot, hend⟩
    exact ⟨⟨hdot, fun c hc he => hslash (he ▸ hc)⟩, List.ne_nil_of_mem hdot, hend⟩

/-- The code units of a string. -/
def units (s : String) : List ℕ := s.toList.flatMap codeUnits

/-- A code unit below the surrogates is a character. -/
theorem mem_codeUnits {c d : Char} (hd : d.toNat < 0x80) : d.toNat ∈ codeUnits c ↔ c = d := by
  unfold codeUnits
  have hinj : c.toNat = d.toNat ↔ c = d := by
    constructor
    · intro h
      exact Char.ext (UInt32.toNat_inj.mp h)
    · exact fun h => congrArg Char.toNat h
  split_ifs with hc
  · rw [List.mem_singleton, eq_comm, hinj]
  · constructor
    · intro h
      simp only [List.mem_cons, List.not_mem_nil, or_false] at h
      omega
    · rintro rfl
      omega

theorem mem_units {s : String} {d : Char} (hd : d.toNat < 0x80) : d.toNat ∈ units s ↔ d ∈ s.toList := by
  simp only [units, List.mem_flatMap, mem_codeUnits hd]
  simp

theorem codeUnits_ne_nil (c : Char) : codeUnits c ≠ [] := by
  unfold codeUnits
  split_ifs <;> exact List.cons_ne_nil _ _

theorem getLast_units {s : String} {d : Char} (hd : d.toNat < 0x80) :
    (units s).getLast? = some d.toNat ↔ s.toList.getLast? = some d := by
  unfold units
  rcases List.eq_nil_or_concat s.toList with he | ⟨cs, c, he⟩
  · simp [he]
  · rw [he, List.concat_eq_append, List.flatMap_append, List.flatMap_singleton,
      List.getLast?_append_of_ne_nil _ (codeUnits_ne_nil c),
      List.getLast?_concat, Option.some.injEq, ← mem_codeUnits hd]
    unfold codeUnits
    split_ifs with hc
    · simp [eq_comm]
    · simp only [List.getLast?_cons_cons, List.getLast?_singleton, Option.some.injEq, List.mem_cons,
        List.not_mem_nil, or_false]
      omega

/-- **`VALID_BASENAME.test`**, over code units. -/
theorem validBasename_iff_js : validBasename name = true ↔ Matches (basenameRe '.'.toNat '/'.toNat) (units name) := by
  rw [matches_basenameRe (by decide), validBasename_iff, mem_units (by decide), mem_units (by decide)]
  exact and_congr_right fun _ => and_congr_right fun _ => not_congr (getLast_units (by decide)).symm

/-- **`_VALID_BASENAME.match`**, over characters. -/
theorem validBasename_iff_py : Py.validBasename name = true ↔ MatchesLine '\n' (basenameRe '.' '/') name.toList := by
  have hword : ∀ cs, Matches (basenameRe '.' '/') cs ↔ validBasename (String.ofList cs) = true := by
    intro cs
    rw [matches_basenameRe (by decide), validBasename_iff, String.toList_ofList]
  have hline : name.toList.getLast? = some '\n' ↔ ∃ cs, name.toList = cs ++ ['\n'] := List.getLast?_eq_some_iff
  unfold Py.validBasename MatchesLine
  simp only [Bool.or_eq_true, Bool.and_eq_true, decide_eq_true_eq, hword, String.ofList_toList, hline]
  constructor
  · rintro (h | ⟨⟨cs, hcs⟩, h⟩)
    · exact .inl h
    · rw [hcs, List.dropLast_concat] at h
      exact .inr ⟨cs, hcs, h⟩
  · rintro (h | ⟨cs, hcs, h⟩)
    · exact .inl h
    · refine .inr ⟨⟨cs, hcs⟩, ?_⟩
      rwa [hcs, List.dropLast_concat]

/-- Without a last newline the two patterns accept the same. -/
theorem py_validBasename_eq (h : ∀ c ∈ name.toList, isControlChar c = false) :
    Py.validBasename name = validBasename name := by
  have hline : name.toList.getLast? ≠ some '\n' := fun he => absurd (h '\n' (List.mem_of_getLast? he)) (by decide)
  simp [Py.validBasename, hline]

end Pattern

/-! ### The verdict -/

/-- **`check_filepath`.** -/
def Py.checkFilepath (value : String) : Option FilepathRejection :=
  if value.length = 0 then some .empty
  else if value.length > filepathMaxBytes then some .tooLong
  else if !startsWith value "/" then some .notAbsolute
  else if value.toList.any isControlChar then some .controlChar
  else if hasDoubleSlash value then some .doubleSlash
  else match basename value with
    | none => some .emptyLeaf
    | some "" => some .emptyLeaf
    | some name =>
      if name.length > basenameMaxBytes then some .basenameTooLong
      else if !Py.validBasename name then some .missingExtension
      else none

/-- A path that both clients may give to the server. -/
structure WellFormedPath (value : String) : Prop where
  absolute : startsWith value "/" = true
  components : ∀ seg ∈ ((value.toList.splitOn '/').drop 1).dropLast, seg ≠ []
  leaf : ∃ name stem ext, basename value = some name ∧ name.toList = stem ++ '.' :: ext ∧ ext ≠ [] ∧ '.' ∉ ext ∧
    name.utf8ByteSize ≤ basenameMaxBytes
  bytes : value.utf8ByteSize ≤ filepathMaxBytes

/-- The two clients agree on a path, and accept it only if it is well formed. -/
def SameVerdict (value : String) : Prop :=
  checkFilepath value = Py.checkFilepath value ∧ (checkFilepath value = none → WellFormedPath value)

/-- What both clients look at before the basename. -/
def Shaped (value : String) : Prop :=
  startsWith value "/" = true ∧ value.toList.any isControlChar = false ∧ hasDoubleSlash value = false

/-- The lengths in code units, characters and bytes lie on one side of the
limits, where it comes to them. -/
structure LengthsAgree (value : String) : Prop where
  path : utf16Length value ≤ filepathMaxBytes ∨ filepathMaxBytes < value.length
  name : utf16Length value ≤ filepathMaxBytes → Shaped value → ∀ name, basename value = some name → name ≠ "" →
    (utf16Length name ≤ basenameMaxBytes ∨ basenameMaxBytes < name.length) ∧
      (utf16Length name ≤ basenameMaxBytes → validBasename name = true →
        name.utf8ByteSize ≤ basenameMaxBytes ∧ value.utf8ByteSize ≤ filepathMaxBytes)

variable {value name : String}

theorem length_le_utf16Length (s : String) : s.length ≤ utf16Length s := by
  rw [← String.length_toList, utf16Length]
  induction s.toList with
  | nil => exact Nat.zero_le _
  | cons c cs ih =>
    have hpos := List.length_pos_iff.mpr (codeUnits_ne_nil c)
    rw [List.flatMap_cons, List.length_append, List.length_cons]
    omega

/-- The verdict on the basename of a shaped path. -/
theorem checkFilepath_shaped (hne : value ≠ "") (hlen : utf16Length value ≤ filepathMaxBytes) (h : Shaped value)
    (hbase : basename value = some name) (hname : name ≠ "") :
    checkFilepath value = if utf16Length name > basenameMaxBytes then some .basenameTooLong
      else if !validBasename name then some .missingExtension else none := by
  simp only [checkFilepath, if_neg hne, if_neg (Nat.not_lt.mpr hlen), h.1, h.2.1, h.2.2, hbase, Bool.not_true,
    if_neg Bool.false_ne_true]

theorem Py.checkFilepath_shaped (hne : value ≠ "") (hlen : value.length ≤ filepathMaxBytes) (h : Shaped value)
    (hbase : basename value = some name) (hname : name ≠ "") :
    Py.checkFilepath value = if name.length > basenameMaxBytes then some .basenameTooLong
      else if !Py.validBasename name then some .missingExtension else none := by
  have hpos : value.length ≠ 0 := by simpa using hne
  simp only [Py.checkFilepath, if_neg hpos, if_neg (Nat.not_lt.mpr hlen), h.1, h.2.1, h.2.2, hbase, Bool.not_true,
    if_neg Bool.false_ne_true]

/-- A path without the shape, or without a basename, gets one verdict. -/
theorem checkFilepath_unshaped (hne : value ≠ "") (hlen : utf16Length value ≤ filepathMaxBytes)
    (h : ¬ Shaped value ∨ ∀ name, basename value = some name → name = "") :
    ∃ r, checkFilepath value = some r ∧ Py.checkFilepath value = some r := by
  have hpos : value.length ≠ 0 := by simpa using hne
  have hshort := (length_le_utf16Length value).trans hlen
  simp only [checkFilepath, Py.checkFilepath, if_neg hne, if_neg hpos, if_neg (Nat.not_lt.mpr hlen),
    if_neg (Nat.not_lt.mpr hshort)]
  split_ifs with habs hctl hslash
  · exact ⟨_, rfl, rfl⟩
  · exact ⟨_, rfl, rfl⟩
  · exact ⟨_, rfl, rfl⟩
  · have hbase := h.resolve_left (not_not_intro ⟨by simpa using habs, by simpa using hctl, by simpa using hslash⟩)
    cases hb : basename value with
    | none => exact ⟨_, rfl, rfl⟩
    | some name =>
      obtain rfl := hbase name hb
      exact ⟨_, rfl, rfl⟩

theorem Py.checkFilepath_ne_tooLong (h : value.length ≤ filepathMaxBytes) : Py.checkFilepath value ≠ some .tooLong := by
  simp only [Py.checkFilepath, if_neg (Nat.not_lt.mpr h)]
  split_ifs
  · exact fun he => (nomatch he)
  · exact fun he => (nomatch he)
  · exact fun he => (nomatch he)
  · exact fun he => (nomatch he)
  · split
    · exact fun he => (nomatch he)
    · exact fun he => (nomatch he)
    · split_ifs <;> exact fun he => (nomatch he)

/-- No component but the last is empty where no two slashes meet. -/
theorem components_ne_nil {cs : List Char} (h : cs.tails.any (['/', '/'].isPrefixOf ·) = false) :
    ∀ seg ∈ ((cs.splitOn '/').drop 1).dropLast, seg ≠ [] := by
  induction cs with
  | nil => simp
  | cons c cs ih =>
    rw [List.tails, List.any_cons, Bool.or_eq_false_iff] at h
    have ih := ih h.2
    rw [List.splitOn_cons_eq_if_modifyHead]
    split_ifs with hc
    · rw [List.drop_one, List.tail_cons]
      cases cs with
      | nil => simp
      | cons d ds =>
        -- the component after this slash is empty only if a slash follows
        have hd : (d == '/') = false := by
          rw [beq_eq_false_iff_ne]
          rintro rfl
          have hpre := h.1
          rw [eq_of_beq hc] at hpre
          simp [List.isPrefixOf] at hpre
        rw [List.splitOn_cons_eq_if_modifyHead, if_neg (by rw [hd]; exact Bool.false_ne_true)] at ih ⊢
        obtain ⟨x, xs, hx⟩ := List.exists_cons_of_ne_nil (List.splitOn_ne_nil '/' ds)
        rw [hx, List.modifyHead_cons] at ih ⊢
        intro seg hseg
        cases xs with
        | nil => simp at hseg
        | cons y ys =>
          rw [List.dropLast_cons_of_ne_nil (List.cons_ne_nil y ys)] at hseg
          rcases List.mem_cons.mp hseg with rfl | hseg
          · exact List.cons_ne_nil _ _
          · exact ih seg hseg
    · cases hs : cs.splitOn '/' with
      | nil => simp
      | cons x xs =>
        rw [hs] at ih
        exact ih

theorem mem_of_mem_splitOn {c d : Char} {cs l : List Char} (hl : l ∈ cs.splitOn d) (hc : c ∈ l) : c ∈ cs := by
  induction cs generalizing l with
  | nil =>
    rw [List.splitOn_nil, List.mem_singleton] at hl
    exact absurd hc (hl ▸ List.not_mem_nil)
  | cons x xs ih =>
    rw [List.splitOn_cons_eq_if_modifyHead] at hl
    split_ifs at hl
    · rcases List.mem_cons.mp hl with rfl | hl
      · exact absurd hc List.not_mem_nil
      · exact List.mem_cons_of_mem x (ih hl hc)
    · obtain ⟨y, ys, hs⟩ := List.exists_cons_of_ne_nil (List.splitOn_ne_nil d xs)
      rw [hs] at ih hl
      rcases List.mem_cons.mp hl with rfl | hl
      · rcases List.mem_cons.mp hc with rfl | hc
        · exact List.mem_cons_self
        · exact List.mem_cons_of_mem x (ih List.mem_cons_self hc)
      · exact List.mem_cons_of_mem x (ih (List.mem_cons_of_mem y hl) hc)

theorem mem_of_mem_basename {c : Char} (hb : basename value = some name) (hc : c ∈ name.toList) : c ∈ value.toList := by
  obtain ⟨l, hl, rfl⟩ := Option.map_eq_some_iff.mp hb
  rw [String.toList_ofList] at hc
  exact mem_of_mem_splitOn (List.mem_of_mem_drop (List.mem_of_getLast? hl)) hc

/-- A basename that the pattern accepts has an extension. -/
theorem extension_of_validBasename (h : validBasename name = true) :
    ∃ stem ext, name.toList = stem ++ '.' :: ext ∧ ext ≠ [] ∧ '.' ∉ ext := by
  obtain ⟨-, hdot, hlast⟩ := validBasename_iff.mp h
  obtain ⟨stem, ext, hsplit, hext⟩ : ∃ stem ext, name.toList = stem ++ '.' :: ext ∧ '.' ∉ ext := exists_last_of_mem hdot
  refine ⟨stem, ext, hsplit, ?_, hext⟩
  rintro rfl
  exact hlast (by simp [hsplit])

theorem WellFormedPath.of_shaped (h : Shaped value) (hbase : basename value = some name)
    (hvalid : validBasename name = true) :
    WellFormedPath value ↔ name.utf8ByteSize ≤ basenameMaxBytes ∧ value.utf8ByteSize ≤ filepathMaxBytes := by
  constructor
  · intro hw
    obtain ⟨_, _, _, hbase', -, -, -, hbytes⟩ := hw.leaf
    obtain rfl := Option.some.inj (hbase.symm.trans hbase')
    exact ⟨hbytes, hw.bytes⟩
  · rintro ⟨hname, hpath⟩
    obtain ⟨stem, ext, hsplit, hext, hdot⟩ := extension_of_validBasename hvalid
    exact ⟨h.1, components_ne_nil h.2.2, ⟨name, stem, ext, hbase, hsplit, hext, hdot, hname⟩, hpath⟩

/-- **One verdict.** The two clients give one verdict on a path, and a well
formed path where they accept it, exactly if its lengths agree. -/
theorem sameVerdict_iff (value : String) : SameVerdict value ↔ LengthsAgree value := by
  by_cases hne : value = ""
  · subst hne
    exact ⟨fun _ => ⟨.inl (by decide), fun _ h => absurd h.1 (by decide)⟩,
      fun _ => ⟨by decide, fun h => absurd h (by decide)⟩⟩
  have hpos : value.length ≠ 0 := by simpa using hne
  by_cases hlen : utf16Length value ≤ filepathMaxBytes
  swap
  · -- too long for the one client
    have hlong : checkFilepath value = some .tooLong := by
      simp only [checkFilepath, if_neg hne, if_pos (Nat.lt_of_not_le hlen)]
    constructor
    · rintro ⟨hsame, -⟩
      refine ⟨.inr (Nat.lt_of_not_le fun hle => ?_), fun h => absurd h hlen⟩
      exact Py.checkFilepath_ne_tooLong hle (hsame.symm.trans hlong)
    · intro h
      have hlong' : Py.checkFilepath value = some .tooLong := by
        simp only [Py.checkFilepath, if_neg hpos, if_pos (h.path.resolve_left hlen)]
      exact ⟨hlong.trans hlong'.symm, fun hnone => by simp [hlong] at hnone⟩
  by_cases hshape : Shaped value ∧ ∃ name, basename value = some name ∧ name ≠ ""
  swap
  · obtain ⟨r, hr, hr'⟩ := checkFilepath_unshaped hne hlen
      (not_and_or.mp hshape |>.imp_right fun h name hb => by_contra fun hname => h ⟨name, hb, hname⟩)
    constructor
    · exact fun _ => ⟨.inl hlen, fun _ hs name hb hname => absurd ⟨hs, name, hb, hname⟩ hshape⟩
    · exact fun _ => ⟨hr.trans hr'.symm, fun hnone => by simp [hr] at hnone⟩
  obtain ⟨hs, name, hb, hname⟩ := hshape
  have hjs := checkFilepath_shaped hne hlen hs hb hname
  have hpy := Py.checkFilepath_shaped hne ((length_le_utf16Length value).trans hlen) hs hb hname
  have hctl : ∀ c ∈ name.toList, isControlChar c = false := fun c hc =>
    List.any_eq_false.mp hs.2.1 c (mem_of_mem_basename hb hc) |> eq_false_of_ne_true
  rw [py_validBasename_eq hctl] at hpy
  have hle := length_le_utf16Length name
  have hagree : LengthsAgree value ↔ (utf16Length name ≤ basenameMaxBytes ∨ basenameMaxBytes < name.length) ∧
      (utf16Length name ≤ basenameMaxBytes → validBasename name = true →
        name.utf8ByteSize ≤ basenameMaxBytes ∧ value.utf8ByteSize ≤ filepathMaxBytes) := by
    constructor
    · exact fun h => h.name hlen hs name hb hname
    · refine fun h => ⟨.inl hlen, fun _ _ other hother _ => ?_⟩
      obtain rfl := Option.some.inj (hb.symm.trans hother)
      exact h
  rw [hagree, SameVerdict, hjs, hpy]
  by_cases hu : utf16Length name ≤ basenameMaxBytes
  · have hp := hle.trans hu
    simp only [gt_iff_lt, Nat.not_lt.mpr hu, Nat.not_lt.mpr hp, if_false, hu, true_or, true_and, true_implies]
    by_cases hvalid : validBasename name = true
    · simp [hvalid, WellFormedPath.of_shaped hs hb hvalid]
    · simp [hvalid]
  · simp only [gt_iff_lt, Nat.lt_of_not_le hu, if_true, hu, false_or, false_implies, and_true]
    by_cases hp : basenameMaxBytes < name.length
    · simp [hp]
    · simp only [hp, if_false]
      cases validBasename name <;> simp

/-- A path of one name. -/
theorem shaped_leaf {cs : List Char} (hslash : '/' ∉ cs) (hctl : ∀ c ∈ cs, isControlChar c = false) :
    Shaped (String.ofList ('/' :: cs)) ∧ basename (String.ofList ('/' :: cs)) = some (String.ofList cs) := by
  refine ⟨⟨?_, ?_, ?_⟩, ?_⟩
  · simp [startsWith]
  · rw [String.toList_ofList, List.any_cons, Bool.or_eq_false_iff]
    exact ⟨by decide, List.any_eq_false.mpr fun c hc => by simp [hctl c hc]⟩
  · unfold hasDoubleSlash
    rw [String.toList_ofList, List.any_eq_false]
    intro t ht hpre
    obtain ⟨rest, rfl⟩ := List.isPrefixOf_iff_prefix.mp hpre
    rcases List.suffix_cons_iff.mp ((List.mem_tails _ _).mp ht) with he | hsuf
    · have hcs : '/' :: rest = cs := List.tail_eq_of_cons_eq he
      exact hslash (hcs ▸ List.mem_cons_self)
    · exact hslash (hsuf.subset List.mem_cons_self)
  · have hsplit : cs.splitOn '/' = [cs] := List.splitOn_eq_singleton hslash
    unfold basename
    rw [String.toList_ofList, List.splitOn_cons_eq_if_modifyHead, if_pos (beq_self_eq_true _), hsplit]
    rfl

/-- A name of two code units for each of its first characters. -/
def faces (n : ℕ) : List Char := List.replicate n '😀' ++ ['.', 'm', 'd']

theorem faces_shaped (n : ℕ) : Shaped (String.ofList ('/' :: faces n)) ∧
    basename (String.ofList ('/' :: faces n)) = some (String.ofList (faces n)) := by
  unfold faces
  refine shaped_leaf ?_ fun c hc => ?_
  · simp [List.mem_replicate]
  · rcases List.mem_append.mp hc with hc | hc
    · exact List.eq_of_mem_replicate hc ▸ by decide
    · simp only [List.mem_cons, List.not_mem_nil, or_false] at hc
      rcases hc with rfl | rfl | rfl <;> rfl

theorem utf16Length_faces (n : ℕ) : utf16Length (String.ofList (faces n)) = 2 * n + 3 ∧
    utf16Length (String.ofList ('/' :: faces n)) = 2 * n + 4 := by
  have hall : ((faces n).flatMap codeUnits).length = 2 * n + 3 := by
    have hface : ∀ c ∈ List.replicate n '😀', (codeUnits c).length = 2 :=
      fun c hc => List.eq_of_mem_replicate hc ▸ by decide
    rw [faces, List.flatMap_append, List.length_append, List.length_flatMap, List.map_congr_left hface]
    simp [codeUnits]
    omega
  unfold utf16Length
  rw [String.toList_ofList, String.toList_ofList, List.flatMap_cons, List.length_append, hall]
  exact ⟨rfl, by rw [show (codeUnits '/').length = 1 by decide]; omega⟩

theorem faces_valid (n : ℕ) : validBasename (String.ofList (faces n)) = true := by
  rw [validBasename_iff, String.toList_ofList]
  unfold faces
  simp [List.mem_replicate]

/-- **The counterexample.** One client takes the name for too long, and the
other does not. -/
theorem faces_one_verdict : ¬ SameVerdict (String.ofList ('/' :: faces 130)) := by
  rintro ⟨hsame, -⟩
  obtain ⟨hshaped, hbase⟩ := faces_shaped 130
  obtain ⟨hname, hpath⟩ := utf16Length_faces 130
  have hlen : (faces 130).length = 133 := by simp [faces]
  have hctl : ∀ c ∈ faces 130, isControlChar c = false := fun c hc => eq_false_of_ne_true <|
    List.any_eq_false.mp hshaped.2.1 c (by rw [String.toList_ofList]; exact List.mem_cons_of_mem _ hc)
  have hne : String.ofList ('/' :: faces 130) ≠ "" := by simp
  have hne' : String.ofList (faces 130) ≠ "" := by simp [faces]
  have hjs := checkFilepath_shaped hne (by rw [hpath]; decide) hshaped hbase hne'
  have hpy := Py.checkFilepath_shaped hne
    (by rw [String.length_ofList, List.length_cons, hlen]; decide) hshaped hbase hne'
  rw [py_validBasename_eq (by rwa [String.toList_ofList]), faces_valid,
    if_neg (by rw [String.length_ofList, hlen]; decide)] at hpy
  rw [hname, if_pos (by decide)] at hjs
  rw [hjs, hpy] at hsame
  exact nomatch hsame

end Smfs.Bash
