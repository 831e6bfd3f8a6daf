/-
# The paths of the TypeScript client

Strings are sequences of characters; a JavaScript string has the length of its
UTF-16 encoding (`utf16Length`) and is ordered by its code units
(`codeUnits`). `checkFilepath` is the one of `filepath.ts`, with
`VALID_BASENAME` as the predicate it decides, and `normalizePath` the one of
`supermemory-fs.ts`.

Key definitions: `startsWith`, `withSlash`, `checkFilepath`, `normalizePath`, `Canonical`, `FsError`.
Key theorems: `canonical_normalizePath`, `below_iff`, `under_pathOf`.
-/
import Mathlib.Data.List.Lex
import Smfs.Text

namespace Smfs.Bash

/-! ### Strings -/

/-- The code units of a character in UTF-16. -/
def codeUnits (c : Char) : List ℕ :=
  if c.toNat < 0x10000 then [c.toNat]
  else [0xD800 + (c.toNat - 0x10000) / 0x400, 0xDC00 + (c.toNat - 0x10000) % 0x400]

/-- `s.length`. -/
def utf16Length (s : String) : ℕ := (s.toList.flatMap codeUnits).length

/-- The order of `Array.prototype.sort`. -/
def codeUnitsLe (s t : String) : Bool := s.toList.flatMap codeUnits ≤ t.toList.flatMap codeUnits

/-- `Array.from(…).sort()`. -/
def sorted (xs : List String) : List String := xs.mergeSort codeUnitsLe

theorem mem_sorted {xs : List String} {x : String} : x ∈ sorted xs ↔ x ∈ xs := List.mem_mergeSort

/-- `s.startsWith(pre)`. -/
def startsWith (s pre : String) : Bool := pre.toList.isPrefixOf s.toList

/-- `s.slice(pre.length)`, of a string that starts with `pre`. -/
def sliceAfter (s pre : String) : String := String.ofList (s.toList.drop pre.toList.length)

/-- `p.endsWith("/")`. -/
def endsWithSlash (p : String) : Bool := p.toList.getLast? = some '/'

/-- `p.endsWith("/") ? p : p + "/"`. -/
def withSlash (p : String) : String := if endsWithSlash p then p else p ++ "/"

/-- A value that is not falsy: `null` and the empty string are. -/
def truthy (s : Option String) : Option String := s.filter (· ≠ "")

theorem truthy_some {id : String} : truthy (some id) = some id ↔ id ≠ "" := by simp [truthy, Option.filter_eq_some_iff]

/-! ### Errors -/

/-- `FsError`. -/
structure FsError where
  code : String
  errno : ℤ
  message : String
  deriving DecidableEq, Repr

def FsError.make (code : String) (errno : ℤ) (suffix : String) : FsError := ⟨code, errno, code ++ ": " ++ suffix⟩

def quoted (path : String) : String := "'" ++ path ++ "'"

def enoent (path : String) : FsError := .make "ENOENT" (-2) ("no such file or directory, " ++ quoted path)

def eperm (path : String) (op : String) : FsError :=
  .make "EPERM" (-1) ("operation not permitted" ++ (if op = "" then "" else ", " ++ op) ++ " " ++ quoted path)

def eio (reason : String) : FsError := .make "EIO" (-5) ("I/O error, " ++ reason)

def eisdir (path : String) : FsError := .make "EISDIR" (-21) ("is a directory, " ++ quoted path)

def enotdir (path : String) : FsError := .make "ENOTDIR" (-20) ("not a directory, " ++ quoted path)

def enotempty (path : String) : FsError := .make "ENOTEMPTY" (-39) ("directory not empty, " ++ quoted path)

def eexist (path : String) : FsError := .make "EEXIST" (-17) ("file already exists, " ++ quoted path)

def einval (reason : String) : FsError := .make "EINVAL" (-22) ("invalid argument, " ++ reason)

def ebusy (path : String) : FsError := .make "EBUSY" (-16) ("resource busy or locked, " ++ quoted path)

def enametoolong (path : String) : FsError := .make "ENAMETOOLONG" (-36) ("file name too long, " ++ quoted path)

/-! ### Accepted paths -/

def filepathMaxBytes : ℕ := 4096

def basenameMaxBytes : ℕ := 255

/-- The path of the generated profile. -/
def profilePath : String := "/profile.md"

/-- `isReservedFilepath`, and `isReservedPath` of the volume. -/
def isReservedFilepath (value : String) : Bool := value = profilePath

inductive FilepathRejection
  | empty
  | tooLong
  | notAbsolute
  | controlChar
  | doubleSlash
  | emptyLeaf
  | basenameTooLong
  | missingExtension
  deriving DecidableEq, Repr

/-- The names of the rejections in the messages. -/
def FilepathRejection.text : FilepathRejection → String
  | .empty => "empty"
  | .tooLong => "too_long"
  | .notAbsolute => "not_absolute"
  | .controlChar => "control_char"
  | .doubleSlash => "double_slash"
  | .emptyLeaf => "empty_leaf"
  | .basenameTooLong => "basename_too_long"
  | .missingExtension => "missing_extension"

def isControlChar (c : Char) : Bool := c.toNat ≤ 0x1F || c.toNat = 0x7F

/-- `value.includes("//")`. -/
def hasDoubleSlash (value : String) : Bool := value.toList.tails.any (['/', '/'].isPrefixOf ·)

/-- The last of `value.split("/").slice(1)`. -/
def basename (value : String) : Option String := ((value.toList.splitOn '/').drop 1).getLast?.map String.ofList

/-- `VALID_BASENAME.test`: there is a dot, and the part after the last one is
not empty. -/
def validBasename (name : String) : Bool :=
  name.toList.contains '.' && name.toList.all (· ≠ '/') && (name.toList.reverse.takeWhile (· ≠ '.')) ≠ []

def checkFilepath (value : String) : Option FilepathRejection :=
  if value = "" then some .empty
  else if utf16Length value > filepathMaxBytes then some .tooLong
  else if !startsWith value "/" then some .notAbsolute
  else if value.toList.any isControlChar then some .controlChar
  else if hasDoubleSlash value then some .doubleSlash
  else match basename value with
    | none => some .emptyLeaf
    | some "" => some .emptyLeaf
    | some name =>
      if utf16Length name > basenameMaxBytes then some .basenameTooLong
      else if !validBasename name then some .missingExtension
      else none

/-! ### Normalised paths -/

/-- What one segment does to the stack of names. -/
def pushSegment (stack : List String) (seg : String) : List String :=
  if seg = ".." then stack.dropLast else stack ++ [seg]

def normalizePath (input : String) : String :=
  if input = "" ∨ input = "/" then "/"
  else pathOf (((components input).filter (· ≠ ".")).foldl pushSegment [])

/-! ### Paths of names -/

/-- A name that a normalised path may have. -/
def Clean (name : String) : Prop := Plain name ∧ name ≠ "." ∧ name ≠ ".."

/-- A path with such names between its slashes. -/
def Canonical (path : String) : Prop := ∃ names, (∀ n ∈ names, Clean n) ∧ path = pathOf names

variable {names src dest rest : List String} {path : String}

theorem plain_of_clean (h : ∀ n ∈ names, Clean n) : ∀ n ∈ names, Plain n := fun n hn => (h n hn).1

theorem pushSegment_clean {stack : List String} {seg : String} (h : ∀ n ∈ stack, Clean n) (hs : Plain seg)
    (hdot : seg ≠ ".") :
    ∀ n ∈ pushSegment stack seg, Clean n := by
  unfold pushSegment
  split_ifs with hup
  · exact fun n hn => h n (List.dropLast_subset stack hn)
  · intro n hn
    rcases List.mem_append.mp hn with hn | hn
    · exact h n hn
    · exact List.mem_singleton.mp hn ▸ ⟨hs, hdot, hup⟩

theorem segments_clean {segs stack : List String} (h : ∀ n ∈ segs, Plain n ∧ n ≠ ".") (hs : ∀ n ∈ stack, Clean n) :
    ∀ n ∈ segs.foldl pushSegment stack, Clean n := by
  induction segs generalizing stack with
  | nil => exact hs
  | cons seg segs ih =>
    obtain ⟨hplain, hdot⟩ := h seg List.mem_cons_self
    exact ih (fun n hn => h n (List.mem_cons_of_mem seg hn)) (pushSegment_clean hs hplain hdot)

/-- Names that do not go up are put on the stack. -/
theorem segments_append {stack : List String} (h : ∀ n ∈ names, Clean n) :
    (names.filter (· ≠ ".")).foldl pushSegment stack = stack ++ names := by
  have hfilter : names.filter (· ≠ ".") = names := by
    rw [List.filter_eq_self]
    exact fun n hn => decide_eq_true (h n hn).2.1
  rw [hfilter]
  clear hfilter
  induction names generalizing stack with
  | nil => simp
  | cons n names ih =>
    rw [List.foldl_cons, pushSegment, if_neg (h n List.mem_cons_self).2.2, ih fun m hm => h m (List.mem_cons_of_mem n hm)]
    simp

theorem mem_segments {input name : String} (h : name ∈ (components input).filter (· ≠ ".")) :
    Plain name ∧ name ≠ "." := by
  obtain ⟨hmem, hdot⟩ := List.mem_filter.mp h
  exact ⟨plain_of_mem_components hmem, by simpa using hdot⟩

theorem canonical_normalizePath (input : String) : Canonical (normalizePath input) := by
  unfold normalizePath
  split_ifs
  · exact ⟨[], fun n hn => (nomatch hn), rfl⟩
  · exact ⟨_, segments_clean (fun n hn => mem_segments hn) fun n hn => absurd hn List.not_mem_nil, rfl⟩

/-- A normalised path stays as it is. -/
theorem normalizePath_pathOf (h : ∀ n ∈ names, Clean n) : normalizePath (pathOf names) = pathOf names := by
  unfold normalizePath
  split_ifs with hroot
  · rcases hroot with hroot | hroot
    · have hlist := congrArg String.toList hroot
      simp [toList_pathOf] at hlist
    · exact hroot.symm
  · rw [components_pathOf (plain_of_clean h), segments_append h, List.nil_append]

theorem endsWithSlash_pathOf (h : ∀ n ∈ names, Plain n) (hne : names ≠ []) : endsWithSlash (pathOf names) = false := by
  rcases List.eq_nil_or_concat names with rfl | ⟨init, last, rfl⟩
  · exact absurd rfl hne
  · rw [List.concat_eq_append] at h ⊢
    exact decide_eq_false (getLast_pathOf (h last (by simp)))

theorem withSlash_pathOf (h : ∀ n ∈ names, Plain n) (hne : names ≠ []) :
    withSlash (pathOf names) = pathOf names ++ "/" := by
  rw [withSlash, if_neg (by rw [endsWithSlash_pathOf h hne]; exact Bool.false_ne_true)]

theorem withSlash_root : withSlash (pathOf []) = "/" := by decide

theorem startsWith_iff {s pre : String} : startsWith s pre = true ↔ ∃ cs, s.toList = pre.toList ++ cs := by
  unfold startsWith
  rw [List.isPrefixOf_iff_prefix]
  exact ⟨fun ⟨cs, h⟩ => ⟨cs, h.symm⟩, fun ⟨cs, h⟩ => ⟨cs, h.symm⟩⟩

/-- One path lies below another exactly if its names go on from the other's. -/
theorem below_iff (hs : ∀ n ∈ src, Plain n) (hn : ∀ n ∈ names, Plain n) (hne : src ≠ []) :
    startsWith (pathOf names) (withSlash (pathOf src)) = true ↔ ∃ rest, rest ≠ [] ∧ names = src ++ rest := by
  rw [withSlash_pathOf hs hne, startsWith_iff]
  constructor
  · rintro ⟨cs, h⟩
    rw [String.toList_append, List.append_assoc] at h
    have hcs : (pathOf names).toList = (pathOf src).toList ++ '/' :: (String.ofList cs).toList := by
      rw [String.toList_ofList]
      exact h
    have hcomp := components_append hcs
    rw [String.ofList_toList, components_pathOf hn, components_pathOf hs] at hcomp
    refine ⟨_, fun hnil => ?_, hcomp⟩
    rw [hnil, List.append_nil] at hcomp
    have hlen := congrArg List.length h
    rw [hcomp] at hlen
    simp at hlen
  · rintro ⟨rest, hrest, rfl⟩
    refine ⟨("/".intercalate rest).toList, ?_⟩
    rw [pathOf_append_names hne hrest, String.toList_append]

/-- The names after those of the directory. -/
theorem sliceAfter_pathOf (h : ∀ n ∈ src, Plain n) (hrest : rest ≠ []) :
    sliceAfter (pathOf (src ++ rest)) (withSlash (pathOf src)) = "/".intercalate rest := by
  have hlist : ∃ pre, withSlash (pathOf src) = pre ∧ pathOf (src ++ rest) = pre ++ "/".intercalate rest := by
    by_cases hne : src = []
    · subst hne
      exact ⟨_, withSlash_root, rfl⟩
    · exact ⟨_, withSlash_pathOf h hne, pathOf_append_names hne hrest⟩
  obtain ⟨pre, hpre, hpath⟩ := hlist
  rw [hpre, hpath, sliceAfter, String.toList_append, List.drop_left, String.ofList_toList]

/-- A path under one directory, moved under another. -/
theorem under_pathOf (hs : ∀ n ∈ src, Plain n) (hd : ∀ n ∈ dest, Plain n) (hrest : rest ≠ []) :
    withSlash (pathOf dest) ++ sliceAfter (pathOf (src ++ rest)) (withSlash (pathOf src)) = pathOf (dest ++ rest) := by
  rw [sliceAfter_pathOf hs hrest]
  by_cases hne : dest = []
  · subst hne
    rw [withSlash_root]
    rfl
  · rw [withSlash_pathOf hd hne, pathOf_append_names hne hrest]

theorem endsWithSlash_withSlash (p : String) : endsWithSlash (withSlash p) = true := by
  unfold withSlash
  split_ifs with h
  · exact h
  · simp [endsWithSlash]

theorem withSlash_ne (p : String) : withSlash p ≠ "" := by
  intro h
  have hlist := congrArg String.toList h
  unfold withSlash at hlist
  split_ifs at hlist with hslash
  · rw [endsWithSlash, hlist] at hslash
    simp at hslash
  · simp at hlist

theorem withSlash_idem (p : String) : withSlash (withSlash p) = withSlash p := if_pos (endsWithSlash_withSlash p)

/-- A path that does not end in a slash is not below itself. -/
theorem not_below_self (h : endsWithSlash path = false) : startsWith path (withSlash path) = false := by
  rw [← Bool.not_eq_true, startsWith_iff, withSlash, if_neg (by rw [h]; exact Bool.false_ne_true)]
  rintro ⟨cs, he⟩
  have hlen := congrArg List.length he
  simp at hlen

theorem endsWithSlash_of_check (h : checkFilepath path = none) : endsWithSlash path = false := by
  by_contra hslash
  rw [Bool.not_eq_false, endsWithSlash, decide_eq_true_eq] at hslash
  obtain ⟨cs, hcs⟩ := List.getLast?_eq_some_iff.mp hslash
  have hlast : path.toList.splitOn '/' = cs.splitOn '/' ++ [[]] := by
    rw [hcs, List.splitOn_append_cons_self, List.splitOn_nil]
  have hbase : basename path = some "" := by
    unfold basename
    rw [hlast, List.drop_append_of_le_length (List.length_pos_iff.mpr (List.splitOn_ne_nil _ _)), List.getLast?_append]
    rfl
  unfold checkFilepath at h
  rw [hbase] at h
  split_ifs at h
  cases h

example : normalizePath "a/./b/../c.md" = "/a/c.md" := by decide
example : checkFilepath "/a/c" = some .missingExtension := by decide

end Smfs.Bash
