/-
# The path index of the TypeScript client

`PathIndex` is the one of `path-index.ts`: which document has which path, and
the directories that no document lies in (`syntheticDirs`). A JavaScript `Map`
is a table with its keys in the order they were first set. `assertWritable` is
the pipeline of rules that every write of a document passes.

Key definitions: `PathIndex`, `PathIndex.isDirectory`, `PathIndex.findAncestorFile`, `assertWritable`.
Key theorems: `PathIndex.resolve_insert`, `PathIndex.resolve_remove`, `PathIndex.mem_paths`.
-/
import Smfs.Lib.Table
import Smfs.Bash.Filepath

namespace Smfs.Bash

structure PathIndex where
  files : List (String × String)
  byDocId : List (String × String)
  syntheticDirs : List String
  deriving DecidableEq, Repr

namespace PathIndex

def new : PathIndex := ⟨[], [], []⟩

def resolve (ix : PathIndex) (path : String) : Option String := (Table.get Prod.fst ix.files path).map Prod.snd

def findPath (ix : PathIndex) (docId : String) : Option String := (Table.get Prod.fst ix.byDocId docId).map Prod.snd

def insert (ix : PathIndex) (path docId : String) : PathIndex :=
  let byDocId := match truthy (ix.resolve path) with
    | some existing => if existing ≠ docId then Table.erase Prod.fst ix.byDocId existing else ix.byDocId
    | none => ix.byDocId
  { ix with files := Table.set Prod.fst ix.files (path, docId), byDocId := Table.set Prod.fst byDocId (docId, path) }

def remove (ix : PathIndex) (path : String) : PathIndex :=
  let byDocId := match ix.resolve path with
    | some docId => Table.erase Prod.fst ix.byDocId docId
    | none => ix.byDocId
  { ix with files := Table.erase Prod.fst ix.files path, byDocId := byDocId }

def markSyntheticDir (ix : PathIndex) (path : String) : PathIndex :=
  if path = "/" ∨ path = "" ∨ path ∈ ix.syntheticDirs then ix
  else { ix with syntheticDirs := ix.syntheticDirs ++ [path] }

def removeSyntheticDir (ix : PathIndex) (path : String) : PathIndex :=
  { ix with syntheticDirs := ix.syntheticDirs.filter (· ≠ path) }

/-- `files.has`. -/
def isFile (ix : PathIndex) (path : String) : Bool := (ix.resolve path).isSome

/-- An indexed path lies below the directory. -/
def hasBelow (ix : PathIndex) (path : String) : Bool := ix.files.any fun f => startsWith f.1 (withSlash path)

def isDirectory (ix : PathIndex) (path : String) : Bool :=
  path = "/" || path = "" || path ∈ ix.syntheticDirs || ix.hasBelow path

/-- The paths above, the nearest first. -/
def ancestors (path : String) : List String :=
  let segments := components path
  ((List.range' 1 (segments.length - 1)).reverse).map fun i => pathOf (segments.take i)

def findAncestorFile (ix : PathIndex) (path : String) : Option String := (ancestors path).find? ix.isFile

def hasDescendant (ix : PathIndex) (path : String) : Bool :=
  if path = "/" ∨ path = "" then false else ix.hasBelow path

def paths (ix : PathIndex) : List String := sorted (ix.files.map Prod.fst)

def syntheticDirPaths (ix : PathIndex) : List String := sorted ix.syntheticDirs

/-- It is a directory, and not a file: what `rm`, `mv` and the reads ask. -/
def isDirOnly (ix : PathIndex) (path : String) : Bool := ix.isDirectory path && !ix.isFile path

/-! ### What the updates leave -/

variable {ix : PathIndex} {p q id : String}

@[simp] theorem resolve_insert : (ix.insert p id).resolve q = if q = p then some id else ix.resolve q := by
  unfold resolve insert
  dsimp only
  rw [Table.get_set]
  by_cases h : q = p
  · rw [if_pos h, if_pos h]
    rfl
  · rw [if_neg h, if_neg h]

@[simp] theorem resolve_remove : (ix.remove p).resolve q = if q = p then none else ix.resolve q := by
  unfold resolve remove
  dsimp only
  rw [Table.get_erase]
  by_cases h : q = p
  · rw [if_pos h, if_pos h]
    rfl
  · rw [if_neg h, if_neg h]

@[simp] theorem resolve_mark : (ix.markSyntheticDir p).resolve q = ix.resolve q := by
  unfold markSyntheticDir
  split_ifs <;> rfl

@[simp] theorem resolve_unmark : (ix.removeSyntheticDir p).resolve q = ix.resolve q := rfl

@[simp] theorem synthetic_insert : (ix.insert p id).syntheticDirs = ix.syntheticDirs := rfl

@[simp] theorem synthetic_remove : (ix.remove p).syntheticDirs = ix.syntheticDirs := rfl

theorem mem_mark : q ∈ (ix.markSyntheticDir p).syntheticDirs ↔ q ∈ ix.syntheticDirs ∨ (q = p ∧ p ≠ "/" ∧ p ≠ "") := by
  unfold markSyntheticDir
  split_ifs with h
  · rcases h with h | h | h
    · simp [h]
    · simp [h]
    · constructor
      · exact .inl
      · rintro (hq | ⟨rfl, -⟩)
        · exact hq
        · exact h
  · push Not at h
    simp [h.1, h.2.1]

theorem mem_unmark : q ∈ (ix.removeSyntheticDir p).syntheticDirs ↔ q ∈ ix.syntheticDirs ∧ q ≠ p := by
  simp [removeSyntheticDir]

/-- The directories that a test picks lose their marks. -/
theorem mem_foldl_unmark {c : String → Bool} {ds : List String} :
    q ∈ (ds.foldl (fun ix d => if c d then ix.removeSyntheticDir d else ix) ix).syntheticDirs ↔
      q ∈ ix.syntheticDirs ∧ ¬ (q ∈ ds ∧ c q = true) := by
  induction ds generalizing ix with
  | nil => simp
  | cons d ds ih =>
    rw [List.foldl_cons, ih]
    by_cases hc : c d = true
    · rw [if_pos hc, mem_unmark]
      by_cases hq : q = d
      · subst hq
        simp [hc]
      · simp [hq]
    · rw [if_neg hc]
      by_cases hq : q = d
      · subst hq
        simp [hc]
      · simp [hq]

theorem isFile_iff : ix.isFile p = true ↔ ∃ id, ix.resolve p = some id := Option.isSome_iff_exists

theorem mem_files : (∃ id, (p, id) ∈ ix.files) ↔ ix.isFile p = true := by
  rw [isFile_iff]
  constructor
  · rintro ⟨id, h⟩
    have hsome : (Table.get Prod.fst ix.files p).isSome = true := Table.get_isSome_of_mem h
    obtain ⟨x, hx⟩ := Option.isSome_iff_exists.mp hsome
    exact ⟨x.2, by rw [resolve, hx]; rfl⟩
  · rintro ⟨id, h⟩
    obtain ⟨x, hx, rfl⟩ := Option.map_eq_some_iff.mp h
    obtain ⟨hmem, hkey⟩ := Table.get_some hx
    exact ⟨x.2, hkey ▸ hmem⟩

theorem mem_paths : p ∈ ix.paths ↔ ix.isFile p = true := by
  rw [paths, mem_sorted, ← mem_files]
  simp

theorem mem_syntheticDirPaths : p ∈ ix.syntheticDirPaths ↔ p ∈ ix.syntheticDirs := mem_sorted

theorem hasBelow_iff : ix.hasBelow p = true ↔ ∃ q, ix.isFile q = true ∧ startsWith q (withSlash p) = true := by
  rw [hasBelow, List.any_eq_true]
  constructor
  · rintro ⟨⟨q, id⟩, hq, hs⟩
    exact ⟨q, mem_files.mp ⟨id, hq⟩, hs⟩
  · rintro ⟨q, hq, hs⟩
    obtain ⟨id, hid⟩ := mem_files.mpr hq
    exact ⟨(q, id), hid, hs⟩

end PathIndex

/-! ### The rules for writes -/

inductive WriteIntent
  | addDoc
  | moveDoc
  deriving DecidableEq, Repr

def WriteIntent.text : WriteIntent → String
  | .addDoc => "addDoc"
  | .moveDoc => "moveDoc"

def ruleShape (path : String) : Option FsError :=
  match checkFilepath path with
  | none => none
  | some .tooLong => some (enametoolong path)
  | some .basenameTooLong => some (enametoolong path)
  | some reason => some (einval (quoted path ++ ": " ++ reason.text))

def ruleReserved (path : String) (intent : WriteIntent) : Option FsError :=
  if isReservedFilepath path then some (eperm path intent.text) else none

/-- An ancestor's path is never empty, so it is not falsy. -/
def ruleAncestorNotFile (path : String) (ix : PathIndex) : Option FsError := (ix.findAncestorFile path).map enotdir

def ruleNoDescendants (path : String) (ix : PathIndex) : Option FsError :=
  if ix.hasDescendant path then some (eisdir path) else none

/-- The error of the first rule that gives one. -/
def assertWritable (ix : PathIndex) (path : String) (intent : WriteIntent) : Option FsError :=
  (ruleShape path).or <| (ruleReserved path intent).or <| (ruleAncestorNotFile path ix).or (ruleNoDescendants path ix)

theorem assertWritable_none {ix : PathIndex} {path : String} {intent : WriteIntent} :
    assertWritable ix path intent = none ↔ checkFilepath path = none ∧ isReservedFilepath path = false ∧
      ix.findAncestorFile path = none ∧ ix.hasDescendant path = false := by
  unfold assertWritable ruleReserved ruleAncestorNotFile ruleNoDescendants
  rw [Option.or_eq_none_iff, Option.or_eq_none_iff, Option.or_eq_none_iff, Option.map_eq_none_iff]
  have hshape : ruleShape path = none ↔ checkFilepath path = none := by
    unfold ruleShape
    split <;> simp_all
  simp [hshape]

end Smfs.Bash
