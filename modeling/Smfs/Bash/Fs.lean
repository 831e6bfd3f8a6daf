/-
# The file system of the TypeScript client

The methods of `SupermemoryFs` in `supermemory-fs.ts` over the volume. What
`TextDecoder` and `localeCompare` do is the platform's: the first is
`decodeUtf8`, after the encoding standard, the second a parameter.

Key definitions: `stat`, `readdirWithFileTypes`, `writeFile`, `appendFile`, `mkdir`, `rm`, `rmdir`, `mv`, `cp`.
-/
import Smfs.Bash.Volume

namespace Smfs.Bash

open Turns

/-! ### Text -/

/-- Between two bytes: the bits so far, the bytes still needed, and the range
of the next one. -/
structure Utf8State where
  codePoint : ℕ
  needed : ℕ
  lower : ℕ
  upper : ℕ

def Utf8State.idle : Utf8State := ⟨0, 0, 0x80, 0xBF⟩

def replacementChar : Char := Char.ofNat 0xFFFD

/-- The byte at the start of a character. -/
def decodeLead (b : ℕ) : List Char × Utf8State :=
  if b ≤ 0x7F then ([Char.ofNat b], .idle)
  else if 0xC2 ≤ b ∧ b ≤ 0xDF then ([], ⟨b - 0xC0, 1, 0x80, 0xBF⟩)
  else if 0xE0 ≤ b ∧ b ≤ 0xEF then
    ([], ⟨b - 0xE0, 2, if b = 0xE0 then 0xA0 else 0x80, if b = 0xED then 0x9F else 0xBF⟩)
  else if 0xF0 ≤ b ∧ b ≤ 0xF4 then
    ([], ⟨b - 0xF0, 3, if b = 0xF0 then 0x90 else 0x80, if b = 0xF4 then 0x8F else 0xBF⟩)
  else ([replacementChar], .idle)

def decodeFrom (st : Utf8State) : Bytes → List Char
  | [] => if st.needed = 0 then [] else [replacementChar]
  | b :: rest =>
    let b := b.toNat
    if st.needed = 0 then (decodeLead b).1 ++ decodeFrom (decodeLead b).2 rest
    else if st.lower ≤ b ∧ b ≤ st.upper then
      let codePoint := st.codePoint * 64 + (b - 0x80)
      if st.needed = 1 then Char.ofNat codePoint :: decodeFrom .idle rest
      else decodeFrom ⟨codePoint, st.needed - 1, 0x80, 0xBF⟩ rest
    else replacementChar :: (decodeLead b).1 ++ decodeFrom (decodeLead b).2 rest

/-- `new TextDecoder().decode(bytes)`. -/
def decodeUtf8 (b : Bytes) : String :=
  String.ofList (decodeFrom .idle (if [0xEF, 0xBB, 0xBF].isPrefixOf b then b.drop 3 else b))

/-- `typeof content === "string" ? content : new TextDecoder().decode(content)`. -/
def Content.decoded : Content → String
  | .text s => s
  | .bytes b => decodeUtf8 b

/-! ### Reading -/

structure FsStat where
  isFile : Bool
  isDirectory : Bool
  isSymbolicLink : Bool
  mode : ℕ
  size : ℕ
  mtime : ℤ
  deriving DecidableEq

structure DirentEntry where
  name : String
  isFile : Bool
  isDirectory : Bool
  isSymbolicLink : Bool
  deriving DecidableEq

/-- The UTF-8 length of a cached text. -/
def encodedSize : Option CachedEntry → ℕ
  | some ⟨.text s, _⟩ => s.utf8ByteSize
  | _ => 0

/-- `new Date()`. -/
def readClock : Vol ℤ :=
  sync fun w => (w.cache.now w.cache.reads, { w with cache := { w.cache with reads := w.cache.reads + 1 } })

def stat (path : String) : Vol FsStat := do
  let norm := normalizePath path
  if isReservedFilepath norm then
    let cached ← cacheGet norm
    return ⟨true, false, false, 0o444, encodedSize cached, ← readClock⟩
  else
    match ← statDoc norm with
    | none => throwFs (enoent norm)
    | some st => return ⟨st.isFile, st.isDirectory, false, if st.isDirectory then 0o755 else 0o644, st.size, st.mtime⟩

def readFile (path : String) : Vol String := do
  let norm := normalizePath path
  if isReservedFilepath norm then fetchProfile
  else if ← look fun w => w.index.isDirOnly norm then throwFs (eisdir norm)
  else
    match ← getDoc norm with
    | none => throwFs (enoent norm)
    | some doc => return doc.content.decoded

/-- `prefix` of a directory: `norm === "/" ? "/" : norm + "/"`. -/
def dirPrefix (norm : String) : String := if norm = "/" then "/" else norm ++ "/"

/-- A name and its kind: `true` for a file. -/
abbrev Kinds := List (String × Bool)

/-- The entry of a document below the directory; one under a subdirectory
makes it a directory, whatever was there. -/
def listDoc (pre : String) (entries : Kinds) (filepath : String) : Kinds :=
  let rest := sliceAfter filepath pre
  if rest = "" then entries
  else
    let isFile := !rest.toList.contains '/'
    let name := String.ofList (rest.toList.takeWhile (· ≠ '/'))
    match Table.get Prod.fst entries name with
    | none => Table.set Prod.fst entries (name, isFile)
    | some _ => if isFile then entries else Table.set Prod.fst entries (name, false)

/-- The entry of a synthetic directory in the directory itself. -/
def listSynthetic (pre : String) (entries : Kinds) (synth : String) : Kinds :=
  let rest := sliceAfter synth pre
  if !startsWith synth pre || rest = "" || rest.toList.contains '/' then entries
  else if (Table.get Prod.fst entries rest).isSome then entries
  else Table.set Prod.fst entries (rest, false)

def listReserved (norm : String) (entries : Kinds) : Kinds :=
  let reservedName := sliceAfter profilePath "/"
  if norm ≠ "/" || (Table.get Prod.fst entries reservedName).isSome then entries
  else Table.set Prod.fst entries (reservedName, true)

def direntOf (entry : String × Bool) : DirentEntry := ⟨entry.1, entry.2, !entry.2, false⟩

/-- `localeLe` is the order of `localeCompare`. -/
def readdirWithFileTypes (localeLe : String → String → Bool) (path : String) : Vol (List DirentEntry) := do
  let norm := normalizePath path
  if ← look fun w => w.index.isFile norm then throwFs (enotdir norm)
  else
    let pre := dirPrefix norm
    let summaries ← listByPrefix pre {}
    let isKnownDir ← look fun w => decide (norm = "/") || w.index.isDirectory norm
    if summaries.isEmpty && !isKnownDir then throwFs (enoent norm)
    else
      let synths ← look fun w => w.index.syntheticDirPaths
      let entries := (summaries.map DocSummary.filepath).foldl (listDoc pre) []
      let entries := listReserved norm (synths.foldl (listSynthetic pre) entries)
      return (entries.map direntOf).mergeSort fun a b => localeLe a.name b.name

/-! ### Writing -/

def writeFile (path : String) (content : Content) : Vol Unit := do
  let norm := normalizePath path
  if isReservedFilepath norm then throwFs (eperm norm "write")
  else if ← look fun w => w.index.isDirOnly norm then throwFs (eisdir norm)
  else
    let _ ← addDoc norm (.text content.decoded)

def appendFile (path : String) (content : Content) : Vol Unit := do
  let norm := normalizePath path
  if isReservedFilepath norm then throwFs (eperm norm "write")
  else if ← look fun w => w.index.isDirOnly norm then throwFs (eisdir norm)
  else
    let existing ← getDoc norm
    let head := (existing.map fun doc => doc.content.decoded).getD ""
    let _ ← addDoc norm (.text (head ++ content.decoded))

/-- The path and its ancestors, from the top. -/
def upTo (norm : String) : List String :=
  let segments := components norm
  (List.range' 1 segments.length).map fun i => pathOf (segments.take i)

def mkdir (path : String) (recursive : Bool) : Vol Unit := do
  let norm := normalizePath path
  if isReservedFilepath norm then throwFs (eperm norm "mkdir")
  else if ← look fun w => w.index.isFile norm then throwFs (enotdir norm)
  else if ← look fun w => w.index.isDirectory norm && !recursive then throwFs (eexist norm)
  else changeIndex fun ix => if recursive then (upTo norm).foldl .markSyntheticDir ix else ix.markSyntheticDir norm

structure RmOptions where
  recursive : Bool := false
  force : Bool := false
  deriving DecidableEq

def isEnoent : Thrown → Bool
  | .fs e => e.code = "ENOENT"
  | .api _ => false

/-- `` `${result.errors.length} subpath(s) …` ``. -/
def subpaths (n : ℕ) (what : String) : String := toString n ++ " subpath(s) " ++ what

def rm (path : String) (options : RmOptions) : Vol Unit := do
  let norm := normalizePath path
  if isReservedFilepath norm then throwFs (eperm norm "unlink")
  else if ← look fun w => w.index.isDirOnly norm then
    if !options.recursive then throwFs (eisdir norm)
    else
      let result ← removeByPrefix (withSlash norm)
      if result.errors.length > 0 ∧ !options.force then
        throwFs (eio ("rm(" ++ norm ++ "): " ++ subpaths result.errors.length "failed to delete"))
  else
    tryCatch
      (do
        match truthy (← look fun w => w.index.resolve norm) with
        | none => if options.force then return () else throwFs (enoent norm)
        | some _ => removeDoc norm)
      fun err => if options.force && isEnoent err then return () else throw err

def rmdir (path : String) : Vol Unit := do
  let norm := normalizePath path
  if ← look fun w => w.index.isFile norm then throwFs (enotdir norm)
  else if ← look fun w => !w.index.isDirectory norm then throwFs (enoent norm)
  else if !(← isDirEmpty norm) then throwFs (enotempty norm)
  else changeIndex (·.removeSyntheticDir norm)

def arrow (src dest : String) : String := src ++ " → " ++ dest

def mv (sched : ℕ → List ℕ) (src dest : String) : Vol Unit := do
  let srcN := normalizePath src
  let destN := normalizePath dest
  if isReservedFilepath srcN then throwFs (eperm srcN "rename")
  else if isReservedFilepath destN then throwFs (eperm destN "rename")
  -- the source asks a second time whether `srcN` is a directory
  else if ← look fun w => w.index.isDirOnly srcN then
    let errors ← moveTree sched srcN destN
    if errors.length > 0 then
      throwFs (eio ("mv(" ++ arrow srcN destN ++ "): " ++ subpaths errors.length "failed"))
  else moveDoc srcN destN

def cp (sched : ℕ → List ℕ) (src dest : String) (recursive : Bool) : Vol Unit := do
  let srcN := normalizePath src
  let destN := normalizePath dest
  if isReservedFilepath destN then throwFs (eperm destN "write")
  else if isReservedFilepath srcN then
    let body ← fetchProfile
    let _ ← addDoc destN (.text body)
  else if ← look fun w => w.index.isDirOnly srcN then
    if !recursive then throwFs (eisdir srcN)
    else
      let errors ← copyTree sched srcN destN
      if errors.length > 0 then
        throwFs (eio ("cp(" ++ arrow srcN destN ++ "): " ++ subpaths errors.length "failed"))
  else
    match ← getDoc srcN with
    | none => throwFs (enoent srcN)
    | some doc => let _ ← addDoc destN doc.content

/-! ### The writes, run alone -/

variable {w : World}

theorem eval_forget {α : Type} (x : Vol α) : (eval (do let _ ← x : Vol Unit) w).2 = (eval x w).2 := by
  rw [eval_bind]
  generalize eval x w = r
  obtain ⟨_ | _, t⟩ := r
  · rfl
  · rfl

/-- A write that gets through is an `addDoc` at the normalised path. -/
theorem eval_writeFile {path : String} {content : Content} : (eval (writeFile path content) w).2 =
    if isReservedFilepath (normalizePath path) ∨ w.index.isDirOnly (normalizePath path) then w
    else (eval (addDoc (normalizePath path) (.text content.decoded)) w).2 := by
  unfold writeFile
  dsimp only
  by_cases hres : isReservedFilepath (normalizePath path) = true
  · rw [if_pos hres, if_pos (.inl hres)]
    rfl
  rw [if_neg hres, eval_bind, eval_look, andThen_ok]
  by_cases hdir : w.index.isDirOnly (normalizePath path) = true
  · rw [if_pos hdir, if_pos (.inr hdir)]
    rfl
  · rw [if_neg hdir, if_neg (not_or.mpr ⟨hres, hdir⟩), eval_bind]
    generalize eval (addDoc (normalizePath path) (.text content.decoded)) w = r
    obtain ⟨_ | _, t⟩ := r
    · rfl
    · rfl

end Smfs.Bash
