/-
# Hints in agent instruction files

`agent_hint.rs` on the text of one file: a block between two markers for each
container tag, written on `smfs mount` and removed on `smfs unmount`, and
swept once its daemon is gone. A text is the list of its characters. What
`write_block`, `remove_block` and `sweep_one` put into the file is the value
of the functions here, `none` where they leave it alone.

Key definitions: `Hint.beginMarker`, `Hint.endMarker`, `Hint.renderBlock`, `Hint.stripBlock`, `Hint.findAllBlocks`,
`Hint.writeBlock`, `Hint.removeBlock`, `Hint.sweepOne`, `Hint.validateTag`.
-/
import Smfs.Lib.Search
import Mathlib.Data.List.DropRight

namespace Smfs
namespace Hint

open Search

/-! ### Markers -/

def beginPrefix : List Char := "<!-- >>> smfs:".toList

def beginSuffix : List Char := ":begin >>> -->".toList

def endPrefix : List Char := "<!-- <<< smfs:".toList

def endSuffix : List Char := ":end <<< -->".toList

/-- `replace("--", "__")`. -/
def replaceHyphens : List Char → List Char
  | '-' :: '-' :: cs => '_' :: '_' :: replaceHyphens cs
  | c :: cs => c :: replaceHyphens cs
  | [] => []

/-- `sanitize_for_delim`. -/
def sanitizeForDelim (tag : String) : String := String.ofList (replaceHyphens tag.toList)

def beginMarker (tag : String) : List Char := beginPrefix ++ (sanitizeForDelim tag).toList ++ beginSuffix

def endMarker (tag : String) : List Char := endPrefix ++ (sanitizeForDelim tag).toList ++ endSuffix

/-! ### Tags -/

/-- The characters of a tag. -/
def isTagChar (c : Char) : Bool :=
  ('a' ≤ c && c ≤ 'z') || ('A' ≤ c && c ≤ 'Z') || ('0' ≤ c && c ≤ '9') || c = '_' || c = '-' || c = ':'

/-- `validate_tag` of `mount`. -/
def validateTag (tag : String) : Except String Unit :=
  if tag = "" then .error "container tag cannot be empty"
  else if tag.utf8ByteSize > 100 then .error "container tag must be 100 characters or less"
  else match tag.toList.find? (fun c => !isTagChar c) with
    | some bad => .error ("container tag '" ++ tag ++ "' contains unsupported character '" ++ String.ofList [bad] ++
        "'. Allowed: a-z A-Z 0-9 _ - :")
    | none => .ok ()

/-! ### Blocks -/

/-- The text of a block before the path. -/
def introText : List Char :=
  "\n<!-- managed by `smfs mount`; auto-removed on `smfs unmount` -->\nThe directory `".toList

/-- The text from the path to its second place. -/
def usageText : List Char :=
  ("/` is a Supermemory mount with semantic search.\nWhen searching inside this directory, use:\n\n" ++
    "    smfs grep \"<natural language query>\" ").toList

/-- The text from there to its third place. -/
def adviceText : List Char :=
  ("/\n\ninstead of grep, rg, find, or your built-in search tool. It returns\nsemantically relevant excerpts via " ++
    "a vector index. For a quick high-\nlevel overview before searching, read `").toList

/-- The rest of the text. -/
def scopeText : List Char :=
  ("/profile.md` — it's\na reserved virtual file at the mount root with a summary of what\nthis container holds. " ++
    "Files outside this directory behave normally —\nthis rule is scoped to that path only.\n").toList

/-- What `render_block` puts between the markers, for a mount at the path. -/
def blockBody (pathStr : String) : List Char :=
  introText ++ pathStr.toList ++ (usageText ++ pathStr.toList) ++ (adviceText ++ pathStr.toList) ++ scopeText

/-- `render_block`. -/
def renderBlock (tag pathStr : String) : List Char := beginMarker tag ++
    (blockBody pathStr ++ (endMarker tag ++ ['\n']))

/-- `trim_end_matches('\n')`. -/
def trimEnd (text : List Char) : List Char := text.rdropWhile (· = '\n')

/-- Without the newlines it begins with. -/
def trimStart (text : List Char) : List Char := text.dropWhile (· = '\n')

/-- Where the text before a block ends in `strip_block`: after one more
character than what is left of it without its last newlines. -/
def headEnd (text : List Char) (beginIdx : ℕ) : ℕ :=
  let headEnd := (trimEnd (text.take beginIdx)).length
  if headEnd > 0 then headEnd + 1 else headEnd

/-- `strip_block`. -/
def stripBlock (text : List Char) (tag : String) : List Char :=
  match find (beginMarker tag) text with
  | none => text
  | some beginIdx =>
    let afterBegin := beginIdx + (beginMarker tag).length
    match find (endMarker tag) (text.drop afterBegin) with
    | none => text
    | some endRel =>
      let endIdx := afterBegin + endRel + (endMarker tag).length
      text.take (headEnd text beginIdx) ++ trimStart (text.drop endIdx)

/-- The loop of `find_all_blocks` over what follows the cursor. Each round goes
past a marker, so the length of the text is fuel enough. -/
def findBlocks : ℕ → List Char → List String
  | 0, _ => []
  | fuel + 1, text =>
    match find beginPrefix text with
    | none => []
    | some rel =>
      let tagStart := text.drop (rel + beginPrefix.length)
      match find beginSuffix tagStart with
      | none => []
      | some suffixRel =>
        String.ofList (tagStart.take suffixRel) :: findBlocks fuel (tagStart.drop (suffixRel + beginSuffix.length))

/-- `find_all_blocks`. -/
def findAllBlocks (text : List Char) : List String := findBlocks text.length text

/-- `trim_trailing_blank_lines`. -/
def trimTrailingBlankLines (s : List Char) : List Char :=
  let trimmed := trimEnd s
  if trimmed = [] then [] else trimmed ++ ['\n']

/-! ### Operations -/

/-- `write_block`. A file that does not exist has no text. -/
def writeBlock (original : List Char) (tag : String) (newBlock : List Char) : Option (List Char) :=
  let stripped := stripBlock original tag
  let updated := trimEnd stripped
  let updated := if updated ≠ [] then updated ++ ['\n', '\n'] else updated
  let updated := updated ++ newBlock
  if updated = original then none else some updated

/-- `remove_block`. -/
def removeBlock (original : List Char) (tag : String) : Option (List Char) :=
  let finalText := trimTrailingBlankLines (stripBlock original tag)
  if finalText = original then none else some finalText

/-- A tag that `sweep_one` removes: not the one to keep, and no daemon runs
under it. -/
def orphan (alive : String → Bool) (keepTag : Option String) (tag : String) : Bool :=
  some tag ≠ keepTag && !alive tag

/-- `sweep_one`, where `alive` says whether the process of a tag's pid file runs. -/
def sweepOne (alive : String → Bool) (keepTag : Option String) (text : List Char) : Option (List Char) :=
  let cleaned := (findAllBlocks text).filter (orphan alive keepTag)
  if cleaned = [] then none else some (trimTrailingBlankLines (cleaned.foldl stripBlock text))

/-! ### Newlines at the ends of a text -/

/-- Nothing but newlines. -/
def Blank (text : List Char) : Prop := ∀ c ∈ text, c = '\n'

theorem blank_line : Blank ['\n'] := by simp [Blank]

theorem blank_lines : Blank ['\n', '\n'] := by simp [Blank]

section Trim

variable {x y : List Char}

theorem trimEnd_eq_nil : trimEnd x = [] ↔ Blank x := by simp [trimEnd, Blank]

theorem trimEnd_split (x : List Char) : ∃ y, Blank y ∧ x = trimEnd x ++ y :=
  ⟨x.rtakeWhile (· = '\n'), fun c hc => by simpa using List.mem_rtakeWhile_imp hc,
    List.rdropWhile_append_rtakeWhile.symm⟩

theorem trimStart_split (x : List Char) : ∃ y, Blank y ∧ x = y ++ trimStart x :=
  ⟨x.takeWhile (· = '\n'), fun c hc => by simpa using List.mem_takeWhile_imp hc, List.takeWhile_append_dropWhile.symm⟩

theorem trimEnd_append (x : List Char) (h : trimEnd y ≠ []) : trimEnd (x ++ y) = x ++ trimEnd y := by
  have hne : y.reverse.dropWhile (· = '\n') ≠ [] := fun he => h (by simp [trimEnd, List.rdropWhile, he])
  simp only [trimEnd, List.rdropWhile, List.reverse_append, List.dropWhile_append, List.isEmpty_iff, hne, ite_false,
    List.reverse_reverse]

theorem trimEnd_append_blank (x : List Char) (h : Blank y) : trimEnd (x ++ y) = trimEnd x := by
  have hnil : y.reverse.dropWhile (· = '\n') = [] := by
    rw [List.dropWhile_eq_nil_iff]
    exact fun c hc => by simpa using h c (List.mem_reverse.mp hc)
  simp only [trimEnd, List.rdropWhile, List.reverse_append, List.dropWhile_append, hnil, List.isEmpty_nil, ite_true]

theorem trimStart_append_blank (y : List Char) (h : Blank x) : trimStart (x ++ y) = trimStart y := by
  have hnil : x.dropWhile (· = '\n') = [] := by
    rw [List.dropWhile_eq_nil_iff]
    exact fun c hc => by simpa using h c hc
  simp only [trimStart, List.dropWhile_append, hnil, List.isEmpty_nil, ite_true]

theorem trimEnd_of_last (h : x.getLast? ≠ some '\n') : trimEnd x = x := by
  refine List.rdropWhile_eq_self_iff.mpr fun hl => ?_
  rw [List.getLast?_eq_some_getLast hl] at h
  simpa using h

theorem trimStart_of_head (h : x.head? ≠ some '\n') : trimStart x = x := by
  cases x with
  | nil => rfl
  | cons c x => exact List.dropWhile_cons_of_neg (by simpa using h)

theorem trimEnd_last (x : List Char) : (trimEnd x).getLast? ≠ some '\n' := by
  intro h
  have hne : trimEnd x ≠ [] := by
    intro he
    rw [he] at h
    cases h
  have := List.rdropWhile_last_not (· = '\n') x hne
  rw [List.getLast?_eq_some_getLast hne] at h
  exact this (decide_eq_true (Option.some.inj h))

theorem trimEnd_trimEnd (x : List Char) : trimEnd (trimEnd x) = trimEnd x := trimEnd_of_last (trimEnd_last x)

end Trim

end Hint
end Smfs
