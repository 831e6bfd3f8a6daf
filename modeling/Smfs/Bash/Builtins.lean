/-
# The builtins of the Python shell

The commands of `_shell.py` besides those of `Shell.lean`, `Lines.lean` and
`Search.lean`, and the table of all of them. What a command takes from Python's
libraries, from the clock and from the search of the server is a `Library`.

Key definitions: `Library`, `cmdLs`, `cmdRm`, `cmdMv`, `cmdCp`, `cmdTest`, `cmdSort`, `cmdUniq`, `cmdFind`, `cmdSed`,
`cmdCut`, `table`, `builtins`.
-/
import Smfs.Bash.Search
import Smfs.Bash.Removal

namespace Smfs.Bash

open Turns

/-! ### Removals -/

namespace Py

/-- `remove_doc`. -/
def removeDoc (path : String) : Vol Unit := do
  match truthy (← python.lookupDocId path) with
  | none => return ()
  | some docId =>
    match ← request (deleteCall docId) with
    | .ok _ => dropPath path
    | .error e =>
      if e.status = some 409 then throwFs (ebusy path)
      else if e.status = some 404 then dropPath path
      else throwFs (eio ("remove_doc(" ++ path ++ "): " ++ e.message))

/-- What is left of the index and the cache. -/
def forgotten (pre : String) (failedIds : List String) (w : World) : World :=
  let h := Removal.py.evict pre
    ((Removal.py.paths w.index).foldl (Removal.Py.forget pre failedIds) (Removal.holdings w))
  { w with index := h.index, cache := h.cache }

/-- `remove_by_prefix`, of a prefix that is not empty. -/
def removeByPrefix (pre : String) : Vol RemoveByPrefixResult := do
  match ← request (bulkCall (Container.listed (some (withSlash pre)))) with
  | .error e => return ⟨0, ["remove_by_prefix(" ++ pre ++ "): " ++ e.message]⟩
  | .ok resp =>
    if resp.errors.all (·.1 ≠ "") then sync fun w => ((), forgotten pre (resp.errors.map Prod.fst) w)
    return ⟨resp.deletedCount, resp.errors.map stayText⟩

/-- `is_dir_empty`. -/
def isDirEmpty (time : ℤ) (path : String) : Vol Bool := do
  let pre := if path = "/" then path else path ++ "/"
  let probe ← listByPrefix time pre { limit := some 1 }
  if !probe.isEmpty then return false
  else look fun w => w.index.syntheticDirs.all fun d => !(d ≠ path && startsWith d pre)

end Py

namespace Shell

open Py (ExecResult)

/-- What the builtins take from elsewhere. -/
structure Library where
  /-- `time.time()`. -/
  time : ℤ
  /-- What `date` formats. -/
  date : String
  ask : Ask
  /-- `re.search` of a pattern, or of the text of one that is none, with the case ignored or not. -/
  search : String → Bool → String → Bool
  /-- `re.sub` of a pattern by a replacement, of every match or of the first, or its error. -/
  sub : String → String → Bool → String → Except String String
  fnmatch : String → String → Bool
  /-- The number a line begins with, as `float` reads it; else 0. -/
  number : String → ℚ

variable {σ α : Type}

/-! ### Arguments -/

/-- `[a for a in args if not a.startswith("-")]`. -/
def operands (args : List String) : List String := args.filter (!startsWith · "-")

def fault (cmd arg message : String) : ExecResult :=
  { stderr := cmd ++ ": " ++ arg ++ ": " ++ message ++ "\n", exitCode := 1 }

def missing (cmd arg : String) : ExecResult := fault cmd arg "No such file or directory"

/-- A loop over the operands, until one of them answers. -/
def forEach (body : String → Sh σ (Option ExecResult)) : List String → Sh σ ExecResult
  | [] => return {}
  | p :: rest => do
    match ← body p with
    | some result => return result
    | none => forEach body rest

/-- The parts that the operands give, until one of them answers. -/
def collect (part : String → Sh σ (Except ExecResult α)) : List String → Sh σ (Except ExecResult (List α))
  | [] => return .ok []
  | p :: rest => do
    match ← part p with
    | .error result => return .error result
    | .ok a =>
      match ← collect part rest with
      | .error result => return .error result
      | .ok parts => return .ok (a :: parts)

/-- A value, or what computing it raises. -/
def given : Except String α → Sh σ α
  | .ok a => return a
  | .error message => throw (.other message)

/-- `p.rsplit("/", 1)[-1]`. -/
def lastSegment (p : String) : String := String.ofList (p.toList.reverse.takeWhile (· ≠ '/')).reverse

/-- `p.rstrip("/")`. -/
def rstripSlash (p : String) : List Char := (p.toList.reverse.dropWhile (· = '/')).reverse

/-- The paths that `cur += f"/{seg}"` goes through. -/
def pathsFrom : String → List String → List String
  | _, [] => []
  | cur, seg :: rest => (cur ++ "/" ++ seg) :: pathsFrom (cur ++ "/" ++ seg) rest

/-- The lines of a text; what stands after a last newline is none. -/
def fullLines (text : String) : List String :=
  let lines := splitLines text
  if lines.getLast? = some "" then lines.dropLast else lines

/-! ### Texts -/

/-- The backslash sequences of `echo -e` and `printf`. -/
def interpreted (text : List Char) : List Char := unescape '\\' '\\' (unescape 't' '\t' (unescape 'n' '\n' text))

/-- `out.replace("%s", a, 1)`. -/
def fillFirst (a : List Char) : List Char → List Char
  | [] => []
  | [c] => [c]
  | x :: y :: rest => if x = '%' ∧ y = 's' then a ++ rest else x :: fillFirst a (y :: rest)

/-- `_cmd_printf`. -/
def cmdPrintf : Builtin σ := fun args _ =>
  match args with
  | [] => return {}
  | fmt :: rest =>
    return { stdout := String.ofList (rest.foldl (fun out a => fillFirst a.toList out) (interpreted fmt.toList)) }

/-- `_cmd_pwd`. -/
def cmdPwd : Builtin σ := fun _ _ => do
  return { stdout := (← looking fun s => s.cwd) ++ "\n" }

/-- `_cmd_basename`. -/
def cmdBasename : Builtin σ := fun args _ =>
  match args with
  | [] => return { stderr := "basename: missing operand\n", exitCode := 1 }
  | [p] => return { stdout := Py.lastName p ++ "\n" }
  | p :: suffix :: _ =>
    let name := Py.lastName p
    -- `name[: -len(suffix)]` is empty when the suffix is
    let stem := if suffix = "" then "" else String.ofList (name.toList.take (name.length - suffix.length))
    return { stdout := (if suffix.toList.isSuffixOf name.toList then stem else name) ++ "\n" }

/-- The text that `dirname` prints. -/
def dirnameOf (p : String) : String :=
  let path := rstripSlash p
  if '/' ∈ path then
    let before := (path.reverse.dropWhile (· ≠ '/')).tail.reverse
    if before = [] then "/" else String.ofList before
  else "."

/-- `_cmd_dirname`. -/
def cmdDirname : Builtin σ := fun args _ =>
  match args with
  | [] => return { stderr := "dirname: missing operand\n", exitCode := 1 }
  | p :: _ => return { stdout := dirnameOf p ++ "\n" }

/-- The lines that the loop of `uniq` goes through, each with how often it is
repeated, after a line that was seen so far. -/
def uniqRuns : List String → Option String → ℕ → List (ℕ × String)
  | [], prev, cnt => (prev.map fun l => (cnt, l)).toList
  | line :: rest, prev, cnt =>
    if some line = prev then uniqRuns rest prev (cnt + 1)
    else (prev.map fun l => (cnt, l)).toList ++ uniqRuns rest (some line) 1

/-- The text that `uniq` prints. -/
def uniqText (countMode : Bool) (text : String) : String :=
  let result := uniqRuns (fullLines text) none 0
  let out := joinLines (result.map fun r => if countMode then "  " ++ toString r.1 ++ " " ++ r.2 else r.2)
  if out = "" then "" else out ++ "\n"

/-- `_cmd_uniq`. -/
def cmdUniq : Builtin σ := fun args stdin => return { stdout := uniqText (args.contains "-c") stdin }

/-- `range(lo, hi)`. -/
def range (lo hi : ℤ) : List ℤ := (List.range (hi - lo).toNat).map fun i : ℕ => lo + i

/-- `range(lo, hi, step)`. -/
def rangeStep (lo hi step : ℤ) : Except String (List ℤ) :=
  if step = 0 then .error "range() arg 3 must not be zero"
  else if 0 < step then .ok ((range 0 ((hi - lo + step - 1) / step)).map fun i => lo + i * step)
  else .ok ((range 0 ((lo - hi - step - 1) / -step)).map fun i => lo + i * step)

/-- What `seq` is given and what it goes through. -/
def seqNumbers : List ℤ → Except String (Option (List ℤ))
  | [n] => .ok (some (range 1 (n + 1)))
  | [lo, hi] => .ok (some (range lo (hi + 1)))
  | [lo, step, hi] => (rangeStep lo (hi + 1) step).map some
  | _ => .ok none

/-- `_cmd_seq`. -/
def cmdSeq : Builtin σ := fun args _ => do
  let nums ← given ((operands args).mapM int)
  match ← given (seqNumbers nums) with
  | none => return { stderr := "seq: invalid arguments\n", exitCode := 1 }
  | some result => return { stdout := joinLines (result.map toString) ++ "\n" }

/-- The delimiter and the fields that `cut` is given. -/
def cutArgs : List String → String × String → String × String
  | [], given => given
  | [a], (delimiter, fields) =>
    if startsWith a "-d" then (sliceAfter a "-d", fields)
    else if startsWith a "-f" then (delimiter, sliceAfter a "-f") else (delimiter, fields)
  | a :: b :: rest, (delimiter, fields) =>
    if a = "-d" then cutArgs rest (b, fields)
    else if startsWith a "-d" then cutArgs (b :: rest) (sliceAfter a "-d", fields)
    else if a = "-f" then cutArgs rest (delimiter, b)
    else if startsWith a "-f" then cutArgs (b :: rest) (delimiter, sliceAfter a "-f")
    else cutArgs (b :: rest) (delimiter, fields)

/-- One part of a field list: a field, or a range of fields. -/
def cutField (part : String) : Except String (List ℤ) := do
  if '-' ∈ part.toList then
    let lo := String.ofList (part.toList.takeWhile (· ≠ '-'))
    let hi := String.ofList (part.toList.dropWhile (· ≠ '-')).tail
    let lo ← if lo = "" then pure 1 else int lo
    let hi ← if hi = "" then pure 999 else int hi
    return range lo (hi + 1)
  else return [← int part]

/-- `s.split(sep)`, of a separator that is not empty. -/
def splitText (sep : List Char) : List Char → List (List Char)
  | [] => [[]]
  | c :: cs =>
    if sep.isPrefixOf (c :: cs) then [] :: splitText sep (cs.drop (sep.length - 1))
    else match splitText sep cs with
      | [] => [[c]]
      | part :: parts => (c :: part) :: parts
  termination_by cs => cs.length
  decreasing_by
    · rw [List.length_drop, List.length_cons]
      omega
    · simp

/-- The fields of a line that are selected. -/
def cutLine (delimiter : String) (fields : List ℤ) (line : String) : String :=
  let parts := (splitText delimiter.toList line.toList).map String.ofList
  delimiter.intercalate (fields.filterMap fun f => if 0 < f then parts[(f - 1).toNat]? else none)

/-- `_cmd_cut`. -/
def cmdCut : Builtin σ := fun args stdin => do
  let (delimiter, fields) := cutArgs args ("\t", "")
  if fields = "" then return { stderr := "cut: missing field list\n", exitCode := 1 }
  else
    let indices ← given (((fields.toList.splitOn ',').map String.ofList).mapM cutField)
    if delimiter = "" then throw (.other "empty separator")
    else return { stdout := joinLines ((splitLines stdin).map (cutLine delimiter indices.flatten)) }

/-- `stdin.translate(table)`, where a later entry for a character counts. -/
def translate (set1 set2 : List Char) (c : Char) : Char :=
  ((set1.zip set2).reverse.lookup c).getD c

/-- `set2[:len(set1)].ljust(len(set1), set2[-1] if set2 else " ")`. -/
def padded (set1 set2 : List Char) : List Char :=
  set2.take set1.length ++ List.replicate (set1.length - set2.length) (set2.getLastD ' ')

/-- `_cmd_tr`. -/
def cmdTr : Builtin σ := fun args stdin =>
  match operands args with
  | [] => return { stderr := "tr: missing operand\n", exitCode := 1 }
  | set1 :: rest =>
    if args.contains "-d" then return { stdout := String.ofList (stdin.toList.filter (· ∉ set1.toList)) }
    else match rest with
      | [] => return { stderr := "tr: missing operand after SET1\n", exitCode := 1 }
      | set2 :: _ =>
        return { stdout := String.ofList (stdin.toList.map (translate set1.toList (padded set1.toList set2.toList))) }

/-! ### Files -/

section Files

variable (L : Library)

/-- The text of a file, if there is one. -/
def readFile (path : String) : Sh World (Option String) := do
  match ← onVolume ((client L.time).getDoc path) with
  | none => return none
  | some content => return some (← decode content)

/-- `f"     {i+1}\t{l}"`. -/
def numberedLine (line : String × ℕ) : String := "     " ++ toString (line.2 + 1) ++ "\t" ++ line.1

/-- `_cmd_cat`. -/
def cmdCat : Builtin World := fun args stdin => do
  let numbered := args.contains "-n"
  match operands args with
  | [] =>
    if numbered then
      let lines := splitLines stdin
      let out := joinLines ((lines.zipIdx.filter fun l => l.1 ≠ "" ∨ l.2 < lines.length - 1).map numberedLine)
      return { stdout := if out = "" then "" else out ++ "\n" }
    else return { stdout := stdin }
  | paths =>
    match ← readParts (client L.time) "cat" (fun _ text => text) paths with
    | .error result => return result
    | .ok parts =>
      let text := String.join parts
      return { stdout := if numbered then joinLines ((splitLines text).zipIdx.map numberedLine) else text }

/-- The lines in the order of `sort`, without the repeated ones if they are to be unique. -/
def sortedLines (reverse numeric unique : Bool) (lines : List String) : List String :=
  let le (s t : String) : Bool := if numeric then L.number s ≤ L.number t else s ≤ t
  let lines := lines.mergeSort fun s t => if reverse then le t s else le s t
  if unique then lines.eraseDups else lines

/-- The text that `sort` prints. -/
def sortText (reverse numeric unique : Bool) (text : String) : String :=
  let lines := sortedLines L reverse numeric unique (fullLines text)
  if lines.isEmpty then "" else joinLines lines ++ "\n"

/-- `_cmd_sort`. -/
def cmdSort : Builtin World := fun args stdin => do
  let sorted := sortText L (args.contains "-r") (args.contains "-n") (args.contains "-u")
  match operands args with
  | [] => return { stdout := sorted stdin }
  | paths =>
    match ← readParts (client L.time) "sort" (fun _ text => text) paths with
    | .error result => return result
    | .ok parts => return { stdout := sorted (String.join parts) }

/-- `_cmd_touch`. -/
def cmdTouch : Builtin World := fun args _ =>
  forEach (fun p => do
    let path ← resolve p
    match ← onVolume ((client L.time).getDoc path) with
    | some _ => return none
    | none =>
      onVolume ((client L.time).addDoc path " ")
      return none) (operands args)

/-- `_cmd_tee`. -/
def cmdTee : Builtin World := fun args stdin => do
  let _ ← forEach (fun p => do
    let path ← resolve p
    let prev ← if args.contains "-a" then previous (client L.time) path else pure ""
    onVolume ((client L.time).addDoc path (prev ++ stdin))
    return none) (operands args)
  return { stdout := stdin }

/-- What `r"s(.)(.+?)\1(.*?)\1(g?)"` matches: the pattern, the replacement, and whether every match is meant. -/
def sedParts : List Char → Option (String × String × Bool)
  | 's' :: c :: x :: rest =>
    let pattern := x :: rest.takeWhile (· ≠ c)
    match rest.dropWhile (· ≠ c) with
    | [] => none
    | _ :: rest =>
      let replacement := rest.takeWhile (· ≠ c)
      match rest.dropWhile (· ≠ c) with
      | [] => none
      | _ :: rest =>
        -- a dot matches no newline
        if c = '\n' ∨ '\n' ∈ pattern ∨ '\n' ∈ replacement then none
        else some (String.ofList pattern, String.ofList replacement, rest.head? = some 'g')
  | _ => none

/-- The lines of a text, each with what `apply_sed` makes of it. -/
def sedText (parts : String × String × Bool) (text : String) : Except String String :=
  ((splitLines text).mapM (L.sub parts.1 parts.2.1 parts.2.2)).map joinLines

/-- What `sed` prints of one file; in place it prints nothing and writes the file. -/
def sedFile (inPlace : Bool) (parts : String × String × Bool) (f : String) : Sh World (Except ExecResult String) := do
  let path ← resolve f
  match ← readFile L path with
  | none => return .error (missing "sed" f)
  | some content =>
    let result ← given (sedText L parts content)
    if inPlace then
      onVolume ((client L.time).addDoc path result)
      return .ok ""
    else return .ok result

/-- `_cmd_sed`. -/
def cmdSed : Builtin World := fun args stdin => do
  match args.filter (· ≠ "-i") with
  | [] => return { stderr := "sed: missing expression\n", exitCode := 1 }
  | expr :: files =>
    match sedParts expr.toList with
    | none => return { stderr := "sed: unsupported expression: " ++ expr ++ "\n", exitCode := 1 }
    | some parts =>
      if files.isEmpty then return { stdout := ← given (sedText L parts stdin) }
      else match ← collect (sedFile L (args.contains "-i") parts) files with
        | .error result => return result
        | .ok texts => return { stdout := String.join texts }

/-! ### Directories -/

/-- The entries of a directory by their names: whether it is a file, and its size. -/
abbrev Entries := List (String × Bool × ℕ)

/-- A document of the listing is an entry, or lies in one. -/
def addEntry (pre : String) (entries : Entries) (e : DocSummary) : Entries :=
  let rest := (sliceAfter e.filepath pre).toList
  let name := String.ofList (rest.takeWhile (· ≠ '/'))
  let isFile := !rest.contains '/'
  if rest = [] then entries
  else if entries.any (·.1 = name) then
    if isFile then entries else entries.map fun x => if x.1 = name then (name, false, 0) else x
  else entries ++ [(name, isFile, e.size)]

/-- A directory that holds nothing is an entry too. -/
def addSynthetic (pre : String) (entries : Entries) (d : String) : Entries :=
  let rest := sliceAfter d pre
  if startsWith d pre ∧ rest ≠ "" ∧ '/' ∉ rest.toList ∧ !entries.any (·.1 = rest) then entries ++ [(rest, false, 0)]
  else entries

/-- The entries of a directory, with what the listing has and what is marked. -/
def entriesOf (pre : String) (summaries : List DocSummary) (dirs : List String) : Entries :=
  dirs.foldl (addSynthetic pre) (summaries.foldl (addEntry pre) [])

/-- `f"{size:>8}"`. -/
def right8 (size : ℕ) : String := String.ofList (List.replicate (8 - (toString size).length) ' ') ++ toString size

/-- A line of `ls -l`. -/
def longLine (entries : Entries) (name : String) : String :=
  let entry := (entries.lookup name).getD (false, 0)
  (if entry.1 then "-rw-r--r--" else "drwxr-xr-x") ++ "  1 user user " ++ right8 entry.2 ++ "  " ++ name

/-- The names that are shown. -/
def shownNames (showAll : Bool) (entries : Entries) : List String :=
  (Py.sorted (entries.map Prod.fst)).filter fun n => showAll || !startsWith n "."

/-- One operand of `ls`. -/
def lsPath (longFormat showAll : Bool) (p : String) : Sh World (Except ExecResult String) := do
  let path ← resolve p
  let pre := if path = "/" then path else path ++ "/"
  let summaries ← calling (Py.listByPrefix L.time pre {})
  let isDir ← looking fun s => s.volume.index.isDirectory path
  if summaries.isEmpty && !isDir then
    match ← calling (Py.statDoc L.time path) with
    | some stat => if stat.isFile then return .ok (lastSegment p) else return .error (missing "ls" p)
    | none => return .error (missing "ls" p)
  else
    let entries ← looking fun s => entriesOf pre summaries (Py.sorted s.volume.index.syntheticDirs)
    let names := shownNames showAll entries
    return .ok (joinLines (if longFormat then names.map (longLine entries) else names))

/-- `_cmd_ls`. -/
def cmdLs : Builtin World := fun args _ => do
  let longFormat := args.contains "-l" || args.contains "-la" || args.contains "-al"
  let showAll := args.contains "-a" || args.contains "-la" || args.contains "-al"
  let paths := if (operands args).isEmpty then ["."] else operands args
  return partsResult (← collect (lsPath L longFormat showAll) paths)

/-- `_cmd_mkdir`. -/
def cmdMkdir : Builtin World := fun args _ =>
  let recursive := args.contains "-p"
  forEach (fun p => do
    let path ← resolve p
    if ← looking fun s => s.volume.index.isFile path then return some (fault "mkdir" p "Not a directory")
    else if (← looking fun s => s.volume.index.isDirectory path) && !recursive then
      return some (fault "mkdir" p "File exists")
    else
      let dirs := if recursive then pathsFrom "" (components path) else [path]
      calling (changeIndex fun ix => dirs.foldl PathIndex.markSyntheticDir ix)
      return none) (operands args)

/-- `_cmd_rm`. -/
def cmdRm : Builtin World := fun args _ =>
  let recursive := ["-r", "-rf", "-fr", "-R"].any (args.contains ·)
  let force := ["-f", "-rf", "-fr"].any (args.contains ·)
  forEach (fun p => do
    let path ← resolve p
    if ← looking fun s => s.volume.index.isDirOnly path then
      if !recursive then return some (fault "rm" p "is a directory")
      else
        let result ← calling (Py.removeByPrefix (withSlash path))
        if !result.errors.isEmpty && !force then
          return some { stderr := "rm: failed to remove some files\n", exitCode := 1 }
        else return none
    else
      match ← looking fun s => truthy (s.volume.index.resolve path) with
      | none => return if force then none else some (missing "rm" p)
      | some _ =>
        calling (Py.removeDoc path)
        return none) (operands args)

/-- `_cmd_rmdir`. -/
def cmdRmdir : Builtin World := fun args _ =>
  forEach (fun p => do
    let path ← resolve p
    if ← looking fun s => s.volume.index.isFile path then return some (fault "rmdir" p "Not a directory")
    else if !(← looking fun s => s.volume.index.isDirectory path) then return some (missing "rmdir" p)
    else if !(← calling (Py.isDirEmpty L.time path)) then return some (fault "rmdir" p "Directory not empty")
    else
      calling (changeIndex (·.removeSyntheticDir path))
      return none) (operands args)

/-- `_cmd_mv`. -/
def cmdMv : Builtin World := fun args _ => do
  match operands args with
  | a :: b :: _ =>
    let src ← resolve a
    let dest ← resolve b
    let dest ← looking fun s => Py.resolveDestIntoDir s.volume.index src dest
    if ← looking fun s => s.volume.index.isDirOnly src then
      let result ← calling (Py.moveTree L.time src dest)
      return if result.errors.isEmpty then {} else fault "mv" a "failed to move some files"
    else
      calling (python.moveDoc src dest)
      return {}
  | _ => return { stderr := "mv: missing operand\n", exitCode := 1 }

/-- `_cmd_cp`. -/
def cmdCp : Builtin World := fun args _ => do
  match operands args with
  | a :: b :: _ =>
    let src ← resolve a
    let dest ← resolve b
    calling (Py.cp L.time (["-r", "-R", "-a"].any (args.contains ·)) a src dest)
  | _ => return { stderr := "cp: missing operand\n", exitCode := 1 }

/-- `_cmd_stat`. -/
def cmdStat : Builtin World := fun args _ => do
  return partsResult (← collect (fun p => do
    let path ← resolve p
    match ← calling (Py.statDoc L.time path) with
    | none => return .error (missing "stat" p)
    | some s =>
      let kind := if s.isDirectory then "directory" else "regular file"
      let mode := if s.isDirectory then "0755" else "0644"
      return .ok ("  File: " ++ p ++ "\n  Size: " ++ toString s.size ++ "\t" ++ kind ++ "\nAccess: (" ++ mode ++ ")"))
    (operands args))

/-- `_cmd_cd`. -/
def cmdCd : Builtin World := fun args _ => do
  let target := args.headD "/home/user"
  let path ← resolve target
  let isDir ←
    if ← looking fun s => s.volume.index.isDirectory path then pure true
    else pure ((← calling (Py.statDoc L.time path)).any (·.isDirectory))
  if isDir then
    sync fun s => ((), { s with cwd := path })
    return {}
  else return missing "cd" target

/-- What `find` is given. -/
structure FindArgs where
  base : String := "."
  namePattern : Option String := none
  typeFilter : Option String := none

def findArgs : List String → FindArgs → FindArgs
  | [], f => f
  | [a], f => if startsWith a "-" then f else { f with base := a }
  | a :: b :: rest, f =>
    if a = "-name" then findArgs rest { f with namePattern := some b }
    else if a = "-type" then findArgs rest { f with typeFilter := some b }
    else findArgs (b :: rest) (if startsWith a "-" then f else { f with base := a })

/-- The pattern picks the name. -/
def FindArgs.named (f : FindArgs) (name : String) : Bool := f.namePattern.all (L.fnmatch name ·)

/-- A directory on the way, the first time that it is come to. -/
def findDir (f : FindArgs) (found : List String × List String) (dir : String) : List String × List String :=
  if found.2.contains dir then found
  else (if f.typeFilter ≠ some "f" ∧ f.named L (lastSegment dir) then found.1 ++ [dir] else found.1, found.2 ++ [dir])

/-- A document of the listing, after the directories on the way to it. -/
def findEntry (f : FindArgs) (base pre : String) (found : List String × List String) (e : DocSummary) :
    List String × List String :=
  let parts := ((sliceAfter e.filepath pre).toList.splitOn '/').map String.ofList
  let found := (pathsFrom base parts.dropLast).foldl (findDir L f) found
  (if f.typeFilter ≠ some "d" ∧ f.named L (lastSegment e.filepath) then found.1 ++ [e.filepath] else found.1, found.2)

/-- `_cmd_find`. -/
def cmdFind : Builtin World := fun args _ => do
  let f := findArgs args {}
  let base ← resolve f.base
  let summaries ← calling (Py.listByPrefix L.time (withSlash base) {})
  return { stdout := joinLines (summaries.foldl (findEntry L f base (withSlash base)) ([base], [])).1 ++ "\n" }

/-- `if args and args[-1] == "]": args = args[:-1]`. -/
def unbracketed (args : List String) : List String := if args.getLast? = some "]" then args.dropLast else args

theorem length_unbracketed (args : List String) : (unbracketed args).length ≤ args.length := by
  unfold unbracketed
  split_ifs
  · rw [List.length_dropLast]
    omega
  · exact le_rfl

/-- `ExecResult(exit_code=0 if b else 1)`. -/
def answer (b : Bool) : ExecResult := { exitCode := if b then 0 else 1 }

/-- A comparison of two numbers. -/
def compared (rel : ℤ → ℤ → Bool) (lhs rhs : String) : Sh σ ExecResult := do
  let l ← given (int lhs)
  return answer (rel l (← given (int rhs)))

/-- The conditions of three arguments. -/
def testThree (lhs op rhs : String) : Sh σ ExecResult :=
  if op = "=" then return answer (lhs = rhs)
  else if op = "!=" then return answer (lhs ≠ rhs)
  else if op = "-eq" then compared (fun l r => l = r) lhs rhs
  else if op = "-ne" then compared (fun l r => l ≠ r) lhs rhs
  else if op = "-gt" then compared (fun l r => r < l) lhs rhs
  else if op = "-lt" then compared (fun l r => l < r) lhs rhs
  else if op = "-ge" then compared (fun l r => r ≤ l) lhs rhs
  else if op = "-le" then compared (fun l r => l ≤ r) lhs rhs
  else return { stderr := "test: unrecognized condition\n", exitCode := 2 }

/-- `_cmd_test`. -/
def cmdTest (args : List String) (stdin : String) : Sh World ExecResult :=
  match _h : unbracketed args with
  | [] => return { exitCode := 1 }
  | [a] => return answer (a ≠ "")
  | op :: a :: rest =>
    if op = "-f" then do
      let path ← resolve a
      return answer ((← calling (Py.statDoc L.time path)).any (·.isFile))
    else if op = "-d" then do
      let path ← resolve a
      return answer (← looking fun s => s.volume.index.isDirectory path)
    else if op = "-e" then do
      let path ← resolve a
      return answer (← calling (Py.statDoc L.time path)).isSome
    else if op = "-z" then return answer (a = "")
    else if op = "-n" then return answer (a ≠ "")
    else if op = "!" then do
      let inner ← cmdTest (a :: rest) stdin
      return answer (inner.exitCode ≠ 0)
    else match rest with
      | rhs :: _ => testThree op a rhs
      | [] => return { stderr := "test: unrecognized condition\n", exitCode := 2 }
  termination_by args.length
  decreasing_by
    have := length_unbracketed args
    rw [_h] at this
    simp at this ⊢
    omega

/-- `_cmd_date`. -/
def cmdDate : Builtin World := fun _ _ => return { stdout := L.date ++ "\n" }

/-! ### The table -/

/-- The builtins by their names. -/
def table : List (String × Builtin World) :=
  [("echo", cmdEcho), ("printf", cmdPrintf), ("cat", cmdCat L), ("head", cmdHead (client L.time)),
   ("tail", cmdTail (client L.time)), ("ls", cmdLs L), ("mkdir", cmdMkdir), ("rm", cmdRm), ("rmdir", cmdRmdir L),
   ("mv", cmdMv L), ("cp", cmdCp L), ("touch", cmdTouch L), ("stat", cmdStat L), ("pwd", cmdPwd), ("cd", cmdCd L),
   ("test", cmdTest L), ("[", cmdTest L), ("grep", cmdGrep (client L.time) L.search), ("sgrep", cmdSgrep L.ask),
   ("wc", cmdWc (client L.time)), ("sort", cmdSort L), ("uniq", cmdUniq), ("find", cmdFind L), ("sed", cmdSed L),
   ("tee", cmdTee L), ("basename", cmdBasename), ("dirname", cmdDirname), ("true", cmdTrue), ("false", cmdFalse),
   ("cut", cmdCut), ("tr", cmdTr), ("seq", cmdSeq), ("date", cmdDate L)]

/-- `_builtins`. -/
def builtins (name : String) : Option (Builtin World) := (table L).lookup name

end Files

end Shell
end Smfs.Bash
