/-
# Semantic search

`sgrep` asks the service for passages and prints each on a line of its own,
the path before it. A result that names no file is looked up by its document
in the index; with a scope, only what lies in it is kept. The two clients differ
in how they read the arguments and in which id of a result they look up.

Key definitions: `search`, `parseSgrepArgs`, `formatSgrepOutput`, `sgrepCommand`, `Py.search`, `Py.cmdSgrep`, `readHits`.
Key theorems: `readHits_format`, `sgrep_read`, `sgrep_agree`.
-/
import Smfs.Lib.Escape
import Smfs.Bash.Lines

namespace Smfs.Bash

open Turns
open Py (ExecResult)

/-! ### The volume -/

structure SearchDocument where
  id : Option String
  documentId : Option String
  deriving DecidableEq, Repr

/-- A result of `client.search.memories`. -/
structure SearchRecord where
  id : String
  memory : Option String
  chunk : Option String
  filepath : Option String
  documents : List SearchDocument
  deriving DecidableEq, Repr

structure SearchParams where
  q : String
  filepath : Option String
  deriving DecidableEq, Repr

structure SearchResult where
  id : Option String
  filepath : Option String
  memory : Option String
  chunk : Option String
  deriving DecidableEq, Repr

/-- What the service finds, which is not in this repository. -/
abbrev Ask := SearchParams → Container → Except ApiError (List SearchRecord)

def searchCall (ask : Ask) (params : SearchParams) : List (String × String) → Container →
    Except ApiError (List SearchRecord) × Container :=
  fun _ s => (ask params s, s)

/-- Without a scope everything is kept, and with one what is at the path, or
under it if it ends in `/`. -/
def inScope (scope filepath : Option String) : Bool :=
  match truthy scope with
  | none => true
  | some f => match truthy filepath with
    | none => false
    | some p => if endsWithSlash f then startsWith p f else p = f

/-- The document of a record. -/
def SearchRecord.docId (r : SearchRecord) : String :=
  ((r.documents.head?.bind SearchDocument.id).or (r.documents.head?.bind SearchDocument.documentId)).getD r.id

/-- Its path, or the one that its document has in the index. -/
def SearchRecord.path (ix : PathIndex) (r : SearchRecord) : Option String :=
  r.filepath.or ((truthy (some r.docId)).bind ix.findPath)

def SearchRecord.result (ix : PathIndex) (r : SearchRecord) : SearchResult :=
  { id := some r.docId, filepath := r.path ix, memory := truthy r.memory, chunk := truthy r.chunk }

/-- `SupermemoryVolume.search`. -/
def search (ask : Ask) (params : SearchParams) : Vol (List SearchResult) := do
  match ← request (searchCall ask params) with
  | .error err => throwFs (eio ("search(" ++ params.q ++ "): " ++ err.message))
  | .ok records => look fun w =>
      (records.map (SearchRecord.result w.index)).filter fun r => inScope params.filepath r.filepath

/-! ### The command -/

structure SgrepArgs where
  query : String
  filepath : Option String
  help : Bool
  deriving DecidableEq, Repr

/-- The flags and the positional arguments, in their order. -/
def scanSgrep (filepath : Option String) (help : Bool) (positional : List String) :
    List String → Except String (Option String × Bool × List String)
  | [] => .ok (filepath, help, positional)
  | [a] =>
    if a = "--help" ∨ a = "-h" then .ok (filepath, true, positional)
    else if a = "-p" then .error "sgrep: -p requires an argument"
    else if startsWith a "-" then .error ("sgrep: unknown flag " ++ quoted a)
    else .ok (filepath, help, positional ++ [a])
  | a :: b :: rest =>
    if a = "--help" ∨ a = "-h" then scanSgrep filepath true positional (b :: rest)
    else if a = "-p" then scanSgrep (some b) help positional rest
    else if startsWith a "-" then .error ("sgrep: unknown flag " ++ quoted a)
    else scanSgrep filepath help (positional ++ [a]) (b :: rest)

/-- The last of several positional arguments is the scope if it is an absolute
path and no other scope is given. -/
def settle (filepath : Option String) (positional : List String) : SgrepArgs :=
  match filepath, positional.getLast? with
  | none, some last =>
    if 2 ≤ positional.length ∧ startsWith last "/" then ⟨" ".intercalate positional.dropLast, some last, false⟩
    else ⟨" ".intercalate positional, none, false⟩
  | _, _ => ⟨" ".intercalate positional, filepath, false⟩

def parseSgrepArgs (argv : List String) : Except String SgrepArgs :=
  match scanSgrep none false [] argv with
  | .error e => .error e
  | .ok (filepath, true, _) => .ok ⟨"", filepath, true⟩
  | .ok (_, false, []) => .error "sgrep: missing QUERY (try --help)"
  | .ok (filepath, false, a :: rest) => .ok (settle filepath (a :: rest))

/-- `s.replace(/x/g, by)`. -/
def replaceChar (x : Char) (new : List Char) (cs : List Char) : List Char :=
  cs.flatMap fun c => if c = x then new else [c]

def escapeForOneLine (s : String) : String :=
  String.ofList (replaceChar '\n' ['\\', 'n'] (replaceChar '\r' ['\\', 'r'] (replaceChar '\\' ['\\', '\\'] s.toList)))

/-- The memory of a result, or its chunk. -/
def SearchResult.content (r : SearchResult) : Option String := (truthy r.memory).or (truthy r.chunk)

/-- A result on one line; one that has no text has none. -/
def sgrepLine (includeDocIds : Bool) (r : SearchResult) : Option String :=
  r.content.map fun content =>
    let fp := r.filepath.getD "(unknown)"
    let shown := match truthy r.id with
      | some id => if includeDocIds then fp ++ " [doc:" ++ id ++ "]" else fp
      | none => fp
    shown ++ ":" ++ escapeForOneLine content

/-- The lines, with an empty one between each two. -/
def spaced (lines : List String) : String := if lines.isEmpty then "" else "\n\n".intercalate lines ++ "\n"

def formatSgrepOutput (results : List SearchResult) (includeDocIds : Bool) : String :=
  spaced (results.filterMap (sgrepLine includeDocIds))

def sgrepHelp : String :=
  "Usage: sgrep QUERY [PATH]\n" ++
  "       sgrep [-p PATH] QUERY\n" ++
  "  Semantic search across the Supermemory container. Output mirrors\n" ++
  "  grep: 'filepath:line' for every line in every matching passage,\n" ++
  "  ranked by semantic similarity descending.\n" ++
  "\n" ++
  "  PATH        Restrict to files whose path equals PATH (or starts\n" ++
  "              with PATH if it ends with '/'). Positional or via -p.\n" ++
  "  --help      Show this help.\n"

def Thrown.message : Thrown → String
  | .fs e => e.message
  | .api e => e.message

/-- `createSgrepCommand`; `ask` is missing if the file system has no volume. -/
def sgrepCommand (ask : Option Ask) (includeDocIds : Bool) (argv : List String) : Vol ExecResult :=
  match parseSgrepArgs argv with
  | .error e => return { stderr := e ++ "\n", exitCode := 2 }
  | .ok parsed =>
    if parsed.help then return { stdout := sgrepHelp }
    else match ask with
      | none => return { stderr := "sgrep: not a SupermemoryFs (missing volume reference)\n", exitCode := 1 }
      | some ask =>
        tryCatch (do
          let results ← search ask ⟨parsed.query, truthy parsed.filepath⟩
          return { stdout := formatSgrepOutput results includeDocIds })
          fun err => return { stderr := "sgrep: " ++ err.message ++ "\n", exitCode := 1 }

/-! ### The Python client -/

namespace Py

/-- The document of a record; none if the first document names none. -/
def recordId (r : SearchRecord) : Option String :=
  match r.documents with
  | [] => some r.id
  | d :: _ => (truthy d.id).or d.documentId

def searchResult (ix : PathIndex) (r : SearchRecord) : SearchResult :=
  { id := recordId r, filepath := r.filepath.or ((truthy (recordId r)).bind ix.findPath), memory := r.memory, chunk := r.chunk }

/-- `SupermemoryVolume.search`. -/
def search (ask : Ask) (params : SearchParams) : Vol (List SearchResult) := do
  match ← request (searchCall ask params) with
  | .error err => throwFs (eio ("search(" ++ params.q ++ "): " ++ err.message))
  | .ok records => look fun w =>
      (records.map (searchResult w.index)).filter fun r => inScope params.filepath r.filepath

/-- A `-p` that comes last is a flag like any other. -/
def scanSgrep (filepath : Option String) (positional : List String) :
    List String → Except String (Option String × List String)
  | [] => .ok (filepath, positional)
  | [a] =>
    if startsWith a "-" then .error ("sgrep: unknown flag " ++ quoted a) else .ok (filepath, positional ++ [a])
  | a :: b :: rest =>
    if a = "-p" then scanSgrep (some b) positional rest
    else if startsWith a "-" then .error ("sgrep: unknown flag " ++ quoted a)
    else scanSgrep filepath (positional ++ [a]) (b :: rest)

def sgrepHelp : String :=
  "Usage: sgrep QUERY [PATH]\n" ++
  "       sgrep [-p PATH] QUERY\n" ++
  "  Semantic search across the Supermemory container.\n"

def sgrepLine (r : SearchResult) : Option String :=
  r.content.map fun content => (truthy r.filepath).getD "(unknown)" ++ ":" ++ escapeForOneLine content

end Py

namespace Shell

/-- A call of the client. -/
def calling {α : Type} (x : Vol α) : Sh World α := do
  match ← sync fun s : State World => ((eval x s.volume).1, { s with volume := (eval x s.volume).2 }) with
  | .ok a => return a
  | .error e => throw (raised e)

theorem eval_calling {α : Type} (x : Vol α) (s : State World) : eval (calling x) s =
    ((eval x s.volume).1.mapError raised, { s with volume := (eval x s.volume).2 }) := by
  unfold calling
  rw [eval_bind, eval_sync, andThen_ok]
  rcases eval x s.volume with ⟨_ | a, w⟩
  · rfl
  · rfl

/-- What a command that raises answers. -/
def caught (name : String) {σ : Type} : Except Raised ExecResult × State σ → Except Raised ExecResult × State σ
  | (.error e, t) => (.ok { stderr := name ++ ": " ++ e.text ++ "\n", exitCode := 1 }, t)
  | (.ok out, t) => (.ok out, t)

theorem eval_callBuiltin {σ : Type} {V : Volume σ} {builtins : String → Option (Builtin σ)} {name : String}
    {handler : Builtin σ} (h : builtins name = some handler) (args : List String) (stdin : String) (s : State σ) :
    eval (callBuiltin V builtins name args [] stdin) s = caught name (eval (handler args stdin) s) := by
  unfold callBuiltin
  rw [h]
  simp only [eval_bind, eval_tryCatch]
  rcases eval (handler args stdin) s with ⟨e | out, t⟩
  · rfl
  · rfl

/-- `_cmd_sgrep`. -/
def cmdSgrep (ask : Ask) : Builtin World := fun args _ =>
  if args.contains "--help" || args.contains "-h" then return { stdout := Py.sgrepHelp }
  else match Py.scanSgrep none [] args with
    | .error e => return { stderr := e ++ "\n", exitCode := 2 }
    | .ok (_, []) => return { stderr := "sgrep: missing QUERY (try --help)\n", exitCode := 2 }
    | .ok (filepath, a :: rest) => do
      let parsed := settle filepath (a :: rest)
      let results ← calling (Py.search ask ⟨parsed.query, parsed.filepath⟩)
      return { stdout := spaced (results.filterMap Py.sgrepLine) }

end Shell

/-! ### What was printed, read back

The text of a line is escaped as `Escape.encode` escapes one, so it has no
newline, and a newline in the output ends a line. -/

open Lines

/-- The letter that a character is escaped with. -/
def lineLetter : Char → Option Char :=
  Function.update (Function.update (Function.update (fun _ => none) '\\' (some '\\')) '\r' (some 'r')) '\n' (some 'n')

def lineUnletter (c : Char) : Option Char :=
  if c = '\\' then some '\\' else if c = 'r' then some '\r' else if c = 'n' then some '\n' else none

/-- The path and the text of a line. -/
def readHit (line : List Char) : String × String :=
  (String.ofList (line.takeWhile (· ≠ ':')),
    String.ofList (Escape.decode '\\' lineUnletter ((line.dropWhile (· ≠ ':')).drop 1)))

def readHits (stdout : String) : List (String × String) :=
  ((stdout.toList.splitOn '\n').filter (· ≠ [])).map readHit

theorem lineLetter_code : Escape.Code '\\' lineLetter lineUnletter where
  escaped := by simp [lineLetter, Function.update]
  back x c h := by
    simp only [lineLetter, Function.update] at h
    grind [lineUnletter]

theorem toList_escapeForOneLine (s : String) :
    (escapeForOneLine s).toList = Escape.encode '\\' lineLetter s.toList := by
  have hfirst : replaceChar '\\' ['\\', '\\'] s.toList =
      Escape.encode '\\' (Function.update (fun _ => none) '\\' (some '\\')) s.toList := by
    unfold replaceChar Escape.encode
    apply List.flatMap_congr
    intro c _
    by_cases hc : c = '\\'
    · simp [hc]
    · simp [hc]
  have hsecond : replaceChar '\r' ['\\', 'r'] (Escape.encode '\\' (Function.update (fun _ => none) '\\' (some '\\'))
      s.toList) = Escape.encode '\\' (Function.update (Function.update (fun _ => none) '\\' (some '\\')) '\r' (some 'r'))
      s.toList :=
    Escape.encode_replace (by decide) (by decide) (by intro x d h; grind [Function.update]) s.toList
  have hthird : replaceChar '\n' ['\\', 'n'] (Escape.encode '\\'
      (Function.update (Function.update (fun _ => none) '\\' (some '\\')) '\r' (some 'r')) s.toList) =
      Escape.encode '\\' lineLetter s.toList :=
    Escape.encode_replace (by decide) (by decide) (by intro x d h; grind [Function.update]) s.toList
  unfold escapeForOneLine
  rw [String.toList_ofList, hfirst, hsecond, hthird]

theorem not_mem_escapeForOneLine (s : String) : '\n' ∉ (escapeForOneLine s).toList := by
  rw [toList_escapeForOneLine]
  apply Escape.not_mem_encode
  · simp [lineLetter]
  · decide
  · intro x c h
    simp only [lineLetter, Function.update] at h
    grind

/-- A line, as what it says. -/
def shownHit (hit : String × String) : String := hit.1 ++ ":" ++ escapeForOneLine hit.2

/-- The path of a file that a line shows: no colon ends it, and no newline the line. -/
def OnLine (path : String) : Prop := ':' ∉ path.toList ∧ '\n' ∉ path.toList

theorem readHit_shown {hit : String × String} (h : OnLine hit.1) : readHit (shownHit hit).toList = hit := by
  have hne : ∀ c ∈ hit.1.toList, decide (c ≠ ':') = true := by
    intro c hc
    have hcolon : c ≠ ':' := fun he => h.1 (he ▸ hc)
    simp [hcolon]
  have hline : (shownHit hit).toList = hit.1.toList ++ ':' :: (escapeForOneLine hit.2).toList := by
    simp [shownHit]
  unfold readHit
  rw [hline, List.takeWhile_append_of_pos hne, List.dropWhile_append_of_pos hne]
  simp [toList_escapeForOneLine, Escape.decode_encode lineLetter_code]

theorem shownHit_line {hit : String × String} (h : OnLine hit.1) :
    '\n' ∉ (shownHit hit).toList ∧ (shownHit hit).toList ≠ [] := by
  constructor
  · simp only [shownHit, String.toList_append, List.mem_append, not_or]
    exact ⟨⟨h.2, by decide⟩, not_mem_escapeForOneLine hit.2⟩
  · simp [shownHit]

/-- The lines with an empty one between each two are so many lines, each ended. -/
theorem toList_spaced (ls : List String) :
    (spaced ls).toList = ended '\n' ((ls.map String.toList).intersperse []) := by
  unfold spaced
  induction ls with
  | nil => rfl
  | cons l ls ih =>
    cases ls with
    | nil => simp
    | cons m ms =>
      simp only [List.isEmpty_cons, Bool.false_eq_true, if_false, String.toList_append, String.toList_intercalate,
        List.map_cons] at ih ⊢
      rw [List.intercalate_cons_cons, List.intersperse_cons_cons, ended_cons, ended_cons, ← ih]
      simp

theorem filter_intersperse_nil {α : Type} [DecidableEq α] {ls : List (List α)} (h : ∀ l ∈ ls, l ≠ []) :
    (ls.intersperse []).filter (· ≠ []) = ls := by
  induction ls with
  | nil => rfl
  | cons l ls ih =>
    have hl : l ≠ [] := h l (List.mem_cons_self)
    cases ls with
    | nil => simp [hl]
    | cons m ms =>
      have hrest := ih fun x hx => h x (List.mem_cons_of_mem _ hx)
      rw [List.intersperse_cons_cons, List.filter_cons_of_pos (by simpa using hl),
        List.filter_cons_of_neg (by simp), hrest]

/-- **The lines say what they were printed from.** -/
theorem readHits_spaced {hits : List (String × String)} (h : ∀ hit ∈ hits, OnLine hit.1) :
    readHits (spaced (hits.map shownHit)) = hits := by
  have hlines : ∀ l ∈ (hits.map shownHit).map String.toList, '\n' ∉ l ∧ l ≠ [] := by
    simp only [List.mem_map, exists_exists_and_eq_and]
    rintro l ⟨hit, hhit, rfl⟩
    exact shownHit_line (h hit hhit)
  have hsplit : ∀ l ∈ ((hits.map shownHit).map String.toList).intersperse [], '\n' ∉ l := by
    intro l hl
    by_cases hnil : l = []
    · simp [hnil]
    · have hmem : l ∈ (((hits.map shownHit).map String.toList).intersperse []).filter (· ≠ []) :=
        List.mem_filter.mpr ⟨hl, by simpa using hnil⟩
      rw [filter_intersperse_nil fun l hl => (hlines l hl).2] at hmem
      exact (hlines l hmem).1
  unfold readHits
  rw [toList_spaced, splitOn_ended hsplit, List.filter_append, filter_intersperse_nil fun l hl => (hlines l hl).2]
  simp only [ne_eq, not_true_eq_false, decide_false, Bool.false_eq_true, not_false_eq_true, List.filter_cons_of_neg,
    List.filter_nil, List.append_nil, List.map_map]
  calc hits.map (readHit ∘ String.toList ∘ shownHit) = hits.map id := by
        apply List.map_congr_left
        intro hit hhit
        exact readHit_shown (h hit hhit)
    _ = hits := List.map_id hits

/-- The path and the text that a record stands for, if it is in the scope and
has a text. -/
def SearchRecord.hit (ix : PathIndex) (scope : Option String) (r : SearchRecord) : Option (String × String) :=
  if inScope scope (r.path ix) then
    ((truthy r.memory).or (truthy r.chunk)).map fun text => ((r.path ix).getD "(unknown)", text)
  else none

theorem truthy_truthy (s : Option String) : truthy (truthy s) = truthy s := by
  simp [truthy, Option.filter_filter]

/-- A result shows what its record stands for. -/
theorem sgrepLine_result (ix : PathIndex) (r : SearchRecord) (scope : Option String) :
    (if inScope scope (r.path ix) then sgrepLine false (r.result ix) else none) = (r.hit ix scope).map shownHit := by
  unfold SearchRecord.hit
  split_ifs with h
  · simp only [sgrepLine, SearchResult.content, SearchRecord.result, truthy_truthy, Option.map_map]
    cases (truthy r.memory).or (truthy r.chunk) with
    | none => rfl
    | some text => cases htrue : truthy (some r.docId) <;> simp [shownHit]
  · rfl

theorem format_results (ix : PathIndex) (records : List SearchRecord) (scope : Option String) :
    formatSgrepOutput ((records.map (SearchRecord.result ix)).filter fun r => inScope scope r.filepath) false =
      spaced ((records.filterMap (SearchRecord.hit ix scope)).map shownHit) := by
  unfold formatSgrepOutput
  congr 1
  rw [List.filterMap_filter, List.filterMap_map, List.map_filterMap]
  apply List.filterMap_congr
  intro r _
  exact sgrepLine_result ix r scope

theorem searchCall_server (ask : Ask) (params : SearchParams) (w : World) :
    (w.send (searchCall ask params)).2.server = w.server := by
  rcases send_server w (searchCall ask params) with h | ⟨_, h⟩ <;> exact h

/-- A search that is answered gives the results of the records, and one that is
not raises an `EIO`. -/
theorem eval_search (ask : Ask) (params : SearchParams) (w : World) :
    eval (search ask params) w = match w.send (searchCall ask params) with
      | (.ok records, u) =>
        (.ok ((records.map (SearchRecord.result u.index)).filter fun r => inScope params.filepath r.filepath), u)
      | (.error err, u) => (.error (.fs (eio ("search(" ++ params.q ++ "): " ++ err.message))), u) := by
  unfold search
  rw [eval_bind, eval_request, andThen_ok]
  rcases w.send (searchCall ask params) with ⟨_ | records, u⟩
  · rfl
  · rfl

theorem inScope_truthy (scope filepath : Option String) : inScope (truthy scope) filepath = inScope scope filepath := by
  simp [inScope, truthy_truthy]

/-- **What `sgrep` prints says, in the order of the service, which path and
which text each record in the scope stands for**, where no path that is printed
has a colon or an end of line in it; nothing is changed. -/
theorem sgrep_read {ask : Ask} {argv : List String} {parsed : SgrepArgs} {records : List SearchRecord} {w : World}
    (hparsed : parseSgrepArgs argv = .ok parsed) (hhelp : parsed.help = false)
    (hanswer : (w.send (searchCall ask ⟨parsed.query, truthy parsed.filepath⟩)).1 = .ok records)
    (hpaths : ∀ r ∈ records, ∀ hit, r.hit w.index parsed.filepath = some hit → OnLine hit.1) :
    ∃ out u, eval (sgrepCommand (some ask) false argv) w = (.ok out, u) ∧ out.exitCode = 0 ∧ out.stderr = "" ∧
      readHits out.stdout = records.filterMap (SearchRecord.hit w.index parsed.filepath) ∧
      u.server = w.server ∧ u.index = w.index ∧ u.cache = w.cache := by
  obtain ⟨hindex, hcache, -⟩ := send_kept w (searchCall ask ⟨parsed.query, truthy parsed.filepath⟩)
  have hserver := searchCall_server ask ⟨parsed.query, truthy parsed.filepath⟩ w
  rcases hsend : w.send (searchCall ask ⟨parsed.query, truthy parsed.filepath⟩) with ⟨answer, u⟩
  rw [hsend] at hanswer hindex hcache hserver
  simp only at hanswer hindex hcache hserver
  subst hanswer
  have hsearch := eval_search ask ⟨parsed.query, truthy parsed.filepath⟩ w
  rw [hsend] at hsearch
  simp only [inScope_truthy, hindex] at hsearch
  refine ⟨{ stdout := formatSgrepOutput ((records.map (SearchRecord.result w.index)).filter fun r =>
    inScope parsed.filepath r.filepath) false }, u, ?_, rfl, rfl, ?_, hserver, hindex, hcache⟩
  · unfold sgrepCommand
    rw [hparsed]
    simp only [hhelp, Bool.false_eq_true, if_false]
    rw [eval_tryCatch, eval_bind, hsearch, andThen_ok]
    rfl
  · rw [format_results, readHits_spaced]
    intro hit hmem
    obtain ⟨r, hr, hhit⟩ := List.mem_filterMap.mp hmem
    exact hpaths r hr hit hhit

/-- A service that finds two passages, the second of a document that the index
knows. -/
def twoPassages : Ask := fun _ _ =>
  .ok [⟨"a", some "one\ntwo", none, some "/a.md", []⟩, ⟨"b", none, some "back\\slash", none, []⟩]

def knowing : World := ⟨.empty, PathIndex.new.insert "/b.md" "b", .new none none fun _ => 0, []⟩

theorem sgrep_read_two : ∃ out u, eval (sgrepCommand (some twoPassages) false ["two"]) knowing = (.ok out, u) ∧
    out.exitCode = 0 ∧ out.stderr = "" ∧
    readHits out.stdout = [("/a.md", "one\ntwo"), ("/b.md", "back\\slash")] ∧
    u.server = knowing.server ∧ u.index = knowing.index ∧ u.cache = knowing.cache := by
  have hparsed : parseSgrepArgs ["two"] = .ok ⟨"two", none, false⟩ := by decide
  have hanswer : (knowing.send (searchCall twoPassages ⟨"two", none⟩)).1 = .ok
      [⟨"a", some "one\ntwo", none, some "/a.md", []⟩, ⟨"b", none, some "back\\slash", none, []⟩] := rfl
  refine sgrep_read hparsed rfl hanswer ?_
  intro r hr hit hhit
  rcases List.mem_pair.mp hr with rfl | rfl
  · cases hhit
    exact ⟨by decide, by decide⟩
  · cases hhit
    exact ⟨by decide, by decide⟩

/-! ### The two clients -/

/-- Where the clients do not differ: the first document of a record has an id,
and the path that is found is not empty. -/
structure SearchRecord.Plain (ix : PathIndex) (r : SearchRecord) : Prop where
  named : ∀ d ∈ r.documents.head?, ∃ id, truthy d.id = some id
  placed : r.path ix ≠ some ""

theorem truthy_eq_some {s : Option String} {id : String} (h : truthy s = some id) : s = some id ∧ id ≠ "" := by
  unfold truthy at h
  obtain ⟨hs, hne⟩ := Option.filter_eq_some_iff.mp h
  exact ⟨hs, by simpa using hne⟩

theorem SearchRecord.Plain.recordId {ix : PathIndex} {r : SearchRecord} (h : r.Plain ix) :
    Py.recordId r = some r.docId := by
  unfold Py.recordId SearchRecord.docId
  cases hd : r.documents with
  | nil => simp
  | cons d ds =>
    obtain ⟨id, hid⟩ := h.named d (by simp [hd])
    simp [(truthy_eq_some hid).1, truthy_some.mpr (truthy_eq_some hid).2]

/-- The line of a plain record is the same. -/
theorem SearchRecord.Plain.line {ix : PathIndex} {r : SearchRecord} (h : r.Plain ix) :
    (Py.searchResult ix r).filepath = r.path ix ∧ Py.sgrepLine (Py.searchResult ix r) = sgrepLine false (r.result ix) := by
  have hpath : (Py.searchResult ix r).filepath = r.path ix := by
    simp [Py.searchResult, SearchRecord.path, h.recordId]
  have hshown : (truthy (r.path ix)).getD "(unknown)" = (r.path ix).getD "(unknown)" := by
    cases hp : r.path ix with
    | none => rfl
    | some p =>
      have hne : p ≠ "" := fun he => h.placed (he ▸ hp)
      rw [truthy_some.mpr hne]
  refine ⟨hpath, ?_⟩
  simp only [Py.sgrepLine, sgrepLine, hpath, hshown, SearchResult.content]
  simp only [Py.searchResult, SearchRecord.result, truthy_truthy]
  cases (truthy r.memory).or (truthy r.chunk) with
  | none => rfl
  | some text => cases truthy (some r.docId) <;> simp

/-- The two scans differ at a `-p` that comes last, which both refuse. -/
theorem scanSgrep_agree {args : List String} (hhelp : ∀ a ∈ args, a ≠ "--help" ∧ a ≠ "-h") (filepath : Option String)
    (positional : List String) :
    scanSgrep filepath false positional args = (Py.scanSgrep filepath positional args).map (fun r => (r.1, false, r.2)) ∨
      ∃ e e', scanSgrep filepath false positional args = .error e ∧ Py.scanSgrep filepath positional args = .error e' := by
  induction filepath, positional, args using Py.scanSgrep.induct with
  | case1 filepath positional => exact .inl rfl
  | case2 filepath positional a hdash =>
    right
    simp only [scanSgrep, Py.scanSgrep, hdash, if_true]
    have ha := hhelp a (by simp)
    simp only [ha.1, ha.2, or_self, if_false]
    split_ifs <;> exact ⟨_, _, rfl, rfl⟩
  | case3 filepath positional a hdash =>
    left
    have ha := hhelp a (by simp)
    have hp : a ≠ "-p" := by
      rintro rfl
      exact hdash (by decide)
    simp [scanSgrep, Py.scanSgrep, hdash, ha.1, ha.2, hp, Except.map]
  | case4 filepath positional b rest ih =>
    simpa [scanSgrep, Py.scanSgrep] using ih fun a ha => hhelp a (by simp [ha])
  | case5 filepath positional a b rest hp hdash =>
    right
    have ha := hhelp a (by simp)
    simp [scanSgrep, Py.scanSgrep, hdash, ha.1, ha.2, hp]
  | case6 filepath positional a b rest hp hdash ih =>
    have ha := hhelp a (by simp)
    have hrest := ih fun x hx => hhelp x (List.mem_cons_of_mem _ hx)
    simpa [scanSgrep, Py.scanSgrep, hdash, ha.1, ha.2, hp] using hrest

@[simp] theorem settle_help (filepath : Option String) (positional : List String) :
    (settle filepath positional).help = false := by
  unfold settle
  split
  · split_ifs <;> rfl
  · rfl

/-- A search of the Python client gives the same lines, or fails with it. -/
theorem Py.eval_search (ask : Ask) (params : SearchParams) (w : World) :
    eval (Py.search ask params) w = match w.send (searchCall ask params) with
      | (.ok records, u) =>
        (.ok ((records.map (Py.searchResult u.index)).filter fun r => inScope params.filepath r.filepath), u)
      | (.error err, u) => (.error (.fs (eio ("search(" ++ params.q ++ "): " ++ err.message))), u) := by
  unfold Py.search
  rw [eval_bind, eval_request, andThen_ok]
  rcases w.send (searchCall ask params) with ⟨_ | records, u⟩
  · rfl
  · rfl

theorem lines_agree {ix : PathIndex} {records : List SearchRecord} (h : ∀ r ∈ records, r.Plain ix) (scope : Option String) :
    ((records.map (Py.searchResult ix)).filter fun r => inScope scope r.filepath).filterMap Py.sgrepLine =
      ((records.map (SearchRecord.result ix)).filter fun r => inScope scope r.filepath).filterMap (sgrepLine false) := by
  rw [List.filterMap_filter, List.filterMap_map, List.filterMap_filter, List.filterMap_map]
  apply List.filterMap_congr
  intro r hr
  obtain ⟨hpath, hline⟩ := (h r hr).line
  simp only [Function.comp_apply, hpath, hline]
  rfl

/-- What the Python shell and the command of the TypeScript client answer:
the same output and exit code, and the same is left. -/
structure SameAnswer (ts : Except Thrown ExecResult × World) (s : Shell.State World)
    (py : Except Shell.Raised ExecResult × Shell.State World) : Prop where
  state : py.2 = { s with volume := ts.2 }
  output : ∃ out out', ts.1 = .ok out ∧ py.1 = .ok out' ∧ out'.stdout = out.stdout ∧ out'.exitCode = out.exitCode

/-- The searches of the two commands, with the scope and the query parsed. -/
theorem search_agree {ask : Ask} {s : Shell.State World} {parsed : SgrepArgs} (hscope : parsed.filepath ≠ some "")
    (hplain : ∀ params records, (s.volume.send (searchCall ask params)).1 = .ok records →
      ∀ r ∈ records, r.Plain s.volume.index) :
    SameAnswer
      (eval (tryCatch (do
          let results ← search ask ⟨parsed.query, truthy parsed.filepath⟩
          return ({ stdout := formatSgrepOutput results false } : ExecResult))
        fun err => return { stderr := "sgrep: " ++ err.message ++ "\n", exitCode := 1 }) s.volume) s
      (Shell.caught "sgrep" (eval (do
          let results ← Shell.calling (Py.search ask ⟨parsed.query, parsed.filepath⟩)
          return ({ stdout := spaced (results.filterMap Py.sgrepLine) } : ExecResult)) s)) := by
  have htruthy : truthy parsed.filepath = parsed.filepath := by
    cases hf : parsed.filepath with
    | none => rfl
    | some f => exact truthy_some.mpr fun he => hscope (he ▸ hf)
  rw [htruthy, eval_tryCatch, eval_bind, eval_bind, Shell.eval_calling, eval_search, Py.eval_search]
  have hkept := (send_kept s.volume (searchCall ask ⟨parsed.query, parsed.filepath⟩)).1
  rcases hsend : s.volume.send (searchCall ask ⟨parsed.query, parsed.filepath⟩) with ⟨err | records, u⟩
  · exact ⟨rfl, _, _, rfl, rfl, rfl, rfl⟩
  · rw [hsend] at hkept
    simp only at hkept
    have hlines := lines_agree (hplain _ records (by rw [hsend])) parsed.filepath
    rw [← hkept] at hlines
    refine ⟨rfl, _, _, rfl, rfl, ?_, rfl⟩
    exact congrArg spaced hlines

/-- **The two clients print the same for a search**, whether the service fails
or what it answers, if that is plain; a help that is asked for and an empty
scope they take in different ways. -/
theorem sgrep_agree {ask : Ask} {args : List String} {s : Shell.State World} {V : Shell.Volume World}
    {builtins : String → Option (Shell.Builtin World)} (hbuiltin : builtins "sgrep" = some (Shell.cmdSgrep ask))
    (hhelp : ∀ a ∈ args, a ≠ "--help" ∧ a ≠ "-h")
    (hscope : ∀ parsed, parseSgrepArgs args = .ok parsed → parsed.filepath ≠ some "")
    (hplain : ∀ params records, (s.volume.send (searchCall ask params)).1 = .ok records →
      ∀ r ∈ records, r.Plain s.volume.index) (stdin : String) :
    SameAnswer (eval (sgrepCommand (some ask) false args) s.volume) s
      (eval (Shell.callBuiltin V builtins "sgrep" args [] stdin) s) := by
  have hno : (args.contains "--help" || args.contains "-h") = false := by
    rw [Bool.or_eq_false_iff, ← Bool.not_eq_true, ← Bool.not_eq_true, List.contains_iff_mem, List.contains_iff_mem]
    exact ⟨fun h => (hhelp _ h).1 rfl, fun h => (hhelp _ h).2 rfl⟩
  rw [Shell.eval_callBuiltin hbuiltin]
  unfold Shell.cmdSgrep
  rw [hno]
  simp only [Bool.false_eq_true, if_false]
  rcases scanSgrep_agree hhelp none [] with hscan | ⟨e, e', hscan, hscan'⟩
  · cases hpy : Py.scanSgrep none [] args with
    | error e =>
      rw [hpy] at hscan
      unfold sgrepCommand parseSgrepArgs
      rw [hscan]
      exact ⟨rfl, _, _, rfl, rfl, rfl, rfl⟩
    | ok r =>
      obtain ⟨filepath, positional⟩ := r
      rw [hpy] at hscan
      cases positional with
      | nil =>
        unfold sgrepCommand parseSgrepArgs
        rw [hscan]
        exact ⟨rfl, _, _, rfl, rfl, rfl, rfl⟩
      | cons a rest =>
        have hparsed : parseSgrepArgs args = .ok (settle filepath (a :: rest)) := by
          unfold parseSgrepArgs
          rw [hscan]
          rfl
        unfold sgrepCommand
        rw [hparsed]
        simp only [settle_help, Bool.false_eq_true, if_false]
        exact search_agree (hscope _ hparsed) hplain
  · unfold sgrepCommand parseSgrepArgs
    rw [hscan, hscan']
    exact ⟨rfl, _, _, rfl, rfl, rfl, rfl⟩

/-- A shell that can search. -/
def searching : String → Option (Shell.Builtin World)
  | "sgrep" => some (Shell.cmdSgrep twoPassages)
  | _ => none

def knowingShell : Shell.State World := ⟨knowing, "/", fun _ => none, 0⟩

theorem sgrep_agree_two : SameAnswer (eval (sgrepCommand (some twoPassages) false ["two", "/"]) knowingShell.volume)
    knowingShell (eval (Shell.callBuiltin (Shell.client 0) searching "sgrep" ["two", "/"] [] "") knowingShell) := by
  have hargs : ∀ a ∈ ["two", "/"], a ≠ "--help" ∧ a ≠ "-h" := by decide
  have hbuiltin : searching "sgrep" = some (Shell.cmdSgrep twoPassages) := rfl
  refine sgrep_agree hbuiltin hargs ?_ ?_ ""
  · intro parsed hparsed
    cases hparsed
    decide
  · intro params records hrecords r hr
    cases hrecords
    rcases List.mem_pair.mp hr with rfl | rfl
    · exact ⟨by simp, by decide⟩
    · exact ⟨by simp, by decide⟩

end Smfs.Bash
