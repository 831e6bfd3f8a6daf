/-
# The volume of the TypeScript client

The methods of `SupermemoryVolume` in `volume.ts`, as computations whose
sections are the code between two awaits and the requests themselves. The two
tree operations start their documents in batches of four that run at once: the
schedule of a batch says who goes on when, and `Promise.all` is `interleave`.

Key definitions: `lookupDocId`, `addDoc`, `getDoc`, `removeDoc`, `removeByPrefix`, `moveDoc`, `listByPrefix`,
`statDoc`, `moveTree`, `copyTree`.
-/
import Smfs.Bash.Client

namespace Smfs.Bash

open Turns

structure DocResult where
  id : String
  content : Content
  status : DocStatus
  errorReason : Option String
  deriving DecidableEq

structure DocSummary where
  id : String
  filepath : String
  status : DocStatus
  size : ℕ
  mtime : ℤ
  content : Option String
  deriving DecidableEq

structure DocStat where
  id : Option String
  isFile : Bool
  isDirectory : Bool
  size : ℕ
  mtime : ℤ
  status : Option DocStatus
  deriving DecidableEq

structure ListByPrefixOpts where
  withContent : Bool := false
  exact : Bool := false
  limit : Option ℕ := none

structure RemoveByPrefixResult where
  deleted : ℕ
  errors : List String

/-! ### Documents -/

/-- The listing that asks for one path. -/
def exactly (path : String) (includeContent : Bool) : ListParams := ⟨some path, 1, 1, includeContent⟩

/-- The path leaves the index and the cache. -/
def World.drop (w : World) (path : String) : World :=
  { w with index := w.index.remove path, cache := w.cache.delete path }

def dropPath (path : String) : Vol Unit := sync fun w => ((), w.drop path)

/-- A document that was written or fetched is indexed and cached. -/
def World.keep (w : World) (path id : String) (content : Content) (status : DocStatus) : World :=
  { w with index := w.index.insert path id, cache := w.cache.set path content status }

def lookupDocId (path : String) : Vol (Option String) := do
  match ← look fun w => truthy (w.index.resolve path) with
  | some cached => return some cached
  | none =>
    match ← listRequest (exactly path false) with
    | .error e => throwFs (eio ("lookupDocId(" ++ path ++ "): " ++ e.message))
    | .ok resp =>
      match resp.memories.head? with
      | none => return none
      | some m =>
        if m.filepath = some path then
          changeIndex (·.insert path m.id)
          return some m.id
        else return none

def filterArgFor (pre : String) (exact : Bool) : Option String :=
  if pre = "" then none else if exact then some pre else some (withSlash pre)

/-- What `addDoc` writes with: the update of a document, or a new one. -/
def writeCall (existing : Option String) (path content : String) :
    List (String × String) → Container → Except ApiError Memory × Container := fun _ s =>
  match existing with
  | some id => s.update id (some content) path
  | none => (.ok (s.add path content).1, (s.add path content).2)

def addDoc (path : String) (content : Content) : Vol (String × DocStatus) := do
  match content with
  | .bytes _ => throwFs (.make "EFBIG" (-27) ("file too large, " ++ quoted path))
  | .text data =>
    match ← look fun w => assertWritable w.index path .addDoc with
    | some e => throwFs e
    | none =>
      match ← request (writeCall (← look fun w => truthy (w.index.resolve path)) path data) with
      | .error e => throwFs (eio ("addDoc(" ++ path ++ "): " ++ e.message))
      | .ok m =>
        let status := normalizeStatus (m.status.getD "unknown")
        sync fun w => ((), w.keep path m.id content status)
        return (m.id, status)

def updateDoc (path : String) (content : Content) : Vol (String × DocStatus) := do
  match truthy (← lookupDocId path) with
  | none => throwFs (enoent path)
  | some _ => addDoc path content

/-- The text of a document that could not be processed. -/
def failedContent (errorReason : String) : String :=
  "[supermemory.error: processing-failed]\n\nThis document could not be processed.\nReason: " ++ errorReason

/-- The first of the error fields that says something. -/
def Memory.reason (m : Memory) : String :=
  ((truthy m.errorMessage).or <| (truthy m.errorReason).or <| (truthy m.error).or (truthy m.failureReason)).getD "(unknown)"

def Memory.docStatus (m : Memory) : DocStatus := normalizeStatus (m.status.getD "unknown")

/-- A document that was fetched; one without an id is not indexed. -/
def World.fetched (w : World) (path id : String) (content : Content) (status : DocStatus) : World :=
  { w with index := if id = "" then w.index else w.index.insert path id, cache := w.cache.set path content status }

/-- What is cached, of a path with a document. -/
def cachedDoc (path : String) : Vol (Option (String × CachedEntry)) := do
  match ← cacheGet path with
  | none => return none
  | some c => return (truthy (← look fun w => w.index.resolve path)).map fun id => (id, c)

/-- The answer of `getDoc` for a document as the server has it. -/
def Memory.result (m : Memory) : DocResult :=
  match m.docStatus with
  | .failed => ⟨m.id, .text (failedContent m.reason), .failed, some m.reason⟩
  | status => ⟨m.id, .text (m.content.getD ""), status, none⟩

def getDoc (path : String) : Vol (Option DocResult) := do
  match ← cachedDoc path with
  | some (id, c) => return some ⟨id, c.content, c.status, none⟩
  | none =>
    match ← listRequest (exactly path true) with
    | .error e => throwFs (eio ("getDoc(" ++ path ++ "): " ++ e.message))
    | .ok resp =>
      match resp.memories.head? with
      | none => do
        dropPath path
        return none
      | some m =>
        if m.filepath.any (· ≠ path) then
          dropPath path
          return none
        else
          sync fun w => ((), w.fetched path m.id m.result.content m.docStatus)
          return some m.result

def deleteCall (docId : String) : List (String × String) → Container → Except ApiError Unit × Container :=
  fun _ s => s.delete docId

def removeDoc (path : String) : Vol Unit := do
  match truthy (← lookupDocId path) with
  | none => return ()
  | some docId =>
    match ← request (deleteCall docId) with
    | .ok _ => dropPath path
    | .error e =>
      if e.status = some 409 then throwFs (ebusy path)
      else if e.status = some 404 then dropPath path
      else throwFs (eio ("removeDoc(" ++ path ++ "): " ++ e.message))

/-- The document has a new path, and its cached content with it. -/
def World.relocate (w : World) (src dest docId : String) : World :=
  let (cached, cache) := w.cache.get src
  { w with
    index := (w.index.remove src).insert dest docId
    cache := match cached with
      | none => cache
      | some c => (cache.set dest c.content c.status).delete src }

/-- An update without content changes the path. -/
def renameCall (docId dest : String) : List (String × String) → Container → Except ApiError Memory × Container :=
  fun _ s => s.update docId none dest

/-- The last request of a move. -/
def renameDoc (docId src dest : String) : Vol Unit := do
  match ← request (renameCall docId dest) with
  | .error e =>
    if e.status = some 404 then
      dropPath src
      throwFs (enoent src)
    else if e.status = some 409 then throwFs (ebusy src)
    else throwFs (eio ("moveDoc(" ++ src ++ " → " ++ dest ++ "): " ++ e.message))
  | .ok _ => sync fun w => ((), w.relocate src dest docId)

def moveDoc (src dest : String) : Vol Unit := do
  match ← look fun w => assertWritable w.index dest .moveDoc with
  | some e => throwFs e
  | none =>
    match truthy (← lookupDocId src) with
    | none => throwFs (enoent src)
    | some docId =>
      match truthy (← lookupDocId dest) with
      | some _ => throwFs (eexist dest)
      | none => renameDoc docId src dest

/-! ### Listings -/

def Memory.summary (m : Memory) (path : String) : DocSummary :=
  ⟨m.id, path, m.docStatus, (m.content.map utf16Length).getD 0, m.updatedAt.getD 0, m.content⟩

/-- The path of a document, if `listByPrefix` takes it. -/
def taken (pre : String) (exact : Bool) (m : Memory) : Option String :=
  m.filepath.filter fun p => if exact then p = pre else startsWith p pre

/-- One document of a listing: what the client keeps of it. -/
def note (withContent : Bool) (w : World) (path : String) (m : Memory) : World :=
  { w with
    index := w.index.insert path m.id
    cache := match withContent, m.content with
      | true, some content => w.cache.set path (.text content) m.docStatus
      | _, _ => w.cache }

/-- The documents of one page, until there are enough; whether there are. -/
def visit (pre : String) (opts : ListByPrefixOpts) :
    List Memory → List DocSummary → World → (List DocSummary × Bool) × World
  | [], out, w => ((out, false), w)
  | m :: ms, out, w =>
    match taken pre opts.exact m with
    | none => visit pre opts ms out w
    | some path =>
      let out := out ++ [m.summary path]
      let w := note opts.withContent w path m
      if opts.limit.any (· ≤ out.length) then ((out, true), w) else visit pre opts ms out w

/-- The pages from the given one on. There are no more of them than documents. -/
def listPages (pre : String) (opts : ListByPrefixOpts) : ℕ → ℕ → List DocSummary → Vol (List DocSummary)
  | 0, _, out => return out
  | fuel + 1, page, out => do
    match ← listRequest ⟨filterArgFor pre opts.exact, 100, page, opts.withContent⟩ with
    | .error e => throw (.api e)
    | .ok resp =>
      let (out, enough) ← sync fun w => visit pre opts resp.memories out w
      if enough ∨ resp.totalPages ≤ page then return out
      else listPages pre opts fuel (page + 1) out

def listByPrefix (pre : String) (opts : ListByPrefixOpts) : Vol (List DocSummary) := do
  let fuel ← look fun w => w.server.docs.length + 1
  listPages pre opts fuel 1 []

def statDoc (path : String) : Vol (Option DocStat) := do
  if ← look fun w => w.index.isDirOnly path then return some ⟨none, false, true, 0, 0, none⟩
  else
    match ← cachedDoc path with
    | some (id, c) => return some ⟨some id, true, false, c.content.size, 0, some c.status⟩
    | none =>
      match ← listRequest (exactly path true) with
      | .error e => throwFs (eio ("statDoc(" ++ path ++ "): " ++ e.message))
      | .ok resp =>
        match resp.memories.head? with
        | none => do
          dropPath path
          return none
        | some m =>
          if m.filepath.any (· ≠ path) then
            dropPath path
            return none
          else
            sync fun w => ((), w.fetched path m.id (.text (m.content.getD "")) m.docStatus)
            return some ⟨some m.id, true, false, utf16Length (m.content.getD ""), m.updatedAt.getD 0, some m.docStatus⟩

def isDirEmpty (path : String) : Vol Bool := do
  let pre := if path = "/" then "/" else path ++ "/"
  let probe ← listByPrefix pre { limit := some 1 }
  if probe.length > 0 then return false
  else look fun w => w.index.syntheticDirPaths.all fun d => !(d ≠ path && startsWith d pre)

/-! ### Trees -/

/-- The directories that lose their mark with a prefix. -/
def evictSyntheticUnder (pre : String) (ix : PathIndex) : PathIndex :=
  let dirSelf := if endsWithSlash pre then String.ofList pre.toList.dropLast else pre
  ix.syntheticDirPaths.foldl (fun ix d => if d = dirSelf || startsWith d pre then ix.removeSyntheticDir d else ix) ix

/-- `` `${e.id}: ${e.error}` ``. -/
def stayText (e : String × String) : String := e.1 ++ ": " ++ e.2

/-- The paths under a prefix leave the index and the cache. -/
def forgetUnder (pre : String) (w : World) : World :=
  w.index.paths.foldl (fun w p =>
    if startsWith p pre then w.drop p else w) w

def bulkCall (which : Memory → Bool) : List (String × String) → Container →
    Except ApiError DeleteBulkResponse × Container :=
  fun stay s => (.ok (s.deleteBulk which stay).1, (s.deleteBulk which stay).2)

/-- The batches of ids, one request each: what was deleted, and the errors. -/
def deleteBatches : List (List (String × String)) → RemoveByPrefixResult → Vol RemoveByPrefixResult
  | [], res => return res
  | batch :: rest, res => do
    match ← request (bulkCall fun d => (batch.map Prod.fst).contains d.id) with
    | .ok resp => deleteBatches rest ⟨res.deleted + resp.deletedCount, res.errors ++ resp.errors.map stayText⟩
    | .error e => deleteBatches rest ⟨res.deleted, res.errors ++ batch.map fun m => m.1 ++ ": " ++ e.message⟩

/-- The id an error names: `message.split(":")[0]?.trim()`. -/
def erredId (message : String) : String :=
  String.ofList (((message.toList.takeWhile (· ≠ ':')).dropWhile Char.isWhitespace).reverse.dropWhile Char.isWhitespace).reverse

def removeByPrefixViaList (pre : String) : Vol RemoveByPrefixResult := do
  let fuel ← look fun w => w.server.docs.length + 1
  let found ← allPages fuel 1 []
  let found := found.filterMap fun m => (taken pre false m).map fun p => (m.id, p)
  if found.isEmpty then return ⟨0, []⟩
  else
    let res ← deleteBatches (found.toChunks 100) ⟨0, []⟩
    let erred := (res.errors.map erredId).filter (· ≠ "")
    let gone := found.filter fun m => !erred.contains m.1
    sync fun w => ((), gone.foldl (fun w m => w.drop m.2) w)
    if res.errors.isEmpty then changeIndex (evictSyntheticUnder pre)
    return res
where
  /-- The documents of the container, page by page. -/
  allPages : ℕ → ℕ → List Memory → Vol (List Memory)
    | 0, _, out => return out
    | fuel + 1, page, out => do
      match ← listRequest ⟨none, 100, page, false⟩ with
      | .error e => throw (.api e)
      | .ok resp =>
        if resp.totalPages ≤ page then return out ++ resp.memories
        else allPages fuel (page + 1) (out ++ resp.memories)

def removeByPrefix (pre : String) : Vol RemoveByPrefixResult := do
  match filterArgFor pre false with
  | none => removeByPrefixViaList pre
  | some filterArg =>
    match ← request (bulkCall (Container.listed (some filterArg))) with
    | .error e => return ⟨0, ["removeByPrefix(" ++ pre ++ "): " ++ e.message]⟩
    | .ok resp =>
      sync fun w => ((), forgetUnder pre w)
      changeIndex (evictSyntheticUnder pre)
      return ⟨resp.deletedCount, resp.errors.map stayText⟩

/-- One document of a batch: the error it ends with, if any. -/
def caught {α : Type} (job : Vol α) : Async World (Option Thrown) := do
  match ← job.run with
  | .ok _ => return none
  | .error e => return some e

/-- The batches one after another, each run at once: the errors, in the order
in which they come. -/
def runBatches (sched : ℕ → List ℕ) : ℕ → List (List (Async World (Option Thrown))) → World → List Thrown × World
  | _, [], w => ([], w)
  | n, batch :: rest, w =>
    let (ended, w) := interleave (sched n) batch w
    let (errors, w) := runBatches sched (n + 1) rest w
    (ended.filterMap id ++ errors, w)

def concurrency : ℕ := 4

def allAtOnce (sched : ℕ → List ℕ) (tasks : List (Async World (Option Thrown))) : Vol (List Thrown) :=
  sync fun w => runBatches sched 0 (tasks.toChunks concurrency) w

def moveTree (sched : ℕ → List ℕ) (src dest : String) : Vol (List Thrown) := do
  let srcPrefix := withSlash src
  let destPrefix := withSlash dest
  let entries ← listByPrefix srcPrefix {}
  let errors ← allAtOnce sched <| entries.map fun e =>
    caught (moveDoc e.filepath (destPrefix ++ sliceAfter e.filepath srcPrefix))
  changeIndex fun ix => ix.syntheticDirPaths.foldl (fun ix d =>
    if d = src then ix.removeSyntheticDir d
    else if startsWith d srcPrefix then
      (ix.removeSyntheticDir d).markSyntheticDir (destPrefix ++ sliceAfter d srcPrefix)
    else ix) ix
  changeIndex (·.markSyntheticDir dest)
  return errors

def copyTree (sched : ℕ → List ℕ) (src dest : String) : Vol (List Thrown) := do
  let srcPrefix := withSlash src
  let destPrefix := withSlash dest
  let entries ← listByPrefix srcPrefix { withContent := true }
  let errors ← allAtOnce sched <| entries.map fun e =>
    caught (addDoc (destPrefix ++ sliceAfter e.filepath srcPrefix) (.text (e.content.getD "")))
  changeIndex fun ix => ix.syntheticDirPaths.foldl (fun ix d =>
    if startsWith d srcPrefix then ix.markSyntheticDir (destPrefix ++ sliceAfter d srcPrefix) else ix) ix
  changeIndex (·.markSyntheticDir dest)
  return errors

/-! ### The profile -/

def profileHeader : String :=
  "# Memory Profile\n\nThis file is auto-generated from your memories. To change what appears\nhere, modify the source files in your folder.\n"

def formatProfile (profile : List String × List String) : String :=
  let (static, dynamic) := profile
  if static.isEmpty && dynamic.isEmpty then
    profileHeader ++ "\n(no memories extracted yet — write some files and check back in a few minutes)\n"
  else
    profileHeader ++
      (if static.isEmpty then "" else "\n## Core Knowledge\n" ++
        String.join (static.map fun item => "- " ++ item ++ "\n")) ++
      (if dynamic.isEmpty then "" else "\n## Recent Context\n" ++
        String.join (dynamic.map fun item => "- " ++ item ++ "\n"))

def fetchProfile : Vol String := do
  match ← cacheGet profilePath with
  | some ⟨.text body, _⟩ => return body
  | _ =>
    match ← request fun _ s => (.ok s.profile, s) with
    | .error e => throwFs (eio ("profile: " ++ e.message))
    | .ok profile =>
      changeCache (·.set profilePath (.text (formatProfile profile)) .done)
      return formatProfile profile

/-! ### What the reads answer -/

section Reads

variable {s : Container} {w : World} {d : Memory} {p path : String}

/-- What the cache hands out for the path, with its id. -/
def hit (w : World) (path : String) : Option (String × CachedEntry) :=
  (w.cache.get path).1.bind fun c => (truthy (w.index.resolve path)).map fun id => (id, c)

/-- The cache was asked for the path. -/
def World.looked (w : World) (path : String) : World := { w with cache := (w.cache.get path).2 }

/-- The document of the path, in the answer to such a listing. -/
def found (path : String) (resp : ListResponse) : Option Memory :=
  match resp.memories.head? with
  | none => none
  | some m => if m.filepath.any (· ≠ path) then none else some m

theorem listed_some {f : String} (h : Container.listed (some f) d = true) : ∃ p, d.filepath = some p := by
  unfold Container.listed at h
  cases hd : d.filepath with
  | none =>
    rw [hd] at h
    cases h
  | some p => exact ⟨p, rfl⟩

theorem memories_head (s : Container) (p : String) : (s.list (exactly p true)).memories.head? =
    (s.docs.filter (Container.listed (some p))).head? := by
  unfold Container.list Paging.page exactly
  simp [List.head?_take]

/-- The document that is found is one of the server's, at the path. -/
theorem found_some {m : Memory} (h : found p (s.list (exactly p true)) = some m) :
    m ∈ s.docs ∧ m.filepath = some p := by
  unfold found at h
  rw [memories_head] at h
  cases hm : (s.docs.filter (Container.listed (some p))).head? with
  | none =>
    rw [hm] at h
    cases h
  | some d =>
    rw [hm] at h
    obtain ⟨hmem, hl⟩ := List.mem_filter.mp (List.mem_of_head? hm)
    obtain ⟨q, hq⟩ := listed_some hl
    dsimp only at h
    split_ifs at h with hne
    cases h
    refine ⟨hmem, ?_⟩
    rw [hq] at hne ⊢
    simpa using hne

theorem eval_cachedDoc : eval (cachedDoc path) w = (.ok (hit w path), w.looked path) := by
  unfold cachedDoc hit World.looked
  rw [eval_bind, eval_cacheGet, andThen_ok]
  cases (w.cache.get path).1 with
  | none => rfl
  | some c => rfl

theorem eval_getDoc_hit {id : String} {c : CachedEntry} (h : hit w path = some (id, c)) :
    eval (getDoc path) w = (.ok (some ⟨id, c.content, c.status, none⟩), w.looked path) := by
  unfold getDoc
  rw [eval_bind, eval_cachedDoc, andThen_ok, h]
  rfl

theorem eval_getDoc_miss (h : hit w path = none) : eval (getDoc path) w =
    match (w.looked path).send (listCall (exactly path true)) with
    | (.error e, t) => (.error (.fs (eio ("getDoc(" ++ path ++ "): " ++ e.message))), t)
    | (.ok resp, t) => match found path resp with
      | none => (.ok none, t.drop path)
      | some m => (.ok (some m.result), t.fetched path m.id m.result.content m.docStatus) := by
  unfold getDoc
  rw [eval_bind, eval_cachedDoc, andThen_ok, h]
  dsimp only
  rw [eval_bind, eval_listRequest, andThen_ok]
  rcases (w.looked path).send (listCall (exactly path true)) with ⟨_ | resp, t⟩
  · rfl
  · unfold found
    dsimp only
    cases resp.memories.head? with
    | none => rfl
    | some m =>
      dsimp only
      cases m.filepath.any (· ≠ path) with
      | true => rfl
      | false => rfl

/-- A path that is only a directory has no document to look for. -/
theorem eval_statDoc_dir (h : w.index.isDirOnly path = true) :
    eval (statDoc path) w = (.ok (some ⟨none, false, true, 0, 0, none⟩), w) := by
  unfold statDoc
  rw [eval_bind, eval_look, andThen_ok, h, if_pos rfl]
  rfl

theorem eval_statDoc_hit (hdir : w.index.isDirOnly path = false) {id : String} {c : CachedEntry}
    (h : hit w path = some (id, c)) :
    eval (statDoc path) w = (.ok (some ⟨some id, true, false, c.content.size, 0, some c.status⟩), w.looked path) := by
  unfold statDoc
  rw [eval_bind, eval_look, andThen_ok, hdir, if_neg Bool.false_ne_true, eval_bind, eval_cachedDoc, andThen_ok, h]
  rfl

theorem eval_statDoc_miss (hdir : w.index.isDirOnly path = false) (h : hit w path = none) : eval (statDoc path) w =
    match (w.looked path).send (listCall (exactly path true)) with
    | (.error e, t) => (.error (.fs (eio ("statDoc(" ++ path ++ "): " ++ e.message))), t)
    | (.ok resp, t) => match found path resp with
      | none => (.ok none, t.drop path)
      | some m =>
        (.ok (some ⟨some m.id, true, false, utf16Length (m.content.getD ""), m.updatedAt.getD 0, some m.docStatus⟩),
          t.fetched path m.id (.text (m.content.getD "")) m.docStatus) := by
  unfold statDoc
  rw [eval_bind, eval_look, andThen_ok, hdir, if_neg Bool.false_ne_true, eval_bind, eval_cachedDoc, andThen_ok, h]
  dsimp only
  rw [eval_bind, eval_listRequest, andThen_ok]
  rcases (w.looked path).send (listCall (exactly path true)) with ⟨_ | resp, t⟩
  · rfl
  · unfold found
    dsimp only
    cases resp.memories.head? with
    | none => rfl
    | some m =>
      dsimp only
      cases m.filepath.any (· ≠ path) with
      | true => rfl
      | false => rfl

end Reads

/-! ### What the writes do -/

section Writes

variable {w : World} {s : Container} {d : Memory} {path src dest id : String}

/-- The document with just this path, in the answer to a listing of it. -/
def named (path : String) (resp : ListResponse) :
    Option Memory := resp.memories.head?.filter fun m => m.filepath = some path

theorem eval_lookupDocId_known (h : truthy (w.index.resolve path) = some id) :
    eval (lookupDocId path) w = (.ok (some id), w) := by
  unfold lookupDocId
  rw [eval_bind, eval_look, andThen_ok, h]
  rfl

theorem eval_lookupDocId_unknown (h : truthy (w.index.resolve path) = none) : eval (lookupDocId path) w =
    match w.send (listCall (exactly path false)) with
    | (.error e, t) => (.error (.fs (eio ("lookupDocId(" ++ path ++ "): " ++ e.message))), t)
    | (.ok resp, t) => match named path resp with
      | none => (.ok none, t)
      | some m => (.ok (some m.id), { t with index := t.index.insert path m.id }) := by
  unfold lookupDocId
  rw [eval_bind, eval_look, andThen_ok, h]
  dsimp only
  rw [eval_bind, eval_listRequest, andThen_ok]
  rcases w.send (listCall (exactly path false)) with ⟨_ | resp, t⟩
  · rfl
  · unfold named
    dsimp only
    cases resp.memories.head? with
    | none => rfl
    | some m =>
      rw [Option.filter_some]
      by_cases hm : m.filepath = some path
      · simp only [hm, decide_true, if_true]
        rfl
      · simp only [hm, decide_false, if_false, Bool.false_eq_true]
        rfl

theorem eval_addDoc_text {data : String} : eval (addDoc path (.text data)) w =
    match assertWritable w.index path .addDoc with
    | some e => (.error (.fs e), w)
    | none => match w.send (writeCall (truthy (w.index.resolve path)) path data) with
      | (.error e, t) => (.error (.fs (eio ("addDoc(" ++ path ++ "): " ++ e.message))), t)
      | (.ok m, t) => (.ok (m.id, m.docStatus), t.keep path m.id (.text data) m.docStatus) := by
  unfold addDoc
  dsimp only
  rw [eval_bind, eval_look, andThen_ok]
  cases assertWritable w.index path .addDoc with
  | some e => rfl
  | none =>
    dsimp only
    rw [eval_bind, eval_look, andThen_ok, eval_bind, eval_request, andThen_ok]
    rcases w.send (writeCall (truthy (w.index.resolve path)) path data) with ⟨_ | m, t⟩
    · rfl
    · rfl

theorem eval_removeDoc_known (h : truthy (w.index.resolve path) = some id) : eval (removeDoc path) w =
    match w.send (deleteCall id) with
    | (.ok _, t) => (.ok (), t.drop path)
    | (.error e, t) =>
      if e.status = some 409 then (.error (.fs (ebusy path)), t)
      else if e.status = some 404 then (.ok (), t.drop path)
      else (.error (.fs (eio ("removeDoc(" ++ path ++ "): " ++ e.message))), t) := by
  have hid : truthy (some id) = some id := by
    obtain ⟨hr, hne⟩ := Option.filter_eq_some_iff.mp h
    exact Option.filter_eq_some_iff.mpr ⟨rfl, hne⟩
  unfold removeDoc
  rw [eval_bind, eval_lookupDocId_known h, andThen_ok, hid]
  dsimp only
  rw [eval_bind, eval_request, andThen_ok]
  rcases w.send (deleteCall id) with ⟨e | _, t⟩
  · dsimp only
    split_ifs <;> rfl
  · rfl

/-- What `removeByPrefix` leaves on the client's side once the server answered. -/
def World.withoutPrefix (w : World) (pre : String) : World :=
  { forgetUnder pre w with index := evictSyntheticUnder pre (forgetUnder pre w).index }

theorem eval_removeByPrefix {pre : String} (h : pre ≠ "") : eval (removeByPrefix pre) w =
    match w.send (bulkCall (Container.listed (some (withSlash pre)))) with
    | (.error e, t) => (.ok ⟨0, ["removeByPrefix(" ++ pre ++ "): " ++ e.message]⟩, t)
    | (.ok resp, t) => (.ok ⟨resp.deletedCount, resp.errors.map stayText⟩, t.withoutPrefix pre) := by
  unfold removeByPrefix filterArgFor
  rw [if_neg h, if_neg Bool.false_ne_true]
  dsimp only
  rw [eval_bind, eval_request, andThen_ok]
  rcases w.send (bulkCall (Container.listed (some (withSlash pre)))) with ⟨e | resp, t⟩
  · rfl
  · rfl

theorem forgetUnder_resolve {pre : String} : (forgetUnder pre w).index.resolve path =
    if startsWith path pre then none else w.index.resolve path := by
  have hfold : ∀ (ps : List String) (w : World),
      (ps.foldl (fun w p => if startsWith p pre then w.drop p else w) w).index.resolve path =
        if path ∈ ps ∧ startsWith path pre = true then none else w.index.resolve path := by
    intro ps
    induction ps with
    | nil => simp
    | cons p ps ih =>
      intro w
      rw [List.foldl_cons, ih]
      by_cases hp : startsWith p pre = true
      · rw [if_pos hp]
        change (if path ∈ ps ∧ startsWith path pre = true then none else (w.index.remove p).resolve path) = _
        rw [PathIndex.resolve_remove]
        by_cases he : path = p
        · subst he
          simp [hp]
        · simp [he]
      · rw [if_neg hp]
        by_cases he : path = p
        · subst he
          simp [hp]
        · simp [he]
  unfold forgetUnder
  rw [hfold]
  by_cases hs : startsWith path pre = true
  · rw [if_pos hs]
    by_cases hf : w.index.isFile path = true
    · rw [if_pos ⟨PathIndex.mem_paths.mpr hf, hs⟩]
    · have hnone : w.index.resolve path = none := by simpa [PathIndex.isFile] using hf
      rw [if_neg fun h => hf (PathIndex.mem_paths.mp h.1), hnone]
  · rw [if_neg hs, if_neg fun h => hs h.2]

theorem evictSynthetic_resolve {pre : String} {ix : PathIndex} :
    (evictSyntheticUnder pre ix).resolve path = ix.resolve path := by
  unfold evictSyntheticUnder
  dsimp only
  generalize ix.syntheticDirPaths = ds
  induction ds generalizing ix with
  | nil => rfl
  | cons d ds ih =>
    rw [List.foldl_cons, ih]
    split_ifs <;> rfl

theorem forgetUnder_server {pre : String} : (forgetUnder pre w).server = w.server ∧
    (forgetUnder pre w).index.syntheticDirs = w.index.syntheticDirs := by
  unfold forgetUnder
  generalize w.index.paths = ps
  induction ps generalizing w with
  | nil => exact ⟨rfl, rfl⟩
  | cons p ps ih =>
    rw [List.foldl_cons]
    split_ifs
    · exact ih
    · exact ih

theorem withoutPrefix_resolve {pre : String} : (w.withoutPrefix pre).index.resolve path =
    if startsWith path pre then none else w.index.resolve path :=
  evictSynthetic_resolve.trans forgetUnder_resolve

theorem listed_exactly (hslash : endsWithSlash path = false) :
    Container.listed (some path) d = true ↔ d.filepath = some path := by
  unfold Container.listed
  cases hd : d.filepath with
  | none => simp
  | some q => simp [hslash]

/-- The document that is found has the path. -/
theorem named_some {m : Memory} (h : named path (s.list (exactly path false)) = some m) :
    ∃ d ∈ s.docs, d.id = m.id ∧ d.filepath = some path := by
  obtain ⟨hhead, hp⟩ := Option.filter_eq_some_iff.mp h
  obtain ⟨d, hd, rfl⟩ := List.mem_map.mp (List.mem_of_head? hhead)
  refine ⟨d, (List.mem_filter.mp (Paging.mem_of_mem_page hd)).1, rfl, ?_⟩
  simpa [exactly] using hp

theorem named_none (hslash : endsWithSlash path = false) (h : named path (s.list (exactly path false)) = none) :
    ¬ Stands s path := by
  rintro ⟨d, hd, hp⟩
  have hmem : d ∈ s.docs.filter (Container.listed (some path)) :=
    List.mem_filter.mpr ⟨hd, (listed_exactly hslash).mpr hp⟩
  cases hl : s.docs.filter (Container.listed (some path)) with
  | nil =>
    rw [hl] at hmem
    cases hmem
  | cons x rest =>
    have hx : x ∈ s.docs.filter (Container.listed (some path)) := hl ▸ List.mem_cons_self
    have hfp := (listed_exactly hslash).mp (List.mem_filter.mp hx).2
    unfold named Container.list Paging.page exactly at h
    simp [hl, hfp] at h

end Writes

end Smfs.Bash
