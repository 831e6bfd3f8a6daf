/-
# The volume of the Python client

The methods of `SupermemoryVolume` in `_volume.py` are those of `volume.ts` in
another dialect: the texts of their errors, the verdict on a path and the
lengths differ (`Dialect`). Beyond that, `get_doc` and `stat_doc` answer for the
profile themselves, a listing of the root gets an entry for the profile, and
the documents of a tree are moved or copied one after another.

Key definitions: `Dialect`, `Py.getDoc`, `Py.statDoc`, `Py.listByPrefix`, `Py.moveTree`, `Py.copyTree`.
Key theorems: `typescript_addDoc`, `typescript_moveDoc`, `typescript_getDoc`, `typescript_statDoc`.
-/
import Smfs.Bash.PyFilepath
import Smfs.Bash.Volume

namespace Smfs.Bash

open Turns

/-! ### Two dialects -/

/-- Where the volumes of the two clients differ. -/
structure Dialect where
  checkFilepath : String → Option FilepathRejection
  lookupName : String
  addName : String
  getName : String
  statName : String
  moveName : String
  arrow : String
  /-- The size of a text that was fetched. -/
  length : String → ℕ
  /-- The size of what is cached. -/
  cachedSize : Content → ℕ

def typescript : Dialect :=
  { checkFilepath := checkFilepath, lookupName := "lookupDocId(", addName := "addDoc(", getName := "getDoc(",
    statName := "statDoc(",
    moveName := "moveDoc(", arrow := " → ", length := utf16Length, cachedSize := Content.size }

def python : Dialect :=
  { checkFilepath := Py.checkFilepath, lookupName := "lookup_doc_id(", addName := "add_doc(", getName := "get_doc(",
    statName := "stat_doc(", moveName := "move_doc(", arrow := " -> ", length := String.length,
      cachedSize := Content.byteLength }

namespace Dialect

variable (D : Dialect)

def ruleShape (path : String) : Option FsError :=
  match D.checkFilepath path with
  | none => none
  | some .tooLong => some (enametoolong path)
  | some .basenameTooLong => some (enametoolong path)
  | some reason => some (einval (quoted path ++ ": " ++ reason.text))

/-- `assertWritable`, `assert_writable`. -/
def assertWritable (ix : PathIndex) (path : String) (intent : WriteIntent) : Option FsError :=
  (D.ruleShape path).or <| (ruleReserved path intent).or <| (ruleAncestorNotFile path ix).or (ruleNoDescendants path ix)

/-- `lookupDocId`, `_lookup_doc_id`. -/
def lookupDocId (path : String) : Vol (Option String) := do
  match ← look fun w => truthy (w.index.resolve path) with
  | some cached => return some cached
  | none =>
    match ← listRequest (exactly path false) with
    | .error e => throwFs (eio (D.lookupName ++ path ++ "): " ++ e.message))
    | .ok resp =>
      match resp.memories.head? with
      | none => return none
      | some m =>
        if m.filepath = some path then
          changeIndex (·.insert path m.id)
          return some m.id
        else return none

/-- `addDoc`, `add_doc`. -/
def addDoc (path : String) (content : Content) : Vol (String × DocStatus) := do
  match content with
  | .bytes _ => throwFs (.make "EFBIG" (-27) ("file too large, " ++ quoted path))
  | .text data =>
    match ← look fun w => D.assertWritable w.index path .addDoc with
    | some e => throwFs e
    | none =>
      match ← request (writeCall (← look fun w => truthy (w.index.resolve path)) path data) with
      | .error e => throwFs (eio (D.addName ++ path ++ "): " ++ e.message))
      | .ok m =>
        let status := normalizeStatus (m.status.getD "unknown")
        sync fun w => ((), w.keep path m.id content status)
        return (m.id, status)

/-- `getDoc`, and `get_doc` of a path that is not the profile's. -/
def getDoc (path : String) : Vol (Option DocResult) := do
  match ← cachedDoc path with
  | some (id, c) => return some ⟨id, c.content, c.status, none⟩
  | none =>
    match ← listRequest (exactly path true) with
    | .error e => throwFs (eio (D.getName ++ path ++ "): " ++ e.message))
    | .ok resp =>
      match resp.memories.head? with
      | none => do
        dropPath path
        return none
      | some m =>
        if m.filepath.any (· ≠ path) then
          dropPath path
          return none
        else
          sync fun w => ((), w.fetched path m.id m.result.content m.docStatus)
          return some m.result

/-- `statDoc`, and `stat_doc` of a path that is not the profile's. -/
def statDoc (path : String) : Vol (Option DocStat) := do
  if ← look fun w => w.index.isDirOnly path then return some ⟨none, false, true, 0, 0, none⟩
  else
    match ← cachedDoc path with
    | some (id, c) => return some ⟨some id, true, false, D.cachedSize c.content, 0, some c.status⟩
    | none =>
      match ← listRequest (exactly path true) with
      | .error e => throwFs (eio (D.statName ++ path ++ "): " ++ e.message))
      | .ok resp =>
        match resp.memories.head? with
        | none => do
          dropPath path
          return none
        | some m =>
          if m.filepath.any (· ≠ path) then
            dropPath path
            return none
          else
            sync fun w => ((), w.fetched path m.id (.text (m.content.getD "")) m.docStatus)
            return some ⟨some m.id, true, false, D.length (m.content.getD ""), m.updatedAt.getD 0, some m.docStatus⟩

/-- The last request of a move. -/
def renameDoc (docId src dest : String) : Vol Unit := do
  match ← request (renameCall docId dest) with
  | .error e =>
    if e.status = some 404 then
      dropPath src
      throwFs (enoent src)
    else if e.status = some 409 then throwFs (ebusy src)
    else throwFs (eio (D.moveName ++ src ++ D.arrow ++ dest ++ "): " ++ e.message))
  | .ok _ => sync fun w => ((), w.relocate src dest docId)

/-- `moveDoc`, `move_doc`. -/
def moveDoc (src dest : String) : Vol Unit := do
  match ← look fun w => D.assertWritable w.index dest .moveDoc with
  | some e => throwFs e
  | none =>
    match truthy (← D.lookupDocId src) with
    | none => throwFs (enoent src)
    | some docId =>
      match truthy (← D.lookupDocId dest) with
      | some _ => throwFs (eexist dest)
      | none => D.renameDoc docId src dest

end Dialect

variable {path src dest : String} {content : Content}

theorem typescript_addDoc : typescript.addDoc path content = addDoc path content := rfl

theorem typescript_moveDoc : typescript.moveDoc src dest = moveDoc src dest := rfl

theorem typescript_getDoc : typescript.getDoc path = getDoc path := rfl

theorem typescript_statDoc : typescript.statDoc path = statDoc path := rfl

/-! ### The Python client -/

namespace Py

/-- The id of what stands for the profile. -/
def virtualId : String := "virtual:profile"

/-- `get_doc`. -/
def getDoc (path : String) : Vol (Option DocResult) := do
  if isReservedFilepath path then
    let body ← fetchProfile
    return some ⟨virtualId, .text body, .done, none⟩
  else python.getDoc path

/-- `stat_doc`; `time` is what `time.time()` gives. -/
def statDoc (time : ℤ) (path : String) : Vol (Option DocStat) := do
  if isReservedFilepath path then
    let body ← fetchProfile
    return some ⟨none, true, false, body.utf8ByteSize, time, some .done⟩
  else python.statDoc path

/-- The size of a summary in characters. -/
def resized (e : DocSummary) : DocSummary := { e with size := (e.content.map String.length).getD 0 }

/-- A listing of the root has the profile. -/
def withProfile (time : ℤ) (pre : String) (exact : Bool) (out : List DocSummary) : List DocSummary :=
  if (pre = "" || pre = "/") && !exact && !out.any (·.filepath = profilePath) then
    out ++ [⟨virtualId, profilePath, .done, 0, time, none⟩]
  else out

/-- `list_by_prefix`: the pages are gone through as by the other client, and a
limit of 0 is none. -/
def listByPrefix (time : ℤ) (pre : String) (opts : ListByPrefixOpts) : Vol (List DocSummary) := do
  let out ← Bash.listByPrefix pre { opts with limit := opts.limit.filter (· ≠ 0) }
  return withProfile time pre opts.exact (out.map resized)

/-- `sorted`. -/
def sorted (xs : List String) : List String := xs.mergeSort fun s t => decide (s ≤ t)

structure TreeResult where
  deleted : ℕ
  errors : List Thrown

/-- The errors of the calls, one after another. -/
def oneByOne {α : Type} : List (Vol α) → Vol (List Thrown)
  | [] => return []
  | job :: rest => do
    let error ← ExceptT.lift (caught job)
    let errors ← oneByOne rest
    return error.toList ++ errors

/-- `move_tree`. -/
def moveTree (time : ℤ) (src dest : String) : Vol TreeResult := do
  let srcPrefix := withSlash src
  let destPrefix := withSlash dest
  let entries ← listByPrefix time srcPrefix {}
  let errors ← oneByOne <| entries.map fun e => python.moveDoc e.filepath (destPrefix ++
    sliceAfter e.filepath srcPrefix)
  changeIndex fun ix => (sorted ix.syntheticDirs).foldl (fun ix d =>
    if d = src then ix.removeSyntheticDir d
    else if startsWith d srcPrefix then (ix.removeSyntheticDir d).markSyntheticDir (destPrefix ++
      sliceAfter d srcPrefix)
    else ix) ix
  changeIndex (·.markSyntheticDir dest)
  return ⟨entries.length - errors.length, errors⟩

/-- `copy_tree`. -/
def copyTree (time : ℤ) (src dest : String) : Vol TreeResult := do
  let srcPrefix := withSlash src
  let destPrefix := withSlash dest
  let entries ← listByPrefix time srcPrefix { withContent := true }
  let errors ← oneByOne <| entries.map fun e =>
    python.addDoc (destPrefix ++ sliceAfter e.filepath srcPrefix) (.text (e.content.getD ""))
  changeIndex fun ix => (sorted ix.syntheticDirs).foldl (fun ix d =>
    if startsWith d srcPrefix then ix.markSyntheticDir (destPrefix ++ sliceAfter d srcPrefix) else ix) ix
  changeIndex (·.markSyntheticDir dest)
  return ⟨entries.length - errors.length, errors⟩

end Py

/-! ### What the calls do -/

section Calls

variable {D : Dialect} {w : World} {data docId : String} {path src dest : String}

theorem Dialect.eval_getDoc_hit {id : String} {c : CachedEntry} (h : hit w path = some (id, c)) :
    eval (D.getDoc path) w = (.ok (some ⟨id, c.content, c.status, none⟩), w.looked path) := by
  unfold Dialect.getDoc
  rw [eval_bind, eval_cachedDoc, andThen_ok, h]
  rfl

theorem Dialect.eval_getDoc_miss (h : hit w path = none) : eval (D.getDoc path) w =
    match (w.looked path).send (listCall (exactly path true)) with
    | (.error e, t) => (.error (.fs (eio (D.getName ++ path ++ "): " ++ e.message))), t)
    | (.ok resp, t) => match found path resp with
      | none => (.ok none, t.drop path)
      | some m => (.ok (some m.result), t.fetched path m.id m.result.content m.docStatus) := by
  unfold Dialect.getDoc
  rw [eval_bind, eval_cachedDoc, andThen_ok, h]
  dsimp only
  rw [eval_bind, eval_listRequest, andThen_ok]
  rcases (w.looked path).send (listCall (exactly path true)) with ⟨_ | resp, t⟩
  · rfl
  · unfold found
    dsimp only
    cases resp.memories.head? with
    | none => rfl
    | some m =>
      dsimp only
      cases m.filepath.any (· ≠ path) with
      | true => rfl
      | false => rfl

theorem Dialect.eval_statDoc_dir (h : w.index.isDirOnly path = true) :
    eval (D.statDoc path) w = (.ok (some ⟨none, false, true, 0, 0, none⟩), w) := by
  unfold Dialect.statDoc
  rw [eval_bind, eval_look, andThen_ok, h, if_pos rfl]
  rfl

theorem Dialect.eval_statDoc_hit (hdir : w.index.isDirOnly path = false) {id : String} {c : CachedEntry}
    (h : hit w path = some (id, c)) :
    eval (D.statDoc path) w = (.ok (some ⟨some id, true, false, D.cachedSize c.content, 0, some c.status⟩),
      w.looked path) := by
  unfold Dialect.statDoc
  rw [eval_bind, eval_look, andThen_ok, hdir, if_neg Bool.false_ne_true, eval_bind, eval_cachedDoc, andThen_ok, h]
  rfl

theorem Dialect.eval_statDoc_miss (hdir : w.index.isDirOnly path = false) (h : hit w path = none) :
    eval (D.statDoc path) w =
    match (w.looked path).send (listCall (exactly path true)) with
    | (.error e, t) => (.error (.fs (eio (D.statName ++ path ++ "): " ++ e.message))), t)
    | (.ok resp, t) => match found path resp with
      | none => (.ok none, t.drop path)
      | some m =>
        (.ok (some ⟨some m.id, true, false, D.length (m.content.getD ""), m.updatedAt.getD 0, some m.docStatus⟩),
          t.fetched path m.id (.text (m.content.getD "")) m.docStatus) := by
  unfold Dialect.statDoc
  rw [eval_bind, eval_look, andThen_ok, hdir, if_neg Bool.false_ne_true, eval_bind, eval_cachedDoc, andThen_ok, h]
  dsimp only
  rw [eval_bind, eval_listRequest, andThen_ok]
  rcases (w.looked path).send (listCall (exactly path true)) with ⟨_ | resp, t⟩
  · rfl
  · unfold found
    dsimp only
    cases resp.memories.head? with
    | none => rfl
    | some m =>
      dsimp only
      cases m.filepath.any (· ≠ path) with
      | true => rfl
      | false => rfl

theorem Py.eval_getDoc_profile : eval (Py.getDoc profilePath) w =
    andThen (eval fetchProfile w) fun body t => (.ok (some ⟨Py.virtualId, .text body, .done, none⟩), t) := by
  unfold Py.getDoc
  rw [if_pos (show isReservedFilepath profilePath = true from decide_eq_true rfl), eval_bind]
  rfl

theorem Py.eval_statDoc_profile (time : ℤ) : eval (Py.statDoc time profilePath) w =
    andThen (eval fetchProfile w) fun body t => (.ok (some ⟨none, true, false, body.utf8ByteSize, time,
      some .done⟩), t) := by
  unfold Py.statDoc
  rw [if_pos (show isReservedFilepath profilePath = true from decide_eq_true rfl), eval_bind]
  rfl

theorem Py.getDoc_unreserved (h : isReservedFilepath path = false) : Py.getDoc path = python.getDoc path := by
  rw [Py.getDoc, h, if_neg Bool.false_ne_true]

theorem Py.statDoc_unreserved (h : isReservedFilepath path = false) (time : ℤ) :
    Py.statDoc time path = python.statDoc path := by
  rw [Py.statDoc, h, if_neg Bool.false_ne_true]

theorem Py.eval_listByPrefix (time : ℤ) (pre : String) (opts : ListByPrefixOpts) :
    eval (Py.listByPrefix time pre opts) w =
      andThen (eval (Bash.listByPrefix pre { opts with limit := opts.limit.filter (· ≠ 0) }) w)
        fun out t => (.ok (Py.withProfile time pre opts.exact (out.map Py.resized)), t) := by
  unfold Py.listByPrefix
  rw [eval_bind]
  rfl

theorem eval_fetchProfile : eval fetchProfile w = match (w.cache.get profilePath).1 with
    | some ⟨.text body, _⟩ => (.ok body, w.looked profilePath)
    | _ => match (w.looked profilePath).send (fun _ s => (.ok s.profile, s)) with
      | (.error e, t) => (.error (.fs (eio ("profile: " ++ e.message))), t)
      | (.ok profile, t) =>
        (.ok (formatProfile profile), { t with cache := t.cache.set profilePath (.text (formatProfile profile)) .done }) := by
  unfold fetchProfile
  rw [eval_bind, eval_cacheGet, andThen_ok]
  rcases (w.cache.get profilePath).1 with _ | ⟨body | b, status⟩
  · change eval (request (fun _ s => (.ok s.profile, s)) >>= _) (w.looked profilePath) = _
    rw [eval_bind, eval_request, andThen_ok]
    rcases (w.looked profilePath).send (fun _ s => (.ok s.profile, s)) with ⟨_ | profile, t⟩ <;> rfl
  · rfl
  · change eval (request (fun _ s => (.ok s.profile, s)) >>= _) (w.looked profilePath) = _
    rw [eval_bind, eval_request, andThen_ok]
    rcases (w.looked profilePath).send (fun _ s => (.ok s.profile, s)) with ⟨_ | profile, t⟩ <;> rfl

end Calls

end Smfs.Bash
