/-
# Writing back what was read

`appendFile` and `cp`, and in the Python shell `>>`, `tee -a`, `cp` and
`sed -i`, read a document with `getDoc` and write what they read. For a document
that could not be processed that is the text `getDoc` makes up, or the raw
content, whichever the cache holds. So such a call stores what comes of the
document's content exactly if that is what is read (`storesRaw_iff`).

Key definitions: `Py.appendRedirect`, `Py.teeAppend`, `Py.cp`, `Py.sedInPlace`, `ReadWrite.Op`, `ReadWrite.StoresRaw`.
Key theorems: `ReadWrite.reads`, `ReadWrite.writes`, `ReadWrite.storesRaw_iff`.
-/
import Smfs.Bash.Fs
import Smfs.Bash.PyVolume

namespace Smfs.Bash

open Turns

/-! ### The Python shell -/

namespace Py

structure ExecResult where
  stdout : String := ""
  stderr : String := ""
  exitCode : ℤ := 0
  deriving DecidableEq

/-- `doc.content if isinstance(doc.content, str) else doc.content.decode()`. -/
def textOf : Content → Vol String
  | .text s => return s
  | .bytes b =>
    if validUtf8 b then return String.ofList (decodeFrom .idle b)
    else throw (.api ⟨none, "'utf-8' codec can't decode bytes"⟩)

/-- What stands in the file so far. -/
def previous (path : String) : Vol String := do
  match ← getDoc path with
  | none => return ""
  | some existing => textOf existing.content

/-- `>>` of what a command wrote. -/
def appendRedirect (path content : String) : Vol Unit := do
  let prev ← previous path
  if prev ≠ "" ∨ content ≠ "" then
    let _ ← python.addDoc path (.text (prev ++ content))

/-- One file of `tee -a`. -/
def teeAppend (path stdin : String) : Vol Unit := do
  let prev ← previous path
  let _ ← python.addDoc path (.text (prev ++ stdin))

/-- One file of `sed -i`, with what its expression does to a line. -/
def sedInPlace (applySed : String → String) (f path : String) : Vol ExecResult := do
  match ← getDoc path with
  | none => return { stderr := "sed: " ++ f ++ ": No such file or directory\n", exitCode := 1 }
  | some doc =>
    let content ← textOf doc.content
    let lines := (content.toList.splitOn '\n').map String.ofList
    let _ ← python.addDoc path (.text ("\n".intercalate (lines.map applySed)))
    return {}

/-- `src.rstrip("/").rsplit("/", 1)[-1]`. -/
def lastName (src : String) : String :=
  String.ofList ((src.toList.reverse.dropWhile (· = '/')).takeWhile (· ≠ '/')).reverse

/-- `_resolve_dest_into_dir`. -/
def resolveDestIntoDir (ix : PathIndex) (src dest : String) : String :=
  if ix.isDirOnly dest && lastName src ≠ "" then withSlash dest ++ lastName src else dest

/-- `cp` of two paths that are resolved; `arg` is the source as it was given. -/
def cp (time : ℤ) (recursive : Bool) (arg src dest : String) : Vol ExecResult := do
  let dest ← look fun w => resolveDestIntoDir w.index src dest
  if ← look fun w => w.index.isDirOnly src then
    if !recursive then return { stderr := "cp: -r not specified; omitting directory '" ++ arg ++ "'\n", exitCode := 1 }
    else
      let result ← copyTree time src dest
      if !result.errors.isEmpty then
        return { stderr := "cp: " ++ arg ++ ": failed to copy some files\n", exitCode := 1 }
      else return {}
  else
    match ← getDoc src with
    | none => return { stderr := "cp: " ++ arg ++ ": No such file or directory\n", exitCode := 1 }
    | some doc =>
      let _ ← python.addDoc dest doc.content
      return {}

end Py

namespace ReadWrite

/-! ### Calls that write what they read -/

/-- A call on a file that writes what it reads. -/
inductive Op
  | appendFile (suffix : Content)
  | cp (sched : ℕ → List ℕ) (dest : String) (recursive : Bool)
  | appendRedirect (suffix : String)
  | teeAppend (suffix : String)
  | cpShell (time : ℤ) (recursive : Bool) (arg dest : String)
  | sedInPlace (applySed : String → String) (arg : String)

namespace Op

/-- The call, of this file. -/
def call (p : String) : Op → Vol Unit
  | .appendFile suffix => Bash.appendFile p suffix
  | .cp sched dest recursive => Bash.cp sched p dest recursive
  | .appendRedirect suffix => Py.appendRedirect p suffix
  | .teeAppend suffix => Py.teeAppend p suffix
  | .cpShell time recursive arg dest => do let _ ← Py.cp time recursive arg p dest
  | .sedInPlace applySed arg => do let _ ← Py.sedInPlace applySed arg p

/-- The client that makes the call. -/
def dialect : Op → Dialect
  | .appendFile _ => typescript
  | .cp _ _ _ => typescript
  | _ => python

/-- The file that is written. -/
def target (ix : PathIndex) (p : String) : Op → String
  | .cp _ dest _ => normalizePath dest
  | .cpShell _ _ _ dest => Py.resolveDestIntoDir ix p dest
  | _ => p

/-- Whether the call writes at all: `>>` of nothing to nothing does not. -/
def writes (read : String) : Op → Bool
  | .appendRedirect suffix => read ≠ "" ∨ suffix ≠ ""
  | _ => true

/-- What is to be stored, of a file with this content. -/
def text (content : String) : Op → String
  | .appendFile suffix => content ++ suffix.decoded
  | .cp _ _ _ => content
  | .appendRedirect suffix => content ++ suffix
  | .teeAppend suffix => content ++ suffix
  | .cpShell _ _ _ _ => content
  | .sedInPlace applySed _ => "\n".intercalate (((content.toList.splitOn '\n').map String.ofList).map applySed)

end Op

/-- The texts of a server: of each document its id, its path and its content. -/
def texts (s : Container) : List (String × Option String × Option String) := s.docs.map fun d => (d.id,
    d.filepath, d.content)

/-- The index once the document of the file was read. -/
def readIndex (w : World) (p : String) (d : Memory) : PathIndex := w.index.insert p d.id

/-- The server once a text was written at a path. -/
def written (w : World) (ix : PathIndex) (q content : String) : Container :=
  (writeCall (truthy (ix.resolve q)) q content [] w.server).2

/-- If the call gets through, what comes of the document's content is what it
stored, and nothing else changed. -/
def StoresRaw (w : World) (p : String) (d : Memory) (raw : String) (op : Op) : Prop :=
  ∀ t, eval (op.call p) w = (.ok (), t) →
    texts t.server = texts (written w (readIndex w p d) (op.target w.index p) (op.text raw))

/-- What is read of the file: what the cache holds, or what the server's
document gives. -/
def readText (w : World) (p : String) (d : Memory) : String :=
  match hit w p with
  | some (_, c) => c.content.decoded
  | none => d.result.content.decoded

/-- There is something to write, and it may be written. -/
def Accepts (w : World) (p : String) (d : Memory) (op : Op) : Prop :=
  op.writes (readText w p d) = true ∧ op.dialect.assertWritable (readIndex w p d) (op.target w.index p) .addDoc = none

/-- A file with a document on the server, a client whose index holds the
server's documents and whose cache holds texts, and requests that are answered. -/
structure File (w : World) (p : String) (d : Memory) (raw : String) : Prop where
  fates : w.fates = []
  ids : (w.server.docs.map Memory.id).Nodup
  normal : normalizePath p = p
  unreserved : isReservedFilepath p = false
  file : w.index.isDirOnly p = false
  found : found p (w.server.list (exactly p true)) = some d
  content : d.content = some raw
  id : d.id ≠ ""
  indexed : ∀ q id, truthy (w.index.resolve q) = some id → (w.server.get id).isSome = true
  known : ∀ id, w.index.resolve p = some id → id = d.id
  cached : ∀ id c, hit w p = some (id, c) → ∃ text, c.content = .text text

variable {w u t : World} {p q raw X Y : String} {d : Memory} {D : Dialect} {ix ix' : PathIndex} {op : Op}

/-! ### The read -/

/-- The file was read: the server is as before, and the document indexed. -/
structure Read (w : World) (p : String) (d : Memory) (u : World) : Prop where
  server : u.server = w.server
  fates : u.fates = []
  index : ∀ q, u.index.resolve q = (readIndex w p d).resolve q

/-- **The read gives the text of the file.** -/
theorem reads (h : File w p d raw) (D : Dialect) :
    ∃ r u, eval (D.getDoc p) w = (.ok (some r), u) ∧ r.content = .text (readText w p d) ∧ Read w p d u := by
  cases hh : hit w p with
  | some e =>
    obtain ⟨id, c⟩ := e
    obtain ⟨text, htext⟩ := h.cached id c hh
    refine ⟨_, _, Dialect.eval_getDoc_hit hh, ?_, rfl, h.fates, fun q => ?_⟩
    · unfold readText
      rw [hh]
      dsimp only
      rw [htext]
      rfl
    · show w.index.resolve q = (w.index.insert p d.id).resolve q
      rw [PathIndex.resolve_insert]
      split_ifs with hq
      · subst hq
        -- a hit is of an indexed path
        obtain ⟨_, -, hmap⟩ := Option.bind_eq_some_iff.mp hh
        obtain ⟨i, hi, -⟩ := Option.map_eq_some_iff.mp hmap
        have hr := (Option.filter_eq_some_iff.mp hi).1
        rw [hr, h.known i hr]
      · rfl
  | none =>
    have hsent : (w.looked p).send (listCall (exactly p true)) =
      (.ok (w.server.list (exactly p true)), w.looked p) := by
      rw [send_nil (w.looked p) h.fates]
      unfold World.looked
      rw [← h.fates]
      rfl
    have hmiss := Dialect.eval_getDoc_miss (D := D) hh
    rw [hsent] at hmiss
    dsimp only at hmiss
    rw [h.found] at hmiss
    have hread : readText w p d = d.result.content.decoded := by
      unfold readText
      rw [hh]
    refine ⟨_, _, hmiss, ?_, rfl, h.fates, fun q => ?_⟩
    · rw [hread]
      unfold Memory.result
      split <;> rfl
    · show (World.fetched (w.looked p) p d.id d.result.content d.docStatus).index.resolve q = _
      unfold World.fetched
      dsimp only
      rw [if_neg h.id]
      rfl

/-! ### The write -/

/-- The rules ask the index for files alone. -/
theorem assertWritable_congr (h : ∀ q, ix.resolve q = ix'.resolve q) (D : Dialect) (path : String)
    (intent : WriteIntent) :
    D.assertWritable ix path intent = D.assertWritable ix' path intent := by
  have hfile : ix.isFile = ix'.isFile := funext fun q => by rw [PathIndex.isFile, h q, PathIndex.isFile]
  have hbelow : ix.hasBelow path = ix'.hasBelow path := by
    rw [Bool.eq_iff_iff, PathIndex.hasBelow_iff, PathIndex.hasBelow_iff, hfile]
  unfold Dialect.assertWritable ruleAncestorNotFile ruleNoDescendants PathIndex.findAncestorFile PathIndex.hasDescendant
  rw [hfile, hbelow]

/-- The document that is overwritten is there. -/
theorem existing_isSome (h : File w p d raw) {id : String} (hid : truthy ((readIndex w p d).resolve q) = some id) :
    (w.server.get id).isSome = true := by
  unfold readIndex at hid
  rw [PathIndex.resolve_insert] at hid
  split_ifs at hid with hq
  · obtain ⟨hd, -⟩ := found_some h.found
    obtain rfl := Option.some.inj (Option.filter_eq_some_iff.mp hid).1
    exact Table.get_isSome_of_mem hd
  · exact h.indexed q id hid

theorem writeCall_ok (h : File w p d raw) : ∃ m,
    writeCall (truthy ((readIndex w p d).resolve q)) q X [] w.server = (.ok m, written w (readIndex w p d) q X) := by
  unfold written
  cases hex : truthy ((readIndex w p d).resolve q) with
  | none => exact ⟨_, rfl⟩
  | some id =>
    obtain ⟨e, he⟩ := Option.isSome_iff_exists.mp (existing_isSome h hex)
    unfold writeCall Container.update
    dsimp only
    rw [he]
    exact ⟨_, rfl⟩

/-- **The write leaves the text at its path, unless a rule refuses it.** -/
theorem writes (h : File w p d raw) (hu : Read w p d u) (D : Dialect) (q X : String) :
    match D.assertWritable (readIndex w p d) q .addDoc with
    | some e => eval (D.addDoc q (.text X)) u = (.error (.fs e), u)
    | none => ∃ a t, eval (D.addDoc q (.text X)) u = (.ok a, t) ∧ t.server = written w (readIndex w p d) q X := by
  unfold Dialect.addDoc
  dsimp only
  rw [eval_bind, eval_look, andThen_ok, assertWritable_congr hu.index]
  cases D.assertWritable (readIndex w p d) q .addDoc with
  | some e => rfl
  | none =>
    dsimp only
    obtain ⟨m, hm⟩ := writeCall_ok (q := q) (X := X) h
    rw [eval_bind, eval_look, andThen_ok, eval_bind, eval_request, andThen_ok, send_nil _ hu.fates, hu.index,
      hu.server, hm]
    exact ⟨_, _, rfl, rfl⟩

/-- Two texts at one place are two servers. -/
theorem written_inj (h : File w p d raw) :
    texts (written w (readIndex w p d) q X) = texts (written w (readIndex w p d) q Y) ↔ X = Y := by
  refine ⟨fun he => ?_, fun he => by rw [he]⟩
  unfold written at he
  cases hex : truthy ((readIndex w p d).resolve q) with
  | none =>
    rw [hex] at he
    simpa [texts, writeCall, Container.add] using he
  | some id =>
    obtain ⟨e, hget⟩ := Option.isSome_iff_exists.mp (existing_isSome h hex)
    obtain ⟨hmem, hid⟩ := Table.get_some hget
    rw [hex] at he
    unfold writeCall Container.update texts Table.modify at he
    dsimp only at he
    rw [hget] at he
    simp only [List.map_map] at he
    have hat := List.map_inj_left.mp he e hmem
    simpa [hid] using hat

/-- Writing its content to a document changes no text. -/
theorem written_same (h : File w p d raw) : texts (written w (readIndex w p d) p raw) = texts w.server := by
  obtain ⟨hd, -⟩ := found_some h.found
  have hget : w.server.get d.id = some d := Table.get_of_mem h.ids hd
  have hex : truthy ((readIndex w p d).resolve p) = some d.id := by
    rw [readIndex, PathIndex.resolve_insert, if_pos rfl, truthy_some.mpr h.id]
  unfold written
  rw [hex]
  unfold writeCall Container.update texts Table.modify
  dsimp only
  rw [hget]
  simp only [List.map_map]
  refine List.map_congr_left fun e he => ?_
  have hcontent : e.id = d.id → e.content = some raw := fun hid => by
    have hsame : e = d := Option.some.inj ((Table.get_of_mem h.ids he).symm.trans ((congrArg w.server.get hid).trans hget))
    rw [hsame, h.content]
  by_cases hid : e.id = d.id
  · simp [hid, hcontent hid]
  · simp [hid]

/-! ### The calls -/

/-- What a call does with what a write answers. -/
theorem eval_written {α β : Type} (x : Vol α) (b : β) : eval (do let _ ← x; return b : Vol β) u =
    andThen (eval x u) fun _ t => (.ok b, t) := by
  rw [eval_bind]
  rfl

theorem andThen_answer {α β : Type} (r : Except Thrown α × World) (b : β) :
    andThen (andThen r fun _ t => (.ok b, t)) (fun _ t => (.ok (), t)) = andThen r fun _ t => (.ok (), t) := by
  obtain ⟨_ | _, t⟩ := r
  · rfl
  · rfl

/-- `previous` is the text of the file. -/
theorem eval_previous (h : File w p d raw) : ∃ u, eval (Py.previous p) w = (.ok (readText w p d), u) ∧
    Read w p d u := by
  obtain ⟨r, u, hr, hcontent, hu⟩ := reads h python
  refine ⟨u, ?_, hu⟩
  unfold Py.previous
  rw [Py.getDoc_unreserved h.unreserved, eval_bind, hr, andThen_ok]
  dsimp only
  rw [hcontent]
  rfl

/-- **A call reads the file and writes what comes of its text.** -/
theorem call_eval (h : File w p d raw)
    (hq : ∀ sched dest recursive, op = .cp sched dest recursive → isReservedFilepath (normalizePath dest) = false) :
    ∃ u, Read w p d u ∧
    eval (op.call p) w = if op.writes (readText w p d) then
      andThen (eval (op.dialect.addDoc (op.target w.index p) (.text (op.text (readText w p d)))) u) fun _ t => (.ok (), t)
    else (.ok (), u) := by
  cases op with
  | appendFile suffix =>
    obtain ⟨r, u, hr, hcontent, hu⟩ := reads h typescript
    refine ⟨u, hu, ?_⟩
    show eval (appendFile p suffix) w = _
    unfold appendFile
    dsimp only
    rw [h.normal, h.unreserved, if_neg Bool.false_ne_true, eval_bind, eval_look, andThen_ok, h.file,
      if_neg Bool.false_ne_true,
      eval_bind, ← typescript_getDoc, hr, andThen_ok]
    dsimp only [Option.map_some, Option.getD_some]
    rw [hcontent, ← typescript_addDoc]
    exact eval_written _ _
  | cp sched dest recursive =>
    obtain ⟨r, u, hr, hcontent, hu⟩ := reads h typescript
    refine ⟨u, hu, ?_⟩
    show eval (cp sched p dest recursive) w = _
    have hdest := hq sched dest recursive rfl
    unfold cp
    dsimp only
    rw [hdest, if_neg Bool.false_ne_true, h.normal, h.unreserved, if_neg Bool.false_ne_true, eval_bind,
      eval_look, andThen_ok,
      h.file, if_neg Bool.false_ne_true, eval_bind, ← typescript_getDoc, hr, andThen_ok]
    dsimp only
    rw [hcontent, ← typescript_addDoc]
    exact eval_written _ _
  | appendRedirect suffix =>
    obtain ⟨u, hu, hread⟩ := eval_previous h
    refine ⟨u, hread, ?_⟩
    show eval (Py.appendRedirect p suffix) w = _
    unfold Py.appendRedirect
    rw [eval_bind, hu, andThen_ok]
    by_cases hwrites : readText w p d ≠ "" ∨ suffix ≠ ""
    · rw [if_pos hwrites, if_pos (show (Op.appendRedirect suffix).writes (readText w p d) =
        true from decide_eq_true hwrites)]
      exact eval_written _ _
    · rw [if_neg hwrites, if_neg (by simpa [Op.writes] using hwrites)]
      rfl
  | teeAppend suffix =>
    obtain ⟨u, hu, hread⟩ := eval_previous h
    refine ⟨u, hread, ?_⟩
    show eval (Py.teeAppend p suffix) w = _
    unfold Py.teeAppend
    rw [eval_bind, hu, andThen_ok]
    exact eval_written _ _
  | cpShell time recursive arg dest =>
    obtain ⟨r, u, hr, hcontent, hu⟩ := reads h python
    refine ⟨u, hu, ?_⟩
    show eval (do let _ ← Py.cp time recursive arg p dest) w = _
    rw [eval_written]
    unfold Py.cp
    rw [eval_bind, eval_look, andThen_ok, eval_bind, eval_look, andThen_ok, h.file,
      if_neg Bool.false_ne_true, eval_bind,
      Py.getDoc_unreserved h.unreserved, hr, andThen_ok]
    dsimp only
    rw [hcontent, eval_written]
    exact andThen_answer _ _
  | sedInPlace applySed arg =>
    obtain ⟨r, u, hr, hcontent, hu⟩ := reads h python
    refine ⟨u, hu, ?_⟩
    show eval (do let _ ← Py.sedInPlace applySed arg p) w = _
    rw [eval_written]
    unfold Py.sedInPlace
    rw [eval_bind, Py.getDoc_unreserved h.unreserved, hr, andThen_ok]
    dsimp only
    rw [hcontent]
    dsimp only [Py.textOf]
    rw [eval_bind, eval_pure, andThen_ok, eval_written]
    exact andThen_answer _ _

theorem refused_reserved (h : isReservedFilepath q = true) (D : Dialect) : D.assertWritable ix q .addDoc ≠ none := by
  unfold Dialect.assertWritable ruleReserved
  rw [if_pos h]
  simp

/-- `cp` does not write the profile. -/
theorem cp_reserved {sched : ℕ → List ℕ} {dest : String} (hq : isReservedFilepath (normalizePath dest) = true)
    (recursive : Bool) :
    eval (cp sched p dest recursive) w = (.error (.fs (eperm (normalizePath dest) "write")), w) := by
  unfold cp
  dsimp only
  rw [if_pos hq]
  rfl

theorem storesRaw_of_error {e : Thrown} (he : eval (op.call p) w = (.error e, u)) : StoresRaw w p d raw op := by
  intro t ht
  rw [he] at ht
  cases ht

/-- **What comes of the document's content is stored exactly if that is what is
read**, where the call may write. -/
theorem storesRaw_iff (h : File w p d raw) (op : Op) :
    StoresRaw w p d raw op ↔ (Accepts w p d op → op.text (readText w p d) = op.text raw) := by
  by_cases hcp : ∃ sched dest recursive, op = .cp sched dest recursive ∧ isReservedFilepath (normalizePath dest) = true
  · obtain ⟨sched, dest, recursive, rfl, hq⟩ := hcp
    refine ⟨fun _ hacc => absurd hacc.2 (refused_reserved hq _), fun _ => ?_⟩
    exact storesRaw_of_error (cp_reserved hq recursive : eval ((Op.cp sched dest recursive).call p) w = _)
  obtain ⟨u, hread, hcall⟩ := @call_eval _ _ _ _ op h fun sched dest recursive hop =>
    eq_false_of_ne_true fun hq => hcp ⟨sched, dest, recursive, hop, hq⟩
  by_cases hwrites : op.writes (readText w p d) = true
  · rw [if_pos hwrites] at hcall
    have hwritten := writes h hread op.dialect (op.target w.index p) (op.text (readText w p d))
    cases hrule : op.dialect.assertWritable (readIndex w p d) (op.target w.index p) .addDoc with
    | some e =>
      rw [hrule] at hwritten
      rw [hwritten, andThen_error] at hcall
      refine ⟨fun _ hacc => ?_, fun _ => storesRaw_of_error hcall⟩
      rw [hacc.2] at hrule
      cases hrule
    | none =>
      rw [hrule] at hwritten
      obtain ⟨a, t, hadd, hserver⟩ := hwritten
      rw [hadd, andThen_ok] at hcall
      constructor
      · intro hstores _
        exact (written_inj h).mp (hserver ▸ hstores t hcall)
      · intro htext t' ht'
        obtain rfl : t = t' := congrArg Prod.snd (hcall.symm.trans ht')
        rw [hserver, htext ⟨hwrites, hrule⟩]
  · -- nothing is appended to nothing
    rw [if_neg hwrites] at hcall
    refine ⟨fun _ hacc => absurd hacc.1 hwrites, fun _ t ht => ?_⟩
    obtain rfl : u = t := congrArg Prod.snd (hcall.symm.trans ht)
    cases op with
    | appendRedirect suffix =>
      have hnil : suffix = "" := by
        by_contra hne
        exact hwrites (decide_eq_true (.inr hne))
      subst hnil
      have htext : (Op.appendRedirect "").text raw = raw := String.append_empty
      rw [htext, hread.server]
      exact (written_same h).symm
    | appendFile _ | cp _ _ _ | teeAppend _ | cpShell _ _ _ _ | sedInPlace _ _ => exact absurd rfl hwrites

/-! ### One document -/

def document (status : String) : Memory :=
  ⟨"d1", some "/a.md", some "raw", some status, some "bad mime", none, none, none, none⟩

/-- A client that has read nothing, of a server with the document. -/
def unread (status : String) : World := ⟨⟨[document status], [], ([], [])⟩, .new, .new none none fun _ => 0, []⟩

theorem unread_file (status : String) : File (unread status) "/a.md" (document status) "raw" where
  fates := rfl
  ids := List.pairwise_singleton _ _
  normal := by decide
  unreserved := by decide
  file := (by decide : PathIndex.new.isDirOnly "/a.md" = false)
  found := rfl
  content := rfl
  id := fun he => absurd he (by decide : "d1" ≠ "")
  indexed := fun _ _ h => (nomatch h)
  known := fun _ h => (nomatch h)
  cached := fun _ _ h => (nomatch h)

theorem storesRaw_done : StoresRaw (unread "done") "/a.md" (document "done") "raw" (.teeAppend "!") :=
  (storesRaw_iff (unread_file "done") (.teeAppend "!")).mpr fun _ => by decide +kernel

/-- **The counterexample.** What is appended to a document that could not be
processed is appended to the text made up for it. -/
theorem blurb_stored :
    texts (eval ((Op.appendFile (.text "!")).call "/a.md") (unread "failed")).2.server =
      [("d1", some "/a.md", some (failedContent "bad mime" ++ "!"))] ∧
    ¬ StoresRaw (unread "failed") "/a.md" (document "failed") "raw" (.appendFile (.text "!")) := by
  have htexts : texts (eval ((Op.appendFile (.text "!")).call "/a.md") (unread "failed")).2.server =
      [("d1", some "/a.md", some (failedContent "bad mime" ++ "!"))] := by decide +kernel
  have hok : (eval ((Op.appendFile (.text "!")).call "/a.md") (unread "failed")).1 = .ok () := by decide +kernel
  refine ⟨htexts, fun h => ?_⟩
  have hraw := h (eval ((Op.appendFile (.text "!")).call "/a.md") (unread "failed")).2 (Prod.ext hok rfl)
  rw [htexts] at hraw
  exact absurd hraw (by decide +kernel)

end ReadWrite

end Smfs.Bash
