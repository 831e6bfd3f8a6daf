/-
# What `done` says

`fs_remote.last_status` is written by a push job once it has waited, by the
poller, and by a reconcile. It is honest as long as a document is marked done
only where the server has reported it done since the last content of the mount
that it has taken for it. A request with content is made up to five times, so
the server may take it more than once, and long after the wait that comes
before it has ended: each time is a step of its own (`Act.take`). The push job
does not look at what its wait has ended with, and it sends new content for a
document whose row goes on saying `done` (`never_done`). Each step is judged by
what it writes and what it takes (`honest_iff`).

Key definitions: `Status.heard`, `Status.requests`, `Status.step`, `Status.Honest`, `Status.Marks`, `Status.Ok`.
Key theorems: `Status.reconcileOne_rows`, `Status.step_rows`, `Status.honest_iff`, `Status.never_done`.
-/
import Smfs.Sync.Changes

namespace Smfs
namespace Status

open Trans Db Fs Changes

/-- The mount; the documents that the server has reported done since it last
took content for them; the requests with content that have been out, by their
document if they name one; and the documents that content was taken for. -/
structure St where
  mount : Mount
  settled : List String
  out : List (Option String)
  taken : List String
  deriving DecidableEq

def init : St := ⟨.fresh, [], [], []⟩

/-- A call, and whether the server's report in it was made after it last took
content for the document; or the server takes the content of a request, which
it may do for every attempt. -/
inductive Act
  | call (c : Changes.Act) (current : Bool)
  | take (id : String)

/-- The state that a tick of the poller writes to its row. -/
def polled (row : AwaitingDone) (processing : List (String × String))
    (terminal : Except ApiError Document) (nowMs : ℤ) :
    Option String :=
  if stuckTier ((row.lastStatusAt.map (nowMs - ·)).getD 0) = .stop then some "stuck"
  else
    match processing.reverse.find? fun d => d.1 = row.remoteId with
    | some d => some d.2
    | none =>
      match terminal with
      | .ok doc => some doc.status
      | .error _ => none

/-- The documents that a call hears to be done. -/
def heard (m : Mount) : Changes.Act → List String
  | .mount (.taskAnswer i (.status status) _) =>
    match (m.tasks[i]?).map Task.phase with
    | some (.wait rid _) => if status = "done" then [rid] else []
    | _ => []
  | .mount (.reconcile doc _) => if doc.status = "done" then [doc.id] else []
  | .mount (.poll row processing terminal now) =>
    if polled row processing terminal now = some "done" then [row.remoteId] else []
  | _ => []

/-- The requests with content that tasks are at: a `PATCH` for its document, a
`POST` or an upload for one that the server will make. -/
def requests (m : Mount) : List (Option String) :=
  m.tasks.filterMap fun k =>
    match k.phase with
    | .patch _ _ rid => some (some rid)
    | .post .. | .upload .. => some none
    | _ => none

/-- The document whose content the server must have taken to give the answer. -/
def confirms (m : Mount) : Changes.Act → Option String
  | .mount (.taskAnswer i answer _) =>
    match (m.tasks[i]?).map Task.phase, answer with
    | some (.patch _ _ rid), .ok => some rid
    | some (.post ..), .created id | some (.upload ..), .created id => some id
    | _, _ => none
  | _ => none

/-- An attempt may be taken at any time after its request has been out, also
when the task has given it up; an answer with success is given to what was taken. -/
def step (s : St) : Act → Option St
  | .call c current =>
    if ∀ id ∈ confirms s.mount c, id ∈ s.taken then
      (Changes.step s.mount c).map fun m =>
        ⟨m, s.settled ++ (if current then heard s.mount c else []), s.out ++ requests m, s.taken⟩
    else none
  | .take id =>
    if some id ∈ s.out ∨ none ∈ s.out then
      some { s with settled := s.settled.filter (· ≠ id), taken := s.taken ++ [id] }
    else none

/-- What is marked done has been reported done, and what has not been is awaited. -/
structure Honest (s : St) : Prop where
  done : ∀ r ∈ s.mount.db.remotes, r.lastStatus = some "done" → r.remoteId ∈ s.settled
  awaited : ∀ r ∈ s.mount.db.remotes, r.remoteId ∉ s.settled →
    ⟨r.ino, r.remoteId, r.lastStatus, r.lastStatusAt⟩ ∈ s.mount.db.inodesAwaitingDone

/-- `reconcile_one` marks a row with the state of the document: it is mapped,
no older than the file and not mirrored yet, or its path is free or that of a
file without newer edits. -/
def Marks (db : Db) (doc : Document) : Prop :=
  match db.inoByRemoteId doc.id with
  | some i => dirtyNewer db i doc = false ∧ mirroredUpTo db i doc = false ∧ (renameToDoc db i doc).1 = .ok ()
  | none => doc.status = "done" ∧
    match attachTarget db doc with
    | some i => dirtyNewer (ensureDirs db (splitPath doc.path).1).1 i doc = false
    | none => doc.isBinaryType = true →
      doc.url.isSome = true ∧ doc.path.toList.contains '/' = true ∧ (splitPath doc.path).2.isEmpty = false

/-- Content is taken for no document that a row says to be done. A push job
marks what has been reported done since, and so do the poller, if its row is
still mapped as it was, and a reconcile. -/
def Ok (s : St) : Act → Prop
  | .take id => ∀ r ∈ s.mount.db.remotes, r.lastStatus = some "done" → r.remoteId ≠ id
  | .call (.mount (.taskDb i _)) _ =>
    ∀ k ino rid, s.mount.tasks[i]? = some k → k.phase = .markMirrored ino → s.mount.db.getRemoteId ino = some rid →
      rid ∈ s.settled
  | .call (.mount (.poll row processing terminal now)) current =>
    polled row processing terminal now = some "done" →
      ∀ rid, s.mount.db.getRemoteId row.ino = some rid → rid ∈ s.settled ∨ current = true ∧ rid = row.remoteId
  | .call (.mount (.reconcile doc _)) current =>
    doc.status = "done" → Marks s.mount.db doc → doc.id ∈ s.settled ∨ current = true
  | _ => True

section Lemmas

variable {P : Permit} {db db' : Db} {i : Ino} {doc : Document} {nowMs : ℤ} {S : String → Prop} {rows : List Remote}

/-- Every row that says `done` is of a document with the property. -/
def Within (S : String → Prop) (rows : List Remote) : Prop := ∀ r ∈ rows, r.lastStatus = some "done" → S r.remoteId

theorem Within.mono {S' : String → Prop} (h : Within S rows) (hS : ∀ rid, S rid → S' rid) : Within S' rows :=
  fun r hr hd => hS _ (h r hr hd)

theorem Within.setRemoteId {rid : String} (h : Within S db.remotes) : Within S (db.setRemoteId i rid).remotes := by
  intro r hr hd
  rcases Table.mem_put hr with rfl | hr
  · cases hd
  · exact h r hr hd

/-- What changes without a mark may do to the rows. -/
theorem Change.within (h : Change P db db') (hmark : ∀ d i st, ¬ P.mark d i st) (hw : Within S db.remotes) :
    Within S db'.remotes := by
  cases h with
  | rest inodes next remotes => rwa [remotes]
  | inode | root | attrs | drop => exact hw
  | map may => exact hw.setRemoteId
  | unmap may => exact fun r hr => hw r (Table.mem_erase.mp hr).1
  | forget may => exact fun r hr => hw r (List.mem_filter.mp hr).1
  | mark u t may => exact absurd may (hmark _ _ _)

theorem Many.within (h : Many P db db') (hmark : ∀ d i st, ¬ P.mark d i st) (hw : Within S db.remotes) :
    Within S db'.remotes := by
  induction h with
  | refl => exact hw
  | tail _ hc ih => exact Change.within hc hmark ih

/-- A mark with `done` asks for the document of its row. -/
theorem within_mark {u t : Option ℤ} {st : Option String} (hs : Sorted db) (hw : Within S db.remotes) :
    Within S (db.setMirroredState i u st t).remotes ↔ (st = some "done" → ∀ rid,
      db.getRemoteId i = some rid → S rid) := by
  constructor
  · rintro h rfl rid hid
    obtain ⟨r, hr, rfl⟩ := Option.map_eq_some_iff.mp hid
    obtain ⟨hmem, hino⟩ := Table.get_some hr
    have hrow : { r with mirroredUpdatedAt := u.or r.mirroredUpdatedAt, lastStatus := some "done",
                         lastStatusAt := t.or r.lastStatusAt } ∈ (db.setMirroredState i u (some "done") t).remotes :=
      Table.mem_modify.mpr ⟨r, hmem, (if_pos hino).symm⟩
    have hdone := h _ hrow
    exact hdone rfl
  · intro h r hr hd
    obtain ⟨x, hx, rfl⟩ := Table.mem_modify.mp hr
    split_ifs at hd ⊢ with hino
    · cases st with
      | none => exact hw x hx hd
      | some st =>
        have hget : Table.get Remote.ino db.remotes x.ino = some x := Table.get_of_mem (Table.nodup_of_sorted hs) hx
        refine h (Eq.trans ?_ hd) x.remoteId ?_
        · rfl
        · show (Table.get Remote.ino db.remotes i).map Remote.remoteId = _
          rw [← hino, hget]
          rfl
    · exact hw x hx hd

/-! ### A reconcile -/

/-- The rows after a reconcile that marks nothing. -/
inductive Unmarked (db : Db) (doc : Document) : List Remote → Prop
  | same : Unmarked db doc db.remotes
  | attached (i : Ino) : Unmarked db doc (db.setRemoteId i doc.id).remotes

/-- The rows after a reconcile that marks the row of the document. -/
inductive Marked (db : Db) (doc : Document) : List Remote → Prop
  | mapped {i : Ino} (u t : Option ℤ) (id : db.getRemoteId i = some doc.id) :
      Marked db doc (db.setMirroredState i u (some doc.status) t).remotes
  | new (i : Ino) (u t : Option ℤ) : Marked db doc ((db.setRemoteId i doc.id).setMirroredState i u (some doc.status) t).remotes

theorem Unmarked.of_remotes (h : db'.remotes = db.remotes) : Unmarked db doc db'.remotes := h ▸ .same

theorem setRemoteId_remotes {rid : String} (h : db'.remotes = db.remotes) :
    (db'.setRemoteId i rid).remotes = (db.setRemoteId i rid).remotes := by
  unfold Db.setRemoteId
  dsimp only
  rw [h]

theorem setMirroredState_remotes {u t : Option ℤ} {st : Option String} (h : db'.remotes = db.remotes) :
    (db'.setMirroredState i u st t).remotes = (db.setMirroredState i u st t).remotes := by
  unfold setMirroredState
  dsimp only
  rw [h]

/-- A row that is new or replaced, and then marked. -/
theorem Marked.of_new {d d' : Db} {u t : Option ℤ} (h : d.remotes = db.remotes)
    (h' : d'.remotes = (d.setRemoteId i doc.id).remotes) :
    Marked db doc (d'.setMirroredState i u (some doc.status) t).remotes := by
  have he : (d'.setMirroredState i u (some doc.status) t).remotes =
      ((db.setRemoteId i doc.id).setMirroredState i u (some doc.status) t).remotes :=
    setMirroredState_remotes (h'.trans (setRemoteId_remotes h))
  rw [he]
  exact .new i u t

theorem transcription_remotes {filepath : String} : (syncTranscriptionSibling db doc filepath).remotes = db.remotes :=
  syncTranscriptionSibling_sameSync.remotes

theorem errorSibling_remotes {filepath : String} : (syncErrorSibling db doc filepath).remotes = db.remotes :=
  syncErrorSibling_sameSync.remotes

theorem reconcileMapped_rows (hid : db.getRemoteId i = some doc.id) :
    (dirtyNewer db i doc = false ∧ mirroredUpTo db i doc = false ∧ (renameToDoc db i doc).1 = .ok () →
      Marked db doc (reconcileMapped db i doc nowMs).2.remotes) ∧
    (¬ (dirtyNewer db i doc = false ∧ mirroredUpTo db i doc = false ∧ (renameToDoc db i doc).1 = .ok ()) →
      Unmarked db doc (reconcileMapped db i doc nowMs).2.remotes) := by
  have hren : SameSync db (renameToDoc db i doc).2 := renameToDoc_sameSync
  unfold reconcileMapped
  split_ifs with hdirty hup
  · exact ⟨fun h => absurd (h.1.symm.trans hdirty) nofun, fun _ => .same⟩
  · exact ⟨fun h => absurd (h.2.1.symm.trans hup) nofun, fun _ =>
      .of_remotes (errorSibling_remotes.trans transcription_remotes)⟩
  · generalize renameToDoc db i doc = renamed at hren ⊢
    obtain ⟨res, d⟩ := renamed
    have hsame : d.remotes = db.remotes := hren.remotes
    cases res with
    | error e => exact ⟨fun h => (nomatch h.2.2), fun _ => .of_remotes hsame⟩
    | ok _ =>
      refine ⟨fun _ => ?_, fun h => absurd ⟨by simpa using hdirty, by simpa using hup, rfl⟩ h⟩
      have hmark (d' : Db) (h : d'.remotes = d.remotes) (u t : Option ℤ) :
          Marked db doc (d'.setMirroredState i u (some doc.status) t).remotes := by
        have he : (d'.setMirroredState i u (some doc.status) t).remotes =
          (db.setMirroredState i u (some doc.status) t).remotes := setMirroredState_remotes (h.trans hsame)
        rw [he]
        exact .mapped u t hid
      show Marked db doc (reconcileContent d i doc nowMs).remotes
      unfold reconcileContent
      split_ifs
      · rw [transcription_remotes]
        exact hmark _ mirrorContent_sameSync.remotes _ _
      · rw [errorSibling_remotes]
        exact hmark _ rfl _ _

section Unmapped

variable {d : Db} {p : Ino} {name : String}

theorem reconcileAttach_rows (hsame : d.remotes = db.remotes) :
    (dirtyNewer d i doc = false → Marked db doc (reconcileAttach d i doc nowMs).2.remotes) ∧
    (¬ dirtyNewer d i doc = false → Unmarked db doc (reconcileAttach d i doc nowMs).2.remotes) := by
  unfold reconcileAttach
  split_ifs with hdirty
  · refine ⟨fun h => absurd (h.symm.trans hdirty) nofun, fun _ => ?_⟩
    have he : (d.setRemoteId i doc.id).remotes = (db.setRemoteId i doc.id).remotes := setRemoteId_remotes hsame
    show Unmarked db doc (d.setRemoteId i doc.id).remotes
    rw [he]
    exact .attached i
  · have hside : SameSync (d.setRemoteId i doc.id) (attachContent (d.setRemoteId i doc.id) i doc) :=
      attachContent_sameSync
    exact ⟨fun _ => .of_new hsame hside.remotes, fun h => absurd (by simpa using hdirty) h⟩

theorem reconcileBinary_rows (hsame : d.remotes = db.remotes) :
    (doc.url.isSome = true ∧ doc.path.toList.contains '/' = true ∧ (splitPath doc.path).2.isEmpty = false →
      Marked db doc (reconcileBinary d doc nowMs).2.remotes) ∧
    (¬ (doc.url.isSome = true ∧ doc.path.toList.contains '/' = true ∧ (splitPath doc.path).2.isEmpty = false) →
      Unmarked db doc (reconcileBinary d doc nowMs).2.remotes) := by
  have hside : SameSync d (syncErrorSibling (syncTranscriptionSibling d doc doc.path) doc doc.path) := siblings_sameSync
  unfold reconcileBinary
  dsimp only
  generalize syncErrorSibling (syncTranscriptionSibling d doc doc.path) doc doc.path = e at hside ⊢
  have hstub : SameSync e (createRawStub e doc.path).2 := createRawStub_sameSync
  have hok : (doc.path.toList.contains '/' = true ∧ (splitPath doc.path).2.isEmpty = false) ↔
      ∃ k, (createRawStub e doc.path).1 = .ok k := by
    unfold createRawStub
    cases doc.path.toList.contains '/' <;> cases (splitPath doc.path).2.isEmpty <;> simp
  rw [hok]
  split_ifs with hurl
  · generalize createRawStub e doc.path = stub at hstub ⊢
    obtain ⟨res, e'⟩ := stub
    cases res with
    | error err => exact ⟨fun ⟨_, k, hk⟩ => (nomatch hk), fun _ =>
      .of_remotes (hstub.remotes.trans (hside.remotes.trans hsame))⟩
    | ok k => exact ⟨fun _ => .of_new (hstub.remotes.trans (hside.remotes.trans hsame)) rfl,
      fun h => absurd ⟨hurl, k, rfl⟩ h⟩
  · exact ⟨fun h => absurd h.1 hurl, fun _ => .of_remotes (hside.remotes.trans hsame)⟩

theorem reconcileCreate_rows (hsame : d.remotes = db.remotes) :
    Marked db doc (reconcileCreate d p name doc nowMs).2.remotes := by
  have hadded : (addFile d p name (doc.content.getD [])).1.remotes = db.remotes := hsame
  unfold reconcileCreate
  dsimp only
  generalize addFile d p name (doc.content.getD []) = added at hadded ⊢
  obtain ⟨e, k⟩ := added
  rw [transcription_remotes]
  exact .of_new hadded rfl

end Unmapped

/-- A reconcile marks its row, or leaves the states of all. -/
theorem reconcileOne_rows (hs : Sorted db) :
    (Marks db doc → Marked db doc (reconcileOne db doc nowMs).2.remotes) ∧
      (¬ Marks db doc → Unmarked db doc (reconcileOne db doc nowMs).2.remotes) := by
  unfold reconcileOne Marks
  cases hid : db.inoByRemoteId doc.id with
  | some i => exact reconcileMapped_rows (getRemoteId_of_ino hs hid)
  | none =>
    dsimp only
    unfold reconcileUnmapped attachTarget
    by_cases hdone : doc.status = "done"
    · rw [if_neg (not_not.mpr hdone), and_iff_right hdone]
      have hdirs : SameSync db (ensureDirs db (splitPath doc.path).1).1 := ensureDirs_sameSync
      dsimp only
      generalize ensureDirs db (splitPath doc.path).1 = dirs at hdirs ⊢
      obtain ⟨d, p⟩ := dirs
      dsimp only at hdirs ⊢
      cases hc : d.childIno p (splitPath doc.path).2 with
      | some j => exact reconcileAttach_rows hdirs.remotes
      | none =>
        dsimp only
        by_cases hbin : doc.isBinaryType = true
        · rw [if_pos hbin, forall_prop_of_true hbin]
          exact reconcileBinary_rows hdirs.remotes
        · rw [if_neg hbin]
          exact ⟨fun _ => reconcileCreate_rows hdirs.remotes, fun h => absurd (fun hb => absurd hb hbin) h⟩
    · rw [if_pos hdone]
      exact ⟨fun h => absurd h.1 hdone, fun _ => .of_remotes errorSibling_remotes⟩

theorem Unmarked.within (h : Unmarked db doc rows) (hw : Within S db.remotes) : Within S rows := by
  cases h with
  | same => exact hw
  | attached i => exact hw.setRemoteId

/-- A row that is marked as the document is asks for the document. -/
theorem Marked.within (h : Marked db doc rows) (hs : Sorted db) (hw : Within S db.remotes) :
    Within S rows ↔ (doc.status = "done" → S doc.id) := by
  cases h with
  | @mapped i u t id =>
    rw [within_mark hs hw, id]
    simp
  | new i u t =>
    have hself : (db.setRemoteId i doc.id).getRemoteId i = some doc.id := by rw [getRemoteId_setRemoteId, if_pos rfl]
    have hs' : Sorted (db.setRemoteId i doc.id) := Table.put_sorted hs
    rw [within_mark hs' hw.setRemoteId, hself]
    simp

/-- After a reconcile the rows are honest exactly where the document may be marked as it is. -/
theorem reconcileOne_within (hs : Sorted db) (hw : Within S db.remotes) :
    Within S (reconcileOne db doc nowMs).2.remotes ↔ (doc.status = "done" → Marks db doc → S doc.id) := by
  obtain ⟨hmarks, hno⟩ := @reconcileOne_rows db doc nowMs hs
  by_cases h : Marks db doc
  · rw [(hmarks h).within hs hw, forall_prop_of_true h]
  · exact iff_of_true ((hno h).within hw) fun _ hm => absurd hm h

/-! ### The poller -/

theorem pollRow_within {row : AwaitingDone} {processing : List (String × String)} {terminal : Except ApiError Document}
    (hs : Sorted db) (hw : Within S db.remotes) :
    Within S (pollRow db row processing terminal nowMs).remotes ↔
      (polled row processing terminal nowMs = some "done" → ∀ rid, db.getRemoteId row.ino = some rid → S rid) := by
  unfold pollRow polled
  dsimp only
  split_ifs
  · exact within_mark hs hw
  · generalize processing.reverse.find? (fun d => d.1 = row.remoteId) = found
    cases found with
    | some d => exact within_mark hs hw
    | none =>
      cases terminal with
      | ok doc =>
        dsimp only
        split_ifs with hdone
        · rw [hdone]
          exact within_mark hs hw
        · exact within_mark hs hw
      | error e =>
        cases e with
        | notFound => exact iff_of_true (fun r hr => hw r (Table.mem_erase.mp hr).1) fun h => (nomatch h)
        | network | auth | conflict | rateLimited | rejected | server => exact within_mark hs hw

/-! ### A step -/

variable {s t : St} {a : Act}

theorem honest_iff_within : Honest s ↔ Within (· ∈ s.settled) s.mount.db.remotes := by
  refine ⟨fun h => h.done, fun h => ⟨h, fun r hr hno => ?_⟩⟩
  refine List.mem_map.mpr ⟨r, List.mem_filter.mpr ⟨hr, ?_⟩, rfl⟩
  exact decide_eq_true fun hd => hno (h r hr hd)

theorem mem_settled {rid : String} {current : Bool} {ids : List String} :
    rid ∈ s.settled ++ (if current then ids else []) ↔ rid ∈ s.settled ∨ current = true ∧ rid ∈ ids := by
  rw [List.mem_append]
  cases current <;> simp

theorem step_take {id : String} (h : step s (.take id) = some t) :
    t = { s with settled := s.settled.filter (· ≠ id), taken := s.taken ++ [id] } := by
  simp only [step] at h
  split_ifs at h
  exact (Option.some.inj h).symm

theorem step_call {c : Changes.Act} {current : Bool} (h : step s (.call c current) = some t) :
    ∃ m, Changes.step s.mount c = some m ∧
      t = ⟨m, s.settled ++ (if current then heard s.mount c else []), s.out ++ requests m, s.taken⟩ := by
  unfold step at h
  dsimp only at h
  by_cases hc : ∀ id ∈ confirms s.mount c, id ∈ s.taken
  · rw [if_pos hc] at h
    obtain ⟨m, hm, rfl⟩ := Option.map_eq_some_iff.mp h
    exact ⟨m, hm, rfl⟩
  · rw [if_neg hc] at h
    cases h

/-- Where the server takes content, the state stays honest exactly if no row says the document to be done. -/
theorem take_rows {id : String} (h : Honest s) (hst : step s (.take id) = some t) : Honest t ↔ Ok s (.take id) := by
  obtain rfl := step_take hst
  rw [honest_iff_within] at h ⊢
  refine forall_congr' fun r => forall_congr' fun hr => forall_congr' fun hd => ?_
  simpa using fun _ => h r hr hd

/-- From an honest state, a step leads to an honest one exactly where it writes and takes what it may. -/
theorem step_rows (hs : Sorted s.mount.db) (h : Honest s) (hst : step s a = some t) : Honest t ↔ Ok s a := by
  cases a with
  | take id => exact take_rows h hst
  | call c current =>
  obtain ⟨m, hm, rfl⟩ := step_call hst
  rw [honest_iff_within] at h ⊢
  -- what is asked of the rows may be in the old state or in the report
  have hold : Within (· ∈ s.settled ++ if current then heard s.mount c else []) s.mount.db.remotes :=
    h.mono fun rid hrid => mem_settled.mpr (.inl hrid)
  -- without a mark, what was honest is
  have quiet (hmark : ∀ d i st, ¬ (permit s.mount c).mark d i st) :
      Within (· ∈ s.settled ++ if current then heard s.mount c else []) m.db.remotes :=
    Many.within (step_changes hs hm) hmark hold
  cases c with
  | name op now => exact iff_of_true (quiet (by cases op <;> exact fun _ _ _ => id)) trivial
  | setattr ino size => exact iff_of_true (quiet fun _ _ _ => id) trivial
  | mount b =>
    cases b with
    | createFile | write | truncate | flush | unlink | rename | applyDeletion | rehydrate | claim | crash =>
      exact iff_of_true (quiet fun _ _ _ => id) trivial
    | reconcile doc now =>
      cases hm
      refine (reconcileOne_within hs hold).trans (forall_congr' fun hdone => imp_congr_right fun _ => ?_)
      have hheard : heard s.mount (.mount (.reconcile doc now)) = [doc.id] := if_pos hdone
      rw [mem_settled, hheard]
      simp
    | poll row processing terminal now =>
      cases hm
      refine (pollRow_within hs hold).trans
        (forall_congr' fun hdone => forall_congr' fun rid => imp_congr_right fun _ => ?_)
      have hheard : heard s.mount (.mount (.poll row processing terminal now)) = [row.remoteId] := if_pos hdone
      rw [mem_settled, hheard]
      simp
    | taskAnswer i answer timedOut =>
      have hdb : m.db = s.mount.db := by
        obtain ⟨k, -, hk⟩ := Option.bind_eq_some_iff.mp hm
        obtain ⟨next, -, rfl⟩ := Option.map_eq_some_iff.mp hk
        rfl
      exact iff_of_true (hdb ▸ hold) trivial
    | taskDb i now =>
      obtain ⟨k, hk, hm'⟩ := Option.bind_eq_some_iff.mp hm
      obtain ⟨⟨d, next⟩, hd, rfl⟩ := Option.map_eq_some_iff.mp hm'
      by_cases hphase : ∃ ino, k.phase = .markMirrored ino
      · obtain ⟨ino, hphase⟩ := hphase
        rw [hphase] at hd
        cases hd
        refine (within_mark hs hold).trans ⟨fun hw k' ino' rid hk' hp hid => ?_, fun hok _ rid hid => ?_⟩
        · obtain rfl := Option.some.inj (hk.symm.trans hk')
          obtain rfl := Phase.markMirrored.inj (hphase.symm.trans hp)
          rcases mem_settled.mp (hw rfl rid hid) with hrid | hrid
          · exact hrid
          · exact absurd hrid.2 List.not_mem_nil
        · exact mem_settled.mpr (.inl (hok k ino rid hk hphase hid))
      · refine iff_of_true (quiet fun d j st hmark => ?_) fun k' ino rid hk' hp => ?_
        · rw [permit_task hk] at hmark
          cases hp : k.phase with
          | markMirrored ino => exact hphase ⟨ino, hp⟩
          | start | wait | patch | post | upload | clearRemoteId | mapInode | mapRow | clearDirty | delete | lookup | rename
          | succeed | fail | poison | sibling | drop =>
            rw [hp] at hmark
            exact hmark
        · obtain rfl := Option.some.inj (hk.symm.trans hk')
          exact absurd ⟨ino, hp⟩ hphase

/-- The rows are in order, and honest. -/
structure Inv (s : St) : Prop where
  sorted : Sorted s.mount.db
  states : Honest s

theorem Inv.start : Inv init := ⟨.nil, honest_iff_within.mpr fun _ hr => absurd hr List.not_mem_nil⟩

theorem step_inv (h : Inv s) (hok : Ok s a) (hst : step s a = some t) : Inv t := by
  refine ⟨?_, (step_rows h.sorted h.states hst).mpr hok⟩
  cases a with
  | take id =>
    obtain rfl := step_take hst
    exact h.sorted
  | call c current =>
    obtain ⟨m, hm, rfl⟩ := step_call hst
    exact step_sorted hm h.sorted

/-- **The states are honest as long as each step writes and takes what it may**, and no longer. -/
theorem honest_iff (h : Reach step Ok init s) : Honest s ∧ ∀ a t, step s a = some t → (Honest t ↔ Ok s a) := by
  have hinv : Inv s := h.inv .start fun _ _ _ hI hok hst => step_inv hI hok hst
  exact ⟨hinv.states, fun a t hst => step_rows hinv.sorted hinv.states hst⟩

instance (db : Db) (doc : Document) : Decidable (Marks db doc) :=
  match hid : db.inoByRemoteId doc.id with
  | some i =>
    decidable_of_iff (dirtyNewer db i doc = false ∧ mirroredUpTo db i doc = false ∧ (renameToDoc db i doc).1 = .ok ())
      (by unfold Marks; rw [hid])
  | none =>
    match ht : attachTarget db doc with
    | some i => decidable_of_iff (doc.status = "done" ∧ dirtyNewer (ensureDirs db (splitPath doc.path).1).1 i doc = false)
        (by unfold Marks; rw [hid, ht])
    | none => decidable_of_iff (doc.status = "done" ∧ (doc.isBinaryType = true →
        doc.url.isSome = true ∧ doc.path.toList.contains '/' = true ∧ (splitPath doc.path).2.isEmpty = false))
        (by unfold Marks; rw [hid, ht])

instance : DecidableRel Ok
  | s, .take id => inferInstanceAs (Decidable (∀ r ∈ s.mount.db.remotes, r.lastStatus = some "done" → r.remoteId ≠ id))
  | s, .call (.mount (.taskDb i _)) _ =>
    decidable_of_iff (∀ k ∈ s.mount.tasks[i]?, ∀ ino ∈ (match k.phase with | .markMirrored ino => some ino | _ => none),
      ∀ rid ∈ s.mount.db.getRemoteId ino, rid ∈ s.settled) (by
        constructor
        · intro h k ino rid hk hp hid
          exact h k hk ino (by rw [hp]; rfl) rid hid
        · intro h k hk ino hp rid hid
          refine h k ino rid hk ?_ hid
          split at hp
          · rename_i hphase
            rw [hphase, Option.some.inj hp]
          · cases hp)
  | s, .call (.mount (.poll row processing terminal now)) current =>
    inferInstanceAs (Decidable (polled row processing terminal now = some "done" →
      ∀ rid ∈ s.mount.db.getRemoteId row.ino, rid ∈ s.settled ∨ current = true ∧ rid = row.remoteId))
  | s, .call (.mount (.reconcile doc _)) current =>
    inferInstanceAs (Decidable (doc.status = "done" → Marks s.mount.db doc → doc.id ∈ s.settled ∨ current = true))
  | _, .call (.mount (.createFile ..)) _ | _, .call (.mount (.write ..)) _ | _, .call (.mount (.truncate ..)) _
  | _, .call (.mount (.flush ..)) _ | _, .call (.mount (.unlink ..)) _ | _, .call (.mount (.rename ..)) _
  | _, .call (.mount (.applyDeletion ..)) _ | _, .call (.mount (.rehydrate ..)) _ | _, .call (.mount (.claim ..)) _
  | _, .call (.mount (.taskAnswer ..)) _ | _, .call (.mount .crash) _ | _, .call (.name ..) _
  | _, .call (.setattr ..) _ => isTrue trivial

/-- A note of the server. -/
private def note : Document := ⟨"A", some "/a.md", some [97], "done", "2026-01-01T00:00:00Z", some "text", none⟩

/-- A file is created, written and flushed, and a task takes its job to the `POST`. -/
private def pushes (ino : Ino) (name path : String) (now : ℤ) : List Act :=
  [.call (.mount (.createFile ROOT_INO name)) true, .call (.mount (.write ⟨ino, true, some path⟩ 0 [97] now)) true,
   .call (.mount (.flush ⟨ino, true, some path⟩ now)) true, .call (.mount (.claim (now + 5000))) true,
   .call (.mount (.taskDb 0 (now + 5000))) true]

/-- The answer is heard, and the task maps the inode and the row. -/
private def made (id : String) (now : ℤ) : List Act :=
  [.call (.mount (.taskAnswer 0 (.created id) false)) true, .call (.mount (.taskDb 0 now)) true,
   .call (.mount (.taskDb 0 now)) true]

/-- The pull brings a note. The server takes the `POST` of a new file twice, is
heard the second time and reports the document done; a second file still waits. -/
theorem honest_iff_pushed : ∃ s, Reach step Ok init s ∧
    (s.mount.db.remotes.map (fun r => (r.remoteId, r.lastStatus)) =
        [("A", some "done"), ("C", some "done"), ("D", none)] ∧
      s.taken = ["B", "C", "D"] ∧ s.mount.db.inodesAwaitingDone.map Db.AwaitingDone.remoteId = ["D"]) ∧ Honest s := by
  obtain ⟨s, hreach, hs⟩ : ∃ s, Reach step Ok init s ∧ decide
      (s.mount.db.remotes.map (fun r => (r.remoteId, r.lastStatus)) =
          [("A", some "done"), ("C", some "done"), ("D", none)] ∧
        s.taken = ["B", "C", "D"] ∧ s.mount.db.inodesAwaitingDone.map Db.AwaitingDone.remoteId = ["D"]) = true :=
    Reach.exists_of_run
      ([.call (.mount (.reconcile note 0)) true] ++ pushes 3 "b.md" "/b.md" 0 ++ [.take "B", .take "C"] ++ made "C" 5000 ++
        [.call (.mount (.taskAnswer 0 (.status "processing") false)) true,
         .call (.mount (.taskAnswer 0 (.status "done") false)) true,
         .call (.mount (.taskDb 0 9000)) true, .call (.mount (.taskDb 0 9000)) true,
         .call (.mount (.taskDb 0 9000)) true] ++
        pushes 4 "d.md" "/d.md" 10000 ++ [.take "D"] ++ made "D" 15000) (by decide +kernel)
  exact ⟨s, hreach, of_decide_eq_true hs, (honest_iff hreach).1⟩

/-- A new file is pushed. The server goes on processing until the wait gives up; the row says `done` all the same. -/
theorem never_done : ¬ ∀ s, Reach step anyStep init s → Honest s := by
  intro hall
  obtain ⟨s, hreach, hs⟩ : ∃ s, Reach step anyStep init s ∧ decide (s.settled = [] ∧
      s.mount.db.remotes.map (fun r => (r.remoteId, r.lastStatus)) = [("A", some "done")]) = true :=
    Reach.exists_of_run
      (pushes 2 "a.md" "/a.md" 0 ++ [.take "A"] ++ made "A" 5000 ++
        [.call (.mount (.taskAnswer 0 (.status "processing") true)) true,
         .call (.mount (.taskDb 0 40000)) true]) (by decide)
  obtain ⟨hnone, hrows⟩ := of_decide_eq_true hs
  obtain ⟨r, hr, he⟩ : ∃ r ∈ s.mount.db.remotes, (r.remoteId, r.lastStatus) = ("A", some "done") :=
    List.mem_map.mp (hrows ▸ List.mem_singleton_self _)
  have hin : r.remoteId ∈ s.settled := (hall s hreach).done r hr (congrArg Prod.snd he)
  rw [hnone] at hin
  exact List.not_mem_nil hin

end Lemmas

end Status
end Smfs
