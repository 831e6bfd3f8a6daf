/-
# Reconciling again after a failure

`reconcile_one` opens no transaction, so what it did before a statement failed
stays. A document is safe from that only if nothing has to be made for it:
neither a directory nor a file nor a content (`recovers_iff`); a call that
fails then fails at its only change, the move of the entry. A deletion is
torn by any failure after its first delete (`deletion_recovers_iff`).

Key definitions: `Statements.Light`, `Statements.Movable`, `Statements.Spared`, `Statements.Torn`.
Key theorems: `Statements.recovers_iff`, `Statements.deletion_recovers_iff`, `Statements.reconciliation_recovers`.
-/
import Smfs.Statements.Calm
import Smfs.Statements.Reconcile
import Smfs.Names.Edits

namespace Smfs
namespace Statements

open Sql

/-- Nothing has to be made for the document: it lies at the root, and it is
either not processed or binary without a source. -/
def Light (doc : Document) : Prop :=
  components (splitPath doc.path).1 = [] ∧ (doc.status ≠ "done" ∨ doc.isBinaryType = true ∧ doc.url = none)

/-- The entry of the inode is left alone, or can move to the document's name. -/
def Movable (db : Db) (ino : Ino) (doc : Document) : Prop :=
  Fs.dirtyNewer db ino doc = true ∨ Fs.mirroredUpTo db ino doc = true ∨
    Fs.resolveFilepath db ino = some doc.path ∨
    (db.dentryOf ino).isSome = true ∧ (Fs.moveDentries db ino ROOT_INO (splitPath doc.path).2).isSome = true

/-- The documents that no failure of a statement tears. -/
def Spared (db : Db) (doc : Document) : Prop :=
  db.inoByRemoteId doc.id = none ∧ doc.status ≠ "done" ∨
    Light doc ∧ ∀ ino, db.inoByRemoteId doc.id = some ino → Movable db ino doc

section Lemmas

variable {db : Db} {m : Lru (Ino × String) Ino} {ino p : Ino} {n : String} {doc : Document} {nowMs : ℤ}
  {l : List Bool}

/-! ### Parts that never throw -/

theorem syncErrorSibling_total {filepath : String} : Total (syncErrorSibling doc filepath) := by
  unfold syncErrorSibling
  split_ifs
  · exact .pure _
  · exact .attempt _

theorem syncTranscriptionSibling_total {filepath : String} : Total (syncTranscriptionSibling doc filepath) := by
  unfold syncTranscriptionSibling
  split_ifs
  · exact .pure _
  · split
    · exact .attempt _
    · exact .pure _

theorem setMirroredState_total {u : Option ℤ} {st : Option String} {at' : Option ℤ} :
    Total (setMirroredState ino u st at') := (Total.execute _).ignore

theorem dirtyNewer_total : Total (dirtyNewer ino doc) := (Total.query _).bind fun _ => .pure _

theorem mirrorContent_light (h : Light doc) (hdone : doc.status = "done") : mirrorContent ino doc = pure () := by
  have hbinary := (h.2.resolve_left (not_not.mpr hdone)).1
  unfold mirrorContent
  rw [if_pos hbinary]

theorem reconcileContent_total (h : Light doc) : Total (reconcileContent ino doc nowMs) := by
  unfold reconcileContent
  split_ifs with hdone
  · rw [mirrorContent_light h hdone]
    exact (Total.pure _).bind fun _ => setMirroredState_total.bind fun _ => syncTranscriptionSibling_total
  · exact setMirroredState_total.bind fun _ => syncErrorSibling_total

theorem reconcileAttach_total (h : Light doc) : Total (reconcileAttach ino doc nowMs) := by
  refine dirtyNewer_total.bind fun dirty => ?_
  split_ifs
  · exact setRemoteId_total.bind fun _ => (Total.execute _).ignore.bind fun _ => .pure _
  · refine setRemoteId_total.bind fun _ => Total.bind ?_ fun _ => setMirroredState_total.bind fun _ => .pure _
    unfold attachContent
    split_ifs with hdone
    · rw [mirrorContent_light h hdone]
      exact (Total.pure _).bind fun _ => syncTranscriptionSibling_total
    · exact .pure _

theorem ensureDirs_light (h : Light doc) : ensureDirs (splitPath doc.path).1 = pure ROOT_INO := by
  unfold ensureDirs
  rw [h.1]
  rfl

theorem deferred_total (hdone : doc.status ≠ "done") : Total (reconcileUnmapped doc nowMs) := by
  unfold reconcileUnmapped
  rw [if_pos hdone]
  exact syncErrorSibling_total.bind fun _ => .pure _

/-- Of a document that is mapped to nothing there is nothing to make. -/
theorem reconcileUnmapped_total (h : Light doc) : Total (reconcileUnmapped doc nowMs) := by
  by_cases hdone : doc.status = "done"
  · obtain ⟨hbinary, hurl⟩ := h.2.resolve_left (not_not.mpr hdone)
    unfold reconcileUnmapped
    rw [if_neg (not_not.mpr hdone), ensureDirs_light h]
    refine (Total.pure _).bind fun parentIno => (Total.query _).bind fun existing => ?_
    cases existing with
    | some ino => exact reconcileAttach_total h
    | none =>
      dsimp only
      rw [if_pos hbinary]
      refine syncTranscriptionSibling_total.bind fun _ => syncErrorSibling_total.bind fun _ => ?_
      rw [hurl]
      exact .pure _
  · exact deferred_total hdone

/-! ### The move is the only change -/

theorem renameToDoc_atomic (h : Light doc) : Atomic (renameToDoc ino doc) := by
  refine .read resolveFilepath_reads fun currentFp => ?_
  split_ifs
  · exact .pure _
  · unfold applyRenameTo
    rw [ensureDirs_light h]
    exact .read (Reads.pure _) fun parentIno => .read ((Reads.query _).orRaise _) fun old =>
      (Atomic.execute _ _).andTotal fun _ => .touch _

theorem reconcileOne_atomic (h : Light doc) : Atomic (reconcileOne doc nowMs) := by
  refine .read (Reads.query _) fun existing => ?_
  cases existing with
  | none => exact (reconcileUnmapped_total h).atomic
  | some ino =>
    refine .read ((Reads.query _).bind fun _ => .pure _) fun dirty => ?_
    split_ifs
    · exact .pure _
    · refine .read ((Reads.query _).bind fun _ => .pure _) fun mirrored => ?_
      split_ifs
      · exact (syncTranscriptionSibling_total.bind fun _ => syncErrorSibling_total.bind fun _ => .pure _).atomic
      · exact (renameToDoc_atomic h).andTotal fun _ => (reconcileContent_total h).bind fun _ => .pure _

/-! ### A call in which nothing fails -/

theorem dirtyNewer_calm : (dirtyNewer ino doc).run (scripted db m []) =
    (.ok (Fs.dirtyNewer db ino doc), scripted db m []) := bind_ok (query_calm _)

theorem mirroredUpTo_calm : (mirroredUpTo ino doc).run (scripted db m []) =
    (.ok (Fs.mirroredUpTo db ino doc), scripted db m []) := bind_ok (query_calm _)

/-- Where the entry can move, a call in which nothing fails succeeds. -/
theorem renameToDoc_calm (h : Light doc) (hdirty : Fs.dirtyNewer db ino doc = false)
    (hmirrored : Fs.mirroredUpTo db ino doc = false) (hmove : Movable db ino doc) :
    ∃ c', (renameToDoc ino doc).run (scripted db m []) = (.ok (), c') := by
  unfold renameToDoc
  rw [bind_ok resolveFilepath_calm]
  rcases hmove with hd | hm | hpath | ⟨hentry, hfree⟩
  · rw [hdirty] at hd
    cases hd
  · rw [hmirrored] at hm
    cases hm
  · rw [if_pos hpath]
    exact ⟨_, rfl⟩
  · split_ifs
    · exact ⟨_, rfl⟩
    · obtain ⟨d, hd⟩ := Option.isSome_iff_exists.mp hentry
      obtain ⟨db', hdb'⟩ := Option.isSome_iff_exists.mp hfree
      unfold applyRenameTo
      rw [ensureDirs_light h, bind_ok (run_pure _)]
      have hrow : (orRaise VfsError.io (query fun db => db.dentryOf ino)).run (scripted db m []) =
          (.ok d, scripted db m []) := by rw [orRaise_query_calm, hd]; rfl
      have hmoved : (orRaise VfsError.io (execute fun db => Fs.moveDentries db ino ROOT_INO (splitPath doc.path).2)).run
          (scripted db m []) = (.ok (), scripted db' m []) :=
        orRaise_execute_eq_ok.mpr ⟨rfl, db', hdb', rfl⟩
      rw [bind_ok hrow, bind_ok hmoved]
      exact ⟨_, rfl⟩

/-- Where it cannot, such a call fails, now and later. -/
theorem renameToDoc_stuck (h : Light doc) (hmove : ¬ Movable db ino doc) :
    (renameToDoc ino doc).run (scripted db m []) = (.error .io, scripted db m []) := by
  unfold Movable at hmove
  push Not at hmove
  obtain ⟨-, -, hpath, hstuck⟩ := hmove
  unfold renameToDoc applyRenameTo
  rw [bind_ok resolveFilepath_calm, if_neg hpath, ensureDirs_light h, bind_ok (run_pure _)]
  cases hd : db.dentryOf ino with
  | none =>
    refine bind_error ?_
    rw [orRaise_query_calm, hd]
    rfl
  | some d =>
    have hrow : (orRaise VfsError.io (query fun db => db.dentryOf ino)).run (scripted db m []) =
        (.ok d, scripted db m []) := by rw [orRaise_query_calm, hd]; rfl
    have hnone : Fs.moveDentries db ino ROOT_INO (splitPath doc.path).2 = none := by
      have := hstuck (by rw [hd]; rfl)
      rwa [ne_eq, Bool.not_eq_true, Option.isSome_eq_false_iff, Option.isNone_iff_eq_none] at this
    have hrefused : (execute fun db => Fs.moveDentries db ino ROOT_INO (splitPath doc.path).2 : Sqlite _).run
        (scripted db m []) = (.ok none, scripted db m []) := by rw [execute_calm, hnone]
    rw [bind_ok hrow]
    exact bind_error (bind_ok hrefused)

theorem reconcileOne_calm (h : Light doc) (hmove : ∀ ino, db.inoByRemoteId doc.id = some ino → Movable db ino doc) :
    ∃ a, ((reconcileOne doc nowMs).run (scripted db m [])).1 = .ok a := by
  unfold reconcileOne
  have hread : (inoByRemoteId doc.id).run (scripted db m []) = (.ok (db.inoByRemoteId doc.id), scripted db m []) :=
    query_calm _
  rw [bind_ok hread]
  cases hi : db.inoByRemoteId doc.id with
  | none => exact reconcileUnmapped_total h _
  | some ino =>
    dsimp only
    unfold reconcileMapped
    rw [bind_ok dirtyNewer_calm]
    cases hdirty : Fs.dirtyNewer db ino doc with
    | true => exact ⟨_, rfl⟩
    | false =>
      rw [if_neg Bool.false_ne_true, bind_ok mirroredUpTo_calm]
      cases hmirrored : Fs.mirroredUpTo db ino doc with
      | true =>
        rw [if_pos rfl]
        exact (syncTranscriptionSibling_total.bind fun _ => syncErrorSibling_total.bind fun _ => .pure _) _
      | false =>
        obtain ⟨c', hc'⟩ := renameToDoc_calm (m := m) h hdirty hmirrored (hmove ino hi)
        rw [if_neg Bool.false_ne_true, bind_ok hc']
        exact ((reconcileContent_total h).bind fun _ => .pure _) _

/-! ### Rows without a name -/

theorem addInode_ne {kind : FileKind} {nlink size : ℤ} {derived : Bool} :
    (db.addInode kind nlink size derived).1 ≠ db := by
  intro h
  have hlen : (db.inodes ++ [(⟨db.nextIno, kind, nlink, size, none, derived⟩ : Inode)]).length = db.inodes.length :=
    congrArg (fun db => db.inodes.length) h
  rw [List.length_append, List.length_singleton] at hlen
  omega

/-- The inode is inserted and its entry is not. -/
theorem orphan {α : Type} {kind : FileKind} {nlink size : ℤ} {derived : Bool} {f : Ino → Unit → Sqlite α} :
    (orRaise VfsError.io (insertInode kind nlink size derived) >>= fun ino =>
        orRaise VfsError.io (insertDentry n p ino) >>= f ino).run (scripted db m (false :: true :: l)) =
      (.error .io, scripted (db.addInode kind nlink size derived).1 m l) := rfl

/-- The first directory of a path is looked for in vain, and made in part. -/
theorem ensureDirs_orphan {path part : String} {parts : List String} (h : components path = part :: parts) :
    (ensureDirs path).run (scripted db m (true :: false :: true :: l)) =
      (.error .io, scripted (db.addInode .dir 2 0 false).1 m l) := by
  unfold ensureDirs
  rw [h]
  exact bind_error ((bind_ok (query_refused _)).trans orphan)

/-! ### Siblings that come to nothing -/

/-- A sibling of which every statement fails. -/
theorem createDerivedSibling_refused (filepath : String) (content : Bytes) : ∃ k, ∀ l, ∃ e,
    (createDerivedSibling filepath content).run (scripted db m (List.replicate k true ++ l)) =
      (.error e, scripted db m l) := by
  unfold createDerivedSibling
  split_ifs
  · exact ⟨0, fun l => ⟨_, rfl⟩⟩
  · exact ⟨0, fun l => ⟨_, rfl⟩⟩
  · refine ⟨2, fun l => ⟨.io, ?_⟩⟩
    unfold ensureDirs
    cases components (splitPath filepath).1 with
    | nil => exact (bind_ok (query_refused _)).trans (bind_error rfl)
    | cons part parts => exact bind_error (bind_error ((bind_ok (query_refused _)).trans (bind_error rfl)))

theorem syncTranscriptionSibling_refused (filepath : String) : ∃ k, ∀ l,
    (syncTranscriptionSibling doc filepath).run (scripted db m (List.replicate k true ++ l)) =
      (.ok (), scripted db m l) := by
  unfold syncTranscriptionSibling
  split_ifs
  · exact ⟨0, fun l => rfl⟩
  · split
    · rename_i b content suffix _ _
      obtain ⟨k, hk⟩ := @createDerivedSibling_refused db m (filepath ++ suffix) (b :: content)
      refine ⟨k, fun l => ?_⟩
      obtain ⟨e, he⟩ := hk l
      exact congrArg (fun r => (Except.ok (), r.2)) he
    · exact ⟨0, fun l => rfl⟩

/-! ### The document's path -/

theorem path_getLast : doc.path.toList.getLast? ≠ some '/' := by
  have hsynth : ("/" ++ doc.id ++ ".md").toList.getLast? ≠ some '/' := by
    have hlast : ".md".toList.getLast? = some 'd' := by decide
    rw [String.toList_append, List.getLast?_append, hlast]
    simp
  unfold Document.path
  split
  · split_ifs with hfp
    · rw [Bool.and_eq_true, decide_eq_true_eq] at hfp
      exact hfp.2
    · exact hsynth
  · exact hsynth

theorem path_ne_root : doc.path ≠ "/" := by
  intro h
  have := @path_getLast doc
  rw [h] at this
  exact this (by decide)

theorem filename_ne_empty : (splitPath doc.path).2.isEmpty = false := by
  have hlast := @path_getLast doc
  have hne : doc.path.toList ≠ [] := List.ne_nil_of_mem Cache.path_slash
  obtain ⟨c, cs, hcs⟩ := List.exists_cons_of_ne_nil (List.reverse_ne_nil_iff.mpr hne)
  have hc : c ≠ '/' := by
    rintro rfl
    rw [← List.head?_reverse, hcs] at hlast
    exact hlast rfl
  have hname : (splitPath doc.path).2 = String.ofList (c :: cs.takeWhile (· ≠ '/')).reverse := by
    unfold splitPath
    dsimp only
    rw [hcs, List.takeWhile_cons_of_pos (by simpa using hc)]
  rw [hname]
  simp

/-- A path that is not read, or is that of the root, is not the document's. -/
theorem resolveFilepath_refused : ∃ k, ∀ l, ∃ o, o ≠ some doc.path ∧
    (resolveFilepath ino).run (scripted db m (List.replicate k true ++ l)) = (.ok o, scripted db m l) := by
  unfold resolveFilepath
  split_ifs with hroot
  · exact ⟨0, fun l => ⟨some "/", fun h => path_ne_root (Option.some.inj h).symm, rfl⟩⟩
  · cases hlen : db.dentries.length with
    | zero =>
      refine ⟨0, fun l => ⟨none, nofun, ?_⟩⟩
      refine (bind_ok run_peek).trans ?_
      rw [hlen, resolveParts, if_neg hroot]
      rfl
    | succ fuel =>
      refine ⟨1, fun l => ⟨none, nofun, ?_⟩⟩
      refine (bind_ok run_peek).trans ?_
      rw [hlen, resolveParts, if_neg hroot]
      rfl

/-! ### Calls that are torn -/

/-- Some choice of failing statements makes the call throw once it has changed the tables. -/
def Tears {α : Type} (call : Sqlite α) (db : Db) (m : Lru (Ino × String) Ino) : Prop :=
  ∃ script e c', call.run (scripted db m script) = (.error e, c') ∧ c'.tables ≠ db

/-- A mapping that is not read is taken for none. -/
theorem reconcileOne_unread : (reconcileOne doc nowMs).run (scripted db m (true :: l)) =
    (reconcileUnmapped doc nowMs).run (scripted db m l) := by
  have hread : (inoByRemoteId doc.id).run (scripted db m (true :: l)) = (.ok none, scripted db m l) := query_refused _
  unfold reconcileOne
  rw [bind_ok hread]

theorem reconcileOne_read (hi : db.inoByRemoteId doc.id = some ino) :
    (reconcileOne doc nowMs).run (scripted db m (false :: l)) =
      (reconcileMapped ino doc nowMs).run (scripted db m l) := by
  have hread : (inoByRemoteId doc.id).run (scripted db m (false :: l)) =
    (.ok (db.inoByRemoteId doc.id), scripted db m l) :=
    query_done _
  unfold reconcileOne
  rw [bind_ok hread, hi]

/-- A document to make something for leaves an inode without an entry. -/
theorem reconcileOne_torn (hdone : doc.status = "done") (hl : ¬ Light doc) : Tears (reconcileOne doc nowMs) db m := by
  have hunmapped (l : List Bool) := @reconcileOne_unread db m doc nowMs l
  unfold reconcileUnmapped at hunmapped
  rw [if_neg (not_not.mpr hdone)] at hunmapped
  cases hparts : components (splitPath doc.path).1 with
  | cons part parts =>
    have hdirs := @ensureDirs_orphan db m [] _ _ _ hparts
    have hrun := hunmapped [true, false, true]
    generalize ensureDirs (splitPath doc.path).1 = dirs at hdirs hrun
    rw [bind_error hdirs] at hrun
    exact ⟨_, _, _, hrun, addInode_ne⟩
  | nil =>
    have hdirs : ensureDirs (splitPath doc.path).1 = pure ROOT_INO := by
      unfold ensureDirs
      rw [hparts]
      rfl
    have hselect (l : List Bool) : (selectChild ROOT_INO (splitPath doc.path).2).run (scripted db m (true :: l)) =
        (.ok none, scripted db m l) := query_refused _
    rw [hdirs] at hunmapped
    by_cases hbinary : doc.isBinaryType = true
    · have hurl : doc.url.isSome = true := by
        cases hu : doc.url with
        | none => exact absurd ⟨hparts, .inr ⟨hbinary, hu⟩⟩ hl
        | some url => rfl
      have hstub : (createRawStub doc.path).run (scripted db m [true, false, true]) =
          (.error .io, scripted (db.addInode .reg 1 0 false).1 m []) := by
        unfold createRawStub
        rw [if_neg (by simp [Cache.path_slash]), filename_ne_empty, if_neg Bool.false_ne_true, hdirs,
          bind_ok (run_pure _),
          bind_ok (hselect _)]
        exact orphan
      have hquiet : syncErrorSibling doc doc.path = pure () := if_pos (by rw [hdone]; decide)
      obtain ⟨k, hk⟩ := @syncTranscriptionSibling_refused db m doc doc.path
      have hrun := hunmapped (true :: (List.replicate k true ++ [true, false, true]))
      rw [bind_ok (run_pure _), bind_ok (hselect _)] at hrun
      dsimp only at hrun
      rw [if_pos hbinary, reconcileBinary, bind_ok (hk _), hquiet, bind_ok (run_pure _), if_pos hurl, reconcileStub,
        bind_error hstub] at hrun
      exact ⟨_, _, _, hrun, addInode_ne⟩
    · have hrun := hunmapped [true, false, true]
      rw [bind_ok (run_pure _), bind_ok (hselect _)] at hrun
      dsimp only at hrun
      rw [if_neg hbinary, reconcileCreate, addFile, bind_error orphan] at hrun
      exact ⟨_, _, _, hrun, addInode_ne⟩

/-- The entry of a mapped inode moves to directories that are made in part. -/
theorem reconcileOne_misplaced (hi : db.inoByRemoteId doc.id = some ino)
    (hparts : components (splitPath doc.path).1 ≠ []) : Tears (reconcileOne doc nowMs) db m := by
  obtain ⟨part, parts, hcons⟩ := List.exists_cons_of_ne_nil hparts
  obtain ⟨k, hk⟩ := @resolveFilepath_refused db m ino doc
  obtain ⟨o, ho, hresolve⟩ := hk [true, false, true]
  have hrename : (renameToDoc ino doc).run (scripted db m (List.replicate k true ++ [true, false, true])) =
      (.error .io, scripted (db.addInode .dir 2 0 false).1 m []) := by
    have hdirs := @ensureDirs_orphan db m [] _ _ _ hcons
    unfold renameToDoc applyRenameTo
    rw [bind_ok hresolve, if_neg ho]
    generalize ensureDirs (splitPath doc.path).1 = dirs at hdirs ⊢
    exact bind_error hdirs
  have hdirty (l : List Bool) : (dirtyNewer ino doc).run (scripted db m (true :: l)) = (.ok false, scripted db m l) :=
    bind_ok (query_refused _)
  have hmirrored (l : List Bool) : (mirroredUpTo ino doc).run (scripted db m (true :: l)) =
      (.ok false, scripted db m l) := bind_ok (query_refused _)
  have hrun := @reconcileOne_read db m ino doc nowMs (true :: true :: (List.replicate k true ++ [true, false, true])) hi
  rw [reconcileMapped, bind_ok (hdirty _), if_neg Bool.false_ne_true, bind_ok (hmirrored _), if_neg Bool.false_ne_true,
    bind_error hrename] at hrun
  exact ⟨_, _, _, hrun, addInode_ne⟩

theorem Tears.not_recovers {α : Type} {call later : Sqlite α} (h : Tears call db m) :
    ¬ ∀ fails, Recovers call later ⟨db, m, fails⟩ := by
  obtain ⟨script, e, c', hrun, hne⟩ := h
  exact fun hall => Sql.not_recovers hrun hne (hall fun n => script.getD n false)

/-- Where the entry cannot move, no call succeeds. -/
theorem reconcileOne_stuck (h : Light doc) (hi : db.inoByRemoteId doc.id = some ino) (hmove : ¬ Movable db ino doc) :
    (reconcileOne doc nowMs).run (scripted db m []) = (.error .io, scripted db m []) := by
  have hread : (inoByRemoteId doc.id).run (scripted db m []) = (.ok (db.inoByRemoteId doc.id), scripted db m []) :=
    query_calm _
  have hdirty : Fs.dirtyNewer db ino doc = false := Bool.eq_false_iff.mpr fun hd => hmove (.inl hd)
  have hmirrored : Fs.mirroredUpTo db ino doc = false := Bool.eq_false_iff.mpr fun hm => hmove (.inr (.inl hm))
  have hstuck := renameToDoc_stuck (m := m) h hmove
  unfold reconcileOne
  rw [bind_ok hread, hi]
  dsimp only
  unfold reconcileMapped
  rw [bind_ok dirtyNewer_calm, hdirty, if_neg Bool.false_ne_true, bind_ok mirroredUpTo_calm, hmirrored,
    if_neg Bool.false_ne_true, bind_error hstuck]

/-- **Whichever statements of a reconcile fail, an error of it leaves the tables
as they were and a later call makes up for it, if and only if nothing has to
be made for the document and its entry can move.** -/
theorem recovers_iff : (∀ nowMs nowMs' fails, Recovers (reconcileOne doc nowMs) (reconcileOne doc nowMs') ⟨db, m, fails⟩) ↔
    Spared db doc := by
  constructor
  · intro hall
    by_cases hl : Light doc
    · refine .inr ⟨hl, fun ino hi => ?_⟩
      by_contra hmove
      have hstuck := @reconcileOne_stuck db m ino doc 0 hl hi hmove
      obtain ⟨-, ⟨a, ha⟩, -⟩ := hall 0 0 _ _ _ hstuck
      have hagain := @reconcileOne_stuck db m ino doc 0 hl hi hmove
      rw [scripted_tables, scripted_memory, hagain] at ha
      cases ha
    · by_cases hdone : doc.status = "done"
      · exact absurd (hall 0 0) (reconcileOne_torn hdone hl).not_recovers
      · cases hi : db.inoByRemoteId doc.id with
        | none => exact .inl ⟨hi, hdone⟩
        | some ino =>
          have hparts : components (splitPath doc.path).1 ≠ [] := fun h => hl ⟨h, .inl hdone⟩
          exact absurd (hall 0 0) (reconcileOne_misplaced hi hparts).not_recovers
  · rintro (⟨hi, hdone⟩ | ⟨hl, hmove⟩) nowMs nowMs' fails
    · intro e c' hc
      have hread : (if fails 0 = true then none else db.inoByRemoteId doc.id) = none := by rw [hi, ite_self]
      unfold reconcileOne inoByRemoteId at hc
      rw [bind_ok (query_apply _ _)] at hc
      dsimp only at hc
      rw [hread] at hc
      obtain ⟨a, ha⟩ := @deferred_total doc nowMs hdone (Conn.next ⟨db, m, fails⟩)
      rw [hc] at ha
      cases ha
    · exact .of_allOrNothing (reconcileOne_atomic hl _) (reconcileOne_calm hl hmove)

/-! ### Deletions -/

/-- The deletion gets past its first delete and not past all of them. -/
def Torn (c : Conn Db (Lru (Ino × String) Ino)) (rid : String) : Prop :=
  ∃ ino, c.tables.inoByRemoteId rid = some ino ∧ (c.tables.dentryOf ino).isSome = true ∧
    (c.tables.getDirtySince ino = none ∨ c.fails 1 = true) ∧
    c.fails 0 = false ∧ c.fails 2 = false ∧ c.fails 3 = false ∧
    (c.fails 4 = true ∨ c.fails 5 = true ∨ c.fails 6 = true)

variable {c c' : Conn Db (Lru (Ino × String) Ino)} {d : Dentry} {e : VfsError}

/-- The rows of the file go one after the other, and no entry with them. -/
theorem deleteRows_cases (ino : Ino) (c : Conn Db (Lru (Ino × String) Ino)) :
    (c.fails 0 = true ∨ c.fails 1 = true ∨ c.fails 2 = true) ∧
      (∃ c', (deleteRows ino).run c = (.error .io, c') ∧ c'.tables.dentries = c.tables.dentries) ∨
    ¬ (c.fails 0 = true ∨ c.fails 1 = true ∨ c.fails 2 = true) ∧ ∃ c', (deleteRows ino).run c = (.ok (), c') := by
  have hdata := orRaise_execute_apply VfsError.io (fun db : Db => db.delData ino) c
  have hinode := orRaise_execute_apply VfsError.io (fun db : Db => db.delInode ino) (c.wrote (c.tables.delData ino))
  have hremote := orRaise_execute_apply VfsError.io (fun db : Db => db.deleteRemoteId ino)
    ((c.wrote (c.tables.delData ino)).wrote ((c.tables.delData ino).delInode ino))
  by_cases h₀ : c.fails 0 = true
  · rw [if_pos h₀] at hdata
    exact .inl ⟨.inl h₀, _, bind_error hdata, rfl⟩
  · rw [if_neg h₀] at hdata
    by_cases h₁ : c.fails 1 = true
    · rw [if_pos (show (c.wrote _).fails 0 = true from h₁)] at hinode
      exact .inl ⟨.inr (.inl h₁), _, (bind_ok hdata).trans (bind_error hinode), rfl⟩
    · rw [if_neg (show ¬ (c.wrote _).fails 0 = true from h₁)] at hinode
      by_cases h₂ : c.fails 2 = true
      · rw [if_pos (show ((c.wrote _).wrote _).fails 0 = true from h₂)] at hremote
        exact .inl ⟨.inr (.inr h₂), _, (bind_ok hdata).trans ((bind_ok hinode).trans hremote), rfl⟩
      · rw [if_neg (show ¬ ((c.wrote _).wrote _).fails 0 = true from h₂)] at hremote
        exact .inr ⟨by simp [h₀, h₁, h₂], _, (bind_ok hdata).trans ((bind_ok hinode).trans hremote)⟩

/-- The entries of the file go first, and are not put back. -/
theorem deleteFile_cases (ino : Ino) (d : Dentry) (c : Conn Db (Lru (Ino × String) Ino)) :
    c.fails 0 = true ∧ (deleteFile ino d).run c = (.error .io, c.next) ∨
    c.fails 0 = false ∧ (c.fails 1 = true ∨ c.fails 2 = true ∨ c.fails 3 = true) ∧
      (∃ c', (deleteFile ino d).run c = (.error .io, c') ∧ c'.tables.dentries = (c.tables.delDentriesOf ino).dentries) ∨
    c.fails 0 = false ∧ ¬ (c.fails 1 = true ∨ c.fails 2 = true ∨ c.fails 3 = true) ∧
      ∃ c', (deleteFile ino d).run c = (.ok true, c') := by
  have hfirst := orRaise_execute_apply VfsError.io (fun db : Db => db.delDentriesOf ino) c
  cases h₀ : c.fails 0 with
  | true =>
    rw [h₀, if_pos rfl] at hfirst
    exact .inl ⟨rfl, bind_error hfirst⟩
  | false =>
    rw [h₀, if_neg Bool.false_ne_true] at hfirst
    rcases deleteRows_cases ino (c.wrote (c.tables.delDentriesOf ino)) with
      ⟨hlater, c', hrows, hkept⟩ | ⟨hnone, c', hrows⟩
    · exact .inr (.inl ⟨rfl, hlater, c', (bind_ok hfirst).trans (bind_error hrows), hkept⟩)
    · exact .inr (.inr ⟨rfl, hnone, _, (bind_ok hfirst).trans (bind_ok hrows)⟩)

/-- A deletion gets to the deletes, or it answers that there is nothing to delete. -/
theorem deleteMapped_cases (ino : Ino) (c : Conn Db (Lru (Ino × String) Ino)) :
    (∃ d, c.tables.dentryOf ino = some d ∧ (c.tables.getDirtySince ino = none ∨ c.fails 0 = true) ∧
      c.fails 1 = false ∧ (deleteMapped ino).run c = (deleteFile ino d).run c.next.next) ∨
    ¬ ((c.tables.dentryOf ino).isSome = true ∧ (c.tables.getDirtySince ino = none ∨ c.fails 0 = true) ∧
      c.fails 1 = false) ∧ ∃ c', (deleteMapped ino).run c = (.ok false, c') := by
  unfold deleteMapped getDirtySince
  rw [bind_ok (query_apply _ _)]
  by_cases hd : c.tables.getDirtySince ino = none ∨ c.fails 0 = true
  · have hclean : ¬ (if c.fails 0 = true then none else c.tables.getDirtySince ino).isSome = true := by
      rcases hd with hd | hd <;> simp [hd]
    rw [if_neg hclean, bind_ok (query_apply _ _)]
    have hread : (if c.next.fails 0 = true then none else c.next.tables.dentryOf ino) =
        if c.fails 1 = true then none else c.tables.dentryOf ino := rfl
    rw [hread]
    cases h₁ : c.fails 1 with
    | true => exact .inr ⟨by simp, _, rfl⟩
    | false =>
      rw [if_neg Bool.false_ne_true]
      cases he : c.tables.dentryOf ino with
      | none => exact .inr ⟨by simp, _, rfl⟩
      | some d => exact .inl ⟨d, rfl, hd, rfl, rfl⟩
  · obtain ⟨hsome, h₀⟩ := not_or.mp hd
    have hdirty : (if c.fails 0 = true then none else c.tables.getDirtySince ino).isSome = true := by
      rw [if_neg h₀]
      exact Option.isSome_iff_ne_none.mpr hsome
    rw [if_pos hdirty]
    exact .inr ⟨fun h => hd h.2.1, _, rfl⟩

theorem applyDeletion_apply (rid : String) (c : Conn Db (Lru (Ino × String) Ino)) :
    (applyDeletion rid).run c = (match (if c.fails 0 = true then none else c.tables.inoByRemoteId rid) with
      | none => pure false
      | some ino => deleteMapped ino : Sqlite Bool).run c.next := by
  unfold applyDeletion inoByRemoteId
  exact bind_ok (query_apply _ _)

/-- The entries of an inode that has one go. -/
theorem delDentriesOf_ne (h : db.dentryOf ino = some d) : (db.delDentriesOf ino).dentries ≠ db.dentries := by
  intro he
  obtain ⟨hm, hk⟩ := Table.get_some h
  have : d ∈ (db.delDentriesOf ino).dentries := he ▸ hm
  exact (Table.mem_erase.mp this).2 hk

/-- A deletion in which nothing fails succeeds. -/
theorem applyDeletion_calm {rid : String} : ∃ a, ((applyDeletion rid).run (scripted db m [])).1 = .ok a := by
  rw [applyDeletion_apply, scripted_fails, if_neg Bool.false_ne_true, scripted_tables, scripted_next]
  cases db.inoByRemoteId rid with
  | none => exact ⟨false, rfl⟩
  | some ino =>
    rcases deleteMapped_cases ino (scripted db m []) with ⟨d, -, -, -, hfile⟩ | ⟨-, c', hkept⟩
    · rcases deleteFile_cases ino d (scripted db m []) with ⟨hfail, -⟩ | ⟨-, hfail, -⟩ | ⟨-, -, c', hdone⟩
      · cases hfail
      · simp at hfail
      · exact ⟨true, congrArg Prod.fst (hfile.trans hdone)⟩
    · exact ⟨false, congrArg Prod.fst hkept⟩

/-- **An error of a deletion leaves the tables as they were, and a later one makes
up for it, if and only if it did not come between the deletes.** -/
theorem deletion_recovers_iff {rid : String} : Recovers (applyDeletion rid) (applyDeletion rid) c ↔ ¬ Torn c rid := by
  constructor
  · rintro hr ⟨ino, hi, hentry, hdirty, h₀, h₂, h₃, hlater⟩
    have hrun := applyDeletion_apply rid c
    rw [h₀, if_neg Bool.false_ne_true, hi] at hrun
    dsimp only at hrun
    rcases deleteMapped_cases ino c.next with ⟨d, hd, -, -, hfile⟩ | ⟨hnot, -⟩
    · rcases deleteFile_cases ino d c.next.next.next with ⟨hfirst, -⟩ | ⟨-, -, c', hthrow, hkept⟩ | ⟨-, hnone, -⟩
      · exact absurd (h₃.symm.trans hfirst) Bool.false_ne_true
      · refine Sql.not_recovers ((hrun.trans hfile).trans hthrow) (fun he => ?_) hr
        exact delDentriesOf_ne hd (hkept.symm.trans (congrArg Db.dentries he))
      · exact hnone hlater
    · exact hnot ⟨hentry, hdirty, h₂⟩
  · intro hnot
    refine .of_allOrNothing (fun e c' h => ?_) ?_
    · have hrun := (applyDeletion_apply rid c).symm.trans h
      cases h₀ : c.fails 0 with
      | true =>
        rw [h₀] at hrun
        cases hrun
      | false =>
        rw [h₀, if_neg Bool.false_ne_true] at hrun
        cases hi : c.tables.inoByRemoteId rid with
        | none =>
          rw [hi] at hrun
          cases hrun
        | some ino =>
          rw [hi] at hrun
          dsimp only at hrun
          rcases deleteMapped_cases ino c.next with ⟨d, hd, hdirty, h₂, hfile⟩ | ⟨-, c₁, hfile⟩
          · have hentry : (c.tables.dentryOf ino).isSome = true := Option.isSome_of_eq_some hd
            rw [hfile] at hrun
            rcases deleteFile_cases ino d c.next.next.next with ⟨-, hfirst⟩ | ⟨h₃, hlater, -⟩ | ⟨-, -, c₁, hdone⟩
            · rw [hfirst] at hrun
              cases hrun
              exact ⟨rfl, rfl⟩
            · exact absurd ⟨ino, hi, hentry, hdirty, h₀, h₂, h₃, hlater⟩ hnot
            · rw [hdone] at hrun
              cases hrun
          · rw [hfile] at hrun
            cases hrun
    · exact applyDeletion_calm

end Lemmas

/-- A text document for which a file has to be made. -/
private def textDoc : Document := ⟨"d1", some "/a.md", none, "done", "2024-01-01T00:00:00Z", some "text", none⟩

/-- The entry of the new file is refused, and its inode stays. -/
theorem create_torn : ¬ Recovers (reconcileOne textDoc 0) (reconcileOne textDoc 0)
    (scripted .fresh (Lru.empty _ _ 8 (Nat.succ_pos 7)) [false, false, false, true]) := by
  intro h
  have hkept := (h .io _ (Prod.ext (by decide) rfl)).1
  revert hkept
  decide

/-- **A reconcile and a deletion that fail leave the tables as they were and can
be made up for, whichever statements fail, exactly where nothing has to be made
for the document, and exactly where no failure comes between the deletes.** -/
theorem reconciliation_recovers (db : Db) (m : Lru (Ino × String) Ino) :
    (∀ doc, (∀ nowMs nowMs' fails, Recovers (reconcileOne doc nowMs) (reconcileOne doc nowMs') ⟨db, m, fails⟩) ↔
      Spared db doc) ∧
    ∀ remoteId fails, Recovers (applyDeletion remoteId) (applyDeletion remoteId) ⟨db, m, fails⟩ ↔
      ¬ Torn ⟨db, m, fails⟩ remoteId :=
  ⟨fun _ => recovers_iff, fun _ _ => deletion_recovers_iff⟩

end Statements
end Smfs
