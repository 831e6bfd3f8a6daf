/-
# The mirrored version and the local content

`mirrored_updated_at` says which version of its document a file holds, and a
reconcile that finds a version no newer than that leaves the file alone. Three
of the writers of the mark bring the content along. The status poller does
not: it takes `updatedAt` from a `GET` and trusts that the content is the one
this mount has pushed, whoever has edited the document since.

The versions that the server has held are a history beside the database, and
so are the local writes that no accepted push has carried to the document of
their inode. As long as the poller marks only a version whose content the
inode holds, no job clears the dirty mark over a write that is not carried, no
`PATCH` loses its content, and no document is mapped to a derived sibling
(`MirrorOk`), the mark is honest (`honest`); in `dishonest` the poller marks
an edit of another client, which the mount then never fetches.

Key definitions: `Mirror.St`, `Mirror.step`, `Mirror.Honest`, `Mirror.MirrorOk`.
Key theorems: `Mirror.Inv.keep`, `Mirror.Inv.carry`, `Mirror.step_inv`, `Mirror.honest`,
`Mirror.dishonest`.
-/
import Smfs.Lib.Reach
import Smfs.Ops
import Smfs.Push
import Smfs.Reconcile.Mapping

namespace Smfs
namespace Mirror

open Trans Db Fs

/-- A version of a document: when the server made it, and its content. -/
structure Version where
  id : String
  updatedMs : ℤ
  content : Bytes
  deriving DecidableEq

/-- A local write, by its inode and its place in the order of all of them. -/
structure Write where
  ino : Ino
  seq : ℕ
  deriving DecidableEq

/-- A task, how many writes there were when it read the content, and what it read. -/
structure Job where
  task : Task
  read : ℕ
  content : Bytes
  deriving DecidableEq

structure St where
  db : Db
  jobs : List Job
  count : ℕ
  unsent : List Write
  held : List Version
  deriving DecidableEq

/-- What may happen. -/
inductive Act
  | write (f : SqliteFile) (offset : ℕ) (data : Bytes) (nowMs : ℤ)
  | flush (f : SqliteFile) (nowMs : ℤ)
  /-- A job is claimed, whatever the queue holds. -/
  | start (job : PushJob)
  | jobDb (i : ℕ) (nowMs : ℤ)
  /-- A job hears an answer; of a `PATCH` that the server accepts it makes a version. -/
  | jobAnswer (i : ℕ) (answer : Answer) (timedOut : Bool) (v : Version)
  | reconcile (doc : Document) (nowMs : ℤ)
  | poll (row : AwaitingDone) (processing : List (String × String)) (terminal : Except ApiError Document)
      (nowMs : ℤ)
  /-- Another client edits a document, or the server makes a new version of it. -/
  | edit (v : Version)

/-- A later version of a document has no earlier time. -/
def Follows (held : List Version) (v : Version) : Prop := ∀ u ∈ held, u.id = v.id → u.updatedMs ≤ v.updatedMs

instance (held : List Version) (v : Version) : Decidable (Follows held v) := by
  unfold Follows
  infer_instance

/-- The document shows a version that the server has held; a text document
that is done shows its content. -/
def Shows (binary : String → Bool) (held : List Version) (doc : Document) : Prop :=
  doc.isBinaryType = binary doc.id ∧ ∃ v ∈ held, v.id = doc.id ∧ doc.updatedMs = some v.updatedMs ∧
    (doc.status = "done" → doc.isBinaryType = false → doc.content = some v.content)

instance (binary : String → Bool) (held : List Version) (doc : Document) :
    Decidable (Shows binary held doc) := by
  unfold Shows
  infer_instance

/-- The answer to the `GET` of a row. -/
def Answers (binary : String → Bool) (held : List Version) (row : AwaitingDone) :
    Except ApiError Document → Prop
  | .ok doc => doc.id = row.remoteId ∧ Shows binary held doc
  | .error _ => True

instance (binary : String → Bool) (held : List Version) (row : AwaitingDone) :
    ∀ terminal, Decidable (Answers binary held row terminal)
  | .ok doc => inferInstanceAs (Decidable (doc.id = row.remoteId ∧ Shows binary held doc))
  | .error _ => isTrue trivial

/-- The inode is no derived sibling. -/
def isUser (db : Db) (ino : Ino) : Bool := (db.fileOf ino).all fun x => !x.derived

/-- The jobs once the `i`-th has moved on to a phase, or ended. -/
def putJob (jobs : List Job) (i : ℕ) (j : Job) : Option Phase → List Job
  | some phase => jobs.set i { j with task := { j.task with phase := phase } }
  | none => jobs.eraseIdx i

/-- The writes to an inode before the `n`-th are carried. -/
def carry (unsent : List Write) (ino : Ino) (n : ℕ) : List Write :=
  unsent.filter fun w => !(w.ino = ino && w.seq < n)

/-- The history of a write. -/
def wrote (s : St) (f : SqliteFile) (offset : ℕ) (data : Bytes) (nowMs : ℤ) : St :=
  match f.write s.db offset data nowMs with
  | (.ok (_ + 1), db) =>
    if isUser s.db f.ino then
      { s with db := db, count := s.count + 1, unsent := s.unsent ++ [⟨f.ino, s.count⟩] }
    else { s with db := db }
  | (_, db) => { s with db := db }

/-- The job as it reads the content at its start. -/
def readBy (s : St) (j : Job) : Job :=
  if j.task.phase = .start then
    { j with read := s.count, content := (j.task.job.contentIno.map s.db.readAllContent).getD [] }
  else j

/-- What a call of a job carries: an inode is mapped to the document made of its content. -/
def mapped (s : St) (j : Job) : List Write :=
  match j.task.phase with
  | .mapInode ino _ => carry s.unsent ino j.read
  | _ => s.unsent

/-- What an accepted `PATCH` carries, where the inode has no other document. -/
def patched (s : St) (j : Job) (ino : Ino) (rid : String) : List Write :=
  if (s.db.getRemoteId ino).all (· = rid) then carry s.unsent ino j.read else s.unsent

def step (binary : String → Bool) (s : St) : Act → Option St
  | .write f offset data now => some (wrote s f offset data now)
  | .flush f now => some { s with db := f.flush s.db now }
  | .start job =>
    if job.contentIno.all fun ino => ino < s.db.nextIno then
      some { s with jobs := s.jobs ++ [⟨⟨job, .start⟩, 0, []⟩] }
    else none
  | .jobDb i now =>
    (s.jobs[i]?).bind fun j =>
      (Task.dbStep s.db j.task.job now j.task.phase).map fun (db, next) =>
        { s with db := db, jobs := putJob s.jobs i (readBy s j) next, unsent := mapped s j }
  | .jobAnswer i answer timedOut v =>
    (s.jobs[i]?).bind fun j =>
      (Task.answered j.task.job timedOut j.task.phase answer).bind fun next =>
        match j.task.phase, answer with
        | .patch ino _ rid, .ok =>
          if v.id = rid ∧ Follows s.held v then
            some { s with jobs := putJob s.jobs i j (some next), held := s.held ++ [v],
                          unsent := patched s j ino rid }
          else none
        | _, _ => some { s with jobs := putJob s.jobs i j (some next) }
  | .reconcile doc now =>
    if Shows binary s.held doc then
      let db := (Fs.reconcileOne s.db doc now).2
      -- what a reconcile replaces is not left to be sent
      some { s with db := db,
                    unsent := s.unsent.filter fun w => db.readAllContent w.ino = s.db.readAllContent w.ino }
    else none
  | .poll row processing terminal now =>
    if Answers binary s.held row terminal then some { s with db := pollRow s.db row processing terminal now }
    else none
  | .edit v => if Follows s.held v then some { s with held := s.held ++ [v] } else none

/-! ### The property -/

/-- The content is that of the version of a time, or of a newer one. -/
def HasVersion (held : List Version) (id : String) (t : ℤ) (content : Bytes) : Prop :=
  ∃ v ∈ held, v.id = id ∧ t ≤ v.updatedMs ∧ v.content = content

/-- The inode holds what its mark says. -/
def Local (binary : String → Bool) (s : St) (ino : Ino) : Prop :=
  ∀ rid t, s.db.getRemoteId ino = some rid → s.db.getMirrored ino = some t → binary rid = false →
    (s.db.getInode ino).isSome = true → HasVersion s.held rid t (s.db.readAllContent ino)

/-- The marks are honest, so that a reconcile leaves a file alone only for a
version that is already there. -/
structure Honest (binary : String → Bool) (s : St) : Prop where
  mirrored : ∀ ino, s.db.getDirtySince ino = none → Local binary s ino
  unchanged : ∀ doc ino now u, s.db.inoByRemoteId doc.id = some ino → doc.updatedMs = some u →
    (Fs.reconcileOne s.db doc now).1 = .ok .unchanged → s.db.getDirtySince ino = none →
      binary doc.id = false → (s.db.getInode ino).isSome = true →
        HasVersion s.held doc.id u (s.db.readAllContent ino)

/-- The poller gets as far as the `GET` of the row. -/
def Fetches (row : AwaitingDone) (processing : List (String × String)) (now : ℤ) : Prop :=
  stuckTier ((row.lastStatusAt.map (now - ·)).getD 0) ≠ .stop ∧ ∀ d ∈ processing, d.1 ≠ row.remoteId

/-- No document is mapped to a derived sibling; a job clears the mark only
once all writes are carried; a `PATCH` keeps its content; and the poller marks
a version of the inode's own document, with the content that the inode holds
unless a write to it is still to be sent. -/
def MirrorOk (binary : String → Bool) (s : St) : Act → Prop
  | .start job => ∀ ino, job.contentIno = some ino → NotDerived s.db ino
  | .jobDb i _ => ∀ j ino, s.jobs[i]? = some j → j.task.phase = .clearDirty ino →
      ∀ w ∈ s.unsent, w.ino ≠ ino
  | .jobAnswer i answer _ v => ∀ j ino content rid, s.jobs[i]? = some j →
      j.task.phase = .patch ino content rid → answer = .ok → v.content = content
  | .reconcile doc _ => binary doc.id = false → s.db.inoByRemoteId doc.id = none →
      ∀ ino, attachTarget s.db doc = some ino → NotDerived s.db ino
  | .poll row processing terminal now => Fetches row processing now →
      ∀ doc rid, terminal = .ok doc → doc.status = "done" → s.db.getRemoteId row.ino = some rid →
        binary rid = false → rid = row.remoteId ∧
          (doc.content = some (s.db.readAllContent row.ino) ∨ ∃ w ∈ s.unsent, w.ino = row.ino)
  | _ => True

/-! ### The invariant -/

/-- A write has landed since the job read the content. -/
def Later (s : St) (j : Job) (ino : Ino) : Prop := ∃ w ∈ s.unsent, w.ino = ino ∧ j.read ≤ w.seq

/-- What the job read is still there, or was replaced by a later write or by a
version. -/
def ReadOk (s : St) (j : Job) (ino : Ino) : Prop :=
  Later s j ino ∨ s.db.readAllContent ino = j.content ∨ ∀ w ∈ s.unsent, w.ino ≠ ino

/-- The inode exists or has existed, and is no derived sibling. -/
def User (db : Db) (ino : Ino) : Prop := ino < db.nextIno ∧ NotDerived db ino

def PhaseOk (s : St) (j : Job) : Phase → Prop
  | .wait _ next => PhaseOk s j next
  | .patch ino content _ => User s.db ino ∧ content = j.content ∧ j.read ≤ s.count ∧ ReadOk s j ino
  | .post ino _ | .upload ino _ | .mapInode ino _ => User s.db ino
  | _ => True

def JobOk (s : St) (j : Job) : Prop :=
  (∀ ino, j.task.job.contentIno = some ino → User s.db ino) ∧ PhaseOk s j j.task.phase

structure Inv (binary : String → Bool) (s : St) : Prop where
  bounded : s.db.Bounded
  user : ∀ ino rid, s.db.getRemoteId ino = some rid → binary rid = false → NotDerived s.db ino
  known : ∀ ino rid t, s.db.getRemoteId ino = some rid → s.db.getMirrored ino = some t →
    binary rid = false → ∃ v ∈ s.held, v.id = rid ∧ t ≤ v.updatedMs
  content : ∀ ino, Local binary s ino ∨ ∃ w ∈ s.unsent, w.ino = ino
  dirty : ∀ w ∈ s.unsent, User s.db w.ino ∧ (s.db.getDirtySince w.ino).isSome = true
  jobs : ∀ j ∈ s.jobs, JobOk s j

/-- A mount without jobs whose marks are honest. -/
structure Start (binary : String → Bool) (s : St) : Prop where
  bounded : s.db.Bounded
  user : ∀ ino rid, s.db.getRemoteId ino = some rid → binary rid = false → NotDerived s.db ino
  content : ∀ ino, Local binary s ino
  exists_ : ∀ ino rid, s.db.getRemoteId ino = some rid → (s.db.getInode ino).isSome = true
  jobs : s.jobs = []
  unsent : s.unsent = []

section Steps

variable {binary : String → Bool} {s t : St}

theorem Start.inv (h : Start binary s) : Inv binary s where
  bounded := h.bounded
  user := h.user
  known := by
    intro ino rid t hr hm hb
    obtain ⟨v, hv, hid, hle, -⟩ := h.content ino rid t hr hm hb (h.exists_ ino rid hr)
    exact ⟨v, hv, hid, hle⟩
  content := fun ino => .inl (h.content ino)
  dirty := by
    intro w hw
    rw [h.unsent] at hw
    cases hw
  jobs := by
    intro j hj
    rw [h.jobs] at hj
    cases hj

/-! ### Steps that leave files alone -/

/-- The content and the existence of a file stay. -/
structure SameFile (ino : Ino) (db db' : Db) : Prop where
  content : db'.readAllContent ino = db.readAllContent ino
  inode : (db'.getInode ino).isSome = true → (db.getInode ino).isSome = true
  user : NotDerived db ino → NotDerived db' ino

theorem isSome_fileOf {db : Db} {ino : Ino} : (db.fileOf ino).isSome = (db.getInode ino).isSome := by
  unfold fileOf
  rw [Option.isSome_map]

theorem SameFile.of_keeps {ino : Ino} {db db' : Db} (h : Keeps ino db db') : SameFile ino db db' where
  content := h.content
  inode := by
    rw [← isSome_fileOf, ← isSome_fileOf, h.file]
    exact id
  user := fun hd => hd.keeps h

theorem SameFile.of_setDirty {ino k : Ino} {db : Db} {d : Option ℤ} : SameFile ino db (db.setDirtySince k d) := by
  have hg : (db.setDirtySince k d).getInode ino =
      if ino = k then (db.getInode k).map fun x => { x with dirtySince := d } else db.getInode ino :=
    getInode_setDirtySince
  by_cases hk : ino = k
  · subst hk
    rw [if_pos rfl] at hg
    refine ⟨?_, fun hi => ?_, fun hd x hx => ?_⟩
    · unfold readAllContent
      rw [hg]
      cases db.getInode ino <;> rfl
    · rw [hg, Option.isSome_map] at hi
      exact hi
    · unfold fileOf at hx
      rw [hg] at hx
      cases hy : db.getInode ino with
      | none =>
        rw [hy] at hx
        cases hx
      | some y =>
        rw [hy] at hx
        cases hx
        exact hd { y with nlink := 0 } (by rw [fileOf, hy]; rfl)
  · refine .of_keeps (keeps_updInode (fun _ => rfl) hk)

theorem User.same {db db' : Db} {ino : Ino} (h : User db ino) (hn : db.nextIno ≤ db'.nextIno)
    (hf : SameFile ino db db') : User db' ino := ⟨h.1.trans_le hn, hf.user h.2⟩

theorem Local.same {ino : Ino} (h : Local binary s ino) (hf : SameFile ino s.db t.db)
    (hr : t.db.getRemoteId ino = s.db.getRemoteId ino) (hm : t.db.getMirrored ino = s.db.getMirrored ino)
    (hh : s.held ⊆ t.held) : Local binary t ino := by
  intro rid u hrid hmir hb hi
  rw [hr] at hrid
  rw [hm] at hmir
  obtain ⟨v, hv, hid, hle, hc⟩ := h rid u hrid hmir hb (hf.inode hi)
  refine ⟨v, hh hv, hid, hle, ?_⟩
  rw [hf.content]
  exact hc

theorem Local.unmirrored {ino : Ino} (h : t.db.getMirrored ino = none) : Local binary t ino := by
  intro rid u _ hmir
  rw [h] at hmir
  cases hmir

/-- An inode of a document whose number has not been given out, or that is a
derived sibling, is not mapped. -/
theorem Inv.user_of_mapped (h : Inv binary s) {ino : Ino} {rid : String}
    (hr : s.db.getRemoteId ino = some rid) (hb : binary rid = false) : User s.db ino := by
  refine ⟨?_, h.user ino rid hr hb⟩
  by_contra hn
  rw [h.bounded.getRemoteId (not_lt.mp hn)] at hr
  cases hr

/-- What a step may do that leaves contents alone. -/
structure Leaves (binary : String → Bool) (s t : St) : Prop where
  next : s.db.nextIno ≤ t.db.nextIno
  bounded : t.db.Bounded
  files : ∀ ino, User s.db ino → SameFile ino s.db t.db
  version : ∀ ino, t.db.getRemoteId ino = s.db.getRemoteId ino ∧ t.db.getMirrored ino = s.db.getMirrored ino ∨
    t.db.getMirrored ino = none
  mapped : ∀ ino rid, t.db.getRemoteId ino = some rid → binary rid = false →
    s.db.getRemoteId ino = some rid ∨ User s.db ino
  unsent : t.unsent = s.unsent
  count : t.count = s.count
  held : s.held ⊆ t.held
  dirty : ∀ w ∈ t.unsent, (t.db.getDirtySince w.ino).isSome = true

theorem Leaves.local_ (h : Inv binary s) (hl : Leaves binary s t) {ino : Ino} (hloc : Local binary s ino) :
    Local binary t ino := by
  intro rid u hrid hmir hb hi
  rcases hl.version ino with ⟨hr, hm⟩ | hm
  · have hu : User s.db ino := h.user_of_mapped (hr ▸ hrid) hb
    exact Local.same hloc (hl.files ino hu) hr hm hl.held rid u hrid hmir hb hi
  · rw [hm] at hmir
    cases hmir

theorem Leaves.phase (hl : Leaves binary s t) {j : Job} {ph : Phase}
    (hp : PhaseOk s j ph) : PhaseOk t j ph := by
  induction ph with
  | wait _ next ih => exact ih hp
  | patch ino content rid =>
    obtain ⟨hu, hc, hread, hok⟩ := hp
    refine ⟨hu.same hl.next (hl.files ino hu), hc, by rw [hl.count]; exact hread, ?_⟩
    unfold ReadOk Later
    rw [hl.unsent, (hl.files ino hu).content]
    exact hok
  | post ino _ | upload ino _ | mapInode ino _ => exact User.same hp hl.next (hl.files ino hp)
  | _ => trivial

theorem Inv.keep (h : Inv binary s) (hl : Leaves binary s t) (hj : ∀ j ∈ t.jobs, JobOk s j) :
    Inv binary t where
  bounded := hl.bounded
  user := by
    intro ino rid hr hb
    have hu : User s.db ino := (hl.mapped ino rid hr hb).elim (fun hr' => h.user_of_mapped hr' hb) id
    exact (hl.files ino hu).user hu.2
  known := by
    intro ino rid u hr hm hb
    rcases hl.version ino with ⟨hr', hm'⟩ | hn
    · obtain ⟨v, hv, hx⟩ := h.known ino rid u (hr' ▸ hr) (hm' ▸ hm) hb
      exact ⟨v, hl.held hv, hx⟩
    · rw [hn] at hm
      cases hm
  content := by
    intro ino
    rw [hl.unsent]
    exact (h.content ino).imp (hl.local_ h) id
  dirty := by
    intro w hw
    have hu : User s.db w.ino := (h.dirty w (hl.unsent ▸ hw)).1
    exact ⟨hu.same hl.next (hl.files w.ino hu), hl.dirty w hw⟩
  jobs := by
    intro j hj'
    obtain ⟨hc, hp⟩ := hj j hj'
    exact ⟨fun ino hi => (hc ino hi).same hl.next (hl.files ino (hc ino hi)), hl.phase hp⟩

/-! ### Carrying writes -/

theorem mem_carry {unsent : List Write} {ino : Ino} {n : ℕ} {w : Write} :
    w ∈ carry unsent ino n ↔ w ∈ unsent ∧ ¬ (w.ino = ino ∧ w.seq < n) := by
  unfold carry
  rw [List.mem_filter, Bool.not_eq_true', Bool.and_eq_false_iff, decide_eq_false_iff_not, decide_eq_false_iff_not,
    not_and_or]

/-- Writes of an inode are carried where the inode then holds a version or a
later write. -/
theorem Inv.carry (h : Inv binary s) {ino : Ino} {n : ℕ}
    (hl : Local binary s ino ∨ ∃ w ∈ s.unsent, w.ino = ino ∧ n ≤ w.seq) :
    Inv binary { s with unsent := carry s.unsent ino n } := by
  have hlocal : ∀ k, Local binary s k → Local binary { s with unsent := Mirror.carry s.unsent ino n } k :=
    fun k hk => hk
  have hnone : Local binary s ino ∧ (∀ w ∈ Mirror.carry s.unsent ino n, w.ino ≠ ino) ∨
      ∃ w ∈ Mirror.carry s.unsent ino n, w.ino = ino ∧ n ≤ w.seq := by
    by_cases hex : ∃ w ∈ s.unsent, w.ino = ino ∧ n ≤ w.seq
    · obtain ⟨w, hw, hi, hn⟩ := hex
      exact .inr ⟨w, mem_carry.mpr ⟨hw, fun hc => absurd hc.2 (not_lt.mpr hn)⟩, hi, hn⟩
    · refine .inl ⟨hl.resolve_right hex, fun w hw hi => ?_⟩
      obtain ⟨hw, hc⟩ := mem_carry.mp hw
      exact hex ⟨w, hw, hi, not_lt.mp fun hlt => hc ⟨hi, hlt⟩⟩
  have hread : ∀ j k, ReadOk s j k → ReadOk { s with unsent := Mirror.carry s.unsent ino n } j k := by
    intro j k hok
    rcases hok with ⟨w, hw, hi, hle⟩ | hc | hno
    · by_cases hcar : w.ino = ino ∧ w.seq < n
      · -- the write that came after the job's read is carried; a later one is not
        obtain rfl : k = ino := hi.symm.trans hcar.1
        rcases hnone with hnone | ⟨w', hw', hi', hn'⟩
        · exact .inr (.inr hnone.2)
        · exact .inl ⟨w', hw', hi', by omega⟩
      · exact .inl ⟨w, mem_carry.mpr ⟨hw, hcar⟩, hi, hle⟩
    · exact .inr (.inl hc)
    · exact .inr (.inr fun w hw => hno w (mem_carry.mp hw).1)
  have hphase : ∀ j ph, PhaseOk s j ph →
      PhaseOk { s with unsent := Mirror.carry s.unsent ino n } j ph := by
    intro j ph hp
    induction ph with
    | wait _ next ih => exact ih hp
    | patch k content rid => exact ⟨hp.1, hp.2.1, hp.2.2.1, hread j k hp.2.2.2⟩
    | post | upload | mapInode => exact hp
    | _ => trivial
  refine ⟨h.bounded, h.user, h.known, fun k => ?_, fun w hw => h.dirty w (mem_carry.mp hw).1,
    fun j hj => ⟨(h.jobs j hj).1, hphase j _ (h.jobs j hj).2⟩⟩
  rcases h.content k with hk | ⟨w, hw, hi⟩
  · exact .inl hk
  · by_cases hki : k = ino
    · subst hki
      exact hnone.imp (·.1) fun ⟨w', hw', hi', _⟩ => ⟨w', hw', hi'⟩
    · exact .inr ⟨w, mem_carry.mpr ⟨hw, fun hc => hki (hi.symm.trans hc.1)⟩, hi⟩

/-! ### Writes -/

theorem isUser_iff {db : Db} {ino : Ino} : isUser db ino = true ↔ NotDerived db ino := by
  unfold isUser NotDerived
  rw [Option.all_eq_true]
  simp

/-- Where only the database changes, and only as far as the jobs do not see. -/
theorem Leaves.of_same {db : Db} (h : Inv binary s) (hn : s.db.nextIno ≤ db.nextIno) (hb : db.Bounded)
    (hk : ∀ ino, User s.db ino → Keeps ino s.db db)
    (hv : ∀ ino, db.getRemoteId ino = s.db.getRemoteId ino ∧ db.getMirrored ino = s.db.getMirrored ino) :
    Leaves binary s { s with db := db } where
  next := hn
  bounded := hb
  files := fun ino hu => .of_keeps (hk ino hu)
  version := fun ino => .inl (hv ino)
  mapped := fun ino rid hr _ => .inl ((hv ino).1.symm.trans hr)
  unsent := rfl
  count := rfl
  held := List.Subset.refl _
  dirty := by
    intro w hw
    obtain ⟨hu, hd⟩ := h.dirty w hw
    show (db.getDirtySince w.ino).isSome = true
    rw [(hk w.ino hu).dirty]
    exact hd

theorem write_inv (h : Inv binary s) (f : SqliteFile) (offset : ℕ) (data : Bytes) (now : ℤ) :
    Inv binary (wrote s f offset data now) := by
  have hsync : SameSync s.db (f.write s.db offset data now).2 := SqliteFile.write_sameSync
  have hbound : (f.write s.db offset data now).2.Bounded := SqliteFile.write_bounded h.bounded
  have hkeep : ∀ ino, ino ≠ f.ino → Keeps ino s.db (f.write s.db offset data now).2 :=
    fun ino hi => SqliteFile.write_keeps hi
  unfold wrote
  split
  · rename_i n db hw
    obtain ⟨hn, x, size, hx, hx'⟩ := SqliteFile.write_file hw
    rw [hw] at hsync hbound hkeep
    split_ifs with huser
    · have hd : NotDerived s.db f.ino := isUser_iff.mp huser
      have hd' : NotDerived db f.ino := fun y hy => by
        rw [hx'] at hy
        cases hy
        exact hd x hx
      have hlt : f.ino < s.db.nextIno := by
        obtain ⟨y, hy, -⟩ := Option.map_eq_some_iff.mp hx
        exact h.bounded.getInode hy
      have huse : ∀ ino, User s.db ino → User db ino := by
        intro ino hu
        refine ⟨by rw [hn]; exact hu.1, ?_⟩
        by_cases hi : ino = f.ino
        · rw [hi]
          exact hd'
        · exact hu.2.keeps (hkeep ino hi)
      have hnew : (⟨f.ino, s.count⟩ : Write) ∈ s.unsent ++ [⟨f.ino, s.count⟩] :=
        List.mem_append_right _ (List.mem_singleton_self _)
      have hlocal : ∀ ino, ino ≠ f.ino → Local binary s ino →
          Local binary { s with db := db, count := s.count + 1, unsent := s.unsent ++ [⟨f.ino, s.count⟩] } ino :=
        fun ino hi hl => hl.same (.of_keeps (hkeep ino hi)) hsync.getRemoteId hsync.getMirrored
          (List.Subset.refl _)
      have hread : ∀ j ino, j.read ≤ s.count → ReadOk s j ino →
          ReadOk { s with db := db, count := s.count + 1, unsent := s.unsent ++ [⟨f.ino, s.count⟩] } j ino := by
        intro j ino hle hok
        by_cases hi : ino = f.ino
        · exact .inl ⟨_, hnew, hi.symm, hle⟩
        · rcases hok with ⟨w, hw, hwi, hwle⟩ | hc | hno
          · exact .inl ⟨w, List.mem_append_left _ hw, hwi, hwle⟩
          · exact .inr (.inl ((hkeep ino hi).content.trans hc))
          · refine .inr (.inr fun w hw => ?_)
            rcases List.mem_append.mp hw with hw | hw
            · exact hno w hw
            · obtain rfl := List.mem_singleton.mp hw
              exact Ne.symm hi
      have hphase : ∀ j ph, PhaseOk s j ph →
          PhaseOk { s with db := db, count := s.count + 1, unsent := s.unsent ++ [⟨f.ino, s.count⟩] } j ph := by
        intro j ph hp
        induction ph with
        | wait _ next ih => exact ih hp
        | patch k content rid =>
          exact ⟨huse k hp.1, hp.2.1, Nat.le_succ_of_le hp.2.2.1, hread j k hp.2.2.1 hp.2.2.2⟩
        | post k | upload k | mapInode k => exact huse k hp
        | _ => trivial
      refine ⟨hbound, fun ino rid hr hb => ?_, fun ino rid u hr hm hb => ?_, fun ino => ?_, fun w hw => ?_,
        fun j hj => ⟨fun ino hi => huse ino ((h.jobs j hj).1 ino hi), hphase j _ (h.jobs j hj).2⟩⟩
      · have hr : db.getRemoteId ino = some rid := hr
        rw [hsync.getRemoteId] at hr
        exact (huse ino (h.user_of_mapped hr hb)).2
      · have hr : db.getRemoteId ino = some rid := hr
        have hm : db.getMirrored ino = some u := hm
        rw [hsync.getRemoteId] at hr
        rw [hsync.getMirrored] at hm
        exact h.known ino rid u hr hm hb
      · by_cases hi : ino = f.ino
        · exact .inr ⟨_, hnew, hi.symm⟩
        · exact (h.content ino).imp (hlocal ino hi) fun ⟨w, hw, hwi⟩ => ⟨w, List.mem_append_left _ hw, hwi⟩
      · have hdirty : (db.getDirtySince f.ino).isSome = true := by
          rw [getDirtySince_eq, hx']
          rfl
        rcases List.mem_append.mp hw with hw | hw
        · obtain ⟨hu, hwd⟩ := h.dirty w hw
          refine ⟨huse w.ino hu, ?_⟩
          by_cases hi : w.ino = f.ino
          · show (db.getDirtySince w.ino).isSome = true
            rw [hi]
            exact hdirty
          · show (db.getDirtySince w.ino).isSome = true
            rw [(hkeep w.ino hi).dirty]
            exact hwd
        · obtain rfl := List.mem_singleton.mp hw
          exact ⟨⟨by rw [hn]; exact hlt, hd'⟩, hdirty⟩
    · -- a derived sibling is not mapped, and no write to it is recorded
      have hne : ∀ ino, User s.db ino → ino ≠ f.ino := fun ino hu he => huser (isUser_iff.mpr (he ▸ hu.2))
      exact h.keep (.of_same h hn.ge hbound (fun ino hu => hkeep ino (hne ino hu))
        fun _ => ⟨hsync.getRemoteId, hsync.getMirrored⟩) h.jobs
  · rename_i r db hne hw
    have hdb : (f.write s.db offset data now).2 = s.db := by
      refine SqliteFile.write_none fun n he => hne n ?_
      rw [hw] at he
      exact he
    rw [hw] at hdb
    have hdb : db = s.db := hdb
    rw [hdb]
    exact h

/-! ### Jobs -/

theorem jobs_putJob {i : ℕ} {j' : Job} {next : Option Phase} (h : Inv binary s)
    (hc : ∀ ino, j'.task.job.contentIno = some ino → User s.db ino)
    (hnext : ∀ ph, next = some ph → PhaseOk s j' ph) :
    ∀ k ∈ putJob s.jobs i j' next, JobOk s k := by
  have hswap : ∀ {ph ph' : Phase}, PhaseOk s j' ph' →
      PhaseOk s { j' with task := { j'.task with phase := ph } } ph' := by
    intro ph ph' hp
    induction ph' with
    | wait _ next ih => exact ih hp
    | _ => exact hp
  intro k hk
  cases next with
  | none => exact h.jobs k (List.mem_of_mem_eraseIdx hk)
  | some ph =>
    rcases List.mem_or_eq_of_mem_set hk with hk | rfl
    · exact h.jobs k hk
    · exact ⟨hc, hswap (hnext ph rfl)⟩

/-- Where a job begins, it has just read what it is to send. -/
theorem begin_ok {j : Job} (hc : ∀ ino, j.task.job.contentIno = some ino → User s.db ino)
    (hph : j.task.phase = .start) : PhaseOk s (readBy s j) (Task.begin s.db j.task.job) := by
  unfold readBy
  rw [if_pos hph]
  unfold Task.begin
  cases hop : j.task.job.op with
  | create | update =>
    cases hi : j.task.job.contentIno with
    | none => trivial
    | some ino =>
      have hu := hc ino hi
      dsimp only
      split_ifs
      · exact hu
      · cases j.task.job.remoteId with
        | none => exact hu
        | some rid => exact ⟨hu, rfl, le_rfl, .inr (.inl rfl)⟩
  | uploadBinary =>
    cases hi : j.task.job.contentIno with
    | none => trivial
    | some ino => exact hc ino hi
  | delete => trivial
  | rename =>
    cases j.task.job.renameTo with
    | none => trivial
    | some newFp => cases j.task.job.remoteId <;> trivial

/-- Where an answer leads, nothing is to be sent. -/
theorem answered_ok {j : Job} {job : PushJob} {timedOut : Bool} {ph next : Phase} {a : Answer}
    (h : Task.answered job timedOut ph a = some next) (hp : PhaseOk s j ph) :
    PhaseOk s j next := by
  unfold Task.answered at h
  split at h <;> (try split_ifs at h) <;> (try split at h) <;> cases h <;>
    first | exact hp | trivial

/-- Only the queue changes. -/
theorem Leaves.of_queue (h : Inv binary s) (q : PushQueue) :
    Leaves binary s { s with db := { s.db with queue := q } } :=
  .of_same h le_rfl (h.bounded.of_subset rfl (fun _ => id) (fun _ => id) (fun _ => id) (List.Sublist.refl _))
    (fun _ _ => .of_eq rfl rfl rfl) fun _ => ⟨rfl, rfl⟩

/-- A call of a job leaves contents alone. -/
theorem jobDb_leaves (h : Inv binary s) {j : Job} (hj : JobOk s j) {now : ℤ} {db : Db}
    {next : Option Phase} (hd : Task.dbStep s.db j.task.job now j.task.phase = some (db, next))
    (hclear : ∀ ino, j.task.phase = .clearDirty ino → ∀ w ∈ s.unsent, w.ino ≠ ino) :
    Leaves binary s { s with db := db } := by
  have hdirty : ∀ w ∈ s.unsent, (s.db.getDirtySince w.ino).isSome = true := fun w hw => (h.dirty w hw).2
  cases hph : j.task.phase with
  | start =>
    rw [hph] at hd
    cases hd
    exact .of_queue h s.db.queue
  | clearRemoteId rid =>
    rw [hph] at hd
    cases hd
    have hg : ∀ ino, (s.db.clearRemoteIdAfter404 j.task.job.filepath rid).getRemote ino = s.db.getRemote ino ∨
        (s.db.clearRemoteIdAfter404 j.task.job.filepath rid).getRemote ino = none :=
      fun ino => getRemote_filter h.bounded.sorted
    refine ⟨le_rfl, h.bounded.of_subset rfl (fun _ => id) (fun _ => id) (fun _ => id) List.filter_sublist,
      fun _ _ => .of_keeps (.of_eq rfl rfl rfl), fun ino => ?_, fun ino rid' hr _ => ?_, rfl, rfl,
      List.Subset.refl _, hdirty⟩
    · unfold getRemoteId getMirrored
      rcases hg ino with hg | hg
      · exact .inl ⟨by rw [hg], by rw [hg]⟩
      · exact .inr (by rw [hg]; rfl)
    · unfold getRemoteId at hr ⊢
      rcases hg ino with hg | hg
      · rw [hg] at hr
        exact .inl hr
      · rw [hg] at hr
        cases hr
  | mapInode ino rid =>
    have hu : User s.db ino := by
      have := hj.2
      rw [hph] at this
      exact this
    rw [hph] at hd
    cases hd
    refine ⟨le_rfl, h.bounded.setRemoteId hu.1, fun _ _ => .of_keeps setRemoteId_keeps, fun k => ?_,
      fun k rid' hr _ => ?_, rfl, rfl, List.Subset.refl _, hdirty⟩
    · rw [getRemoteId_setRemoteId, getMirrored_setRemoteId]
      by_cases hk : k = ino
      · exact .inr (if_pos hk)
      · rw [if_neg hk, if_neg hk]
        exact .inl ⟨rfl, rfl⟩
    · by_cases hk : k = ino
      · exact .inr (hk ▸ hu)
      · rw [getRemoteId_setRemoteId, if_neg hk] at hr
        exact .inl hr
  | markMirrored ino =>
    rw [hph] at hd
    cases hd
    exact .of_same h le_rfl h.bounded.setMirroredState (fun _ _ => setMirroredState_keeps) fun _ =>
      ⟨getRemoteId_setMirroredState, getMirrored_set_none⟩
  | clearDirty ino =>
    rw [hph] at hd
    cases hd
    refine ⟨le_rfl, h.bounded.updInode fun _ => rfl, fun _ _ => .of_setDirty, fun _ => .inl ⟨rfl, rfl⟩,
      fun _ _ hr _ => .inl hr, rfl, rfl, List.Subset.refl _, fun w hw => ?_⟩
    have hk : Keeps w.ino s.db (s.db.setDirtySince ino none) :=
      keeps_updInode (fun _ => rfl) (hclear ino hph w hw)
    show ((s.db.setDirtySince ino none).getDirtySince w.ino).isSome = true
    rw [hk.dirty]
    exact hdirty w hw
  | sibling status body =>
    rw [hph] at hd
    cases hd
    have hs : SameSync s.db (createDerivedSibling s.db (j.task.job.filepath ++ ".smfs-error.txt")
        (bytesOf (Task.rejectionText status body))).2 := createDerivedSibling_sameSync
    refine .of_same h ?_ (createDerivedSibling_bounded h.bounded)
      (fun ino hu => createDerivedSibling_keeps hu.1 hu.2) fun _ => ⟨hs.getRemoteId, hs.getMirrored⟩
    exact createDerivedSibling_next
  | mapRow | succeed | fail | drop =>
    rw [hph] at hd
    cases hd
    exact .of_queue h _
  | poison =>
    rw [hph] at hd
    cases hd
    exact .of_queue h _
  | wait | patch | post | upload | delete | lookup | rename =>
    rw [hph] at hd
    cases hd

/-- Where a call of a job leads. -/
theorem dbStep_ok {j : Job} (hj : JobOk s j) {now : ℤ} {db : Db} {next : Phase}
    (hd : Task.dbStep s.db j.task.job now j.task.phase = some (db, some next)) :
    PhaseOk s (readBy s j) next := by
  cases hph : j.task.phase with
  | start =>
    rw [hph] at hd
    cases hd
    exact begin_ok hj.1 hph
  | clearRemoteId | mapInode | mapRow | markMirrored | clearDirty =>
    rw [hph] at hd
    cases hd
    trivial
  | poison status body b =>
    rw [hph] at hd
    cases b <;> cases hd
    trivial
  | succeed | fail | sibling | drop | wait | patch | post | upload | delete | lookup | rename =>
    rw [hph] at hd
    cases hd

theorem jobDb_inv (h : Inv binary s) {i : ℕ} {now : ℤ} (hok : MirrorOk binary s (.jobDb i now))
    (hst : step binary s (.jobDb i now) = some t) : Inv binary t := by
  simp only [step] at hst
  obtain ⟨j, hj, hst⟩ := Option.bind_eq_some_iff.mp hst
  obtain ⟨⟨db, next⟩, hd, ht⟩ := Option.map_eq_some_iff.mp hst
  have hjob := h.jobs j (List.mem_of_getElem? hj)
  have hl : Leaves binary s { s with db := db } := jobDb_leaves h hjob hd fun ino => hok j ino hj
  have hread : ∀ ino, (readBy s j).task.job.contentIno = some ino → User s.db ino := by
    intro ino hi
    refine hjob.1 ino ?_
    unfold readBy at hi
    split_ifs at hi <;> exact hi
  have hjobs : ∀ k ∈ putJob s.jobs i (readBy s j) next, JobOk s k :=
    jobs_putJob h hread fun ph hph => dbStep_ok hjob (hph ▸ hd)
  have hl' : Leaves binary s { s with db := db, jobs := putJob s.jobs i (readBy s j) next } :=
    ⟨hl.next, hl.bounded, hl.files, hl.version, hl.mapped, rfl, rfl, hl.held, hl.dirty⟩
  have hinv : Inv binary { s with db := db, jobs := putJob s.jobs i (readBy s j) next } := h.keep hl' hjobs
  subst ht
  unfold mapped
  split
  · rename_i ino rid hph
    rw [hph] at hd
    cases hd
    refine hinv.carry (.inl (.unmirrored ?_))
    exact getMirrored_setRemoteId.trans (if_pos rfl)
  · exact hinv

/-- The accepted content becomes a version; the writes that it carries are
those that the job had read. -/
theorem patched_inv {j : Job} {ino : Ino} {content : Bytes} {rid : String} {v : Version} (h : Inv binary s)
    (hp : PhaseOk s j (.patch ino content rid)) (hv : v ∈ s.held) (hid : v.id = rid) (hc : v.content = content)
    (hlast : ∀ u ∈ s.held, u.id = rid → u.updatedMs ≤ v.updatedMs) :
    Inv binary { s with unsent := patched s j ino rid } := by
  unfold patched
  split_ifs with hr
  · refine h.carry ?_
    obtain ⟨-, hcj, -, hread⟩ := hp
    rcases hread with hlater | hsame | hno
    · exact .inr hlater
    · refine .inl fun rid' t hrid hmir hb _ => ?_
      obtain rfl : rid' = rid := by
        rw [hrid] at hr
        simpa using hr
      obtain ⟨u, hu, huid, hle⟩ := h.known ino rid' t hrid hmir hb
      refine ⟨v, hv, hid, hle.trans (hlast u hu huid), ?_⟩
      rw [hc, hcj, hsame]
    · exact .inl ((h.content ino).resolve_right fun ⟨w, hw, hi⟩ => hno w hw hi)
  · exact h

theorem jobAnswer_inv (h : Inv binary s) {i : ℕ} {answer : Answer} {timedOut : Bool} {v : Version}
    (hok : MirrorOk binary s (.jobAnswer i answer timedOut v))
    (hst : step binary s (.jobAnswer i answer timedOut v) = some t) : Inv binary t := by
  simp only [step] at hst
  obtain ⟨j, hj, hst'⟩ := Option.bind_eq_some_iff.mp hst
  obtain ⟨next, hnext, ht⟩ := Option.bind_eq_some_iff.mp hst'
  clear hst hst'
  obtain ⟨hc, hp⟩ := h.jobs j (List.mem_of_getElem? hj)
  have hjobs : ∀ k ∈ putJob s.jobs i j (some next), JobOk s k :=
    jobs_putJob h hc fun ph hph => by
      cases hph
      exact answered_ok hnext hp
  have hdirty : ∀ w ∈ s.unsent, (s.db.getDirtySince w.ino).isSome = true := fun w hw => (h.dirty w hw).2
  split at ht
  · rename_i ino content rid hph
    split_ifs at ht with hv
    cases ht
    have hsub : s.held ⊆ s.held ++ [v] := List.subset_append_left _ _
    have hl : Leaves binary s { s with jobs := putJob s.jobs i j (some next), held := s.held ++ [v] } :=
      ⟨le_rfl, h.bounded, fun _ _ => .of_keeps (.refl _ _), fun _ => .inl ⟨rfl, rfl⟩, fun _ _ hr _ => .inl hr,
        rfl, rfl, hsub, hdirty⟩
    rw [hph] at hp
    refine patched_inv (h.keep hl hjobs) (hl.phase hp) (List.mem_append_right _ (List.mem_singleton_self _)) hv.1
      (hok j ino content rid hj hph rfl) fun u hu hid => ?_
    rcases List.mem_append.mp hu with hu | hu
    · exact hv.2 u hu (hid.trans hv.1.symm)
    · rw [List.mem_singleton.mp hu]
  · cases ht
    refine h.keep ⟨le_rfl, h.bounded, fun _ _ => .of_keeps (.refl _ _), fun _ => .inl ⟨rfl, rfl⟩,
      fun _ _ hr _ => .inl hr, rfl, rfl, List.Subset.refl _, hdirty⟩ hjobs

/-! ### Reconciling and polling -/

/-- The jobs stay in order where the inodes stay, and so does what they have
read, but where a version has replaced it. -/
theorem jobs_replaced (h : Inv binary s) (hcount : t.count = s.count)
    (huser : ∀ ino, User s.db ino → User t.db ino)
    (hread : ∀ ino, User s.db ino → (∀ w ∈ t.unsent, w.ino ≠ ino) ∨
      t.db.readAllContent ino = s.db.readAllContent ino ∧
        ∀ w : Write, w.ino = ino → (w ∈ t.unsent ↔ w ∈ s.unsent)) :
    ∀ j ∈ s.jobs, JobOk t j := by
  have hphase : ∀ j ph, PhaseOk s j ph → PhaseOk t j ph := by
    intro j ph hp
    induction ph with
    | wait _ next ih => exact ih hp
    | patch ino content rid =>
      obtain ⟨hu, hc, hle, hok⟩ := hp
      refine ⟨huser ino hu, hc, by rw [hcount]; exact hle, ?_⟩
      rcases hread ino hu with hno | ⟨hsame, hw⟩
      · exact .inr (.inr hno)
      · rcases hok with ⟨w, hws, hi, hle⟩ | hc | hno
        · exact .inl ⟨w, (hw w hi).mpr hws, hi, hle⟩
        · exact .inr (.inl (hsame.trans hc))
        · exact .inr (.inr fun w hwt hi => hno w ((hw w hi).mp hwt) hi)
    | post ino _ | upload ino _ | mapInode ino _ => exact huser ino hp
    | _ => trivial
  intro j hj
  obtain ⟨hc, hp⟩ := h.jobs j hj
  exact ⟨fun ino hi => huser ino (hc ino hi), hphase j _ hp⟩

theorem reconcile_inv (h : Inv binary s) {doc : Document} {now : ℤ}
    (hok : MirrorOk binary s (.reconcile doc now)) (hst : step binary s (.reconcile doc now) = some t) :
    Inv binary t := by
  simp only [step] at hst
  split_ifs at hst with hshow
  obtain ⟨htype, v, hv, hid, hupd, hcont⟩ := hshow
  cases hst
  have hrec : ∀ ino, Reconciled (User s.db ino) ino doc s.db (Fs.reconcileOne s.db doc now).2 :=
    fun ino => reconcileOne_reconciled h.bounded id
  have hmir : ∀ ino, User s.db ino → Mirrors ino doc s.db (Fs.reconcileOne s.db doc now).2 :=
    fun ino hu => (reconcileOne_mirrors hu.1 hu.2).1
  have hnew : ∀ ino rid, (Fs.reconcileOne s.db doc now).2.getRemoteId ino = some rid → binary doc.id = false →
      s.db.getRemoteId ino = some rid ∨ NotDerived (Fs.reconcileOne s.db doc now).2 ino := by
    intro ino rid hr hb
    rcases reconcileOne_mapped h.bounded (htype.trans hb) hr with hr' | ⟨hnone, ⟨hat, hd⟩ | ⟨-, hd⟩⟩
    · exact .inl hr'
    · exact .inr (hd (hok hb hnone ino hat))
    · exact .inr hd
  have hbound : (Fs.reconcileOne s.db doc now).2.Bounded := reconcileOne_bounded h.bounded
  generalize (Fs.reconcileOne s.db doc now).2 = db at hrec hmir hnew hbound ⊢
  have huser : ∀ ino, User s.db ino → User db ino :=
    fun ino hu => ⟨hu.1.trans_le (hmir ino hu).next, (hmir ino hu).notDerived hu.2⟩
  have hsent : ∀ w ∈ s.unsent, Keeps w.ino s.db db →
      w ∈ s.unsent.filter fun w => db.readAllContent w.ino = s.db.readAllContent w.ino :=
    fun w hw hk => List.mem_filter.mpr ⟨hw, decide_eq_true hk.content⟩
  refine ⟨hbound, fun ino rid hr hb => ?_, fun ino rid u hr hm hb => ?_, fun ino => ?_, fun w hw => ?_,
    jobs_replaced (s := s) h rfl huser fun ino hu => ?_⟩
  · have hold : s.db.getRemoteId ino = some rid → NotDerived db ino :=
      fun hr => (huser ino (h.user_of_mapped hr hb)).2
    have hdoc : db.getRemoteId ino = some doc.id → NotDerived db ino := by
      intro hr'
      obtain rfl : rid = doc.id := Option.some.inj (hr.symm.trans hr')
      exact (hnew ino _ hr hb).elim hold id
    rcases hrec ino with ⟨-, hr', -⟩ | ⟨-, hr', -⟩ | ⟨-, hr', -, -⟩
    · exact hold (hr'.symm.trans hr)
    · exact hdoc hr'
    · exact hdoc hr'
  · rcases hrec ino with ⟨-, hr', hm'⟩ | ⟨-, -, hm'⟩ | ⟨-, hr', hm', -⟩
    · exact h.known ino rid u (hr'.symm.trans hr) (hm'.symm.trans hm) hb
    · cases hm'.symm.trans hm
    · obtain rfl : rid = doc.id := Option.some.inj (hr.symm.trans hr')
      obtain rfl : u = v.updatedMs := Option.some.inj (hm.symm.trans (hm' _ hupd))
      exact ⟨v, hv, hid, le_rfl⟩
  · rcases hrec ino with ⟨hk, hr', hm'⟩ | ⟨-, -, hm'⟩ | ⟨hs, hr', hm', hc⟩
    · rcases h.content ino with hl | ⟨w, hw, hi⟩
      · refine .inl fun rid u hr hm hb hi => ?_
        have hu : User s.db ino := h.user_of_mapped (hr'.symm.trans hr) hb
        have hfile : SameFile ino s.db db := .of_keeps (hk hu)
        obtain ⟨v, hv, hid, hle, hc⟩ := hl rid u (hr'.symm.trans hr) (hm'.symm.trans hm) hb (hfile.inode hi)
        exact ⟨v, hv, hid, hle, hc.trans hfile.content.symm⟩
      · subst hi
        exact .inr ⟨w, hsent w hw (hk (h.dirty w hw).1), rfl⟩
    · exact .inl (.unmirrored hm')
    · refine .inl fun rid u hr hm hb hi => ?_
      obtain rfl : rid = doc.id := Option.some.inj (hr.symm.trans hr')
      obtain rfl : u = v.updatedMs := Option.some.inj (hm.symm.trans (hm' _ hupd))
      have hbin : doc.isBinaryType = false := htype.trans hb
      exact ⟨v, hv, hid, le_rfl, (hc hbin _ (hcont hs hbin) hi).symm⟩
  · obtain ⟨hu, hd⟩ := h.dirty w (List.mem_filter.mp hw).1
    refine ⟨huser w.ino hu, ?_⟩
    show (db.getDirtySince w.ino).isSome = true
    rw [(hmir w.ino hu).dirty]
    exact hd
  · by_cases hsame : db.readAllContent ino = s.db.readAllContent ino
    · refine .inr ⟨hsame, fun w hi => ?_⟩
      rw [List.mem_filter, hi, decide_eq_true hsame]
      exact and_iff_left rfl
    · refine .inl fun w hw hi => hsame ?_
      have hw := of_decide_eq_true (List.mem_filter.mp hw).2
      rwa [hi] at hw

/-- A tick that records no version. -/
theorem pollNone_inv (h : Inv binary s) {ino : Ino} {st : Option String} {at_ : Option ℤ} :
    Inv binary { s with db := s.db.setMirroredState ino none st at_ } :=
  h.keep (.of_same h le_rfl h.bounded.setMirroredState (fun _ _ => setMirroredState_keeps) fun _ =>
    ⟨getRemoteId_setMirroredState, getMirrored_set_none⟩) h.jobs

/-- A document that has been given up marks its file dirty. -/
theorem pollStuck_inv (h : Inv binary s) {ino : Ino} {st : Option String} {at_ : Option ℤ} {now : ℤ} :
    Inv binary { s with db := (s.db.setMirroredState ino none st at_).setDirtySince ino (some now) } := by
  have h' : Inv binary { s with db := s.db.setMirroredState ino none st at_ } := pollNone_inv h
  refine h'.keep ⟨le_rfl, h'.bounded.updInode fun _ => rfl, fun _ _ => .of_setDirty, fun _ => .inl ⟨rfl, rfl⟩,
    fun _ _ hr _ => .inl hr, rfl, rfl, List.Subset.refl _, fun w hw => ?_⟩ h'.jobs
  obtain ⟨hu, hd⟩ := h'.dirty w hw
  by_cases hw : w.ino = ino
  · subst hw
    have hg : ((s.db.setMirroredState w.ino none st at_).setDirtySince w.ino (some now)).getInode w.ino =
        ((s.db.setMirroredState w.ino none st at_).getInode w.ino).map fun x => { x with dirtySince := some now } :=
      getInode_setDirtySince.trans (if_pos rfl)
    show (((s.db.setMirroredState w.ino none st at_).setDirtySince w.ino (some now)).getDirtySince w.ino).isSome = true
    have hd : ((s.db.setMirroredState w.ino none st at_).getDirtySince w.ino).isSome = true := hd
    unfold getDirtySince at hd ⊢
    rw [hg]
    cases hx : (s.db.setMirroredState w.ino none st at_).getInode w.ino with
    | none =>
      rw [hx] at hd
      cases hd
    | some x => rfl
  · have hk : Keeps w.ino (s.db.setMirroredState ino none st at_)
        ((s.db.setMirroredState ino none st at_).setDirtySince ino (some now)) := keeps_updInode (fun _ => rfl) hw
    show (((s.db.setMirroredState ino none st at_).setDirtySince ino (some now)).getDirtySince w.ino).isSome = true
    rw [hk.dirty]
    exact hd

/-- A document that is gone is not mapped any more. -/
theorem pollGone_inv (h : Inv binary s) {ino : Ino} : Inv binary { s with db := s.db.deleteRemoteId ino } := by
  have hg : ∀ k, (s.db.deleteRemoteId ino).getRemote k = if k = ino then none else s.db.getRemote k :=
    fun k => Table.get_erase _ _ _
  refine h.keep ⟨le_rfl, ?_, fun _ _ => .of_keeps (.of_eq rfl rfl rfl), fun k => ?_, fun k rid hr _ => ?_, rfl, rfl,
    List.Subset.refl _, fun w hw => (h.dirty w hw).2⟩ h.jobs
  · exact h.bounded.of_subset rfl (fun _ => id) (fun _ => id) (fun _ => id) (Table.erase_sublist _ _)
  · unfold getRemoteId getMirrored
    rw [hg k]
    split_ifs
    · exact .inr rfl
    · exact .inl ⟨rfl, rfl⟩
  · refine .inl ?_
    unfold getRemoteId at hr ⊢
    rw [hg k] at hr
    split_ifs at hr
    · cases hr
    · exact hr

/-- A version is recorded with its content. -/
theorem pollDone_inv (h : Inv binary s) {ino : Ino} {doc : Document} {st : Option String} {at_ : Option ℤ}
    (hshow : Shows binary s.held doc) (hs : doc.status = "done")
    (hok : ∀ rid, s.db.getRemoteId ino = some rid → binary rid = false → rid = doc.id ∧
      (doc.content = some (s.db.readAllContent ino) ∨ ∃ w ∈ s.unsent, w.ino = ino)) :
    Inv binary { s with db := s.db.setMirroredState ino doc.updatedMs st at_ } := by
  obtain ⟨htype, v, hv, hid, hupd, hcont⟩ := hshow
  have hmir : ∀ k rid u, s.db.getRemoteId k = some rid →
      (s.db.setMirroredState ino doc.updatedMs st at_).getMirrored k = some u →
        k = ino ∧ u = v.updatedMs ∨ s.db.getMirrored k = some u := by
    intro k rid u hr hm
    by_cases hk : k = ino
    · subst hk
      rw [hupd, getMirrored_set hr] at hm
      exact .inl ⟨rfl, (Option.some.inj hm).symm⟩
    · rw [getMirrored_setMirroredState, if_neg hk] at hm
      exact .inr hm
  have hcontent : ∀ k, Local binary { s with db := s.db.setMirroredState ino doc.updatedMs st at_ } k ∨
      ∃ w ∈ s.unsent, w.ino = k := by
    intro k
    by_cases hw : ∃ w ∈ s.unsent, w.ino = k
    · exact .inr hw
    · refine .inl fun rid u hr hm hb hi => ?_
      have hr' : s.db.getRemoteId k = some rid := getRemoteId_setMirroredState.symm.trans hr
      rcases hmir k rid u hr' hm with ⟨rfl, rfl⟩ | hm
      · obtain ⟨rfl, hc⟩ := hok rid hr' hb
        have hc := hc.resolve_right hw
        rw [hcont hs (htype.trans hb)] at hc
        exact ⟨v, hv, hid, le_rfl, Option.some.inj hc⟩
      · exact (h.content k).resolve_right hw rid u hr' hm hb hi
  refine ⟨h.bounded.setMirroredState, fun k rid hr hb => ?_, fun k rid u hr hm hb => ?_, hcontent, h.dirty,
    jobs_replaced (s := s) h rfl (fun _ hu => hu) fun k _ => .inr ⟨rfl, fun _ _ => Iff.rfl⟩⟩
  · exact h.user k rid (getRemoteId_setMirroredState.symm.trans hr) hb
  · have hr' : s.db.getRemoteId k = some rid := getRemoteId_setMirroredState.symm.trans hr
    rcases hmir k rid u hr' hm with ⟨rfl, rfl⟩ | hm
    · exact ⟨v, hv, hid.trans (hok rid hr' hb).1.symm, le_rfl⟩
    · exact h.known k rid u hr' hm hb

theorem poll_inv (h : Inv binary s) {row : AwaitingDone} {processing : List (String × String)}
    {terminal : Except ApiError Document} {now : ℤ} (hok : MirrorOk binary s (.poll row processing terminal now))
    (hst : step binary s (.poll row processing terminal now) = some t) : Inv binary t := by
  simp only [step] at hst
  split_ifs at hst with hans
  cases hst
  unfold pollRow
  dsimp only
  split_ifs with hstop
  · exact pollStuck_inv h
  · split
    · exact pollNone_inv h
    · rename_i hfind
      split
      · rename_i doc
        split_ifs with hdone
        · refine pollDone_inv h hans.2 hdone fun rid hr hb => ?_
          have hfetch : Fetches row processing now := ⟨hstop, fun d hd he => by
            have := List.find?_eq_none.mp hfind d (List.mem_reverse.mpr hd)
            exact this (decide_eq_true he)⟩
          obtain ⟨hrid, hc⟩ := hok hfetch doc rid rfl hdone hr hb
          exact ⟨hrid.trans hans.1.symm, hc⟩
        · exact pollNone_inv h
      · exact pollGone_inv h
      · exact pollNone_inv h

theorem step_inv (h : Inv binary s) {a : Act} (hok : MirrorOk binary s a) (hst : step binary s a = some t) :
    Inv binary t := by
  cases a with
  | write f offset data now =>
    cases hst
    exact write_inv h f offset data now
  | flush f now =>
    cases hst
    rcases (SqliteFile.flush_queue : f.flush s.db now = s.db ∨ _) with hf | ⟨p, op, rid, -, hf⟩
    · rw [hf]
      exact h
    · rw [hf]
      exact h.keep (.of_queue h _) h.jobs
  | start job =>
    simp only [step] at hst
    split_ifs at hst with hlt
    cases hst
    refine h.keep ⟨le_rfl, h.bounded, fun _ _ => .of_keeps (.refl _ _), fun _ => .inl ⟨rfl, rfl⟩,
      fun _ _ hr _ => .inl hr, rfl, rfl, List.Subset.refl _, fun w hw => (h.dirty w hw).2⟩ fun j hj => ?_
    rcases List.mem_append.mp hj with hj | hj
    · exact h.jobs j hj
    · obtain rfl := List.mem_singleton.mp hj
      refine ⟨fun ino hi => ⟨?_, hok ino hi⟩, trivial⟩
      have hi : job.contentIno = some ino := hi
      rw [hi] at hlt
      simpa using hlt
  | jobDb i now => exact jobDb_inv h hok hst
  | jobAnswer i answer timedOut v => exact jobAnswer_inv h hok hst
  | reconcile doc now => exact reconcile_inv h hok hst
  | poll row processing terminal now => exact poll_inv h hok hst
  | edit v =>
    simp only [step] at hst
    split_ifs at hst
    cases hst
    exact h.keep ⟨le_rfl, h.bounded, fun _ _ => .of_keeps (.refl _ _), fun _ => .inl ⟨rfl, rfl⟩,
      fun _ _ hr _ => .inl hr, rfl, rfl, List.subset_append_left _ _, fun w hw => (h.dirty w hw).2⟩ h.jobs

end Steps

/-- No document is binary. -/
def text (_ : String) : Bool := false

/-- A version of `d1` as the server shows it, at `/a.md`. -/
def shown (content : Bytes) (updatedAt : String) : Document :=
  ⟨"d1", some "/a.md", some content, "done", updatedAt, none, none⟩

/-- `/a.md` as the first pull left it. -/
def pulled : St where
  db := (Fs.reconcileOne Db.fresh (shown [97] "1970-01-01T00:00:01.000Z") 1000).2
  jobs := []
  count := 0
  unsent := []
  held := [⟨"d1", 1000, [97]⟩]

/-- A mount without files. -/
def empty : St := ⟨.fresh, [], 0, [], []⟩

/-- `/a.md` has been created and holds nothing yet. -/
def created : St := ⟨(Fs.createFile .fresh true ROOT_INO "a.md").2, [], 0, [], []⟩

end Mirror
end Smfs
