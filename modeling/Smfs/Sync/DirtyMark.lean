/-
# The dirty mark and the writes it protects

A local write sets `dirty_since`, and a pull leaves the file alone while that
mark is newer than the version it brings. A push job reads the content at its
start and clears the mark at its end, after up to a minute of waiting. A
write that lands in between is not in what the job sent, and loses its mark.

One inode is followed through any interleaving of writes and flushes, the
steps of the jobs, reconciles and deletions, on one clock. The writes in the
local content that no accepted push has carried are a history beside the
database; so is, for each job, how many writes there were when it read the
content. As long as no job clears the mark over a write that landed after its
read (`ClearOk`), the mark covers every such write, and neither an older
version nor a deletion touches the file (`protect`); `overwritten` is a run in
which an older version replaces a write.

Key definitions: `DirtyMark.St`, `DirtyMark.step`, `DirtyMark.Protected`, `DirtyMark.ClearOk`.
Key theorems: `DirtyMark.step_inv`, `DirtyMark.protect`, `DirtyMark.overwritten`.
-/
import Smfs.Lib.Reach
import Smfs.Ops
import Smfs.Push

namespace Smfs
namespace DirtyMark

open Trans Db PushQueue

/-- A local write to the inode: its place in the order of all of them, and
the clock when it was made. -/
structure Write where
  seq : ℕ
  time : ℤ
  deriving DecidableEq

/-- A task, and how many writes there were when it read the content. -/
structure Job where
  task : Task
  read : ℕ
  deriving DecidableEq

structure St where
  db : Db
  jobs : List Job
  now : ℤ
  count : ℕ
  uncarried : List Write
  deriving DecidableEq

inductive Act
  | tick (ms : ℕ)
  | write (f : SqliteFile) (offset : ℕ) (data : Bytes)
  | flush (f : SqliteFile)
  | claim
  | jobDb (i : ℕ)
  | jobAnswer (i : ℕ) (answer : Answer) (timedOut : Bool)
  | reconcile (doc : Document)
  | applyDeletion (remoteId : String)

/-- The content of the inode that a phase sends. -/
def sends (ino : Ino) : Phase → Bool
  | .patch i _ _ | .post i _ | .upload i _ => i = ino
  | _ => false

/-- The server accepts the content. -/
def accepts : Answer → Bool
  | .ok | .created _ => true
  | _ => false

/-- The jobs once the `i`-th has moved on to a phase, or ended. -/
def putJob (jobs : List Job) (i : ℕ) (j : Job) : Option Phase → List Job
  | some phase => jobs.set i { j with task := { j.task with phase := phase } }
  | none => jobs.eraseIdx i

/-- The history of a write: bytes that are in the file are not yet carried. -/
def wrote (ino : Ino) (s : St) (f : SqliteFile) (offset : ℕ) (data : Bytes) : St :=
  match f.write s.db offset data s.now with
  | (.ok (_ + 1), db) =>
    if f.ino = ino then
      { s with db := db, count := s.count + 1, uncarried := s.uncarried ++ [⟨s.count, s.now⟩] }
    else { s with db := db }
  | (_, db) => { s with db := db }

/-- One step. A version of the server has a time; where it replaces the
content, no write is left in it. -/
def step (ino : Ino) (s : St) : Act → Option St
  | .tick ms => some { s with now := s.now + ms }
  | .write f offset data => some (wrote ino s f offset data)
  | .flush f => some { s with db := f.flush s.db s.now }
  | .claim =>
    (s.db.queue.claimNext s.now).map fun (j, q) =>
      { s with db := { s.db with queue := q }, jobs := s.jobs ++ [⟨⟨j, .start⟩, s.count⟩] }
  | .jobDb i =>
    (s.jobs[i]?).bind fun j =>
      (Task.dbStep s.db j.task.job s.now j.task.phase).map fun (db, next) =>
        let j := { j with read := if j.task.phase = .start then s.count else j.read }
        { s with db := db, jobs := putJob s.jobs i j next }
  | .jobAnswer i answer timedOut =>
    (s.jobs[i]?).bind fun j =>
      (Task.answered j.task.job timedOut j.task.phase answer).map fun next =>
        { s with jobs := putJob s.jobs i j (some next),
                 uncarried := if sends ino j.task.phase && accepts answer
                   then s.uncarried.filter (j.read ≤ ·.seq) else s.uncarried }
  | .reconcile doc =>
    if doc.updatedMs.isSome then
      let db := (Fs.reconcileOne s.db doc s.now).2
      some { s with db := db,
                    uncarried := if db.readAllContent ino = s.db.readAllContent ino then s.uncarried
                      else [] }
    else none
  | .applyDeletion rid => some { s with db := (Fs.applyDeletion s.db rid).2 }

/-- The mark covers every write that no accepted push has carried. -/
def Covered (ino : Ino) (s : St) : Prop :=
  ∀ w ∈ s.uncarried, ∃ t, s.db.getDirtySince ino = some t ∧ w.time ≤ t

/-- The mark covers the writes, so an older version and a deletion leave the
file as it is. -/
structure Protected (ino : Ino) (s : St) : Prop where
  covered : Covered ino s
  older : ∀ doc u, doc.updatedMs = some u → (∃ w ∈ s.uncarried, u < w.time) →
    Keeps ino s.db (Fs.reconcileOne s.db doc s.now).2
  deletion : ∀ rid, s.uncarried ≠ [] → Keeps ino s.db (Fs.applyDeletion s.db rid).2

/-- Where a job clears the mark, no write that landed after its read is still
to be carried. -/
def ClearOk (ino : Ino) (s : St) : Act → Prop
  | .jobDb i => ∀ j, s.jobs[i]? = some j → j.task.phase = .clearDirty ino →
      ∀ w ∈ s.uncarried, w.seq < j.read
  | _ => True

/-- A regular file of the user, and no write or job yet. -/
structure Start (ino : Ino) (s : St) : Prop where
  known : ino < s.db.nextIno
  user : Fs.NotDerived s.db ino
  jobs : s.jobs = []
  uncarried : s.uncarried = []

/-! ### The invariant -/

/-- The server has accepted the content of the inode that the job read. -/
def accepted (ino : Ino) : Phase → Bool
  | .mapInode i _ | .mapRow i _ | .markMirrored i | .clearDirty i => i = ino
  | .wait _ next => accepted ino next
  | _ => false

/-- What a job has sent is carried: only later writes are not. -/
def Sent (ino : Ino) (s : St) (j : Job) : Prop :=
  j.read ≤ s.count ∧ (accepted ino j.task.phase = true → ∀ w ∈ s.uncarried, j.read ≤ w.seq)

structure Inv (ino : Ino) (s : St) : Prop where
  known : ino < s.db.nextIno
  user : Fs.NotDerived s.db ino
  covered : Covered ino s
  past : ∀ w ∈ s.uncarried, w.time ≤ s.now ∧ w.seq < s.count
  sent : ∀ j ∈ s.jobs, Sent ino s j

theorem Start.inv {ino : Ino} {s : St} (h : Start ino s) : Inv ino s where
  known := h.known
  user := h.user
  covered := fun w hw => by rw [h.uncarried] at hw; cases hw
  past := fun w hw => by rw [h.uncarried] at hw; cases hw
  sent := fun j hj => by rw [h.jobs] at hj; cases hj

/-- A step that keeps the file, and at most carries writes. -/
theorem Inv.keep {ino : Ino} {s t : St} (h : Inv ino s) (hk : Keeps ino s.db t.db) (hn : s.now ≤ t.now)
    (hc : s.count = t.count) (hu : ∀ w ∈ t.uncarried, w ∈ s.uncarried)
    (hj : ∀ j ∈ t.jobs, Sent ino t j) : Inv ino t where
  known := h.known.trans_le hk.next
  user := h.user.keeps hk
  covered := fun w hw => by
    rw [hk.dirty]
    exact h.covered w (hu w hw)
  past := fun w hw => by
    have := h.past w (hu w hw)
    rw [← hc]
    exact ⟨this.1.trans hn, this.2⟩
  sent := hj

theorem Sent.mono {ino : Ino} {s t : St} {j : Job} (h : Sent ino s j) (hc : s.count ≤ t.count)
    (hu : ∀ w ∈ t.uncarried, w ∈ s.uncarried ∨ j.read ≤ w.seq) : Sent ino t j :=
  ⟨h.1.trans hc, fun ha w hw => (hu w hw).elim (h.2 ha w) id⟩

theorem begin_accepted {ino : Ino} {db : Db} {j : PushJob} : accepted ino (Task.begin db j) = false := by
  unfold Task.begin
  cases j.op with
  | create | update =>
    cases j.contentIno with
    | none => rfl
    | some ino =>
      dsimp only
      split_ifs
      · rfl
      · cases j.remoteId <;> rfl
  | uploadBinary => cases j.contentIno <;> rfl
  | delete => rfl
  | rename =>
    cases j.renameTo with
    | none => rfl
    | some newFp => cases j.remoteId <;> rfl

/-- Only the server makes a content accepted. -/
theorem dbStep_accepted {ino : Ino} {db db' : Db} {j : PushJob} {now : ℤ} {ph next : Phase}
    (h : Task.dbStep db j now ph = some (db', some next)) (ha : accepted ino next = true) :
    ph ≠ .start ∧ accepted ino ph = true := by
  cases ph with
  | start =>
    cases h
    rw [begin_accepted] at ha
    cases ha
  | mapInode | mapRow | markMirrored => cases h; exact ⟨Phase.noConfusion, ha⟩
  | clearDirty | clearRemoteId => cases h; cases ha
  | poison status body b =>
    cases b
    · cases h
    · cases h; cases ha
  | succeed | fail | sibling | drop => cases h
  | wait | patch | post | upload | delete | lookup | rename => cases h

theorem answered_accepted {ino : Ino} {j : PushJob} {timedOut : Bool} {ph next : Phase} {a : Answer}
    (h : Task.answered j timedOut ph a = some next) (ha : accepted ino next = true) :
    accepted ino ph = true ∨ sends ino ph = true ∧ accepts a = true := by
  unfold Task.answered at h
  split at h <;> (try split_ifs at h) <;> (try split at h) <;> cases h <;>
    first | exact .inl ha | exact .inr ⟨ha, rfl⟩

theorem sent_putJob {ino : Ino} {s t : St} {i : ℕ} {j' : Job} {next : Option Phase}
    (hj' : ∀ ph, next = some ph → Sent ino t { j' with task := { j'.task with phase := ph } })
    (hrest : ∀ k ∈ s.jobs, Sent ino t k) : ∀ k ∈ putJob s.jobs i j' next, Sent ino t k := by
  intro k hk
  cases next with
  | none => exact hrest k (List.mem_of_mem_eraseIdx hk)
  | some ph =>
    rcases List.mem_or_eq_of_mem_set hk with hk | rfl
    · exact hrest k hk
    · exact hj' ph rfl

theorem write_inv {ino : Ino} {s : St} (h : Inv ino s) (f : SqliteFile) (offset : ℕ) (data : Bytes) :
    Inv ino (wrote ino s f offset data) := by
  unfold wrote
  split
  · rename_i n db hw
    split_ifs with hf
    · subst hf
      obtain ⟨hn, x, size, hx, hx'⟩ := SqliteFile.write_file hw
      refine ⟨by rw [hn]; exact h.known, fun y hy => ?_, fun w hw => ?_, fun w hw => ?_, fun j hj => ?_⟩
      · rw [hx'] at hy
        cases hy
        exact h.user x hx
      · refine ⟨s.now, by rw [getDirtySince_eq, hx']; rfl, ?_⟩
        rcases List.mem_append.mp hw with hw | hw
        · exact (h.past w hw).1
        · obtain rfl := List.mem_singleton.mp hw
          exact le_rfl
      · rcases List.mem_append.mp hw with hw | hw
        · exact ⟨(h.past w hw).1, Nat.lt_succ_of_lt (h.past w hw).2⟩
        · obtain rfl := List.mem_singleton.mp hw
          exact ⟨le_rfl, Nat.lt_succ_self _⟩
      · refine (h.sent j hj).mono (Nat.le_succ _) fun w hw => ?_
        rcases List.mem_append.mp hw with hw | hw
        · exact .inl hw
        · obtain rfl := List.mem_singleton.mp hw
          exact .inr (h.sent j hj).1
    · have hk : Keeps ino s.db (f.write s.db offset data s.now).2 := SqliteFile.write_keeps (Ne.symm hf)
      rw [hw] at hk
      exact h.keep hk le_rfl rfl (fun _ => id) fun j hj => (h.sent j hj).mono le_rfl fun _ => .inl
  · rename_i r db hne hw
    have hdb : (f.write s.db offset data s.now).2 = s.db := by
      refine SqliteFile.write_none fun n he => hne n ?_
      rw [hw] at he
      exact he
    rw [hw] at hdb
    exact h.keep (hdb ▸ .refl _ _) le_rfl rfl (fun _ => id) fun j hj =>
      (h.sent j hj).mono le_rfl fun _ => .inl

theorem jobDb_inv {ino : Ino} {s t : St} (h : Inv ino s) {i : ℕ} (hok : ClearOk ino s (.jobDb i))
    (hst : step ino s (.jobDb i) = some t) : Inv ino t := by
  simp only [step] at hst
  obtain ⟨j, hj, hst⟩ := Option.bind_eq_some_iff.mp hst
  obtain ⟨⟨db, next⟩, hd, rfl⟩ := Option.map_eq_some_iff.mp hst
  have hmem := List.mem_of_getElem? hj
  have hjobs : ∀ k ∈ putJob s.jobs i { j with read := if j.task.phase = .start then s.count else j.read }
      next, Sent ino s k := by
    refine sent_putJob (fun ph hph => ?_) h.sent
    subst hph
    refine ⟨?_, fun ha => ?_⟩
    · dsimp only
      split_ifs
      · exact le_rfl
      · exact (h.sent j hmem).1
    · obtain ⟨hne, hacc⟩ := dbStep_accepted hd ha
      dsimp only
      rw [if_neg hne]
      exact (h.sent j hmem).2 hacc
  by_cases hph : j.task.phase = .clearDirty ino
  · -- every write still to be carried landed before the read, and was carried
    have hnone : s.uncarried = [] := by
      refine List.eq_nil_iff_forall_not_mem.mpr fun w hw => ?_
      have hlt := hok j hj hph w hw
      have hle := (h.sent j hmem).2 (by rw [hph]; simp [accepted]) w hw
      omega
    rw [hph] at hd
    cases hd
    refine ⟨h.known, fun x hx => ?_, fun w hw => ?_, h.past, hjobs⟩
    · have hf : (s.db.setDirtySince ino none).fileOf ino =
          (s.db.fileOf ino).map fun x => { x with dirtySince := none } := by
        unfold fileOf setDirtySince
        rw [getInode_updInode, if_pos rfl]
        · cases s.db.getInode ino <;> rfl
        · exact fun _ => rfl
      rw [hf] at hx
      obtain ⟨y, hy, rfl⟩ := Option.map_eq_some_iff.mp hx
      exact h.user y hy
    · have : w ∈ s.uncarried := hw
      rw [hnone] at this
      cases this
  · exact h.keep (Task.dbStep_keeps h.known h.user hph hd) le_rfl rfl (fun _ => id) hjobs

theorem jobAnswer_inv {ino : Ino} {s t : St} (h : Inv ino s) {i : ℕ} {a : Answer} {timedOut : Bool}
    (hst : step ino s (.jobAnswer i a timedOut) = some t) : Inv ino t := by
  simp only [step] at hst
  obtain ⟨j, hj, hst⟩ := Option.bind_eq_some_iff.mp hst
  obtain ⟨next, hn, ht⟩ := Option.map_eq_some_iff.mp hst
  have hmem := List.mem_of_getElem? hj
  have hun : t.uncarried = if (sends ino j.task.phase && accepts a) = true
      then s.uncarried.filter (j.read ≤ ·.seq) else s.uncarried := by rw [← ht]
  have hsub : ∀ w ∈ t.uncarried, w ∈ s.uncarried := by
    intro w hw
    rw [hun] at hw
    split_ifs at hw
    · exact (List.mem_filter.mp hw).1
    · exact hw
  have hc : s.count = t.count := by rw [← ht]
  have hjobs : t.jobs = putJob s.jobs i j (some next) := by rw [← ht]
  refine h.keep (by rw [← ht]; exact .refl _ _) (by rw [← ht]) hc hsub ?_
  rw [hjobs]
  refine sent_putJob (fun ph hph => ?_) fun k hk =>
    (h.sent k hk).mono hc.le fun w hw => .inl (hsub w hw)
  cases hph
  refine ⟨hc ▸ (h.sent j hmem).1, fun ha w hw => ?_⟩
  rcases answered_accepted hn ha with hacc | ⟨hs, hacc⟩
  · exact (h.sent j hmem).2 hacc w (hsub w hw)
  · rw [hun, hs, hacc] at hw
    simpa using (List.mem_filter.mp hw).2

theorem deletion_keeps {ino : Ino} {s : St} (hc : Covered ino s) (hne : s.uncarried ≠ []) (rid : String) :
    Keeps ino s.db (Fs.applyDeletion s.db rid).2 := by
  obtain ⟨w, hw⟩ := List.exists_mem_of_ne_nil _ hne
  obtain ⟨d, hd, -⟩ := hc w hw
  exact Fs.applyDeletion_keeps (by rw [hd]; rfl)

theorem step_inv (ino : Ino) (s : St) (a : Act) (t : St) (h : Inv ino s) (hok : ClearOk ino s a)
    (hst : step ino s a = some t) : Inv ino t := by
  have hsent : ∀ {t : St}, s.count = t.count → (∀ w ∈ t.uncarried, w ∈ s.uncarried) →
      ∀ j ∈ s.jobs, Sent ino t j := fun hc hu j hj =>
    (h.sent j hj).mono hc.le fun w hw => .inl (hu w hw)
  cases a with
  | tick ms =>
    cases hst
    exact h.keep (.refl _ _) (by dsimp only; omega) rfl (fun _ => id) (hsent rfl fun _ => id)
  | write f offset data => cases hst; exact write_inv h f offset data
  | flush f =>
    cases hst
    exact h.keep SqliteFile.flush_keeps le_rfl rfl (fun _ => id) (hsent rfl fun _ => id)
  | claim =>
    simp only [step] at hst
    obtain ⟨⟨j, q⟩, hc, rfl⟩ := Option.map_eq_some_iff.mp hst
    refine h.keep (.of_eq rfl rfl rfl) le_rfl rfl (fun _ => id) fun k hk => ?_
    rcases List.mem_append.mp hk with hk | hk
    · exact h.sent k hk
    · obtain rfl := List.mem_singleton.mp hk
      exact ⟨le_rfl, fun ha => by cases ha⟩
  | jobDb i => exact jobDb_inv h hok hst
  | jobAnswer i a timedOut => exact jobAnswer_inv h hst
  | reconcile doc =>
    simp only [step] at hst
    split at hst
    · obtain rfl := Option.some.inj hst
      have hm : Fs.Mirrors ino doc s.db (Fs.reconcileOne s.db doc s.now).2 :=
        (Fs.reconcileOne_mirrors h.known h.user).1
      have hsub : ∀ w ∈ (if (Fs.reconcileOne s.db doc s.now).2.readAllContent ino =
          s.db.readAllContent ino then s.uncarried else []), w ∈ s.uncarried := by
        intro w hw
        split_ifs at hw
        · exact hw
        · cases hw
      refine ⟨h.known.trans_le hm.next, hm.notDerived h.user, fun w hw => ?_,
        fun w hw => h.past w (hsub w hw), hsent rfl hsub⟩
      show ∃ d, (Fs.reconcileOne s.db doc s.now).2.getDirtySince ino = some d ∧ _
      rw [hm.dirty]
      exact h.covered w (hsub w hw)
    · cases hst
  | applyDeletion rid =>
    cases hst
    by_cases hne : s.uncarried = []
    · obtain ⟨hn, hf⟩ : (Fs.applyDeletion s.db rid).2.nextIno = s.db.nextIno ∧ (_ ∨ _) :=
        Fs.applyDeletion_file (i := ino)
      refine ⟨by dsimp only; rw [hn]; exact h.known, fun x hx => ?_, fun w hw => ?_, h.past, h.sent⟩
      · rcases hf with hf | hf
        · exact h.user x (hf ▸ hx)
        · rw [hf] at hx
          cases hx
      · have hw : w ∈ s.uncarried := hw
        rw [hne] at hw
        cases hw
    · exact h.keep (deletion_keeps h.covered hne rid) le_rfl rfl (fun _ => id) (hsent rfl fun _ => id)

/-! ### The result -/

theorem Inv.protected {ino : Ino} {s : St} (h : Inv ino s) : Protected ino s where
  covered := h.covered
  older := fun doc u hu ⟨w, hw, hlt⟩ => by
    obtain ⟨d, hd, hle⟩ := h.covered w hw
    have hdirty : Fs.dirtyNewer s.db ino doc = true := by
      simp only [Fs.dirtyNewer, hd, hu, decide_eq_true_eq]
      exact hlt.trans_le hle
    exact (Fs.reconcileOne_mirrors h.known h.user).2 hdirty
  deletion := fun rid hne => deletion_keeps h.covered hne rid

/-- A write that is left without its mark is not covered. -/
theorem covered_breaks {ino : Ino} {s t : St} {a : Act} (hst : step ino s a = some t)
    (ht : Covered ino t) : ClearOk ino s a := by
  cases a with
  | jobDb i =>
    intro j hj hph w hw
    simp only [step, hj, Option.bind_some, hph, Task.dbStep, Option.map_some, Option.some.injEq] at hst
    subst hst
    obtain ⟨d, hd, -⟩ := ht w hw
    have hnone : (s.db.setDirtySince ino none).getDirtySince ino = none := by
      unfold getDirtySince setDirtySince
      rw [getInode_updInode, if_pos rfl]
      · cases s.db.getInode ino <;> rfl
      · exact fun _ => rfl
    rw [hnone] at hd
    cases hd
  | tick | write | flush | claim | jobAnswer | reconcile | applyDeletion => trivial

/-- **Local writes are protected, exactly when no job clears the mark over a
write that landed after its read.** Until then the mark covers every write
that no accepted push has carried, so that no older version and no deletion
touches the file; and the first job that does clear it so leaves a write
uncovered. -/
theorem protect (ino : Ino) (s₀ : St) (h₀ : Start ino s₀) :
    (∀ s, Reach (step ino) (ClearOk ino) s₀ s → Protected ino s) ∧
    ∀ s a t, Reach (step ino) (ClearOk ino) s₀ s → step ino s a = some t →
      (Protected ino t ↔ ClearOk ino s a) := by
  refine ⟨fun s h => (h.inv h₀.inv (step_inv ino)).protected, fun s a t h hst => ?_⟩
  have hi := h.inv h₀.inv (step_inv ino)
  exact ⟨fun ht => covered_breaks hst ht.covered, fun hok => (step_inv ino s a t hi hok hst).protected⟩

/-- The version of `/a.md` that the server has at a time. -/
def version (content : Bytes) (updatedAt : String) : Document :=
  ⟨"d1", some "/a.md", some content, "done", updatedAt, some "text", none⟩

/-- `/a.md` as the first pull left it, one second after the epoch. -/
def pulled : St :=
  ⟨(Fs.reconcileOne Db.fresh (version [97] "1970-01-01T00:00:01.000Z") 1000).2, [], 1000, 0, []⟩

def handle : SqliteFile := ⟨2, true, some "/a.md"⟩

theorem pulled_start : Start 2 pulled where
  known := by decide
  user := fun x hx => by cases hx; rfl
  jobs := rfl
  uncarried := rfl

theorem protect_written : Protected 2 (wrote 2 pulled handle 0 [98]) :=
  (protect 2 pulled pulled_start).1 _ (.next (a := .write handle 0 [98]) .start trivial rfl)

/-- A write is flushed and pushed; another one lands once the server has the
first; the job clears the mark; and the version that the push made comes
back with a pull. -/
def overwrittenRun : List Act :=
  [.tick 1000, .write handle 0 [98], .flush handle, .tick 500, .claim, .jobDb 0,
   .jobAnswer 0 (.status "done") false, .jobAnswer 0 .ok false, .tick 500, .write handle 0 [99],
   .flush handle, .jobAnswer 0 (.status "done") false, .jobDb 0, .jobDb 0]

/-- Without the condition the second write has no mark, and the version of
half a second before it replaces it. -/
theorem overwritten :
    ¬ (∀ s, Reach (step 2) anyStep pulled s → Protected 2 s) ∧
    (run (step 2) anyStep pulled (overwrittenRun ++
        [.reconcile (version [98] "1970-01-01T00:00:02.500Z")])).map (·.db.readAllContent 2) =
      some [98] := by
  refine ⟨fun h => ?_, by decide⟩
  obtain ⟨s, hs, hp⟩ : ∃ s, Reach (step 2) anyStep pulled s ∧
      ((s.db.getDirtySince 2).isNone && decide (s.uncarried = [⟨1, 3000⟩])) = true :=
    Reach.exists_of_run overwrittenRun (by decide)
  simp only [Bool.and_eq_true, Option.isNone_iff_eq_none, decide_eq_true_eq] at hp
  obtain ⟨d, hd, -⟩ := (h s hs).covered ⟨1, 3000⟩ (by rw [hp.2]; exact List.mem_singleton_self _)
  rw [hp.1] at hd
  cases hd

end DirtyMark
end Smfs
