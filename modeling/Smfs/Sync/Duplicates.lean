/-
# One document for a file

A file is written and flushed at its path while its jobs run, fail, wait and
get 404s. `process_job` looks at the id of its row only once it has found the
content to be text: a binary content is uploaded as a new document even where
the file has one. The id of a new document is known at the mount only once the
answer has arrived; where it gets lost, the next attempt makes a second one.

In a run without these two (`PostOk`) the mapping and the row name the
document of the file at every moment except while an answer is being written
down, so a document is made only where the file has none (`posts_once`).

Key definitions: `Duplicates.Mine`, `Duplicates.Names`, `Duplicates.PostOk`, `Duplicates.Inv`.
Key theorems: `Duplicates.begin_phase`, `Duplicates.serve_phase`, `Duplicates.step_inv`,
`Duplicates.posts_once`, `Duplicates.duplicated`.
-/
import Smfs.Sync.Drain

namespace Smfs
namespace Duplicates

open Trans Db PushQueue Drain

/-- What may happen to the file, to its jobs and on the server. -/
inductive Act
  | write (offset : ℕ) (data : Bytes) (nowMs : ℤ)
  | truncate (size : ℕ)
  | flush (nowMs : ℤ)
  | claim (nowMs : ℤ)
  | taskDb (i : ℕ) (nowMs : ℤ)
  | serve (i : ℕ) (newId : String) (heard : Option ApiError) (timedOut : Bool)
  | fail (i : ℕ) (e : ApiError) (timedOut : Bool)
  | finish (id : String)
  /-- A document is deleted on the server. -/
  | remove (id : String)

def step (f : SqliteFile) (s : St) : Act → Option St
  | .write offset data now => (s.mount.step (.write f offset data now)).map fun m => { s with mount := m }
  | .truncate size => (s.mount.step (.truncate f size)).map fun m => { s with mount := m }
  | .flush now => (s.mount.step (.flush f now)).map fun m => { s with mount := m }
  | .claim now => Drain.step s (.claim now)
  | .taskDb i now => Drain.step s (.taskDb i now)
  | .serve i newId heard timedOut =>
    -- a 404 is the server's own answer
    if heard = some .notFound then none else Drain.step s (.serve i newId heard timedOut)
  | .fail i e timedOut => if e = .notFound then none else Drain.step s (.fail i e timedOut)
  | .finish id => Drain.step s (.finish id)
  | .remove id => some { s with server := Table.erase ServerDoc.id s.server id }

/-- The file's documents: those at its path, and the one it was mapped to at first. -/
def Mine (p : String) (r : Option String) (d : ServerDoc) : Prop := d.filepath = p ∨ r = some d.id

/-- An id, or its absence, names the file's documents on the server. -/
def Names (p : String) (r : Option String) (server : Server) (o : Option String) : Prop :=
  ∀ d ∈ server, Mine p r d ↔ o = some d.id

/-- Nothing is queued, and no document at the path is unknown to the mount. -/
structure Start (f : SqliteFile) (p : String) (r : Option String) (s : St) : Prop where
  path : f.filepath = some p
  mapped : s.mount.db.getRemoteId f.ino = r
  queue : s.mount.db.queue.WF
  sorted : s.mount.db.remotes.Pairwise fun a b => a.ino < b.ino
  rows : s.mount.db.queue.rows = []
  tasks : s.mount.tasks = []
  docs : ∀ d ∈ s.server, d.filepath = p → r = some d.id

/-- A job that has the id of a document on the server finds its content to be
text, and the answer of a request that has made a document arrives. -/
def PostOk (s : St) : Act → Prop
  | .taskDb i _ => ∀ k ∈ s.mount.tasks[i]?, k.phase = .start → ∀ ino ∈ k.job.contentIno,
      validUtf8 (s.mount.db.readAllContent ino) = false → ∀ id ∈ k.job.remoteId, s.server.get id = none
  | .serve i _ heard _ => ∀ kc ∈ request s i, creates kc.2 = true → heard = none
  | _ => True

instance : DecidableRel PostOk
  | s, .taskDb i _ => inferInstanceAs (Decidable (∀ k ∈ s.mount.tasks[i]?, k.phase = .start → ∀ ino ∈ k.job.contentIno,
      validUtf8 (s.mount.db.readAllContent ino) = false → ∀ id ∈ k.job.remoteId, s.server.get id = none))
  | s, .serve i _ heard _ => inferInstanceAs (Decidable (∀ kc ∈ request s i, creates kc.2 = true → heard = none))
  | _, .write .. | _, .truncate _ | _, .flush _ | _, .claim _ | _, .fail .. | _, .finish _ | _,
    .remove _ => isTrue trivial

/-- A document is made only where the file has none and neither the mapping
nor the row has the id of one, and no two documents are at the path. -/
structure Single (f : SqliteFile) (p : String) (r : Option String) (s : St) : Prop where
  posts : ∀ i, ∀ kc ∈ request s i, creates kc.2 = true → ∀ d ∈ s.server,
    ¬ Mine p r d ∧ s.mount.db.getRemoteId f.ino ≠ some d.id ∧
      ∀ x, s.mount.db.queue.get p = some x → x.remoteId ≠ some d.id
  paths : ∀ d ∈ s.server, ∀ e ∈ s.server, d.filepath = p → e.filepath = p → d.id = e.id

/-! ### The invariant -/

/-- A push of the file's content. -/
def Saves (f : SqliteFile) (pl : Payload) : Prop := (pl.op = .create ∨ pl.op = .update) ∧ pl.contentIno = some f.ino

def SavesRow (f : SqliteFile) (x : PushRow) : Prop := Saves f x.main ∧ ∀ pl, x.pending = some pl → Saves f pl

/-- The mapping and the row name the file's documents. -/
def Settled (f : SqliteFile) (p : String) (r : Option String) (s : St) : Prop :=
  Names p r s.server (s.mount.db.getRemoteId f.ino) ∧
    ∀ x, s.mount.db.queue.get p = some x → Names p r s.server x.remoteId

/-- What holds in each phase of a job; while it writes an answer down, the
mapping and the row are behind. -/
def PhaseOk (f : SqliteFile) (p : String) (r : Option String) (s : St) (rid : Option String) : Phase → Prop
  | .start => Settled f p r s ∧ Names p r s.server rid
  | .wait _ next => PhaseOk f p r s rid next
  | .patch _ _ id => Settled f p r s ∧ Names p r s.server (some id)
  | .post ino _ | .upload ino _ => ino = f.ino ∧ Settled f p r s ∧ Names p r s.server none
  | .clearRemoteId _ => Settled f p r s ∧ Names p r s.server none
  | .mapInode ino id => ino = f.ino ∧ Names p r s.server (some id)
  | .mapRow _ id => Names p r s.server (some id) ∧ Names p r s.server (s.mount.db.getRemoteId f.ino)
  | .markMirrored _ | .clearDirty _ | .succeed | .fail .. | .poison .. => Settled f p r s
  | _ => False

/-- A task that has done its calls on the row, and has the error sibling to leave. -/
def Over (ph : Phase) : Prop := ∃ status body, ph = .sibling status body

structure Inv (f : SqliteFile) (p : String) (r : Option String) (s : St) : Prop where
  queue : s.mount.db.queue.WF
  sorted : s.mount.db.remotes.Pairwise fun a b => a.ino < b.ino
  rows : ∀ q x, s.mount.db.queue.get q = some x → q = p ∧ SavesRow f x
  jobs : ∀ k ∈ s.mount.tasks, k.job.filepath = p ∧ Saves f k.job.payload
  ended : ∀ k ∈ s.mount.tasks, k.phase.owes = false → Over k.phase
  one : AtMostOne (fun k => k.phase.owes) s.mount.tasks
  held : ∀ k ∈ s.mount.tasks, k.phase.owes = true → s.mount.db.queue.inflight p = true
  phase : ∀ k ∈ s.mount.tasks, k.phase.owes = true → PhaseOk f p r s k.job.remoteId k.phase
  settled : (∀ k ∈ s.mount.tasks, k.phase.owes = false) → Settled f p r s

section Lemmas

variable {f : SqliteFile} {p : String} {r o : Option String} {s t : St} {db db' : Db} {k : Task} {nowMs : ℤ}

theorem Start.inv (h : Start f p r s) : Inv f p r s := by
  have hnone : ∀ q x, s.mount.db.queue.get q ≠ some x := by
    intro q x hx
    have hmem := (get_some hx).1
    rw [h.rows] at hmem
    cases hmem
  have hno : ∀ k ∈ s.mount.tasks, False := by
    intro k hk
    rw [h.tasks] at hk
    cases hk
  refine ⟨h.queue, h.sorted, fun q x hx => (hnone q x hx).elim, fun k hk => (hno k hk).elim,
    fun k hk => (hno k hk).elim, ?_, fun k hk => (hno k hk).elim, fun k hk => (hno k hk).elim,
      fun _ => ⟨fun d hd => ?_, fun x hx => (hnone p x hx).elim⟩⟩
  · intro i j a b ha
    exact (hno a (List.mem_of_getElem? ha)).elim
  · rw [h.mapped]
    exact ⟨fun hm => hm.elim (h.docs d hd) id, .inr⟩

/-! ### Documents -/

/-- Documents that were there, or are as theirs were. -/
def Docs (p : String) (r : Option String) (server server' : Server) : Prop :=
  ∀ d' ∈ server', ∃ d ∈ server, d'.id = d.id ∧ (Mine p r d' ↔ Mine p r d)

theorem Docs.refl (server : Server) : Docs p r server server := fun d hd => ⟨d, hd, rfl, Iff.rfl⟩

theorem Names.docs {server server' : Server} (h : Names p r server o) (hd : Docs p r server server') :
    Names p r server' o := by
  intro d' hd'
  obtain ⟨d, hmem, hid, hmine⟩ := hd d' hd'
  rw [hmine, hid]
  exact h d hmem

/-- Where the file has no document, an id that named its documents may go. -/
theorem Names.clear {server : Server} {o' : Option String} (h : Names p r server o) (hnone : Names p r server none)
    (ho : o' = o ∨ o' = none) : Names p r server o' := by
  rcases ho with rfl | rfl
  · exact h
  · exact hnone

theorem Names.or {server : Server} {o' : Option String} (h : Names p r server o) (h' : Names p r server o') :
    Names p r server (o.or o') := by
  cases o with
  | none => exact h'
  | some id => exact h

theorem docs_finish {server : Server} {id : String} : Docs p r server (Server.finish server id) := by
  intro d' hd'
  obtain ⟨d, hd, rfl⟩ := Table.mem_modify.mp hd'
  refine ⟨d, hd, ?_⟩
  split_ifs <;> exact ⟨rfl, Iff.rfl⟩

theorem docs_erase {server : Server} {id : String} : Docs p r server (Table.erase ServerDoc.id server id) :=
  fun d hd => ⟨d, (Table.mem_erase.mp hd).1, rfl, Iff.rfl⟩

/-- A `PATCH` of the file's document leaves it the file's document. -/
theorem docs_patched {server : Server} {id : String} {b : Option Bytes} (h : Names p r server (some id)) :
    Docs p r server (Table.modify ServerDoc.id server id (Server.patched p b)) := by
  intro d' hd'
  obtain ⟨d, hd, rfl⟩ := Table.mem_modify.mp hd'
  refine ⟨d, hd, ?_⟩
  by_cases hid : d.id = id
  · rw [if_pos hid]
    refine ⟨rfl, fun _ => (h d hd).mpr (congrArg some hid.symm), fun _ => .inl rfl⟩
  · rw [if_neg hid]
    exact ⟨rfl, Iff.rfl⟩

/-- A document that is made at the path is the file's only one. -/
theorem names_created {server : Server} {newId : String} {b : Bytes} (h : Names p r server none)
    (hnew : server.get newId = none) : Names p r (server ++ [⟨newId, p, b, false⟩]) (some newId) := by
  intro d hd
  rcases List.mem_append.mp hd with hd | hd
  · have hne : newId ≠ d.id := fun he => Table.get_none.mp hnew d hd he.symm
    refine ⟨fun hm => ?_, fun he => absurd (Option.some.inj he) hne⟩
    cases (h d hd).mp hm
  · obtain rfl := List.mem_singleton.mp hd
    exact ⟨fun _ => rfl, fun _ => .inl rfl⟩

/-- An id whose document is gone names no document. -/
theorem Names.gone {server : Server} {id : String} (h : Names p r server (some id)) (hg : server.get id = none) :
    Names p r server none := by
  intro d hd
  refine ⟨fun hm => ?_, fun he => by cases he⟩
  exact absurd (Option.some.inj ((h d hd).mp hm)).symm (Table.get_none.mp hg d hd)

/-! ### Phases -/

/-- What a step leaves of what the phases speak of. -/
structure Frame (f : SqliteFile) (p : String) (r : Option String) (s t : St) : Prop where
  remote : t.mount.db.getRemoteId f.ino = s.mount.db.getRemoteId f.ino
  row : ∀ x', t.mount.db.queue.get p = some x' → ∃ x, s.mount.db.queue.get p = some x ∧ x'.remoteId = x.remoteId
  docs : Docs p r s.server t.server

theorem Settled.mapped (h : Settled f p r s) : Names p r s.server (s.mount.db.getRemoteId f.ino) := h.1

theorem Settled.frame (h : Settled f p r s) (hf : Frame f p r s t) : Settled f p r t := by
  refine ⟨?_, fun x' hx' => ?_⟩
  · rw [hf.remote]
    exact h.1.docs hf.docs
  · obtain ⟨x, hx, he⟩ := hf.row x' hx'
    rw [he]
    exact (h.2 x hx).docs hf.docs

theorem PhaseOk.frame (hf : Frame f p r s t) : ∀ {ph : Phase}, PhaseOk f p r s o ph → PhaseOk f p r t o ph := by
  intro ph
  induction ph with
  | start => exact fun h => ⟨h.1.frame hf, h.2.docs hf.docs⟩
  | wait id next ih => exact ih
  | patch ino b id => exact fun h => ⟨h.1.frame hf, h.2.docs hf.docs⟩
  | post | upload => exact fun h => ⟨h.1, h.2.1.frame hf, h.2.2.docs hf.docs⟩
  | clearRemoteId id => exact fun h => ⟨h.1.frame hf, h.2.docs hf.docs⟩
  | mapInode => exact fun h => ⟨h.1, h.2.docs hf.docs⟩
  | mapRow =>
    intro h
    refine ⟨h.1.docs hf.docs, ?_⟩
    rw [hf.remote]
    exact h.2.docs hf.docs
  | markMirrored | clearDirty | succeed | fail | poison => exact fun h => Settled.frame h hf
  | delete | lookup | rename | sibling | drop => exact id

/-- A step that moves no task. -/
theorem Inv.frame (h : Inv f p r s) (hf : Frame f p r s t) (ht : t.mount.tasks = s.mount.tasks)
    (hq : t.mount.db.queue = s.mount.db.queue) (hr : t.mount.db.remotes = s.mount.db.remotes) : Inv f p r t where
  queue := by rw [hq]; exact h.queue
  sorted := by rw [hr]; exact h.sorted
  rows := by rw [hq]; exact h.rows
  jobs := by rw [ht]; exact h.jobs
  ended := by rw [ht]; exact h.ended
  one := by rw [ht]; exact h.one
  held := by rw [ht, hq]; exact h.held
  phase := by
    intro k hk ho
    rw [ht] at hk
    exact (h.phase k hk ho).frame hf
  settled := by
    intro hidle
    rw [ht] at hidle
    exact (h.settled hidle).frame hf

/-- The task that has the row goes on, or ends. -/
theorem Inv.moved (h : Inv f p r s) {i : ℕ} (hk : s.mount.tasks[i]? = some k) (ho : k.phase.owes = true)
    {next : Option Phase} (hq : t.mount.db.queue.WF) (hsorted : t.mount.db.remotes.Pairwise fun a b => a.ino < b.ino)
    (hrows : ∀ q x, t.mount.db.queue.get q = some x → q = p ∧ SavesRow f x)
    (ht : t.mount.tasks = Mount.putTask s.mount.tasks i k next)
    (hnext : ∀ ph, next = some ph → ph.owes = true →
      t.mount.db.queue.inflight p = true ∧ PhaseOk f p r t k.job.remoteId ph)
    (hover : ∀ ph, next = some ph → ph.owes = false → Over ph)
    (hidle : (∀ ph, next = some ph → ph.owes = false) → Settled f p r t) : Inv f p r t := by
  obtain ⟨hone, hwork⟩ := h.one.put hk ho next
  refine ⟨hq, hsorted, hrows, fun x hx => ?_, fun x hx hox => ?_, by rw [ht]; exact hone, fun x hx hox => ?_,
    fun x hx hox => ?_, fun hx => ?_⟩
  · rw [ht] at hx
    rcases Mount.mem_putTask hx with hx | ⟨ph, -, rfl⟩
    · exact h.jobs x hx
    · exact h.jobs k (List.mem_of_getElem? hk)
  · rw [ht] at hx
    rcases Mount.mem_putTask hx with hx | ⟨ph, hph, rfl⟩
    · exact h.ended x hx hox
    · exact hover ph hph hox
  · rw [ht] at hx
    obtain ⟨ph, hph, rfl⟩ := hwork x hx hox
    exact (hnext ph hph hox).1
  · rw [ht] at hx
    obtain ⟨ph, hph, rfl⟩ := hwork x hx hox
    exact (hnext ph hph hox).2
  · refine hidle fun ph hph => ?_
    have hmem : { k with phase := ph } ∈ t.mount.tasks := by
      rw [ht, hph]
      exact List.mem_iff_getElem?.mpr ⟨i, List.getElem?_set_self (List.getElem?_eq_some_iff.mp hk).1⟩
    exact hx _ hmem

/-- The task that has the row goes on. -/
theorem Inv.goes (h : Inv f p r s) {i : ℕ} (hk : s.mount.tasks[i]? = some k) (ho : k.phase.owes = true)
    {ph : Phase} (hq : t.mount.db.queue.WF) (hsorted : t.mount.db.remotes.Pairwise fun a b => a.ino < b.ino)
    (hrows : ∀ q x, t.mount.db.queue.get q = some x → q = p ∧ SavesRow f x)
    (ht : t.mount.tasks = Mount.putTask s.mount.tasks i k (some ph)) (hoph : ph.owes = true)
    (hheld : t.mount.db.queue.inflight p = true) (hph : PhaseOk f p r t k.job.remoteId ph) : Inv f p r t := by
  have hnot : ∀ ph', some ph = some ph' → ph'.owes ≠ false := by
    rintro ph' ⟨⟩ hn
    rw [hn] at hoph
    cases hoph
  refine h.moved hk ho hq hsorted hrows ht ?_ (fun ph' he hn => (hnot ph' he hn).elim) fun hn =>
    (hnot ph rfl (hn ph rfl)).elim
  rintro ph' ⟨⟩ -
  exact ⟨hheld, hph⟩

/-- A job finds its content, and sends it where the condition lets it. -/
theorem begin_phase {j : PushJob} (hj : Saves f j.payload)
    (hok : ∀ ino, j.contentIno = some ino → validUtf8 (s.mount.db.readAllContent ino) = false →
      ∀ id, j.remoteId = some id → s.server.get id = none)
    (h : PhaseOk f p r s j.remoteId .start) : PhaseOk f p r s j.remoteId (Task.begin s.mount.db j) := by
  obtain ⟨hset, hnames⟩ := h
  obtain ⟨hop, hino⟩ := hj
  have hcontent : j.contentIno = some f.ino := hino
  have hbegin : Task.begin s.mount.db j = if !validUtf8 (s.mount.db.readAllContent f.ino) then
      .upload f.ino (s.mount.db.readAllContent f.ino)
    else j.remoteId.elim (.post f.ino (s.mount.db.readAllContent f.ino))
      fun id => .wait id (.patch f.ino (s.mount.db.readAllContent f.ino) id) := by
    obtain ⟨filepath, op, contentIno, renameTo, remoteId, attempt⟩ := j
    obtain rfl : contentIno = some f.ino := hcontent
    rcases hop with hop | hop
    · obtain rfl : op = .create := hop
      cases remoteId <;> rfl
    · obtain rfl : op = .update := hop
      cases remoteId <;> rfl
  rw [hbegin]
  cases hu : validUtf8 (s.mount.db.readAllContent f.ino) with
  | false =>
    refine ⟨rfl, hset, ?_⟩
    cases hid : j.remoteId with
    | none => exact hid ▸ hnames
    | some id =>
      rw [hid] at hnames
      exact hnames.gone (hok f.ino hcontent hu id hid)
  | true =>
    cases hid : j.remoteId with
    | none => exact ⟨rfl, hset, hid ▸ hnames⟩
    | some id => exact ⟨hset, hid ▸ hnames⟩

/-- An error that is no 404 leads back to the queue. -/
theorem failed_phase {j : PushJob} {ph next : Phase} {e : ApiError} {timedOut : Bool} (hne : e ≠ .notFound)
    (h : PhaseOk f p r s o ph) (ha : Task.answered j timedOut ph (.err e) = some next) : PhaseOk f p r s o next := by
  cases ph with
  | wait id nx => rcases Task.answered_wait ha with rfl | rfl <;> exact h
  | patch ino b id =>
    have hset : Settled f p r s := h.1
    cases e with
    | notFound => exact absurd rfl hne
    | _ => cases ha; exact hset
  | post | upload =>
    have hset : Settled f p r s := h.2.1
    cases e <;> cases ha <;> exact hset
  | delete | lookup | rename => exact h.elim
  | start | clearRemoteId | mapInode | mapRow | markMirrored | clearDirty | succeed | fail | poison | sibling
  | drop => cases ha

theorem frame_server (hm : t.mount.db = s.mount.db) (hd : Docs p r s.server t.server) : Frame f p r s t where
  remote := by rw [hm]
  row := fun x hx => ⟨x, by rw [← hm]; exact hx, rfl⟩
  docs := hd

/-- An answer that is an error in place of the server's own leads back to the
queue, and the server's own answer leads on. -/
theorem serve_phase {j : PushJob} {ph next : Phase} {c : Call} {newId : String} {heard : Option ApiError}
    {timedOut : Bool}
    (h : PhaseOk f p r s o ph) (hp : j.filepath = p) (hc : Task.call j ph = some c)
    (hnew : creates c = true → s.server.get newId = none) (harrives : creates c = true → heard = none)
    (hheard : heard ≠ some .notFound)
    (ha : Task.answered j timedOut ph ((heard.map Answer.err).getD (s.server.handle newId c).1) = some next)
    (hm : t.mount.db = s.mount.db) (hs : t.server = (s.server.handle newId c).2) : PhaseOk f p r t o next := by
  have hother : ∀ e, heard = some e → PhaseOk f p r s o next := by
    intro e he
    rw [he] at ha hheard
    exact failed_phase (fun hn => hheard (congrArg some hn)) h ha
  cases ph with
  | wait id nx =>
    cases hc
    rw [Server.handle_getDocument] at hs
    refine PhaseOk.frame (s := s) (frame_server hm (hs ▸ Docs.refl _)) ?_
    cases heard with
    | some e => exact hother e rfl
    | none => rcases Task.answered_wait ha with rfl | rfl <;> exact h
  | patch ino b id =>
    obtain ⟨hset, hnames⟩ := h
    cases hc
    rw [Server.handle_updateDocument] at hs ha
    by_cases hg : (s.server.get id).isSome = true
    · rw [if_pos hg] at hs ha
      have hframe : Frame f p r s t := frame_server hm (by rw [hs, hp]; exact docs_patched hnames)
      cases heard with
      | some e => exact (hother e rfl).frame hframe
      | none =>
        cases ha
        exact Settled.frame hset hframe
    · rw [if_neg hg] at hs ha
      have hframe : Frame f p r s t := frame_server hm (hs ▸ Docs.refl _)
      cases heard with
      | some e => exact (hother e rfl).frame hframe
      | none =>
        cases ha
        exact ⟨Settled.frame hset hframe, (hnames.gone (Option.not_isSome_iff_eq_none.mp hg)).docs hframe.docs⟩
  | post ino b =>
    obtain ⟨hino, -, hnone⟩ := h
    cases hc
    rw [harrives rfl] at ha
    cases ha
    refine ⟨hino, ?_⟩
    rw [hs, hp]
    exact names_created hnone (hnew rfl)
  | upload ino b =>
    obtain ⟨hino, -, hnone⟩ := h
    cases hc
    rw [harrives rfl] at ha
    cases ha
    refine ⟨hino, ?_⟩
    rw [hs, hp]
    exact names_created hnone (hnew rfl)
  | delete | lookup | rename => exact h.elim
  | start | clearRemoteId | mapInode | mapRow | markMirrored | clearDirty | succeed | fail | poison | sibling
  | drop => cases hc

/-! ### Steps -/

theorem same_sync {m : Mount} (h : Inv f p r s) (hs : SameSync s.mount.db m.db) (ht : m.tasks = s.mount.tasks) :
    Inv f p r { s with mount := m } :=
  h.frame ⟨hs.getRemoteId, fun x hx => ⟨x, by rw [← hs.queue]; exact hx, rfl⟩, Docs.refl _⟩ ht hs.queue hs.remotes

/-- The operation that a flush asks for. -/
theorem flush_cases (hf : f.filepath = some p) : f.flush db nowMs = db ∨ ∃ op, (op = .create ∨ op = .update) ∧
    f.flush db nowMs = { db with queue := db.queue.upsert p ⟨op, some f.ino, none⟩ (db.getRemoteId f.ino)
                                   (nowMs + PUSH_DEBOUNCE_MS) } := by
  unfold SqliteFile.flush
  rw [hf]
  cases f.online with
  | false => exact .inl rfl
  | true =>
    dsimp only
    by_cases hs : ((db.getInode f.ino).map Inode.size).getD 0 = 0
    · rw [if_pos hs]
      exact .inl rfl
    · rw [if_neg hs]
      refine .inr ⟨if (db.getRemoteId f.ino).isSome then .update else .create, ?_, rfl⟩
      split_ifs
      · exact .inr rfl
      · exact .inl rfl

/-- A flush is parked behind the task that has the row, or takes the row with
the id that the mapping has. -/
theorem upsert_inv {op : PushOp} (h : Inv f p r s) (hop : op = .create ∨ op = .update)
    (hn : isMacosNoisePath p = false) :
    Inv f p r { s with mount := { s.mount with db := { s.mount.db with
      queue := s.mount.db.queue.upsert p ⟨op, some f.ino, none⟩ (s.mount.db.getRemoteId f.ino) nowMs } } } := by
  have hsaves : Saves f ⟨op, some f.ino, none⟩ := ⟨hop, rfl⟩
  have hget : ∀ q, (s.mount.db.queue.upsert p ⟨op, some f.ino, none⟩ (s.mount.db.getRemoteId f.ino) nowMs).get q =
      if q = p then some (s.mount.db.queue.upserted p ⟨op, some f.ino, none⟩ (s.mount.db.getRemoteId f.ino) nowMs)
      else s.mount.db.queue.get q := fun q => get_upsert hn
  have hself := (hget p).trans (if_pos rfl)
  have hrow : SavesRow f (s.mount.db.queue.upserted p ⟨op, some f.ino, none⟩ (s.mount.db.getRemoteId f.ino) nowMs) := by
    cases hx : s.mount.db.queue.get p with
    | none =>
      rw [upserted_none hx]
      exact ⟨hsaves, fun pl hpl => by cases hpl⟩
    | some x =>
      obtain ⟨-, hmain, hpend⟩ := h.rows p x hx
      cases hi : x.inflight with
      | true =>
        rw [upserted_held hx hi]
        refine ⟨hmain, fun pl hpl => ?_⟩
        cases hpl
        exact hsaves
      | false =>
        rw [upserted_idle hx hi]
        exact ⟨hsaves, hpend⟩
  refine ⟨h.queue.upsert _ _ _ _, h.sorted, fun q x hx => ?_, h.jobs, h.ended, h.one, fun k hk ho => ?_,
    fun k hk ho => ?_, fun hidle => ?_⟩
  · rw [hget] at hx
    split_ifs at hx with hq
    · cases hx
      exact ⟨hq, hrow⟩
    · exact h.rows q x hx
  · obtain ⟨x, hx, hi⟩ := inflight_eq_true.mp (h.held k hk ho)
    rw [upserted_held hx hi] at hself
    exact inflight_eq_true.mpr ⟨_, hself, hi⟩
  · obtain ⟨x, hx, hi⟩ := inflight_eq_true.mp (h.held k hk ho)
    rw [upserted_held hx hi] at hself
    have hid : ∀ x', some (parked ⟨op, some f.ino, none⟩ nowMs x) = some x' → x'.remoteId = x.remoteId := by
      rintro x' ⟨⟩
      rfl
    refine PhaseOk.frame (s := s) ?_ (h.phase k hk ho)
    exact ⟨rfl, fun x' hx' => ⟨x, hx, hid x' (hself.symm.trans hx')⟩, Docs.refl _⟩
  · obtain ⟨hmap, hid⟩ := h.settled hidle
    refine ⟨hmap, fun x' hx' => ?_⟩
    rw [← Option.some.inj (hself.symm.trans hx')]
    cases hx : s.mount.db.queue.get p with
    | none =>
      rw [upserted_none hx]
      exact hmap
    | some x =>
      cases hi : x.inflight with
      | true =>
        rw [upserted_held hx hi]
        exact hid x hx
      | false =>
        rw [upserted_idle hx hi]
        exact hmap.or (hid x hx)

theorem flush_inv (h : Inv f p r s) (hf : f.filepath = some p) :
    Inv f p r { s with mount := { s.mount with db := f.flush s.mount.db nowMs } } := by
  rcases (flush_cases hf : f.flush s.mount.db nowMs = s.mount.db ∨ _) with he | ⟨op, hop, he⟩
  · rw [he]
    exact h
  · rw [he]
    cases hn : isMacosNoisePath p with
    | true =>
      rw [upsert_noise hn]
      exact h
    | false => exact upsert_inv h hop hn

theorem claim_inv (h : Inv f p r s) (hst : Drain.step s (.claim nowMs) = some t) : Inv f p r t := by
  obtain ⟨x, hx, hclaim, hserver, hwf, htasks, hget, hdb⟩ := claim_cases h.queue hst
  have hfree : x.inflight = false := (claimable_iff.mp hclaim).1
  obtain ⟨hp, hrow⟩ := h.rows _ x hx
  rw [hp] at hget hx
  have hidle : ∀ k ∈ s.mount.tasks, k.phase.owes = false := by
    intro k hk
    by_contra ho
    obtain ⟨y, hy, hi⟩ := inflight_eq_true.mp (h.held k hk (by simpa using ho))
    obtain rfl : x = y := Option.some.inj (hx.symm.trans hy)
    rw [hfree] at hi
    cases hi
  have hself : t.mount.db.queue.get p = some (held nowMs x) := (hget p).trans (if_pos rfl)
  have hmem : ∀ k ∈ t.mount.tasks, k.phase.owes = true → k = ⟨jobOf x, .start⟩ := by
    intro k hk ho
    rw [htasks] at hk
    rcases List.mem_append.mp hk with hk | hk
    · rw [hidle k hk] at ho
      cases ho
    · exact List.mem_singleton.mp hk
  have hframe : Frame f p r s t := by
    refine ⟨?_, fun x' hx' => ⟨x, hx, ?_⟩, hserver ▸ Docs.refl _⟩
    · rw [hdb]
      rfl
    · rw [← Option.some.inj (hself.symm.trans hx')]
      rfl
  have hset : Settled f p r t := (h.settled hidle).frame hframe
  refine ⟨hwf, ?_, fun q y hy => ?_, fun k hk => ?_, fun k hk hn => ?_, ?_, fun k hk ho => ?_, fun k hk ho => ?_,
    fun hno => ?_⟩
  · rw [hdb]
    exact h.sorted
  · rw [hget] at hy
    split_ifs at hy with hq
    · cases hy
      exact ⟨hq, hrow⟩
    · exact h.rows q y hy
  · rw [htasks] at hk
    rcases List.mem_append.mp hk with hk | hk
    · exact h.jobs k hk
    · obtain rfl := List.mem_singleton.mp hk
      exact ⟨hp, hrow.1⟩
  · rw [htasks] at hk
    rcases List.mem_append.mp hk with hk | hk
    · exact h.ended k hk hn
    · obtain rfl := List.mem_singleton.mp hk
      cases hn
  · rw [htasks]
    exact atMostOne_append hidle
  · exact inflight_eq_true.mpr ⟨_, hself, rfl⟩
  · obtain rfl := hmem k hk ho
    exact ⟨hset, hset.2 (held nowMs x) hself⟩
  · exact hset

/-- The row is the only one, whatever the task's call does to it. -/
theorem Inv.rows_of {next : Option Phase} (h : Inv f p r s) (hp : k.job.filepath = p)
    (hd : Task.dbStep s.mount.db k.job nowMs k.phase = some (db', next))
    (hrow : ∀ x, db'.queue.get p = some x → SavesRow f x) :
    ∀ q x, db'.queue.get q = some x → q = p ∧ SavesRow f x := by
  intro q x hx
  by_cases hq : q = p
  · exact ⟨hq, hrow x (hq ▸ hx)⟩
  · have hsame := dbStep_get (fun he => hq (he.trans hp)) hd
    exact absurd (h.rows q x (hsame.symm.trans hx)).1 hq

/-- What a row's step leaves at the path: a row as it was, with its id. -/
theorem Inv.freed {next : Option Phase} {i : ℕ} (h : Inv f p r s) (hk : s.mount.tasks[i]? = some k)
    (ho : k.phase.owes = true)
    (hd : Task.dbStep s.mount.db k.job nowMs k.phase = some (db', next)) (hset : Settled f p r s)
    (hremotes : db'.remotes = s.mount.db.remotes) (hnext : ∀ ph, next = some ph → Over ph)
    (hrow : ∀ x', db'.queue.get p = some x' → ∃ x, s.mount.db.queue.get p = some x ∧ x'.remoteId = x.remoteId ∧
      (SavesRow f x → SavesRow f x')) :
    Inv f p r ⟨⟨db', Mount.putTask s.mount.tasks i k next⟩, s.server⟩ := by
  have hp := (h.jobs k (List.mem_of_getElem? hk)).1
  refine h.moved hk ho (dbStep_wf h.queue hd) ?_ (h.rows_of hp hd fun x' hx' => ?_) rfl (fun ph hph hoph => ?_)
    (fun ph hph _ => hnext ph hph) fun _ => hset.frame ⟨?_, fun x' hx' => ?_, Docs.refl _⟩
  · show db'.remotes.Pairwise _
    rw [hremotes]
    exact h.sorted
  · obtain ⟨x, hx, -, hsaves⟩ := hrow x' hx'
    exact hsaves (h.rows p x hx).2
  · obtain ⟨st, b, rfl⟩ := hnext ph hph
    cases hoph
  · show db'.getRemoteId f.ino = _
    unfold Db.getRemoteId Db.getRemote
    rw [hremotes]
  · obtain ⟨x, hx, hid, -⟩ := hrow x' hx'
    exact ⟨x, hx, hid⟩

/-- A call of the task that has the row. -/
theorem task_inv {i : ℕ} {next : Option Phase} (h : Inv f p r s) (hk : s.mount.tasks[i]? = some k)
    (ho : k.phase.owes = true)
    (hok : k.phase = .start → ∀ ino, k.job.contentIno = some ino →
      validUtf8 (s.mount.db.readAllContent ino) = false → ∀ id, k.job.remoteId = some id → s.server.get id = none)
    (hd : Task.dbStep s.mount.db k.job nowMs k.phase = some (db', next)) :
    Inv f p r ⟨⟨db', Mount.putTask s.mount.tasks i k next⟩, s.server⟩ := by
  have hmem := List.mem_of_getElem? hk
  obtain ⟨hp, hsaves⟩ := h.jobs k hmem
  have hph := h.phase k hmem ho
  have hheld := h.held k hmem ho
  have hd' := hd
  cases hphase : k.phase with
  | start =>
    rw [hphase] at hd hph
    cases hd
    refine h.goes hk ho h.queue h.sorted h.rows rfl Task.begin_owes hheld ?_
    refine PhaseOk.frame (s := s) ?_ (begin_phase hsaves (hok hphase) hph)
    exact frame_server rfl (Docs.refl _)
  | clearRemoteId id =>
    rw [hphase] at hd hph
    cases hd
    obtain ⟨⟨hmap, hrid⟩, hnone⟩ := hph
    have hget : (s.mount.db.queue.setRemoteId k.job.filepath none).get p =
        (s.mount.db.queue.get p).map fun x => { x with remoteId := none } := by
      rw [get_setRemoteId, hp, if_pos rfl]
    refine h.goes hk ho (dbStep_wf h.queue hd') (h.sorted.sublist List.filter_sublist) (h.rows_of hp hd' fun x' hx' => ?_) rfl
      rfl (inflight_setRemoteId.trans hheld) ?_
    · obtain ⟨x, hx, rfl⟩ := Option.map_eq_some_iff.mp (hget.symm.trans hx')
      exact (h.rows p x hx).2
    · refine ⟨hmap.clear hnone ?_, fun x' hx' => ?_⟩
      · show (s.mount.db.clearRemoteIdAfter404 _ _).getRemoteId f.ino = _ ∨ _
        have hg : (s.mount.db.clearRemoteIdAfter404 k.job.filepath id).getRemote f.ino = s.mount.db.getRemote f.ino ∨
            (s.mount.db.clearRemoteIdAfter404 k.job.filepath id).getRemote f.ino = none := getRemote_filter h.sorted
        unfold Db.getRemoteId
        rcases hg with hg | hg <;> rw [hg]
        · exact .inl rfl
        · exact .inr rfl
      · obtain ⟨x, -, rfl⟩ := Option.map_eq_some_iff.mp (hget.symm.trans hx')
        exact hnone
  | mapInode ino id =>
    rw [hphase] at hd hph
    cases hd
    obtain ⟨rfl, hnames⟩ := hph
    refine h.goes hk ho h.queue (Table.put_sorted h.sorted) h.rows rfl rfl hheld ?_
    refine ⟨hnames, ?_⟩
    show Names p r s.server ((s.mount.db.setRemoteId f.ino id).getRemoteId f.ino)
    rw [getRemoteId_setRemoteId, if_pos rfl]
    exact hnames
  | mapRow ino id =>
    rw [hphase] at hd hph
    cases hd
    obtain ⟨hnames, hmap⟩ := hph
    have hget : (s.mount.db.queue.setRemoteId k.job.filepath (some id)).get p =
        (s.mount.db.queue.get p).map fun x => { x with remoteId := some id } := by
      rw [get_setRemoteId, hp, if_pos rfl]
    refine h.goes hk ho (dbStep_wf h.queue hd') h.sorted (h.rows_of hp hd' fun x' hx' => ?_) rfl rfl
      (inflight_setRemoteId.trans hheld) ?_
    · obtain ⟨x, hx, rfl⟩ := Option.map_eq_some_iff.mp (hget.symm.trans hx')
      exact (h.rows p x hx).2
    · refine ⟨hmap, fun x' hx' => ?_⟩
      obtain ⟨x, -, rfl⟩ := Option.map_eq_some_iff.mp (hget.symm.trans hx')
      exact hnames
  | markMirrored ino =>
    rw [hphase] at hd hph
    cases hd
    refine h.goes hk ho h.queue (Table.modify_sorted (fun _ => rfl) h.sorted) h.rows rfl rfl hheld ?_
    exact Settled.frame (s := s) hph ⟨getRemoteId_setMirroredState, fun x hx => ⟨x, hx, rfl⟩, Docs.refl _⟩
  | clearDirty ino =>
    rw [hphase] at hd hph
    cases hd
    refine h.goes hk ho h.queue h.sorted h.rows rfl rfl hheld ?_
    exact Settled.frame (s := s) hph ⟨rfl, fun x hx => ⟨x, hx, rfl⟩, Docs.refl _⟩
  | succeed =>
    rw [hphase] at hd hph
    cases hd
    refine h.freed hk ho hd' hph rfl (fun ph he => by cases he) fun x' hx' => ?_
    have hget : (s.mount.db.queue.finalizeSuccess k.job.filepath nowMs).get p =
        (s.mount.db.queue.get p).bind fun x => x.pending.map fun pl => promoted pl nowMs x := by
      rw [get_finalizeSuccess, hp, if_pos rfl]
    obtain ⟨x, hx, hm⟩ := Option.bind_eq_some_iff.mp (hget.symm.trans hx')
    obtain ⟨pl, hpl, rfl⟩ := Option.map_eq_some_iff.mp hm
    exact ⟨x, hx, rfl, fun hs => ⟨hs.2 pl hpl, fun pl' he => by cases he⟩⟩
  | fail error backoff =>
    rw [hphase] at hd hph
    cases hd
    refine h.freed hk ho hd' hph rfl (fun ph he => by cases he) fun x' hx' => ?_
    have hget : (s.mount.db.queue.finalizeFailure k.job.filepath error nowMs backoff).get p =
        (s.mount.db.queue.get p).map (PushQueue.failed error nowMs backoff) := by
      rw [get_finalizeFailure, hp, if_pos rfl]
    obtain ⟨x, hx, rfl⟩ := Option.map_eq_some_iff.mp (hget.symm.trans hx')
    exact ⟨x, hx, rfl, id⟩
  | poison status body withSibling =>
    rw [hphase] at hd hph
    cases hd
    refine h.freed hk ho hd' hph rfl (fun ph he => ?_) fun x' hx' => ?_
    · split_ifs at he
      cases he
      exact ⟨_, _, rfl⟩
    have hget : (s.mount.db.queue.poison k.job.filepath status body nowMs).get p =
        (s.mount.db.queue.get p).map (rejected status body nowMs) := by
      rw [get_poison, hp, if_pos rfl]
    obtain ⟨x, hx, rfl⟩ := Option.map_eq_some_iff.mp (hget.symm.trans hx')
    exact ⟨x, hx, rfl, id⟩
  | delete | lookup | rename | drop =>
    rw [hphase] at hph
    exact hph.elim
  | sibling status body =>
    rw [hphase] at ho
    cases ho
  | wait | patch | post | upload =>
    rw [hphase] at hd
    cases hd

/-- A task that owes nothing only leaves the error sibling. -/
theorem sibling_inv {i : ℕ} {next : Option Phase} (h : Inv f p r s) (hk : s.mount.tasks[i]? = some k)
    (ho : k.phase.owes = false)
    (hd : Task.dbStep s.mount.db k.job nowMs k.phase = some (db', next)) :
    Inv f p r ⟨⟨db', Mount.putTask s.mount.tasks i k next⟩, s.server⟩ := by
  obtain ⟨hsync, rfl⟩ : SameSync s.mount.db db' ∧ next = none := by
    obtain ⟨status, body, hphase⟩ := h.ended k (List.mem_of_getElem? hk) ho
    rw [hphase] at hd
    cases hd
    exact ⟨Fs.createDerivedSibling_sameSync, rfl⟩
  have hsub : ∀ x ∈ Mount.putTask s.mount.tasks i k none, x ∈ s.mount.tasks := fun x hx => List.mem_of_mem_eraseIdx hx
  have hframe : Frame f p r s ⟨⟨db', Mount.putTask s.mount.tasks i k none⟩, s.server⟩ :=
    ⟨hsync.getRemoteId, fun x hx => ⟨x, by rw [← hsync.queue]; exact hx, rfl⟩, Docs.refl _⟩
  refine ⟨?_, ?_, fun q x hx => ?_, fun x hx => h.jobs x (hsub x hx),
    fun x hx => h.ended x (hsub x hx), h.one.erase i, fun x hx hox => ?_,
    fun x hx hox => (h.phase x (hsub x hx) hox).frame hframe, fun hidle => (h.settled fun x hx => ?_).frame hframe⟩
  · show db'.queue.WF
    rw [hsync.queue]
    exact h.queue
  · show db'.remotes.Pairwise _
    rw [hsync.remotes]
    exact h.sorted
  · refine h.rows q x ?_
    rw [← hsync.queue]
    exact hx
  · show db'.queue.inflight p = true
    rw [hsync.queue]
    exact h.held x (hsub x hx) hox
  · obtain ⟨j, hj⟩ := List.mem_iff_getElem?.mp hx
    by_cases hji : j = i
    · rw [hji, hk] at hj
      rw [← Option.some.inj hj]
      exact ho
    · exact hidle x (List.mem_eraseIdx_iff_getElem?.mpr ⟨j, hji, hj⟩)

/-- Only a task that has the row waits for an answer. -/
theorem Inv.asks (h : Inv f p r s) (hk : k ∈ s.mount.tasks) (ha : (∃ c, Task.call k.job k.phase = some c) ∨
    ∃ timedOut a next, Task.answered k.job timedOut k.phase a = some next) : k.phase.owes = true := by
  by_contra ho
  obtain ⟨status, body, hphase⟩ := h.ended k hk (by simpa using ho)
  rw [hphase] at ha
  rcases ha with ⟨c, hc⟩ | ⟨timedOut, a, next, ha⟩
  · cases hc
  · cases a <;> cases ha

theorem step_inv (s : St) (a : Act) (t : St) (hf : f.filepath = some p) (h : Inv f p r s) (hok : PostOk s a)
    (hst : step f s a = some t) : Inv f p r t := by
  cases a with
  | write offset data now =>
    cases hst
    exact same_sync h SqliteFile.write_sameSync rfl
  | truncate size =>
    cases hst
    exact same_sync h SqliteFile.truncate_sameSync rfl
  | flush now =>
    cases hst
    exact flush_inv h hf
  | claim now => exact claim_inv h hst
  | taskDb i now =>
    obtain ⟨k, next, hk, hd, ht, hserver⟩ := taskDb_cases hst
    have hinv : Inv f p r ⟨⟨t.mount.db, Mount.putTask s.mount.tasks i k next⟩, s.server⟩ := by
      cases ho : k.phase.owes with
      | true => exact task_inv h hk ho (fun hp ino hino hu id hid => hok k hk hp ino hino hu id hid) hd
      | false => exact sibling_inv h hk ho hd
    rw [← ht, ← hserver] at hinv
    exact hinv
  | serve i newId heard timedOut =>
    unfold step at hst
    dsimp only at hst
    by_cases hn : heard = some .notFound
    · rw [if_pos hn] at hst
      cases hst
    · rw [if_neg hn] at hst
      obtain ⟨k, c, next, hreq, hk, hc, hnew, hserver, hans, hm⟩ := serve_cases hst
      have hmem := List.mem_of_getElem? hk
      have ho : k.phase.owes = true := h.asks hmem (.inl ⟨c, hc⟩)
      have hdb : t.mount.db = s.mount.db := by rw [hm]
      have ht : t.mount.tasks = Mount.putTask s.mount.tasks i k (some next) := by rw [hm]; rfl
      refine h.goes hk ho (by rw [hdb]; exact h.queue) (by rw [hdb]; exact h.sorted) (by rw [hdb]; exact h.rows) ht
        (Task.answered_owes ho hans) (by rw [hdb]; exact h.held k hmem ho) ?_
      exact serve_phase (h.phase k hmem ho) (h.jobs k hmem).1 hc hnew (hok (k, c) hreq) hn hans hdb hserver
  | fail i e timedOut =>
    unfold step at hst
    dsimp only at hst
    by_cases hn : e = .notFound
    · rw [if_pos hn] at hst
      cases hst
    · rw [if_neg hn] at hst
      obtain ⟨k, next, hk, hans, rfl⟩ := fail_cases hst
      have hmem := List.mem_of_getElem? hk
      have ho : k.phase.owes = true := h.asks hmem (.inr ⟨_, _, _, hans⟩)
      refine h.goes hk ho h.queue h.sorted h.rows rfl (Task.answered_owes ho hans) (h.held k hmem ho) ?_
      refine PhaseOk.frame (s := s) ?_ (failed_phase hn (h.phase k hmem ho) hans)
      exact frame_server rfl (Docs.refl _)
  | finish id =>
    cases hst
    exact h.frame (frame_server rfl docs_finish) rfl rfl rfl
  | remove id =>
    cases hst
    exact h.frame (frame_server rfl docs_erase) rfl rfl rfl

/-! ### The result -/

/-- A request that makes a document comes from a phase in which the file has none. -/
theorem PhaseOk.none_of_creates {j : PushJob} {ph : Phase} {c : Call} (h : PhaseOk f p r s o ph)
    (hc : Task.call j ph = some c)
    (hcr : creates c = true) : Settled f p r s ∧ Names p r s.server none := by
  cases ph with
  | post | upload => exact h.2
  | wait | patch =>
    cases hc
    cases hcr
  | delete | lookup | rename => exact h.elim
  | start | clearRemoteId | mapInode | mapRow | markMirrored | clearDirty | succeed | fail | poison | sibling
  | drop => cases hc

/-- At every moment some id names the file's documents, or there are none. -/
theorem PhaseOk.exists_names : ∀ {ph : Phase}, PhaseOk f p r s o ph → ∃ o', Names p r s.server o' := by
  intro ph
  induction ph with
  | wait id next ih => exact ih
  | start | patch | clearRemoteId => exact fun h => ⟨_, h.2⟩
  | post | upload => exact fun h => ⟨_, h.2.2⟩
  | mapInode => exact fun h => ⟨_, h.2⟩
  | mapRow => exact fun h => ⟨_, h.1⟩
  | markMirrored | clearDirty | succeed | fail | poison => exact fun h => ⟨_, Settled.mapped h⟩
  | delete | lookup | rename | sibling | drop => exact False.elim

theorem Inv.single (h : Inv f p r s) : Single f p r s := by
  refine ⟨fun i kc hkc hcr d hd => ?_, fun d hd e he hdp hep => ?_⟩
  · obtain ⟨k, hk, hc⟩ := Option.bind_eq_some_iff.mp hkc
    obtain ⟨c, hcall, rfl⟩ := Option.map_eq_some_iff.mp hc
    have hmem := List.mem_of_getElem? hk
    obtain ⟨⟨hmap, hrow⟩, hnone⟩ := (h.phase k hmem (h.asks hmem (.inl ⟨c, hcall⟩))).none_of_creates hcall hcr
    have hnot : ¬ Mine p r d := fun hm => by cases (hnone d hd).mp hm
    exact ⟨hnot, fun he => hnot ((hmap d hd).mpr he), fun x hx he => hnot ((hrow x hx d hd).mpr he)⟩
  · obtain ⟨o, ho⟩ : ∃ o, Names p r s.server o := by
      by_cases hidle : ∀ k ∈ s.mount.tasks, k.phase.owes = false
      · exact ⟨_, (h.settled hidle).mapped⟩
      · push Not at hidle
        obtain ⟨k, hk, hn⟩ := hidle
        exact (h.phase k hk (by simpa using hn)).exists_names
    exact Option.some.inj (((ho d hd).mp (.inl hdp)).symm.trans ((ho e he).mp (.inl hep)))

/-- **A new document is made only for a file that has none, in every run in
which content that is no text is read only for a file without a document, and
the answers to the requests that make documents arrive.** -/
theorem posts_once (f : SqliteFile) (p : String) (r : Option String) (s₀ : St) (h₀ : Start f p r s₀) (s : St)
    (h : Reach (step f) PostOk s₀ s) : Single f p r s :=
  (h.inv (I := Inv f p r) h₀.inv fun _ _ _ hI hok hst => step_inv _ _ _ h₀.path hI hok hst).single

end Lemmas

/-! ### A binary version of a file that has a document -/

/-- A new file, and its handle. -/
def created : St where
  mount := { Mount.fresh with db := (Fs.createFile Db.fresh true ROOT_INO "a").2 }
  server := []

def handle : SqliteFile := ⟨2, true, some "/a"⟩

theorem created_start : Start handle "/a" none created where
  path := rfl
  mapped := by decide
  queue := empty_wf
  sorted := by decide
  rows := rfl
  tasks := rfl
  docs := fun _ hd => nomatch hd

/-- The server has a document at another path. -/
def beside : St := { created with server := [⟨"d0", "/b", [98], true⟩] }

theorem beside_start : Start handle "/a" none beside :=
  { created_start with docs := by decide }

/-- The file is written and pushed, and a second version is written and pushed. -/
def updatedRun : List Act :=
  [.write 0 [104, 105] 1, .flush 2, .claim 600, .taskDb 0 600, .serve 0 "d1" none false, .taskDb 0 601, .taskDb 0 602,
    .finish "d1", .serve 0 "" none false, .taskDb 0 603, .taskDb 0 604, .taskDb 0 605,
    .write 1 [111] 700, .flush 701, .claim 1300, .taskDb 0 1300, .serve 0 "" none false, .serve 0 "" none false]

/-- The first version is posted while the file has no document, and the second
one goes to the document made. -/
theorem posts_once_updated :
    (∃ s, run (step handle) PostOk beside (updatedRun.take 4) = some s ∧
      (request s 0).map (fun kc => creates kc.2) = some true ∧ s.server = beside.server ∧ Single handle "/a" none s) ∧
    ∃ s, run (step handle) PostOk beside updatedRun = some s ∧
      s.server = [⟨"d0", "/b", [98], true⟩, ⟨"d1", "/a", [104, 111], false⟩] ∧ Single handle "/a" none s := by
  obtain ⟨s, hs, hp⟩ := (Option.any_eq_true _ _).mp
    (by decide +kernel : (run (step handle) PostOk beside (updatedRun.take 4)).any (fun s => decide
      ((request s 0).map (fun kc => creates kc.2) = some true ∧ s.server = beside.server)) = true)
  obtain ⟨t, ht, hq⟩ := (Option.any_eq_true _ _).mp
    (by decide +kernel : (run (step handle) PostOk beside updatedRun).any (fun s => decide
      (s.server = [⟨"d0", "/b", [98], true⟩, ⟨"d1", "/a", [104, 111], false⟩])) = true)
  obtain ⟨hpost, hserver⟩ := of_decide_eq_true hp
  exact ⟨⟨s, hs, hpost, hserver, posts_once _ _ _ _ beside_start s (.of_run hs)⟩,
    t, ht, of_decide_eq_true hq, posts_once _ _ _ _ beside_start t (.of_run ht)⟩

/-- The file is written as text and pushed, then as bytes that are no text. -/
def binaryRun : List Act :=
  [.write 0 [104, 105] 1, .flush 2, .claim 600, .taskDb 0 600, .serve 0 "d1" none false, .taskDb 0 601, .taskDb 0 602,
    .finish "d1", .serve 0 "d1" none false, .taskDb 0 603, .taskDb 0 604, .taskDb 0 605,
    .write 0 [255, 254] 700, .flush 701, .claim 1300, .taskDb 0 1300, .serve 0 "d2" none false]

/-- **The file then has two documents.** -/
theorem duplicated : ¬ ∀ f p r s₀, Start f p r s₀ → ∀ s, Reach (step f) anyStep s₀ s → Single f p r s := by
  intro hall
  obtain ⟨s, hr, hs⟩ : ∃ s, Reach (step handle) anyStep created s ∧
      decide (s.server.map (fun d => (d.id, d.filepath)) = [("d1", "/a"), ("d2", "/a")]) = true :=
    Reach.exists_of_run binaryRun (by decide +kernel)
  have hdoc : ∀ x ∈ [("d1", "/a"), ("d2", "/a")], ∃ d ∈ s.server, (d.id, d.filepath) = x := by
    intro x hx
    rw [← of_decide_eq_true hs] at hx
    exact List.mem_map.mp hx
  obtain ⟨d, hd, hdx⟩ := hdoc ("d1", "/a") (by decide)
  obtain ⟨e, he, hex⟩ := hdoc ("d2", "/a") (by decide)
  obtain ⟨hdi, hdp⟩ := Prod.mk.inj hdx
  obtain ⟨hei, hep⟩ := Prod.mk.inj hex
  have hsame := (hall _ _ _ _ created_start s hr).paths d hd e he hdp hep
  rw [hdi, hei] at hsame
  exact absurd hsame (by decide)

end Duplicates
end Smfs
