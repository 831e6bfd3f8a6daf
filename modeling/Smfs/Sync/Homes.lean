/-
# A pushed file knows its document

A push that makes a document maps the file to it. A push that changes one
sends its content to the id of the row, and maps nothing: it takes it that the
file is mapped to that id. But the id of a row outlives what the row was
about, and a new file at an old path inherits it (`inherits`). A pushed file
knows its document in every run in which each `PATCH` that is accepted is for
the document of its file, and nothing else takes the document from the file
until the job has ended (`known_home`).

Key definitions: `Homes.St`, `Homes.step`, `Homes.Learned`, `Homes.Known`, `Homes.Leaves`, `Homes.Ok`.
Key theorems: `Homes.step_fits`, `Homes.step_kept`, `Homes.known_home`, `Homes.inherits`.
-/
import Smfs.Sync.Derived

namespace Smfs
namespace Homes

open Trans Db Fs PushQueue Changes Derived

/-- The mount, and for each task the file and the document that has taken its content. -/
structure St where
  mount : Mount
  homes : List (Option (Ino × String))
  deriving DecidableEq

def init : St := ⟨.fresh, []⟩

/-- The homes once a task has made a call on the database: it knows its home once it maps what it has created. -/
def homesDb (homes : List (Option (Ino × String))) (n : ℕ) : Phase → Option Phase → List (Option (Ino × String))
  | .mapInode ino rid, _ => homes.set n (some (ino, rid))
  | _, none => homes.eraseIdx n
  | _, some _ => homes

/-- The homes once a task has heard an answer: it knows its home once its `PATCH` is accepted. -/
def homesAnswered (homes : List (Option (Ino × String))) (n : ℕ) : Phase → Answer → List (Option (Ino × String))
  | .patch ino _ rid, .ok => homes.set n (some (ino, rid))
  | _, _ => homes

def homesAfter (s : St) : Changes.Act → List (Option (Ino × String))
  | .mount (.claim _) => s.homes ++ [none]
  | .mount (.taskDb n now) =>
    ((s.mount.tasks[n]?).bind fun k => (Task.dbStep s.mount.db k.job now k.phase).map fun r =>
      homesDb s.homes n k.phase r.2).getD s.homes
  | .mount (.taskAnswer n answer _) =>
    ((s.mount.tasks[n]?).map fun k => homesAnswered s.homes n k.phase answer).getD s.homes
  | .mount .crash => []
  | _ => s.homes

def step (s : St) (a : Changes.Act) : Option St := (Changes.step s.mount a).map fun m => ⟨m, homesAfter s a⟩

/-- The file is mapped to the document, and the next flush that has something to push enqueues an update of it. -/
structure Learned (db : Db) (i : Ino) (rid : String) : Prop where
  mapped : db.getRemoteId i = some rid
  flush : ∀ (f : SqliteFile) (now : ℤ) (p : String), f.ino = i → f.online = true → f.filepath = some p →
    ((db.getInode i).map Inode.size).getD 0 ≠ 0 →
    (f.flush db now).queue = db.queue.upsert p ⟨.update, some i, none⟩ (some rid) (now + PUSH_DEBOUNCE_MS)

/-- Once a create or an update has succeeded, its file, if it is still there, knows the document that took its content. -/
def Known (s : St) : Prop :=
  ∀ n k now t, s.mount.tasks[n]? = some k → k.phase = .succeed → k.job.op = .create ∨ k.job.op = .update →
    step s (.mount (.taskDb n now)) = some t →
    ∃ i rid, k.job.contentIno = some i ∧ s.homes[n]? = some (some (i, rid)) ∧
      ((t.mount.db.getInode i).isSome = true → Learned t.mount.db i rid)

/-- The call leaves the file its document, unless the file goes with it. -/
structure Leaves (m : Mount) (i : Ino) (rid : String) (a : Changes.Act) : Prop where
  unmap : (permit m a).unmap i → (permit m a).drop i
  forget : ¬ (permit m a).forget rid
  map : ∀ r, (permit m a).map i r → r = rid

/-- Files whose jobs have yet to end keep the document that has taken their
content; and a `PATCH` is accepted for the document that its file is mapped to. -/
structure Ok (s : St) (a : Changes.Act) : Prop where
  leaves : ∀ i rid, some (i, rid) ∈ s.homes → (s.mount.db.getInode i).isSome = true → Leaves s.mount i rid a
  patched : ∀ n timedOut k ino content rid, a = .mount (.taskAnswer n .ok timedOut) → s.mount.tasks[n]? = some k →
    k.phase = .patch ino content rid → (s.mount.db.getInode ino).isSome = true → s.mount.db.getRemoteId ino = some rid

/-! ### Where a task stands -/

/-- The operation pushes content. -/
def pushes (op : PushOp) : Prop := op ≠ .delete ∧ op ≠ .rename

/-- The phase is about the content of the job, and its home is known from where it has one. -/
def Fits (j : PushJob) (home : Option (Ino × String)) : Phase → Prop
  | .wait _ next => Fits j home next
  | .patch ino .. | .post ino _ | .upload ino _ | .mapInode ino _ => j.contentIno = some ino
  | .mapRow ino _ | .markMirrored ino | .clearDirty ino => j.contentIno = some ino ∧ ∃ rid, home = some (ino, rid)
  | .succeed => pushes j.op → ∃ i rid, j.contentIno = some i ∧ home = some (i, rid)
  | .delete | .lookup _ | .rename .. => ¬ pushes j.op
  | .start | .clearRemoteId _ | .fail .. | .poison .. | .sibling .. | .drop => True

section Lemmas

variable {db db' : Db} {j : PushJob} {home : Option (Ino × String)} {nowMs : ℤ} {i : Ino} {rid : String}

theorem begin_fits : Fits j home (Task.begin db j) := by
  unfold Task.begin
  cases hop : j.op with
  | create | update =>
    cases hc : j.contentIno with
    | none => trivial
    | some ino =>
      dsimp only
      split_ifs
      · exact hc
      · cases j.remoteId with
        | none => exact hc
        | some rid => exact hc
  | uploadBinary =>
    cases hc : j.contentIno with
    | none => trivial
    | some ino => exact hc
  | delete => exact fun h => h.1 hop
  | rename =>
    cases j.renameTo with
    | none => trivial
    | some newFp =>
      cases j.remoteId with
      | none => exact fun h => h.2 hop
      | some rid => exact fun h => h.2 hop

/-- What a task hears leaves it where it fits, with the home that a `PATCH` has found. -/
theorem answered_fits {timedOut : Bool} {ph next : Phase} {answer : Answer}
    (h : Task.answered j timedOut ph answer = some next)
    (hf : Fits j home ph) : (∀ ino content rid, ph = .patch ino content rid → answer = .ok →
      Fits j (some (ino, rid)) next) ∧ ((∀ ino content rid, ¬ (ph = .patch ino content rid ∧ answer = .ok)) →
        Fits j home next) := by
  cases ph with
  | wait rid ph =>
    refine ⟨fun _ _ _ he => (nomatch he), fun _ => ?_⟩
    rcases Task.answered_wait h with rfl | rfl
    · exact hf
    · exact hf
  | patch ino content rid =>
    cases answer with
    | ok =>
      cases h
      refine ⟨fun _ _ _ he _ => ?_, fun hno => absurd ⟨rfl, rfl⟩ (hno ino content rid)⟩
      cases he
      exact ⟨hf, rid, rfl⟩
    | err e =>
      refine ⟨fun _ _ _ _ he => (nomatch he), fun _ => ?_⟩
      cases e <;> cases h <;> trivial
    | created | status | documents => cases h
  | post ino content =>
    refine ⟨fun _ _ _ he => (nomatch he), fun _ => ?_⟩
    cases answer with
    | created rid => cases h; exact hf
    | err e => cases e <;> cases h <;> trivial
    | ok | status | documents => cases h
  | upload ino content =>
    refine ⟨fun _ _ _ he => (nomatch he), fun _ => ?_⟩
    cases answer with
    | created rid => cases h; exact hf
    | err e => cases e <;> cases h <;> trivial
    | ok | status | documents => cases h
  | delete =>
    refine ⟨fun _ _ _ he => (nomatch he), fun _ => ?_⟩
    cases answer with
    | ok => cases h; exact fun hp => absurd hp hf
    | err e => cases e <;> cases h <;> trivial
    | created | status | documents => cases h
  | lookup newFp =>
    refine ⟨fun _ _ _ he => (nomatch he), fun _ => ?_⟩
    cases answer with
    | documents ids =>
      cases ids with
      | nil => cases h; exact fun hp => absurd hp hf
      | cons rid ids => cases h; exact hf
    | err e => cases h; trivial
    | ok | created | status => cases h
  | rename newFp rid =>
    refine ⟨fun _ _ _ he => (nomatch he), fun _ => ?_⟩
    cases answer with
    | ok => cases h; exact fun hp => absurd hp hf
    | err e => cases e <;> cases h <;> trivial
    | created | status | documents => cases h
  | start | clearRemoteId | mapInode | mapRow | markMirrored | clearDirty | succeed | fail | poison | sibling | drop => cases h

/-- A call on the database leaves a task where it fits, with the home that it has mapped. -/
theorem dbStep_fits {ph next : Phase} (h : Task.dbStep db j nowMs ph = some (db', some next)) (hf : Fits j home ph) :
    (∀ ino rid, ph = .mapInode ino rid → Fits j (some (ino, rid)) next) ∧
      ((∀ ino rid, ph ≠ .mapInode ino rid) → Fits j home next) := by
  cases ph with
  | start => cases h; exact ⟨fun _ _ he => (nomatch he), fun _ => begin_fits⟩
  | mapInode ino rid =>
    cases h
    refine ⟨fun _ _ he => ?_, fun hno => absurd rfl (hno ino rid)⟩
    cases he
    exact ⟨hf, rid, rfl⟩
  | mapRow ino rid => cases h; exact ⟨fun _ _ he => (nomatch he), fun _ => hf⟩
  | markMirrored ino => cases h; exact ⟨fun _ _ he => (nomatch he), fun _ => hf⟩
  | clearDirty ino =>
    cases h
    obtain ⟨hc, rid, hh⟩ := hf
    exact ⟨fun _ _ he => (nomatch he), fun _ _ => ⟨ino, rid, hc, hh⟩⟩
  | clearRemoteId rid => cases h; exact ⟨fun _ _ he => (nomatch he), fun _ => trivial⟩
  | poison status body sib =>
    cases sib with
    | true => cases h; exact ⟨fun _ _ he => (nomatch he), fun _ => trivial⟩
    | false => cases h
  | succeed | fail | sibling | drop => cases h
  | wait | patch | post | upload | delete | lookup | rename => cases h

/-! ### The tasks and their homes -/

variable {s t : St} {a : Changes.Act}

/-- Each task fits its home. -/
structure Paired (tasks : List Task) (homes : List (Option (Ino × String))) : Prop where
  length : homes.length = tasks.length
  fits : ∀ (n : ℕ) (k : Task) (h : Option (Ino × String)), tasks[n]? = some k → homes[n]? = some h →
    Fits k.job h k.phase

/-- A task has a home that fits it. -/
theorem Paired.has_home {tasks : List Task} {homes : List (Option (Ino × String))} (hp : Paired tasks homes)
    {n : ℕ} {k : Task}
    (hk : tasks[n]? = some k) : ∃ home, homes[n]? = some home ∧ Fits k.job home k.phase := by
  have hh := List.getElem?_eq_getElem (hp.length ▸ (List.getElem?_eq_some_iff.mp hk).1)
  exact ⟨_, hh, hp.fits n k _ hk hh⟩

theorem Paired.append {tasks : List Task} {homes : List (Option (Ino × String))} (hp : Paired tasks homes) {k : Task}
    {h : Option (Ino × String)} (hf : Fits k.job h k.phase) : Paired (tasks ++ [k]) (homes ++ [h]) := by
  refine ⟨by simp [hp.length], fun n k' h' hk hh => ?_⟩
  rcases Nat.lt_or_ge n tasks.length with hlt | hge
  · rw [List.getElem?_append_left hlt] at hk
    rw [List.getElem?_append_left (hp.length ▸ hlt)] at hh
    exact hp.fits n k' h' hk hh
  · rw [List.getElem?_append_right hge] at hk
    rw [List.getElem?_append_right (hp.length ▸ hge), hp.length] at hh
    obtain rfl := List.mem_singleton.mp (List.mem_of_getElem? hk)
    obtain rfl := List.mem_singleton.mp (List.mem_of_getElem? hh)
    exact hf

theorem Paired.eraseIdx {tasks : List Task} {homes : List (Option (Ino × String))} (hp : Paired tasks homes) (n : ℕ) :
    Paired (tasks.eraseIdx n) (homes.eraseIdx n) := by
  refine ⟨by rw [List.length_eraseIdx, List.length_eraseIdx, hp.length], fun m k h hk hh => ?_⟩
  rw [List.getElem?_eraseIdx] at hk hh
  split_ifs at hk hh
  · exact hp.fits m k h hk hh
  · exact hp.fits (m + 1) k h hk hh

/-- One task moves on, and its home, if it changes, is set with it. -/
theorem Paired.set {tasks : List Task} {homes homes' : List (Option (Ino × String))} (hp : Paired tasks homes)
    {n : ℕ} {k : Task}
    {ph : Phase} (hh : homes' = homes ∧ (∀ h, homes[n]? = some h → Fits k.job h ph) ∨
      ∃ h, homes' = homes.set n h ∧ Fits k.job h ph) :
    Paired (tasks.set n { k with phase := ph }) homes' := by
  refine ⟨?_, fun m k' h' hk' hh' => ?_⟩
  · rcases hh with ⟨rfl, -⟩ | ⟨h, rfl, -⟩
    · rw [List.length_set, hp.length]
    · rw [List.length_set, List.length_set, hp.length]
  · rw [List.getElem?_set] at hk'
    split_ifs at hk' with hn hlt
    · cases hk'
      subst hn
      rcases hh with ⟨rfl, hf⟩ | ⟨h, rfl, hf⟩
      · exact hf h' hh'
      · rw [List.getElem?_set_self (hp.length ▸ hlt)] at hh'
        cases hh'
        exact hf
    · rcases hh with ⟨rfl, -⟩ | ⟨h, rfl, -⟩
      · exact hp.fits m k' h' hk' hh'
      · rw [List.getElem?_set_ne hn] at hh'
        exact hp.fits m k' h' hk' hh'

theorem homesAfter_db {n : ℕ} {k : Task} {next : Option Phase} (hk : s.mount.tasks[n]? = some k)
    (hd : Task.dbStep s.mount.db k.job nowMs k.phase = some (db', next)) :
    homesAfter s (.mount (.taskDb n nowMs)) = homesDb s.homes n k.phase next := by
  simp only [homesAfter, hk, Option.bind_some, hd, Option.map_some, Option.getD_some]

theorem homesAfter_answer {n : ℕ} {k : Task} {answer : Answer} {timedOut : Bool} (hk : s.mount.tasks[n]? = some k) :
    homesAfter s (.mount (.taskAnswer n answer timedOut)) = homesAnswered s.homes n k.phase answer := by
  simp only [homesAfter, hk, Option.map_some, Option.getD_some]

theorem homesAnswered_cases (homes : List (Option (Ino × String))) (n : ℕ) (ph : Phase) (answer : Answer) :
    (∃ ino content rid, ph = .patch ino content rid ∧ answer = .ok ∧
      homesAnswered homes n ph answer = homes.set n (some (ino, rid))) ∨
    (∀ ino content rid, ¬ (ph = .patch ino content rid ∧ answer = .ok)) ∧ homesAnswered homes n ph answer = homes := by
  cases ph with
  | patch ino content rid =>
    cases answer with
    | ok => exact .inl ⟨ino, content, rid, rfl, rfl, rfl⟩
    | created | status | documents | err => exact .inr ⟨fun _ _ _ h => (nomatch h.2), rfl⟩
  | start | wait | post | upload | clearRemoteId | mapInode | mapRow | markMirrored | clearDirty | delete | lookup | rename
  | succeed | fail | poison | sibling | drop => exact .inr ⟨fun _ _ _ h => (nomatch h.1), rfl⟩

/-- A step leaves each task where it fits its home. -/
theorem step_fits (hst : step s a = some t) (hp : Paired s.mount.tasks s.homes) : Paired t.mount.tasks t.homes := by
  obtain ⟨m, hm, rfl⟩ := Option.map_eq_some_iff.mp hst
  cases a with
  | name op now => cases hm; exact hp
  | setattr ino size => cases hm; exact hp
  | mount b =>
    cases b with
    | claim now =>
      unfold Changes.step Mount.step at hm
      dsimp only at hm
      split_ifs at hm
      obtain ⟨⟨j, q⟩, -, rfl⟩ := Option.map_eq_some_iff.mp hm
      exact hp.append trivial
    | taskDb n now =>
      obtain ⟨k, hk, hm⟩ := Option.bind_eq_some_iff.mp hm
      obtain ⟨⟨d, next⟩, hd, rfl⟩ := Option.map_eq_some_iff.mp hm
      show Paired (Mount.putTask s.mount.tasks n k next) (homesAfter s (.mount (.taskDb n now)))
      rw [homesAfter_db hk hd]
      cases next with
      | none =>
        cases hph : k.phase with
        | mapInode ino rid =>
          rw [hph] at hd
          cases hd
        | start | wait | patch | post | upload | clearRemoteId | mapRow | markMirrored | clearDirty | delete | lookup | rename
        | succeed | fail | poison | sibling | drop => exact hp.eraseIdx n
      | some ph =>
        refine hp.set ?_
        cases hph : k.phase with
        | mapInode ino rid =>
          rw [hph] at hd
          cases hd
          refine .inr ⟨_, rfl, ?_, rid, rfl⟩
          obtain ⟨home, -, hf⟩ := hp.has_home hk
          rwa [hph] at hf
        | start | wait | patch | post | upload | clearRemoteId | mapRow | markMirrored | clearDirty | delete | lookup | rename
        | succeed | fail | poison | sibling | drop =>
          refine .inl ⟨rfl, fun h hh => (dbStep_fits hd (hp.fits n k h hk hh)).2 fun ino rid he => ?_⟩
          rw [hph] at he
          cases he
    | taskAnswer n answer timedOut =>
      obtain ⟨k, hk, hm⟩ := Option.bind_eq_some_iff.mp hm
      obtain ⟨ph, hph, rfl⟩ := Option.map_eq_some_iff.mp hm
      show Paired (s.mount.tasks.set n { k with phase := ph }) (homesAfter s (.mount (.taskAnswer n answer timedOut)))
      obtain ⟨h, hh, hfits⟩ := hp.has_home hk
      have hf := answered_fits hph hfits
      rw [homesAfter_answer hk]
      refine hp.set ?_
      rcases homesAnswered_cases s.homes n k.phase answer with ⟨ino, content, rid, he, hok, heq⟩ | ⟨hno, heq⟩
      · exact .inr ⟨_, heq, hf.1 ino content rid he hok⟩
      · refine .inl ⟨heq, fun h' hh' => ?_⟩
        obtain rfl := Option.some.inj (hh.symm.trans hh')
        exact hf.2 hno
    | crash => cases hm; exact ⟨rfl, fun n k h hk => (nomatch hk)⟩
    | createFile | write | truncate | flush | unlink | rename | reconcile | applyDeletion | rehydrate | poll =>
      cases hm
      exact hp

/-! ### The files and their documents -/

/-- The files of the homes have been there, and those that still are have their documents. -/
def Kept (db : Db) (homes : List (Option (Ino × String))) : Prop :=
  ∀ i rid, some (i, rid) ∈ homes → i < db.nextIno ∧ ((db.getInode i).isSome = true → db.getRemoteId i = some rid)

/-- What holds in every state that such a run reaches. -/
structure Inv (s : St) : Prop where
  sorted : Sorted s.mount.db
  inodes : ∀ x ∈ s.mount.db.inodes, x.ino < s.mount.db.nextIno
  root : ROOT_INO < s.mount.db.nextIno
  contents : Held (fun pl => ∀ i ∈ pl.contentIno, i < s.mount.db.nextIno) s.mount
  paired : Paired s.mount.tasks s.homes
  kept : Kept s.mount.db s.homes

theorem Inv.start : Inv init :=
  ⟨.nil, by decide, by decide, ⟨Slots.empty, fun _ hk => (nomatch hk)⟩, ⟨rfl, fun _ _ _ hk => (nomatch hk)⟩,
    fun _ _ hh => (nomatch hh)⟩

/-- The homes that were there are kept by a call that leaves them. -/
theorem kept_step {m m' : Mount} {homes : List (Option (Ino × String))} (hs : Sorted m.db)
    (hm : Changes.step m a = some m')
    (hroot : ¬ (permit m a).root) (h : Kept m.db homes)
    (hleaves : ∀ i rid, some (i, rid) ∈ homes → (m.db.getInode i).isSome = true → Leaves m i rid a) :
    Kept m'.db homes := by
  intro i rid hmem
  have hmany : Many (permit m a) m.db m'.db := step_changes hs hm
  obtain ⟨hi, hmapped⟩ := h i rid hmem
  refine ⟨hi.trans_le hmany.next, fun hsome => ?_⟩
  have hthere : (m.db.getInode i).isSome = true := by
    by_contra hnone
    rw [hmany.gone (fun h => absurd h hroot) hi (Option.not_isSome_iff_eq_none.mp hnone)] at hsome
    cases hsome
  have hl := hleaves i rid hmem hthere
  refine hmany.mapped hs hl.map (fun hunmap => ?_) hl.forget (hmapped hthere)
  rw [step_gone hm hunmap (hl.unmap hunmap) hi] at hsome
  cases hsome

theorem Kept.set {homes : List (Option (Ino × String))} {n : ℕ} (h : Kept db homes) (hi : i < db.nextIno)
    (hr : (db.getInode i).isSome = true → db.getRemoteId i = some rid) : Kept db (homes.set n (some (i, rid))) := by
  intro k r hmem
  rcases List.mem_or_eq_of_mem_set hmem with hmem | he
  · exact h k r hmem
  · cases he
    exact ⟨hi, hr⟩

theorem Kept.mono {homes homes' : List (Option (Ino × String))} (h : Kept db homes)
    (hsub : ∀ i rid, some (i, rid) ∈ homes' → some (i, rid) ∈ homes) : Kept db homes' :=
  fun i rid hmem => h i rid (hsub i rid hmem)

theorem step_kept (h : Inv s) (hok : Ok s a) (hst : step s a = some t) : Kept t.mount.db t.homes := by
  obtain ⟨m, hm, rfl⟩ := Option.map_eq_some_iff.mp hst
  show Kept m.db (homesAfter s a)
  have hold (hroot : ¬ (permit s.mount a).root) : Kept m.db s.homes := kept_step h.sorted hm hroot h.kept hok.leaves
  cases a with
  | name op now => cases op <;> exact hold id
  | setattr ino size => exact hold id
  | mount b =>
    cases b with
    | claim now =>
      refine (hold id).mono fun i rid hmem => ?_
      rcases List.mem_append.mp hmem with hmem | hmem
      · exact hmem
      · cases List.mem_singleton.mp hmem
    | taskDb n now =>
      obtain ⟨k, hk, hm'⟩ := Option.bind_eq_some_iff.mp hm
      obtain ⟨⟨d, next⟩, hd, rfl⟩ := Option.map_eq_some_iff.mp hm'
      have hroot : ¬ (permit s.mount (.mount (.taskDb n now))).root := by
        rw [permit_task hk]
        cases k.phase <;> exact id
      have hkept : Kept d s.homes := hold hroot
      obtain ⟨home, -, hf⟩ := h.paired.has_home hk
      show Kept d (homesAfter s (.mount (.taskDb n now)))
      rw [homesAfter_db hk hd]
      cases hph : k.phase with
      | mapInode ino rid =>
        rw [hph] at hd hf
        cases hd
        have hi : ino < s.mount.db.nextIno := h.contents.2 k (List.mem_of_getElem? hk) ino hf
        refine hkept.set hi fun _ => ?_
        rw [getRemoteId_setRemoteId, if_pos rfl]
      | start | wait | patch | post | upload | clearRemoteId | mapRow | markMirrored | clearDirty | delete | lookup | rename
      | succeed | fail | poison | sibling | drop =>
        cases next with
        | none => exact hkept.mono fun _ _ hmem => List.mem_of_mem_eraseIdx hmem
        | some ph => exact hkept
    | taskAnswer n answer timedOut =>
      obtain ⟨k, hk, hm'⟩ := Option.bind_eq_some_iff.mp hm
      obtain ⟨ph, hph, rfl⟩ := Option.map_eq_some_iff.mp hm'
      have hkept : Kept s.mount.db s.homes := hold id
      obtain ⟨home, -, hf⟩ := h.paired.has_home hk
      show Kept s.mount.db (homesAfter s (.mount (.taskAnswer n answer timedOut)))
      rw [homesAfter_answer hk]
      rcases homesAnswered_cases s.homes n k.phase answer with ⟨ino, content, rid, hpatch, rfl, heq⟩ | ⟨-, heq⟩
      · rw [heq]
        rw [hpatch] at hf
        have hi : ino < s.mount.db.nextIno := h.contents.2 k (List.mem_of_getElem? hk) ino hf
        exact hkept.set hi (hok.patched n timedOut k ino content rid rfl hk hpatch)
      · rw [heq]
        exact hkept
    | crash => exact fun _ _ hmem => (nomatch hmem)
    | createFile | write | truncate | flush | unlink | rename | reconcile | applyDeletion | rehydrate | poll => exact hold id

theorem step_inv (h : Inv s) (hok : Ok s a) (hst : step s a = some t) : Inv t := by
  have hkept := step_kept h hok hst
  have hpaired := step_fits hst h.paired
  obtain ⟨m, hm, rfl⟩ := Option.map_eq_some_iff.mp hst
  have hmany : Many (permit s.mount a) s.mount.db m.db := step_changes h.sorted hm
  obtain ⟨hinodes, hroot⟩ := hmany.rows h.inodes h.root
  exact ⟨hmany.sorted h.sorted, hinodes, hroot, step_contents hm hmany.next h.inodes h.contents, hpaired, hkept⟩

/-- A mapped file is flushed as an update of its document. -/
theorem learned (h : db.getRemoteId i = some rid) : Learned db i rid := by
  refine ⟨h, fun f now p hi hon hp hsize => ?_⟩
  subst hi
  unfold SqliteFile.flush
  rw [hon, hp]
  dsimp only
  rw [if_neg hsize, h]
  rfl

/-- **A pushed file knows its document** in every run whose steps leave the
files of unfinished jobs their documents. -/
theorem known_home (h : Reach step Ok init s) : Known s := by
  have hinv : Inv s := h.inv .start fun _ _ _ hI hok hst => step_inv hI hok hst
  intro n k now t hk hph hop hst
  obtain ⟨home, hh, hf⟩ := hinv.paired.has_home hk
  rw [hph] at hf
  have hpush : pushes k.job.op := by
    rcases hop with hop | hop
    · rw [hop]
      exact ⟨nofun, nofun⟩
    · rw [hop]
      exact ⟨nofun, nofun⟩
  obtain ⟨i, rid, hc, rfl⟩ := hf hpush
  refine ⟨i, rid, hc, hh, fun hsome => learned ?_⟩
  obtain ⟨m, hm, rfl⟩ := Option.map_eq_some_iff.mp hst
  obtain ⟨k', hk', hm⟩ := Option.bind_eq_some_iff.mp hm
  obtain rfl := Option.some.inj (hk.symm.trans hk')
  rw [hph] at hm
  cases hm
  exact (hinv.kept i rid (List.mem_of_getElem? hh)).2 hsome

/-- Calls that take no document from a file, and accept no `PATCH`. -/
private def calm (s : St) : Changes.Act → Bool
  | .mount (.createFile ..) | .mount (.write ..) | .mount (.flush ..) | .mount (.claim _) => true
  | .mount (.taskDb n _) =>
    s.homes.all Option.isNone || (s.mount.tasks[n]?).any fun k =>
      match k.phase with
      | .mapRow .. | .markMirrored _ | .clearDirty _ => true
      | _ => false
  | .mount (.taskAnswer _ answer _) => answer ≠ .ok
  | _ => false

/-- A call without a permit leaves every file its document. -/
theorem leaves_of_empty {m : Mount} {i : Ino} {rid : String} (h : permit m a = {}) : Leaves m i rid a := by
  refine ⟨?_, ?_, ?_⟩ <;> rw [h]
  · exact id
  · exact id
  · exact nofun

private theorem calm_ok (h : calm s a = true) : Ok s a := by
  have none_home (hall : s.homes.all Option.isNone = true) (i : Ino) (rid : String)
      (hmem : some (i, rid) ∈ s.homes) : False :=
    absurd (List.all_eq_true.mp hall _ hmem) nofun
  cases a with
  | name | setattr => cases h
  | mount b =>
    cases b with
    | createFile | write | flush | claim => exact ⟨fun _ _ _ _ => leaves_of_empty rfl,
      fun _ _ _ _ _ _ he => (nomatch he)⟩
    | taskAnswer n answer timedOut =>
      refine ⟨fun _ _ _ _ => leaves_of_empty rfl, fun _ _ _ _ _ _ he => ?_⟩
      cases he
      simp [calm] at h
    | taskDb n now =>
      refine ⟨fun i rid hmem _ => ?_, fun _ _ _ _ _ _ he => (nomatch he)⟩
      rcases (Bool.or_eq_true _ _).mp h with hnone | hany
      · exact (none_home hnone i rid hmem).elim
      · obtain ⟨k, hk, hphase⟩ := (Option.any_eq_true _ _).mp hany
        suffices hnothing : ¬ (phasePermit k.phase).unmap i ∧ ¬ (phasePermit k.phase).forget rid ∧
            ∀ r, (phasePermit k.phase).map i r → r = rid by
          rw [← permit_task hk] at hnothing
          exact ⟨fun hunmap => absurd hunmap hnothing.1, hnothing.2.1, hnothing.2.2⟩
        cases hph : k.phase with
        | mapRow | markMirrored | clearDirty => exact ⟨id, id, nofun⟩
        | start | wait | patch | post | upload | clearRemoteId | mapInode | delete | lookup | rename | succeed | fail | poison
        | sibling | drop =>
          rw [hph] at hphase
          cases hphase
    | unlink | rename | reconcile | applyDeletion | rehydrate | poll | truncate | crash => cases h

/-- A new file is pushed; nothing else happens. -/
theorem known_home_new : ∃ s, Reach step Ok init s ∧ s.mount.tasks.map Task.phase = [.succeed] ∧
    s.homes = [some (2, "A")] ∧
    Known s := by
  obtain ⟨s, hreach, hs⟩ : ∃ s, Reach step (fun s a => calm s a = true) init s ∧
      decide (s.mount.tasks.map Task.phase = [.succeed] ∧ s.homes = [some (2, "A")]) = true :=
    Reach.exists_of_run
      [.mount (.createFile ROOT_INO "a.md"), .mount (.write ⟨2, true, some "/a.md"⟩ 0 [97] 0),
       .mount (.flush ⟨2, true, some "/a.md"⟩ 0), .mount (.claim 5000), .mount (.taskDb 0 5000),
       .mount (.taskAnswer 0 (.created "A") false), .mount (.taskDb 0 5000), .mount (.taskDb 0 5000),
       .mount (.taskAnswer 0 (.status "done") false), .mount (.taskDb 0 6000), .mount (.taskDb 0 6000)] (by decide)
  have hok : Reach step Ok init s := hreach.mono fun _ _ => calm_ok
  obtain ⟨hphase, hhome⟩ := of_decide_eq_true hs
  exact ⟨s, hok, hphase, hhome, known_home hok⟩

/-- A note of the server. -/
private def letter : Document := ⟨"A", some "/a.md", some [97], "done", "2026-01-01T00:00:00Z", some "text", none⟩

/-- The note is renamed, and a new file is made at its old path: its create takes the row of the
rename with the row's id, and its content goes to the document of the note. -/
theorem inherits : ¬ ∀ s, Reach step anyStep init s → Known s := by
  intro hall
  obtain ⟨s, hreach, hs⟩ : ∃ s, Reach step anyStep init s ∧ decide
      (s.mount.tasks.map (fun k => (k.job.op, k.job.contentIno, k.phase)) = [(.create, some 3, .succeed)] ∧
        (s.mount.db.getInode 3).isSome = true ∧ s.mount.db.getRemoteId 3 = none) = true :=
    Reach.exists_of_run
      [.mount (.reconcile letter 0), .mount (.rename ROOT_INO "a.md" ROOT_INO "b.md" 1),
       .mount (.createFile ROOT_INO "a.md"), .mount (.write ⟨3, true, some "/a.md"⟩ 0 [98] 2),
       .mount (.flush ⟨3, true, some "/a.md"⟩ 2), .mount (.claim 5000), .mount (.taskDb 0 5000),
       .mount (.taskAnswer 0 (.status "done") false), .mount (.taskAnswer 0 .ok false),
       .mount (.taskAnswer 0 (.status "done") false), .mount (.taskDb 0 6000), .mount (.taskDb 0 6000)] (by decide)
  obtain ⟨htasks, hthere, hnone⟩ := of_decide_eq_true hs
  obtain ⟨k, hk, hjob⟩ : ∃ k, s.mount.tasks[0]? = some k ∧
      (k.job.op, k.job.contentIno, k.phase) = (.create, some 3, .succeed) :=
    Option.map_eq_some_iff.mp (by rw [← List.getElem?_map, htasks]; rfl)
  obtain ⟨hop, hc, hph⟩ : k.job.op = .create ∧ k.job.contentIno = some 3 ∧ k.phase = .succeed :=
    ⟨congrArg Prod.fst hjob, congrArg (fun x => x.2.1) hjob, congrArg (fun x => x.2.2) hjob⟩
  obtain ⟨m, hm, hdb⟩ : ∃ m, Changes.step s.mount (.mount (.taskDb 0 6000)) = some m ∧
      m.db = { s.mount.db with queue := s.mount.db.queue.finalizeSuccess k.job.filepath 6000 } := by
    unfold Changes.step Mount.step
    dsimp only
    rw [hk, Option.bind_some, hph]
    exact ⟨_, rfl, rfl⟩
  have hstep : step s (.mount (.taskDb 0 6000)) = some ⟨m, homesAfter s (.mount (.taskDb 0 6000))⟩ := by
    unfold step
    rw [hm]
    rfl
  obtain ⟨i, rid, hi, -, hlearned⟩ := hall s hreach 0 k 6000 _ hk hph (.inl hop) hstep
  obtain rfl := Option.some.inj (hc.symm.trans hi)
  have hmapped : m.db.getRemoteId 3 = some rid := (hlearned (by rw [hdb]; exact hthere)).mapped
  rw [hdb] at hmapped
  have habsurd : none = some rid := hnone.symm.trans hmapped
  cases habsurd

end Lemmas

end Homes
end Smfs
