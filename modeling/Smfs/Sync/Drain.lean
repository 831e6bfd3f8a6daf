/-
# The push worker against the server

The tasks of the push worker take their steps in any order against a server
that answers at once and processes later. An answer may get lost on its way
back, a request may fail before it arrives, and both are tried again after the
backoff. Nothing else happens at the mount meanwhile.

Key definitions: `Drain.St`, `Drain.Act`, `Drain.step`, `Drain.RenamePhase`.
Key theorems: `Drain.dbStep_get`, `Drain.claim_cases`, `Drain.RenamePhase.answered`.
-/
import Smfs.Mount
import Smfs.Server

namespace Smfs
namespace Drain

structure St where
  mount : Mount
  server : Server
  deriving DecidableEq

/-- What may happen. -/
inductive Act
  | claim (nowMs : ℤ)
  | taskDb (i : ℕ) (nowMs : ℤ)
  /-- The server handles a task's request, and the task hears its answer, or an error instead. -/
  | serve (i : ℕ) (newId : String) (heard : Option ApiError) (timedOut : Bool)
  /-- A task's request fails before it reaches the server. -/
  | fail (i : ℕ) (e : ApiError) (timedOut : Bool)
  | finish (id : String)
  | crash

/-- The request creates a document. -/
def creates : Call → Bool
  | .createDocument .. | .createDocumentMultipart .. => true
  | _ => false

/-- The request that a task waits for. -/
def request (s : St) (i : ℕ) : Option (Task × Call) :=
  (s.mount.tasks[i]?).bind fun t => (Task.call t.job t.phase).map fun c => (t, c)

def step (s : St) : Act → Option St
  | .claim now => (s.mount.step (.claim now)).map fun m => { s with mount := m }
  | .taskDb i now => (s.mount.step (.taskDb i now)).map fun m => { s with mount := m }
  | .serve i newId heard timedOut =>
    (request s i).bind fun (_, c) =>
      -- an id is given to one document
      if creates c && (s.server.get newId).isSome then none
      else
        let (a, server) := s.server.handle newId c
        (s.mount.step (.taskAnswer i ((heard.map Answer.err).getD a) timedOut)).map fun m => ⟨m, server⟩
  | .fail i e timedOut => (s.mount.step (.taskAnswer i (.err e) timedOut)).map fun m => { s with mount := m }
  | .finish id => some { s with server := s.server.finish id }
  | .crash => (s.mount.step .crash).map fun m => { s with mount := m }

section Lemmas

open PushQueue

variable {s t : St} {db db' : Db} {j : PushJob} {p : String} {nowMs : ℤ}

/-! ### Rows -/

/-- A step of a task leaves the rows of other filepaths alone. -/
theorem dbStep_get {ph : Phase} {next : Option Phase} (hp : p ≠ j.filepath)
    (h : Task.dbStep db j nowMs ph = some (db', next)) : db'.queue.get p = db.queue.get p := by
  cases ph with
  | start | mapInode | markMirrored | clearDirty => cases h; rfl
  | clearRemoteId | mapRow =>
    cases h
    exact get_setRemoteId.trans (if_neg hp)
  | succeed => cases h; exact get_finalizeSuccess.trans (if_neg hp)
  | fail => cases h; exact get_finalizeFailure.trans (if_neg hp)
  | poison => cases h; exact get_poison.trans (if_neg hp)
  | drop => cases h; exact get_drop.trans (if_neg hp)
  | sibling =>
    cases h
    rw [Fs.createDerivedSibling_sameSync.queue]
  | wait | patch | post | upload | delete | lookup | rename => cases h

theorem dbStep_wf {ph : Phase} {next : Option Phase} (hq : db.queue.WF)
    (h : Task.dbStep db j nowMs ph = some (db', next)) : db'.queue.WF := by
  rcases Task.dbStep_queue h with hf | ⟨hc, -⟩
  · exact hf.wf hq
  · exact hc.wf hq

/-- A claim takes a row into a task and changes nothing else. -/
theorem claim_cases (hq : s.mount.db.queue.WF) (h : step s (.claim nowMs) = some t) :
    ∃ r, s.mount.db.queue.get r.filepath = some r ∧ claimable nowMs r = true ∧ t.server = s.server ∧
      t.mount.db.queue.WF ∧
      t.mount.tasks = s.mount.tasks ++ [⟨jobOf r, .start⟩] ∧
      (∀ p, t.mount.db.queue.get p = if p = r.filepath then some (held nowMs r) else s.mount.db.queue.get p) ∧
      t.mount.db = { s.mount.db with queue := t.mount.db.queue } := by
  obtain ⟨m, hm, rfl⟩ := Option.map_eq_some_iff.mp h
  unfold Mount.step at hm
  dsimp only at hm
  split_ifs at hm
  obtain ⟨⟨j, q⟩, hc, rfl⟩ := Option.map_eq_some_iff.mp hm
  have hwf : q.WF := hq.claimNext hc
  obtain ⟨r, hr, hclaim, rfl, -, rfl⟩ := claimNext_spec hc
  have hg := hq.get_mem hr
  exact ⟨r, hg, hclaim, rfl, hwf, rfl, fun p => get_claimed hg, rfl⟩

/-- A step of a task on the database. -/
theorem taskDb_cases {i : ℕ} (h : step s (.taskDb i nowMs) = some t) :
    ∃ k next, s.mount.tasks[i]? = some k ∧ Task.dbStep s.mount.db k.job nowMs k.phase = some (t.mount.db, next) ∧
      t.mount.tasks = Mount.putTask s.mount.tasks i k next ∧ t.server = s.server := by
  obtain ⟨m, hm, rfl⟩ := Option.map_eq_some_iff.mp h
  obtain ⟨k, hk, hm⟩ := Option.bind_eq_some_iff.mp hm
  obtain ⟨⟨db, next⟩, hd, rfl⟩ := Option.map_eq_some_iff.mp hm
  exact ⟨k, next, hk, hd, rfl, rfl⟩

/-- An answer reaches a task. -/
theorem answer_cases {i : ℕ} {a : Answer} {timedOut : Bool} {m m' : Mount}
    (h : m.step (.taskAnswer i a timedOut) = some m') : ∃ k next, m.tasks[i]? = some k ∧
      Task.answered k.job timedOut k.phase a = some next ∧ m' =
        { m with tasks := m.tasks.set i { k with phase := next } } := by
  obtain ⟨k, hk, hm⟩ := Option.bind_eq_some_iff.mp h
  obtain ⟨next, hn, rfl⟩ := Option.map_eq_some_iff.mp hm
  exact ⟨k, next, hk, hn, rfl⟩

/-- The server handles a request. -/
theorem serve_cases {i : ℕ} {newId : String} {heard : Option ApiError} {timedOut : Bool}
    (h : step s (.serve i newId heard timedOut) = some t) : ∃ k c next, request s i = some (k, c) ∧
      s.mount.tasks[i]? = some k ∧ Task.call k.job k.phase = some c ∧
      (creates c = true → s.server.get newId = none) ∧ t.server = (s.server.handle newId c).2 ∧
      Task.answered k.job timedOut k.phase ((heard.map Answer.err).getD (s.server.handle newId c).1) = some next ∧
      t.mount = { s.mount with tasks := s.mount.tasks.set i { k with phase := next } } := by
  obtain ⟨⟨k, c⟩, hreq, h⟩ := Option.bind_eq_some_iff.mp h
  have hreq' := hreq
  obtain ⟨k', hk, hcall⟩ := Option.bind_eq_some_iff.mp hreq'
  obtain ⟨c', hc, he⟩ := Option.map_eq_some_iff.mp hcall
  cases he
  dsimp only at h
  split_ifs at h with hid
  obtain ⟨m, hm, rfl⟩ := Option.map_eq_some_iff.mp h
  obtain ⟨k', next, hk', hn, rfl⟩ := answer_cases hm
  rw [hk] at hk'
  cases hk'
  refine ⟨k, c, next, hreq, hk, hc, fun hcr => ?_, rfl, hn, rfl⟩
  rw [hcr, Bool.true_and] at hid
  exact Option.not_isSome_iff_eq_none.mp hid

theorem fail_cases {i : ℕ} {e : ApiError} {timedOut : Bool} (h : step s (.fail i e timedOut) = some t) :
    ∃ k next, s.mount.tasks[i]? = some k ∧ Task.answered k.job timedOut k.phase (.err e) = some next ∧
      t = { s with mount := { s.mount with tasks := s.mount.tasks.set i { k with phase := next } } } := by
  obtain ⟨m, hm, rfl⟩ := Option.map_eq_some_iff.mp h
  obtain ⟨k, next, hk, hn, rfl⟩ := answer_cases hm
  exact ⟨k, next, hk, hn, rfl⟩

/-- At most one task has a property. -/
def AtMostOne (P : Task → Bool) (tasks : List Task) : Prop :=
  ∀ (i j : ℕ) (a b : Task), tasks[i]? = some a → tasks[j]? = some b → P a = true → P b = true → i = j

theorem AtMostOne.erase {P : Task → Bool} {tasks : List Task} (h : AtMostOne P tasks) (n : ℕ) :
    AtMostOne P (tasks.eraseIdx n) := by
  intro i j a b ha hb hPa hPb
  rw [List.getElem?_eraseIdx] at ha hb
  split_ifs at ha hb with hi hj hj
  · exact h i j a b ha hb hPa hPb
  · have := h i (j + 1) a b ha hb hPa hPb
    omega
  · have := h (i + 1) j a b ha hb hPa hPb
    omega
  · have := h (i + 1) (j + 1) a b ha hb hPa hPb
    omega

theorem AtMostOne.other {P : Task → Bool} {tasks : List Task} (h : AtMostOne P tasks) {i j : ℕ} {k x : Task}
    (hk : tasks[i]? = some k) (hP : P k = true) (hx : tasks[j]? = some x) (hne : j ≠ i) : P x = false := by
  by_contra hPx
  exact hne (h j i x k hx hk (by simpa using hPx) hP)

/-- After a step of the task that has the property, no other task has it. -/
theorem AtMostOne.put {P : Task → Bool} {tasks : List Task} (h : AtMostOne P tasks) {i : ℕ} {k : Task}
    (hk : tasks[i]? = some k) (hP : P k = true) (next : Option Phase) : AtMostOne P (Mount.putTask tasks i k next) ∧
      ∀ x ∈ Mount.putTask tasks i k next, P x = true → ∃ ph, next = some ph ∧ x = { k with phase := ph } := by
  cases next with
  | none =>
    refine ⟨h.erase i, fun x hx hPx => ?_⟩
    obtain ⟨j, hne, hj⟩ := List.mem_eraseIdx_iff_getElem?.mp hx
    rw [h.other hk hP hj hne] at hPx
    cases hPx
  | some ph =>
    have hidle : ∀ (j : ℕ) (x : Task), (tasks.set i { k with phase := ph })[j]? = some x → P x = true → j = i := by
      intro j x hj hPx
      by_contra hne
      rw [List.getElem?_set_ne (Ne.symm hne)] at hj
      rw [h.other hk hP hj hne] at hPx
      cases hPx
    refine ⟨fun a b x y ha hb hPa hPb => (hidle a x ha hPa).trans (hidle b y hb hPb).symm,
      fun x hx hPx => ⟨ph, rfl, ?_⟩⟩
    obtain ⟨j, hj⟩ := List.mem_iff_getElem?.mp hx
    obtain rfl := hidle j x hj hPx
    have hset : (tasks.set j { k with phase := ph })[j]? = some { k with phase := ph } :=
      List.getElem?_set_self (List.getElem?_eq_some_iff.mp hk).1
    exact Option.some.inj (hj.symm.trans hset)

/-- The step of a task that does not have the property, and does not come to have it. -/
theorem AtMostOne.put_other {P : Task → Bool} {tasks : List Task} (h : AtMostOne P tasks) {i : ℕ} {k : Task}
    {next : Option Phase} (hnext : ∀ ph, next = some ph → P { k with phase := ph } = false) :
    AtMostOne P (Mount.putTask tasks i k next) := by
  cases next with
  | none => exact h.erase i
  | some ph =>
    have hold : ∀ (j : ℕ) (x : Task), (tasks.set i { k with phase := ph })[j]? = some x → P x = true →
        tasks[j]? = some x := by
      intro j x hj hPx
      by_cases hji : i = j
      · subst hji
        have hlt : i < tasks.length := by
          have := (List.getElem?_eq_some_iff.mp hj).1
          rwa [List.length_set] at this
        rw [List.getElem?_set_self hlt] at hj
        rw [← Option.some.inj hj, hnext ph rfl] at hPx
        cases hPx
      · rwa [List.getElem?_set_ne hji] at hj
    exact fun a b x y ha hb hPa hPb => h a b x y (hold a x ha hPa) (hold b y hb hPb) hPa hPb

theorem AtMostOne.append_other {P : Task → Bool} {tasks : List Task} (h : AtMostOne P tasks) {k : Task}
    (hk : P k = false) :
    AtMostOne P (tasks ++ [k]) := by
  have hold : ∀ (i : ℕ) (a : Task), (tasks ++ [k])[i]? = some a → P a = true → tasks[i]? = some a := by
    intro i a ha hPa
    by_cases hlt : i < tasks.length
    · rwa [List.getElem?_append_left hlt] at ha
    · rw [List.getElem?_append_right (by omega)] at ha
      rw [List.mem_singleton.mp (List.mem_of_getElem? ha), hk] at hPa
      cases hPa
  exact fun i j a b ha hb hPa hPb => h i j a b (hold i a ha hPa) (hold j b hb hPb) hPa hPb

theorem atMostOne_append {P : Task → Bool} {tasks : List Task} {k : Task} (hidle : ∀ x ∈ tasks, P x = false) :
    AtMostOne P (tasks ++ [k]) := by
  have hlast : ∀ (i : ℕ) (a : Task), (tasks ++ [k])[i]? = some a → P a = true → i = tasks.length := by
    intro i a ha hPa
    have hlen := (List.getElem?_eq_some_iff.mp ha).1
    rw [List.length_append, List.length_singleton] at hlen
    by_contra hne
    rw [List.getElem?_append_left (by omega)] at ha
    rw [hidle a (List.mem_of_getElem? ha)] at hPa
    cases hPa
  exact fun i j a b ha hb hPa hPb => (hlast i a ha hPa).trans (hlast j b hb hPb).symm

/-- A task's call leaves both slots of its row, or promotes the pending one. -/
theorem dbStep_slots {ph : Phase} {next : Option Phase} {x' : PushRow}
    (h : Task.dbStep db j nowMs ph = some (db', next)) (hx' : db'.queue.get j.filepath = some x') :
    ∃ x, db.queue.get j.filepath = some x ∧
      (x'.main = x.main ∧ x'.pending = x.pending ∨ x.pending = some x'.main ∧ x'.pending = none) := by
  have hsame : db'.queue = db.queue → ∃ x, db.queue.get j.filepath = some x ∧
      (x'.main = x.main ∧ x'.pending = x.pending ∨ x.pending = some x'.main ∧ x'.pending = none) := by
    intro hq
    rw [hq] at hx'
    exact ⟨x', hx', .inl ⟨rfl, rfl⟩⟩
  have hmap : ∀ {f : PushRow → PushRow}, db'.queue.get j.filepath = (db.queue.get j.filepath).map f →
      (∀ x, (f x).main = x.main ∧ (f x).pending = x.pending) → ∃ x, db.queue.get j.filepath = some x ∧
        (x'.main = x.main ∧ x'.pending = x.pending ∨ x.pending = some x'.main ∧ x'.pending = none) := by
    intro f hg hf
    obtain ⟨x, hx, rfl⟩ := Option.map_eq_some_iff.mp (hg.symm.trans hx')
    exact ⟨x, hx, .inl (hf x)⟩
  cases ph with
  | start | mapInode | markMirrored | clearDirty =>
    cases h
    exact hsame rfl
  | clearRemoteId | mapRow =>
    cases h
    exact hmap (get_setRemoteId.trans (if_pos rfl)) fun _ => ⟨rfl, rfl⟩
  | succeed =>
    cases h
    rw [get_finalizeSuccess, if_pos rfl] at hx'
    obtain ⟨x, hx, hm⟩ := Option.bind_eq_some_iff.mp hx'
    obtain ⟨pl, hpl, rfl⟩ := Option.map_eq_some_iff.mp hm
    exact ⟨x, hx, .inr ⟨hpl, rfl⟩⟩
  | fail =>
    cases h
    exact hmap (get_finalizeFailure.trans (if_pos rfl)) fun _ => ⟨rfl, rfl⟩
  | poison =>
    cases h
    exact hmap (get_poison.trans (if_pos rfl)) fun _ => ⟨rfl, rfl⟩
  | drop =>
    cases h
    rw [get_drop, if_pos rfl] at hx'
    cases hx'
  | sibling =>
    cases h
    exact hsame Fs.createDerivedSibling_sameSync.queue
  | wait | patch | post | upload | delete | lookup | rename => cases h

/-- The phases in which a job that carries no content calls the database. -/
def settles : Phase → Bool
  | .start | .succeed | .fail _ _ => true
  | .poison _ _ withSibling => !withSibling
  | _ => false

/-- A row with an empty pending slot keeps what such a job was made from until
the job succeeds, and then goes. -/
theorem dbStep_row {P : PushRow → Prop} {ph : Phase} {next : Option Phase}
    (hpend : ∀ r, P r → r.pending = none) (hfail : ∀ e now bo r, P r → P (failed e now bo r))
    (hreject : ∀ st e now r, P r → P (rejected st e now r)) (hs : settles ph = true)
    (hrow : ∀ r, db.queue.get j.filepath = some r → P r) (h : Task.dbStep db j nowMs ph = some (db', next)) :
    (∀ r, db'.queue.get j.filepath = some r → P r) ∧
      (db'.queue.get j.filepath = none → db.queue.get j.filepath = none ∨ ph = .succeed) := by
  cases ph with
  | start => cases h; exact ⟨hrow, .inl⟩
  | succeed =>
    cases h
    refine ⟨fun r hr => ?_, fun _ => .inr rfl⟩
    rw [get_finalizeSuccess, if_pos rfl] at hr
    obtain ⟨x, hx, hm⟩ := Option.bind_eq_some_iff.mp hr
    rw [hpend x (hrow x hx)] at hm
    cases hm
  | fail error backoff =>
    cases h
    have hg : (db.queue.finalizeFailure j.filepath error nowMs backoff).get j.filepath =
        (db.queue.get j.filepath).map (failed error nowMs backoff) := get_finalizeFailure.trans (if_pos rfl)
    refine ⟨fun r hr => ?_, fun hn => .inl ?_⟩
    · obtain ⟨x, hx, rfl⟩ := Option.map_eq_some_iff.mp (hg.symm.trans hr)
      exact hfail _ _ _ x (hrow x hx)
    · exact Option.map_eq_none_iff.mp (hg.symm.trans hn)
  | poison status body withSibling =>
    cases h
    have hg : (db.queue.poison j.filepath status body nowMs).get j.filepath =
        (db.queue.get j.filepath).map (rejected status body nowMs) := get_poison.trans (if_pos rfl)
    refine ⟨fun r hr => ?_, fun hn => .inl ?_⟩
    · obtain ⟨x, hx, rfl⟩ := Option.map_eq_some_iff.mp (hg.symm.trans hr)
      exact hreject _ _ _ x (hrow x hx)
    · exact Option.map_eq_none_iff.mp (hg.symm.trans hn)
  | _ => cases hs

/-! ### The job that moves a document -/

/-- The phases of a `Rename` job that knows its document; past the `PATCH`
what it has brought about holds. -/
def RenamePhase (newFp rid : String) (moved : Prop) : Phase → Prop
  | .start | .fail _ _ => True
  | .poison _ _ withSibling => withSibling = false
  | .wait r next => r = rid ∧ RenamePhase newFp rid moved next
  | .rename fp r => fp = newFp ∧ r = rid
  | .succeed => moved
  | _ => False

variable {newFp rid : String} {moved moved' : Prop}

theorem RenamePhase.mono (hm : moved → moved') : ∀ {ph : Phase}, RenamePhase newFp rid moved ph →
    RenamePhase newFp rid moved' ph := by
  intro ph
  induction ph with
  | wait r next ih => exact fun h => ⟨h.1, ih h.2⟩
  | succeed => exact hm
  | _ => exact id

theorem RenamePhase.begin (hop : j.op = .rename) (hto : j.renameTo = some newFp) (hrid : j.remoteId = some rid) :
    RenamePhase newFp rid moved (Task.begin db j) := by
  unfold Task.begin
  rw [hop, hto, hrid]
  exact ⟨rfl, rfl, rfl⟩

theorem RenamePhase.settles {ph : Phase} {x : Db × Option Phase} (h : RenamePhase newFp rid moved ph)
    (hd : Task.dbStep db j nowMs ph = some x) : Drain.settles ph = true := by
  cases ph with
  | start | succeed | fail => rfl
  | poison status body withSibling =>
    cases h
    rfl
  | wait | rename => cases hd
  | patch | post | upload | clearRemoteId | mapInode | mapRow | markMirrored | clearDirty | delete | lookup
  | sibling | drop => exact h.elim

/-- Such a job goes on to its requests, or ends. -/
theorem RenamePhase.dbStep {ph ph' : Phase} (hop : j.op = .rename) (hto : j.renameTo = some newFp)
    (hrid : j.remoteId = some rid) (h : RenamePhase newFp rid moved ph)
    (hd : Task.dbStep db j nowMs ph = some (db', some ph')) : RenamePhase newFp rid moved ph' := by
  have hs := h.settles hd
  cases ph with
  | start =>
    cases hd
    exact .begin hop hto hrid
  | poison status body withSibling =>
    cases h
    cases hd
  | succeed | fail => cases hd
  | _ => cases hs

/-- The `PATCH` has brought it about once it is answered. -/
theorem RenamePhase.answered {timedOut : Bool} {ph ph' : Phase} {a : Answer}
    (h : RenamePhase newFp rid moved ph) (hm : ph = .rename newFp rid → a = .ok → moved)
    (ha : Task.answered j timedOut ph a = some ph') : RenamePhase newFp rid moved ph' := by
  cases ph with
  | wait r next =>
    cases a with
    | status st =>
      simp only [Task.answered] at ha
      split_ifs at ha <;> cases ha
      · exact h.2
      · exact h
    | err e =>
      simp only [Task.answered] at ha
      split_ifs at ha <;> cases ha
      · exact h.2
      · exact h
    | ok | created | documents => cases ha
  | rename fp r =>
    obtain ⟨rfl, rfl⟩ := h
    cases a with
    | ok =>
      cases ha
      exact ⟨rfl, hm rfl rfl⟩
    | err e => cases e <;> cases ha <;> trivial
    | status | created | documents => cases ha
  | start | succeed | fail | poison => cases ha
  | patch | post | upload | clearRemoteId | mapInode | mapRow | markMirrored | clearDirty | delete | lookup
  | sibling | drop => exact h.elim

end Lemmas

end Drain
end Smfs
