/-
# Whose document a content goes to

A row of the queue has the content of a file and the id of a document, and its
job sends the one to the other. They come together by the path alone: a flush
takes the row at its path with the id that is there, a pending slot becomes
the main one under the id of its row, and a reconcile or a job gives an id to
the row at a path. Where the id is that of another file, the job overwrites the
document of that file (`takes_over`). And a document that is with the content
of one file may come to be mapped to another. The steps that can do one or the
other are told apart by the tables that they find (`Ok`); the rest need
nothing. In a run in which none does, no two files have one document and no job
touches the document of another file (`aimed`).

Key definitions: `Aims.rowAim`, `Aims.aim`, `Aims.Aimed`, `Aims.Holds`, `Aims.Ok`, `Aims.Inv`.
Key theorems: `Aims.single_step`, `Aims.told_rows`, `Aims.dbStep_rows`, `Aims.aimed`, `Aims.takes_over`.
-/
import Smfs.Sync.Derived
import Smfs.Sync.Status

namespace Smfs
namespace Aims

open Trans Db Fs PushQueue Changes Derived

/-- The file whose content a slot sends: that of a create or an update. -/
def contentOf (pl : Payload) : Option Ino := if pl.op = .create ∨ pl.op = .update then pl.contentIno else none

/-- The file and the document of a row's job. -/
def rowAim (r : PushRow) : Option (Ino × String) := (contentOf r.main).bind fun i => r.remoteId.map fun rid => (i, rid)

/-- The file whose content a job has yet to send, and the document that it sends it to. -/
def aim (j : PushJob) : Phase → Option (Ino × String)
  | .start => (contentOf j.payload).bind fun i => j.remoteId.map fun rid => (i, rid)
  | .wait _ next => aim j next
  | .patch i _ rid => some (i, rid)
  | _ => none

/-- No other file that is there has the document. -/
def Sole (db : Db) (i : Ino) (rid : String) : Prop :=
  ∀ j, (db.getInode j).isSome = true → db.getRemoteId j = some rid → j = i

/-- No row and no job sends the content of a file to the document of another file. -/
structure Aimed (m : Mount) : Prop where
  rows : ∀ r ∈ m.db.queue.rows, ∀ i rid, rowAim r = some (i, rid) → Sole m.db i rid
  jobs : ∀ k ∈ m.tasks, ∀ i rid, aim k.job k.phase = some (i, rid) → Sole m.db i rid

/-- A retarget moves a queued create to another path. -/
def Carried (q : PushQueue) (oldFp newFp : String) : Prop := (q.get oldFp).any retargetable = true ∧ oldFp ≠ newFp

/-- A retarget moves a queued create over the row at the path. -/
def Swept (m : Mount) (a : Changes.Act) (p : String) : Prop :=
  ∃ c ∈ told m a, ∃ oldFp rebind now, c.2 = .retarget oldFp p rebind now ∧ Carried m.db.queue oldFp p

/-- The content of the file is with the document, in a row that the step leaves there or in a job. -/
inductive Holds (m : Mount) (a : Changes.Act) (i : Ino) (rid : String) : Prop
  | row (r : PushRow) (hr : m.db.queue.get r.filepath = some r) (stays : ¬ Swept m a r.filepath)
      (hx : rowAim r = some (i, rid))
  | job (k : Task) (hk : k ∈ m.tasks) (hx : aim k.job k.phase = some (i, rid))

/-- The document is with the content of no file, but of the one that it is to be mapped to. -/
def Unsent (m : Mount) (a : Changes.Act) (target : Option Ino) (rid : String) : Prop :=
  ∀ i, Holds m a i rid → target = some i

/-- A number of a file that is there, or may come to be there. -/
def Standing (db : Db) (i : Ino) : Prop := (db.getInode i).isSome = true ∨ db.nextIno ≤ i ∨ i = ROOT_INO

/-- No other file has the document, or may come to be there with it. -/
def Alone (db : Db) (i : Ino) (rid : String) : Prop := ∀ j, Standing db j → db.getRemoteId j = some rid → j = i

/-- A task maps what it has created to a file where no other has it, gives its
id to the row where it stands for the same file, and promotes a slot under the
id of no other file. -/
def TaskOk (m : Mount) (a : Changes.Act) (k : Task) : Prop :=
  match k.phase with
  | .mapInode ino rid => Alone m.db ino rid ∧ Unsent m a (some ino) rid
  | .mapRow _ rid => ∀ r i, m.db.queue.get k.job.filepath = some r → contentOf r.main = some i → Alone m.db i rid
  | .succeed => ∀ r pl i rid, m.db.queue.get k.job.filepath = some r → r.pending = some pl → contentOf pl = some i →
      r.remoteId = some rid → Alone m.db i rid
  | _ => True

/-- A queued create that is carried over a file with a document is that of the
file that moves, and the document is with the content of no other. -/
def RenameOk (m : Mount) (a : Changes.Act) (p : Ino) (name : String) (p' : Ino) (name' : String) : Prop :=
  ∀ src j rid, Cache.Renames m.db p name p' name' src → m.db.childIno p' name' = some j → m.db.getRemoteId j = some rid →
    Cache.carriesCreate m.db p name → Unsent m a (some src.ino) rid ∧
      ∀ fp r i, childPath m.db p name = some fp → m.db.queue.get fp = some r → contentOf r.main = some i → i = src.ino

/-- A flush of a file without a document takes no row with the id of another
file; a rename is `RenameOk`; a reconcile that gives its id to the row at its
path maps the document to the file of that row, and the document is with the
content of no other; and a task is `TaskOk`. -/
def Ok (m : Mount) (a : Changes.Act) : Prop :=
  match a with
  | .mount (.flush f _) => ∀ p x r rid, f.online = true → f.filepath = some p → m.db.getInode f.ino = some x → x.size ≠ 0 →
      m.db.getRemoteId f.ino = none → isMacosNoisePath p = false → m.db.queue.get p = some r → r.inflight = false →
        r.remoteId = some rid → Alone m.db f.ino rid
  | .mount (.rename p n p' n' _) | .name (.rename p n p' n') _ => RenameOk m a p n p' n'
  | .mount (.reconcile doc _) => m.db.inoByRemoteId doc.id = none → doc.status = "done" →
      Unsent m a (attachTarget m.db doc) doc.id ∧ ∀ j r i, attachTarget m.db doc = some j →
        m.db.queue.get doc.path = some r → contentOf r.main = some i → j = i
  | .mount (.taskDb n _) => ∀ k, m.tasks[n]? = some k → TaskOk m a k
  | _ => True

/-! ### Files and their documents -/

section Files

variable {db : Db} {m t : Mount} {a : Changes.Act} {i j : Ino} {rid : String} {p p' : Ino} {name name' : String} {nowMs : ℤ}

theorem Alone.sole (h : Alone db i rid) : Sole db i rid := fun j hj => h j (.inl hj)

/-- A file that is there was there, or has a new number. -/
theorem Standing.before (hm : Changes.step m a = some t) (hs : Sorted m.db) (h : Standing t.db i) :
    Standing m.db i := by
  have hmany : Many (permit m a) m.db t.db := step_changes hs hm
  rcases h with hsome | hnew | hroot
  · by_contra hno
    obtain ⟨hnone, hlt, hroot⟩ : ¬ (m.db.getInode i).isSome = true ∧ ¬ m.db.nextIno ≤ i ∧ i ≠ ROOT_INO :=
      ⟨fun h => hno (.inl h), fun h => hno (.inr (.inl h)), fun h => hno (.inr (.inr h))⟩
    rw [hmany.gone (fun _ => hroot) (Nat.not_le.mp hlt) (Option.not_isSome_iff_eq_none.mp hnone)] at hsome
    cases hsome
  · exact .inr (.inl (hmany.next.trans hnew))
  · exact .inr (.inr hroot)

theorem Alone.step (h : Alone m.db i rid) (hm : Changes.step m a = some t) (hs : Sorted m.db)
    (hmap : ∀ j, (permit m a).map j rid → j = i) : Alone t.db i rid := by
  intro j hj hrid
  rcases (step_changes hs hm).remote hs hrid with hrid | hrid
  · exact h j (hj.before hm hs) hrid
  · exact hmap j hrid

/-- What a rename has replaced has no document any more. -/
theorem rename_unmaps {src : Inode} (hr : Cache.Renames db p name p' name' src)
    (hj : db.childIno p' name' = some j) : (rename db true p name p' name' nowMs).2.getRemoteId j = none := by
  obtain ⟨r, ht⟩ := Cascade.renameTables_ok hr
  have hne : j ≠ src.ino := (hr.replaced j hj).1
  have htables : r.db.getRemoteId j = none := by
    rw [(Cache.renameTables_cases ht).1]
    unfold Cache.renamedTables
    rw [hj]
    show (Table.get Remote.ino (Table.erase Remote.ino db.remotes j) j).map Remote.remoteId = none
    rw [Table.get_erase, if_pos rfl]
    rfl
  rw [Cascade.rename_of_checks hr ht, cascadeRename_sameSync.getRemoteId]
  unfold renamePush
  cases childPath db p name with
  | none => exact htables
  | some oldFp =>
    cases childPath r.db p' name' with
    | none => exact htables
    | some newFp =>
      dsimp only
      unfold renameEnqueue
      dsimp only
      split_ifs
      · cases r.dstRemoteId with
        | none => exact htables
        | some rid =>
          dsimp only
          rw [getRemoteId_setRemoteId, if_neg hne]
          exact htables
      · exact htables

/-- A reconcile maps its document to one file, if at all. -/
theorem reconcile_maps {doc : Document} (hs : Sorted db) : ∃ k : Option Ino, ∀ j rid,
    (reconcileOne db doc nowMs).2.getRemoteId j = some rid → db.getRemoteId j = some rid ∨ k = some j := by
  have hget {d : Db} (h : (reconcileOne db doc nowMs).2.remotes = d.remotes) (j : Ino) :
      (reconcileOne db doc nowMs).2.getRemoteId j = d.getRemoteId j := by
    unfold getRemoteId getRemote
    rw [h]
  have hset (i j : Ino) {rid : String} (h : (db.setRemoteId i doc.id).getRemoteId j = some rid) :
      db.getRemoteId j = some rid ∨ some i = some j := by
    rw [getRemoteId_setRemoteId] at h
    split_ifs at h with hj
    · exact .inr (congrArg some hj.symm)
    · exact .inl h
  obtain ⟨hmarks, hno⟩ := @Status.reconcileOne_rows db doc nowMs hs
  by_cases hm : Status.Marks db doc
  · generalize hrows : (reconcileOne db doc nowMs).2.remotes = rows at hmarks
    cases hmarks hm with
    | mapped u t id =>
      refine ⟨none, fun j rid hj => .inl ?_⟩
      rwa [hget hrows, getRemoteId_setMirroredState] at hj
    | new i u t =>
      refine ⟨some i, fun j rid hj => hset i j ?_⟩
      rwa [hget hrows, getRemoteId_setMirroredState] at hj
  · generalize hrows : (reconcileOne db doc nowMs).2.remotes = rows at hno
    cases hno hm with
    | same => exact ⟨none, fun j rid hj => .inl ((hget hrows j).symm.trans hj)⟩
    | attached i => exact ⟨some i, fun j rid hj => hset i j ((hget hrows j).symm.trans hj)⟩

/-- A document that is mapped to no file is that of no file. -/
theorem unmapped_get (h : db.inoByRemoteId rid = none) (i : Ino) : db.getRemoteId i ≠ some rid := by
  intro hi
  obtain ⟨r, hr, he⟩ := Option.map_eq_some_iff.mp hi
  have hnone : db.remotes.find? (fun r => r.remoteId = rid) = none := Option.map_eq_none_iff.mp h
  exact absurd (List.find?_eq_none.mp hnone r (Table.get_some hr).1) (by simpa using he)

/-- No two files have one document. -/
def Single (db : Db) : Prop :=
  ∀ i j rid, Standing db i → Standing db j → db.getRemoteId i = some rid → db.getRemoteId j = some rid → i = j

/-- What a rename replaces has lost its document to the file, if it had one that came to be the file's. -/
theorem rename_single {src : Inode} (h : Single db) (hr : Cache.Renames db p name p' name' src)
    (hj : db.childIno p' name' = some j) (hrid : db.getRemoteId j = some rid) (hi : Standing db i)
    (hold : db.getRemoteId i = some rid) :
    (rename db true p name p' name' nowMs).2.getRemoteId i = none := by
  obtain ⟨-, dst, hdst, -⟩ := hr.replaced j hj
  obtain rfl : i = j := h i j rid hi (.inl (by rw [hdst]; rfl)) hold hrid
  exact rename_unmaps hr hj

theorem single_rename (h : Single m.db) (hs : Sorted m.db) (hm : Changes.step m a = some t)
    (hp : permit m a = renamePermit m.db p name p' name') (hdb : t.db = (rename m.db true p name p' name' nowMs).2) :
    Single t.db := by
  intro i j rid hi hj hri hrj
  have hchange := step_changes hs hm
  -- a document that comes to the file was that of what it replaces, which no file has any more
  have key {x y : Ino} (hx : (permit m a).map x rid) (hy : Standing t.db y) (hry : t.db.getRemoteId y = some rid)
      (hold : m.db.getRemoteId y = some rid) : False := by
    rw [hp] at hx
    obtain ⟨src, k, hr, -, -, hk, hkr⟩ := hx
    have hgone : (rename m.db true p name p' name' nowMs).2.getRemoteId y = none :=
      rename_single h hr hk hkr (hy.before hm hs) hold
    rw [hdb, hgone] at hry
    cases hry
  rcases hchange.remote hs hri with hoi | hmi
  · rcases hchange.remote hs hrj with hoj | hmj
    · exact h i j rid (hi.before hm hs) (hj.before hm hs) hoi hoj
    · exact (key hmj hi hri hoi).elim
  · rcases hchange.remote hs hrj with hoj | hmj
    · exact (key hmi hj hrj hoj).elim
    · rw [hp] at hmi hmj
      obtain ⟨src, -, hr, rfl, -⟩ := hmi
      obtain ⟨src', -, hr', rfl, -⟩ := hmj
      rw [Option.some.inj (hr.source.symm.trans hr'.source)]

/-- A step that maps no document leaves the files apart. -/
theorem single_kept (h : Single m.db) (hs : Sorted m.db) (hm : Changes.step m a = some t)
    (hno : ∀ j rid, ¬ (permit m a).map j rid) : Single t.db := by
  intro i j rid hi hj hri hrj
  have hold {x : Ino} (hx : t.db.getRemoteId x = some rid) : m.db.getRemoteId x = some rid :=
    ((step_changes hs hm).remote hs hx).resolve_right (hno x rid)
  exact h i j rid (hi.before hm hs) (hj.before hm hs) (hold hri) (hold hrj)

theorem single_reconcile {doc : Document} (h : Single m.db) (hs : Sorted m.db)
    (hm : Changes.step m (.mount (.reconcile doc nowMs)) = some t) : Single t.db := by
  have hdb : t.db = (reconcileOne m.db doc nowMs).2 := by
    cases hm
    rfl
  obtain ⟨k, hk⟩ := @reconcile_maps m.db nowMs doc hs
  have hchange := step_changes hs hm
  -- where the document is mapped, no file has had it
  have hnew {x : Ino} {rid : String} (hx : (permit m (.mount (.reconcile doc nowMs))).map x rid) (y : Ino) :
      m.db.getRemoteId y ≠ some rid := by
    obtain ⟨rfl, hid, -⟩ := hx
    exact unmapped_get hid y
  intro i j rid hi hj hri hrj
  rcases hchange.remote hs hri with hoi | hmi
  · rcases hchange.remote hs hrj with hoj | hmj
    · exact h i j rid (hi.before hm hs) (hj.before hm hs) hoi hoj
    · exact absurd hoi (hnew hmj i)
  · rw [hdb] at hri hrj
    have hki := (hk i rid hri).resolve_left (hnew hmi i)
    have hkj := (hk j rid hrj).resolve_left (hnew hmi j)
    exact Option.some.inj (hki.symm.trans hkj)

theorem single_task {n : ℕ} (h : Single m.db) (hs : Sorted m.db)
    (hm : Changes.step m (.mount (.taskDb n nowMs)) = some t) (hok : Ok m (.mount (.taskDb n nowMs))) :
    Single t.db := by
  obtain ⟨k, hk, -⟩ := Option.bind_eq_some_iff.mp hm
  have hpermit : permit m (.mount (.taskDb n nowMs)) = phasePermit k.phase := permit_task hk
  by_cases hphase : ∃ ino rid, k.phase = .mapInode ino rid
  · obtain ⟨ino, rid, hph⟩ := hphase
    have htask := hok k hk
    unfold TaskOk at htask
    rw [hph] at htask hpermit
    -- whoever has the document is the file that it is mapped to
    have hold {x : Ino} {r : String} (hx : Standing t.db x) (hrx : t.db.getRemoteId x = some r) :
        m.db.getRemoteId x = some r ∨ x = ino ∧ r = rid := by
      refine ((step_changes hs hm).remote hs hrx).imp_right fun hmap => ?_
      rw [hpermit] at hmap
      exact hmap
    intro i j r hi hj hri hrj
    rcases hold hi hri with hoi | ⟨rfl, rfl⟩
    · rcases hold hj hrj with hoj | ⟨rfl, rfl⟩
      · exact h i j r (hi.before hm hs) (hj.before hm hs) hoi hoj
      · exact htask.1 i (hi.before hm hs) hoi
    · rcases hold hj hrj with hoj | ⟨rfl, -⟩
      · exact (htask.1 j (hj.before hm hs) hoj).symm
      · rfl
  · refine single_kept h hs hm fun j rid hmap => ?_
    rw [hpermit] at hmap
    cases hph : k.phase with
    | mapInode ino rid => exact hphase ⟨ino, rid, hph⟩
    | start | wait | patch | post | upload | clearRemoteId | mapRow | markMirrored | clearDirty | delete | lookup | rename
    | succeed | fail | poison | sibling | drop =>
      rw [hph] at hmap
      exact hmap

/-- No two files come to have one document. -/
theorem single_step (h : Single m.db) (hs : Sorted m.db) (hok : Ok m a) (hm : Changes.step m a = some t) :
    Single t.db := by
  cases a with
  | setattr ino size => exact single_kept h hs hm fun _ _ => id
  | name op now =>
    cases op with
    | rename p n p' n' => exact @single_rename m t _ p p' n n' now h hs hm rfl (by cases hm; rfl)
    | mkdir | rmdir | createFile | unlink | symlink | link => exact single_kept h hs hm fun _ _ => id
  | mount b =>
    cases b with
    | rename p n p' n' now => exact @single_rename m t _ p p' n n' now h hs hm rfl (by cases hm; rfl)
    | reconcile doc now => exact single_reconcile h hs hm
    | taskDb n now => exact single_task h hs hm hok
    | createFile | write | truncate | flush | unlink | applyDeletion | rehydrate | poll | claim | taskAnswer | crash =>
      exact single_kept h hs hm fun _ _ => id

/-- A document that a step maps is with the content of no other file. -/
theorem Ok.unsent (hok : Ok m a) (hmap : (permit m a).map j rid) (hx : Holds m a i rid) : j = i := by
  cases a with
  | setattr ino size => exact hmap.elim
  | name op now =>
    cases op with
    | rename p n p' n' =>
      obtain ⟨src, k, hr, rfl, hc, hk, hkr⟩ := hmap
      exact Option.some.inj ((hok src k rid hr hk hkr hc).1 i hx)
    | mkdir | rmdir | createFile | unlink | symlink | link => exact hmap.elim
  | mount b =>
    cases b with
    | rename p n p' n' now =>
      obtain ⟨src, k, hr, rfl, hc, hk, hkr⟩ := hmap
      exact Option.some.inj ((hok src k rid hr hk hkr hc).1 i hx)
    | reconcile doc now =>
      obtain ⟨rfl, hid, hdone, hat⟩ := hmap
      have htarget := (hok hid hdone).1 i hx
      rcases hat with hat | ⟨hat, -⟩
      · exact Option.some.inj (hat.symm.trans htarget)
      · exact absurd (hat.symm.trans htarget) nofun
    | taskDb n now =>
      unfold permit at hmap
      dsimp only at hmap
      cases hk : m.tasks[n]? with
      | none =>
        rw [hk] at hmap
        exact hmap.elim
      | some k =>
        rw [hk] at hmap
        have htask := hok k hk
        unfold TaskOk at htask
        have hmap : (phasePermit k.phase).map j rid := hmap
        cases hph : k.phase with
        | mapInode ino r =>
          rw [hph] at hmap htask
          obtain ⟨rfl, rfl⟩ := hmap
          exact Option.some.inj (htask.2 i hx)
        | start | wait | patch | post | upload | clearRemoteId | mapRow | markMirrored | clearDirty | delete | lookup
        | rename | succeed | fail | poison | sibling | drop =>
          rw [hph] at hmap
          exact hmap.elim
    | createFile | write | truncate | flush | unlink | applyDeletion | rehydrate | poll | claim | taskAnswer | crash =>
      exact hmap.elim

end Files

/-! ### Rows -/

section Rows

variable {q : PushQueue} {m t : Mount} {a : Changes.Act} {i : Ino} {rid p p' : String} {pl : Payload} {own : Option String}
  {now : ℤ} {r : PushRow}

theorem rowAim_iff : rowAim r = some (i, rid) ↔ contentOf r.main = some i ∧ r.remoteId = some rid := by
  unfold rowAim
  cases contentOf r.main with
  | none => simp
  | some k => cases r.remoteId <;> simp

/-- An upsert leaves the rows that send, or its content under the id of the row that it takes. -/
theorem upsert_rows (hr : (q.upsert p pl own now).get p' = some r) (hx : rowAim r = some (i, rid)) :
    (∃ x, q.get p' = some x ∧ rowAim x = some (i, rid)) ∨
      isMacosNoisePath p = false ∧ q.inflight p = false ∧ contentOf pl = some i ∧
        own.or ((q.get p).bind PushRow.remoteId) = some rid := by
  by_cases hnoise : isMacosNoisePath p = true
  · rw [upsert_noise hnoise] at hr
    exact .inl ⟨r, hr, hx⟩
  · rw [Bool.not_eq_true] at hnoise
    rw [get_upsert hnoise] at hr
    split_ifs at hr with hp
    · subst hp
      obtain rfl := Option.some.inj hr
      cases hg : q.get p' with
      | none =>
        rw [upserted_none hg] at hx
        obtain ⟨hc, hid⟩ := rowAim_iff.mp hx
        refine .inr ⟨hnoise, inflight_eq_false.mpr fun x hx => ?_, hc, ?_⟩
        · rw [hg] at hx
          cases hx
        · rw [Option.bind_none, Option.or_none]
          exact hid
      | some x =>
        cases hi : x.inflight with
        | true =>
          rw [upserted_held hg hi] at hx
          exact .inl ⟨x, rfl, hx⟩
        | false =>
          rw [upserted_idle hg hi] at hx
          obtain ⟨hc, hid⟩ := rowAim_iff.mp hx
          refine .inr ⟨hnoise, inflight_eq_false.mpr fun y hy => ?_, hc, hid⟩
          obtain rfl := Option.some.inj (hg.symm.trans hy)
          exact hi
    · exact .inl ⟨r, hr, hx⟩

/-- Calls without a content leave the rows that send. -/
theorem empty_rows {calls : List (Ino × Told)} (hu : Upserts calls)
    (he : ∀ c ∈ calls, ∀ p pl own now, c.2 = .upsert p pl own now → pl.contentIno = none)
    (hr : (runAll q calls).get p = some r) (hx : rowAim r = some (i, rid)) :
    ∃ x, q.get p = some x ∧ rowAim x = some (i, rid) := by
  induction calls generalizing q with
  | nil => exact ⟨r, hr, hx⟩
  | cons c calls ih =>
    obtain ⟨y, hy, hyx⟩ := ih (q := c.2.run q) (fun c hc => hu c (List.mem_cons_of_mem _ hc))
      (fun c hc => he c (List.mem_cons_of_mem _ hc)) hr
    obtain ⟨fp, pl, own, now, hcall⟩ := hu c List.mem_cons_self
    have hempty := he c List.mem_cons_self fp pl own now hcall
    rw [hcall] at hy
    rcases upsert_rows hy hyx with hold | ⟨-, -, hc, -⟩
    · exact hold
    · unfold contentOf at hc
      rw [hempty, ite_self] at hc
      cases hc

/-- A retarget leaves the rows that send, but for the one that it moves a row over; and that row has the id it brings. -/
theorem retarget_rows {oldFp newFp : String} (hr : (q.retargetPendingCreate oldFp newFp own now).1.get p = some r)
    (hx : rowAim r = some (i, rid)) : (q.get p = some r ∧ ¬ (Carried q oldFp newFp ∧ p = newFp)) ∨
      Carried q oldFp newFp ∧ (∃ x, q.get oldFp = some x ∧ contentOf x.main = some i) ∧ own = some rid := by
  by_cases hre : (q.get oldFp).any retargetable = true
  · obtain ⟨x, hg, hrx⟩ := (Option.any_eq_true _ _).mp hre
    by_cases hne : oldFp = newFp
    · subst hne
      have hdrop : (q.retargetPendingCreate oldFp oldFp own now).1 = q.drop oldFp := by
        unfold retargetPendingCreate
        rw [if_pos hre, get_drop_self]
        rfl
      rw [hdrop, get_drop] at hr
      split_ifs at hr with hp
      exact .inl ⟨hr, fun h => hp h.2⟩
    · have hget := (retarget_moved hne hg hrx : _ ∧ ∀ p', (q.retargetPendingCreate oldFp newFp own now).1.get p' = _).2
      rw [hget] at hr
      split_ifs at hr with hp
      · obtain rfl := Option.some.inj hr
        obtain ⟨hc, hid⟩ := rowAim_iff.mp hx
        have hnone : x.remoteId = none := by
          simp only [retargetable, Bool.and_eq_true, Option.isNone_iff_eq_none] at hrx
          exact hrx.2
        have hid : own.or x.remoteId = some rid := hid
        rw [hnone, Option.or_none] at hid
        exact .inr ⟨⟨hre, hne⟩, ⟨x, hg, hc⟩, hid⟩
      · exact .inl ⟨hr, fun h => hp h.2⟩
  · rw [retarget_unmoved fun x hg => by simpa [hg] using hre] at hr
    exact .inl ⟨hr, fun h => hre h.1.1⟩

end Rows

/-! ### Steps -/

section Steps

variable {m t : Mount} {a : Changes.Act} {i j : Ino} {rid p : String} {r : PushRow}

/-- A retarget with an id is that of a rename over a file with the document. -/
theorem retarget_renames {k s d : Ino} {name name' oldFp newFp : String} {now at_ : ℤ}
    (hc : (k, Told.retarget oldFp newFp (some rid) at_) ∈ renameTold m.db s name d name' now) :
    ∃ src j, Cache.Renames m.db s name d name' src ∧ childPath m.db s name = some oldFp ∧
      m.db.childIno d name' = some j ∧ m.db.getRemoteId j = some rid := by
  by_cases h : ∃ src r, Cache.Renames m.db s name d name' src ∧ renameTables m.db src s name d name' = .ok (some r)
  · obtain ⟨src, r, hr, ht⟩ := h
    rw [renameTold_of_checks hr ht] at hc
    cases hold : childPath m.db s name with
    | none =>
      rw [hold] at hc
      cases hc
    | some fp =>
      cases hnew : childPath r.db d name' with
      | none =>
        rw [hold, hnew] at hc
        cases hc
      | some fp' =>
        rw [hold, hnew] at hc
        unfold pushTold at hc
        rcases List.mem_cons.mp hc with he | hc
        · obtain ⟨-, hcall⟩ := Prod.mk.inj he
          injection hcall with hfp hfp' hid hat
          obtain ⟨-, -, hdst⟩ := Cache.renameTables_cases ht
          obtain ⟨j, hj, hrid⟩ := Option.bind_eq_some_iff.mp (hdst.symm.trans hid.symm)
          exact ⟨src, j, hr, congrArg some hfp.symm, hj, hrid⟩
        · split_ifs at hc
          · cases hc
          · rcases List.mem_append.mp hc with hc | hc
            · split at hc
              · exact absurd (List.mem_singleton.mp hc) nofun
              · cases hc
            · exact absurd (List.mem_singleton.mp hc) nofun
  · obtain ⟨-, htold⟩ := @rename_still m.db s d name name' now fun src r hr ht => h ⟨src, r, hr, ht⟩
    rw [htold] at hc
    cases hc

/-- A row that sends after a rename has sent before, or was carried over a file whose document the moved file has alone. -/
theorem rename_rows {s d : Ino} {name name' : String} {now : ℤ} (h : Single m.db) (hs : Sorted m.db)
    (hm : Changes.step m a = some t) (ht : told m a = renameTold m.db s name d name' now)
    (hpermit : permit m a = renamePermit m.db s name d name') (hdb : t.db = (rename m.db true s name d name' now).2)
    (hok : RenameOk m a s name d name') (hr : (runAll m.db.queue (told m a)).get p = some r)
    (hx : rowAim r = some (i, rid)) :
    (∃ x, m.db.queue.get p = some x ∧ rowAim x = some (i, rid) ∧ ¬ Swept m a p) ∨ Alone t.db i rid := by
  have hempty : ∀ c ∈ told m a, ∀ p pl own now, c.2 = .upsert p pl own now → pl.contentIno = none :=
    fun c hc p pl own at_ he => renameTold_empty (ht ▸ hc) he
  rcases told_upserts (m := m) (a := a) with hu | ⟨k, oldFp, newFp, rebind, at_, rest, hlist, hu⟩
  · obtain ⟨x, hg, hxx⟩ := empty_rows hu hempty hr hx
    refine .inl ⟨x, hg, hxx, ?_⟩
    rintro ⟨c, hc, oldFp, rebind, at_, he, -⟩
    obtain ⟨fp, pl, own, at', he'⟩ := hu c hc
    exact absurd (he.symm.trans he') nofun
  · have hmem : (k, Told.retarget oldFp newFp rebind at_) ∈ told m a := hlist ▸ List.mem_cons_self
    have hrun : (runAll (m.db.queue.retargetPendingCreate oldFp newFp rebind at_).1 rest).get p = some r := by
      rw [hlist] at hr
      exact hr
    obtain ⟨y, hy, hyx⟩ := empty_rows hu (fun c hc => hempty c (hlist ▸ List.mem_cons_of_mem _ hc)) hrun hx
    rcases retarget_rows hy hyx with ⟨hg, hstays⟩ | ⟨hcarried, ⟨x, hg, hi⟩, rfl⟩
    · refine .inl ⟨y, hg, hyx, ?_⟩
      rintro ⟨c, hc, oldFp', rebind', at', he, hcarried⟩
      rw [hlist] at hc
      rcases List.mem_cons.mp hc with rfl | hc
      · cases he
        exact hstays ⟨hcarried, rfl⟩
      · obtain ⟨fp, pl, own, at', he'⟩ := hu c hc
        exact absurd (he.symm.trans he') nofun
    · rw [ht] at hmem
      obtain ⟨src, j, hren, hfp, hj, hrid⟩ := retarget_renames hmem
      obtain ⟨-, hfile⟩ := hok src j rid hren hj hrid ⟨oldFp, hfp, hcarried.1⟩
      obtain rfl := hfile oldFp x i hfp hg hi
      refine .inr fun k hk hkr => ?_
      rcases (step_changes hs hm).remote hs hkr with hold | hmap
      · -- the replaced file had it alone, and has it no more
        have hgone : (rename m.db true s name d name' now).2.getRemoteId k = none :=
          rename_single h hren hj hrid (hk.before hm hs) hold
        rw [hdb, hgone] at hkr
        cases hkr
      · rw [hpermit] at hmap
        obtain ⟨src', -, hren', rfl, -⟩ := hmap
        rw [Option.some.inj (hren'.source.symm.trans hren.source)]

/-- A flush tells nothing, or the content of its file under the id of the file. -/
theorem flushTold_cases (db : Db) (f : SqliteFile) (now : ℤ) : flushTold db f now = [] ∨
    ∃ fp x op, f.online = true ∧ f.filepath = some fp ∧ db.getInode f.ino = some x ∧ x.size ≠ 0 ∧
      flushTold db f now =
        [(f.ino, .upsert fp ⟨op, some f.ino, none⟩ (db.getRemoteId f.ino) (now + PUSH_DEBOUNCE_MS))] := by
  unfold flushTold
  cases f.online with
  | false => exact .inl rfl
  | true =>
    cases f.filepath with
    | none => exact .inl rfl
    | some fp =>
      dsimp only
      cases hx : db.getInode f.ino with
      | none => exact .inl rfl
      | some x =>
        by_cases hsize : x.size = 0
        · exact .inl (if_pos hsize)
        · exact .inr ⟨fp, x, _, rfl, rfl, rfl, hsize, if_neg hsize⟩

/-- A row that sends after a flush has sent before, or sends the file under an id that it has alone. -/
theorem flush_rows {f : SqliteFile} {now : ℤ} (h : Single m.db) (hok : Ok m (.mount (.flush f now)))
    (hr : (runAll m.db.queue (flushTold m.db f now)).get p = some r) (hx : rowAim r = some (i, rid)) :
    (∃ x, m.db.queue.get p = some x ∧ rowAim x = some (i, rid)) ∨ Alone m.db i rid := by
  rcases flushTold_cases m.db f now with hnone | ⟨fp, x, op, honline, hfp, hino, hsize, hc⟩
  · rw [hnone] at hr
    exact .inl ⟨r, hr, hx⟩
  · rw [hc] at hr
    have hr : (m.db.queue.upsert fp ⟨op, some f.ino, none⟩ (m.db.getRemoteId f.ino) (now + PUSH_DEBOUNCE_MS)).get p =
        some r := hr
    rcases upsert_rows hr hx with hold | ⟨hnoise, hidle, hi, hid⟩
    · exact .inl hold
    · obtain rfl : f.ino = i := by
        unfold contentOf at hi
        split_ifs at hi
        exact Option.some.inj hi
      refine .inr ?_
      cases hown : m.db.getRemoteId f.ino with
      | some own =>
        rw [hown] at hid
        obtain rfl : own = rid := Option.some.inj hid
        exact fun j hj hrid => h j f.ino own hj (.inl (by rw [hino]; rfl)) hrid hown
      | none =>
        rw [hown, Option.none_or] at hid
        obtain ⟨y, hy, hyr⟩ := Option.bind_eq_some_iff.mp hid
        exact hok fp x y rid honline hfp hino hsize hown hnoise hy (inflight_eq_false.mp hidle y hy) hyr

/-- A row that sends after what is told has sent before, or its file has the document alone. -/
theorem told_rows (h : Single m.db) (hs : Sorted m.db) (hok : Ok m a) (hm : Changes.step m a = some t)
    (hr : (runAll m.db.queue (told m a)).get p = some r) (hx : rowAim r = some (i, rid)) :
    (∃ x, m.db.queue.get p = some x ∧ rowAim x = some (i, rid) ∧ ¬ Swept m a p) ∨ Alone t.db i rid := by
  -- only a rename sweeps
  have hupserts (hu : Upserts (told m a)) : ¬ Swept m a p := by
    rintro ⟨c, hc, oldFp, rebind, at_, he, -⟩
    obtain ⟨fp, pl, own, at', he'⟩ := hu c hc
    exact absurd (he.symm.trans he') nofun
  have hnil (ht : told m a = []) : ∃ x, m.db.queue.get p = some x ∧ rowAim x = some (i, rid) ∧ ¬ Swept m a p := by
    rw [ht] at hr
    exact ⟨r, hr, hx, hupserts (ht ▸ fun _ hc => nomatch hc)⟩
  have hunlink {s : Ino} {name : String} {now : ℤ} (ht : told m a = unlinkTold m.db s name now) :
      ∃ x, m.db.queue.get p = some x ∧ rowAim x = some (i, rid) ∧ ¬ Swept m a p := by
    have hu : Upserts (told m a) := ht ▸ unlink_upserts
    obtain ⟨x, hg, hxx⟩ := empty_rows hu (fun c hc p pl own at_ he => unlinkTold_empty (ht ▸ hc) he) hr hx
    exact ⟨x, hg, hxx, hupserts hu⟩
  cases a with
  | setattr ino size => exact .inl (hnil rfl)
  | name op now =>
    cases op with
    | unlink s name => exact .inl (hunlink rfl)
    | rename s name d name' => exact rename_rows h hs hm rfl rfl (by cases hm; rfl) hok hr hx
    | mkdir | rmdir | createFile | symlink | link => exact .inl (hnil rfl)
  | mount b =>
    cases b with
    | unlink s name now => exact .inl (hunlink rfl)
    | rename s name d name' now => exact rename_rows h hs hm rfl rfl (by cases hm; rfl) hok hr hx
    | flush f now =>
      rcases flush_rows h hok hr hx with ⟨x, hg, hxx⟩ | halone
      · exact .inl ⟨x, hg, hxx, hupserts flush_upserts⟩
      · exact .inr (halone.step hm hs fun _ => False.elim)
    | createFile | write | truncate | reconcile | applyDeletion | rehydrate | poll | claim | taskDb | taskAnswer | crash =>
      exact .inl (hnil rfl)

/-- A task sends what it has sent before. -/
theorem begin_aim {db : Db} {j : PushJob} (h : aim j (Task.begin db j) = some (i, rid)) :
    aim j .start = some (i, rid) := by
  unfold Task.begin at h
  cases hop : j.op with
  | create | update =>
    rw [hop] at h
    dsimp only at h
    cases hc : j.contentIno with
    | none =>
      rw [hc] at h
      cases h
    | some ino =>
      rw [hc] at h
      dsimp only at h
      split_ifs at h
      · cases h
      · cases hid : j.remoteId with
        | none =>
          rw [hid] at h
          cases h
        | some x =>
          rw [hid] at h
          obtain ⟨rfl, rfl⟩ := Prod.mk.inj (Option.some.inj h)
          have hcontent : contentOf j.payload = some ino := by simp [contentOf, PushJob.payload, hop, hc]
          simp [aim, hcontent, hid]
  | uploadBinary =>
    rw [hop] at h
    cases hc : j.contentIno <;> rw [hc] at h <;> cases h
  | delete =>
    rw [hop] at h
    cases h
  | rename =>
    rw [hop] at h
    dsimp only at h
    cases hto : j.renameTo with
    | none =>
      rw [hto] at h
      cases h
    | some newFp =>
      rw [hto] at h
      dsimp only at h
      cases hid : j.remoteId <;> rw [hid] at h <;> cases h

theorem dbStep_aim {db db' : Db} {j : PushJob} {now : ℤ} {ph next : Phase}
    (h : Task.dbStep db j now ph = some (db', some next))
    (hx : aim j next = some (i, rid)) : aim j ph = some (i, rid) := by
  cases ph with
  | start => cases h; exact begin_aim hx
  | mapInode | mapRow | clearRemoteId | markMirrored | clearDirty => cases h; cases hx
  | poison status body sib =>
    cases sib with
    | true => cases h; cases hx
    | false => cases h
  | succeed | fail | sibling | drop => cases h
  | wait | patch | post | upload | delete | lookup | rename => cases h

theorem answered_aim {j : PushJob} {ph next : Phase} {timedOut : Bool} {answer : Answer}
    (h : Task.answered j timedOut ph answer = some next) (hx : aim j next = some (i, rid)) :
    aim j ph = some (i, rid) := by
  cases ph with
  | wait r ph =>
    rcases Task.answered_wait h with rfl | rfl
    · exact hx
    · exact hx
  | patch ino content r =>
    cases answer with
    | ok => cases h; cases hx
    | err e => cases e <;> cases h <;> cases hx
    | created | status | documents => cases h
  | post ino content | upload ino content =>
    cases answer with
    | created r => cases h; cases hx
    | err e => cases e <;> cases h <;> cases hx
    | ok | status | documents => cases h
  | delete =>
    cases answer with
    | ok => cases h; cases hx
    | err e => cases e <;> cases h <;> cases hx
    | created | status | documents => cases h
  | lookup newFp =>
    cases answer with
    | documents ids => cases ids <;> cases h <;> cases hx
    | err e => cases h; cases hx
    | ok | created | status => cases h
  | rename newFp r =>
    cases answer with
    | ok => cases h; cases hx
    | err e => cases e <;> cases h <;> cases hx
    | created | status | documents => cases h
  | start | clearRemoteId | mapInode | mapRow | markMirrored | clearDirty | succeed | fail | poison | sibling | drop => cases h

/-- A row that sends after a task's call has sent before, or its file has the document alone. -/
theorem dbStep_rows {now : ℤ} {k : Task} {db' : Db} {next : Option Phase} (hok : TaskOk m a k)
    (hd : Task.dbStep m.db k.job now k.phase = some (db', next)) (hr : db'.queue.get p = some r)
    (hx : rowAim r = some (i, rid)) : (∃ x, m.db.queue.get p = some x ∧ rowAim x = some (i, rid)) ∨
      Alone m.db i rid ∧ ∀ j, ¬ (phasePermit k.phase).map j rid := by
  unfold TaskOk at hok
  by_cases hp : p = k.job.filepath
  · subst hp
    obtain ⟨hc, hid⟩ := rowAim_iff.mp hx
    cases hph : k.phase with
    | start | mapInode | markMirrored | clearDirty =>
      rw [hph] at hd
      cases hd
      exact .inl ⟨r, hr, hx⟩
    | clearRemoteId x =>
      rw [hph] at hd
      cases hd
      have hget : (m.db.queue.setRemoteId k.job.filepath none).get k.job.filepath = some r := hr
      rw [get_setRemoteId, if_pos rfl] at hget
      obtain ⟨y, -, rfl⟩ := Option.map_eq_some_iff.mp hget
      cases hid
    | mapRow ino x =>
      rw [hph] at hd
      cases hd
      have hget : (m.db.queue.setRemoteId k.job.filepath (some x)).get k.job.filepath = some r := hr
      rw [get_setRemoteId, if_pos rfl] at hget
      obtain ⟨y, hy, rfl⟩ := Option.map_eq_some_iff.mp hget
      obtain rfl := Option.some.inj hid
      rw [hph] at hok
      exact .inr ⟨hok y i hy hc, fun _ => id⟩
    | succeed =>
      rw [hph] at hd
      cases hd
      have hget : (m.db.queue.finalizeSuccess k.job.filepath now).get k.job.filepath = some r := hr
      rw [get_finalizeSuccess, if_pos rfl] at hget
      obtain ⟨y, hy, hpl⟩ := Option.bind_eq_some_iff.mp hget
      obtain ⟨pl, hpend, rfl⟩ := Option.map_eq_some_iff.mp hpl
      rw [hph] at hok
      exact .inr ⟨hok y pl i rid hy hpend hc hid, fun _ => id⟩
    | fail error bo =>
      rw [hph] at hd
      cases hd
      have hget : (m.db.queue.finalizeFailure k.job.filepath error now bo).get k.job.filepath = some r := hr
      rw [get_finalizeFailure, if_pos rfl] at hget
      obtain ⟨y, hy, rfl⟩ := Option.map_eq_some_iff.mp hget
      exact .inl ⟨y, hy, hx⟩
    | poison status body sib =>
      rw [hph] at hd
      cases hd
      have hget : (m.db.queue.poison k.job.filepath status body now).get k.job.filepath = some r := hr
      rw [get_poison, if_pos rfl] at hget
      obtain ⟨y, hy, rfl⟩ := Option.map_eq_some_iff.mp hget
      exact .inl ⟨y, hy, hx⟩
    | drop =>
      rw [hph] at hd
      cases hd
      have hget : (m.db.queue.drop k.job.filepath).get k.job.filepath = some r := hr
      rw [get_drop_self] at hget
      cases hget
    | sibling status body =>
      rw [hph] at hd
      cases hd
      rw [createDerivedSibling_sameSync.queue] at hr
      exact .inl ⟨r, hr, hx⟩
    | wait | patch | post | upload | delete | lookup | rename =>
      rw [hph] at hd
      cases hd
  · rw [Drain.dbStep_get hp hd] at hr
    exact .inl ⟨r, hr, hx⟩

/-- What holds in every state that such a run reaches. -/
structure Inv (m : Mount) : Prop where
  sorted : Sorted m.db
  single : Single m.db
  wf : m.db.queue.WF
  rows : ∀ p r, m.db.queue.get p = some r → ∀ i rid, rowAim r = some (i, rid) → Alone m.db i rid
  jobs : ∀ k ∈ m.tasks, ∀ i rid, aim k.job k.phase = some (i, rid) → Alone m.db i rid

theorem Inv.start : Inv .fresh :=
  ⟨.nil, fun _ _ _ _ _ h => (nomatch h), empty_wf, fun _ _ h => (nomatch h), fun _ h => (nomatch h)⟩

theorem Inv.kept_apart (h : Inv m) : Aimed m :=
  ⟨fun r hr i rid hx => (h.rows r.filepath r (h.wf.get_mem hr) i rid hx).sole,
    fun k hk i rid hx => (h.jobs k hk i rid hx).sole⟩

/-- A call other than a rename moves no row over another. -/
theorem not_swept (ht : told m a = []) : ¬ Swept m a p := by
  rintro ⟨c, hc, -⟩
  rw [ht] at hc
  cases hc

/-- Where a reconcile maps its document, the file that it is mapped to has it alone. -/
theorem reconcile_alone {doc : Document} {now : ℤ} (hs : Sorted m.db)
    (hm : Changes.step m (.mount (.reconcile doc now)) = some t) (hid : m.db.inoByRemoteId doc.id = none)
    (hat : attachTarget m.db doc = some i) : Alone t.db i doc.id := by
  intro k hk hrid
  rcases (step_changes hs hm).remote hs hrid with hold | ⟨-, -, -, hmap⟩
  · exact absurd hold (unmapped_get hid k)
  · rcases hmap with hto | ⟨hto, -⟩
    · exact Option.some.inj (hto.symm.trans hat)
    · exact absurd (hto.symm.trans hat) nofun

theorem step_inv (h : Inv m) (hok : Ok m a) (hm : Changes.step m a = some t) : Inv t := by
  have hsorted : Sorted t.db := Many.sorted (step_changes h.sorted hm) h.sorted
  have hsingle : Single t.db := single_step h.single h.sorted hok hm
  -- rows that stay, and jobs, go on to send to the document of their own file
  have hrow {p : String} {r : PushRow} (hr : m.db.queue.get p = some r) (hstays : ¬ Swept m a p) {i : Ino} {rid : String}
      (hx : rowAim r = some (i, rid)) : Alone t.db i rid := by
    obtain rfl := (get_some hr).2
    exact (h.rows _ r hr i rid hx).step hm h.sorted fun j hj => hok.unsent hj (.row r hr hstays hx)
  have hjob {k : Task} (hk : k ∈ m.tasks) {i : Ino} {rid : String} (hx : aim k.job k.phase = some (i, rid)) :
      Alone t.db i rid := (h.jobs k hk i rid hx).step hm h.sorted fun j hj => hok.unsent hj (.job k hk hx)
  cases step_moves hm with
  | told hq ht =>
    refine ⟨hsorted, hsingle, hq ▸ told_wf h.wf, fun p r hr i rid hx => ?_, fun k hk i rid hx => hjob (ht ▸ hk) hx⟩
    rw [hq] at hr
    rcases told_rows h.single h.sorted hok hm hr hx with ⟨x, hg, hxx, hstays⟩ | halone
    · exact hrow hg hstays hxx
    · exact halone
  | mapped doc now ha hid hdone hq ht hat =>
    subst ha
    refine ⟨hsorted, hsingle, hq ▸ h.wf.setRemoteId _ _, fun p r hr i rid hx => ?_,
      fun k hk i rid hx => hjob (ht ▸ hk) hx⟩
    rw [hq, get_setRemoteId] at hr
    split_ifs at hr with hp
    · subst hp
      obtain ⟨y, hy, rfl⟩ := Option.map_eq_some_iff.mp hr
      obtain ⟨hc, he⟩ := rowAim_iff.mp hx
      obtain rfl : doc.id = rid := Option.some.inj he
      obtain ⟨j, hj⟩ := Option.isSome_iff_exists.mp hat
      obtain rfl : j = i := (hok hid hdone).2 j y i hj hy hc
      exact reconcile_alone h.sorted hm hid hj
    · exact hrow hr (not_swept rfl) hx
  | claim now j hc ht ha =>
    subst ha
    have hwf : t.db.queue.WF := h.wf.claimNext hc
    obtain ⟨y, hy, hclaim, rfl, -, hq⟩ := claimNext_spec hc
    have hg : m.db.queue.get y.filepath = some y := h.wf.get_mem hy
    refine ⟨hsorted, hsingle, hwf, fun p r hr i rid hx => ?_, fun k hk i rid hx => ?_⟩
    · rw [hq, get_claimed hg] at hr
      split_ifs at hr with hp
      · obtain rfl := Option.some.inj hr
        exact hrow hg (not_swept rfl) hx
      · exact hrow hr (not_swept rfl) hx
    · rw [ht] at hk
      rcases List.mem_append.mp hk with hk | hk
      · exact hjob hk hx
      · obtain rfl := List.mem_singleton.mp hk
        exact hrow hg (not_swept rfl) hx
  | task n now k next ha hk hd ht =>
    subst ha
    refine ⟨hsorted, hsingle, Drain.dbStep_wf h.wf hd, fun p r hr i rid hx => ?_, fun x hx i rid haim => ?_⟩
    · rcases dbStep_rows (hok k hk) hd hr hx with ⟨y, hg, hyx⟩ | ⟨halone, hmaps⟩
      · exact hrow hg (not_swept rfl) hyx
      · refine halone.step hm h.sorted fun j hj => ?_
        rw [permit_task hk] at hj
        exact (hmaps j hj).elim
    · rw [ht] at hx
      rcases Mount.mem_putTask hx with hx | ⟨ph, rfl, rfl⟩
      · exact hjob hx haim
      · exact hjob (List.mem_of_getElem? hk) (dbStep_aim hd haim)
  | answer n answer timedOut k next ha hk hn hdb ht =>
    subst ha
    refine ⟨hsorted, hsingle, hdb ▸ h.wf, fun p r hr i rid hx => hrow (hdb ▸ hr) (not_swept rfl) hx,
      fun x hx i rid haim => ?_⟩
    rw [ht] at hx
    rcases List.mem_or_eq_of_mem_set hx with hx | rfl
    · exact hjob hx haim
    · exact hjob (List.mem_of_getElem? hk) (answered_aim hn haim)
  | crash ha hq ht =>
    subst ha
    refine ⟨hsorted, hsingle, hq ▸ h.wf, fun p r hr i rid hx => hrow (hq ▸ hr) (not_swept rfl) hx, fun k hk => ?_⟩
    rw [ht] at hk
    cases hk

/-- **No job sends the content of a file to the document of another**, and no
two files have one document, in a run whose steps are `Ok`. -/
theorem aimed (h : Reach Changes.step Ok .fresh m) : Aimed m ∧ Single m.db := by
  have hinv : Inv m := h.inv .start fun _ _ _ hI hok hst => step_inv hI hok hst
  exact ⟨hinv.kept_apart, hinv.single⟩

/-- No file but one has the document. -/
private def lone (db : Db) (i : Ino) (rid : String) : Bool := db.remotes.all fun x => x.remoteId = rid → x.ino = i

/-- A task that is `TaskOk`, by a look at the tables. -/
private def mildTask (m : Mount) (k : Task) : Bool :=
  match k.phase with
  | .mapInode ino rid => lone m.db ino rid && m.db.queue.rows.all (fun r => r.remoteId ≠ some rid) &&
      m.tasks.all fun k => ((aim k.job k.phase).map Prod.snd) ≠ some rid
  | .mapRow _ rid => m.db.queue.rows.all fun r => r.filepath = k.job.filepath → (contentOf r.main).all fun i => lone m.db i rid
  | .succeed => m.db.queue.rows.all fun r => r.filepath = k.job.filepath → (r.pending.bind contentOf).all fun i =>
      r.remoteId.all fun rid => lone m.db i rid
  | _ => true

/-- Steps that are `Ok`, by a look at the tables. -/
private def mild (m : Mount) : Changes.Act → Bool
  | .mount (.createFile ..) | .mount (.write ..) | .mount (.claim ..) | .mount (.taskAnswer ..) => true
  | .mount (.reconcile ..) => m.db.queue.rows.isEmpty && m.tasks.isEmpty
  | .mount (.flush f _) => (m.db.getRemoteId f.ino).isSome || m.db.queue.rows.all fun r => r.filepath = f.filepath → r.remoteId = none
  | .mount (.taskDb n _) => (m.tasks[n]?).all (mildTask m)
  | _ => false

private theorem lone_alone {db : Db} {i : Ino} {rid : String} (h : lone db i rid = true) : Alone db i rid := by
  intro j _ hj
  obtain ⟨x, hx, hid⟩ := Option.map_eq_some_iff.mp hj
  obtain ⟨hmem, rfl⟩ := Table.get_some hx
  exact of_decide_eq_true (List.all_eq_true.mp h x hmem) hid

private theorem mildTask_ok {m : Mount} {a : Changes.Act} {k : Task} (h : mildTask m k = true) : TaskOk m a k := by
  unfold mildTask at h
  unfold TaskOk
  cases hph : k.phase with
  | mapInode ino rid =>
    rw [hph] at h
    obtain ⟨hfirst, hjobs⟩ := (Bool.and_eq_true _ _).mp h
    obtain ⟨hlone, hrows⟩ := (Bool.and_eq_true _ _).mp hfirst
    refine ⟨lone_alone hlone, fun i hi => ?_⟩
    cases hi with
    | row r hr _ hx =>
      exact absurd (rowAim_iff.mp hx).2 (of_decide_eq_true (List.all_eq_true.mp hrows r (get_some hr).1))
    | job k hk hx =>
      have hno := of_decide_eq_true (List.all_eq_true.mp hjobs k hk)
      rw [hx] at hno
      exact absurd rfl hno
  | mapRow ino rid =>
    rw [hph] at h
    intro r i hr hc
    obtain ⟨hmem, hfp⟩ := get_some hr
    have hlone := of_decide_eq_true (List.all_eq_true.mp h r hmem) hfp
    rw [hc] at hlone
    exact lone_alone hlone
  | succeed =>
    rw [hph] at h
    intro r pl i rid hr hpend hc hid
    obtain ⟨hmem, hfp⟩ := get_some hr
    have hlone := of_decide_eq_true (List.all_eq_true.mp h r hmem) hfp
    rw [hpend, Option.bind_some, hc, hid] at hlone
    exact lone_alone hlone
  | start | wait | patch | post | upload | clearRemoteId | markMirrored | clearDirty | delete | lookup | rename
  | fail | poison | sibling | drop => trivial

private theorem mild_ok {m : Mount} {a : Changes.Act} (h : mild m a = true) : Ok m a := by
  cases a with
  | setattr | name => cases h
  | mount b =>
    cases b with
    | createFile | write | claim | taskAnswer => trivial
    | truncate | unlink | rename | applyDeletion | rehydrate | poll | crash => cases h
    | reconcile doc now =>
      obtain ⟨hrows, htasks⟩ := (Bool.and_eq_true _ _).mp h
      have hnone (p : String) : m.db.queue.get p = none := by
        unfold PushQueue.get
        rw [List.isEmpty_iff.mp hrows]
        rfl
      refine fun _ _ => ⟨fun i hi => ?_, fun j r i _ hr => ?_⟩
      · cases hi with
        | row r hr => exact absurd ((hnone _).symm.trans hr) nofun
        | job k hk =>
          rw [List.isEmpty_iff.mp htasks] at hk
          cases hk
      · exact absurd ((hnone _).symm.trans hr) nofun
    | flush f now =>
      intro p x r rid _ hp _ _ hnone _ hr _ hid
      rcases (Bool.or_eq_true _ _).mp h with hown | hrows
      · rw [hnone] at hown
        cases hown
      · obtain ⟨hmem, hfp⟩ := get_some hr
        have hno : r.remoteId = none := of_decide_eq_true (List.all_eq_true.mp hrows r hmem) (hfp ▸ hp.symm)
        rw [hno] at hid
        cases hid
    | taskDb n now =>
      intro k hk
      have hall : (m.tasks[n]?).all (mildTask m) = true := h
      rw [hk] at hall
      exact mildTask_ok hall

/-- A note of the server. -/
private def sheet : Document := ⟨"A", some "/a.md", some [97], "done", "2026-01-01T00:00:00Z", some "text", none⟩

/-- The note is edited, and edited again while its job runs; beside it a new file is made, whose job creates its document. -/
private def edits : List Changes.Act :=
  [.mount (.reconcile sheet 0), .mount (.write ⟨2, true, some "/a.md"⟩ 0 [98] 0),
    .mount (.flush ⟨2, true, some "/a.md"⟩ 0), .mount (.claim 1000), .mount (.taskDb 0 1000),
    .mount (.write ⟨2, true, some "/a.md"⟩ 0 [99] 1000), .mount (.flush ⟨2, true, some "/a.md"⟩ 1000),
    .mount (.createFile ROOT_INO "b.md"), .mount (.write ⟨3, true, some "/b.md"⟩ 0 [100] 1000),
    .mount (.flush ⟨3, true, some "/b.md"⟩ 1000), .mount (.claim 2000), .mount (.taskDb 1 2000),
    .mount (.taskAnswer 1 (.created "B") false), .mount (.taskDb 1 2000), .mount (.taskDb 1 2000),
    .mount (.taskAnswer 0 (.status "done") false), .mount (.taskAnswer 0 .ok false),
    .mount (.taskAnswer 0 (.status "done") false), .mount (.taskDb 0 3000), .mount (.taskDb 0 3000),
    .mount (.taskDb 0 3000)]

/-- The second edit is promoted and goes to the note's document, the new file to its own. -/
theorem aimed_edited : ∃ m, Reach Changes.step Ok .fresh m ∧
    m.db.queue.rows.map rowAim = [some (2, "A"), some (3, "B")] ∧ m.tasks.length = 1 ∧ Aimed m ∧ Single m.db := by
  obtain ⟨m, hreach, hs⟩ : ∃ m, Reach Changes.step (fun m a => mild m a = true) .fresh m ∧
      decide (m.db.queue.rows.map rowAim = [some (2, "A"), some (3, "B")] ∧ m.tasks.length = 1) = true :=
    Reach.exists_of_run edits (by decide)
  have hok : Reach Changes.step Ok .fresh m := hreach.mono fun _ _ => mild_ok
  obtain ⟨hrows, htasks⟩ := of_decide_eq_true hs
  exact ⟨m, hok, hrows, htasks, aimed hok⟩

/-- The note is renamed, and a new file is made and flushed at its old path: its create takes the row of the rename with
the id of the note. -/
theorem takes_over : ¬ ∀ m, Reach Changes.step anyStep .fresh m → Aimed m := by
  intro hall
  obtain ⟨m, hreach, hs⟩ : ∃ m, Reach Changes.step anyStep .fresh m ∧ decide
      (m.db.queue.rows.map rowAim = [some (3, "A")] ∧ (m.db.getInode 2).isSome = true ∧
        m.db.getRemoteId 2 = some "A") = true :=
    Reach.exists_of_run
      [.mount (.reconcile sheet 0), .mount (.rename ROOT_INO "a.md" ROOT_INO "b.md" 1),
       .mount (.createFile ROOT_INO "a.md"), .mount (.write ⟨3, true, some "/a.md"⟩ 0 [98] 2),
       .mount (.flush ⟨3, true, some "/a.md"⟩ 2)] (by decide)
  obtain ⟨hrows, hthere, hmapped⟩ := of_decide_eq_true hs
  obtain ⟨r, hr, hx⟩ : ∃ r ∈ m.db.queue.rows, rowAim r = some (3, "A") :=
    List.mem_map.mp (hrows ▸ List.mem_singleton_self _)
  exact absurd ((hall m hreach).rows r hr 3 "A" hx 2 hthere hmapped) (by decide)

end Steps

end Aims
end Smfs
