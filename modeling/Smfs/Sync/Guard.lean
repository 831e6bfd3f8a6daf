/-
# What protects a local change

A change of a file's bytes is safe from an older version of the server while
the inode is dirty since then, and reaches the server by a content job. `write`
sets the mark, and `flush` enqueues the job. `truncate` and `setattr` set no
mark; and a flush enqueues nothing for a file of size zero, through a handle
without a filepath, at a path of noise, or into a row that was rejected. So a
change is protected and pushed exactly where it is a write, or the mark is
already newer, and the flush has something to enqueue, or a job is already
waiting (`guarded_iff`).

Key definitions: `Guard.Op`, `Guard.Changed`, `Guard.Queued`, `Guard.Guarded`, `Guard.Marks`, `Guard.Enqueues`.
Key theorems: `Guard.apply_inode`, `Guard.flush_queued`, `Guard.guarded_iff`, `Guard.truncated_bare`.
-/
import Smfs.File.Flat
import Smfs.Mount

namespace Smfs
namespace Guard

open Trans Db PushQueue

/-- The calls that change a file's bytes. -/
inductive Op
  | write (f : SqliteFile) (offset : ℕ) (data : Bytes)
  | truncate (f : SqliteFile) (size : ℕ)
  | setattr (ino : Ino) (size : ℕ)

namespace Op

def ino : Op → Ino
  | write f _ _ => f.ino
  | truncate f _ => f.ino
  | setattr ino _ => ino

/-- The database after the call. -/
def apply (db : Db) (nowMs : ℤ) : Op → Db
  | write f offset data => (f.write db offset data nowMs).2
  | truncate f size => f.truncate db size
  | setattr ino size => (Fs.setattrSize db ino size).2

end Op

/-- The call goes through on a regular file, and it is given bytes to write, or a size. A size is a `u64`. -/
def Changed (db : Db) (nowMs : ℤ) : Op → Prop
  | .write f offset data => ∃ n, (f.write db offset data nowMs).1 = .ok (n + 1)
  | .truncate f size => size < 2 ^ 64 ∧ ∃ i, db.getInode f.ino = some i ∧ i.kind = .reg
  | .setattr ino size => size < 2 ^ 64 ∧ ∃ i, db.getInode ino = some i ∧ i.kind = .reg

/-- The slot is a push of the inode's content. -/
def pushes (i : Ino) (pl : Payload) : Bool :=
  (pl.op = .create || pl.op = .update || pl.op = .uploadBinary) && pl.contentIno = some i

/-- A row that may still be claimed has a push of the inode's content that no worker has begun. -/
def Queued (q : PushQueue) (i : Ino) : Prop :=
  ∃ p r, q.get p = some r ∧ r.poisoned = false ∧
    (r.inflight = false ∧ pushes i r.main = true ∨ ∃ pl, r.pending = some pl ∧ pushes i pl = true)

/-- The change that was made at a time is safe from older versions, and it is on its way. -/
structure Guarded (db : Db) (i : Ino) (nowMs : ℤ) : Prop where
  dirty : ∃ d, db.getDirtySince i = some d ∧ nowMs ≤ d
  kept : ∀ doc u t, db.inoByRemoteId doc.id = some i → doc.updatedMs = some u → u < nowMs →
    Fs.reconcileOne db doc t = (.ok .skippedDirty, db)
  queued : Queued db.queue i

/-- The call is a write, or the inode is dirty since a later time. -/
def Marks (db : Db) (nowMs : ℤ) : Op → Prop
  | .write _ _ _ => True
  | op => ∃ d, db.getDirtySince op.ino = some d ∧ nowMs ≤ d

/-- The call does not empty the file. -/
def Filled : Op → Prop
  | .write _ _ _ => True
  | .truncate _ size => size ≠ 0
  | .setattr _ size => size ≠ 0

/-- The flush has a path to enqueue the push under, and the row there, if any, may still be claimed. -/
def Enqueues (db : Db) (g : SqliteFile) : Prop :=
  g.online = true ∧ ∃ p, g.filepath = some p ∧ isMacosNoisePath p = false ∧
    ∀ r, db.queue.get p = some r → r.poisoned = false

section Lemmas

variable {db : Db} {i : Ino} {op : Op} {now now' : ℤ} {g : SqliteFile}

theorem apply_sameSync : SameSync db (op.apply db now) := by
  cases op with
  | write f offset data => exact SqliteFile.write_sameSync
  | truncate f size => exact SqliteFile.truncate_sameSync
  | setattr ino size =>
    unfold Op.apply Fs.setattrSize
    dsimp only
    split
    · exact .refl _
    · split
      · exact .refl _
      · exact .refl _
      · exact SqliteFile.truncate_sameSync

/-! ### The mark and the size -/

/-- A write sets the mark, and its file is not empty. -/
theorem write_inode {f : SqliteFile} {offset n : ℕ} {data : Bytes} (h : (f.write db offset data now).1 = .ok (n + 1)) :
    ∃ x, (f.write db offset data now).2.getInode f.ino = some x ∧ x.dirtySince = some now ∧ x.size ≠ 0 := by
  unfold SqliteFile.write at h ⊢
  split_ifs at h ⊢ with hempty hcap
  · cases h
  · cases hi : db.getInode f.ino with
    | none =>
      rw [hi] at h
      cases h
    | some x =>
      have hget : (SqliteFile.writeChunks db f.ino data.length offset data).getInode f.ino = some x := by
        unfold getInode
        rw [SqliteFile.writeChunks_inodes.1]
        exact hi
      refine ⟨_, getInode_updInode_self (fun _ => rfl) hget, rfl, ?_⟩
      have hpos : 0 < data.length := List.length_pos_iff.mpr (by simpa using hempty)
      have hu : asU64 x.size < 2 ^ 64 := by
        unfold asU64
        omega
      simp only [MAX_FILE_SIZE] at hcap
      show asI64 (max (asU64 x.size) (offset + data.length)) ≠ 0
      unfold asI64
      split_ifs <;> omega

/-- A truncate leaves the mark, and the size is the one asked for. -/
theorem truncate_inode {f : SqliteFile} {size : ℕ} {x : Inode} (hi : db.getInode f.ino = some x) (hs : size < 2 ^ 64) :
    ∃ x', (f.truncate db size).getInode f.ino = some x' ∧ x'.dirtySince = x.dirtySince ∧ (x'.size ≠ 0 ↔ size ≠ 0) := by
  refine ⟨_, Flat.truncate_inode rfl hi, rfl, ?_⟩
  show asI64 size ≠ 0 ↔ size ≠ 0
  unfold asI64
  split_ifs <;> omega

theorem setattr_eq {ino : Ino} {size : ℕ} {x : Inode} (hi : db.getInode ino = some x) (hk : x.kind = .reg) :
    (Fs.setattrSize db ino size).2 = SqliteFile.truncate db ⟨ino, false, none⟩ size := by
  unfold Fs.setattrSize
  rw [hi]
  dsimp only
  rw [hk]

/-- The mark and the size after a call. -/
theorem apply_inode (hc : Changed db now op) : ∃ x, (op.apply db now).getInode op.ino = some x ∧
    ((∃ d, x.dirtySince = some d ∧ now ≤ d) ↔ Marks db now op) ∧ (x.size ≠ 0 ↔ Filled op) := by
  have htrunc : ∀ {f : SqliteFile} {size : ℕ} {x : Inode}, db.getInode f.ino = some x → size < 2 ^ 64 →
      ∃ x', (f.truncate db size).getInode f.ino = some x' ∧
        ((∃ d, x'.dirtySince = some d ∧ now ≤ d) ↔ ∃ d, db.getDirtySince f.ino = some d ∧ now ≤ d) ∧
        (x'.size ≠ 0 ↔ size ≠ 0) := by
    intro f size x hi hs
    obtain ⟨x', hx', hd, hsize⟩ := truncate_inode hi hs
    refine ⟨x', hx', ?_, hsize⟩
    have hdb : db.getDirtySince f.ino = x.dirtySince := by
      unfold getDirtySince
      rw [hi]
      rfl
    rw [hd, hdb]
  cases op with
  | write f offset data =>
    obtain ⟨n, hn⟩ := hc
    obtain ⟨x, hx, hd, hs⟩ := write_inode hn
    exact ⟨x, hx, iff_of_true ⟨now, hd, le_rfl⟩ trivial, iff_of_true hs trivial⟩
  | truncate f size =>
    obtain ⟨hs, x, hi, -⟩ := hc
    exact htrunc hi hs
  | setattr ino size =>
    obtain ⟨hs, x, hi, hk⟩ := hc
    show ∃ x', (Fs.setattrSize db ino size).2.getInode ino = some x' ∧ _
    rw [setattr_eq hi hk]
    exact htrunc (f := ⟨ino, false, none⟩) hi hs

/-! ### The queue -/

section Queue

variable {q : PushQueue} {p : String} {pl : Payload} {rid : Option String}

/-- An upsert of a push is queued exactly where its row may still be claimed, or another push was. -/
theorem queued_upsert (hn : isMacosNoisePath p = false) (hpl : pushes i pl = true) :
    Queued (q.upsert p pl rid now) i ↔ (∀ r, q.get p = some r → r.poisoned = false) ∨ Queued q i := by
  have hkeeps : ∀ r, q.get p = some r → (q.upserted p pl rid now).poisoned = r.poisoned := fun r hr => by
    cases hi : r.inflight with
    | false => rw [upserted_idle hr hi]; rfl
    | true => rw [upserted_held hr hi]; rfl
  have hhere : (∀ r, q.get p = some r → r.poisoned = false) → Queued (q.upsert p pl rid now) i := by
    intro hgood
    refine ⟨p, _, (get_upsert hn).trans (if_pos rfl), ?_⟩
    cases hr : q.get p with
    | none =>
      rw [upserted_none hr]
      exact ⟨rfl, .inl ⟨rfl, hpl⟩⟩
    | some r =>
      refine ⟨(hkeeps r hr).trans (hgood r hr), ?_⟩
      cases hi : r.inflight with
      | false =>
        rw [upserted_idle hr hi]
        exact .inl ⟨hi, hpl⟩
      | true =>
        rw [upserted_held hr hi]
        exact .inr ⟨pl, rfl, hpl⟩
  constructor
  · rintro ⟨p', r, hr, hpois, hslot⟩
    rw [get_upsert hn] at hr
    split_ifs at hr with hp
    · obtain rfl := Option.some.inj hr
      exact .inl fun r hr => (hkeeps r hr).symm.trans hpois
    · exact .inr ⟨p', r, hr, hpois, hslot⟩
  · rintro (hgood | ⟨p', r, hr, hpois, hslot⟩)
    · exact hhere hgood
    · by_cases hp : p' = p
      · subst hp
        exact hhere fun r' hr' => Option.some.inj (hr.symm.trans hr') ▸ hpois
      · exact ⟨p', r, (get_upsert hn).trans ((if_neg hp).trans hr), hpois, hslot⟩

end Queue

/-- What a flush leaves queued. -/
theorem flush_queued {x : Inode} (hx : db.getInode g.ino = some x) :
    Queued (g.flush db now).queue g.ino ↔ (x.size ≠ 0 ∧ Enqueues db g) ∨ Queued db.queue g.ino := by
  have hsize : ((db.getInode g.ino).map Inode.size).getD 0 = x.size := by rw [hx]; rfl
  have hskip : g.flush db now = db → ¬ (x.size ≠ 0 ∧ Enqueues db g) →
      (Queued (g.flush db now).queue g.ino ↔ (x.size ≠ 0 ∧ Enqueues db g) ∨ Queued db.queue g.ino) := fun he hno => by
    rw [he]
    exact ⟨.inr, fun h => h.resolve_left hno⟩
  cases hon : g.online with
  | false =>
    refine hskip (by unfold SqliteFile.flush; rw [hon]) fun h => ?_
    rw [h.2.1] at hon
    cases hon
  | true =>
    cases hp : g.filepath with
    | none =>
      refine hskip (by unfold SqliteFile.flush; rw [hp, hon]) fun h => ?_
      obtain ⟨-, -, p, hp', -⟩ := h
      rw [hp] at hp'
      cases hp'
    | some p =>
      by_cases hzero : x.size = 0
      · refine hskip ?_ fun h => h.1 hzero
        unfold SqliteFile.flush
        rw [hon, hp]
        dsimp only
        rw [hsize, if_pos hzero]
      · have hflush : (g.flush db now).queue = db.queue.upsert p
            ⟨if (db.getRemoteId g.ino).isSome then .update else .create, some g.ino, none⟩ (db.getRemoteId g.ino)
            (now + PUSH_DEBOUNCE_MS) := by
          unfold SqliteFile.flush
          rw [hon, hp]
          dsimp only
          rw [hsize, if_neg hzero]
        rw [hflush]
        cases hn : isMacosNoisePath p with
        | true =>
          rw [upsert_noise hn]
          refine ⟨.inr, fun h => h.resolve_left fun ⟨_, _, p', hp', hn', _⟩ => ?_⟩
          obtain rfl := Option.some.inj (hp.symm.trans hp')
          rw [hn] at hn'
          cases hn'
        | false =>
          have hpl : pushes g.ino ⟨if (db.getRemoteId g.ino).isSome then .update else .create, some g.ino,
            none⟩ = true := by
            unfold pushes
            split_ifs <;> simp
          rw [queued_upsert hn hpl]
          refine or_congr ⟨fun h => ⟨hzero, hon, p, hp, hn, h⟩, fun ⟨_, _, p', hp', _, h⟩ => ?_⟩ Iff.rfl
          obtain rfl := Option.some.inj (hp.symm.trans hp')
          exact h

/-- An older version of a file that is dirty is refused. -/
theorem older_refused {doc : Document} {u d t : ℤ} (hd : db.getDirtySince i = some d)
    (hm : db.inoByRemoteId doc.id = some i)
    (hu : doc.updatedMs = some u) (hlt : u < d) : Fs.reconcileOne db doc t = (.ok .skippedDirty, db) := by
  have hnewer : Fs.dirtyNewer db i doc = true := by
    unfold Fs.dirtyNewer
    rw [hd, hu]
    exact decide_eq_true hlt
  unfold Fs.reconcileOne
  rw [hm]
  dsimp only
  unfold Fs.reconcileMapped
  rw [if_pos hnewer]

/-- **A local change is protected and pushed exactly where it is a write**, or the mark is newer than it, and the flush
has something to enqueue, or a job waits already. -/
theorem guarded_iff (hg : g.ino = op.ino) (hc : Changed db now op) :
    Guarded (g.flush (op.apply db now) now') op.ino now ↔
      Marks db now op ∧ (Filled op ∧ Enqueues db g ∨ Queued db.queue op.ino) := by
  obtain ⟨x, hx, hmark, hsize⟩ := apply_inode hc
  have hqueue : (op.apply db now).queue = db.queue := apply_sameSync.queue
  have hqueued : Queued (g.flush (op.apply db now) now').queue op.ino ↔ Filled op ∧ Enqueues db g ∨
    Queued db.queue op.ino := by
    have hflush : Queued (g.flush (op.apply db now) now').queue g.ino ↔
        (x.size ≠ 0 ∧ Enqueues (op.apply db now) g) ∨ Queued (op.apply db now).queue g.ino := flush_queued (hg ▸ hx)
    rw [hg] at hflush
    rw [hflush, hsize]
    unfold Enqueues
    rw [hqueue]
  have hdirty : (∃ d, (g.flush (op.apply db now) now').getDirtySince op.ino = some d ∧ now ≤ d) ↔ Marks db now op := by
    have hkeep : Keeps op.ino (op.apply db now) (g.flush (op.apply db now) now') := SqliteFile.flush_keeps
    have hget : (op.apply db now).getDirtySince op.ino = x.dirtySince := by
      unfold getDirtySince
      rw [hx]
      rfl
    rw [hkeep.dirty, hget]
    exact hmark
  constructor
  · exact fun h => ⟨hdirty.mp h.dirty, hqueued.mp h.queued⟩
  · rintro ⟨hm, hq⟩
    refine ⟨hdirty.mpr hm, fun doc u t hid hu hlt => ?_, hqueued.mpr hq⟩
    obtain ⟨d, hd, hle⟩ := hdirty.mpr hm
    exact older_refused hd hid hu (hlt.trans_le hle)

/-- The version of `/a.md` that the server has had for a second. -/
def version : Document := ⟨"d1", some "/a.md", some [97, 98], "done", "1970-01-01T00:00:01.000Z", some "text", none⟩

/-- The first pull has brought it. -/
def pulled : Db := (Fs.reconcileOne Db.fresh version 1000).2

def handle : SqliteFile := ⟨2, true, some "/a.md"⟩

theorem guarded_iff_written : Guarded (handle.flush (Op.apply pulled 2000 (.write handle 0 [99])) 2000) 2 2000 := by
  have hchanged : Changed pulled 2000 (.write handle 0 [99]) := ⟨0, by decide⟩
  have henq : Enqueues pulled handle := ⟨rfl, "/a.md", rfl, by decide, fun r hr => by cases hr⟩
  exact (guarded_iff rfl hchanged).mpr ⟨trivial, .inl ⟨trivial, henq⟩⟩

/-- The file is cut to one byte and flushed: nothing says that it has changed. -/
theorem truncated_bare : ¬ ∀ m, Reach Mount.step anyStep Mount.fresh m → ∀ (op : Op) (now now' : ℤ) (g : SqliteFile),
    g.ino = op.ino →
    (m.db.getRemoteId op.ino).isSome = true → Changed m.db now op →
    (op.apply m.db now).readAllContent op.ino ≠ m.db.readAllContent op.ino →
    Guarded (g.flush (op.apply m.db now) now') op.ino now := by
  intro hall
  have hreach : Reach Mount.step anyStep Mount.fresh ⟨pulled, []⟩ :=
    .next (a := .reconcile version 1000) .start trivial rfl
  have hchanged : Changed pulled 2000 (.setattr 2 1) := ⟨by decide, ⟨2, .reg, 1, 2, none, false⟩, by decide, rfl⟩
  obtain ⟨d, hd, -⟩ := (hall _ hreach (.setattr 2 1) 2000 2000 handle rfl (by decide) hchanged (by decide)).dirty
  have hclean : (handle.flush (Op.apply pulled 2000 (.setattr 2 1)) 2000).getDirtySince 2 = none := by decide
  have heq : none = some d := hclean.symm.trans hd
  cases heq

end Lemmas

end Guard
end Smfs
