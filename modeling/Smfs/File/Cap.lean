/-
# The cap on the size of a file

`write` refuses what would end beyond `MAX_FILE_SIZE`. `truncate`, and
`setattr` through it, store any size they are given, cast to a signed integer
(`cache/file.rs`, `cache/fs.rs`): beyond the cap, and negative from `2 ^ 63` on.

Key definitions: `Cap.Capped`, `Cap.Exceeds`, `Cap.Meets`, `Cap.SizeOk`.
Key theorems: `Cap.apply_capped`, `Cap.capped_iff`, `Cap.truncated_beyond`.
-/
import Smfs.Sync.Guard
import Smfs.Names.Routes

namespace Smfs
namespace Cap

open Trans Db Fs

/-- The stored size is within the cap. -/
def Capped (db : Db) (i : Ino) : Prop := ∃ x, db.getInode i = some x ∧ 0 ≤ x.size ∧ x.size ≤ MAX_FILE_SIZE

/-- The file would end beyond the cap. -/
def Exceeds : Guard.Op → Prop
  | .write _ offset data => data ≠ [] ∧ MAX_FILE_SIZE < offset + data.length
  | .truncate _ size => MAX_FILE_SIZE < size
  | .setattr _ size => MAX_FILE_SIZE < size

/-- Whether a call is a success, or which error it is. -/
def answer (db : Db) (nowMs : ℤ) : Guard.Op → Option VfsError
  | .write f offset data => outcome (f.write db offset data nowMs).1
  | .truncate _ _ => none
  | .setattr ino size => outcome (setattrSize db ino size).1

/-- Sizes and offsets are `u64`s. -/
def InU64 : Guard.Op → Prop
  | .write _ offset _ => offset < 2 ^ 64
  | .truncate _ size => size < 2 ^ 64
  | .setattr _ size => size < 2 ^ 64

instance : DecidablePred InU64
  | .write _ _ _ => inferInstanceAs (Decidable (_ < _))
  | .truncate _ _ => inferInstanceAs (Decidable (_ < _))
  | .setattr _ _ => inferInstanceAs (Decidable (_ < _))

/-- What the cap asks of a call: the size stays within it, and a call that
would exceed it fails and leaves the size, the dirty mark and the chunks. -/
structure Meets (db : Db) (nowMs : ℤ) (op : Guard.Op) : Prop where
  capped : Capped (op.apply db nowMs) op.ino
  refused : Exceeds op → (answer db nowMs op).isSome = true ∧
    (op.apply db nowMs).getInode op.ino = db.getInode op.ino ∧ (op.apply db nowMs).chunksOf op.ino = db.chunksOf op.ino

/-- A size that is given as such is within the cap. -/
def SizeOk : Guard.Op → Prop
  | .write _ _ _ => True
  | .truncate _ size => size ≤ MAX_FILE_SIZE
  | .setattr _ size => size ≤ MAX_FILE_SIZE

/-- The calls on one file. -/
def step (i : Ino) (db : Db) (a : ℤ × Guard.Op) : Option Db := if a.2.ino = i then some (a.2.apply db a.1) else none

/-- A regular file whose size is within the cap. -/
structure Sized (db : Db) (i : Ino) : Prop where
  capped : Capped db i
  reg : ∃ x, db.getInode i = some x ∧ x.kind = .reg

section Lemmas

variable {db : Db} {i : Ino} {nowMs : ℤ} {op : Guard.Op}

theorem asI64_capped {n : ℕ} (h : n < 2 ^ 64) : (0 ≤ asI64 n ∧ asI64 n ≤ MAX_FILE_SIZE) ↔ n ≤ MAX_FILE_SIZE := by
  unfold asI64 MAX_FILE_SIZE
  split_ifs <;> omega

theorem write_refused {f : SqliteFile} {offset : ℕ} {data : Bytes} (h : Exceeds (.write f offset data)) :
    f.write db offset data nowMs = (.error (.invalidPath "file exceeds 100 MB cap"), db) := by
  obtain ⟨hne, hlt⟩ := h
  unfold SqliteFile.write
  rw [if_neg (by simpa using hne), if_pos hlt]

/-- A write that is not refused ends within the cap. -/
theorem write_sized {f : SqliteFile} {offset : ℕ} {data : Bytes} (h : Sized db f.ino) :
    Sized (f.write db offset data nowMs).2 f.ino := by
  obtain ⟨⟨x, hx, hpos, hle⟩, y, hy, hk⟩ := h
  rw [hx] at hy
  cases hy
  unfold SqliteFile.write
  by_cases hempty : data.isEmpty = true
  · rw [if_pos hempty]
    exact ⟨⟨x, hx, hpos, hle⟩, x, hx, hk⟩
  · rw [if_neg hempty]
    by_cases hcap : offset + data.length > MAX_FILE_SIZE
    · rw [if_pos hcap]
      exact ⟨⟨x, hx, hpos, hle⟩, x, hx, hk⟩
    · rw [if_neg hcap, hx]
      have hget : (SqliteFile.writeChunks db f.ino data.length offset data).getInode f.ino = some x := by
        unfold Db.getInode
        rw [SqliteFile.writeChunks_inodes.1]
        exact hx
      have hsize : max (asU64 x.size) (offset + data.length) ≤ MAX_FILE_SIZE := by
        refine max_le ?_ (not_lt.mp hcap)
        unfold asU64
        unfold MAX_FILE_SIZE at hle ⊢
        omega
      have hbound := (asI64_capped (lt_of_le_of_lt hsize (by decide))).mpr hsize
      have hrow := getInode_updInode_self (f := fun i => { i with
        size := asI64 (max (asU64 x.size) (offset + data.length)), dirtySince := some nowMs }) (fun _ => rfl) hget
      exact ⟨⟨_, hrow, hbound⟩, _, hrow, hk⟩

theorem truncate_sized {f : SqliteFile} {size : ℕ} (h : Sized db f.ino) (hu : size < 2 ^ 64) :
    (size ≤ MAX_FILE_SIZE → Sized (f.truncate db size) f.ino) ∧
      (Capped (f.truncate db size) f.ino → size ≤ MAX_FILE_SIZE) := by
  obtain ⟨x, hx, hk⟩ := h.reg
  have hrow : (f.truncate db size).getInode f.ino = some { x with size := asI64 size } := Flat.truncate_inode rfl hx
  refine ⟨fun hle => ⟨⟨_, hrow, (asI64_capped hu).mpr hle⟩, _, hrow, hk⟩, ?_⟩
  rintro ⟨y, hy, hb⟩
  rw [hrow] at hy
  cases hy
  exact (asI64_capped hu).mp hb

/-- **A call keeps the size within the cap just where it is no size beyond it
that is given as such.** -/
theorem apply_capped (h : Sized db op.ino) (hu : InU64 op) :
    (SizeOk op → Sized (op.apply db nowMs) op.ino) ∧ (Meets db nowMs op ↔ SizeOk op) := by
  have hof : (SizeOk op → Sized (op.apply db nowMs) op.ino) → (Capped (op.apply db nowMs) op.ino → SizeOk op) →
      (SizeOk op → Exceeds op → False) → (SizeOk op → Sized (op.apply db nowMs) op.ino) ∧
        (Meets db nowMs op ↔ SizeOk op) :=
    fun hsized hback hno => ⟨hsized, fun hm => hback hm.capped,
      fun hok => ⟨(hsized hok).capped, fun he => (hno hok he).elim⟩⟩
  cases op with
  | write f offset data =>
    have hsized : Sized (f.write db offset data nowMs).2 f.ino := write_sized h
    refine ⟨fun _ => hsized, fun _ => trivial, fun _ => ⟨hsized.capped, fun he => ?_⟩⟩
    have hr : f.write db offset data nowMs = (.error (.invalidPath "file exceeds 100 MB cap"), db) := write_refused he
    have hdb : (Guard.Op.write f offset data).apply db nowMs = db := by rw [Guard.Op.apply, hr]
    refine ⟨?_, by rw [hdb], by rw [hdb]⟩
    rw [answer, hr]
    rfl
  | truncate f size =>
    have ht := truncate_sized h hu
    exact hof ht.1 ht.2 fun hok he => absurd hok (not_le.mpr he)
  | setattr ino size =>
    obtain ⟨x, hx, hk⟩ := h.reg
    have heq : (Guard.Op.setattr ino size).apply db nowMs = SqliteFile.truncate db ⟨ino, false, none⟩ size :=
      Guard.setattr_eq hx hk
    have ht := truncate_sized (f := ⟨ino, false, none⟩) h hu
    rw [← heq] at ht
    exact hof ht.1 ht.2 fun hok he => absurd hok (not_le.mpr he)

theorem createFile_sized {online : Bool} {p : Ino} {name : String} {f : SqliteFile} (hb : db.Bounded)
    (hc : (createFile db online p name).1 = .ok f) : Sized (createFile db online p name).2 f.ino := by
  rw [createFile_eq] at hc ⊢
  cases hv : validateName name with
  | error e =>
    rw [hv] at hc
    cases hc
  | ok _ =>
    cases hvac : vacant db p name with
    | error e =>
      rw [hv] at hc
      dsimp only at hc
      rw [hvac] at hc
      cases hc
    | ok _ =>
      rw [hv] at hc
      dsimp only at hc ⊢
      rw [hvac] at hc
      cases hc
      have hrow : (db.addInode .reg 1 0 false).1.getInode db.nextIno = some ⟨db.nextIno, .reg, 1, 0, none, false⟩ := by
        rw [hb.getInode_addInode, if_pos rfl]
      exact ⟨⟨_, hrow, le_rfl, Int.natCast_nonneg _⟩, _, hrow, rfl⟩

end Lemmas

/-! ### Runs -/

section Run

variable {online : Bool} {db : Db}

theorem step_sized {i : Ino} {s t : Db} {a : ℤ × Guard.Op} (h : Sized s i) (hok : InU64 a.2 ∧ SizeOk a.2)
    (hst : step i s a = some t) : Sized t i := by
  unfold step at hst
  split_ifs at hst with hi
  cases hst
  subst hi
  exact (apply_capped h hok.1).1 hok.2

/-- **In every run of writes, truncates and size changes on a created file no
step of which is a size beyond the cap that is given as such, the size is
within the cap in every state; and a call meets the cap exactly if it is no
such step.** A write never breaks it. -/
theorem capped_iff (p : Ino) (name : String) (f : SqliteFile) (hdb : Reach (Cache.routeStep online) anyStep .fresh db)
    (hc : (createFile db online p name).1 = .ok f) :
    ∀ t, Reach (step f.ino) (fun _ a => InU64 a.2 ∧ SizeOk a.2) (createFile db online p name).2 t →
      Capped t f.ino ∧ ∀ nowMs op, op.ino = f.ino → InU64 op → (Meets t nowMs op ↔ SizeOk op) := by
  intro t ht
  have hsized : Sized t f.ino :=
    ht.inv (I := fun d => Sized d f.ino) (createFile_sized (Cache.reachable_wf hdb).bounded hc)
      fun _ _ _ hI hok hst => step_sized hI hok hst
  refine ⟨hsized.capped, fun nowMs op hi hu => ?_⟩
  exact (apply_capped (hi ▸ hsized) hu).2

/-- A file is created, filled to the cap, and a write beyond it is refused. -/
theorem capped_iff_full : ∃ t, Reach (step 2) (fun _ a => InU64 a.2 ∧ SizeOk a.2) (createFile .fresh true 1 "a").2 t ∧
    t.getInode 2 = some ⟨2, .reg, 1, 104857600, some 0, false⟩ ∧ Capped t 2 ∧
    Meets t 1 (.write ⟨2, true, none⟩ 104857600 [1]) := by
  refine ⟨((SqliteFile.mk 2 true (some "/a")).write (createFile .fresh true 1 "a").2 104857599 [1] 0).2, ?_,
    by decide, ?_⟩
  · exact Reach.start.next (a := (0, .write ⟨2, true, some "/a"⟩ 104857599 [1])) ⟨by decide, trivial⟩ rfl
  · have hrun := @capped_iff true _ 1 "a" ⟨2, true, some "/a"⟩ .start (by decide) _
      (Reach.start.next (a := (0, .write ⟨2, true, some "/a"⟩ 104857599 [1])) ⟨by decide, trivial⟩ rfl)
    exact ⟨hrun.1, (hrun.2 1 (.write ⟨2, true, none⟩ 104857600 [1]) rfl (by decide)).mpr trivial⟩

/-- A truncate to `2 ^ 63` bytes is stored as a negative size. -/
theorem truncated_beyond : ¬ ∀ (f : SqliteFile) (t : Db), (createFile .fresh true 1 "a").1 = .ok f →
    Reach (step f.ino) (fun _ a => InU64 a.2) (createFile .fresh true 1 "a").2 t → Capped t f.ino := by
  intro hall
  have hrun : Reach (step 2) (fun _ a => InU64 a.2) (createFile .fresh true 1 "a").2
      ((SqliteFile.mk 2 true (some "/a")).truncate (createFile .fresh true 1 "a").2 (2 ^ 63)) :=
    Reach.start.next (a := (0, .truncate ⟨2, true, some "/a"⟩ (2 ^ 63))) (by decide) rfl
  obtain ⟨x, hx, hpos, -⟩ := hall ⟨2, true, some "/a"⟩ _ (by decide) hrun
  have hrow : ((SqliteFile.mk 2 true (some "/a")).truncate (createFile .fresh true 1 "a").2 (2 ^ 63)).getInode 2 =
      some ⟨2, .reg, 1, -2 ^ 63, none, false⟩ := by decide
  rw [hrow] at hx
  cases hx
  exact absurd hpos (by decide)

end Run

end Cap
end Smfs
