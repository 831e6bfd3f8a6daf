/-
# The push queue

The table `push_queue` (`cache/schema.sql`) and the functions of `Db` that
read and write it (`cache/db.rs`). One row per filepath, with a main slot
(`op`, `content_ino`, `rename_to`, `remote_id`) and a pending slot for what
arrives while a worker holds the row. A row is held while
`inflight_started_at` is set.

The rows stand in the order of their rowids, which is the order SQLite's
index on `updated_at` gives rows with one `updated_at`. A rowid names one row
for the whole run: the model never gives one out twice.

Key definitions: `PushRow`, `PushQueue`, `PushQueue.upsert`,
`PushQueue.retargetPendingCreate`, `PushQueue.claimNext`,
`PushQueue.finalizeSuccess`, `PushQueue.finalizeFailure`, `PushQueue.poison`.
Key theorems: `PushQueue.get_upsert`, `PushQueue.get_retarget`,
`PushQueue.claimNext_spec`, `PushQueue.WF` and its preservation lemmas.
-/
import Smfs.Lib.Table
import Mathlib.Logic.Relation
import Mathlib.Data.List.Nodup
import Mathlib.Algebra.Order.Ring.Int
import Mathlib.Tactic.Ring

namespace Smfs

/-- An inode number. -/
abbrev Ino := ℕ

/-- The operations of the push queue. -/
inductive PushOp
  | create
  | update
  | delete
  | rename
  | uploadBinary
  deriving DecidableEq, Repr

/-- What a slot of a row asks for: the columns that `push_queue_upsert`
replaces as a whole. -/
structure Payload where
  op : PushOp
  contentIno : Option Ino
  renameTo : Option String
  deriving DecidableEq, Repr

/-- A row of `push_queue`. -/
structure PushRow where
  rowid : ℕ
  filepath : String
  main : Payload
  remoteId : Option String
  inflightStartedAt : Option ℤ
  pending : Option Payload
  lastError : Option String
  attempt : ℤ
  updatedAt : ℤ
  poisoned : Bool
  lastStatus : Option ℕ
  deriving DecidableEq, Repr

/-- A worker holds the row. -/
def PushRow.inflight (r : PushRow) : Bool := r.inflightStartedAt.isSome

/-- A claimed job, as `push_queue_claim_next` returns it. -/
structure PushJob where
  filepath : String
  op : PushOp
  contentIno : Option Ino
  renameTo : Option String
  remoteId : Option String
  attempt : ℤ
  deriving DecidableEq, Repr

/-- The slot of the row a job was made from. -/
def PushJob.payload (j : PushJob) : Payload := ⟨j.op, j.contentIno, j.renameTo⟩

/-- The table, and the next rowid. -/
structure PushQueue where
  rows : List PushRow
  nextRowid : ℕ
  deriving DecidableEq, Repr

/-- Files that macOS writes next to real ones: kept locally, never sent. -/
def isMacosNoisePath (filepath : String) : Bool :=
  let trimmed := filepath.toList.dropWhile (· = '/')
  if trimmed.isEmpty then false
  else
    let first := trimmed.takeWhile (· ≠ '/')
    let basename := (trimmed.reverse.takeWhile (· ≠ '/')).reverse
    if [".Spotlight-V100", ".Trashes", ".fseventsd", ".TemporaryItems"].any
        fun p => p.toList.isPrefixOf first then true
    else if "._".toList.isPrefixOf basename then true
    else [".DS_Store", ".localized", ".apdisk", ".VolumeIcon.icns", ".metadata_never_index",
      ".metadata_never_index_unless_rootfs", ".com.apple.timemachine.donotpresent",
      "Icon\r"].contains (String.ofList basename)

namespace PushQueue

/-- The empty queue. -/
def empty : PushQueue := ⟨[], 1⟩

/-- The row of a filepath. -/
def get (q : PushQueue) (filepath : String) : Option PushRow := Table.get PushRow.filepath q.rows filepath

/-- `UPDATE push_queue SET … WHERE filepath = ?`. -/
def modify (q : PushQueue) (filepath : String) (f : PushRow → PushRow) : PushQueue :=
  { q with rows := Table.modify PushRow.filepath q.rows filepath f }

/-- `DELETE FROM push_queue WHERE filepath = ?` (`push_queue_drop`). -/
def drop (q : PushQueue) (filepath : String) : PushQueue :=
  { q with rows := Table.erase PushRow.filepath q.rows filepath }

/-- A worker holds the row of the filepath. -/
def inflight (q : PushQueue) (filepath : String) : Bool := (q.get filepath).any PushRow.inflight

/-- The row that `push_queue_upsert` inserts. -/
def newRow (rowid : ℕ) (filepath : String) (pl : Payload) (remoteId : Option String) (nowMs : ℤ) :
    PushRow where
  rowid := rowid
  filepath := filepath
  main := pl
  remoteId := remoteId
  inflightStartedAt := none
  pending := none
  lastError := none
  attempt := 0
  updatedAt := nowMs
  poisoned := false
  lastStatus := none

/-- The row with a write parked in its pending slot. -/
def parked (pl : Payload) (nowMs : ℤ) (r : PushRow) : PushRow :=
  { r with pending := some pl, updatedAt := nowMs }

/-- The row with its main slot replaced. A known document id is kept. -/
def replaced (pl : Payload) (remoteId : Option String) (nowMs : ℤ) (r : PushRow) : PushRow :=
  { r with main := pl, remoteId := remoteId.or r.remoteId, attempt := 0, lastError := none,
           updatedAt := nowMs }

/-- `push_queue_upsert`: a new row, or the main slot of a row no worker
holds, or the pending slot of one that a worker holds. -/
def upsert (q : PushQueue) (filepath : String) (pl : Payload) (remoteId : Option String)
    (nowMs : ℤ) : PushQueue :=
  if isMacosNoisePath filepath then q
  else if q.inflight filepath then q.modify filepath (parked pl nowMs)
  else if (q.get filepath).isSome then q.modify filepath (replaced pl remoteId nowMs)
  else
    { rows := q.rows ++ [newRow q.nextRowid filepath pl remoteId nowMs],
      nextRowid := q.nextRowid + 1 }

/-- The rows `push_queue_retarget_pending_create` moves. -/
def retargetable (r : PushRow) : Bool :=
  (r.main.op = .create || r.main.op = .uploadBinary) && !r.inflight && r.remoteId.isNone

/-- The row that a retarget moves, as it leaves it at `newFp`. -/
def retargeted (r : PushRow) (newFp : String) (rebind : Option String) (nowMs : ℤ) : PushRow :=
  { r with filepath := newFp, remoteId := rebind.or r.remoteId, attempt := 0, lastError := none,
           updatedAt := nowMs }

/-- `push_queue_retarget_pending_create`: move a create row no worker holds
from `oldFp` to `newFp`, in place of the row there. Returns whether it moved. -/
def retargetPendingCreate (q : PushQueue) (oldFp newFp : String) (rebind : Option String)
    (nowMs : ℤ) : PushQueue × Bool :=
  if (q.get oldFp).any retargetable then
    if ((q.drop newFp).get oldFp).isSome then
      ((q.drop newFp).modify oldFp fun r => retargeted r newFp rebind nowMs, true)
    else (q.drop newFp, false)
  else (q, false)

/-- A row `push_queue_claim_next` may return. -/
def claimable (nowMs : ℤ) (r : PushRow) : Bool := !r.inflight && !r.poisoned && r.updatedAt ≤ nowMs

/-- The row `push_queue_claim_next` picks: the first of the smallest `updated_at`. -/
def nextRow (q : PushQueue) (nowMs : ℤ) : Option PushRow :=
  (q.rows.filter (claimable nowMs)).minOn? PushRow.updatedAt

/-- The job made from a row. -/
def jobOf (r : PushRow) : PushJob :=
  ⟨r.filepath, r.main.op, r.main.contentIno, r.main.renameTo, r.remoteId, r.attempt⟩

/-- The row once a worker holds it. -/
def held (nowMs : ℤ) (r : PushRow) : PushRow := { r with inflightStartedAt := some nowMs }

/-- `push_queue_claim_next`. -/
def claimNext (q : PushQueue) (nowMs : ℤ) : Option (PushJob × PushQueue) :=
  (q.nextRow nowMs).map fun r => (jobOf r, q.modify r.filepath (held nowMs))

/-- `push_queue_set_remote_id`. -/
def setRemoteId (q : PushQueue) (filepath : String) (remoteId : Option String) : PushQueue :=
  q.modify filepath fun r => { r with remoteId := remoteId }

/-- The row with its pending slot promoted. -/
def promoted (pl : Payload) (nowMs : ℤ) (r : PushRow) : PushRow :=
  { r with main := pl, pending := none, inflightStartedAt := none, attempt := 0, lastError := none,
           updatedAt := nowMs }

/-- `push_queue_finalize_success`: the pending slot becomes the main slot, or
the row goes. -/
def finalizeSuccess (q : PushQueue) (filepath : String) (nowMs : ℤ) : PushQueue :=
  match (q.get filepath).bind PushRow.pending with
  | some pl => q.modify filepath (promoted pl nowMs)
  | none => q.drop filepath

/-- The row after a failed attempt: free again, after the backoff. -/
def failed (error : String) (nowMs backoffMs : ℤ) (r : PushRow) : PushRow :=
  { r with inflightStartedAt := none, attempt := r.attempt + 1, lastError := some error,
           updatedAt := nowMs + backoffMs }

/-- `push_queue_finalize_failure`. -/
def finalizeFailure (q : PushQueue) (filepath error : String) (nowMs backoffMs : ℤ) : PushQueue :=
  q.modify filepath (failed error nowMs backoffMs)

/-- The row after a rejection: free, and never claimed again. -/
def rejected (httpStatus : ℕ) (reason : String) (nowMs : ℤ) (r : PushRow) : PushRow :=
  { r with poisoned := true, inflightStartedAt := none, lastError := some reason,
           lastStatus := some httpStatus, updatedAt := nowMs }

/-- `push_queue_poison`. -/
def poison (q : PushQueue) (filepath : String) (httpStatus : ℕ) (reason : String) (nowMs : ℤ) :
    PushQueue :=
  q.modify filepath (rejected httpStatus reason nowMs)

/-! ### What each function leaves at a filepath -/

variable {q : PushQueue} {p p' : String}

theorem get_some {r : PushRow} (h : q.get p = some r) : r ∈ q.rows ∧ r.filepath = p :=
  Table.get_some h

theorem get_modify (f : PushRow → PushRow) (hf : ∀ r, (f r).filepath = r.filepath) :
    (q.modify p f).get p' = if p' = p then (q.get p).map f else q.get p' :=
  Table.get_modify _ _ _ _ fun r h => (hf r).trans h

theorem get_drop : (q.drop p).get p' = if p' = p then none else q.get p' := Table.get_erase _ _ _

theorem get_drop_self : (q.drop p).get p = none := get_drop.trans (if_pos rfl)

theorem inflight_eq_false : q.inflight p = false ↔ ∀ r, q.get p = some r → r.inflight = false := by
  unfold inflight
  cases q.get p <;> simp

theorem inflight_eq_true : q.inflight p = true ↔ ∃ r, q.get p = some r ∧ r.inflight = true := by
  unfold inflight
  cases q.get p <;> simp

/-- The row `push_queue_upsert` leaves at its filepath. -/
def upserted (q : PushQueue) (p : String) (pl : Payload) (rid : Option String) (now : ℤ) : PushRow :=
  match q.get p with
  | none => newRow q.nextRowid p pl rid now
  | some r => if r.inflight then parked pl now r else replaced pl rid now r

theorem upserted_none {pl : Payload} {rid : Option String} {now : ℤ} (h : q.get p = none) :
    q.upserted p pl rid now = newRow q.nextRowid p pl rid now := by
  simp only [upserted, h]

theorem upserted_held {pl : Payload} {rid : Option String} {now : ℤ} {r : PushRow}
    (h : q.get p = some r) (hr : r.inflight = true) :
    q.upserted p pl rid now = parked pl now r := by
  simp only [upserted, h, hr, if_true]

theorem upserted_idle {pl : Payload} {rid : Option String} {now : ℤ} {r : PushRow}
    (h : q.get p = some r) (hr : r.inflight = false) :
    q.upserted p pl rid now = replaced pl rid now r := by
  simp only [upserted, h, hr, Bool.false_eq_true, if_false]

/-- What `push_queue_upsert` leaves of a row with an empty pending slot that no worker holds. -/
theorem upserted_main (pl : Payload) (rid : Option String) (now : ℤ)
    (h : ∀ r, q.get p = some r → r.inflight = false ∧ r.pending = none) :
    (q.upserted p pl rid now).main = pl ∧ (q.upserted p pl rid now).pending = none ∧
      (q.upserted p pl rid now).remoteId = rid.or ((q.get p).bind PushRow.remoteId) := by
  cases hr : q.get p with
  | none =>
    rw [upserted_none hr]
    exact ⟨rfl, rfl, (Option.or_none).symm⟩
  | some r =>
    obtain ⟨hidle, hpend⟩ := h r hr
    rw [upserted_idle hr hidle]
    exact ⟨rfl, hpend, rfl⟩

theorem upsert_noise {pl : Payload} {rid : Option String} {now : ℤ} (h : isMacosNoisePath p = true) :
    q.upsert p pl rid now = q := by
  simp [upsert, h]

theorem get_upsert {pl : Payload} {rid : Option String} {now : ℤ} (h : isMacosNoisePath p = false) :
    (q.upsert p pl rid now).get p' = if p' = p then some (q.upserted p pl rid now) else q.get p' := by
  unfold upsert upserted inflight
  simp only [h, Bool.false_eq_true, if_false]
  cases hg : q.get p with
  | none =>
    simp only [Option.any_none, Bool.false_eq_true, if_false, Option.isSome_none]
    show Table.get PushRow.filepath (q.rows ++ [_]) p' = _
    rw [Table.get_append, Table.get_cons, Table.get_nil]
    by_cases hp : p' = p
    · subst hp
      rw [show Table.get PushRow.filepath q.rows p' = none from hg]
      simp [newRow]
    · have hp' : ¬ (newRow q.nextRowid p pl rid now).filepath = p' := Ne.symm hp
      rw [if_neg hp', if_neg hp, Option.or_none]
      rfl
  | some r =>
    cases hr : r.inflight
    · simp only [Option.any_some, hr, Bool.false_eq_true, if_false, Option.isSome_some, if_true]
      rw [get_modify (replaced pl rid now) fun _ => rfl, hg]
      rfl
    · simp only [Option.any_some, hr, if_true]
      rw [get_modify (parked pl now) fun _ => rfl, hg]
      rfl

theorem get_setRemoteId {rid : Option String} :
    (q.setRemoteId p rid).get p' =
      if p' = p then (q.get p).map fun r => { r with remoteId := rid } else q.get p' :=
  get_modify _ fun _ => rfl

theorem get_finalizeFailure {error : String} {now bo : ℤ} :
    (q.finalizeFailure p error now bo).get p' =
      if p' = p then (q.get p).map (failed error now bo) else q.get p' :=
  get_modify _ fun _ => rfl

theorem get_poison {status : ℕ} {reason : String} {now : ℤ} :
    (q.poison p status reason now).get p' =
      if p' = p then (q.get p).map (rejected status reason now) else q.get p' :=
  get_modify _ fun _ => rfl

theorem get_finalizeSuccess {now : ℤ} :
    (q.finalizeSuccess p now).get p' =
      if p' = p then (q.get p).bind fun r => r.pending.map fun pl => promoted pl now r
      else q.get p' := by
  unfold finalizeSuccess
  cases hg : q.get p with
  | none => simp only [Option.bind_none, get_drop]
  | some r =>
    cases hp : r.pending with
    | none => simp [hp, get_drop]
    | some pl =>
      simp only [Option.bind_some, hp, Option.map_some]
      rw [get_modify (promoted pl now) fun _ => rfl, hg]
      rfl

/-- A retarget moves the row of `oldFp` over whatever stood at `newFp`. -/
theorem retarget_moved {oldFp newFp : String} {rebind : Option String} {now : ℤ}
    (hne : oldFp ≠ newFp) {r : PushRow} (hr : q.get oldFp = some r) (he : retargetable r = true) :
    (q.retargetPendingCreate oldFp newFp rebind now).2 = true ∧
    ∀ p', (q.retargetPendingCreate oldFp newFp rebind now).1.get p' =
      if p' = newFp then some (retargeted r newFp rebind now)
      else if p' = oldFp then none else q.get p' := by
  have h1 : (q.drop newFp).get oldFp = some r := by rw [get_drop, if_neg hne, hr]
  unfold retargetPendingCreate
  simp only [hr, Option.any_some, he, if_true, h1, Option.isSome_some, true_and]
  intro p'
  refine (Table.get_rekey (q.drop newFp).rows oldFp newFp p' _ (fun _ _ => rfl) hne ?_).trans ?_
  · exact get_drop_self
  · rw [show Table.get PushRow.filepath (q.drop newFp).rows oldFp = some r from h1]
    by_cases hp : p' = newFp
    · simp [hp, retargeted]
    · by_cases hp2 : p' = oldFp
      · subst hp2; simp [hne]
      · simp only [hp, hp2, if_false]
        exact get_drop.trans (if_neg hp)

theorem retarget_unmoved {oldFp newFp : String} {rebind : Option String} {now : ℤ}
    (h : ∀ r, q.get oldFp = some r → retargetable r = false) :
    q.retargetPendingCreate oldFp newFp rebind now = (q, false) := by
  unfold retargetPendingCreate
  rw [if_neg]
  cases hg : q.get oldFp with
  | none => simp
  | some r => simp [h r hg]

/-! ### Claims -/

/-- What `push_queue_claim_next` returns: a claimable row of the smallest
`updated_at`, now held. -/
theorem claimNext_spec {now : ℤ} {j : PushJob} {q' : PushQueue} (h : q.claimNext now = some (j, q')) :
    ∃ r ∈ q.rows, claimable now r = true ∧ j = jobOf r ∧
      (∀ x ∈ q.rows, claimable now x = true → r.updatedAt ≤ x.updatedAt) ∧
      q' = q.modify r.filepath (held now) := by
  unfold claimNext nextRow at h
  obtain ⟨r, hr, he⟩ := Option.map_eq_some_iff.mp h
  have hm := List.mem_filter.mp (List.minOn?_mem hr)
  simp only [Prod.mk.injEq] at he
  refine ⟨r, hm.1, hm.2, he.1.symm, fun x hx hc => ?_, he.2.symm⟩
  have hmem := List.mem_filter.mpr ⟨hx, hc⟩
  simpa [hr] using List.apply_get_minOn?_le_of_mem (f := PushRow.updatedAt) hmem

theorem claimNext_none {now : ℤ} (h : q.claimNext now = none) :
    ∀ r ∈ q.rows, claimable now r = false := by
  unfold claimNext nextRow at h
  rw [Option.map_eq_none_iff] at h
  intro r hr
  by_contra hc
  have hm : r ∈ q.rows.filter (claimable now) := List.mem_filter.mpr ⟨hr, by simpa using hc⟩
  have hs := List.isSome_minOn?_of_mem (f := PushRow.updatedAt) hm
  rw [h] at hs
  cases hs

theorem claimable_iff {now : ℤ} {r : PushRow} :
    claimable now r = true ↔ r.inflight = false ∧ r.poisoned = false ∧ r.updatedAt ≤ now := by
  simp only [claimable, Bool.and_eq_true, Bool.not_eq_true', decide_eq_true_eq, and_assoc]

theorem get_claimed {now : ℤ} {r : PushRow} (h : q.get r.filepath = some r) :
    (q.modify r.filepath (held now)).get p' =
      if p' = r.filepath then some (held now r) else q.get p' := by
  rw [get_modify (held now) fun _ => rfl, h]
  rfl

/-! ### The table's keys -/

/-- One row a filepath, one row a rowid. -/
structure WF (q : PushQueue) : Prop where
  keys : (q.rows.map PushRow.filepath).Nodup
  ids : (q.rows.map PushRow.rowid).Nodup
  fresh : ∀ r ∈ q.rows, r.rowid < q.nextRowid

theorem empty_wf : empty.WF := ⟨List.nodup_nil, List.nodup_nil, fun _ h => by cases h⟩

theorem WF.get_mem (hq : q.WF) {r : PushRow} (h : r ∈ q.rows) : q.get r.filepath = some r :=
  Table.get_of_mem hq.keys h

/-- Rows of different filepaths have different rowids. -/
theorem WF.rowid_inj (hq : q.WF) {r r' : PushRow} (h : r ∈ q.rows) (h' : r' ∈ q.rows)
    (he : r.rowid = r'.rowid) : r = r' :=
  List.inj_on_of_nodup_map hq.ids h h' he

theorem WF.modify (hq : q.WF) (p : String) {f : PushRow → PushRow}
    (hf : ∀ r, (f r).filepath = r.filepath) (hi : ∀ r, (f r).rowid = r.rowid) : (q.modify p f).WF where
  keys := by
    show ((Table.modify _ _ _ _).map _).Nodup
    rw [Table.map_modify _ _ _ _ fun r _ => hf r]; exact hq.keys
  ids := by
    show ((Table.modify _ _ _ _).map _).Nodup
    rw [Table.map_modify _ _ _ _ fun r _ => hi r]; exact hq.ids
  fresh := fun r hr => by
    obtain ⟨x, hx, rfl⟩ := Table.mem_modify.mp hr
    have := hq.fresh x hx
    show _ < q.nextRowid
    split_ifs
    · rwa [hi]
    · exact this

theorem WF.drop (hq : q.WF) (p : String) : (q.drop p).WF where
  keys := hq.keys.sublist ((Table.erase_sublist _ _).map _)
  ids := hq.ids.sublist ((Table.erase_sublist _ _).map _)
  fresh := fun r hr => hq.fresh r (Table.mem_erase.mp hr).1

theorem WF.upsert (hq : q.WF) (p : String) (pl : Payload) (rid : Option String) (now : ℤ) :
    (q.upsert p pl rid now).WF := by
  unfold PushQueue.upsert
  split_ifs with h1 h2 h3
  · exact hq
  · exact hq.modify p (fun _ => rfl) fun _ => rfl
  · exact hq.modify p (fun _ => rfl) fun _ => rfl
  · have hnone : ∀ r ∈ q.rows, r.filepath ≠ p :=
      Table.get_none.mp (by simpa [PushQueue.get] using h3)
    refine ⟨?_, ?_, fun r hr => ?_⟩
    · simpa [List.nodup_append, hq.keys, newRow] using hnone
    · simpa [List.nodup_append, hq.ids, newRow] using fun r hr => (hq.fresh r hr).ne
    · rcases List.mem_append.mp hr with hr | hr
      · exact Nat.lt_succ_of_lt (hq.fresh r hr)
      · obtain rfl := List.mem_singleton.mp hr
        exact Nat.lt_succ_self _

theorem WF.retarget (hq : q.WF) (oldFp newFp : String) (rebind : Option String) (now : ℤ) :
    (q.retargetPendingCreate oldFp newFp rebind now).1.WF := by
  unfold retargetPendingCreate
  split_ifs
  · have hd := hq.drop newFp
    have hnew : ∀ r ∈ (q.drop newFp).rows, r.filepath ≠ newFp :=
      Table.get_none.mp get_drop_self
    have hids : ((Table.modify PushRow.filepath (q.drop newFp).rows oldFp
        fun r => retargeted r newFp rebind now).map PushRow.rowid).Nodup := by
      rw [Table.map_modify]
      · exact hd.ids
      · exact fun _ _ => rfl
    refine ⟨?_, ?_, fun r hr => ?_⟩
    · -- only the row of `oldFp` gets `newFp`, and there is one such row
      refine List.Nodup.map_on (fun a ha b hb he => ?_) ?_
      · obtain ⟨x, hx, rfl⟩ := Table.mem_modify.mp ha
        obtain ⟨y, hy, rfl⟩ := Table.mem_modify.mp hb
        have hxy : x.filepath = y.filepath → x = y := fun h => List.inj_on_of_nodup_map hd.keys hx hy h
        by_cases hx' : x.filepath = oldFp <;> by_cases hy' : y.filepath = oldFp
        · rw [hxy (hx'.trans hy'.symm)]
        · simp only [hx', hy', if_true, if_false] at he
          exact absurd he.symm (hnew y hy)
        · simp only [hx', hy', if_true, if_false] at he
          exact absurd he (hnew x hx)
        · simp only [hx', hy', if_false] at he ⊢
          exact hxy he
      · exact List.Nodup.of_map PushRow.rowid hids
    · exact hids
    · obtain ⟨x, hx, rfl⟩ := Table.mem_modify.mp hr
      have := hd.fresh x hx
      show _ < q.nextRowid
      split_ifs <;> exact this
  · exact hq.drop newFp
  · exact hq

theorem WF.claimNext (hq : q.WF) {now : ℤ} {j : PushJob} {q' : PushQueue}
    (h : q.claimNext now = some (j, q')) : q'.WF := by
  obtain ⟨r, -, -, -, -, rfl⟩ := claimNext_spec h
  exact hq.modify _ (fun _ => rfl) fun _ => rfl

theorem WF.setRemoteId (hq : q.WF) (p : String) (rid : Option String) : (q.setRemoteId p rid).WF :=
  hq.modify p (fun _ => rfl) fun _ => rfl

theorem WF.finalizeFailure (hq : q.WF) (p error : String) (now bo : ℤ) :
    (q.finalizeFailure p error now bo).WF :=
  hq.modify p (fun _ => rfl) fun _ => rfl

theorem WF.poison (hq : q.WF) (p : String) (status : ℕ) (reason : String) (now : ℤ) :
    (q.poison p status reason now).WF :=
  hq.modify p (fun _ => rfl) fun _ => rfl

theorem WF.finalizeSuccess (hq : q.WF) (p : String) (now : ℤ) : (q.finalizeSuccess p now).WF := by
  unfold PushQueue.finalizeSuccess
  split
  · exact hq.modify p (fun _ => rfl) fun _ => rfl
  · exact hq.drop p

/-! ### The calls of the mount's other parts -/

/-- The calls that the file operations and the pull side make. -/
inductive ClientStep : PushQueue → PushQueue → Prop
  | upsert (q : PushQueue) (p : String) (pl : Payload) (rid : Option String) (now : ℤ) :
      ClientStep q (q.upsert p pl rid now)
  | retarget (q : PushQueue) (oldFp newFp : String) (rebind : Option String) (now : ℤ) :
      ClientStep q (q.retargetPendingCreate oldFp newFp rebind now).1
  | setRemoteId (q : PushQueue) (p : String) (rid : Option String) : ClientStep q (q.setRemoteId p rid)

/-- Any number of them. -/
abbrev ClientCalls : PushQueue → PushQueue → Prop := Relation.ReflTransGen ClientStep

theorem ClientStep.wf {q q' : PushQueue} (h : ClientStep q q') (hq : q.WF) : q'.WF := by
  cases h with
  | upsert p pl rid now => exact hq.upsert p pl rid now
  | retarget o n rb now => exact hq.retarget o n rb now
  | setRemoteId p rid => exact hq.setRemoteId p rid

theorem ClientCalls.wf {q q' : PushQueue} (h : ClientCalls q q') (hq : q.WF) : q'.WF := by
  induction h with
  | refl => exact hq
  | tail _ h ih => exact h.wf ih

theorem inflight_upsert {pl : Payload} {rid : Option String} {now : ℤ}
    (h : (q.upsert p pl rid now).inflight p' = true) : q.inflight p' = true := by
  cases hn : isMacosNoisePath p
  · obtain ⟨r, hr, hi⟩ := inflight_eq_true.mp h
    rw [get_upsert hn] at hr
    split_ifs at hr with hp
    · cases hr
      subst hp
      cases hg : q.get p' with
      | none => rw [upserted_none hg] at hi; cases hi
      | some r =>
        refine inflight_eq_true.mpr ⟨r, hg, ?_⟩
        by_contra hr
        have hr : r.inflight = false := by simpa using hr
        rw [upserted_idle hg hr] at hi
        exact absurd (hr.symm.trans hi) (by decide)
    · exact inflight_eq_true.mpr ⟨r, hr, hi⟩
  · rwa [upsert_noise hn] at h

theorem inflight_retarget {oldFp newFp : String} {rebind : Option String} {now : ℤ}
    (h : (q.retargetPendingCreate oldFp newFp rebind now).1.inflight p' = true) : q.inflight p' = true := by
  by_cases he : (q.get oldFp).any retargetable = true
  · obtain ⟨r, hr, hre⟩ := (Option.any_eq_true _ _).mp he
    have hidle : r.inflight = false := by
      simp only [retargetable, Bool.and_eq_true, Bool.not_eq_true'] at hre
      exact hre.1.2
    obtain ⟨x, hx, hi⟩ := inflight_eq_true.mp h
    by_cases hne : oldFp = newFp
    · subst hne
      have hd : (q.retargetPendingCreate oldFp oldFp rebind now).1 = q.drop oldFp := by
        simp [retargetPendingCreate, he, get_drop_self]
      rw [hd, get_drop] at hx
      split_ifs at hx
      exact inflight_eq_true.mpr ⟨x, hx, hi⟩
    · rw [(retarget_moved hne hr hre).2] at hx
      split_ifs at hx
      · cases hx
        have : r.inflight = true := hi
        rw [hidle] at this
        cases this
      · exact inflight_eq_true.mpr ⟨x, hx, hi⟩
  · rwa [retarget_unmoved fun r hr => ?_] at h
    simpa [hr] using he

theorem inflight_setRemoteId {rid : Option String} : (q.setRemoteId p rid).inflight p' = q.inflight p' := by
  unfold inflight
  rw [get_setRemoteId]
  split_ifs with h
  · subst h
    cases q.get p' <;> rfl
  · rfl

/-- None of them makes a row look held. -/
theorem ClientStep.inflight {q q' : PushQueue} (h : ClientStep q q') (hi : q'.inflight p = true) :
    q.inflight p = true := by
  cases h with
  | upsert p pl rid now => exact inflight_upsert hi
  | retarget o n rb now => exact inflight_retarget hi
  | setRemoteId p rid => rwa [inflight_setRemoteId] at hi

theorem ClientCalls.inflight {q q' : PushQueue} (h : ClientCalls q q') (hi : q'.inflight p = true) :
    q.inflight p = true := by
  induction h with
  | refl => exact hi
  | tail _ h ih => exact ih (h.inflight hi)

end PushQueue
end Smfs
