/-
# The pull loops

`delta_pull` and `full_pull` (`sync/pull.rs`) list the server's documents by
descending `updatedAt` and hand each to `reconcile_one`. A delta pull stops
at the first document that is not newer than the stored watermark; both store
the newest `updatedAt` they have come across. A full pull is one without a
watermark. A phase is what the pull does next.

Key definitions: `Pull.Phase`, `Pull.reconcileNext`, `Pull.store`.
-/
import Smfs.Reconcile
import Mathlib.Data.String.Basic

namespace Smfs
namespace Pull

/-- `PAGE_SIZE`. -/
def PAGE_SIZE : ℕ := 100

/-- `SYNC_META_LAST_SEEN`. -/
def SYNC_META_LAST_SEEN : String := "last_seen_updated_at"

/-- The stored watermark. -/
def lastSeen (db : Db) : Option String := db.syncMetaGet SYNC_META_LAST_SEEN

/-- The variables of a pull. -/
structure Vars where
  lastSeen : String
  newestSeen : String
  reconciled : ℕ
  deriving DecidableEq

inductive Phase
  | idle
  /-- It is to request a page. -/
  | listing (v : Vars) (page : ℕ)
  /-- It is to go over the documents of a page. -/
  | docs (v : Vars) (page totalPages : ℕ) (rest : List Document)
  /-- It has made the stub of a raw file and is to fetch its bytes. -/
  | rehydrating (v : Vars) (page totalPages : ℕ) (doc : Document) (rest : List Document)
  /-- It is to store the watermark. -/
  | storing (v : Vars)
  deriving DecidableEq

/-- The start of `delta_pull`. -/
def deltaPull (db : Db) : Phase :=
  let lastSeen := (lastSeen db).getD ""
  .listing ⟨lastSeen, lastSeen, 0⟩ 1

/-- The start of `full_pull`. -/
def fullPull : Phase := .listing ⟨"", "", 0⟩ 1

/-- A page has come, with the number of pages. -/
def gotPage (v : Vars) (page : ℕ) (memories : List Document) (totalPages : ℕ) : Phase :=
  if memories = [] then .storing v else .docs v page totalPages memories

/-- A page is done. -/
def nextPage (v : Vars) (page totalPages : ℕ) : Phase :=
  if totalPages ≤ page then .storing v else .listing v (page + 1)

/-- The document is not newer than the watermark. -/
def hitsWatermark (v : Vars) (doc : Document) : Bool := v.lastSeen ≠ "" && doc.updatedAt ≤ v.lastSeen

/-- The variables once a document is reconciled. -/
def Vars.counted (v : Vars) (doc : Document) : Vars :=
  { v with newestSeen := if v.newestSeen < doc.updatedAt then doc.updatedAt else v.newestSeen,
           reconciled := v.reconciled + 1 }

/-- The next document of a page: what becomes of the pull and the database,
whatever `reconcile_one` answered. -/
def reconcileNext (v : Vars) (page totalPages : ℕ) (doc : Document) (rest : List Document) (db : Db)
    (nowMs : ℤ) : Phase × Db :=
  if hitsWatermark v doc then (.storing v, db)
  else
    let r := Fs.reconcileOne db doc nowMs
    match r.1 with
    | .ok .needsRehydrate => (.rehydrating v page totalPages doc rest, r.2)
    | _ => (.docs (v.counted doc) page totalPages rest, r.2)

/-- `rehydrate_if_possible`, with the bytes behind the document's address;
none where the request failed or the file is larger than the cap. -/
def rehydrateIfPossible (db : Db) (doc : Document) (fetched : Option Bytes) : Db :=
  match doc.url, db.inoByRemoteId doc.id, fetched with
  | some _, some ino, some bytes => Fs.rehydrateRawBytes db ino bytes
  | _, _, _ => db

/-- The watermark as the pull stores it. -/
def store (db : Db) (v : Vars) : Db :=
  if v.newestSeen ≠ "" ∧ v.newestSeen ≠ v.lastSeen then
    db.syncMetaSet SYNC_META_LAST_SEEN v.newestSeen
  else db

/-! ### The watermark -/

theorem lastSeen_congr {db db' : Db} (h : db'.syncMeta = db.syncMeta) : lastSeen db' = lastSeen db := by
  unfold lastSeen Db.syncMetaGet
  rw [h]

theorem lastSeen_reconcileNext {v : Vars} {page total : ℕ} {doc : Document} {rest : List Document} {db : Db}
    {now : ℤ} : lastSeen (reconcileNext v page total doc rest db now).2 = lastSeen db := by
  unfold reconcileNext
  split_ifs
  · rfl
  · have hq : Fs.QueueMapped doc db (Fs.reconcileOne db doc now).2 := Fs.reconcileOne_queue
    dsimp only
    split <;> exact lastSeen_congr hq.syncMeta

theorem lastSeen_rehydrate {db : Db} {doc : Document} {fetched : Option Bytes} :
    lastSeen (rehydrateIfPossible db doc fetched) = lastSeen db := by
  unfold rehydrateIfPossible
  split <;> exact lastSeen_congr rfl

theorem lastSeen_store {db : Db} {v : Vars} :
    lastSeen (store db v) = if v.newestSeen ≠ "" ∧ v.newestSeen ≠ v.lastSeen then some v.newestSeen
      else lastSeen db := by
  unfold store
  split_ifs with h
  · unfold lastSeen Db.syncMetaGet Db.syncMetaSet
    rw [Table.get_put, if_pos rfl]
    rfl
  · rfl

end Pull
end Smfs
