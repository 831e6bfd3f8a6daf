/-
# The deletion scan

`deletion_scan` (`sync/scan.rs`) collects the ids of the server's documents
page by page, then reads the ids of `fs_remote`, and removes the file of each
one it has not collected. A phase is what the scan does next; between two
phases anything else may happen.

Key definitions: `Scan.Phase`, `Scan.gotPage`, `Scan.removeNext`.
-/
import Smfs.Reconcile

namespace Smfs

/-- `SELECT remote_id FROM fs_remote`. -/
def Db.remoteIds (db : Db) : List String := db.remotes.map Remote.remoteId

namespace Scan

/-- `PAGE_SIZE`. -/
def PAGE_SIZE : ℕ := 100

inductive Phase
  | idle
  /-- It is to request a page. -/
  | listing (page : ℕ) (remoteIds : List String)
  /-- It has all pages and is to read `fs_remote`. -/
  | mapping (remoteIds : List String)
  /-- It is to go over the ids it read. -/
  | removing (remoteIds localIds : List String) (removed : ℕ)
  deriving DecidableEq

/-- The start of a scan. -/
def begin : Phase := .listing 1 []

/-- A page has come, with the number of pages. -/
def gotPage (page : ℕ) (remoteIds ids : List String) (totalPages : ℕ) : Phase :=
  if ids = [] then .mapping remoteIds
  else if totalPages ≤ page then .mapping (remoteIds ++ ids)
  else .listing (page + 1) (remoteIds ++ ids)

/-- What happens to a local id. -/
def removeNext (db : Db) (remoteIds : List String) (id : String) : Bool × Db :=
  if id ∈ remoteIds then (false, db) else Fs.applyDeletion db id

theorem applyDeletion_remoteIds {db : Db} {rid : String} :
    (Fs.applyDeletion db rid).2.remoteIds ⊆ db.remoteIds := by
  unfold Fs.applyDeletion
  split
  · exact List.Subset.refl _
  · split_ifs
    · exact List.Subset.refl _
    · split
      · exact List.Subset.refl _
      · exact List.map_subset _ (Table.erase_sublist _ _).subset

theorem removeNext_remoteIds {db : Db} {remoteIds : List String} {id : String} :
    (removeNext db remoteIds id).2.remoteIds ⊆ db.remoteIds := by
  unfold removeNext
  split_ifs
  · exact List.Subset.refl _
  · exact applyDeletion_remoteIds

end Scan
end Smfs
