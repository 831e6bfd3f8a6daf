/-
# The routes by which entries come

Besides the operations of the file system and a reconcile two more routes make
entries: `import_file` brings a file of the host under a path, and the push
worker and a pull put derived siblings next to a file. `import_file` is
`ensure_dirs`, `create_file`, `write` and `flush` one after the other, so it
keeps what these keep (`importFile_keeps`).

Key definitions: `Fs.importFile`, `Cache.Route`, `Cache.routeStep`.
Key theorems: `Cache.importFile_keeps`, `Cache.routeStep_wf`.
-/
import Smfs.Names.Mapped

namespace Smfs

/-- What `import_file` fails with. -/
inductive ImportError
  | path (msg : String)
  | vfs (e : VfsError)
  deriving DecidableEq, Repr

namespace Fs

/-- `import_file`; `false` for a path that is taken. -/
def importFile (db : Db) (online : Bool) (filepath : String) (contents : Bytes) (nowMs : ℤ) :
    Except ImportError Bool × Db :=
  if filepath.toList.contains '/' = false then (.error (.path "filepath must contain '/'"), db)
  else if (splitPath filepath).2.isEmpty then (.error (.path "filepath must not end with '/'"), db)
  else
    let dirs := ensureDirs db (splitPath filepath).1
    match createFile dirs.1 online dirs.2 (splitPath filepath).2 with
    | (.error .alreadyExists, db) => (.ok false, db)
    | (.error e, db) => (.error (.vfs e), db)
    | (.ok f, db) =>
      if contents.isEmpty then (.ok true, f.flush db nowMs)
      else
        match f.write db 0 contents nowMs with
        | (.error e, db) => (.error (.vfs e), db)
        | (.ok _, db) => (.ok true, f.flush db nowMs)

end Fs

namespace Cache

open Db Fs

/-- A call of the file system or of a pull, an import, or a derived sibling. -/
inductive Route
  | call (c : Call)
  | importFile (filepath : String) (contents : Bytes)
  | sibling (filepath : String) (content : Bytes)
  deriving DecidableEq

def Route.apply (db : Db) (online : Bool) (nowMs : ℤ) : Route → Db
  | .call c => c.apply db online nowMs
  | .importFile filepath contents => (Fs.importFile db online filepath contents nowMs).2
  | .sibling filepath content => (createDerivedSibling db filepath content).2

/-- A call at a time. -/
def routeStep (online : Bool) (db : Db) (a : ℤ × Route) : Option Db := some (a.2.apply db online a.1)

/-- A path that has a directory and a name, as `import_file` and `create_derived_sibling` ask for. -/
def HasName (filepath : String) : Prop := filepath.toList.contains '/' = true ∧ (splitPath filepath).2.isEmpty = false

instance (filepath : String) : Decidable (HasName filepath) := inferInstanceAs (Decidable (_ ∧ _))

section Lemmas

variable {I : Db → Prop} {db : Db} {online : Bool} {filepath : String} {contents : Bytes} {nowMs : ℤ}

/-- A sibling of a path without a name is refused. -/
theorem createDerivedSibling_refused (h : ¬ HasName filepath) : (createDerivedSibling db filepath contents).2 = db := by
  unfold createDerivedSibling
  by_cases hslash : filepath.toList.contains '/' = false
  · rw [if_pos hslash]
  · rw [if_neg hslash]
    by_cases hempty : (splitPath filepath).2.isEmpty = true
    · rw [if_pos hempty]
    · exact absurd ⟨by simpa using hslash, by simpa using hempty⟩ h

/-- What the calls of an import keep, the import keeps. -/
theorem importFile_keeps (h : I db) (hdirs : HasName filepath → I (ensureDirs db (splitPath filepath).1).1)
    (hcreate : HasName filepath → I (ensureDirs db (splitPath filepath).1).1 →
      I (createFile (ensureDirs db (splitPath filepath).1).1 online (ensureDirs db (splitPath filepath).1).2
        (splitPath filepath).2).2)
    (hwrite : ∀ d (f : SqliteFile), I d → I (f.write d 0 contents nowMs).2)
    (hflush : ∀ d (f : SqliteFile), I d → I (f.flush d nowMs)) :
    I (importFile db online filepath contents nowMs).2 := by
  unfold importFile
  by_cases hslash : filepath.toList.contains '/' = false
  · rw [if_pos hslash]
    exact h
  rw [if_neg hslash]
  by_cases hempty : (splitPath filepath).2.isEmpty = true
  · rw [if_pos hempty]
    exact h
  · rw [if_neg hempty]
    have hname : HasName filepath := ⟨by simpa using hslash, by simpa using hempty⟩
    have hmade := hcreate hname (hdirs hname)
    dsimp only
    generalize createFile (ensureDirs db (splitPath filepath).1).1 online (ensureDirs db (splitPath filepath).1).2
      (splitPath filepath).2 = made at hmade ⊢
    obtain ⟨res, d⟩ := made
    cases res with
    | error e => cases e <;> exact hmade
    | ok f =>
      dsimp only
      by_cases hc : contents.isEmpty = true
      · rw [if_pos hc]
        exact hflush d f hmade
      · rw [if_neg hc]
        have hwritten := hwrite d f hmade
        generalize f.write d 0 contents nowMs = written at hwritten ⊢
        obtain ⟨res, d'⟩ := written
        cases res with
        | error e => exact hwritten
        | ok n => exact hflush d' f hwritten

theorem createDerivedSibling_wf (h : WellFormed db) : WellFormed (createDerivedSibling db filepath contents).2 := by
  obtain ⟨parts, hparts⟩ : ∃ parts, components (splitPath filepath).1 = parts := ⟨_, rfl⟩
  exact Edits.wf h (createDerivedSibling_edits contents h hparts .any (fun _ _ => trivial) trivial).1

/-- Whichever way an entry comes, the tables stay well formed. -/
theorem routeStep_wf {t : Db} {a : ℤ × Route} (h : WellFormed db) (hst : routeStep online db a = some t) :
    WellFormed t := by
  obtain ⟨nowMs, route⟩ := a
  cases hst
  cases route with
  | call c =>
    cases c with
    | tree op =>
      have hst : step online db (nowMs, op) = some (op.apply db online nowMs) := rfl
      exact step_wf h hst
    | write f offset data => exact (write_sameTree h.bounded).wf h
    | truncate f size => exact truncate_sameTree.wf h
    | flush f => exact flush_sameTree.wf h
    | setattr i size => exact setattr_sameTree.wf h
  | importFile filepath contents =>
    exact importFile_keeps h (fun _ => ensureDirs_wf h) (fun _ hmade => name_wf hmade online 0 (.createFile _ _))
      (fun d f hd => (write_sameTree hd.bounded).wf hd) fun d f hd => flush_sameTree.wf hd
  | sibling filepath content => exact createDerivedSibling_wf h

theorem reachable_wf (h : Trans.Reach (routeStep online) Trans.anyStep .fresh db) : WellFormed db :=
  h.inv .start fun _ _ _ hI _ hst => routeStep_wf hI hst

end Lemmas

end Cache
end Smfs
