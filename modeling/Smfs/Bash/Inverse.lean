/-
# When the two maps of the path index are inverse

`files` gives a path its document and `byDocId` a document its path. `insert`
clears the old document's path, but not the path that the new document had
before: after a remote rename the old path still resolves to the document that
`findPath` places elsewhere, and a `remove` of the old path then takes the new
one out of `byDocId`. It also keeps the entry of an old document with an empty
id, which is falsy. These are the only two ways: a run keeps the maps inverse
throughout exactly if none of its steps takes one of them (`inverse_iff`).

Key definitions: `Change`, `Inverse`, `Fresh`.
Key theorems: `inverse_change`, `inverse_iff`.
-/
import Smfs.Lib.Reach
import Smfs.Bash.Index

namespace Smfs.Bash.PathIndex

/-- The updates of the two maps. -/
inductive Change
  | insert (path docId : String)
  | remove (path : String)
  deriving DecidableEq, Repr

def change (ix : PathIndex) : Change → PathIndex
  | .insert path docId => ix.insert path docId
  | .remove path => ix.remove path

/-- The two maps are inverse. -/
def Inverse (ix : PathIndex) : Prop := ∀ path docId, ix.findPath docId = some path ↔ ix.resolve path = some docId

/-- No other path has the document, and the entry of the path's old document
is one that `insert` clears. -/
def Fresh (ix : PathIndex) : Change → Prop
  | .insert path docId => (∀ p, ix.resolve p = some docId → p = path) ∧ (ix.resolve path = some "" → docId = "")
  | .remove _ => True

variable {ix : PathIndex} {p q id other : String}

theorem findPath_insert : (ix.insert p id).findPath other =
    if other = id then some p
    else if ix.resolve p = some other ∧ other ≠ "" then none else ix.findPath other := by
  unfold findPath insert
  dsimp only
  rw [Table.get_set]
  by_cases hid : other = id
  · rw [if_pos hid, if_pos hid]
    rfl
  · rw [if_neg hid, if_neg hid]
    rcases hr : ix.resolve p with _ | old
    · simp [truthy]
    · by_cases hold : old = ""
      · subst hold
        have hne : ¬ (some "" = some other ∧ other ≠ "") := fun h => h.2 (Option.some.inj h.1).symm
        have hfalsy : truthy (some "") = none := by decide
        rw [if_neg hne, hfalsy]
      · rw [truthy_some.mpr hold]
        dsimp only
        by_cases hsame : old = id
        · have hne : ¬ (some old = some other ∧ other ≠ "") := fun h => hid (by rw [← hsame, Option.some.inj h.1])
          rw [if_neg (not_not_intro hsame), if_neg hne]
        · rw [if_pos hsame, Table.get_erase]
          by_cases ho : other = old
          · rw [if_pos ho, if_pos ⟨by rw [ho], ho ▸ hold⟩]
            rfl
          · rw [if_neg ho, if_neg fun h => ho (Option.some.inj h.1).symm]

theorem findPath_remove : (ix.remove p).findPath other = if ix.resolve p = some other then none else ix.findPath other := by
  unfold findPath remove
  rcases hr : ix.resolve p with _ | old
  · simp
  · dsimp only
    rw [Table.get_erase]
    by_cases ho : other = old
    · rw [if_pos ho, if_pos (by rw [ho])]
      rfl
    · rw [if_neg ho, if_neg fun h => ho (Option.some.inj h).symm]

theorem inverse_remove (h : Inverse ix) : Inverse (ix.remove p) := by
  intro path docId
  rw [findPath_remove, resolve_remove]
  by_cases hdoc : ix.resolve p = some docId
  · rw [if_pos hdoc]
    have hone : ix.resolve path = some docId → path = p := fun hp =>
      Option.some.inj (((h path docId).mpr hp).symm.trans ((h p docId).mpr hdoc))
    simp only [reduceCtorEq, false_iff]
    split_ifs with hpath
    · simp
    · exact fun hp => hpath (hone hp)
  · rw [if_neg hdoc, h path docId]
    split_ifs with hpath
    · simp [hpath, hdoc]
    · rfl

theorem inverse_insert (h : Inverse ix) (hone : ∀ p', ix.resolve p' = some id → p' = p)
    (hfalsy : ix.resolve p = some "" → id = "") : Inverse (ix.insert p id) := by
  intro path docId
  rw [findPath_insert, resolve_insert]
  by_cases hid : docId = id
  · subst hid
    rw [if_pos rfl]
    split_ifs with hpath
    · simp [hpath]
    · constructor
      · exact fun he => absurd (Option.some.inj he).symm hpath
      · exact fun hr => absurd (hone path hr) hpath
  · rw [if_neg hid]
    by_cases hpath : path = p
    · subst hpath
      rw [if_pos rfl]
      have hno : some id ≠ some docId := fun he => hid (Option.some.inj he).symm
      refine ⟨fun hf => ?_, fun he => absurd he hno⟩
      -- the entry of the path's old document is the one that is cleared
      split_ifs at hf with hold
      have hr := (h path docId).mp hf
      have hempty : docId = "" := by_contra fun hne => hold ⟨hr, hne⟩
      exact absurd (hempty.trans (hfalsy (hempty ▸ hr)).symm) hid
    · rw [if_neg hpath]
      by_cases hold : ix.resolve p = some docId ∧ docId ≠ ""
      · rw [if_pos hold]
        simp only [reduceCtorEq, false_iff]
        intro hr
        exact hpath (Option.some.inj (((h path docId).mpr hr).symm.trans ((h p docId).mpr hold.1)))
      · rw [if_neg hold]
        exact h path docId

/-- Of one step: the maps stay inverse exactly if it takes neither way. -/
theorem inverse_change (ix : PathIndex) (c : Change) (h : Inverse ix) : Inverse (ix.change c) ↔ Fresh ix c := by
  cases c with
  | remove p => exact ⟨fun _ => trivial, fun _ => inverse_remove h⟩
  | insert p id =>
    refine ⟨fun hinv => ⟨fun p' hr => ?_, fun hr => ?_⟩, fun hf => inverse_insert h hf.1 hf.2⟩
    · by_contra hne
      have hold : (ix.insert p id).resolve p' = some id := by rw [resolve_insert, if_neg hne, hr]
      have hfind := (hinv p' id).mpr hold
      rw [change, findPath_insert, if_pos rfl] at hfind
      exact hne (Option.some.inj hfind).symm
    · by_contra hne
      have hfind : (ix.insert p id).findPath "" = some p := by
        rw [findPath_insert, if_neg (Ne.symm hne), if_neg fun hc => hc.2 rfl]
        exact (h p "").mpr hr
      have hres := (hinv p "").mp hfind
      rw [change, resolve_insert, if_pos rfl] at hres
      exact hne (Option.some.inj hres)

theorem inverse_new : Inverse new := fun _ _ => ⟨fun h => (nomatch h), fun h => (nomatch h)⟩

/-- **When the maps are inverse.** In every run from the empty index, all
states have inverse maps exactly if no step gives a document a path while
another path has it, or a path with a document of empty id another one. -/
theorem inverse_iff (changes : List Change) :
    (∀ before, before <+: changes → Inverse (before.foldl change new)) ↔
      ∀ before c, before ++ [c] <+: changes → Fresh (before.foldl change new) c :=
  Trans.invariant_iff inverse_change changes inverse_new

/-- A remote rename: both paths resolve to the document, and after the old
one is removed the document has no path. -/
theorem renamed_remotely :
    let renamed := [Change.insert "/a.md" "x", .insert "/b.md" "x"].foldl change new
    renamed.resolve "/a.md" = some "x" ∧ renamed.findPath "x" = some "/b.md" ∧
      (renamed.change (.remove "/a.md")).resolve "/b.md" = some "x" ∧
      (renamed.change (.remove "/a.md")).findPath "x" = none ∧
      ¬ Inverse renamed ∧ ¬ Inverse (renamed.change (.remove "/a.md")) := by
  have h₁ : (([Change.insert "/a.md" "x", .insert "/b.md" "x"].foldl change new).resolve "/a.md") = some "x" := by decide
  have h₂ : (([Change.insert "/a.md" "x", .insert "/b.md" "x"].foldl change new).findPath "x") = some "/b.md" := by decide
  have h₃ : (([Change.insert "/a.md" "x", .insert "/b.md" "x", .remove "/a.md"].foldl change new).resolve "/b.md") =
      some "x" := by decide
  have h₄ : (([Change.insert "/a.md" "x", .insert "/b.md" "x", .remove "/a.md"].foldl change new).findPath "x") =
      none := by decide
  refine ⟨h₁, h₂, h₃, h₄, fun h => ?_, fun h => ?_⟩
  · have := (h "/a.md" "x").mpr h₁
    rw [h₂] at this
    exact absurd this (by decide)
  · have := (h "/b.md" "x").mpr h₃
    exact absurd (h₄.symm.trans this) (by simp)

end Smfs.Bash.PathIndex
