/-
# The names of entries

The operations of the file system check every name they are given. A pull does
not: the components of a document's path, its last name and what the suffixes
of siblings make of it become names as they are, and so does the new name of a
sibling that a rename takes along. Where those names pass the check (`NameOk`),
every name in the tables does.

Key definitions: `Cache.ValidName`, `Cache.NameOk`.
Key theorems: `Cache.reachable_valid`, `Cache.dotdot_stored`.
-/
import Smfs.Names.Rooted
import Smfs.Names.Routes

namespace Smfs
namespace Cache

open Db Fs Trans

def ValidName (name : String) : Prop := validateName name = .ok ()

instance (name : String) : Decidable (ValidName name) :=
  match h : validateName name with
  | .ok () => isTrue h
  | .error _ => isFalse fun hv => by rw [ValidName, h] at hv; cases hv

/-- New entries have valid names. -/
def Rule.valid : Rule := ⟨fun _ => True, ValidName, trivial⟩

/-- What the step makes names of is valid. -/
def NameOk (db : Db) (a : ℤ × Route) : Prop :=
  match a.2 with
  | .call (.tree (.name (.rename p n p' n'))) =>
    ∀ src, Renames db p n p' n' src → ∀ s k, movesSibling db p n p' n' src.ino s k → ValidName (n' ++ s)
  | .call (.tree (.ensureDirs path)) => ∀ n ∈ components path, ValidName n
  | .call (.tree (.reconcileOne doc)) =>
    (builds db doc → Calls .valid doc) ∧
      (db.inoByRemoteId doc.id = none → doc.status = "done" → (doc.isBinaryType = true → doc.url.isSome = true) →
        ValidName (fileOf doc)) ∧
      ∀ i, retargets db doc i → Movable db i doc → ValidName (fileOf doc)
  | .importFile filepath _ => HasName filepath → ∀ n ∈ components (splitPath filepath).1, ValidName n
  | .sibling filepath _ =>
    HasName filepath → (∀ n ∈ components (splitPath filepath).1, ValidName n) ∧ ValidName (splitPath filepath).2
  | _ => True

section Lemmas

variable {db db' : Db} {i p p' : Ino} {name name' : String} {nowMs : ℤ} {online : Bool}

/-- Every name in the tables is valid. -/
structure Valid (db : Db) : Prop where
  wf : WellFormed db
  names : ∀ d ∈ db.dentries, ValidName d.name

theorem Valid.start : Valid .fresh := ⟨.start, fun _ hd => (nomatch hd)⟩

/-- The names are old ones, or valid. -/
theorem Valid.change (h : Valid db) (hwf : WellFormed db')
    (hd : ∀ d ∈ db'.dentries, (∃ e ∈ db.dentries, e.name = d.name) ∨ ValidName d.name) : Valid db' := by
  refine ⟨hwf, fun d hm => ?_⟩
  rcases hd d hm with ⟨e, he, hn⟩ | hv
  · exact hn ▸ h.names e he
  · exact hv

theorem Valid.drop (h : Valid db) (hwf : WellFormed db') (hd : db'.dentries ⊆ db.dentries) : Valid db' :=
  h.change hwf fun d hm => .inl ⟨d, hd hm, rfl⟩

theorem Valid.addEntry {k : Ino} (h : Valid db) (hwf : WellFormed db') (hv : ValidName name)
    (hd : db'.dentries = db.dentries ++ [⟨name, p, k⟩]) : Valid db' := by
  refine h.change hwf fun d hm => ?_
  rw [hd] at hm
  rcases List.mem_append.mp hm with hm | hm
  · exact .inl ⟨d, hm, rfl⟩
  · rw [List.mem_singleton.mp hm]
    exact .inr hv

theorem Valid.sameTree (h : Valid db) (hs : SameTree db db') : Valid db' :=
  h.drop (hs.wf h.wf) (hs.dentries ▸ List.Subset.refl _)

theorem Valid.edit (h : Valid db) (he : Edit .valid db db') : Valid db' := by
  have hwf : WellFormed db' := h.wf.edit he
  cases he with
  | sync inodes next dentries data symlinks remotes => exact h.drop hwf (dentries ▸ List.Subset.refl _)
  | file named free under called own => exact h.addEntry hwf called rfl
  | dir named free under called => exact h.addEntry hwf called rfl
  | spare taken gone => exact h.drop hwf (List.Subset.refl _)
  | rewrite named => exact h.drop hwf (List.Subset.refl _)

theorem pathOn_valid {parts : List String} : PathOn .valid db p parts := by
  induction parts generalizing p with
  | nil => trivial
  | cons part parts ih => exact ⟨trivial, fun _ _ => ih⟩

theorem Valid.moved (h : Valid db) (hp : p < db.nextIno) (hv : ValidName name)
    (hm : Fs.moveDentries db i p name = some db') : Valid db' := by
  refine h.change (h.wf.moveDentries hp hm) fun d hd => ?_
  rcases (mem_moveDentries hm).mp hd with ⟨hd, -⟩ | ⟨rfl, -⟩
  · exact .inl ⟨d, hd, rfl⟩
  · exact .inr hv

/-! ### The calls -/

theorem ensureDirs_valid {path : String} (h : Valid db) (hok : ∀ n ∈ components path, ValidName n) :
    Valid (ensureDirs db path).1 := by
  have hedits : Edits .valid db (ensureDirs db path).1 := (ensureParts_edits h.wf (.inl rfl) pathOn_valid hok).1
  exact keeps_edits (fun _ _ hd he => hd.edit he) h hedits

theorem reconcileOne_valid {doc : Document} (h : Valid db) (hcalls : builds db doc → Calls .valid doc)
    (hfile : db.inoByRemoteId doc.id = none → doc.status = "done" → (doc.isBinaryType = true → doc.url.isSome = true) →
      ValidName (fileOf doc)) (hmove : ∀ i, retargets db doc i → Movable db i doc → ValidName (fileOf doc)) :
    Valid (reconcileOne db doc nowMs).2 := by
  refine reconcileOne_keeps (I := Valid) (fun _ hd => hd.wf) (fun _ _ hd he => hd.edit he) h (fun _ =>
    pathOn_valid) hcalls
    hfile (fun i d' hr hmade hm => ?_) (fun d j hd hs => ?_) fun j _ _ hc hmade => ?_
  · obtain ⟨he, hn, hst, -⟩ := dirsOf_edits h.wf pathOn_valid (hcalls (builds_of_retargets hr)).dirs
    exact hmade.moved (hmade.wf.named_lt hn) (hmove i hr (movable_of_moved h.wf he hst hm)) hm
  · obtain ⟨x, hx, -⟩ := Option.map_eq_some_iff.mp hs
    exact hd.drop (hd.wf.setRemoteId (hd.wf.bounded.getInode hx)) (List.Subset.refl _)
  · exact hmade.drop (hmade.wf.setRemoteId (hmade.wf.bounded.childIno hc)) (List.Subset.refl _)

theorem createFile_valid (h : Valid db) : Valid (createFile db online p name).2 := by
  have hwf : WellFormed (createFile db online p name).2 := name_wf h.wf online 0 (.createFile p name)
  rcases createFile_cases db online p name with he | ⟨hv, -, he⟩
  · rwa [he]
  · exact h.addEntry hwf hv (by rw [he]; rfl)

theorem removeDerived_valid (h : Valid db) : Valid (removeDerivedSibling db p name) := by
  have hwf : WellFormed (removeDerivedSibling db p name) := h.wf.removeDerived
  rcases removeDerived_cases db p name with he | ⟨x, -, -, he⟩
  · rwa [he]
  · refine h.drop hwf ?_
    rw [he]
    exact fun d hd => (mem_delChild.mp hd).1

theorem unlink_valid (h : Valid db) : Valid (unlink db online p name nowMs).2 := by
  rcases unlink_cases db online p name nowMs with he | ⟨x, q, hu, he⟩
  · rwa [he]
  · have hne := h.wf.ne_root (childInode_named hu.source).1
    have hstart : Valid { unlinkTables db p name x with queue := q } := by
      refine h.drop (h.wf.unlinkTables hne).queue ?_
      show (unlinkTables db p name x).dentries ⊆ db.dentries
      rw [unlinkTables_dentries]
      exact fun d hd => (mem_delChild.mp hd).1
    rw [he]
    exact cascadeUnlink_keeps (I := Valid) hstart.wf hstart fun s _ d _ hI _ _ _ => removeDerived_valid hI

theorem renameDerived_valid (h : Valid db) (hp : p' < db.nextIno) (hv : ∀ x, childInode db p name = some x →
    x.derived = true → ValidName name') : Valid (renameDerivedSibling db p name p' name') := by
  have hdel : Valid (db.delChild p' name') := h.drop (h.wf.delChild p' name') fun d hd => (mem_delChild.mp hd).1
  rcases renameDerived_cases db p name p' name' with he | ⟨x, hx, hd, he | hm⟩
  · rwa [he]
  · rwa [he]
  · exact hdel.moved hp (hv x hx hd) hm

theorem rename_valid (h : Valid db) (hok : ∀ src, Renames db p name p' name' src → ∀ s k,
    movesSibling db p name p' name' src.ino s k → ValidName (name' ++ s)) :
    Valid (rename db online p name p' name' nowMs).2 := by
  rcases rename_cases db online p name p' name' nowMs with he | ⟨src, d, hr, hd, he⟩
  · rwa [he]
  · obtain ⟨hwf, hpd, hentries, hinodes⟩ := h.wf.pushed hr hd
    have hchild (k : Ino) (m : String) : d.childIno k m = (renamedTables db p name p' name').childIno k m := by
      unfold Db.childIno Db.child
      rw [hentries]
    have hstart : Valid d := by
      refine h.change hwf fun e hm => ?_
      rw [hentries] at hm
      rcases (mem_renamed h.wf hr).mp hm with ⟨hm, -, -⟩ | rfl
      · exact .inl ⟨e, hm, rfl⟩
      · exact .inr hr.valid.2
    rw [he]
    refine (cascadeRename_keeps (I := fun e => Valid e ∧ e.nextIno = d.nextIno) hwf hpd hr.apart ⟨hstart, rfl⟩ ?_).1
    rintro s hs e hewf ⟨hI, hnext⟩ hrows hold -
    have hpe : p' < e.nextIno := hnext ▸ hpd
    refine ⟨renameDerived_valid hI hpe fun x hx hxd => ?_, (hewf.renameDerived hpe _ _).2.trans hnext⟩
    have hsort (k : Ino) : sortOf e k = sortOf (renamedTables db p name p' name') k :=
      sortOf_congr (hrows.trans hinodes)
    exact hok src hr s x.ino (movesSibling_of_round h.wf hr hs hsort (hold.trans (hchild _ _)) hx hxd)

theorem name_valid {op : NameOp} (h : Valid db) (hok : NameOk db (nowMs, .call (.tree (.name op)))) :
    Valid (op.apply db online nowMs).2 := by
  have hwf : WellFormed (op.apply db online nowMs).2 := name_wf h.wf online nowMs op
  cases op with
  | mkdir p n =>
    rcases mkdir_cases db p n with he | ⟨hv, -, he⟩
    · show Valid (mkdir db p n).2
      rwa [he]
    · exact h.addEntry hwf hv (congrArg Db.dentries he)
  | symlink p n target =>
    rcases symlink_cases db p n target with he | ⟨hv, -, he⟩
    · show Valid (symlink db p n target).2
      rwa [he]
    · exact h.addEntry hwf hv (congrArg Db.dentries he)
  | link i p n =>
    rcases link_cases db i p n with he | ⟨x, hv, -, -, -, he⟩
    · show Valid (link db i p n).2
      rwa [he]
    · exact h.addEntry hwf hv (congrArg Db.dentries he)
  | rmdir p n =>
    rcases rmdir_cases db p n with he | ⟨x, -, -, -, -, he⟩
    · show Valid (rmdir db p n).2
      rwa [he]
    · have hless : (rmdir db p n).2.dentries ⊆ db.dentries := by
        rw [he]
        exact fun d hd => (mem_delChild.mp hd).1
      exact h.drop hwf hless
  | createFile p n => exact createFile_valid h
  | unlink p n => exact unlink_valid h
  | rename p n p' n' => exact rename_valid h hok

theorem applyDeletion_valid {rid : String} (h : Valid db) : Valid (applyDeletion db rid).2 := by
  refine h.drop (applyDeletion_wf h.wf) ?_
  rcases applyDeletion_cases db rid with he | ⟨j, d, -, -, -, he⟩
  · rw [he]
    exact List.Subset.refl _
  · rw [he]
    exact fun e he => (Table.mem_erase.mp he).1

theorem sibling_valid {filepath : String} {content : Bytes} (h : Valid db) (hok : HasName filepath →
    (∀ n ∈ components (splitPath filepath).1, ValidName n) ∧ ValidName (splitPath filepath).2) :
    Valid (createDerivedSibling db filepath content).2 := by
  by_cases hname : HasName filepath
  · obtain ⟨hdirs, hfile⟩ := hok hname
    generalize hparts : components (splitPath filepath).1 = parts at hdirs
    have hedits : Edits .valid db (createDerivedSibling db filepath content).2 :=
      (createDerivedSibling_edits content h.wf hparts pathOn_valid hdirs hfile).1
    exact keeps_edits (fun _ _ hd he => hd.edit he) h hedits
  · rw [createDerivedSibling_refused hname]
    exact h

end Lemmas

/-! ### Runs -/

section Run

variable {db : Db} {online : Bool}

theorem step_valid {t : Db} {a : ℤ × Route} (h : Valid db) (hok : NameOk db a) (hst : routeStep online db a = some t) :
    Valid t := by
  obtain ⟨nowMs, route⟩ := a
  cases hst
  cases route with
  | call c =>
    cases c with
    | tree op =>
      cases op with
      | name op => exact name_valid h hok
      | ensureDirs path => exact ensureDirs_valid h hok
      | reconcileOne doc => exact reconcileOne_valid h hok.1 hok.2.1 hok.2.2
      | applyDeletion rid => exact applyDeletion_valid h
    | write f offset data => exact h.sameTree (write_sameTree h.wf.bounded)
    | truncate f size => exact h.sameTree truncate_sameTree
    | flush f => exact h.sameTree flush_sameTree
    | setattr i size => exact h.sameTree setattr_sameTree
  | importFile filepath contents =>
    exact importFile_keeps h (fun hname => ensureDirs_valid h (hok hname)) (fun _ hmade => createFile_valid hmade)
      (fun d f hd => hd.sameTree (write_sameTree hd.wf.bounded)) fun d f hd => hd.sameTree flush_sameTree
  | sibling filepath content => exact sibling_valid h hok

/-- **In every run whose steps meet the condition, every name in the tables is valid.** -/
theorem reachable_valid (h : Reach (routeStep online) NameOk .fresh db) : ∀ d ∈ db.dentries, ValidName d.name := by
  have hinv : Valid db := h.inv .start fun _ _ _ hI hok hst => step_valid hI hok hst
  exact hinv.names

/-- A document is pulled into the root. -/
theorem reachable_valid_note : ∃ db, Reach (routeStep true) NameOk .fresh db ∧ db.dentries = [⟨"a.md", 1, 2⟩] ∧
    ∀ d ∈ db.dentries, ValidName d.name := by
  have hfile : ValidName (fileOf (note "/a.md" "2025-01-01T00:00:00Z")) := by decide
  have hnone : suffixesOf (note "/a.md" "2025-01-01T00:00:00Z") = [] := by decide
  have hcalls : Calls .valid (note "/a.md" "2025-01-01T00:00:00Z") := by
    refine ⟨fun n hn => ?_, fun s hs => ?_⟩
    · rw [note_dir.1] at hn
      cases hn
    · rw [hnone] at hs
      cases hs
  have hpull : Reach (routeStep true) NameOk .fresh (reconcileOne .fresh (note "/a.md" "2025-01-01T00:00:00Z") 0).2 :=
    Reach.start.next (a := (0, .call (.tree (.reconcileOne (note "/a.md" "2025-01-01T00:00:00Z")))))
      ⟨fun _ => hcalls, fun _ _ _ => hfile, fun _ _ _ => hfile⟩ rfl
  exact ⟨_, hpull, by decide, reachable_valid hpull⟩

/-- A document comes whose last name leads up. -/
theorem dotdot_stored : ¬ ∀ db, Reach (routeStep true) anyStep .fresh db → ∀ d ∈ db.dentries, ValidName d.name := by
  intro hall
  obtain ⟨db, hreach, hdb⟩ : ∃ db, Reach (routeStep true) anyStep .fresh db ∧
      decide (∃ d ∈ db.dentries, ¬ ValidName d.name) = true :=
    Reach.exists_of_run [(0, .call (.tree (.reconcileOne (note "/a/.." "2025-01-01T00:00:00Z"))))] (by decide)
  obtain ⟨d, hd, hno⟩ := of_decide_eq_true hdb
  exact hno (hall db hreach d hd)

end Run

end Cache
end Smfs
