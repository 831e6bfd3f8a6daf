/-
# A pull that finds its files in place

A full pull hands every document to `reconcile_one`. Where each document is
mapped to the file that stands at its path, nothing moves: at most a derived
sibling comes (`Still`), so the entries of all other files are what they were
(`pull_quiet`), in whatever pages and states the documents come.

Key definitions: `QuietPull.userEntries`, `QuietPull.Still`, `QuietPull.InPlace`, `QuietPull.Fetching`.
Key theorems: `QuietPull.reconcile_still`, `QuietPull.pull_quiet`.
-/
import Smfs.Names.Paths
import Smfs.Sync.Watermark

namespace Smfs
namespace QuietPull

open Trans Db Fs Cache Climb

/-- The entries of the files that are no derived siblings. -/
def userEntries (db : Db) : List Dentry := db.dentries.filter fun d => sortOf db d.ino ≠ some (.reg, true)

/-- The inode of each mapped document, in the order of the table. -/
def mappings (db : Db) : List (Ino × String) := db.remotes.map fun r => (r.ino, r.remoteId)

/-- Nothing but derived siblings comes, and nothing goes. -/
structure Still (db db' : Db) : Prop where
  entries : ∃ new, db'.dentries = db.dentries ++ new ∧
    ∀ d ∈ new, db.nextIno ≤ d.ino ∧ d.ino < db'.nextIno ∧ sortOf db' d.ino = some (.reg, true)
  sorts : ∀ i < db.nextIno, sortOf db' i = sortOf db i
  next : db.nextIno ≤ db'.nextIno
  mapped : mappings db' = mappings db

/-- The document is mapped to the file that stands at its path. -/
def InPlace (db : Db) (doc : Document) : Prop :=
  ∃ i dir name, db.inoByRemoteId doc.id = some i ∧ Way ROOT_INO (upOf db) i (dir ++ [name]) ∧
    (∀ n ∈ dir ++ [name], Plain n) ∧ doc.path = pathOf (dir ++ [name])

/-- The steps of a pull, while the documents on the server stay. -/
def Fetching (_ : Watermark.St) : Watermark.Act → Prop
  | .server _ | .change _ => False
  | _ => True

/-- The documents that a pull still has to go over. -/
def toCome : Pull.Phase → List Document
  | .docs _ _ _ rest => rest
  | .rehydrating _ _ _ doc rest => doc :: rest
  | _ => []

section Lemmas

variable {db db' db₁ : Db} {i p : Ino} {name : String} {doc : Document} {nowMs : ℤ}

theorem Still.refl (db : Db) : Still db db :=
  ⟨⟨[], (List.append_nil _).symm, fun _ hd => (nomatch hd)⟩, fun _ _ => rfl, le_rfl, rfl⟩

theorem Still.trans (h : Still db db₁) (h' : Still db₁ db') : Still db db' := by
  obtain ⟨new, hd, hnew⟩ := h.entries
  obtain ⟨new', hd', hnew'⟩ := h'.entries
  refine ⟨⟨new ++ new', by rw [hd', hd, List.append_assoc], fun d hm => ?_⟩,
    fun i hi => (h'.sorts i (hi.trans_le h.next)).trans (h.sorts i hi), h.next.trans h'.next, h'.mapped.trans h.mapped⟩
  rcases List.mem_append.mp hm with hm | hm
  · obtain ⟨hge, hlt, hs⟩ := hnew d hm
    exact ⟨hge, hlt.trans_le h'.next, (h'.sorts _ hlt).trans hs⟩
  · obtain ⟨hge, hlt, hs⟩ := hnew' d hm
    exact ⟨h.next.trans hge, hlt, hs⟩

theorem Still.of_eq (hd : db'.dentries = db.dentries) (hs : ∀ i, sortOf db' i = sortOf db i)
    (hn : db'.nextIno = db.nextIno)
    (hm : mappings db' = mappings db) : Still db db' :=
  ⟨⟨[], by rw [hd, List.append_nil], fun _ hd => (nomatch hd)⟩, fun i _ => hs i, hn.ge, hm⟩

theorem Still.grows (h : Still db db') : Grows db db' := by
  obtain ⟨new, hd, hnew⟩ := h.entries
  exact ⟨new, hd, fun d hm => (hnew d hm).1⟩

theorem Still.userEntries (h : Still db db') (hb : db.Bounded) : userEntries db' = userEntries db := by
  obtain ⟨new, hd, hnew⟩ := h.entries
  have hold : db.dentries.filter (fun d => decide (sortOf db' d.ino ≠ some (.reg, true))) = QuietPull.userEntries db :=
    List.filter_congr fun d hm => by rw [h.sorts d.ino (hb.dentries d hm)]
  have hgone : new.filter (fun d => decide (sortOf db' d.ino ≠ some (.reg, true))) = [] :=
    List.filter_eq_nil_iff.mpr fun d hm => by simp [(hnew d hm).2.2]
  unfold QuietPull.userEntries
  rw [hd, List.filter_append, hgone, List.append_nil]
  exact hold

theorem inoByRemoteId_mappings (rid : String) :
    db.inoByRemoteId rid = ((mappings db).find? fun m => m.2 = rid).map Prod.fst := by
  unfold inoByRemoteId mappings
  rw [List.find?_map, Option.map_map]
  rfl

theorem InPlace.still (hwf : WellFormed db) (h : InPlace db doc) (hs : Still db db') : InPlace db' doc := by
  obtain ⟨i, dir, name, hid, hway, hplain, hpath⟩ := h
  refine ⟨i, dir, name, ?_, ?_, hplain, hpath⟩
  · rw [inoByRemoteId_mappings, hs.mapped, ← inoByRemoteId_mappings]
    exact hid
  · refine hway.congr (P := fun k => k < db.nextIno) (hwf.bounded.inoByRemoteId hid) (fun k q n _ hq => ?_)
      fun k hk => hs.grows.upOf hk
    obtain ⟨d, hd, he⟩ := Option.map_eq_some_iff.mp hq
    cases he
    exact hwf.parents d (Table.get_some hd).1

/-! ### One document -/

theorem createDerivedAt_still (hb : db.Bounded) (p : Ino) (name : String) (content : Bytes) :
    Still db (createDerivedAt db p name content).2 := by
  have hsort : ∀ k < db.nextIno, sortOf (db.addInode .reg 1 content.length true).1 k = sortOf db k := by
    intro k hk
    rw [sortOf_addInode hb, if_neg hk.ne]
  unfold createDerivedAt
  cases childInode db p name with
  | some x =>
    dsimp only
    split_ifs
    · exact .of_eq rfl (fun _ => sortOf_rewrite) rfl rfl
    · exact .refl db
  | none =>
    dsimp only
    split_ifs
    · exact ⟨⟨[], (List.append_nil _).symm, fun _ hd => (nomatch hd)⟩, hsort, Nat.le_succ _, rfl⟩
    · refine ⟨⟨[⟨name, p, db.nextIno⟩], rfl, fun d hd => ?_⟩, hsort, Nat.le_succ _, rfl⟩
      obtain rfl := List.mem_singleton.mp hd
      have hnew : sortOf (db.addInode .reg 1 content.length true).1 db.nextIno = some (.reg, true) := by
        rw [sortOf_addInode hb, if_pos rfl]
      exact ⟨le_rfl, Nat.lt_succ_self _, hnew⟩

/-- The directory of the document's path is there. -/
theorem sibling_still (hwf : WellFormed db) (h : InPlace db doc) (suffix : String) (hslash : '/' ∉ suffix.toList)
    (content : Bytes) : Still db (createDerivedSibling db (doc.path ++ suffix) content).2 := by
  obtain ⟨i, dir, name, -, hway, hplain, hpath⟩ := h
  have hname : Plain name := hplain name (by simp)
  have hdir : ∀ n ∈ dir, Plain n := fun n hn => hplain n (List.mem_append_left _ hn)
  have hsplit : (splitPath (doc.path ++ suffix)).1 = pathOf dir := by
    rw [splitPath_append path_slash hslash, hpath, splitPath_pathOf hname]
  obtain ⟨last, hstands⟩ : ∃ last, Stands db ROOT_INO dir last := by
    generalize he : dir ++ [name] = parts at hway
    cases hway with
    | root => exact absurd he (by simp)
    | step _ _ hrest =>
      obtain ⟨rfl, -⟩ := List.append_inj' he rfl
      exact ⟨_, stands_of_way hwf hrest⟩
  have hdirs : ensureDirs db (splitPath (doc.path ++ suffix)).1 = (db, last) := by
    unfold ensureDirs
    rw [hsplit, components_pathOf hdir]
    exact ensureParts_of_stands hstands
  unfold createDerivedSibling
  split_ifs
  · exact .refl db
  · exact .refl db
  · dsimp only
    rw [hdirs]
    exact createDerivedAt_still hwf.bounded _ _ _

theorem errorSibling_still (hwf : WellFormed db) (h : InPlace db doc) :
    Still db (syncErrorSibling db doc doc.path) := by
  unfold syncErrorSibling
  split_ifs
  · exact .refl db
  · exact sibling_still hwf h _ (by decide) _

theorem transcriptionSibling_still (hwf : WellFormed db) (h : InPlace db doc) :
    Still db (syncTranscriptionSibling db doc doc.path) := by
  unfold syncTranscriptionSibling
  split_ifs
  · exact .refl db
  · split
    · rename_i hsuf
      exact sibling_still hwf h _ (suffix_plain hsuf).1 _
    · exact .refl db

theorem setMirroredState_still {u : Option ℤ} {st : Option String} {t : Option ℤ} :
    Still db (db.setMirroredState i u st t) :=
  .of_eq rfl (fun _ => rfl) rfl (Table.map_modify _ _ _ _ fun _ _ => rfl)

theorem mirrorContent_still : Still db (mirrorContent db i doc) := by
  obtain ⟨hd, hsort, hn⟩ := mirrorContent_same db i doc
  refine .of_eq hd hsort hn ?_
  unfold mappings
  rw [mirrorContent_sameSync.remotes]

/-- A document that is in place stays there, and so does everything else. -/
theorem reconcile_still (hwf : WellFormed db) (h : InPlace db doc) : Still db (reconcileOne db doc nowMs).2 := by
  have hpath : ∃ i, db.inoByRemoteId doc.id = some i ∧ resolveFilepath db i = some doc.path := by
    obtain ⟨i, dir, name, hid, hway, -, hdoc⟩ := h
    exact ⟨i, hid, resolve_iff.mpr ⟨_, hway, hdoc.symm⟩⟩
  obtain ⟨i, hid, hres⟩ := hpath
  have hnamed : Named db i := named_of_resolve hres
  unfold reconcileOne
  rw [hid]
  show Still db (reconcileMapped db i doc nowMs).2
  unfold reconcileMapped renameToDoc
  rw [if_pos hres]
  split_ifs
  · exact .refl db
  · have h1 : Still db (syncTranscriptionSibling db doc doc.path) := transcriptionSibling_still hwf h
    have hbeside : Beside .any doc db (syncTranscriptionSibling db doc doc.path) :=
      transcriptionSibling_beside hwf .any (.any doc)
    have hwf1 : WellFormed (syncTranscriptionSibling db doc doc.path) := Edits.wf hwf hbeside.edits
    exact h1.trans (errorSibling_still hwf1 (h.still hwf h1))
  · show Still db (reconcileContent db i doc nowMs)
    unfold reconcileContent
    split_ifs
    · have h1 : Still db ((mirrorContent db i doc).setMirroredState i doc.updatedMs (some doc.status) (some nowMs)) :=
        mirrorContent_still.trans setMirroredState_still
      have he : Edits .any db ((mirrorContent db i doc).setMirroredState i doc.updatedMs (some doc.status) (some nowMs)) :=
        (mirrorContent_edits hnamed).tail setMirroredState_edit
      exact h1.trans (transcriptionSibling_still (Edits.wf hwf he) (h.still hwf h1))
    · have h1 : Still db (db.setMirroredState i none (some doc.status) (some nowMs)) := setMirroredState_still
      have he : Edits .any db (db.setMirroredState i none (some doc.status) (some nowMs)) :=
        .single setMirroredState_edit
      exact h1.trans (errorSibling_still (Edits.wf hwf he) (h.still hwf h1))

/-! ### The pull -/

/-- The pull has documents of the server before it, and nothing has moved. -/
structure Inv (db : Db) (docs : List Document) (s : Watermark.St) : Prop where
  wf : WellFormed s.db
  still : Still db s.db
  server : s.server = docs
  come : toCome s.phase ⊆ docs

variable {docs : List Document} {s t : Watermark.St}

theorem Inv.phase {phase : Pull.Phase} {settled handed : List Document} (h : Inv db docs s) (hc : toCome phase ⊆ docs) :
    Inv db docs { s with phase := phase, settled := settled, handed := handed } := ⟨h.wf, h.still, h.server, hc⟩

theorem reconcileNext_still (v : Pull.Vars) (page total : ℕ) (rest : List Document) (nowMs : ℤ) (hwf : WellFormed db)
    (h : InPlace db doc) : WellFormed (Pull.reconcileNext v page total doc rest db nowMs).2 ∧
      Still db (Pull.reconcileNext v page total doc rest db nowMs).2 ∧
      toCome (Pull.reconcileNext v page total doc rest db nowMs).1 ⊆ doc :: rest := by
  unfold Pull.reconcileNext
  split_ifs
  · exact ⟨hwf, .refl db, List.nil_subset _⟩
  · dsimp only
    split
    · exact ⟨reconcileOne_wf hwf, reconcile_still hwf h, List.Subset.refl _⟩
    · exact ⟨reconcileOne_wf hwf, reconcile_still hwf h, List.subset_cons_self _ _⟩

theorem next_inv (hdb : WellFormed db) (hdocs : ∀ doc ∈ docs, InPlace db doc) (h : Inv db docs s)
    (hst : Watermark.step s (.next nowMs) = some t) : Inv db docs t := by
  have hcome := h.come
  unfold Watermark.step at hst
  cases hphase : s.phase with
  | docs v page total rest =>
    rw [hphase] at hst hcome
    cases rest with
    | nil =>
      cases hst
      refine h.phase ?_
      unfold Pull.nextPage
      split_ifs <;> exact List.nil_subset _
    | cons doc rest =>
      cases hst
      have hdoc : InPlace s.db doc := (hdocs doc (hcome List.mem_cons_self)).still hdb h.still
      obtain ⟨hwf, hstill, hsub⟩ := reconcileNext_still v page total rest nowMs h.wf hdoc
      exact ⟨hwf, h.still.trans hstill, h.server, List.Subset.trans hsub hcome⟩
  | idle | listing | rehydrating | storing =>
    rw [hphase] at hst
    cases hst

theorem step_inv {a : Watermark.Act} (hdb : WellFormed db) (hdocs : ∀ doc ∈ docs, InPlace db doc) (h : Inv db docs s)
    (hok : Fetching s a) (hst : Watermark.step s a = some t) : Inv db docs t := by
  have hcome := h.come
  cases a with
  | next now => exact next_inv hdb hdocs h hst
  | server | change => exact hok.elim
  | delta | full | requestFails =>
    dsimp only [Watermark.step] at hst
    split at hst <;> cases hst
    exact h.phase (List.nil_subset _)
  | request =>
    dsimp only [Watermark.step] at hst
    split at hst <;> cases hst
    refine h.phase ?_
    unfold Pull.gotPage
    split_ifs
    · exact List.nil_subset _
    · exact fun d hd => h.server ▸ Paging.mem_of_mem_page hd
  | rehydrate fetched =>
    dsimp only [Watermark.step] at hst
    split at hst
    · rename_i v page total doc rest hphase
      cases hst
      rw [hphase] at hcome
      have hrest : rest ⊆ docs := fun d hd => hcome (List.mem_cons_of_mem _ hd)
      unfold Pull.rehydrateIfPossible
      split
      · rename_i _ i bytes _ hi
        have hsame : Still s.db (rehydrateRawBytes s.db i bytes) := .of_eq rfl (fun _ => sortOf_rewrite) rfl rfl
        exact ⟨h.wf.rewrite (h.wf.bounded.inoByRemoteId hi), h.still.trans hsame, h.server, hrest⟩
      · exact ⟨h.wf, h.still, h.server, hrest⟩
    · cases hst
  | store =>
    dsimp only [Watermark.step] at hst
    split at hst
    · cases hst
      unfold Pull.store
      split_ifs
      · refine ⟨?_, h.still.trans (.of_eq rfl (fun _ => rfl) rfl rfl), h.server, List.nil_subset _⟩
        exact h.wf.congr ⟨h.wf.bounded.inodes, h.wf.bounded.dentries, h.wf.bounded.data, h.wf.bounded.remotes,
          h.wf.bounded.sorted⟩ rfl rfl fun _ => rfl
      · exact ⟨h.wf, h.still, h.server, List.nil_subset _⟩
    · cases hst

/-- **A pull of documents that are in place leaves the entries of all files
alone**, derived siblings apart. -/
theorem pull_quiet (hdb : WellFormed db) (hdocs : ∀ doc ∈ docs, InPlace db doc)
    (h : Reach Watermark.step Fetching ⟨db, .idle, docs, docs, [], []⟩ t) : userEntries t.db = userEntries db := by
  have hstart : Inv db docs ⟨db, .idle, docs, docs, [], []⟩ := ⟨hdb, .refl db, rfl, List.nil_subset _⟩
  have hinv : Inv db docs t := h.inv hstart fun _ _ _ hI hok hst => step_inv hdb hdocs hI hok hst
  exact hinv.still.userEntries hdb.bounded

end Lemmas

end QuietPull
end Smfs
