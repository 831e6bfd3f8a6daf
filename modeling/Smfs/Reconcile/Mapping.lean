/-
# What a reconcile does to the mapping

A reconcile leaves the inode numbers of the tables in order, maps at most one
inode to its document, and gives an inode a mirrored version only together
with the content of that version (`reconcileOne_reconciled`).

Key definitions: `Fs.attachTarget`, `Fs.Reconciled`.
Key theorems: `Fs.reconcileOne_bounded`, `Fs.reconcileOne_reconciled`, `Fs.reconcileOne_mapped`.
-/
import Smfs.Reconcile

namespace Smfs
namespace Fs

open Db

/-- The inode that stands at the path of a document which is not mapped. -/
def attachTarget (db : Db) (doc : Document) : Option Ino :=
  (ensureDirs db (splitPath doc.path).1).1.childIno (ensureDirs db (splitPath doc.path).1).2
    (splitPath doc.path).2

/-- What a reconcile may do to an inode: leave its file and its version alone,
forget its version, or give it the version of the document with the content.
Of the file nothing is said where the inode is not `known`. -/
inductive Reconciled (known : Prop) (i : Ino) (doc : Document) (db db' : Db) : Prop
  | kept (hk : known → Keeps i db db') (hr : db'.getRemoteId i = db.getRemoteId i)
      (hm : db'.getMirrored i = db.getMirrored i)
  | unmirrored (hk : known → Keeps i db db') (hr : db'.getRemoteId i = some doc.id)
      (hm : db'.getMirrored i = none)
  | mirrored (hs : doc.status = "done") (hr : db'.getRemoteId i = some doc.id)
      (hm : ∀ u, doc.updatedMs = some u → db'.getMirrored i = some u)
      (hc : doc.isBinaryType = false → ∀ c, doc.content = some c → (db'.getInode i).isSome = true →
        db'.readAllContent i = c)

section Lemmas

variable {db : Db} {i j : Ino} {doc : Document} {nowMs : ℤ}

/-! ### Inode numbers -/

theorem syncErrorSibling_bounded {filepath : String} (h : db.Bounded) :
    (syncErrorSibling db doc filepath).Bounded := by
  unfold syncErrorSibling
  split_ifs
  · exact h
  · exact createDerivedSibling_bounded h

theorem syncTranscriptionSibling_bounded {filepath : String} (h : db.Bounded) :
    (syncTranscriptionSibling db doc filepath).Bounded := by
  unfold syncTranscriptionSibling
  split_ifs
  · exact h
  · split
    · exact createDerivedSibling_bounded h
    · exact h

theorem mirrorContent_bounded (h : db.Bounded) (hj : j < db.nextIno) : (mirrorContent db j doc).Bounded := by
  unfold mirrorContent
  split_ifs
  · exact h
  · split
    · exact rewriteFileContent_bounded h hj
    · exact h

theorem reconcileContent_bounded (h : db.Bounded) (hj : j < db.nextIno) :
    (reconcileContent db j doc nowMs).Bounded := by
  unfold reconcileContent
  split_ifs
  · exact syncTranscriptionSibling_bounded (mirrorContent_bounded h hj).setMirroredState
  · exact syncErrorSibling_bounded h.setMirroredState

theorem renameToDoc_bounded (h : db.Bounded) : (renameToDoc db j doc).2.Bounded := by
  unfold renameToDoc
  split_ifs
  · exact h
  · exact applyRenameTo_bounded h

theorem reconcileMapped_bounded (h : db.Bounded) (hj : j < db.nextIno) :
    (reconcileMapped db j doc nowMs).2.Bounded := by
  unfold reconcileMapped
  split_ifs
  · exact h
  · exact syncErrorSibling_bounded (syncTranscriptionSibling_bounded h)
  · have h1 : (renameToDoc db j doc).2.Bounded := renameToDoc_bounded h
    have h2 : Keeps j db (renameToDoc db j doc).2 := renameToDoc_keeps hj
    split
    · rename_i he
      rw [he] at h1
      exact h1
    · rename_i he
      rw [he] at h1 h2
      exact reconcileContent_bounded h1 (hj.trans_le h2.next)

theorem reconcileAttach_bounded (h : db.Bounded) (hj : j < db.nextIno) :
    (reconcileAttach db j doc nowMs).2.Bounded := by
  have h1 : (db.setRemoteId j doc.id).Bounded := h.setRemoteId hj
  unfold reconcileAttach
  split_ifs
  · exact h1.of_subset rfl (fun _ => id) (fun _ => id) (fun _ => id) (List.Sublist.refl _)
  · refine Bounded.setMirroredState ?_
    unfold attachContent
    split_ifs
    · exact syncTranscriptionSibling_bounded (mirrorContent_bounded h1 hj)
    · exact h1

theorem reconcileBinary_bounded (h : db.Bounded) : (reconcileBinary db doc nowMs).2.Bounded := by
  unfold reconcileBinary
  dsimp only
  have h1 : (syncErrorSibling (syncTranscriptionSibling db doc doc.path) doc doc.path).Bounded :=
    syncErrorSibling_bounded (syncTranscriptionSibling_bounded h)
  generalize syncErrorSibling (syncTranscriptionSibling db doc doc.path) doc doc.path = db₁ at h1
  split_ifs
  · unfold createRawStub
    split_ifs
    · exact h1
    · exact h1
    · obtain ⟨hb, hlt⟩ : (createStubAt (ensureDirs db₁ (splitPath doc.path).1).1
          (ensureDirs db₁ (splitPath doc.path).1).2 (splitPath doc.path).2).2.Bounded ∧ _ :=
        createStubAt_bounded (ensureDirs_bounded h1)
      exact (hb.setRemoteId hlt).setMirroredState
  · exact h1

theorem addFile_bounded {parentIno : Ino} {filename : String} {content : Bytes} (h : db.Bounded) :
    (addFile db parentIno filename content).1.Bounded := by
  refine ((h.addInode).addDentry (Nat.lt_succ_self _)).addChunks fun c hc => ?_
  rw [chunkRows_ino hc]
  exact Nat.lt_succ_self _

theorem reconcileCreate_bounded {parentIno : Ino} {filename : String} (h : db.Bounded) :
    (reconcileCreate db parentIno filename doc nowMs).2.Bounded := by
  have h1 : (addFile db parentIno filename (doc.content.getD [])).1.Bounded := addFile_bounded h
  exact syncTranscriptionSibling_bounded (h1.setRemoteId (Nat.lt_succ_self _)).setMirroredState

theorem reconcileUnmapped_bounded (h : db.Bounded) : (reconcileUnmapped db doc nowMs).2.Bounded := by
  unfold reconcileUnmapped
  split
  · exact syncErrorSibling_bounded h
  · have h1 : (ensureDirs db (splitPath doc.path).1).1.Bounded := ensureDirs_bounded h
    dsimp only
    split
    · rename_i k hk
      exact reconcileAttach_bounded h1 (h1.childIno hk)
    · split_ifs
      · exact reconcileBinary_bounded h1
      · exact reconcileCreate_bounded h1

theorem reconcileOne_bounded (h : db.Bounded) : (reconcileOne db doc nowMs).2.Bounded := by
  unfold reconcileOne
  split
  · rename_i k hk
    exact reconcileMapped_bounded h (h.inoByRemoteId hk)
  · exact reconcileUnmapped_bounded h

/-! ### Versions -/

/-- A text document has no transcription. -/
theorem transcriptionSuffix_text (hb : doc.isBinaryType = false) : transcriptionSuffix doc = none := by
  unfold transcriptionSuffix
  split <;> first | rfl | skip
  all_goals
    rename_i ht
    simp [Document.isBinaryType, ht] at hb

theorem syncTranscriptionSibling_text {filepath : String} (hb : doc.isBinaryType = false) :
    syncTranscriptionSibling db doc filepath = db := by
  unfold syncTranscriptionSibling
  rw [transcriptionSuffix_text hb]
  split_ifs
  · rfl
  · split
    · rename_i h
      cases h
    · rfl

theorem mirrorContent_text {c : Bytes} (hb : doc.isBinaryType = false) (hc : doc.content = some c) :
    mirrorContent db j doc = rewriteFileContent db j c := by
  unfold mirrorContent
  rw [hb, hc]
  rfl

variable {known : Prop}

theorem Reconciled.of_keeps {db' : Db} (hk : known → Keeps i db db') (hs : SameSync db db') :
    Reconciled known i doc db db' := .kept hk hs.getRemoteId hs.getMirrored

/-- What went before left the inode and the mapping alone. -/
theorem Reconciled.after {db₁ db₂ : Db} (h : Reconciled known i doc db₁ db₂) (hk : known → Keeps i db db₁)
    (hs : SameSync db db₁) : Reconciled known i doc db db₂ := by
  cases h with
  | kept hk' hr hm =>
    exact .kept (fun hn => (hk hn).trans (hk' hn)) (hr.trans hs.getRemoteId) (hm.trans hs.getMirrored)
  | unmirrored hk' hr hm => exact .unmirrored (fun hn => (hk hn).trans (hk' hn)) hr hm
  | mirrored hs' hr hm hc => exact .mirrored hs' hr hm hc

/-- The version and the content of a document are brought to an inode that is mapped to it. -/
theorem mirrored_reconciled {db₀ db' : Db} {st : Option String} {t : Option ℤ} (hs : doc.status = "done")
    (hr : db.getRemoteId j = some doc.id)
    (hsync : SameSync ((mirrorContent db j doc).setMirroredState j doc.updatedMs st t) db')
    (htext : doc.isBinaryType = false → db' = (mirrorContent db j doc).setMirroredState j doc.updatedMs st t) :
    Reconciled known j doc db₀ db' := by
  have hid : (mirrorContent db j doc).getRemoteId j = some doc.id := by
    rw [(mirrorContent_sameSync : SameSync db _).getRemoteId]
    exact hr
  refine .mirrored hs ?_ (fun u hu => ?_) fun hb c hc hi => ?_
  · rw [hsync.getRemoteId, getRemoteId_setMirroredState]
    exact hid
  · rw [hsync.getMirrored, hu]
    exact getMirrored_set hid
  · obtain rfl := htext hb
    rw [mirrorContent_text hb hc] at hi ⊢
    have hw : Rewrote j c db ((rewriteFileContent db j c).setMirroredState j doc.updatedMs st t) :=
      rewriteFileContent_rewrote.keeps setMirroredState_keeps
    exact hw.content hi

theorem reconcileContent_reconciled (hr : db.getRemoteId j = some doc.id)
    (hd : known → i < db.nextIno ∧ NotDerived db i) :
    Reconciled known i doc db (reconcileContent db j doc nowMs) := by
  by_cases hij : i = j
  · subst hij
    by_cases hs : doc.status = "done"
    · unfold reconcileContent
      rw [if_pos hs]
      exact mirrored_reconciled hs hr syncTranscriptionSibling_sameSync syncTranscriptionSibling_text
    · unfold reconcileContent
      rw [if_neg hs]
      have hsync : SameSync (db.setMirroredState i none (some doc.status) (some nowMs))
          (syncErrorSibling (db.setMirroredState i none (some doc.status) (some nowMs)) doc doc.path) :=
        syncErrorSibling_sameSync
      refine .kept (fun hk => ?_) ?_ ?_
      · have h1 : Keeps i db (db.setMirroredState i none (some doc.status) (some nowMs)) :=
          setMirroredState_keeps
        exact h1.trans (syncErrorSibling_keeps ((hd hk).1.trans_le h1.next) ((hd hk).2.keeps h1))
      · rw [hsync.getRemoteId, getRemoteId_setMirroredState]
      · rw [hsync.getMirrored, getMirrored_set_none]
  · have hother : ∀ {d : Db} {u : Option ℤ}, SameSync db d → ∀ {d' : Db},
        SameSync (d.setMirroredState j u (some doc.status) (some nowMs)) d' →
          d'.getRemoteId i = db.getRemoteId i ∧ d'.getMirrored i = db.getMirrored i := by
      intro d u h1 d' h2
      rw [h2.getRemoteId, h2.getMirrored, getRemoteId_setMirroredState, getMirrored_setMirroredState,
        if_neg hij, h1.getRemoteId, h1.getMirrored]
      exact ⟨rfl, rfl⟩
    have hremote : (reconcileContent db j doc nowMs).getRemoteId i = db.getRemoteId i ∧
        (reconcileContent db j doc nowMs).getMirrored i = db.getMirrored i := by
      unfold reconcileContent
      split_ifs
      · exact hother mirrorContent_sameSync syncTranscriptionSibling_sameSync
      · exact hother (.refl _) syncErrorSibling_sameSync
    exact .kept (fun hk => reconcileContent_keeps hij (hd hk).1 (hd hk).2) hremote.1 hremote.2

theorem reconcileMapped_reconciled (hr : db.getRemoteId j = some doc.id)
    (hd : known → i < db.nextIno ∧ NotDerived db i) :
    Reconciled known i doc db (reconcileMapped db j doc nowMs).2 := by
  unfold reconcileMapped
  split_ifs
  · exact .of_keeps (fun _ => .refl _ _) (.refl _)
  · exact .of_keeps (fun hk => siblings_keeps (hd hk).1 (hd hk).2) siblings_sameSync
  · have h1 : known → Keeps i db (renameToDoc db j doc).2 := fun hk => renameToDoc_keeps (hd hk).1
    have h2 : SameSync db (renameToDoc db j doc).2 := renameToDoc_sameSync
    split
    · rename_i he
      rw [he] at h1 h2
      exact .of_keeps h1 h2
    · rename_i he
      rw [he] at h1 h2
      refine Reconciled.after (reconcileContent_reconciled ?_ fun hk => ?_) h1 h2
      · rw [h2.getRemoteId]
        exact hr
      · exact ⟨(hd hk).1.trans_le (h1 hk).next, (hd hk).2.keeps (h1 hk)⟩

theorem reconcileAttach_reconciled (hs : doc.status = "done")
    (hd : known → i < db.nextIno ∧ NotDerived db i) :
    Reconciled known i doc db (reconcileAttach db j doc nowMs).2 := by
  unfold reconcileAttach
  have hid : (db.setRemoteId j doc.id).getRemoteId j = some doc.id := by
    rw [getRemoteId_setRemoteId, if_pos rfl]
  split_ifs
  · by_cases hij : i = j
    · refine .unmirrored (fun _ => .of_eq rfl rfl rfl) ?_ ?_
      · exact getRemoteId_setRemoteId.trans (if_pos hij)
      · exact getMirrored_setRemoteId.trans (if_pos hij)
    · refine .kept (fun _ => .of_eq rfl rfl rfl) ?_ ?_
      · exact getRemoteId_setRemoteId.trans (if_neg hij)
      · exact getMirrored_setRemoteId.trans (if_neg hij)
  · by_cases hij : i = j
    · subst hij
      unfold attachContent
      rw [if_pos hs]
      have h1 : SameSync (mirrorContent (db.setRemoteId i doc.id) i doc)
          (syncTranscriptionSibling (mirrorContent (db.setRemoteId i doc.id) i doc) doc doc.path) :=
        syncTranscriptionSibling_sameSync
      have h2 : SameSync ((mirrorContent (db.setRemoteId i doc.id) i doc).setMirroredState i doc.updatedMs
          (some doc.status) (some nowMs)) ((syncTranscriptionSibling (mirrorContent (db.setRemoteId i doc.id) i doc)
            doc doc.path).setMirroredState i doc.updatedMs (some doc.status) (some nowMs)) :=
        h1.setMirroredState
      exact mirrored_reconciled hs hid h2 fun hb => by rw [syncTranscriptionSibling_text hb]
    · have hsync : SameSync (db.setRemoteId j doc.id) (attachContent (db.setRemoteId j doc.id) j doc) :=
        attachContent_sameSync
      refine .kept (fun hk => ?_) ?_ ?_
      · have h1 : Keeps i db (db.setRemoteId j doc.id) := setRemoteId_keeps
        exact (h1.trans (attachContent_keeps hij (hd hk).1 ((hd hk).2.keeps h1))).trans setMirroredState_keeps
      · rw [getRemoteId_setMirroredState, hsync.getRemoteId, getRemoteId_setRemoteId, if_neg hij]
      · rw [getMirrored_setMirroredState, if_neg hij, hsync.getMirrored, getMirrored_setRemoteId, if_neg hij]

/-- The stub of a raw file is made; its content is not the document's. -/
theorem reconcileBinary_reconciled (hs : doc.status = "done") (hb : doc.isBinaryType = true)
    (hd : known → i < db.nextIno ∧ NotDerived db i) :
    Reconciled known i doc db (reconcileBinary db doc nowMs).2 := by
  unfold reconcileBinary
  dsimp only
  have h1 : known → Keeps i db (syncErrorSibling (syncTranscriptionSibling db doc doc.path) doc doc.path) :=
    fun hk => siblings_keeps (hd hk).1 (hd hk).2
  have h2 : SameSync db (syncErrorSibling (syncTranscriptionSibling db doc doc.path) doc doc.path) :=
    siblings_sameSync
  generalize syncErrorSibling (syncTranscriptionSibling db doc doc.path) doc doc.path = db₁ at h1 h2
  split_ifs
  · have h3 : known → Keeps i db (createRawStub db₁ doc.path).2 := fun hk =>
      (h1 hk).trans (createRawStub_keeps ((hd hk).1.trans_le (h1 hk).next))
    have h4 : SameSync db (createRawStub db₁ doc.path).2 := h2.trans createRawStub_sameSync
    split
    · rename_i he
      rw [he] at h3 h4
      exact .of_keeps h3 h4
    · rename_i k db₂ he
      rw [he] at h3 h4
      by_cases hik : i = k
      · subst hik
        have hid : (db₂.setRemoteId i doc.id).getRemoteId i = some doc.id := by
          rw [getRemoteId_setRemoteId, if_pos rfl]
        refine .mirrored hs ?_ (fun u hu => ?_) fun hb' => ?_
        · rw [getRemoteId_setMirroredState, hid]
        · rw [hu]
          exact getMirrored_set hid
        · rw [hb] at hb'
          cases hb'
      · refine .kept (fun hk => ((h3 hk).trans setRemoteId_keeps).trans setMirroredState_keeps) ?_ ?_
        · rw [getRemoteId_setMirroredState, getRemoteId_setRemoteId, if_neg hik]
          exact h4.getRemoteId
        · rw [getMirrored_setMirroredState, if_neg hik, getMirrored_setRemoteId, if_neg hik]
          exact h4.getMirrored
  · exact .of_keeps h1 h2

/-- The inode that a new file gets, and its content. -/
theorem addFile_file (h : db.Bounded) (parentIno : Ino) (filename : String) (content : Bytes) :
    (addFile db parentIno filename content).2 = db.nextIno ∧
      (addFile db parentIno filename content).1.fileOf db.nextIno =
        some ⟨db.nextIno, .reg, 0, content.length, none, false⟩ ∧
      (addFile db parentIno filename content).1.chunksOf db.nextIno =
        chunkRows db.nextIno content.length 0 content := by
  refine ⟨rfl, ?_, ?_⟩
  · have hnone : Table.get Inode.ino db.inodes db.nextIno = none :=
      Table.get_none.mpr fun x hx => (h.inodes x hx).ne
    unfold fileOf Db.getInode
    show (Table.get Inode.ino (db.inodes ++ [_]) db.nextIno).map _ = _
    rw [Table.get_append, hnone, Table.get_cons, if_pos rfl]
    rfl
  · have hnone : db.chunksOf db.nextIno = [] := h.chunksOf le_rfl
    have hrows : (chunkRows db.nextIno content.length 0 content).filter (fun c => c.ino = db.nextIno) =
        chunkRows db.nextIno content.length 0 content :=
      List.filter_eq_self.mpr fun c hc => by simpa using chunkRows_ino hc
    show (db.data ++ chunkRows db.nextIno content.length 0 content).filter (fun c => c.ino = db.nextIno) = _
    rw [List.filter_append, hrows]
    exact (congrArg (· ++ chunkRows db.nextIno content.length 0 content) hnone).trans (List.nil_append _)

theorem reconcileCreate_reconciled {parentIno : Ino} {filename : String} (h : db.Bounded)
    (hs : doc.status = "done") (hb : doc.isBinaryType = false)
    (hd : known → i < db.nextIno ∧ NotDerived db i) :
    Reconciled known i doc db (reconcileCreate db parentIno filename doc nowMs).2 := by
  obtain ⟨hino, hfile, hchunks⟩ := addFile_file h parentIno filename (doc.content.getD [])
  have hsync : SameSync db (addFile db parentIno filename (doc.content.getD [])).1 := ⟨rfl, rfl, rfl⟩
  have hkeep : known → Keeps i db (addFile db parentIno filename (doc.content.getD [])).1 :=
    fun hk => addFile_keeps (hd hk).1
  unfold reconcileCreate
  dsimp only
  rw [syncTranscriptionSibling_text hb]
  generalize addFile db parentIno filename (doc.content.getD []) = added at hino hfile hchunks hsync hkeep
  by_cases hi : i = added.2
  · subst hi
    rw [hino] at *
    have hid : (added.1.setRemoteId db.nextIno doc.id).getRemoteId db.nextIno = some doc.id := by
      rw [getRemoteId_setRemoteId, if_pos rfl]
    refine .mirrored hs ?_ (fun u hu => ?_) fun _ c hc _ => ?_
    · rw [getRemoteId_setMirroredState, hid]
    · rw [hu]
      exact getMirrored_set hid
    · rw [hc] at hfile hchunks
      exact readAllContent_of_rows hfile rfl hchunks
  · refine .kept (fun hk => ((hkeep hk).trans setRemoteId_keeps).trans setMirroredState_keeps) ?_ ?_
    · rw [getRemoteId_setMirroredState, getRemoteId_setRemoteId, if_neg hi]
      exact hsync.getRemoteId
    · rw [getMirrored_setMirroredState, if_neg hi, getMirrored_setRemoteId, if_neg hi]
      exact hsync.getMirrored

theorem reconcileUnmapped_reconciled (h : db.Bounded) (hd : known → i < db.nextIno ∧ NotDerived db i) :
    Reconciled known i doc db (reconcileUnmapped db doc nowMs).2 := by
  unfold reconcileUnmapped
  split
  · exact .of_keeps (fun hk => syncErrorSibling_keeps (hd hk).1 (hd hk).2) syncErrorSibling_sameSync
  · rename_i hs
    have hs : doc.status = "done" := not_not.mp hs
    have h1 : known → Keeps i db (ensureDirs db (splitPath doc.path).1).1 :=
      fun hk => ensureDirs_keeps (hd hk).1
    have h2 : SameSync db (ensureDirs db (splitPath doc.path).1).1 := ensureDirs_sameSync
    have h3 : (ensureDirs db (splitPath doc.path).1).1.Bounded := ensureDirs_bounded h
    dsimp only
    generalize ensureDirs db (splitPath doc.path).1 = dirs at h1 h2 h3 ⊢
    have hd' : known → i < dirs.1.nextIno ∧ NotDerived dirs.1 i := fun hk =>
      ⟨(hd hk).1.trans_le (h1 hk).next, (hd hk).2.keeps (h1 hk)⟩
    split
    · exact (reconcileAttach_reconciled hs hd').after h1 h2
    · split_ifs with hb
      · exact (reconcileBinary_reconciled hs hb hd').after h1 h2
      · exact (reconcileCreate_reconciled h3 hs (by simpa using hb) hd').after h1 h2

/-- A new file is not derived. -/
theorem reconcileCreate_notDerived {parentIno : Ino} {filename : String} (h : db.Bounded)
    (hb : doc.isBinaryType = false) :
    NotDerived (reconcileCreate db parentIno filename doc nowMs).2 db.nextIno := by
  obtain ⟨-, hfile, -⟩ := addFile_file h parentIno filename (doc.content.getD [])
  unfold reconcileCreate
  dsimp only
  rw [syncTranscriptionSibling_text hb]
  intro x hx
  have hx : (addFile db parentIno filename (doc.content.getD [])).1.fileOf db.nextIno = some x := hx
  rw [hfile] at hx
  cases hx
  rfl

/-- The inodes that a reconcile may map: what stands at the document's path,
or a new file. -/
theorem reconcileUnmapped_mapped {rid : String} (h : db.Bounded) (hb : doc.isBinaryType = false)
    (hr : (reconcileUnmapped db doc nowMs).2.getRemoteId i = some rid) :
    db.getRemoteId i = some rid ∨
      attachTarget db doc = some i ∧ (NotDerived db i → NotDerived (reconcileUnmapped db doc nowMs).2 i) ∨
      db.nextIno ≤ i ∧ NotDerived (reconcileUnmapped db doc nowMs).2 i := by
  unfold reconcileUnmapped at hr ⊢
  split at hr
  · rw [syncErrorSibling_sameSync.getRemoteId] at hr
    exact .inl hr
  · rename_i hs
    have hs : doc.status = "done" := not_not.mp hs
    have h2 : SameSync db (ensureDirs db (splitPath doc.path).1).1 := ensureDirs_sameSync
    have h3 : (ensureDirs db (splitPath doc.path).1).1.Bounded := ensureDirs_bounded h
    have h4 : db.nextIno ≤ (ensureDirs db (splitPath doc.path).1).1.nextIno := ensureDirs_next
    have h5 : NotDerived db i → NotDerived (ensureDirs db (splitPath doc.path).1).1 i := ensureDirs_notDerived
    unfold attachTarget
    dsimp only at hr ⊢
    rw [if_neg (not_not.mpr hs)]
    generalize ensureDirs db (splitPath doc.path).1 = dirs at h2 h3 h4 h5 hr ⊢
    split at hr
    · rename_i k hk
      rw [hk]
      by_cases hik : i = k
      · subst hik
        exact .inr (.inl ⟨rfl, fun hd => (reconcileAttach_mirrors (h3.childIno hk) (h5 hd)).1.notDerived (h5 hd)⟩)
      · refine .inl ?_
        unfold reconcileAttach at hr
        split_ifs at hr
        · have hr : (dirs.1.setRemoteId k doc.id).getRemoteId i = some rid := hr
          rwa [getRemoteId_setRemoteId, if_neg hik, h2.getRemoteId] at hr
        · dsimp only at hr
          rw [getRemoteId_setMirroredState, attachContent_sameSync.getRemoteId, getRemoteId_setRemoteId,
            if_neg hik, h2.getRemoteId] at hr
          exact hr
    · rename_i hk
      rw [hb] at hr ⊢
      rw [hk]
      by_cases hi : i = dirs.1.nextIno
      · refine .inr (.inr ⟨hi ▸ h4, ?_⟩)
        rw [hi]
        exact reconcileCreate_notDerived h3 hb
      · refine .inl ?_
        have hr : (reconcileCreate dirs.1 dirs.2 (splitPath doc.path).2 doc nowMs).2.getRemoteId i = some rid := hr
        unfold reconcileCreate at hr
        dsimp only at hr
        have hne : i ≠ (addFile dirs.1 dirs.2 (splitPath doc.path).2 (doc.content.getD [])).2 := hi
        rw [syncTranscriptionSibling_text hb, getRemoteId_setMirroredState, getRemoteId_setRemoteId,
          if_neg hne] at hr
        rw [← h2.getRemoteId]
        exact hr

/-- **A reconcile maps at most one inode to its document**: no other one gets
a document. -/
theorem reconcileOne_mapped {rid : String} (h : db.Bounded) (hb : doc.isBinaryType = false)
    (hr : (reconcileOne db doc nowMs).2.getRemoteId i = some rid) :
    db.getRemoteId i = some rid ∨ db.inoByRemoteId doc.id = none ∧
      (attachTarget db doc = some i ∧ (NotDerived db i → NotDerived (reconcileOne db doc nowMs).2 i) ∨
        db.nextIno ≤ i ∧ NotDerived (reconcileOne db doc nowMs).2 i) := by
  unfold reconcileOne at hr ⊢
  split at hr
  · rename_i k hk
    refine .inl ?_
    unfold reconcileMapped at hr
    split_ifs at hr
    · exact hr
    · rwa [siblings_sameSync.getRemoteId] at hr
    · have h1 : SameSync db (renameToDoc db k doc).2 := renameToDoc_sameSync
      split at hr
      · rename_i he
        rw [he] at h1
        rwa [h1.getRemoteId] at hr
      · rename_i he
        rw [he] at h1
        have hr : (reconcileContent _ k doc nowMs).getRemoteId i = some rid := hr
        unfold reconcileContent at hr
        split_ifs at hr
        · rwa [syncTranscriptionSibling_sameSync.getRemoteId, getRemoteId_setMirroredState,
            mirrorContent_sameSync.getRemoteId, h1.getRemoteId] at hr
        · rwa [syncErrorSibling_sameSync.getRemoteId, getRemoteId_setMirroredState, h1.getRemoteId] at hr
  · rename_i hk
    rw [hk]
    rcases reconcileUnmapped_mapped h hb hr with hr | hr
    · exact .inl hr
    · exact .inr ⟨rfl, hr⟩

/-- **A version is given to an inode only with its content.** -/
theorem reconcileOne_reconciled (h : db.Bounded) (hd : known → i < db.nextIno ∧ NotDerived db i) :
    Reconciled known i doc db (reconcileOne db doc nowMs).2 := by
  unfold reconcileOne
  split
  · rename_i k hk
    exact reconcileMapped_reconciled (getRemoteId_of_ino h.sorted hk) hd
  · exact reconcileUnmapped_reconciled h hd

end Lemmas

end Fs
end Smfs
