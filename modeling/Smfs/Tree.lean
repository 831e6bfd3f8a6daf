/-
# The tree of the cache

The helpers of `SupermemoryFs` (`cache/fs.rs`) that walk and change the tree:
paths of inodes, directories made on demand, whole contents replaced, and the
derived siblings that the server's answers leave next to a file.

A function that can fail returns the database beside its answer, since what
it did before it failed stays done.

Key definitions: `VfsError`, `Fs.Resolves`, `Fs.resolveFilepath`, `Fs.ensureDirs`, `Fs.rewriteFileContent`,
`Fs.applyRenameTo`, `Fs.createDerivedSibling`.
-/
import Smfs.Db

namespace Smfs

/-- `VfsError`. What an `Io` wraps is left out. -/
inductive VfsError
  | notFound
  | alreadyExists
  | notADirectory
  | isADirectory
  | notASymlink
  | notEmpty
  | invalidPath (msg : String)
  | nameTooLong (bytes : ℕ)
  | rootOperation
  | invalidRename
  | symlinkLoop
  | permissionDenied
  | notSupported
  | io
  deriving DecidableEq, Repr

namespace Fs

/-- `DERIVED_SIBLING_SUFFIXES`. -/
def derivedSiblingSuffixes : List String :=
  [".image-transcription.md", ".pdf-transcription.md", ".video-transcription.md",
    ".audio-transcription.md", ".webpage-transcription.md", ".smfs-error.txt"]

/-! ### Paths of inodes -/

/-- The names from the root down to an inode: the loop of `resolve_filepath`,
for at most `fuel` steps. -/
def resolveParts (db : Db) : ℕ → Ino → Option (List String)
  | 0, current => if current = ROOT_INO then some [] else none
  | fuel + 1, current =>
    if current = ROOT_INO then some []
    else
      match db.dentryOf current with
      | some d => (resolveParts db fuel d.parentIno).map (· ++ [d.name])
      | none => none

/-- A run of the loop of `resolve_filepath` from an inode to where it ends: at
the root, or at an inode without an entry. On a cycle the loop never ends. -/
inductive Resolves (db : Db) : Ino → Option (List String) → Prop
  | root : Resolves db ROOT_INO (some [])
  | lost {current : Ino} (hc : current ≠ ROOT_INO) (hd : db.dentryOf current = none) : Resolves db current none
  | up {current : Ino} {d : Dentry} {parts : Option (List String)} (hc : current ≠ ROOT_INO)
      (hd : db.dentryOf current = some d) (h : Resolves db d.parentIno parts) :
      Resolves db current (parts.map (· ++ [d.name]))

/-- `resolve_filepath` where its loop ends, which passes each entry once at
most; nothing where it does not, since a caller then gets no answer at all. -/
def resolveFilepath (db : Db) (ino : Ino) : Option String :=
  if ino = ROOT_INO then some "/"
  else (resolveParts db db.dentries.length ino).map fun parts => "/" ++ "/".intercalate parts

/-- One round of the loop of `ensure_dirs`. -/
def ensureDir (db : Db) (parentIno : Ino) (part : String) : Db × Ino :=
  match db.childIno parentIno part with
  | some ino => (db, ino)
  | none =>
    let added := db.addInode .dir 2 0 false
    ((added.1.addDentry part parentIno added.2).updInode parentIno fun i => { i with nlink := i.nlink + 1 },
      added.2)

/-- `ensure_dirs` over the names of a path. -/
def ensureParts (db : Db) (parentIno : Ino) : List String → Db × Ino
  | [] => (db, parentIno)
  | part :: parts => ensureParts (ensureDir db parentIno part).1 (ensureDir db parentIno part).2 parts

/-- `ensure_dirs`. What stands on the path is taken for a directory. -/
def ensureDirs (db : Db) (path : String) : Db × Ino := ensureParts db ROOT_INO (components path)

/-! ### Contents -/

/-- The chunks of `bytes.chunks(chunk_size)`, in at most `fuel` rounds. -/
def chunkRows (ino : Ino) : ℕ → ℕ → Bytes → List Chunk
  | 0, _, _ => []
  | fuel + 1, i, bytes =>
    if bytes.isEmpty then []
    else ⟨ino, i, bytes.take CHUNK_SIZE⟩ :: chunkRows ino fuel (i + 1) (bytes.drop CHUNK_SIZE)

/-- `DELETE FROM fs_data`, then one `INSERT` for each chunk. -/
def replaceData (db : Db) (ino : Ino) (bytes : Bytes) : Db :=
  let db := db.delData ino
  { db with data := db.data ++ chunkRows ino bytes.length 0 bytes }

/-- `rewrite_file_content`. -/
def rewriteFileContent (db : Db) (ino : Ino) (content : Bytes) : Db :=
  (replaceData db ino content).updInode ino fun i => { i with size := content.length }

/-- `rehydrate_raw_bytes`. -/
def rehydrateRawBytes (db : Db) (ino : Ino) (bytes : Bytes) : Db := rewriteFileContent db ino bytes

/-! ### Renames of a pull -/

/-- `UPDATE fs_dentry SET parent_ino = ?, name = ? WHERE ino = ?`; refused
where two entries would have one name. -/
def moveDentries (db : Db) (ino newParent : Ino) (newName : String) : Option Db :=
  if 2 ≤ (db.dentries.filter fun d => d.ino = ino).length ∨
      ∃ d ∈ db.dentries, d.ino ≠ ino ∧ d.parentIno = newParent ∧ d.name = newName then none
  else
    some { db with dentries := Table.modify Dentry.ino db.dentries ino fun d =>
      { d with parentIno := newParent, name := newName } }

/-- `apply_rename_to`. -/
def applyRenameTo (db : Db) (ino : Ino) (newDir newName : String) : Except VfsError Unit × Db :=
  let dirs := ensureDirs db newDir
  match dirs.1.dentryOf ino with
  | none => (.error .io, dirs.1)
  | some _ =>
    match moveDentries dirs.1 ino dirs.2 newName with
    | none => (.error .io, dirs.1)
    | some db => (.ok (), db)

/-! ### Derived siblings -/

/-- `SELECT d.ino, i.derived FROM fs_dentry d JOIN fs_inode i …`. -/
def childInode (db : Db) (parentIno : Ino) (name : String) : Option Inode :=
  (db.childIno parentIno name).bind db.getInode

/-- `remove_derived_sibling`. -/
def removeDerivedSibling (db : Db) (parentIno : Ino) (name : String) : Db :=
  match childInode db parentIno name with
  | none => db
  | some i => if i.derived then ((db.delChild parentIno name).delData i.ino).delInode i.ino else db

/-- `cascade_unlink_derived_siblings`. -/
def cascadeUnlinkDerivedSiblings (db : Db) (parentIno : Ino) (name : String) : Db :=
  derivedSiblingSuffixes.foldl (fun db suffix => removeDerivedSibling db parentIno (name ++ suffix)) db

/-- `rename_derived_sibling`: whatever stands at the new name loses it. -/
def renameDerivedSibling (db : Db) (oldParent : Ino) (oldName : String) (newParent : Ino)
    (newName : String) : Db :=
  match childInode db oldParent oldName with
  | none => db
  | some i =>
    if i.derived then
      (moveDentries (db.delChild newParent newName) i.ino newParent newName).getD
        (db.delChild newParent newName)
    else db

/-- `cascade_rename_derived_siblings`. -/
def cascadeRenameDerivedSiblings (db : Db) (oldParent : Ino) (oldName : String) (newParent : Ino)
    (newName : String) : Db :=
  derivedSiblingSuffixes.foldl
    (fun db suffix => renameDerivedSibling db oldParent (oldName ++ suffix) newParent (newName ++ suffix)) db

/-- `create_derived_sibling` once its directory is there. -/
def createDerivedAt (db : Db) (parentIno : Ino) (filename : String) (content : Bytes) :
    Except VfsError Ino × Db :=
  match childInode db parentIno filename with
  | some i =>
    if i.derived then (.ok i.ino, rewriteFileContent db i.ino content)
    else (.error .alreadyExists, db)
  | none =>
    let added := db.addInode .reg 1 content.length true
    -- an entry without an inode is not found by the join, but keeps its name
    if (db.child parentIno filename).isSome then (.error .io, added.1)
    else
      let db := added.1.addDentry filename parentIno added.2
      (.ok added.2, { db with data := db.data ++ chunkRows added.2 content.length 0 content })

/-- `create_derived_sibling`: write a derived file, or refuse where a file
that is not derived has the name. -/
def createDerivedSibling (db : Db) (filepath : String) (content : Bytes) : Except VfsError Ino × Db :=
  if filepath.toList.contains '/' = false then
    (.error (.invalidPath "derived sibling needs path"), db)
  else if (splitPath filepath).2.isEmpty then
    (.error (.invalidPath "derived sibling needs filename"), db)
  else
    let dirs := ensureDirs db (splitPath filepath).1
    createDerivedAt dirs.1 dirs.2 (splitPath filepath).2 content

/-- `create_raw_stub` once its directory is there. -/
def createStubAt (db : Db) (parentIno : Ino) (filename : String) : Ino × Db :=
  match db.childIno parentIno filename with
  | some ino => (ino, db)
  | none =>
    let added := db.addInode .reg 1 0 false
    (added.2, added.1.addDentry filename parentIno added.2)

/-- `create_raw_stub`. -/
def createRawStub (db : Db) (filepath : String) : Except VfsError Ino × Db :=
  if filepath.toList.contains '/' = false then (.error (.invalidPath "stub needs slashed path"), db)
  else if (splitPath filepath).2.isEmpty then (.error (.invalidPath "stub needs filename"), db)
  else
    let dirs := ensureDirs db (splitPath filepath).1
    let stub := createStubAt dirs.1 dirs.2 (splitPath filepath).2
    (.ok stub.1, stub.2)

/-! ### Which files and tables the helpers leave alone -/

section Lemmas

open Db

variable {db : Db} {i j : Ino}

theorem ensureDir_keeps {parentIno : Ino} {part : String} (h : i < db.nextIno) :
    Keeps i db (ensureDir db parentIno part).1 := by
  unfold ensureDir
  split
  · exact .refl _ _
  · have hadd : Keeps i db (db.addInode .dir 2 0 false).1 := keeps_addInode h
    exact (hadd.trans keeps_addDentry).trans (keeps_updNlink (f := fun n => n + 1))

theorem ensureParts_keeps {parts : List String} : ∀ {db : Db} {parentIno : Ino}, i < db.nextIno →
    Keeps i db (ensureParts db parentIno parts).1 := by
  induction parts with
  | nil => exact fun _ => .refl _ _
  | cons part parts ih =>
    intro db parentIno h
    have h1 : Keeps i db (ensureDir db parentIno part).1 := ensureDir_keeps h
    exact h1.trans (ih (h.trans_le h1.next))

theorem ensureDirs_keeps {path : String} (h : i < db.nextIno) : Keeps i db (ensureDirs db path).1 :=
  ensureParts_keeps h

theorem ensureDir_sameSync {parentIno : Ino} {part : String} :
    SameSync db (ensureDir db parentIno part).1 := by
  unfold ensureDir
  split
  · exact .refl _
  · exact ⟨rfl, rfl, rfl⟩

theorem ensureParts_sameSync {parts : List String} : ∀ {db : Db} {parentIno : Ino},
    SameSync db (ensureParts db parentIno parts).1 := by
  induction parts with
  | nil => exact .refl _
  | cons part parts ih => exact ensureDir_sameSync.trans ih

theorem ensureDirs_sameSync {path : String} : SameSync db (ensureDirs db path).1 :=
  ensureParts_sameSync

theorem chunkRows_ino {fuel n : ℕ} {bytes : Bytes} {c : Chunk} (h : c ∈ chunkRows j fuel n bytes) :
    c.ino = j := by
  induction fuel generalizing n bytes with
  | zero => cases h
  | succ fuel ih =>
    unfold chunkRows at h
    split_ifs at h with hb
    · cases h
    · rcases List.mem_cons.mp h with rfl | h
      · rfl
      · exact ih h

theorem rewriteFileContent_keeps {content : Bytes} (h : i ≠ j) :
    Keeps i db (rewriteFileContent db j content) := by
  have hdel : Keeps i db (db.delData j) := keeps_delData h
  have hadd : Keeps i (db.delData j) (replaceData db j content) :=
    keeps_addChunks fun c hc he => h (he.symm.trans (chunkRows_ino hc))
  exact (hdel.trans hadd).trans (keeps_updInode (fun _ => rfl) h)

theorem rewriteFileContent_sameSync {content : Bytes} : SameSync db (rewriteFileContent db j content) :=
  ⟨rfl, rfl, rfl⟩

theorem chunksOf_rewrite {content : Bytes} :
    (rewriteFileContent db i content).chunksOf i = chunkRows i content.length 0 content := by
  have hrows : (chunkRows i content.length 0 content).filter (fun c => c.ino = i) =
      chunkRows i content.length 0 content :=
    List.filter_eq_self.mpr fun c hc => by simpa using chunkRows_ino hc
  have hdel : (db.delData i).chunksOf i = [] := by rw [chunksOf_delData, if_pos rfl]
  show ((db.delData i).data ++ chunkRows i content.length 0 content).filter (fun c => c.ino = i) = _
  rw [List.filter_append, hrows]
  exact (congrArg (· ++ chunkRows i content.length 0 content) hdel).trans (List.nil_append _)

theorem fileOf_rewrite {content : Bytes} : (rewriteFileContent db i content).fileOf i =
    (db.fileOf i).map fun x => { x with size := content.length } := by
  unfold fileOf rewriteFileContent
  have hf : ∀ x : Inode, ({ x with size := content.length } : Inode).ino = x.ino := fun _ => rfl
  rw [getInode_updInode hf, if_pos rfl]
  show ((db.getInode i).map _).map _ = _
  cases db.getInode i <;> rfl

/-- The file was rewritten with a content, and nothing else of it changed. -/
structure Rewrote (i : Ino) (content : Bytes) (db db' : Db) : Prop where
  file : db'.fileOf i = (db.fileOf i).map fun x => { x with size := content.length }
  chunks : db'.chunksOf i = chunkRows i content.length 0 content
  next : db.nextIno ≤ db'.nextIno

theorem rewriteFileContent_rewrote {content : Bytes} :
    Rewrote i content db (rewriteFileContent db i content) :=
  ⟨fileOf_rewrite, chunksOf_rewrite, le_rfl⟩

theorem Rewrote.keeps {content : Bytes} {db₁ db₂ db₃ : Db} (h : Rewrote i content db₁ db₂)
    (h' : Keeps i db₂ db₃) : Rewrote i content db₁ db₃ :=
  ⟨h'.file.trans h.file, h'.chunks.trans h.chunks, h.next.trans h'.next⟩

theorem Keeps.rewrote {content : Bytes} {db₁ db₂ db₃ : Db} (h : Keeps i db₁ db₂)
    (h' : Rewrote i content db₂ db₃) : Rewrote i content db₁ db₃ :=
  ⟨h'.file.trans (by rw [h.file]), h'.chunks, h.next.trans h'.next⟩

theorem Rewrote.dirty {content : Bytes} {db' : Db} (h : Rewrote i content db db') :
    db'.getDirtySince i = db.getDirtySince i := by
  rw [getDirtySince_eq, getDirtySince_eq, h.file]
  cases db.fileOf i <;> rfl

theorem moveDentries_keeps {db' : Db} {newParent : Ino} {newName : String}
    (h : moveDentries db j newParent newName = some db') : Keeps i db db' ∧ SameSync db db' := by
  unfold moveDentries at h
  split_ifs at h
  cases h
  exact ⟨.of_eq rfl rfl rfl, ⟨rfl, rfl, rfl⟩⟩

theorem applyRenameTo_keeps {newDir newName : String} (h : i < db.nextIno) :
    Keeps i db (applyRenameTo db j newDir newName).2 := by
  have h1 : Keeps i db (ensureDirs db newDir).1 := ensureDirs_keeps h
  unfold applyRenameTo
  dsimp only
  split
  · exact h1
  · split
    · exact h1
    · rename_i hm
      exact h1.trans (moveDentries_keeps hm).1

theorem applyRenameTo_sameSync {newDir newName : String} :
    SameSync db (applyRenameTo db j newDir newName).2 := by
  have h1 : SameSync db (ensureDirs db newDir).1 := ensureDirs_sameSync
  unfold applyRenameTo
  dsimp only
  split
  · exact h1
  · split
    · exact h1
    · rename_i hm
      exact h1.trans (moveDentries_keeps (i := j) hm).2

/-- The inode is not a derived sibling. -/
def NotDerived (db : Db) (i : Ino) : Prop := ∀ x, db.fileOf i = some x → x.derived = false

theorem NotDerived.keeps {db' : Db} (h : NotDerived db i) (hk : Keeps i db db') : NotDerived db' i := by
  unfold NotDerived
  rw [hk.file]
  exact h

theorem NotDerived.rewrote {content : Bytes} {db' : Db} (h : NotDerived db i)
    (hk : Rewrote i content db db') : NotDerived db' i := by
  intro x hx
  rw [hk.file] at hx
  obtain ⟨y, hy, rfl⟩ := Option.map_eq_some_iff.mp hx
  exact h y hy

theorem NotDerived.ne (h : NotDerived db i) {x : Inode} (hx : db.getInode j = some x)
    (hd : x.derived = true) : i ≠ x.ino := by
  intro he
  have hg : db.getInode x.ino = some x := by rw [getInode_ino hx, hx]
  have hf : db.fileOf i = some { x with nlink := 0 } := by
    rw [he, fileOf, hg]
    rfl
  have := h _ hf
  exact absurd (hd.symm.trans this) (by decide)

theorem childInode_some {parentIno : Ino} {name : String} {x : Inode}
    (h : childInode db parentIno name = some x) : db.getInode x.ino = some x := by
  obtain ⟨k, -, hk⟩ := Option.bind_eq_some_iff.mp h
  rw [getInode_ino hk, hk]

theorem removeDerivedSibling_sameSync {parentIno : Ino} {name : String} :
    SameSync db (removeDerivedSibling db parentIno name) := by
  unfold removeDerivedSibling
  split
  · exact .refl _
  · split_ifs
    · exact ⟨rfl, rfl, rfl⟩
    · exact .refl _

theorem renameDerivedSibling_keeps {oldParent newParent : Ino} {oldName newName : String} :
    Keeps i db (renameDerivedSibling db oldParent oldName newParent newName) ∧
      SameSync db (renameDerivedSibling db oldParent oldName newParent newName) := by
  unfold renameDerivedSibling
  split
  · exact ⟨.refl _ _, .refl _⟩
  · rename_i x hx
    split_ifs
    · have h1 : Keeps i db (db.delChild newParent newName) := keeps_delChild
      have h2 : SameSync db (db.delChild newParent newName) := ⟨rfl, rfl, rfl⟩
      cases hm : moveDentries (db.delChild newParent newName) x.ino newParent newName with
      | none => exact ⟨h1, h2⟩
      | some db' =>
        obtain ⟨hk, hs⟩ := moveDentries_keeps (i := i) hm
        exact ⟨h1.trans hk, h2.trans hs⟩
    · exact ⟨.refl _ _, .refl _⟩

/-- What every round of a loop over the suffixes keeps, the loop keeps. -/
theorem foldl_keeps {f : Db → String → Db} {R : Db → Db → Prop} (hrefl : ∀ d, R d d)
    (htrans : ∀ {a b c}, R a b → R b c → R a c) (hf : ∀ d suffix, R db d → R d (f d suffix))
    (l : List String) : R db (l.foldl f db) := by
  have key : ∀ (l : List String) (d : Db), R db d → R db (l.foldl f d) := by
    intro l
    induction l with
    | nil => exact fun d h => h
    | cons a l ih => exact fun d h => ih _ (htrans h (hf d a h))
  exact key l db (hrefl db)

theorem cascadeUnlink_sameSync {parentIno : Ino} {name : String} :
    SameSync db (cascadeUnlinkDerivedSiblings db parentIno name) :=
  foldl_keeps SameSync.refl SameSync.trans (fun _ _ _ => removeDerivedSibling_sameSync) _

theorem cascadeRename_keeps {oldParent newParent : Ino} {oldName newName : String} :
    Keeps i db (cascadeRenameDerivedSiblings db oldParent oldName newParent newName) :=
  foldl_keeps (Keeps.refl i) Keeps.trans (fun _ _ _ => renameDerivedSibling_keeps.1) _

theorem cascadeRename_sameSync {oldParent newParent : Ino} {oldName newName : String} :
    SameSync db (cascadeRenameDerivedSiblings db oldParent oldName newParent newName) :=
  foldl_keeps SameSync.refl SameSync.trans
    (fun _ _ _ => (renameDerivedSibling_keeps (i := ROOT_INO)).2) _

/-- No cascade finds a sibling. -/
theorem cascadeUnlink_plain {p : Ino} {name : String} (h : ∀ x ∈ db.inodes, x.derived = false) :
    cascadeUnlinkDerivedSiblings db p name = db := by
  have hround (n : String) : removeDerivedSibling db p n = db := by
    unfold removeDerivedSibling
    split
    · rfl
    · rename_i x hx
      rw [if_neg]
      rw [h x (Table.get_some (childInode_some hx)).1]
      exact Bool.false_ne_true
  unfold cascadeUnlinkDerivedSiblings
  induction derivedSiblingSuffixes with
  | nil => rfl
  | cons a l ih => rw [List.foldl_cons, hround, ih]

theorem renameDerivedSibling_plain {p p' : Ino} {name name' : String} (h : ∀ x ∈ db.inodes, x.derived = false) :
    renameDerivedSibling db p name p' name' = db := by
  unfold renameDerivedSibling
  split
  · rfl
  · rename_i x hx
    rw [if_neg]
    rw [h x (Table.get_some (childInode_some hx)).1]
    exact Bool.false_ne_true

theorem cascadeRename_plain {p p' : Ino} {name name' : String} (h : ∀ x ∈ db.inodes, x.derived = false) :
    cascadeRenameDerivedSiblings db p name p' name' = db := by
  unfold cascadeRenameDerivedSiblings
  induction derivedSiblingSuffixes with
  | nil => rfl
  | cons a l ih => rw [List.foldl_cons, renameDerivedSibling_plain h, ih]

theorem createDerivedAt_keeps {parentIno : Ino} {filename : String} {content : Bytes}
    (h : i < db.nextIno) (hd : NotDerived db i) :
    Keeps i db (createDerivedAt db parentIno filename content).2 := by
  unfold createDerivedAt
  split
  · rename_i x hx
    split_ifs with hdx
    · exact rewriteFileContent_keeps (hd.ne (childInode_some hx) hdx)
    · exact .refl _ _
  · have h1 : Keeps i db (db.addInode .reg 1 content.length true).1 := keeps_addInode h
    dsimp only
    split_ifs
    · exact h1
    · have h2 : Keeps i db ((db.addInode .reg 1 content.length true).1.addDentry filename parentIno
          (db.addInode .reg 1 content.length true).2) := h1.trans keeps_addDentry
      refine h2.trans (keeps_addChunks fun c hc he => ?_)
      exact h.ne (he.symm.trans (chunkRows_ino hc))

theorem createDerivedAt_sameSync {parentIno : Ino} {filename : String} {content : Bytes} :
    SameSync db (createDerivedAt db parentIno filename content).2 := by
  unfold createDerivedAt
  split
  · split_ifs
    · exact rewriteFileContent_sameSync
    · exact .refl _
  · dsimp only
    split_ifs <;> exact ⟨rfl, rfl, rfl⟩

theorem createDerivedSibling_keeps {filepath : String} {content : Bytes} (h : i < db.nextIno)
    (hd : NotDerived db i) : Keeps i db (createDerivedSibling db filepath content).2 := by
  have h1 : Keeps i db (ensureDirs db (splitPath filepath).1).1 := ensureDirs_keeps h
  unfold createDerivedSibling
  split_ifs
  · exact .refl _ _
  · exact .refl _ _
  · exact h1.trans (createDerivedAt_keeps (h.trans_le h1.next) (hd.keeps h1))

theorem createDerivedSibling_sameSync {filepath : String} {content : Bytes} :
    SameSync db (createDerivedSibling db filepath content).2 := by
  unfold createDerivedSibling
  split_ifs
  · exact .refl _
  · exact .refl _
  · exact ensureDirs_sameSync.trans createDerivedAt_sameSync

theorem createStubAt_keeps {parentIno : Ino} {filename : String} (h : i < db.nextIno) :
    Keeps i db (createStubAt db parentIno filename).2 := by
  unfold createStubAt
  split
  · exact .refl _ _
  · exact (keeps_addInode h).trans keeps_addDentry

theorem createStubAt_sameSync {parentIno : Ino} {filename : String} :
    SameSync db (createStubAt db parentIno filename).2 := by
  unfold createStubAt
  split
  · exact .refl _
  · exact ⟨rfl, rfl, rfl⟩

theorem createRawStub_keeps {filepath : String} (h : i < db.nextIno) :
    Keeps i db (createRawStub db filepath).2 := by
  have h1 : Keeps i db (ensureDirs db (splitPath filepath).1).1 := ensureDirs_keeps h
  unfold createRawStub
  split_ifs
  · exact .refl _ _
  · exact .refl _ _
  · dsimp only
    exact h1.trans (createStubAt_keeps (h.trans_le h1.next))

theorem createRawStub_sameSync {filepath : String} : SameSync db (createRawStub db filepath).2 := by
  unfold createRawStub
  split_ifs
  · exact .refl _
  · exact .refl _
  · dsimp only
    exact ensureDirs_sameSync.trans createStubAt_sameSync

/-! ### Contents -/

theorem chunkRows_index {fuel n : ℕ} {bytes : Bytes} {c : Chunk} (h : c ∈ chunkRows j fuel n bytes) :
    n ≤ c.index := by
  induction fuel generalizing n bytes with
  | zero => cases h
  | succ fuel ih =>
    unfold chunkRows at h
    split_ifs at h
    · cases h
    · rcases List.mem_cons.mp h with rfl | h
      · exact le_rfl
      · exact (Nat.le_succ n).trans (ih h)

theorem chunkRows_sorted {fuel n : ℕ} {bytes : Bytes} :
    (chunkRows j fuel n bytes).Pairwise fun a b => a.index ≤ b.index := by
  induction fuel generalizing n bytes with
  | zero => exact .nil
  | succ fuel ih =>
    unfold chunkRows
    split_ifs
    · exact .nil
    · exact .cons (fun c hc => (Nat.le_succ n).trans (chunkRows_index hc)) ih

theorem chunkRows_data {fuel n : ℕ} {bytes : Bytes} (h : bytes.length ≤ fuel) :
    (chunkRows j fuel n bytes).flatMap Chunk.data = bytes := by
  induction fuel generalizing n bytes with
  | zero =>
    have hb : bytes = [] := List.length_eq_zero_iff.mp (Nat.le_zero.mp h)
    rw [hb]
    rfl
  | succ fuel ih =>
    unfold chunkRows
    cases bytes with
    | nil => rfl
    | cons b bytes =>
      have hlen : ((b :: bytes).drop CHUNK_SIZE).length ≤ fuel := by
        have hpos : 0 < CHUNK_SIZE := by decide
        rw [List.length_drop, List.length_cons] at *
        omega
      rw [if_neg (by simp), List.flatMap_cons, ih hlen, List.take_append_drop]

/-- A file that holds the chunks of a content has that content. -/
theorem readAllContent_of_rows {x : Inode} {content : Bytes} (hf : db.fileOf i = some x)
    (hs : x.size = content.length) (hc : db.chunksOf i = chunkRows i content.length 0 content) :
    db.readAllContent i = content := by
  obtain ⟨y, hy, rfl⟩ := Option.map_eq_some_iff.mp hf
  have hs : y.size = content.length := hs
  unfold readAllContent
  rw [hy, hc]
  dsimp only
  rw [chunkRows_sorted.insertionSort_eq, chunkRows_data le_rfl, hs]
  cases content with
  | nil => rfl
  | cons b content =>
    have hpos : ¬ ((List.length (b :: content) : ℕ) : ℤ) ≤ 0 := by
      rw [List.length_cons]
      omega
    rw [if_neg hpos, Int.toNat_natCast, List.take_length]

theorem Rewrote.content {content : Bytes} {db' : Db} (h : Rewrote i content db db')
    (hi : (db'.getInode i).isSome = true) : db'.readAllContent i = content := by
  obtain ⟨x, hx⟩ := Option.isSome_iff_exists.mp hi
  have hf : db'.fileOf i = some { x with nlink := 0 } := by
    unfold fileOf
    rw [hx]
    rfl
  have hf' := hf
  rw [h.file] at hf'
  obtain ⟨y, -, hy⟩ := Option.map_eq_some_iff.mp hf'
  exact readAllContent_of_rows hf (by rw [← hy]) h.chunks

/-- New directories are not derived. -/
theorem ensureDir_notDerived {parentIno : Ino} {part : String} (hd : NotDerived db i) :
    NotDerived (ensureDir db parentIno part).1 i := by
  have hadd : NotDerived (db.addInode .dir 2 0 false).1 i := by
    intro x hx
    have hx : (Table.get Inode.ino (db.inodes ++ [⟨db.nextIno, .dir, 2, 0, none, false⟩]) i).map
        (fun x => { x with nlink := 0 }) = some x := hx
    rw [Table.get_append, Table.get_cons, Table.get_nil] at hx
    cases hg : Table.get Inode.ino db.inodes i with
    | some y =>
      rw [hg] at hx
      refine hd x ?_
      show (Table.get Inode.ino db.inodes i).map _ = _
      rw [hg]
      exact hx
    | none =>
      rw [hg, Option.none_or] at hx
      split_ifs at hx <;> cases hx
      rfl
  unfold ensureDir
  split
  · exact hd
  · exact hadd.keeps (keeps_addDentry.trans (keeps_updNlink (f := fun n => n + 1)))

theorem ensureParts_notDerived {parts : List String} : ∀ {db : Db} {parentIno : Ino}, NotDerived db i →
    NotDerived (ensureParts db parentIno parts).1 i := by
  induction parts with
  | nil => exact fun h => h
  | cons part parts ih => exact fun h => ih (ensureDir_notDerived h)

theorem ensureDirs_notDerived {path : String} (hd : NotDerived db i) : NotDerived (ensureDirs db path).1 i :=
  ensureParts_notDerived hd

/-! ### Inode numbers -/

theorem ensureDir_bounded {parentIno : Ino} {part : String} (h : db.Bounded) :
    (ensureDir db parentIno part).1.Bounded := by
  unfold ensureDir
  split
  · exact h
  · exact ((h.addInode).addDentry (Nat.lt_succ_self _)).updInode fun _ => rfl

theorem ensureParts_bounded {parts : List String} : ∀ {db : Db} {parentIno : Ino}, db.Bounded →
    (ensureParts db parentIno parts).1.Bounded := by
  induction parts with
  | nil => exact fun h => h
  | cons part parts ih => exact fun h => ih (ensureDir_bounded h)

theorem ensureDir_next {parentIno : Ino} {part : String} :
    db.nextIno ≤ (ensureDir db parentIno part).1.nextIno := by
  unfold ensureDir
  split
  · exact le_rfl
  · exact Nat.le_succ _

theorem ensureParts_next {parts : List String} : ∀ {db : Db} {parentIno : Ino},
    db.nextIno ≤ (ensureParts db parentIno parts).1.nextIno := by
  induction parts with
  | nil => exact le_rfl
  | cons part parts ih => exact ensureDir_next.trans ih

theorem ensureDirs_next {path : String} : db.nextIno ≤ (ensureDirs db path).1.nextIno := ensureParts_next

theorem ensureDirs_bounded {path : String} (h : db.Bounded) : (ensureDirs db path).1.Bounded :=
  ensureParts_bounded h

theorem rewriteFileContent_next {content : Bytes} : (rewriteFileContent db j content).nextIno = db.nextIno := rfl

theorem rewriteFileContent_bounded {content : Bytes} (h : db.Bounded) (hj : j < db.nextIno) :
    (rewriteFileContent db j content).Bounded := by
  have hadd : (replaceData db j content).Bounded :=
    (h.delData (i := j)).addChunks fun c hc => by
      rw [chunkRows_ino hc]
      exact hj
  exact hadd.updInode fun _ => rfl

theorem moveDentries_bounded {db' : Db} {newParent : Ino} {newName : String} (h : db.Bounded)
    (hm : moveDentries db j newParent newName = some db') : db'.Bounded := by
  unfold moveDentries at hm
  split_ifs at hm
  cases hm
  refine ⟨h.inodes, fun d hd => ?_, h.data, h.remotes, h.sorted⟩
  obtain ⟨x, hx, rfl⟩ := Table.mem_modify.mp hd
  have := h.dentries x hx
  split_ifs <;> exact this

theorem applyRenameTo_bounded {newDir newName : String} (h : db.Bounded) :
    (applyRenameTo db j newDir newName).2.Bounded := by
  have h1 : (ensureDirs db newDir).1.Bounded := ensureDirs_bounded h
  unfold applyRenameTo
  dsimp only
  split
  · exact h1
  · split
    · exact h1
    · rename_i hm
      exact moveDentries_bounded h1 hm

theorem createDerivedAt_bounded {parentIno : Ino} {filename : String} {content : Bytes} (h : db.Bounded) :
    (createDerivedAt db parentIno filename content).2.Bounded := by
  unfold createDerivedAt
  split
  · rename_i x hx
    split_ifs
    · exact rewriteFileContent_bounded h (h.getInode (childInode_some hx))
    · exact h
  · dsimp only
    split_ifs
    · exact h.addInode
    · refine ((h.addInode).addDentry (Nat.lt_succ_self _)).addChunks fun c hc => ?_
      rw [chunkRows_ino hc]
      exact Nat.lt_succ_self _

theorem createDerivedSibling_bounded {filepath : String} {content : Bytes} (h : db.Bounded) :
    (createDerivedSibling db filepath content).2.Bounded := by
  unfold createDerivedSibling
  split_ifs
  · exact h
  · exact h
  · exact createDerivedAt_bounded (ensureDirs_bounded h)

theorem createDerivedAt_next {parentIno : Ino} {filename : String} {content : Bytes} :
    db.nextIno ≤ (createDerivedAt db parentIno filename content).2.nextIno := by
  unfold createDerivedAt
  split
  · split_ifs
    · exact rewriteFileContent_next.ge
    · exact le_rfl
  · dsimp only
    split_ifs
    · exact Nat.le_succ _
    · exact Nat.le_succ _

theorem createDerivedSibling_next {filepath : String} {content : Bytes} :
    db.nextIno ≤ (createDerivedSibling db filepath content).2.nextIno := by
  unfold createDerivedSibling
  split_ifs
  · exact le_rfl
  · exact le_rfl
  · have hd : db.nextIno ≤ (ensureDirs db (splitPath filepath).1).1.nextIno := ensureDirs_next
    dsimp only
    exact le_trans hd createDerivedAt_next

theorem createStubAt_bounded {parentIno : Ino} {filename : String} (h : db.Bounded) :
    (createStubAt db parentIno filename).2.Bounded ∧
      (createStubAt db parentIno filename).1 < (createStubAt db parentIno filename).2.nextIno := by
  unfold createStubAt
  split
  · rename_i hc
    exact ⟨h, h.childIno hc⟩
  · exact ⟨(h.addInode).addDentry (Nat.lt_succ_self _), Nat.lt_succ_self _⟩

end Lemmas

end Fs
end Smfs
