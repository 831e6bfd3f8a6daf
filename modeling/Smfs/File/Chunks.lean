/-
# The rows of the chunk table

Every call that changes the bytes of a file writes, cuts or replaces rows of
`fs_data` and stores the size by itself. In every state that the calls reach,
from the empty database, each row belongs to an inode, has between one byte and
`CHUNK_SIZE`, and lies below the inode's size (`rows_within`). So what a
shorter size cut off is gone: a file that is made longer again has zeros there
(`regrown`).

Key definitions: `Chunks.Act`, `Chunks.Within`, `Chunks.Filed`, `Chunks.Fits`.
Key theorems: `Chunks.Fits.step`, `Chunks.rows_within`.
-/
import Smfs.File.Pushed

namespace Smfs
namespace Chunks

open Trans Db Flat Fs

/-- The calls that store chunks, and the one that makes a new file. -/
inductive Act
  | createFile (online : Bool) (parentIno : Ino) (name : String)
  | write (f : SqliteFile) (offset : ℕ) (data : Bytes) (nowMs : ℤ)
  | truncate (f : SqliteFile) (size : ℕ)
  | setattr (ino : Ino) (size : ℕ)
  | rewriteFileContent (ino : Ino) (content : Bytes)
  | rehydrateRawBytes (ino : Ino) (bytes : Bytes)
  | createDerivedSibling (filepath : String) (content : Bytes)

def Act.apply (db : Db) : Act → Db
  | .createFile online parentIno name => (Fs.createFile db online parentIno name).2
  | .write f offset data nowMs => (f.write db offset data nowMs).2
  | .truncate f size => f.truncate db size
  | .setattr ino size => (setattrSize db ino size).2
  | .rewriteFileContent ino content => Fs.rewriteFileContent db ino content
  | .rehydrateRawBytes ino bytes => Fs.rehydrateRawBytes db ino bytes
  | .createDerivedSibling filepath content => (Fs.createDerivedSibling db filepath content).2

/-- Sizes are below `2 ^ 63`, and a content is written to an inode. -/
def Act.Ok (db : Db) : Act → Prop
  | .truncate _ size => size < 2 ^ 63
  | .setattr _ size => size < 2 ^ 63
  | .rewriteFileContent ino content => (db.getInode ino).isSome = true ∧ content.length < 2 ^ 63
  | .rehydrateRawBytes ino bytes => (db.getInode ino).isSome = true ∧ bytes.length < 2 ^ 63
  | .createDerivedSibling _ content => content.length < 2 ^ 63
  | _ => True

instance : DecidableRel Act.Ok := fun db a => by
  cases a <;> unfold Act.Ok <;> infer_instance

def step (db : Db) (a : Act) : Option Db := some (a.apply db)

/-- Every row has an inode, between one byte and a chunk's, and all of them
below the size. -/
def Within (db : Db) : Prop :=
  ∀ c ∈ db.data, ∃ i, db.getInode c.ino = some i ∧ 1 ≤ c.data.length ∧ c.data.length ≤ CHUNK_SIZE ∧
    ∀ j < c.data.length, ((c.index * CHUNK_SIZE + j : ℕ) : ℤ) < i.size

/-! ### The invariant -/

/-- The size of an inode; zero where there is none. -/
def sizeOf (db : Db) (ino : Ino) : ℤ := ((db.fileOf ino).map Inode.size).getD 0

/-- The chunks of an inode lie within its size, and none is empty. -/
structure Filed (db : Db) (ino : Ino) (size : ℕ) : Prop where
  range : size < 2 ^ 63
  column : sizeOf db ino = size
  chunked : Chunked db ino size
  solid : ∀ c ∈ db.chunksOf ino, c.data ≠ []

structure Fits (db : Db) : Prop where
  bounded : db.Bounded
  filed : ∀ ino, ∃ size, Filed db ino size

section Lemmas

variable {db db' : Db} {ino i : Ino} {f : SqliteFile} {n size : ℕ}

theorem sizeOf_some {x : Inode} (h : db.getInode ino = some x) : sizeOf db ino = x.size := by
  simp [sizeOf, fileOf, h]

theorem sizeOf_none (h : db.getInode ino = none) : sizeOf db ino = 0 := by simp [sizeOf, fileOf, h]

theorem Filed.keeps (h : Filed db ino size) (hk : Keeps ino db db') : Filed db' ino size := by
  have hsize : sizeOf db' ino = sizeOf db ino := by rw [sizeOf, sizeOf, hk.file]
  have hchunks := hk.chunks
  refine ⟨h.range, hsize.trans h.column, ⟨?_, ?_, ?_⟩, ?_⟩ <;> rw [hchunks]
  · exact h.chunked.nodup
  · exact h.chunked.short
  · exact h.chunked.within
  · exact h.solid

/-- An inode that is not there has no chunks. -/
theorem Filed.chunks_none (h : Filed db ino size) (hi : db.getInode ino = none) : db.chunksOf ino = [] := by
  have h0 : size = 0 := by
    have := h.column
    rw [sizeOf_none hi] at this
    omega
  rw [List.eq_nil_iff_forall_not_mem]
  intro c hc
  have hwithin := h.chunked.within c hc
  have hpos := List.length_pos_iff.mpr (h.solid c hc)
  omega

theorem filed_nil (hn : n < 2 ^ 63) (hs : sizeOf db ino = n) (hc : db.chunksOf ino = []) : Filed db ino n := by
  refine ⟨hn, hs, ⟨?_, ?_, ?_⟩, ?_⟩ <;> rw [hc]
  · exact List.nodup_nil
  · exact fun _ hc => absurd hc List.not_mem_nil
  · exact fun _ hc => absurd hc List.not_mem_nil
  · exact fun _ hc => absurd hc List.not_mem_nil

/-- What keeps all inodes but one, and files that one, fits. -/
theorem Fits.other (h : Fits db) (hb : db'.Bounded) (hk : ∀ j ≠ ino, Keeps j db db')
    (hf : ∃ size, Filed db' ino size) : Fits db' := by
  refine ⟨hb, fun j => ?_⟩
  by_cases hj : j = ino
  · exact hj ▸ hf
  · obtain ⟨n, hn⟩ := h.filed j
    exact ⟨n, hn.keeps (hk j hj)⟩

theorem Fits.all (h : Fits db) (hb : db'.Bounded) (hk : ∀ j, Keeps j db db') : Fits db' :=
  ⟨hb, fun j => (h.filed j).imp fun _ hn => hn.keeps (hk j)⟩

theorem fits_fresh : Fits .fresh := by
  refine ⟨?_, fun ino => ⟨0, filed_nil (by decide) ?_ rfl⟩⟩
  · exact ⟨by decide, by decide, by decide, by decide, by decide⟩
  · by_cases h : ino = ROOT_INO
    · subst h
      decide
    · apply sizeOf_none
      have hne : ¬ rootInode.ino = ino := fun he => h he.symm
      show Table.get Inode.ino [rootInode] ino = none
      rw [Table.get_cons, if_neg hne, Table.get_nil]

/-- **The rows of a state that fits are within.** -/
theorem Fits.within (h : Fits db) : Within db := by
  intro c hc
  obtain ⟨n, hn⟩ := h.filed c.ino
  have hmem : c ∈ db.chunksOf c.ino := List.mem_filter.mpr ⟨hc, decide_eq_true rfl⟩
  have hpos := List.length_pos_iff.mpr (hn.solid c hmem)
  rcases hi : db.getInode c.ino with _ | x
  · rw [hn.chunks_none hi] at hmem
    exact absurd hmem List.not_mem_nil
  · refine ⟨x, rfl, hpos, hn.chunked.short c hmem, fun j hj => ?_⟩
    have hwithin := hn.chunked.within c hmem
    rw [← sizeOf_some hi, hn.column]
    omega

/-! ### Writes and truncates -/

theorem writeChunks_solid (ino : Ino) : ∀ {fuel off : ℕ} {data : Bytes} {db : Db},
    (∀ c ∈ db.chunksOf ino, c.data ≠ []) →
      ∀ c ∈ (SqliteFile.writeChunks db ino fuel off data).chunksOf ino, c.data ≠ [] := by
  intro fuel
  induction fuel with
  | zero => exact fun h => h
  | succ fuel ih =>
    intro off data db h
    unfold SqliteFile.writeChunks
    by_cases hempty : data.isEmpty = true
    · rw [if_pos hempty]
      exact h
    · rw [if_neg hempty]
      dsimp only
      have hpos : 0 < data.length := List.length_pos_iff.mpr (by simpa using hempty)
      have hmod : off % CHUNK_SIZE < CHUNK_SIZE := Nat.mod_lt _ (by decide)
      generalize hn : min (CHUNK_SIZE - off % CHUNK_SIZE) data.length = n
      have htake : (data.take n).length = n := by
        rw [List.length_take]
        omega
      refine ih fun c hc => ?_
      rcases mem_put.mp hc with ⟨hc, -⟩ | rfl
      · exact h c hc
      · rw [← List.length_pos_iff]
        dsimp only
        split_ifs
        · rw [length_overwrite, htake]
          omega
        · rw [htake]
          omega

theorem fits_write (h : Fits db) (offset : ℕ) (data : Bytes) (nowMs : ℤ) : Fits (f.write db offset data nowMs).2 := by
  refine h.other (SqliteFile.write_bounded h.bounded) (fun j hj => SqliteFile.write_keeps hj) ?_
  obtain ⟨n, hn⟩ := h.filed f.ino
  unfold SqliteFile.write
  split_ifs with hempty hcap
  · exact ⟨n, hn⟩
  · exact ⟨n, hn⟩
  · rcases hi : db.getInode f.ino with _ | x
    · exact ⟨n, hn⟩
    · dsimp only
      have hsize : x.size = n := (sizeOf_some hi).symm.trans hn.column
      obtain ⟨hchunked, -⟩ := writeChunks_holds f.ino offset data le_rfl hn.chunked
      have hget : (SqliteFile.writeChunks db f.ino data.length offset data).getInode f.ino = some x := by
        unfold getInode
        rw [SqliteFile.writeChunks_inodes.1]
        exact hi
      have hrange := hn.range
      have hmax : max n (offset + data.length) < 2 ^ 63 := by
        simp only [MAX_FILE_SIZE] at hcap
        omega
      refine ⟨max n (offset + data.length), hmax, ?_, ⟨hchunked.nodup, hchunked.short, hchunked.within⟩,
        writeChunks_solid f.ino hn.solid⟩
      have hrow := getInode_updInode_self (f := fun i => { i with
        size := asI64 (max (asU64 x.size) (offset + data.length)), dirtySince := some nowMs }) (fun _ => rfl) hget
      rw [sizeOf_some hrow]
      dsimp only
      rw [hsize, asI64, asU64, Int.emod_eq_of_lt (by omega) (by omega), Int.toNat_natCast, if_pos hmax]

/-- A truncate keeps rows, or cuts one where something of it stays. -/
theorem mem_truncate {c : Chunk} (hc : c ∈ (f.truncate db n).chunksOf f.ino) :
    ∃ c' ∈ db.chunksOf f.ino, c'.data ≠ [] → c.data ≠ [] := by
  by_cases h0 : n = 0
  · unfold SqliteFile.truncate at hc
    rw [if_pos h0] at hc
    have hnil : (db.delData f.ino).chunksOf f.ino = [] := chunksOf_delData.trans (if_pos rfl)
    have hc' : c ∈ (db.delData f.ino).chunksOf f.ino := hc
    rw [hnil] at hc'
    exact absurd hc' List.not_mem_nil
  · rw [truncate_eq h0] at hc
    have hdrop : ∀ {c last}, c ∈ (dropAfter db f.ino last).chunksOf f.ino → c ∈ db.chunksOf f.ino := by
      intro c last hc
      rw [chunksOf_dropAfter] at hc
      exact (List.mem_filter.mp hc).1
    have hcut : c ∈ (cutLast db f.ino ((n - 1) / CHUNK_SIZE) (n % CHUNK_SIZE)).chunksOf f.ino := hc
    unfold cutLast at hcut
    split at hcut
    · rename_i d hd
      split_ifs at hcut with hrem
      · rw [Bool.and_eq_true, decide_eq_true_eq, decide_eq_true_eq] at hrem
        obtain ⟨c', hc', -, -⟩ := getChunk_mem hd
        rcases mem_put.mp hcut with ⟨hcut, -⟩ | rfl
        · exact ⟨c, hdrop hcut, id⟩
        · refine ⟨c', hdrop hc', fun _ => ?_⟩
          rw [← List.length_pos_iff, List.length_take]
          omega
      · exact ⟨c, hdrop hcut, id⟩
    · exact ⟨c, hdrop hcut, id⟩

theorem dropAfter_keeps {last : ℕ} (hi : i ≠ ino) : Keeps i db (dropAfter db ino last) := by
  refine ⟨rfl, ?_, le_rfl⟩
  unfold chunksOf dropAfter
  dsimp only
  rw [List.filter_filter]
  apply List.filter_congr
  intro c _
  by_cases hc : c.ino = i
  · simp [hc, hi]
  · simp [hc]

theorem truncate_keeps (hi : i ≠ f.ino) : Keeps i db (f.truncate db n) := by
  by_cases h0 : n = 0
  · unfold SqliteFile.truncate
    rw [if_pos h0]
    exact (keeps_delData hi).trans (keeps_updInode (fun _ => rfl) hi)
  · rw [truncate_eq h0]
    have hdrop : Keeps i db (dropAfter db f.ino ((n - 1) / CHUNK_SIZE)) := dropAfter_keeps hi
    refine Keeps.trans ?_ (keeps_updInode (fun _ => rfl) hi)
    unfold cutLast
    split
    · split_ifs
      · exact hdrop.trans (keeps_putChunk hi)
      · exact hdrop
    · exact hdrop

theorem truncate_bounded (h : db.Bounded) : (f.truncate db n).Bounded := by
  by_cases h0 : n = 0
  · unfold SqliteFile.truncate
    rw [if_pos h0]
    exact h.delData.updInode fun _ => rfl
  · rw [truncate_eq h0]
    have hdrop : (dropAfter db f.ino ((n - 1) / CHUNK_SIZE)).Bounded :=
      h.of_subset rfl (List.Subset.refl _) (List.Subset.refl _) (List.filter_subset_self _) (List.Sublist.refl _)
    refine Bounded.updInode ?_ fun _ => rfl
    unfold cutLast
    split
    · rename_i d hd
      split_ifs
      · obtain ⟨c, hc, -, -⟩ := getChunk_mem hd
        obtain ⟨hmem, hino⟩ := List.mem_filter.mp hc
        exact hdrop.putChunk (of_decide_eq_true hino ▸ hdrop.data c hmem)
      · exact hdrop
    · exact hdrop

theorem fits_truncate (h : Fits db) (hn : n < 2 ^ 63) : Fits (f.truncate db n) := by
  refine h.other (truncate_bounded h.bounded) (fun j hj => truncate_keeps hj) ?_
  obtain ⟨m, hm⟩ := h.filed f.ino
  rcases hi : db.getInode f.ino with _ | x
  · have hnone : (f.truncate db n).getInode f.ino = none := by rw [getInode_truncate, hi, Option.map_none]
    refine ⟨0, filed_nil (by decide) (sizeOf_none hnone) ?_⟩
    rw [List.eq_nil_iff_forall_not_mem]
    intro c hc
    obtain ⟨c', hc', -⟩ := mem_truncate hc
    rw [hm.chunks_none hi] at hc'
    exact List.not_mem_nil hc'
  · refine ⟨n, hn, ?_, (truncate_holds hm.chunked rfl).1, fun c hc => ?_⟩
    · rw [sizeOf_some (Flat.truncate_inode rfl hi)]
      exact if_pos hn
    · obtain ⟨c', hc', hsolid⟩ := mem_truncate hc
      exact hsolid (hm.solid c' hc')

theorem fits_setattr (h : Fits db) (hn : n < 2 ^ 63) : Fits (setattrSize db ino n).2 := by
  unfold setattrSize
  split
  · exact h
  · split
    · exact h
    · exact h
    · exact fits_truncate h hn

/-! ### Contents -/

theorem chunkRows_solid (ino : Ino) {fuel k : ℕ} {bytes : Bytes} : ∀ c ∈ chunkRows ino fuel k bytes, c.data ≠ [] := by
  induction fuel generalizing k bytes with
  | zero => exact fun c hc => absurd hc List.not_mem_nil
  | succ fuel ih =>
    intro c hc
    unfold chunkRows at hc
    split_ifs at hc with hempty
    · exact absurd hc List.not_mem_nil
    · rcases List.mem_cons.mp hc with rfl | hc
      · have hpos : 0 < bytes.length := List.length_pos_iff.mpr (by simpa using hempty)
        have hchunk : 0 < CHUNK_SIZE := by decide
        rw [← List.length_pos_iff, List.length_take]
        omega
      · exact ih c hc

/-- An inode with the size of a content, and the content's rows. -/
theorem filed_rows {content : Bytes} (hc : content.length < 2 ^ 63) (hs : sizeOf db ino = content.length)
    (hrows : db.chunksOf ino = chunkRows ino content.length 0 content) : Filed db ino content.length := by
  have hr := Pushed.chunkRows_rows ino content.length 0 content le_rfl
  rw [Nat.zero_mul, Nat.zero_add] at hr
  refine ⟨hc, hs, ⟨?_, ?_, ?_⟩, ?_⟩ <;> rw [hrows]
  · exact (List.pairwise_map.mpr hr.sorted).imp fun h => h.ne
  · exact hr.short
  · exact hr.within
  · exact chunkRows_solid ino

theorem fits_rewrite (h : Fits db) {content : Bytes} (hi : (db.getInode ino).isSome = true)
    (hc : content.length < 2 ^ 63) : Fits (Fs.rewriteFileContent db ino content) := by
  obtain ⟨x, hx⟩ := Option.isSome_iff_exists.mp hi
  refine h.other (rewriteFileContent_bounded h.bounded (h.bounded.getInode hx))
    (fun j hj => rewriteFileContent_keeps hj) ⟨content.length, filed_rows hc ?_ chunksOf_rewrite⟩
  rw [sizeOf, fileOf_rewrite, fileOf, hx]
  rfl

/-- A new inode has no chunks yet. -/
theorem fits_addInode (h : Fits db) {kind : FileKind} {nlink : ℤ} {derived : Bool} (hn : n < 2 ^ 63) :
    Fits (db.addInode kind nlink n derived).1 := by
  refine ⟨h.bounded.addInode, fun j => ?_⟩
  by_cases hj : j = db.nextIno
  · refine ⟨n, filed_nil hn ?_ (h.bounded.chunksOf hj.ge)⟩
    have hget := @Bounded.getInode_addInode db j kind nlink n derived h.bounded
    rw [if_pos hj] at hget
    exact sizeOf_some hget
  · obtain ⟨m, hm⟩ := h.filed j
    refine ⟨m, hm.keeps ⟨?_, rfl, Nat.le_succ _⟩⟩
    rw [fileOf, h.bounded.getInode_addInode, if_neg hj]
    rfl

theorem fits_ensureDir (h : Fits db) {parentIno : Ino} {part : String} : Fits (ensureDir db parentIno part).1 := by
  have hbounded : (ensureDir db parentIno part).1.Bounded := ensureDir_bounded h.bounded
  unfold ensureDir at hbounded ⊢
  split at hbounded
  · exact h
  · have hadd : Fits (db.addInode .dir 2 (0 : ℕ) false).1 := fits_addInode h (by decide)
    exact hadd.all hbounded fun j => keeps_addDentry.trans (keeps_updNlink (f := fun n => n + 1))

theorem fits_ensureParts {parts : List String} : ∀ {db : Db} {parentIno : Ino}, Fits db →
    Fits (ensureParts db parentIno parts).1 := by
  induction parts with
  | nil => exact fun h => h
  | cons part parts ih => exact fun h => ih (fits_ensureDir h)

theorem fits_createDerivedAt (h : Fits db) {parentIno : Ino} {filename : String} {content : Bytes}
    (hc : content.length < 2 ^ 63) : Fits (createDerivedAt db parentIno filename content).2 := by
  have hbounded : (createDerivedAt db parentIno filename content).2.Bounded := createDerivedAt_bounded h.bounded
  unfold createDerivedAt at hbounded ⊢
  rcases hx : childInode db parentIno filename with _ | x
  · rw [hx] at hbounded
    dsimp only at hbounded ⊢
    have hadd : Fits (db.addInode .reg 1 content.length true).1 := fits_addInode h hc
    split_ifs at hbounded ⊢ with hchild
    · exact hadd
    · have hother : ∀ j ≠ db.nextIno, Keeps j (db.addInode .reg 1 content.length true).1
          { (db.addInode .reg 1 content.length true).1.addDentry filename parentIno db.nextIno with
            data := db.data ++ chunkRows db.nextIno content.length 0 content } := fun j hj =>
        keeps_addDentry.trans (keeps_addChunks fun c hc he => hj (he.symm.trans (chunkRows_ino hc)))
      refine hadd.other hbounded hother ⟨content.length, filed_rows hc ?_ ?_⟩
      · have hget := @Bounded.getInode_addInode db db.nextIno .reg 1 content.length true h.bounded
        rw [if_pos rfl] at hget
        exact sizeOf_some hget
      · have hold : db.data.filter (fun c => c.ino = db.nextIno) = [] := h.bounded.chunksOf le_rfl
        have hnew : (chunkRows db.nextIno content.length 0 content).filter (fun c => c.ino = db.nextIno) =
            chunkRows db.nextIno content.length 0 content :=
          List.filter_eq_self.mpr fun c hc => by simpa using chunkRows_ino hc
        show (db.data ++ chunkRows db.nextIno content.length 0 content).filter (fun c => c.ino = db.nextIno) = _
        rw [List.filter_append, hold, hnew, List.nil_append]
  · rw [hx] at hbounded
    dsimp only at hbounded ⊢
    split_ifs
    · exact fits_rewrite h (by rw [childInode_some hx]; rfl) hc
    · exact h

theorem fits_createDerivedSibling (h : Fits db) {filepath : String} {content : Bytes} (hc : content.length < 2 ^ 63) :
    Fits (Fs.createDerivedSibling db filepath content).2 := by
  unfold Fs.createDerivedSibling
  split_ifs
  · exact h
  · exact h
  · exact fits_createDerivedAt (fits_ensureParts h) hc

theorem fits_createFile (h : Fits db) {online : Bool} {parentIno : Ino} {name : String} :
    Fits (Fs.createFile db online parentIno name).2 := by
  have hadd : Fits (db.addInode .reg 1 (0 : ℕ) false).1 := fits_addInode h (by decide)
  unfold Fs.createFile
  split
  · exact h
  · split
    · exact h
    · split_ifs
      · exact h
      · exact h
      · exact hadd.all (hadd.bounded.addDentry (Nat.lt_succ_self _)) fun j => keeps_addDentry

/-- One call keeps the invariant. -/
theorem Fits.step {a : Act} (h : Fits db) (ha : a.Ok db) : Fits (a.apply db) := by
  cases a with
  | createFile online parentIno name => exact fits_createFile h
  | write f offset data nowMs => exact fits_write h offset data nowMs
  | truncate f size => exact fits_truncate h ha
  | setattr ino size => exact fits_setattr h ha
  | rewriteFileContent ino content => exact fits_rewrite h ha.1 ha.2
  | rehydrateRawBytes ino bytes => exact fits_rewrite h ha.1 ha.2
  | createDerivedSibling filepath content => exact fits_createDerivedSibling h ha

/-! ### Shrinking and growing -/

/-- What lay beyond a size that the file once had is zero, however it grew again. -/
theorem regrown (h : Fits db) (f : SqliteFile) (n : ℕ) {p : ℕ} (hp : n ≤ p) :
    (∀ m, byteAt (f.truncate (f.truncate db n) m) f.ino p = 0) ∧
      ∀ offset data nowMs, ¬ (offset ≤ p ∧ p < offset + data.length) →
        byteAt (f.write (f.truncate db n) offset data nowMs).2 f.ino p = 0 := by
  obtain ⟨size, hs⟩ := h.filed f.ino
  obtain ⟨hchunked, hcut⟩ := truncate_holds hs.chunked rfl (n := n)
  have hzero : byteAt (f.truncate db n) f.ino p = 0 := by rw [hcut, if_neg (not_lt.mpr hp)]
  constructor
  · intro m
    rw [(truncate_holds hchunked rfl).2, hzero, ite_self]
  · intro offset data nowMs hno
    unfold SqliteFile.write
    split_ifs
    · exact hzero
    · exact hzero
    · split
      · exact hzero
      · have hbyte := (writeChunks_holds f.ino offset data le_rfl hchunked).2 p
        rw [if_neg hno, hzero] at hbyte
        exact hbyte

end Lemmas

/-- **The rows are within**, in every state that is reached, and what a shorter
size cut off does not come back. -/
theorem rows_within {db : Db} (h : Reach step Act.Ok .fresh db) :
    Within db ∧ ∀ (f : SqliteFile) (n p : ℕ), n ≤ p →
      (∀ m, byteAt (f.truncate (f.truncate db n) m) f.ino p = 0) ∧
        ∀ offset data nowMs, ¬ (offset ≤ p ∧ p < offset + data.length) →
          byteAt (f.write (f.truncate db n) offset data nowMs).2 f.ino p = 0 := by
  have hfits : Fits db := h.inv fits_fresh fun s a t hs ha hst => by
    cases hst
    exact hs.step ha
  exact ⟨hfits.within, fun f n p hp => regrown hfits f n hp⟩

/-- A file of two bytes, cut to one and made longer again. -/
theorem rows_within_cut : ∃ db, Reach step Act.Ok .fresh db ∧ Within db ∧ db.data = [⟨2, 0, [97]⟩] := by
  obtain ⟨db, h, hp⟩ := @Reach.exists_of_run _ _ step Act.Ok .fresh _
    [.createFile true ROOT_INO "a.md", .write ⟨2, true, none⟩ 0 [97, 98] 0, .truncate ⟨2, true, none⟩ 1, .setattr 2 5]
    (fun db => db.data = [⟨2, 0, [97]⟩]) (by decide)
  exact ⟨db, h, (rows_within h).1, of_decide_eq_true hp⟩

end Chunks
end Smfs
