/-
# What is pushed and what is read

A push sends `read_all_content`: the chunks of the file one after the other,
cut at the size. A user sees `read`, which puts each chunk at its place and
zeros where there is none. After any writes, truncates and rewrites of a file
the two are the same bytes, as many as the size says, exactly where every byte
below the size lies in a chunk and the size is positive as an `i64`
(`pushed_iff`).

Key definitions: `Pushed.Act`, `Pushed.step`, `Pushed.Mirrored`, `Pushed.Solid`, `Pushed.Laid`.
Key theorems: `Pushed.solid_rows`, `Pushed.solid_of_length`, `Pushed.read_all`, `Pushed.pushed_iff`, `Pushed.moved`.
-/
import Smfs.File.Flat

namespace Smfs
namespace Pushed

open Trans Db Flat Fs

/-- The calls that change the bytes of a file. A size is a `u64`, and a string is shorter than `isize::MAX`. -/
inductive Act
  | write (off : ℕ) (bytes : Bytes) (nowMs : ℤ)
  | truncate (size : ℕ)
  | setattr (size : ℕ)
  | rewrite (content : Bytes)

def step (f : SqliteFile) (db : Db) : Act → Option Db
  | .write off bytes now => some (f.write db off bytes now).2
  | .truncate size => if size < 2 ^ 64 then some (f.truncate db size) else none
  | .setattr size => if size < 2 ^ 64 then some (Fs.setattrSize db f.ino size).2 else none
  | .rewrite content => if content.length < 2 ^ 63 then some (Fs.rewriteFileContent db f.ino content) else none

/-- The file's size, as a `u64`. -/
def sizeOf (db : Db) (ino : Ino) : ℕ := asU64 (((db.getInode ino).map Inode.size).getD 0)

/-- A push sends what a read of the whole file returns, and it is as long as the file. -/
def Mirrored (f : SqliteFile) (db : Db) : Prop :=
  f.read db 0 (sizeOf db f.ino) = some (.ok (db.readAllContent f.ino)) ∧
    (db.readAllContent f.ino).length = sizeOf db f.ino

/-- Each byte below the size lies in a chunk. -/
def Solid (db : Db) (ino : Ino) (size : ℕ) : Prop :=
  ∀ p < size, p % CHUNK_SIZE < ((db.getChunk ino (p / CHUNK_SIZE)).getD []).length

/-- A new file. -/
structure Start (f : SqliteFile) (db : Db) : Prop where
  inode : ∃ i, db.getInode f.ino = some i ∧ i.kind = .reg ∧ i.size = 0
  chunks : db.chunksOf f.ino = []

/-- A file as the calls leave it: the chunks lie within the size, and the column holds the size. -/
structure Laid (db : Db) (ino : Ino) (size : ℕ) : Prop where
  inode : ∃ i, db.getInode ino = some i ∧ i.kind = .reg ∧ i.size = asI64 size
  range : size < 2 ^ 64
  chunked : Chunked db ino size

/-! ### Rows one after the other -/

section Rows

variable {db : Db} {ino : Ino} {size k p : ℕ} {rows : List Chunk}

/-- The rows from a chunk on, within the size. -/
structure Rows (rows : List Chunk) (k size : ℕ) : Prop where
  sorted : rows.Pairwise fun a b => a.index < b.index
  from_ : ∀ c ∈ rows, k ≤ c.index
  short : ∀ c ∈ rows, c.data.length ≤ CHUNK_SIZE
  within : ∀ c ∈ rows, c.index * CHUNK_SIZE + c.data.length ≤ size

/-- A position lies in one of the rows. -/
def Covered (rows : List Chunk) (p : ℕ) : Prop :=
  ∃ c ∈ rows, c.index * CHUNK_SIZE ≤ p ∧ p < c.index * CHUNK_SIZE + c.data.length

theorem Rows.tail {c : Chunk} (h : Rows (c :: rows) k size) : Rows rows (c.index + 1) size where
  sorted := (List.pairwise_cons.mp h.sorted).2
  from_ := fun c' hc' => (List.pairwise_cons.mp h.sorted).1 c' hc'
  short := fun c' hc' => h.short c' (List.mem_cons_of_mem _ hc')
  within := fun c' hc' => h.within c' (List.mem_cons_of_mem _ hc')

/-- The rows have no more bytes than there are positions. -/
theorem Rows.length_le (h : Rows rows k size) : (rows.flatMap Chunk.data).length ≤ size - k * CHUNK_SIZE := by
  induction rows generalizing k with
  | nil => exact Nat.zero_le _
  | cons c rows ih =>
    have hrest := ih h.tail
    have hk := h.from_ c List.mem_cons_self
    have hshort := h.short c List.mem_cons_self
    have hwithin := h.within c List.mem_cons_self
    rw [List.flatMap_cons, List.length_append]
    simp only [CHUNK_SIZE] at *
    omega

/-- If the bytes of a row and those after it fill what lies beyond the `k`-th chunk, the row is that chunk. -/
theorem index_of_full {i len rest : ℕ} (hk : k ≤ i) (hlen : len ≤ CHUNK_SIZE) (hwithin : i * CHUNK_SIZE + len ≤ size)
    (hrest : rest ≤ size - (i + 1) * CHUNK_SIZE) (hfull : size - k * CHUNK_SIZE ≤ len + rest)
    (hsize : k * CHUNK_SIZE < size) : i = k := by
  simp only [CHUNK_SIZE] at *
  by_contra hne
  have hlt : k + 1 ≤ i := by omega
  rcases Nat.eq_zero_or_pos rest with hzero | hpos
  · omega
  · have hroom : rest + (i + 1) * 4096 ≤ size := by omega
    omega

/-- Rows with as many bytes as there are positions leave none out. -/
theorem Rows.covered (h : Rows rows k size) (hl : size - k * CHUNK_SIZE ≤ (rows.flatMap Chunk.data).length)
    (hp : k * CHUNK_SIZE ≤ p) (hps : p < size) : Covered rows p := by
  induction rows generalizing k with
  | nil =>
    simp only [List.flatMap_nil, List.length_nil] at hl
    omega
  | cons c rows ih =>
    have hrest := h.tail.length_le
    have hshort := h.short c List.mem_cons_self
    have hwithin := h.within c List.mem_cons_self
    rw [List.flatMap_cons, List.length_append] at hl
    have hi : c.index = k := index_of_full (h.from_ c List.mem_cons_self) hshort hwithin hrest hl (hp.trans_lt hps)
    by_cases hin : p < c.index * CHUNK_SIZE + c.data.length
    · exact ⟨c, List.mem_cons_self, hi ▸ hp, hin⟩
    · have hnext : (c.index + 1) * CHUNK_SIZE ≤ p ∧ size - (c.index + 1) * CHUNK_SIZE ≤ (rows.flatMap Chunk.data).length := by
        simp only [CHUNK_SIZE] at hrest hshort hwithin hl hp hin ⊢
        omega
      obtain ⟨c', hc', hcov⟩ := ih h.tail hnext.2 hnext.1
      exact ⟨c', List.mem_cons_of_mem _ hc', hcov⟩

/-- Rows that leave no position out put each byte at its place. -/
theorem Rows.placed (h : Rows rows k size) (hall : ∀ p, k * CHUNK_SIZE ≤ p → p < size → Covered rows p) :
    (rows.flatMap Chunk.data).length = size - k * CHUNK_SIZE ∧
      ∀ c ∈ rows, ∀ q < c.data.length,
        (rows.flatMap Chunk.data).getD (c.index * CHUNK_SIZE + q - k * CHUNK_SIZE) 0 = c.data.getD q 0 := by
  induction rows generalizing k with
  | nil =>
    refine ⟨?_, fun c hc => by cases hc⟩
    by_contra hne
    obtain ⟨c, hc, -⟩ := hall (k * CHUNK_SIZE) le_rfl (by rw [List.flatMap_nil, List.length_nil] at hne; omega)
    cases hc
  | cons c rows ih =>
    have hk := h.from_ c List.mem_cons_self
    have hshort := h.short c List.mem_cons_self
    have hwithin := h.within c List.mem_cons_self
    have hlater : ∀ c' ∈ rows, c.index + 1 ≤ c'.index := h.tail.from_
    -- no later row reaches into this chunk
    have hown : ∀ p, p < (c.index + 1) * CHUNK_SIZE → Covered (c :: rows) p →
        c.index * CHUNK_SIZE ≤ p ∧ p < c.index * CHUNK_SIZE + c.data.length := by
      rintro p hp ⟨c', hc', hle, hlt⟩
      rcases List.mem_cons.mp hc' with rfl | hc'
      · exact ⟨hle, hlt⟩
      · have hmul : (c.index + 1) * CHUNK_SIZE ≤ c'.index * CHUNK_SIZE := Nat.mul_le_mul_right _ (hlater c' hc')
        omega
    have hi : k * CHUNK_SIZE < size → c.index = k := fun hsize => by
      have hmul : k * CHUNK_SIZE < (c.index + 1) * CHUNK_SIZE := Nat.mul_lt_mul_of_pos_right (by omega) (by decide)
      obtain ⟨hle, -⟩ := hown _ hmul (hall _ le_rfl hsize)
      have := Nat.le_of_mul_le_mul_right hle (by decide)
      omega
    have hrest : ∀ p, (c.index + 1) * CHUNK_SIZE ≤ p → p < size → Covered rows p := by
      intro p hp hps
      obtain ⟨c', hc', hle, hlt⟩ := hall p ((Nat.mul_le_mul_right _ (by omega)).trans hp) hps
      rcases List.mem_cons.mp hc' with rfl | hc'
      · simp only [CHUNK_SIZE] at hshort hp hlt
        omega
      · exact ⟨c', hc', hle, hlt⟩
    obtain ⟨hlen, hbyte⟩ := ih h.tail hrest
    have hfull : c.data.length + (size - (c.index + 1) * CHUNK_SIZE) = size - k * CHUNK_SIZE := by
      rcases Nat.lt_or_ge (k * CHUNK_SIZE) size with hsize | hsize
      · -- the last position of the chunk that the file has
        have hidx := hi hsize
        have hlast : k * CHUNK_SIZE ≤ min size ((k + 1) * CHUNK_SIZE) - 1 ∧
            min size ((k + 1) * CHUNK_SIZE) - 1 < min size ((k + 1) * CHUNK_SIZE) := by
          simp only [CHUNK_SIZE] at hsize ⊢
          omega
        rw [hidx] at hown hwithin ⊢
        obtain ⟨hle, hlt⟩ := hown _ (hlast.2.trans_le (min_le_right _ _))
          (hall _ hlast.1 (hlast.2.trans_le (min_le_left _ _)))
        simp only [CHUNK_SIZE] at hle hlt hwithin hshort hsize ⊢
        omega
      · have hmul : k * CHUNK_SIZE ≤ c.index * CHUNK_SIZE := Nat.mul_le_mul_right _ hk
        simp only [CHUNK_SIZE] at hmul hwithin hsize ⊢
        omega
    refine ⟨by rw [List.flatMap_cons, List.length_append, hlen, hfull], fun c' hc' q hq => ?_⟩
    rw [List.flatMap_cons, getD_append]
    rcases List.mem_cons.mp hc' with rfl | hc'
    · have hsize : k * CHUNK_SIZE < size := by
        have hmul : k * CHUNK_SIZE ≤ c'.index * CHUNK_SIZE := Nat.mul_le_mul_right _ hk
        omega
      rw [hi hsize, Nat.add_sub_cancel_left, if_pos hq]
    · have hw' := h.within c' (List.mem_cons_of_mem _ hc')
      have hmul : (c.index + 1) * CHUNK_SIZE ≤ c'.index * CHUNK_SIZE := Nat.mul_le_mul_right _ (hlater c' hc')
      have hsize : k * CHUNK_SIZE < size := by
        have hmul : k * CHUNK_SIZE ≤ c.index * CHUNK_SIZE := Nat.mul_le_mul_right _ hk
        simp only [CHUNK_SIZE] at *
        omega
      have hidx := hi hsize
      rw [hidx] at hfull hmul hbyte
      rw [← hbyte c' hc' q hq, if_neg (by simp only [CHUNK_SIZE] at hfull hmul hw' ⊢; omega)]
      congr 1
      simp only [CHUNK_SIZE] at hfull hmul hw' ⊢
      omega

end Rows

/-! ### The two readers -/

section Readers

variable {db : Db} {f : SqliteFile} {ino : Ino} {size : ℕ}

/-- The chunks in the order `read_all_content` sends them. -/
def sent (db : Db) (ino : Ino) : List Chunk := (db.chunksOf ino).insertionSort fun a b => a.index ≤ b.index

theorem mem_sent {c : Chunk} : c ∈ sent db ino ↔ c ∈ db.chunksOf ino := List.mem_insertionSort _

theorem sent_rows (h : Chunked db ino size) : Rows (sent db ino) 0 size := by
  refine ⟨?_, fun c _ => Nat.zero_le _, fun c hc => h.short c (mem_sent.mp hc), fun c hc => h.within c (mem_sent.mp hc)⟩
  have hle : (sent db ino).Pairwise fun a b => a.index ≤ b.index := List.pairwise_insertionSort _ _
  have hne : (sent db ino).Pairwise fun a b => a.index ≠ b.index :=
    List.pairwise_map.mp (((List.perm_insertionSort _ _).map Chunk.index).nodup_iff.mpr h.nodup)
  exact (hle.and hne).imp fun h => lt_of_le_of_ne h.1 h.2

/-- A position lies in a chunk exactly where a row covers it. -/
theorem covered_iff (h : Chunked db ino size) {p : ℕ} :
    Covered (sent db ino) p ↔ p % CHUNK_SIZE < ((db.getChunk ino (p / CHUNK_SIZE)).getD []).length := by
  constructor
  · rintro ⟨c, hc, hle, hlt⟩
    have hmem := mem_sent.mp hc
    have hshort := h.short c hmem
    have hdiv : p / CHUNK_SIZE = c.index ∧ p % CHUNK_SIZE < c.data.length := by
      simp only [CHUNK_SIZE] at hle hlt hshort ⊢
      omega
    rw [hdiv.1, h.getChunk hmem]
    exact hdiv.2
  · intro hp
    cases hg : db.getChunk ino (p / CHUNK_SIZE) with
    | none =>
      rw [hg] at hp
      exact absurd hp (Nat.not_lt_zero _)
    | some d =>
      rw [hg] at hp
      obtain ⟨c, hc, hi, rfl⟩ := getChunk_mem hg
      have hdm : p / CHUNK_SIZE * CHUNK_SIZE + p % CHUNK_SIZE = p := Nat.div_add_mod' _ _
      refine ⟨c, mem_sent.mpr hc, ?_, ?_⟩ <;> rw [hi]
      · exact Nat.div_mul_le_self _ _
      · calc p = p / CHUNK_SIZE * CHUNK_SIZE + p % CHUNK_SIZE := hdm.symm
          _ < p / CHUNK_SIZE * CHUNK_SIZE + c.data.length := Nat.add_lt_add_left hp _

/-- A file whose bytes all lie in chunks is whole. -/
theorem whole_of_solid (h : Chunked db ino size) (hs : Solid db ino size) : Whole db ino size := by
  intro c hc
  have hshort := h.short c hc
  by_contra hno
  push Not at hno
  obtain ⟨hfull, hend, -⟩ := hno
  -- the position behind the chunk would lie in it
  have hp := hs (c.index * CHUNK_SIZE + c.data.length) (by omega)
  have hdiv : (c.index * CHUNK_SIZE + c.data.length) / CHUNK_SIZE = c.index ∧
      (c.index * CHUNK_SIZE + c.data.length) % CHUNK_SIZE = c.data.length := by
    simp only [CHUNK_SIZE] at hshort hfull ⊢
    omega
  rw [hdiv.1, hdiv.2, h.getChunk hc] at hp
  exact absurd hp (lt_irrefl _)

/-- What is pushed of such a file are the bytes at their places. -/
theorem solid_rows (h : Chunked db ino size) (hs : Solid db ino size) :
    ((sent db ino).flatMap Chunk.data).length = size ∧
      ∀ p < size, ((sent db ino).flatMap Chunk.data).getD p 0 = byteAt db ino p := by
  obtain ⟨hlen, hbyte⟩ := (sent_rows h).placed fun p _ hps => (covered_iff h).mpr (hs p hps)
  rw [Nat.zero_mul, Nat.sub_zero] at hlen
  refine ⟨hlen, fun p hps => ?_⟩
  obtain ⟨c, hc, hle, hlt⟩ := (covered_iff h).mpr (hs p hps)
  obtain ⟨q, rfl⟩ : ∃ q, p = c.index * CHUNK_SIZE + q := ⟨p - c.index * CHUNK_SIZE, by omega⟩
  have hq : q < c.data.length := by omega
  have hshort := h.short c (mem_sent.mp hc)
  rw [byteAt_chunk h (mem_sent.mp hc) (hq.trans_le hshort), ← hbyte c hc q hq, Nat.zero_mul, Nat.sub_zero]

/-- A push of as many bytes as the size says leaves none out. -/
theorem solid_of_length (h : Chunked db ino size) (hl : size ≤ ((sent db ino).flatMap Chunk.data).length) :
    Solid db ino size := fun p hps =>
  (covered_iff h).mp ((sent_rows h).covered (by rwa [Nat.zero_mul, Nat.sub_zero]) (by omega) hps)

theorem asU64_asI64 {n : ℕ} (h : n < 2 ^ 64) : asU64 (asI64 n) = n := by
  unfold asU64 asI64
  split_ifs <;> omega

theorem Laid.sizeOf (h : Laid db ino size) : sizeOf db ino = size := by
  obtain ⟨i, hi, -, hs⟩ := h.inode
  unfold Pushed.sizeOf
  rw [hi, Option.map_some, Option.getD_some, hs, asU64_asI64 h.range]

/-- What `read_all_content` returns. -/
theorem Laid.content (h : Laid db ino size) : db.readAllContent ino =
    if size < 2 ^ 63 then ((sent db ino).flatMap Chunk.data).take size else [] := by
  obtain ⟨i, hi, -, hs⟩ := h.inode
  have hrange := h.range
  unfold Db.readAllContent
  rw [hi]
  dsimp only
  rw [hs]
  unfold asI64
  split_ifs with h1 h2 h2
  · obtain rfl : size = 0 := by omega
    exact List.take_zero.symm
  · rfl
  · rfl
  · omega

/-- **What is pushed is what is read, exactly where every byte of the file lies in a chunk** and the size is
positive as an `i64`. -/
theorem mirrored_iff (h : Laid db f.ino size) : Mirrored f db ↔ size < 2 ^ 63 ∧ Solid db f.ino size := by
  unfold Mirrored
  rw [h.sizeOf, h.content]
  constructor
  · rintro ⟨-, hlen⟩
    split_ifs at hlen with hpos
    · rw [List.length_take] at hlen
      exact ⟨hpos, solid_of_length h.chunked (by omega)⟩
    · rw [List.length_nil] at hlen
      omega
  · rintro ⟨hpos, hs⟩
    obtain ⟨hlen, hbyte⟩ := solid_rows h.chunked hs
    rw [if_pos hpos, List.take_of_length_le hlen.le]
    refine ⟨?_, hlen⟩
    obtain ⟨i, hi, -, hsize⟩ := h.inode
    have hu : asU64 i.size = size := by rw [hsize, asU64_asI64 h.range]
    rcases Nat.eq_zero_or_pos size with rfl | hlt
    · have hnil : (sent db f.ino).flatMap Chunk.data = [] := List.eq_nil_of_length_eq_zero hlen
      unfold SqliteFile.read
      rw [hi, hnil]
      dsimp only
      rw [hu, if_pos (Nat.zero_le _)]
    · obtain ⟨b, hread, hblen, hb⟩ := read_whole (n := size) hi hu h.chunked (whole_of_solid h.chunked hs) hlt
      rw [hread]
      refine congrArg (some ∘ Except.ok) (ext_getD (by rw [hblen, hlen, Nat.sub_zero, min_self]) fun q hq => ?_)
      rw [hb q hq, Nat.zero_add, hbyte q (by omega)]

end Readers

/-! ### Runs -/

section Runs

variable {db db' : Db} {f : SqliteFile} {size : ℕ}

theorem Start.laid (h : Start f db) : Laid db f.ino 0 where
  inode := h.inode
  range := by decide
  chunked := by
    refine ⟨?_, ?_, ?_⟩ <;> rw [h.chunks]
    · exact List.nodup_nil
    · exact fun c hc => by cases hc
    · exact fun c hc => by cases hc

theorem laid_write (h : Laid db f.ino size) (off : ℕ) (bytes : Bytes) (now : ℤ) :
    ∃ size', Laid (f.write db off bytes now).2 f.ino size' := by
  obtain ⟨i, hi, hk, hs⟩ := h.inode
  unfold SqliteFile.write
  split_ifs with hempty hcap
  · exact ⟨size, h⟩
  · exact ⟨size, h⟩
  · rw [hi]
    obtain ⟨hchunked, -⟩ := writeChunks_holds f.ino off bytes le_rfl h.chunked
    have hrange := h.range
    refine ⟨max size (off + bytes.length), ?_, ?_, ⟨hchunked.nodup, hchunked.short, hchunked.within⟩⟩
    · have hget : (SqliteFile.writeChunks db f.ino bytes.length off bytes).getInode f.ino = some i := by
        unfold getInode
        rw [SqliteFile.writeChunks_inodes.1]
        exact hi
      refine ⟨{ i with size := asI64 (max (asU64 i.size) (off + bytes.length)), dirtySince := some now }, ?_, hk, ?_⟩
      · exact getInode_updInode_self (fun _ => rfl) hget
      · dsimp only
        rw [hs, asU64_asI64 hrange]
    · simp only [MAX_FILE_SIZE] at hcap
      omega

theorem laid_truncate (h : Laid db f.ino size) {g : SqliteFile} (hg : g.ino = f.ino) {n : ℕ} (hn : n < 2 ^ 64) :
    Laid (g.truncate db n) f.ino n := by
  obtain ⟨i, hi, hk, -⟩ := h.inode
  exact ⟨⟨_, truncate_inode hg hi, hk, rfl⟩, hn, (truncate_holds h.chunked hg).1⟩

theorem rows_nil {k n : ℕ} : Rows [] k n where
  sorted := List.Pairwise.nil
  from_ := fun c hc => by cases hc
  short := fun c hc => by cases hc
  within := fun c hc => by cases hc

theorem chunkRows_nil {ino : Ino} {fuel k : ℕ} : chunkRows ino fuel k [] = [] := by
  cases fuel <;> rfl

/-- The rows of a content are its pieces in order. -/
theorem chunkRows_rows (ino : Ino) : ∀ (fuel k : ℕ) (bytes : Bytes), bytes.length ≤ fuel →
    Rows (chunkRows ino fuel k bytes) k (k * CHUNK_SIZE + bytes.length) := by
  intro fuel
  induction fuel with
  | zero => exact fun k bytes _ => rows_nil
  | succ fuel ih =>
    intro k bytes hf
    unfold chunkRows
    split_ifs with hempty
    · exact rows_nil
    · have hpos : 0 < bytes.length := List.length_pos_iff.mpr (by simpa using hempty)
      have hdrop : (bytes.drop CHUNK_SIZE).length = bytes.length - CHUNK_SIZE := List.length_drop
      have htake : (bytes.take CHUNK_SIZE).length = min CHUNK_SIZE bytes.length := List.length_take
      have hrest := ih (k + 1) (bytes.drop CHUNK_SIZE) (by simp only [CHUNK_SIZE] at hdrop ⊢; omega)
      refine ⟨List.pairwise_cons.mpr ⟨fun c hc => hrest.from_ c hc, hrest.sorted⟩, fun c hc => ?_, fun c hc => ?_,
        fun c hc => ?_⟩
      · rcases List.mem_cons.mp hc with rfl | hc
        · exact le_rfl
        · exact (Nat.le_succ k).trans (hrest.from_ c hc)
      · rcases List.mem_cons.mp hc with rfl | hc
        · exact htake.trans_le (min_le_left _ _)
        · exact hrest.short c hc
      · rcases List.mem_cons.mp hc with rfl | hc
        · exact Nat.add_le_add_left (htake.trans_le (min_le_right _ _)) _
        · have hlong : CHUNK_SIZE < bytes.length := by
            by_contra hle
            rw [List.drop_of_length_le (not_lt.mp hle), chunkRows_nil] at hc
            cases hc
          calc c.index * CHUNK_SIZE + c.data.length ≤ (k + 1) * CHUNK_SIZE + (bytes.drop CHUNK_SIZE).length :=
                hrest.within c hc
            _ = k * CHUNK_SIZE + bytes.length := by
                rw [hdrop, Nat.succ_mul, Nat.add_assoc, Nat.add_sub_cancel' hlong.le]

theorem laid_rewrite (h : Laid db f.ino size) {content : Bytes} (hc : content.length < 2 ^ 63) :
    Laid (Fs.rewriteFileContent db f.ino content) f.ino content.length := by
  obtain ⟨i, hi, hk, -⟩ := h.inode
  have hrows := chunkRows_rows f.ino content.length 0 content le_rfl
  rw [Nat.zero_mul, Nat.zero_add] at hrows
  refine ⟨⟨{ i with size := content.length }, ?_, hk, ?_⟩, by omega, ?_, ?_, ?_⟩
  · have hget : (replaceData db f.ino content).getInode f.ino = some i := hi
    exact getInode_updInode_self (fun _ => rfl) hget
  · exact (if_pos hc).symm
  · rw [chunksOf_rewrite]
    exact (List.pairwise_map.mpr hrows.sorted).imp fun h => h.ne
  · rw [chunksOf_rewrite]
    exact hrows.short
  · rw [chunksOf_rewrite]
    exact hrows.within

theorem step_laid {a : Act} (h : ∃ size, Laid db f.ino size) (hst : step f db a = some db') :
    ∃ size, Laid db' f.ino size := by
  obtain ⟨size, h⟩ := h
  cases a with
  | write off bytes now =>
    cases hst
    exact laid_write h off bytes now
  | truncate n =>
    simp only [step] at hst
    split_ifs at hst with hn
    cases hst
    exact ⟨n, laid_truncate h rfl hn⟩
  | setattr n =>
    simp only [step] at hst
    split_ifs at hst with hn
    cases hst
    obtain ⟨i, hi, hk, -⟩ := h.inode
    have hset : (Fs.setattrSize db f.ino n).2 = SqliteFile.truncate db ⟨f.ino, false, none⟩ n := by
      unfold Fs.setattrSize
      rw [hi]
      dsimp only
      rw [hk]
    rw [hset]
    exact ⟨n, laid_truncate h rfl hn⟩
  | rewrite content =>
    simp only [step] at hst
    split_ifs at hst with hc
    cases hst
    exact ⟨content.length, laid_rewrite h hc⟩

end Runs

/-- **A push sends what a read returns, in every state, exactly where the file's bytes all lie in chunks** and
its size is positive as an `i64`. -/
theorem pushed_iff (f : SqliteFile) (db₀ : Db) (h₀ : Start f db₀) (db : Db) (h : Reach (step f) anyStep db₀ db) :
    Mirrored f db ↔ sizeOf db f.ino < 2 ^ 63 ∧ Solid db f.ino (sizeOf db f.ino) := by
  obtain ⟨size, hl⟩ := h.inv (I := fun db => ∃ size, Laid db f.ino size) ⟨0, h₀.laid⟩ fun _ _ _ hI _ hst =>
    step_laid hI hst
  rw [hl.sizeOf]
  exact mirrored_iff hl

/-- A new file. -/
def created : Db := (Fs.createFile .fresh true ROOT_INO "a").2

def handle : SqliteFile := ⟨2, true, some "/a"⟩

theorem created_start : Start handle created := ⟨⟨⟨2, .reg, 1, 0, none, false⟩, by decide⟩, by decide⟩

/-- The file is rewritten, two writes each end in the next chunk, and the last chunk is cut. -/
def spannedRun : List Act :=
  [.rewrite [120, 121, 122], .write 4094 [97, 98, 99, 100] 0, .write 8190 [101, 102, 103, 104] 1, .truncate 8193]

/-- The 8193 bytes of the three chunks are what a push sends and what a read returns. -/
theorem pushed_iff_spanned :
    ∃ db, run (step handle) anyStep created spannedRun = some db ∧ sizeOf db 2 = 8193 ∧
      [0, 1, 2].map (fun k => ((db.getChunk 2 k).getD []).length) = [4096, 4096, 1] ∧ Mirrored handle db := by
  obtain ⟨db, hdb, hp⟩ := (Option.any_eq_true _ _).mp
    (by decide +kernel : (run (step handle) anyStep created spannedRun).any (fun db => decide
      (sizeOf db 2 = 8193 ∧ [0, 1, 2].map (fun k => ((db.getChunk 2 k).getD []).length) = [4096, 4096, 1])) = true)
  obtain ⟨hsize, hchunks⟩ := of_decide_eq_true hp
  obtain ⟨h0, h1, h2⟩ : ((db.getChunk 2 0).getD []).length = 4096 ∧ ((db.getChunk 2 1).getD []).length = 4096 ∧
      ((db.getChunk 2 2).getD []).length = 1 := by
    simpa only [List.map_cons, List.map_nil, List.cons.injEq, and_true] using hchunks
  have hsolid : Solid db 2 8193 := by
    intro p hp
    simp only [CHUNK_SIZE]
    have hcase : p / 4096 = 0 ∨ p / 4096 = 1 ∨ p / 4096 = 2 ∧ p % 4096 = 0 := by omega
    rcases hcase with h | h | ⟨h, hmod⟩
    · rw [h, h0]
      exact Nat.mod_lt _ (by decide)
    · rw [h, h1]
      exact Nat.mod_lt _ (by decide)
    · rw [h, h2, hmod]
      exact Nat.zero_lt_one
  refine ⟨db, hdb, hsize, hchunks, (pushed_iff handle created created_start db (.of_run hdb)).mpr ?_⟩
  have hsize' : sizeOf db handle.ino = 8193 := hsize
  rw [hsize']
  exact ⟨by decide, hsolid⟩

/-- A write beyond the end of an empty file: the push sends one byte of the 4097 that are read. -/
theorem moved : ¬ ∀ db, Reach (step handle) anyStep created db → Mirrored handle db := by
  intro hall
  obtain ⟨db, hr, hp⟩ : ∃ db, Reach (step handle) anyStep created db ∧
      decide ((db.readAllContent 2).length ≠ sizeOf db 2) = true :=
    Reach.exists_of_run [.write 4096 [97] 0] (by decide)
  exact of_decide_eq_true hp (hall db hr).2

end Pushed
end Smfs
