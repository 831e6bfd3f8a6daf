/-
# The chunks of a file as one byte array

`SqliteFile` keeps a file in chunks, which may be missing or short; `MemFile`
keeps the same file as one array. After the same writes and truncates the
chunks hold the bytes of the array wherever one looks (`Holds`), as long as no
empty write starts beyond the end, where only `MemFile` makes the file longer.

`read` does not look wherever one asks. Of a short chunk it takes the bytes
there are and goes on with the next one, so that what follows moves forward;
and it panics where it starts beyond the end of a short chunk. All reads are
right exactly when the chunks are `Whole`: each is full, or the file ends with
it or one byte later, or it is one byte short and only zeros follow.

Key definitions: `Flat.St`, `Flat.step`, `Flat.Agrees`, `Flat.Whole`, `Flat.Holds`.
Key theorems: `Flat.holds_write`, `Flat.holds_truncate`, `Flat.agrees_of_whole`, `Flat.whole_of_agrees`,
`Flat.reads_flat`, `Flat.shifted`.
-/
import Mathlib.Data.List.GetD
import Smfs.Lib.Reach
import Smfs.Mem
import Smfs.Names

namespace Smfs
namespace Flat

open Trans Db

/-! ### Byte arrays -/

section Bytes

variable {buf bytes : Bytes} {off p size : ℕ}

theorem ext_getD {a b : Bytes} (hl : a.length = b.length) (h : ∀ p < a.length, a.getD p 0 = b.getD p 0) : a = b := by
  refine List.ext_getElem hl fun p hp hp' => ?_
  have := h p hp
  rwa [List.getD_eq_getElem _ _ hp, List.getD_eq_getElem _ _ hp'] at this

theorem getD_beyond (h : buf.length ≤ p) : buf.getD p 0 = 0 := List.getD_eq_default _ _ h

theorem getD_append {a b : Bytes} :
    (a ++ b).getD p 0 = if p < a.length then a.getD p 0 else b.getD (p - a.length) 0 := by
  split_ifs with h
  · exact List.getD_append _ _ _ _ h
  · exact List.getD_append_right _ _ _ _ (not_lt.mp h)

theorem getD_take {n : ℕ} : (buf.take n).getD p 0 = if p < n then buf.getD p 0 else 0 := by
  simp only [List.getD_eq_getElem?_getD, List.getElem?_take]
  split_ifs <;> rfl

theorem getD_drop {n : ℕ} : (buf.drop n).getD p 0 = buf.getD (n + p) 0 := by
  simp only [List.getD_eq_getElem?_getD, List.getElem?_drop]

theorem getD_zeros {n : ℕ} : (List.replicate n (0 : UInt8)).getD p 0 = 0 := by
  simp only [List.getD_eq_getElem?_getD, List.getElem?_replicate]
  split_ifs <;> rfl

/-- Zeros at the end are what lies there anyway. -/
theorem getD_pad {n : ℕ} : (buf ++ List.replicate n 0).getD p 0 = buf.getD p 0 := by
  rw [getD_append, getD_zeros]
  split_ifs with h
  · rfl
  · exact (getD_beyond (not_lt.mp h)).symm

theorem length_overwrite : (SqliteFile.overwrite buf off bytes).length = max buf.length (off + bytes.length) := by
  simp only [SqliteFile.overwrite, List.length_append, List.length_take, List.length_drop, List.length_replicate]
  omega

theorem getD_overwrite : (SqliteFile.overwrite buf off bytes).getD p 0 =
    if off ≤ p ∧ p < off + bytes.length then bytes.getD (p - off) 0 else buf.getD p 0 := by
  have hlen : off ≤ (buf ++ List.replicate (off + bytes.length - buf.length) 0).length := by
    rw [List.length_append, List.length_replicate]
    omega
  unfold SqliteFile.overwrite
  dsimp only
  rw [List.append_assoc, getD_append, getD_append, getD_take, getD_drop, getD_pad, getD_pad, List.length_take,
    min_eq_left hlen]
  by_cases h1 : p < off
  · rw [if_pos h1, if_pos h1, if_neg fun h => absurd h.1 (not_le.mpr h1)]
  · rw [if_neg h1]
    by_cases h2 : p < off + bytes.length
    · rw [if_pos (by omega), if_pos ⟨not_lt.mp h1, h2⟩]
    · rw [if_neg (by omega), if_neg fun h => h2 h.2]
      congr 1
      omega

theorem length_resize : (MemFile.resize buf size).length = size := by
  rw [MemFile.resize, List.length_append, List.length_take, List.length_replicate]
  omega

theorem getD_resize : (MemFile.resize buf size).getD p 0 = if p < size then buf.getD p 0 else 0 := by
  rw [MemFile.resize, getD_append, getD_take, getD_zeros, List.length_take]
  split_ifs with h1 h2 h3
  · rfl
  · omega
  · exact (getD_beyond (by omega)).symm
  · rfl

/-- `MemFile::write` puts the bytes at their place, and zeros before them
where the file was shorter. -/
theorem length_write : (MemFile.write buf off bytes).length = max buf.length (off + bytes.length) := by
  unfold MemFile.write
  dsimp only
  split_ifs with h
  · simp only [List.length_append, List.length_take, List.length_drop, length_resize]
    omega
  · simp only [List.length_append, List.length_take, List.length_drop]
    omega

theorem getD_write : (MemFile.write buf off bytes).getD p 0 =
    if off ≤ p ∧ p < off + bytes.length then bytes.getD (p - off) 0 else buf.getD p 0 := by
  have hput : ∀ file : Bytes, off + bytes.length ≤ file.length →
      (file.take off ++ bytes ++ file.drop (off + bytes.length)).getD p 0 =
        if off ≤ p ∧ p < off + bytes.length then bytes.getD (p - off) 0 else file.getD p 0 := by
    intro file hf
    rw [List.append_assoc, getD_append, getD_append, getD_take, getD_drop, List.length_take,
      min_eq_left (by omega)]
    by_cases h1 : p < off
    · rw [if_pos h1, if_pos h1, if_neg fun h => absurd h.1 (not_le.mpr h1)]
    · rw [if_neg h1]
      by_cases h2 : p < off + bytes.length
      · rw [if_pos (by omega), if_pos ⟨not_lt.mp h1, h2⟩]
      · rw [if_neg (by omega), if_neg fun h => h2 h.2]
        congr 1
        omega
  unfold MemFile.write
  dsimp only
  by_cases h : off + bytes.length > buf.length
  · rw [if_pos h, hput _ length_resize.ge, getD_resize]
    split_ifs with h1 h2
    · rfl
    · rfl
    · exact (getD_beyond (by omega)).symm
  · rw [if_neg h]
    exact hput _ (not_lt.mp h)

theorem read_eq : MemFile.read buf off size = (buf.drop off).take size := by
  unfold MemFile.read
  refine ext_getD ?_ fun p hp => ?_
  · simp only [List.length_take, List.length_drop]
    omega
  · simp only [List.length_take, List.length_drop] at hp
    rw [getD_take, getD_take, getD_drop, getD_drop, if_pos (by omega), if_pos (by omega)]
    congr 1
    omega

end Bytes

/-! ### The bytes in the chunks -/

/-- The byte that the chunks have at a position; zero where there is none. -/
def byteAt (db : Db) (ino : Ino) (p : ℕ) : UInt8 :=
  ((db.getChunk ino (p / CHUNK_SIZE)).getD []).getD (p % CHUNK_SIZE) 0

/-- The chunks of a file lie within its size. -/
structure Chunked (db : Db) (ino : Ino) (size : ℕ) : Prop where
  nodup : ((db.chunksOf ino).map Chunk.index).Nodup
  short : ∀ c ∈ db.chunksOf ino, c.data.length ≤ CHUNK_SIZE
  within : ∀ c ∈ db.chunksOf ino, c.index * CHUNK_SIZE + c.data.length ≤ size

/-- The chunks hold a byte array. -/
structure Holds (db : Db) (ino : Ino) (data : Bytes) : Prop where
  chunked : Chunked db ino data.length
  byte : ∀ p, byteAt db ino p = data.getD p 0

section Chunks

variable {db : Db} {ino : Ino} {k size off : ℕ} {d data : Bytes} {c : Chunk}

theorem chunksOf_put : (db.putChunk ino k d).chunksOf ino =
    ((db.chunksOf ino).filter fun c => c.index ≠ k) ++ [⟨ino, k, d⟩] := by
  simp only [chunksOf, putChunk, List.filter_append, List.filter_filter]
  rw [List.filter_cons_of_pos (by simp), List.filter_nil]
  congr 1
  refine List.filter_congr fun c _ => ?_
  by_cases hi : c.ino = ino <;> by_cases hk : c.index = k <;> simp [hi, hk]

theorem getChunk_put {j : ℕ} : (db.putChunk ino k d).getChunk ino j =
    if j = k then some d else db.getChunk ino j := by
  have hput : (db.putChunk ino k d).getChunk ino j =
      (Table.get Chunk.index (Table.erase Chunk.index (db.chunksOf ino) k ++ [⟨ino, k, d⟩]) j).map Chunk.data := by
    unfold getChunk
    rw [chunksOf_put]
    rfl
  rw [hput, Table.get_append, Table.get_erase, Table.get_cons, Table.get_nil]
  by_cases h : j = k
  · subst h
    rw [if_pos rfl, if_pos rfl, if_pos rfl]
    rfl
  · rw [if_neg h, if_neg (Ne.symm h), if_neg h, Option.or_none]
    rfl

theorem mem_put : c ∈ (db.putChunk ino k d).chunksOf ino ↔
    c ∈ db.chunksOf ino ∧ c.index ≠ k ∨ c = ⟨ino, k, d⟩ := by
  rw [chunksOf_put, List.mem_append, List.mem_filter, List.mem_singleton]
  simp

theorem getChunk_mem (h : db.getChunk ino k = some d) : ∃ c ∈ db.chunksOf ino, c.index = k ∧ c.data = d := by
  obtain ⟨c, hc, hd⟩ := Option.map_eq_some_iff.mp h
  have hc : Table.get Chunk.index (db.chunksOf ino) k = some c := hc
  obtain ⟨hm, hk⟩ := Table.get_some hc
  exact ⟨c, hm, hk, hd⟩

theorem Chunked.getChunk (h : Chunked db ino size) (hc : c ∈ db.chunksOf ino) :
    db.getChunk ino c.index = some c.data := by
  have hg : Table.get Chunk.index (db.chunksOf ino) c.index = some c := Table.get_of_mem h.nodup hc
  exact congrArg (Option.map Chunk.data) hg

theorem Chunked.old (h : Chunked db ino size) : ((db.getChunk ino k).getD []).length ≤ CHUNK_SIZE := by
  cases hg : db.getChunk ino k with
  | none => exact Nat.zero_le _
  | some d =>
    obtain ⟨c, hc, -, rfl⟩ := getChunk_mem hg
    exact h.short c hc

theorem Chunked.put (h : Chunked db ino size) {size' : ℕ} (hle : size ≤ size') (hd : d.length ≤ CHUNK_SIZE)
    (hw : k * CHUNK_SIZE + d.length ≤ size') : Chunked (db.putChunk ino k d) ino size' := by
  refine ⟨?_, fun c hc => ?_, fun c hc => ?_⟩
  · rw [chunksOf_put, List.map_append, List.nodup_append]
    refine ⟨(List.filter_sublist.map _).nodup h.nodup, List.nodup_singleton _, ?_⟩
    intro i hi j hj
    obtain ⟨c, hc, rfl⟩ := List.mem_map.mp hi
    obtain rfl : j = k := by simpa using hj
    simpa using (List.mem_filter.mp hc).2
  · rcases mem_put.mp hc with hc | rfl
    · exact h.short c hc.1
    · exact hd
  · rcases mem_put.mp hc with hc | rfl
    · exact (h.within c hc.1).trans hle
    · exact hw

theorem byteAt_put {p : ℕ} : byteAt (db.putChunk ino k d) ino p =
    if p / CHUNK_SIZE = k then d.getD (p % CHUNK_SIZE) 0 else byteAt db ino p := by
  unfold byteAt
  rw [getChunk_put]
  split_ifs <;> rfl

/-! ### Writes -/

/-- The chunk that `write` stores, in both of its branches. -/
theorem written_chunk (h : Chunked db ino size) {n : ℕ} (hn : n = min (CHUNK_SIZE - off % CHUNK_SIZE) data.length) :
    ∃ d, (if n ≠ CHUNK_SIZE
          then SqliteFile.overwrite ((db.getChunk ino (off / CHUNK_SIZE)).getD []) (off % CHUNK_SIZE) (data.take n)
          else data.take n) = d ∧
      d.length = max ((db.getChunk ino (off / CHUNK_SIZE)).getD []).length (off % CHUNK_SIZE + n) ∧
      ∀ q, d.getD q 0 = if off % CHUNK_SIZE ≤ q ∧ q < off % CHUNK_SIZE + n then data.getD (q - off % CHUNK_SIZE) 0
        else ((db.getChunk ino (off / CHUNK_SIZE)).getD []).getD q 0 := by
  have hold := h.old (k := off / CHUNK_SIZE)
  have hlen : (data.take n).length = n := by
    rw [List.length_take]
    omega
  have hmod : off % CHUNK_SIZE < CHUNK_SIZE := Nat.mod_lt _ (by decide)
  refine ⟨_, rfl, ?_, fun q => ?_⟩
  · split_ifs with hfull
    · rw [length_overwrite, hlen]
    · rw [hlen]
      omega
  · split_ifs with hfull hq hq
    · rw [getD_overwrite, hlen, if_pos hq, getD_take, if_pos (by omega)]
    · rw [getD_overwrite, hlen, if_neg hq]
    · rw [getD_take, if_pos (by omega)]
      congr 1
      omega
    · rw [getD_take, if_neg (by omega)]
      exact (getD_beyond (by omega)).symm

theorem writeChunks_holds (ino : Ino) : ∀ {fuel : ℕ} (off : ℕ) (data : Bytes) {db : Db} {size : ℕ}, data.length ≤ fuel →
    Chunked db ino size →
      Chunked (SqliteFile.writeChunks db ino fuel off data) ino (max size (off + data.length)) ∧
      ∀ p, byteAt (SqliteFile.writeChunks db ino fuel off data) ino p =
        if off ≤ p ∧ p < off + data.length then data.getD (p - off) 0 else byteAt db ino p := by
  intro fuel
  induction fuel with
  | zero =>
    intro off data db size hf h
    have hd : data.length = 0 := Nat.le_zero.mp hf
    refine ⟨⟨h.nodup, h.short, fun c hc => (h.within c hc).trans (le_max_left _ _)⟩, fun p => ?_⟩
    rw [if_neg (by omega)]
    rfl
  | succ fuel ih =>
    intro off data db size hf h
    unfold SqliteFile.writeChunks
    by_cases hempty : data.isEmpty = true
    · have hd : data.length = 0 := by simpa using hempty
      rw [if_pos hempty]
      refine ⟨⟨h.nodup, h.short, fun c hc => (h.within c hc).trans (le_max_left _ _)⟩, fun p => ?_⟩
      rw [if_neg (by omega)]
    · rw [if_neg hempty]
      dsimp only
      have hpos : 0 < data.length := List.length_pos_iff.mpr (by simpa using hempty)
      have hmod : off % CHUNK_SIZE < CHUNK_SIZE := Nat.mod_lt _ (by decide)
      have hold := h.old (k := off / CHUNK_SIZE)
      generalize hn : min (CHUNK_SIZE - off % CHUNK_SIZE) data.length = n
      obtain ⟨d, hd, hlen, hbyte⟩ := written_chunk h hn.symm
      rw [hd]
      have hdiv : off / CHUNK_SIZE * CHUNK_SIZE + off % CHUNK_SIZE = off := Nat.div_add_mod' _ _
      have hwithin : off / CHUNK_SIZE * CHUNK_SIZE + d.length ≤ max size (off + n) := by
        have : off / CHUNK_SIZE * CHUNK_SIZE + ((db.getChunk ino (off / CHUNK_SIZE)).getD []).length ≤
            max size (off + n) := by
          cases hg : db.getChunk ino (off / CHUNK_SIZE) with
          | none =>
            simp only [Option.getD_none, List.length_nil]
            omega
          | some e =>
            obtain ⟨c, hc, hk, rfl⟩ := getChunk_mem hg
            have := h.within c hc
            rw [hk] at this
            exact this.trans (le_max_left _ _)
        rw [hlen]
        omega
      have hput : Chunked (db.putChunk ino (off / CHUNK_SIZE) d) ino (max size (off + n)) :=
        h.put (le_max_left _ _) (by omega) hwithin
      have hdrop : (data.drop n).length = data.length - n := List.length_drop
      obtain ⟨hchunked, hb⟩ := ih (off + n) (data.drop n) (by rw [hdrop]; omega) hput
      refine ⟨?_, fun p => ?_⟩
      · rw [hdrop] at hchunked
        have : max (max size (off + n)) (off + n + (data.length - n)) = max size (off + data.length) := by omega
        rwa [this] at hchunked
      · rw [hb p, hdrop, byteAt_put, getD_drop, hbyte]
        by_cases h1 : off + n ≤ p ∧ p < off + n + (data.length - n)
        · rw [if_pos h1, if_pos (by omega)]
          congr 1
          omega
        · rw [if_neg h1]
          have hdm : p / CHUNK_SIZE * CHUNK_SIZE + p % CHUNK_SIZE = p := Nat.div_add_mod' _ _
          have hpm : p % CHUNK_SIZE < CHUNK_SIZE := Nat.mod_lt _ (by decide)
          by_cases h2 : off ≤ p ∧ p < off + n
          · have hk : p / CHUNK_SIZE = off / CHUNK_SIZE := by
              simp only [CHUNK_SIZE] at *
              omega
            rw [hk] at hdm
            rw [if_pos hk, if_pos (by omega), if_pos (by omega)]
            congr 1
            omega
          · have h3 : ¬ (off ≤ p ∧ p < off + data.length) := by omega
            rw [if_neg h3]
            split_ifs with hk h4
            · rw [hk] at hdm
              omega
            · unfold byteAt
              rw [hk]
            · rfl

/-! ### Truncates -/

/-- The tables without the chunks of a file after one of them. -/
def dropAfter (db : Db) (ino : Ino) (last : ℕ) : Db :=
  { db with data := db.data.filter fun c => !(c.ino = ino && last < c.index) }

theorem chunksOf_dropAfter {last : ℕ} :
    (dropAfter db ino last).chunksOf ino = (db.chunksOf ino).filter fun c => c.index ≤ last := by
  unfold chunksOf dropAfter
  dsimp only
  rw [List.filter_filter, List.filter_filter]
  refine List.filter_congr fun c _ => ?_
  by_cases hi : c.ino = ino
  · by_cases hl : last < c.index
    · simp [hi, hl]
    · simp [hi, hl, not_lt.mp hl]
  · simp [hi]

theorem getChunk_none (h : ∀ c ∈ db.chunksOf ino, c.index ≠ k) : db.getChunk ino k = none := by
  have hg : Table.get Chunk.index (db.chunksOf ino) k = none := Table.get_none.mpr h
  exact congrArg (Option.map Chunk.data) hg

theorem getChunk_dropAfter (h : Chunked db ino size) {last j : ℕ} :
    (dropAfter db ino last).getChunk ino j = if j ≤ last then db.getChunk ino j else none := by
  have hd : Chunked (dropAfter db ino last) ino size := by
    refine ⟨?_, fun c hc => ?_, fun c hc => ?_⟩ <;> rw [chunksOf_dropAfter] at *
    · exact (List.filter_sublist.map _).nodup h.nodup
    · exact h.short c (List.mem_filter.mp hc).1
    · exact h.within c (List.mem_filter.mp hc).1
  by_cases hex : ∃ c ∈ (dropAfter db ino last).chunksOf ino, c.index = j
  · obtain ⟨c, hc, rfl⟩ := hex
    have hc' := hc
    rw [chunksOf_dropAfter, List.mem_filter, decide_eq_true_eq] at hc'
    rw [hd.getChunk hc, if_pos hc'.2, h.getChunk hc'.1]
  · push Not at hex
    rw [getChunk_none hex]
    split_ifs with hj
    · refine (getChunk_none fun c hc hcj => hex c ?_ hcj).symm
      rw [chunksOf_dropAfter, List.mem_filter, decide_eq_true_eq]
      exact ⟨hc, hcj ▸ hj⟩
    · rfl

/-- A chunk table that ends with its `last` chunk, cut to `n`. -/
theorem truncated {db' : Db} (h : Chunked db ino size) {n last : ℕ} (hn : last * CHUNK_SIZE < n)
    (hn' : n ≤ (last + 1) * CHUNK_SIZE) (hnodup : ((db'.chunksOf ino).map Chunk.index).Nodup)
    (hmem : ∀ c ∈ db'.chunksOf ino, c ∈ db.chunksOf ino ∧ c.index < last ∨
      c.index = last ∧ c.data.length ≤ n - last * CHUNK_SIZE)
    (hget : ∀ j, db'.getChunk ino j =
      if j < last then db.getChunk ino j
      else if j = last then (db.getChunk ino last).map (List.take (n - last * CHUNK_SIZE)) else none) :
    Chunked db' ino n ∧ ∀ p, byteAt db' ino p = if p < n then byteAt db ino p else 0 := by
  refine ⟨⟨hnodup, fun c hc => ?_, fun c hc => ?_⟩, fun p => ?_⟩
  · rcases hmem c hc with ⟨hc, -⟩ | ⟨-, hlen⟩
    · exact h.short c hc
    · simp only [CHUNK_SIZE] at *
      omega
  · rcases hmem c hc with ⟨hc, hlt⟩ | ⟨hi, hlen⟩
    · have := h.short c hc
      simp only [CHUNK_SIZE] at *
      omega
    · rw [hi]
      omega
  · have hmod : p % CHUNK_SIZE < CHUNK_SIZE := Nat.mod_lt _ (by decide)
    have hdm : p / CHUNK_SIZE * CHUNK_SIZE + p % CHUNK_SIZE = p := Nat.div_add_mod' _ _
    unfold byteAt
    rw [hget]
    split_ifs with h1 h2 h3 h4
    · rfl
    · simp only [CHUNK_SIZE] at *
      omega
    · rw [h3]
      rw [h3] at hdm
      cases db.getChunk ino last with
      | none => rfl
      | some d =>
        simp only [Option.map_some, Option.getD_some]
        rw [getD_take, if_pos (by omega)]
    · rw [h3] at hdm
      cases db.getChunk ino last with
      | none => rfl
      | some d =>
        simp only [Option.map_some, Option.getD_some]
        rw [getD_take, if_neg (by omega)]
    · simp only [CHUNK_SIZE] at *
      omega
    · rfl

/-- A file without chunks. -/
theorem delData_holds (db : Db) (ino : Ino) :
    Chunked (db.delData ino) ino 0 ∧ ∀ p, byteAt (db.delData ino) ino p = 0 := by
  have hnil : (db.delData ino).chunksOf ino = [] := chunksOf_delData.trans (if_pos rfl)
  have hnone : ∀ c ∈ (db.delData ino).chunksOf ino, False := by simp [hnil]
  refine ⟨⟨?_, fun c hc => (hnone c hc).elim, fun c hc => (hnone c hc).elim⟩, fun p => ?_⟩
  · rw [hnil]
    exact List.nodup_nil
  · have hget : (db.delData ino).getChunk ino (p / CHUNK_SIZE) = none := getChunk_none fun c hc _ => hnone c hc
    show (((db.delData ino).getChunk ino (p / CHUNK_SIZE)).getD []).getD _ 0 = 0
    rw [hget]
    rfl

/-- The last chunk that stays, cut where the file is to end. -/
def cutLast (db : Db) (ino : Ino) (last remainder : ℕ) : Db :=
  match (dropAfter db ino last).getChunk ino last with
  | some chunk =>
    if 0 < remainder && remainder < chunk.length then (dropAfter db ino last).putChunk ino last (chunk.take remainder)
    else dropAfter db ino last
  | none => dropAfter db ino last

theorem truncate_eq {f : SqliteFile} {n : ℕ} (h : n ≠ 0) : f.truncate db n =
    (cutLast db f.ino ((n - 1) / CHUNK_SIZE) (n % CHUNK_SIZE)).updInode f.ino fun i => { i with size := asI64 n } := by
  unfold SqliteFile.truncate
  rw [if_neg h]
  rfl

theorem truncate_holds (h : Chunked db ino size) {f : SqliteFile} (hf : f.ino = ino) {n : ℕ} :
    Chunked (f.truncate db n) ino n ∧
      ∀ p, byteAt (f.truncate db n) ino p = if p < n then byteAt db ino p else 0 := by
  subst hf
  by_cases h0 : n = 0
  · subst h0
    obtain ⟨hchunked, hbyte⟩ := delData_holds db f.ino
    unfold SqliteFile.truncate
    rw [if_pos rfl]
    refine ⟨⟨hchunked.nodup, hchunked.short, hchunked.within⟩, fun p => ?_⟩
    rw [if_neg (Nat.not_lt_zero p)]
    exact hbyte p
  · rw [truncate_eq h0]
    generalize hlast : (n - 1) / CHUNK_SIZE = last
    have hlt : last * CHUNK_SIZE < n := by
      simp only [CHUNK_SIZE] at *
      omega
    have hle : n ≤ (last + 1) * CHUNK_SIZE := by
      simp only [CHUNK_SIZE] at *
      omega
    have hcases : n % CHUNK_SIZE = 0 ∧ n - last * CHUNK_SIZE = CHUNK_SIZE ∨
        0 < n % CHUNK_SIZE ∧ n - last * CHUNK_SIZE = n % CHUNK_SIZE := by
      simp only [CHUNK_SIZE] at *
      omega
    have hdrop : ∀ j, (dropAfter db f.ino last).getChunk f.ino j = if j ≤ last then db.getChunk f.ino j else none :=
      fun j => getChunk_dropAfter h
    have hmemdrop : ∀ c, c ∈ (dropAfter db f.ino last).chunksOf f.ino ↔ c ∈ db.chunksOf f.ino ∧ c.index ≤ last := by
      intro c
      rw [chunksOf_dropAfter, List.mem_filter, decide_eq_true_eq]
    have hnodup : (((dropAfter db f.ino last).chunksOf f.ino).map Chunk.index).Nodup := by
      rw [chunksOf_dropAfter]
      exact (List.filter_sublist.map _).nodup h.nodup
    have hlastget : (dropAfter db f.ino last).getChunk f.ino last = db.getChunk f.ino last := by
      rw [hdrop, if_pos le_rfl]
    -- where the last chunk is short enough it stays
    have hstay : (∀ d, db.getChunk f.ino last = some d → d.length ≤ n - last * CHUNK_SIZE) →
        Chunked (dropAfter db f.ino last) f.ino n ∧
          ∀ p, byteAt (dropAfter db f.ino last) f.ino p = if p < n then byteAt db f.ino p else 0 := by
      intro hshort
      refine truncated h hlt hle hnodup (fun c hc => ?_) fun j => ?_
      · obtain ⟨hc, hi⟩ := (hmemdrop c).mp hc
        rcases Nat.lt_or_eq_of_le hi with hi | hi
        · exact .inl ⟨hc, hi⟩
        · exact .inr ⟨hi, hshort c.data (hi ▸ h.getChunk hc)⟩
      · rw [hdrop]
        split_ifs with h1 h2 h3 h4 h5
        · rfl
        · rw [h3]
          cases hg : db.getChunk f.ino last with
          | none => rfl
          | some d => rw [Option.map_some, List.take_of_length_le (hshort d hg)]
        · omega
        · omega
        · omega
        · rfl
    have hupd : ∀ {db' : Db} {g : Inode → Inode}, (Chunked db' f.ino n ∧
        ∀ p, byteAt db' f.ino p = if p < n then byteAt db f.ino p else 0) →
        Chunked (db'.updInode f.ino g) f.ino n ∧
          ∀ p, byteAt (db'.updInode f.ino g) f.ino p = if p < n then byteAt db f.ino p else 0 :=
      fun h => ⟨⟨h.1.nodup, h.1.short, h.1.within⟩, h.2⟩
    refine hupd ?_
    unfold cutLast
    rw [hlastget]
    cases hg : db.getChunk f.ino last with
    | none => exact hstay fun d hd => by cases hg.symm.trans hd
    | some d =>
      dsimp only
      by_cases hcut : (0 < n % CHUNK_SIZE && n % CHUNK_SIZE < d.length) = true
      · rw [if_pos hcut]
        rw [Bool.and_eq_true, decide_eq_true_eq, decide_eq_true_eq] at hcut
        have hrem : n - last * CHUNK_SIZE = n % CHUNK_SIZE := by omega
        refine truncated h hlt hle ?_ (fun c hc => ?_) fun j => ?_
        · rw [chunksOf_put, List.map_append, List.nodup_append]
          refine ⟨(List.filter_sublist.map _).nodup hnodup, List.nodup_singleton _, ?_⟩
          intro i hi j hj
          obtain ⟨c, hc, rfl⟩ := List.mem_map.mp hi
          obtain rfl : j = last := by simpa using hj
          simpa using (List.mem_filter.mp hc).2
        · rcases mem_put.mp hc with ⟨hc, hne⟩ | rfl
          · obtain ⟨hc, hi⟩ := (hmemdrop c).mp hc
            exact .inl ⟨hc, lt_of_le_of_ne hi hne⟩
          · refine .inr ⟨rfl, ?_⟩
            rw [hrem, List.length_take]
            exact min_le_left _ _
        · rw [getChunk_put, hdrop, hrem, hg]
          split_ifs with h1 h2 h3 h4
          · omega
          · rfl
          · rfl
          · omega
          · omega
          · rfl
      · rw [if_neg hcut]
        rw [Bool.and_eq_true, decide_eq_true_eq, decide_eq_true_eq] at hcut
        have hlen : d.length ≤ CHUNK_SIZE := by
          have := h.old (k := last)
          rwa [hg] at this
        refine hstay fun e he => ?_
        obtain rfl : d = e := Option.some.inj (hg.symm.trans he)
        omega

/-! ### Reads of whole chunks -/

/-- Each chunk is full, or the file ends with it or one byte later, or it is
one byte short and only zeros follow. -/
def Whole (db : Db) (ino : Ino) (size : ℕ) : Prop :=
  ∀ c ∈ db.chunksOf ino, c.data.length = CHUNK_SIZE ∨ size ≤ c.index * CHUNK_SIZE + c.data.length + 1 ∨
    c.data.length + 1 = CHUNK_SIZE ∧ ∀ c' ∈ db.chunksOf ino, c.index < c'.index → ∀ b ∈ c'.data, b = 0

instance : Decidable (Whole db ino size) := by
  have zeros : ∀ data : Bytes, Decidable (∀ b ∈ data, b = 0) := fun data => List.decidableBAll _ data
  unfold Whole
  infer_instance

/-- `read` has the bytes from the offset up to the `next` chunk. -/
structure Upto (db : Db) (ino : Ino) (off n next : ℕ) (result : Bytes) : Prop where
  length : result.length = min n (next * CHUNK_SIZE - off)
  byte : ∀ q < result.length, result.getD q 0 = byteAt db ino (off + q)

/-- `read` has the bytes, but for zeros at their end. -/
structure Ends (db : Db) (ino : Ino) (off n : ℕ) (result : Bytes) : Prop where
  length : result.length ≤ n
  byte : ∀ q < n, result.getD q 0 = byteAt db ino (off + q)

theorem byteAt_none {p : ℕ} (h : db.getChunk ino (p / CHUNK_SIZE) = none) : byteAt db ino p = 0 := by
  unfold byteAt
  rw [h]
  rfl

variable {n next : ℕ} {result : Bytes}

theorem fillGap_upto : ∀ (gap : ℕ) {next : ℕ} {result : Bytes}, off / CHUNK_SIZE ≤ next →
    Upto db ino off n next result →
    (∀ k, next ≤ k → k < next + gap → db.getChunk ino k = none) →
      Upto db ino off n (next + gap) (SqliteFile.fillGap (off / CHUNK_SIZE) (off % CHUNK_SIZE) n gap next result) := by
  intro gap
  induction gap with
  | zero => exact fun _ h _ => h
  | succ gap ih =>
    intro next result hstart h hnone
    have hdm : off / CHUNK_SIZE * CHUNK_SIZE + off % CHUNK_SIZE = off := Nat.div_add_mod' _ _
    have hmod : off % CHUNK_SIZE < CHUNK_SIZE := Nat.mod_lt _ (by decide)
    have hlen := h.length
    unfold SqliteFile.fillGap
    by_cases hlt : result.length < n
    · rw [if_pos hlt]
      dsimp only
      generalize hs : (if next = off / CHUNK_SIZE then off % CHUNK_SIZE else 0) = skip
      have hskip : skip < CHUNK_SIZE ∧ next * CHUNK_SIZE - off + (CHUNK_SIZE - skip) =
        (next + 1) * CHUNK_SIZE - off := by
        by_cases he : next = off / CHUNK_SIZE
        · rw [if_pos he] at hs
          simp only [CHUNK_SIZE] at *
          omega
        · rw [if_neg he] at hs
          simp only [CHUNK_SIZE] at *
          omega
      have hnext : Upto db ino off n (next + 1)
          (result ++ List.replicate (min (CHUNK_SIZE - skip) (n - result.length)) 0) := by
        refine ⟨?_, fun q hq => ?_⟩
        · rw [List.length_append, List.length_replicate]
          omega
        · rw [List.length_append, List.length_replicate] at hq
          rw [getD_append, getD_zeros]
          split_ifs with hq'
          · exact h.byte q hq'
          · refine (byteAt_none (hnone _ ?_ ?_)).symm
            · simp only [CHUNK_SIZE] at *
              omega
            · simp only [CHUNK_SIZE] at *
              omega
      have hrest := ih (Nat.le_succ_of_le hstart) hnext fun k hk hk' => hnone k (by omega) (by omega)
      have hadd : next + 1 + gap = next + (gap + 1) := by omega
      rwa [hadd] at hrest
    · rw [if_neg hlt]
      refine ⟨?_, h.byte⟩
      have : next * CHUNK_SIZE ≤ (next + (gap + 1)) * CHUNK_SIZE := Nat.mul_le_mul_right _ (by omega)
      omega

theorem fillGap_zeros (start skip : ℕ) : ∀ (gap next : ℕ) {result : Bytes}, result.length ≤ n →
    ∃ k, SqliteFile.fillGap start skip n gap next result = result ++ List.replicate k 0 ∧ result.length + k ≤ n := by
  intro gap
  induction gap with
  | zero => exact fun _ _ h => ⟨0, (List.append_nil _).symm, h⟩
  | succ gap ih =>
    intro next result h
    unfold SqliteFile.fillGap
    by_cases hlt : result.length < n
    · rw [if_pos hlt]
      dsimp only
      generalize hz : min (CHUNK_SIZE - if next = start then skip else 0) (n - result.length) = z
      have hlen : (result ++ List.replicate z 0).length ≤ n := by
        rw [List.length_append, List.length_replicate]
        omega
      obtain ⟨k, hk, hle⟩ := ih (next + 1) hlen
      refine ⟨z + k, ?_, ?_⟩
      · rw [hk, List.append_assoc, List.replicate_append_replicate]
      · rw [List.length_append, List.length_replicate] at hle
        omega
    · rw [if_neg hlt]
      exact ⟨0, (List.append_nil _).symm, h⟩

/-- More zeros keep what has been read right. -/
theorem Ends.zeros (h : Ends db ino off n result) {zeros : Bytes} (hz : ∀ b ∈ zeros, b = 0)
    (hle : (result ++ zeros).length ≤ n) : Ends db ino off n (result ++ zeros) := by
  refine ⟨hle, fun q hq => ?_⟩
  rw [← h.byte q hq, getD_append]
  split_ifs with hlt
  · rfl
  · rw [getD_beyond (not_lt.mp hlt)]
    by_cases hz' : q - result.length < zeros.length
    · rw [List.getD_eq_getElem _ _ hz']
      exact hz _ (List.getElem_mem hz')
    · exact getD_beyond (not_lt.mp hz')

/-- Rows of zeros add zeros. -/
theorem readRows_zeros {start skip : ℕ} : ∀ {rows : List Chunk} {next : ℕ} {result : Bytes},
    Ends db ino off n result → (∀ c ∈ rows, start < c.index ∧ ∀ b ∈ c.data, b = 0) →
      ∃ out, SqliteFile.readRows start skip n rows next result = some out ∧ Ends db ino off n out := by
  intro rows
  induction rows with
  | nil => exact fun h _ => ⟨_, rfl, h⟩
  | cons c rows ih =>
    intro next result h hrows
    obtain ⟨hlt, hzero⟩ := hrows c List.mem_cons_self
    obtain ⟨k, hk, hle⟩ := fillGap_zeros start skip (c.index - next) next h.length
    have hgap : Ends db ino off n (result ++ List.replicate k 0) :=
      h.zeros (fun b hb => List.eq_of_mem_replicate hb) (by rw [List.length_append, List.length_replicate]; exact hle)
    unfold SqliteFile.readRows
    dsimp only
    rw [hk, if_neg hlt.ne']
    split_ifs with hfull hrange
    · exact ⟨_, rfl, hgap⟩
    · omega
    · refine ih (hgap.zeros (fun b hb => hzero b (List.mem_of_mem_drop (List.mem_of_mem_take hb))) ?_)
        fun c' hc' => hrows c' (List.mem_cons_of_mem _ hc')
      rw [List.length_append, List.length_take, List.length_drop]
      omega

theorem byteAt_chunk (h : Chunked db ino size) (hc : c ∈ db.chunksOf ino) {q : ℕ} (hq : q < CHUNK_SIZE) :
    byteAt db ino (c.index * CHUNK_SIZE + q) = c.data.getD q 0 := by
  have hdiv : (c.index * CHUNK_SIZE + q) / CHUNK_SIZE = c.index := by
    simp only [CHUNK_SIZE] at *
    omega
  have hmod : (c.index * CHUNK_SIZE + q) % CHUNK_SIZE = q := by
    simp only [CHUNK_SIZE] at *
    omega
  unfold byteAt
  rw [hdiv, hmod, h.getChunk hc]
  rfl

/-- Beyond a chunk that is not full nothing but zeros is left. -/
theorem Whole.zero_after (hw : Whole db ino size) (h : Chunked db ino size) (hc : c ∈ db.chunksOf ino)
    (hshort : c.data.length < CHUNK_SIZE) {p : ℕ} (hp : c.index * CHUNK_SIZE + c.data.length ≤ p) (hps : p < size) :
    byteAt db ino p = 0 := by
  by_cases hin : p < (c.index + 1) * CHUNK_SIZE
  · obtain ⟨q, rfl⟩ : ∃ q, p = c.index * CHUNK_SIZE + q := ⟨p - c.index * CHUNK_SIZE, by omega⟩
    rw [byteAt_chunk h hc (by simp only [CHUNK_SIZE] at *; omega)]
    exact getD_beyond (by omega)
  · rcases hw c hc with hfull | hend | ⟨-, hzero⟩
    · omega
    · simp only [CHUNK_SIZE] at *
      omega
    · cases hg : db.getChunk ino (p / CHUNK_SIZE) with
      | none => exact byteAt_none hg
      | some d =>
        obtain ⟨c', hc', hi, rfl⟩ := getChunk_mem hg
        have hlt : c.index < c'.index := by
          simp only [CHUNK_SIZE] at *
          omega
        unfold byteAt
        rw [hg, Option.getD_some]
        by_cases hin : p % CHUNK_SIZE < c'.data.length
        · rw [List.getD_eq_getElem _ _ hin]
          exact hzero c' hc' hlt _ (List.getElem_mem hin)
        · exact getD_beyond (not_lt.mp hin)

theorem readRows_whole (h : Chunked db ino size) (hw : Whole db ino size) (hn : off + n ≤ size) :
    ∀ {rows : List Chunk} {next : ℕ} {result : Bytes}, off / CHUNK_SIZE ≤ next → Upto db ino off n next result →
      (rows.Pairwise fun a b => a.index < b.index) →
      (∀ c ∈ rows, c ∈ db.chunksOf ino ∧ next ≤ c.index ∧ c.index * CHUNK_SIZE < off + n) →
      (∀ c ∈ db.chunksOf ino, next ≤ c.index → c.index * CHUNK_SIZE < off + n → c ∈ rows) →
        ∃ out, SqliteFile.readRows (off / CHUNK_SIZE) (off % CHUNK_SIZE) n rows next result = some out ∧
          Ends db ino off n out := by
  have hdm : off / CHUNK_SIZE * CHUNK_SIZE + off % CHUNK_SIZE = off := Nat.div_add_mod' _ _
  have hmod : off % CHUNK_SIZE < CHUNK_SIZE := Nat.mod_lt _ (by decide)
  intro rows
  induction rows with
  | nil =>
    intro next result hstart hup _ _ hall
    have hlen := hup.length
    refine ⟨result, rfl, by omega, fun q hq => ?_⟩
    by_cases hq' : q < result.length
    · exact hup.byte q hq'
    · rw [getD_beyond (not_lt.mp hq'), byteAt_none]
      refine getChunk_none fun c hc hi => ?_
      have hnext : next ≤ c.index ∧ c.index * CHUNK_SIZE < off + n := by
        simp only [CHUNK_SIZE] at *
        omega
      cases hall c hc hnext.1 hnext.2
  | cons c rows ih =>
    intro next result hstart hup hsorted hrows hall
    obtain ⟨hc, hnext, hin⟩ := hrows c List.mem_cons_self
    have hlater : ∀ c' ∈ rows, c.index < c'.index := (List.pairwise_cons.mp hsorted).1
    have hgap := fillGap_upto (c.index - next) hstart hup fun k hk hk' => getChunk_none fun c' hc' hi => by
      have hle : c'.index ≤ c.index := by omega
      have hlt : c'.index * CHUNK_SIZE < off + n := (Nat.mul_le_mul_right CHUNK_SIZE hle).trans_lt hin
      rcases List.mem_cons.mp (hall c' hc' (hi ▸ hk) hlt) with rfl | hmem
      · omega
      · have := hlater c' hmem
        omega
    rw [Nat.add_sub_cancel' hnext] at hgap
    unfold SqliteFile.readRows
    dsimp only
    generalize SqliteFile.fillGap (off / CHUNK_SIZE) (off % CHUNK_SIZE) n (c.index - next) next result = res at hgap ⊢
    have hlen := hgap.length
    by_cases hfull : n ≤ res.length
    · rw [if_pos hfull]
      exact ⟨res, rfl, by omega, fun q hq => hgap.byte q (by omega)⟩
    · rw [if_neg hfull]
      generalize hs : (if c.index = off / CHUNK_SIZE then off % CHUNK_SIZE else 0) = skip
      have hpos : skip < CHUNK_SIZE ∧ off + res.length = c.index * CHUNK_SIZE + skip := by
        by_cases he : c.index = off / CHUNK_SIZE
        · rw [if_pos he] at hs
          simp only [CHUNK_SIZE] at *
          omega
        · rw [if_neg he] at hs
          simp only [CHUNK_SIZE] at *
          omega
      have hle : c.data.length ≤ CHUNK_SIZE := h.short c hc
      have hskip : skip ≤ c.data.length := by
        rcases hw c hc with hw | hw | ⟨hw, -⟩ <;> omega
      have htake : ((c.data.drop skip).take (min (c.data.length - skip) (n - res.length))).length =
          min (c.data.length - skip) (n - res.length) := by
        rw [List.length_take, List.length_drop]
        omega
      have hbyte : ∀ q < res.length + min (c.data.length - skip) (n - res.length),
          (res ++ (c.data.drop skip).take (min (c.data.length - skip) (n - res.length))).getD q 0 =
            byteAt db ino (off + q) := by
        intro q hq
        rw [getD_append]
        split_ifs with hq'
        · exact hgap.byte q hq'
        · have hat : off + q = c.index * CHUNK_SIZE + (skip + (q - res.length)) := by omega
          rw [getD_take, if_pos (by omega), getD_drop, hat, byteAt_chunk h hc (by omega)]
      rw [if_neg (by omega)]
      by_cases hwhole : c.data.length = CHUNK_SIZE
      · refine ih (Nat.le_succ_of_le (by omega)) ⟨?_, fun q hq => hbyte q ?_⟩ (List.pairwise_cons.mp hsorted).2
          (fun c' hc' => ?_) fun c' hc' hi hin' => ?_
        · rw [List.length_append, htake, Nat.succ_mul]
          omega
        · rw [List.length_append, htake] at hq
          exact hq
        · obtain ⟨h1, -, h3⟩ := hrows c' (List.mem_cons_of_mem _ hc')
          exact ⟨h1, hlater c' hc', h3⟩
        · refine (List.mem_cons.mp (hall c' hc' (by omega) hin')).resolve_left ?_
          rintro rfl
          omega
      · have hshort : c.data.length < CHUNK_SIZE := lt_of_le_of_ne hle hwhole
        refine readRows_zeros ⟨?_, fun q hq => ?_⟩ fun c' hc' => ⟨?_, ?_⟩
        · rw [List.length_append, htake]
          omega
        · by_cases hq' : q < res.length + min (c.data.length - skip) (n - res.length)
          · exact hbyte q hq'
          · rw [getD_beyond (by rw [List.length_append, htake]; omega)]
            exact (hw.zero_after h hc hshort (by omega) (by omega)).symm
        · have := hlater c' hc'
          omega
        · have hlt := hlater c' hc'
          obtain ⟨hc'', -, hin'⟩ := hrows c' (List.mem_cons_of_mem _ hc')
          rcases hw c hc with hw | hw | ⟨-, hzero⟩
          · exact absurd hw hwhole
          · simp only [CHUNK_SIZE] at *
            omega
          · exact hzero c' hc'' hlt

/-- What has been read stays. -/
theorem readRows_prefix {start skip : ℕ} : ∀ {rows : List Chunk} {next : ℕ} {result out : Bytes},
    result.length ≤ n → SqliteFile.readRows start skip n rows next result = some out → result <+: out := by
  intro rows
  induction rows with
  | nil =>
    intro next result out _ h
    cases h
    exact List.prefix_rfl
  | cons c rows ih =>
    intro next result out hle h
    obtain ⟨k, hk, hkn⟩ := fillGap_zeros start skip (c.index - next) next hle
    have hpre : result <+: result ++ List.replicate k 0 := List.prefix_append _ _
    unfold SqliteFile.readRows at h
    dsimp only at h
    rw [hk] at h
    split_ifs at h with hfull hs hrange hrange
    · cases h
      exact hpre
    all_goals
      refine (hpre.trans (List.prefix_append _ _)).trans (ih ?_ h)
      rw [List.length_append, List.length_append, List.length_replicate, List.length_take, List.length_drop]
      rw [List.length_append, List.length_replicate] at hfull
      omega

theorem fillGap_length (start skip n : ℕ) : ∀ (gap next : ℕ) (result : Bytes),
    (SqliteFile.fillGap start skip n gap next result).length ≤ result.length + gap * CHUNK_SIZE := by
  intro gap
  induction gap with
  | zero => exact fun _ _ => Nat.le_add_right _ _
  | succ gap ih =>
    intro next result
    unfold SqliteFile.fillGap
    by_cases hlt : result.length < n
    · rw [if_pos hlt]
      refine (ih _ _).trans ?_
      rw [List.length_append, List.length_replicate, Nat.succ_mul]
      omega
    · rw [if_neg hlt]
      exact Nat.le_add_right _ _

theorem readRows_full {start skip : ℕ} {rows : List Chunk} (h : n ≤ result.length) :
    SqliteFile.readRows start skip n rows next result = some result := by
  have hgap : ∀ gap next, SqliteFile.fillGap start skip n gap next result = result := by
    intro gap next
    cases gap with
    | zero => rfl
    | succ gap =>
      unfold SqliteFile.fillGap
      exact if_neg (not_lt.mpr h)
  cases rows with
  | nil => rfl
  | cons c rows =>
    unfold SqliteFile.readRows
    dsimp only
    rw [hgap, if_pos h]

/-- Where `read` is behind, a byte comes too early. -/
theorem readRows_early (h : Chunked db ino size) {start skip p : ℕ} (hp : byteAt db ino p ≠ 0) (hpn : p < off + n) :
    ∀ {rows : List Chunk} {next : ℕ} {result out : Bytes}, start < next → off + result.length + 1 ≤ next * CHUNK_SIZE →
      (rows.Pairwise fun a b => a.index < b.index) → (∀ c ∈ rows, c ∈ db.chunksOf ino ∧ next ≤ c.index) →
      (∃ c ∈ rows, c.index = p / CHUNK_SIZE) → SqliteFile.readRows start skip n rows next result = some out →
        ∃ q, off + q < p ∧ out.getD q 0 ≠ 0 := by
  have hdm : p / CHUNK_SIZE * CHUNK_SIZE + p % CHUNK_SIZE = p := Nat.div_add_mod' _ _
  intro rows
  induction rows with
  | nil =>
    intro next result out _ _ _ _ hex
    obtain ⟨c, hc, -⟩ := hex
    cases hc
  | cons c rows ih =>
    intro next result out hstart hbehind hsorted hrows hex hread
    obtain ⟨hc, hnext⟩ := hrows c List.mem_cons_self
    obtain ⟨c', hc', hi⟩ := hex
    have hlater : ∀ c' ∈ rows, c.index < c'.index := (List.pairwise_cons.mp hsorted).1
    have hle : c.index ≤ p / CHUNK_SIZE := by
      rcases List.mem_cons.mp hc' with rfl | hmem
      · exact hi.le
      · exact hi ▸ (hlater c' hmem).le
    have hlep : c.index * CHUNK_SIZE ≤ p / CHUNK_SIZE * CHUNK_SIZE := Nat.mul_le_mul_right _ hle
    have hgaplen := fillGap_length start skip n (c.index - next) next result
    have hmul : next * CHUNK_SIZE + (c.index - next) * CHUNK_SIZE = c.index * CHUNK_SIZE := by
      rw [← Nat.add_mul, Nat.add_sub_cancel' hnext]
    unfold SqliteFile.readRows at hread
    dsimp only at hread
    generalize SqliteFile.fillGap start skip n (c.index - next) next result = res at hgaplen hread
    have hres : off + res.length + 1 ≤ c.index * CHUNK_SIZE := by omega
    have hmore : ¬ n ≤ res.length := by omega
    have hskip : ¬ c.index = start := by omega
    rw [if_neg hmore, if_neg hskip, if_neg (by omega), Nat.sub_zero, List.drop_zero] at hread
    by_cases he : c.index = p / CHUNK_SIZE
    · have hchunk : byteAt db ino p = c.data.getD (p % CHUNK_SIZE) 0 := by
        have := byteAt_chunk h hc (q := p % CHUNK_SIZE) (Nat.mod_lt _ (by decide))
        rwa [he, hdm] at this
      have hin : p % CHUNK_SIZE < c.data.length := by
        by_contra hout
        exact hp (hchunk.trans (getD_beyond (not_lt.mp hout)))
      rw [he] at hres
      refine ⟨res.length + p % CHUNK_SIZE, by omega, ?_⟩
      obtain ⟨rest, rfl⟩ := readRows_prefix (by rw [List.length_append, List.length_take]; omega) hread
      rw [getD_append, if_pos (by rw [List.length_append, List.length_take]; omega), getD_append,
        if_neg (by omega), Nat.add_sub_cancel_left, getD_take, if_pos (by omega), ← hchunk]
      exact hp
    · refine ih (Nat.lt_succ_of_lt (hstart.trans_le hnext)) ?_ (List.pairwise_cons.mp hsorted).2
        (fun c' hc' => ⟨(hrows c' (List.mem_cons_of_mem _ hc')).1, hlater c' hc'⟩) ⟨c', ?_, hi⟩ hread
      · have := h.short c hc
        rw [List.length_append, List.length_take, Nat.succ_mul]
        omega
      · refine (List.mem_cons.mp hc').resolve_left ?_
        rintro rfl
        exact he hi

/-! ### Which rows a read sees -/

/-- The rows of `read`, in order. -/
def rowsIn (db : Db) (ino : Ino) (first last : ℕ) : List Chunk :=
  ((db.chunksOf ino).filter fun c => first ≤ c.index && c.index ≤ last).insertionSort fun a b => a.index ≤ b.index

theorem mem_rowsIn {first last : ℕ} :
    c ∈ rowsIn db ino first last ↔ c ∈ db.chunksOf ino ∧ first ≤ c.index ∧ c.index ≤ last := by
  unfold rowsIn
  rw [List.mem_insertionSort, List.mem_filter, Bool.and_eq_true, decide_eq_true_eq, decide_eq_true_eq]

theorem rowsIn_sorted (h : Chunked db ino size) (first last : ℕ) :
    (rowsIn db ino first last).Pairwise fun a b => a.index < b.index := by
  have hle : (rowsIn db ino first last).Pairwise fun a b => a.index ≤ b.index := List.pairwise_insertionSort _ _
  have hne : (rowsIn db ino first last).Pairwise fun a b => a.index ≠ b.index := by
    refine List.pairwise_map.mp ?_
    have hperm := (List.perm_insertionSort (fun a b : Chunk => a.index ≤ b.index)
      ((db.chunksOf ino).filter fun c => first ≤ c.index && c.index ≤ last)).map Chunk.index
    exact hperm.nodup_iff.mpr ((List.filter_sublist.map _).nodup h.nodup)
  exact (hle.and hne).imp fun h => lt_of_le_of_ne h.1 h.2

theorem rowsIn_first {last : ℕ} (h : Chunked db ino size) (hc : c ∈ db.chunksOf ino) (hlast : c.index ≤ last) :
    ∃ rest, rowsIn db ino c.index last = c :: rest := by
  have hsorted := rowsIn_sorted h c.index last
  have hmem : c ∈ rowsIn db ino c.index last := mem_rowsIn.mpr ⟨hc, le_rfl, hlast⟩
  cases hrows : rowsIn db ino c.index last with
  | nil =>
    rw [hrows] at hmem
    cases hmem
  | cons r rest =>
    rw [hrows] at hmem hsorted
    rcases List.mem_cons.mp hmem with rfl | hmem
    · exact ⟨rest, rfl⟩
    · have hr : r ∈ rowsIn db ino c.index last := by
        rw [hrows]
        exact List.mem_cons_self
      have h1 := (mem_rowsIn.mp hr).2.1
      have h2 := (List.pairwise_cons.mp hsorted).1 c hmem
      omega

end Chunks

/-! ### Reads of a file -/

/-- A file of the store that holds the bytes of an array. -/
structure Stored (db : Db) (ino : Ino) (data : Bytes) : Prop extends Holds db ino data where
  inode : ∃ i, db.getInode ino = some i ∧ i.kind = .reg ∧ i.size = data.length
  cap : data.length ≤ MAX_FILE_SIZE

section Reads

variable {db : Db} {f : SqliteFile} {data : Bytes} {off n : ℕ}

theorem asU64_length (h : data.length ≤ MAX_FILE_SIZE) : asU64 (data.length : ℤ) = data.length := by
  unfold asU64
  simp only [MAX_FILE_SIZE] at h
  omega

theorem Stored.read_eq (h : Stored db f.ino data) : f.read db off n =
    if off ≥ data.length then some (.ok [])
    else (SqliteFile.readRows (off / CHUNK_SIZE) (off % CHUNK_SIZE) (min n (data.length - off))
      (rowsIn db f.ino (off / CHUNK_SIZE) ((off + min n (data.length - off) - 1) / CHUNK_SIZE)) (off / CHUNK_SIZE) []).map
        fun result => .ok (result ++ List.replicate (min n (data.length - off) - result.length) 0) := by
  obtain ⟨i, hi, -, hsize⟩ := h.inode
  unfold SqliteFile.read
  rw [hi]
  dsimp only
  rw [hsize, asU64_length h.cap]
  rfl

/-- A read of whole chunks returns the bytes that lie in them, and zeros elsewhere. -/
theorem read_whole {i : Inode} {size : ℕ} (hi : db.getInode f.ino = some i) (hs : asU64 i.size = size)
    (h : Chunked db f.ino size) (hw : Whole db f.ino size) (hoff : off < size) :
    ∃ b, f.read db off n = some (.ok b) ∧ b.length = min n (size - off) ∧
      ∀ q < b.length, b.getD q 0 = byteAt db f.ino (off + q) := by
  unfold SqliteFile.read
  rw [hi]
  dsimp only
  rw [hs, if_neg (not_le.mpr hoff)]
  generalize hm : min n (size - off) = m
  obtain ⟨out, hout, hends⟩ : ∃ out, SqliteFile.readRows (off / CHUNK_SIZE) (off % CHUNK_SIZE) m
      (rowsIn db f.ino (off / CHUNK_SIZE) ((off + m - 1) / CHUNK_SIZE)) (off / CHUNK_SIZE) [] = some out ∧
        Ends db f.ino off m out := by
    by_cases hm0 : m = 0
    · rw [hm0]
      exact ⟨[], readRows_full le_rfl, le_rfl, fun q hq => absurd hq (Nat.not_lt_zero q)⟩
    · have hrange : ∀ k, k ≤ (off + m - 1) / CHUNK_SIZE ↔ k * CHUNK_SIZE < off + m := by
        intro k
        rw [Nat.le_div_iff_mul_le (by decide)]
        omega
      refine readRows_whole h hw (by omega) le_rfl ⟨?_, fun q hq => absurd hq (Nat.not_lt_zero q)⟩
        (rowsIn_sorted h _ _) (fun c hc => ?_) fun c hc hi hin => ?_
      · have := Nat.div_mul_le_self off CHUNK_SIZE
        rw [List.length_nil]
        omega
      · obtain ⟨h1, h2, h3⟩ := mem_rowsIn.mp hc
        exact ⟨h1, h2, (hrange _).mp h3⟩
      · exact mem_rowsIn.mpr ⟨hc, hi, (hrange _).mpr hin⟩
  have hlen : (out ++ List.replicate (m - out.length) 0).length = m := by
    have := hends.length
    rw [List.length_append, List.length_replicate]
    omega
  refine ⟨out ++ List.replicate (m - out.length) 0, congrArg (Option.map _) hout, hlen, fun q hq => ?_⟩
  rw [getD_pad, hends.byte q (hlen ▸ hq)]

/-- **Whole chunks are read right**: the bytes are those of the array. -/
theorem agrees_of_whole (h : Stored db f.ino data) (hw : Whole db f.ino data.length) :
    f.read db off n = some (.ok (MemFile.read data off n)) := by
  rw [Flat.read_eq]
  by_cases hoff : off ≥ data.length
  · rw [h.read_eq, if_pos hoff, List.drop_of_length_le hoff, List.take_nil]
  · obtain ⟨i, hi, -, hsize⟩ := h.inode
    have hs : asU64 i.size = data.length := by rw [hsize, asU64_length h.cap]
    obtain ⟨b, hread, hlen, hbyte⟩ := read_whole (n := n) hi hs h.chunked hw (not_le.mp hoff)
    rw [hread]
    refine congrArg (some ∘ Except.ok) (ext_getD ?_ fun q hq => ?_)
    · rw [hlen, List.length_take, List.length_drop]
    · rw [hbyte q hq, h.byte, getD_take, if_pos (by omega), getD_drop]

variable {c c' : Chunk} {p : ℕ}

/-- A byte in a later chunk that is not zero: there is a first one. -/
theorem Stored.first_nonzero (h : Stored db f.ino data) (hc' : c' ∈ db.chunksOf f.ino) (hlt : c.index < c'.index)
    (hnonzero : ∃ b ∈ c'.data, b ≠ 0) : ∃ p, (c.index + 1) * CHUNK_SIZE ≤ p ∧ p < data.length ∧
      byteAt db f.ino p ≠ 0 ∧ ∀ q, (c.index + 1) * CHUNK_SIZE ≤ q → q < p → byteAt db f.ino q = 0 := by
  obtain ⟨b, hb, hb0⟩ := hnonzero
  have hex : ∃ p, (c.index + 1) * CHUNK_SIZE ≤ p ∧ byteAt db f.ino p ≠ 0 := by
    obtain ⟨q, hq, rfl⟩ := List.getElem_of_mem hb
    have hqc := h.chunked.short c' hc'
    refine ⟨c'.index * CHUNK_SIZE + q, (Nat.mul_le_mul_right _ hlt).trans (Nat.le_add_right _ _), ?_⟩
    rw [byteAt_chunk h.chunked hc' (by omega), List.getD_eq_getElem _ _ hq]
    exact hb0
  classical
  obtain ⟨hp, hp0⟩ := Nat.find_spec hex
  refine ⟨Nat.find hex, hp, ?_, hp0, fun q hq hqp => ?_⟩
  · by_contra hout
    exact hp0 ((h.byte _).trans (getD_beyond (not_lt.mp hout)))
  · by_contra hne
    exact Nat.find_min hex hqp ⟨hq, hne⟩

/-- Past a chunk that is one byte short, a read is one byte early. -/
theorem Stored.read_early (h : Stored db f.ino data) (hc : c ∈ db.chunksOf f.ino)
    (hone : c.data.length + 1 = CHUNK_SIZE) (hp : (c.index + 1) * CHUNK_SIZE ≤ p) (hplen : p < data.length)
    (hp0 : byteAt db f.ino p ≠ 0) (hmin : ∀ q, (c.index + 1) * CHUNK_SIZE ≤ q → q < p → byteAt db f.ino q = 0) :
    f.read db (c.index * CHUNK_SIZE + c.data.length) (p - (c.index * CHUNK_SIZE + c.data.length) + 1) ≠
      some (.ok (MemFile.read data (c.index * CHUNK_SIZE + c.data.length)
        (p - (c.index * CHUNK_SIZE + c.data.length) + 1))) := by
  intro hread
  rw [Nat.succ_mul] at hp
  rw [h.read_eq, if_neg (by omega), Flat.read_eq] at hread
  have hm : min (p - (c.index * CHUNK_SIZE + c.data.length) + 1)
      (data.length - (c.index * CHUNK_SIZE + c.data.length)) = p - (c.index * CHUNK_SIZE + c.data.length) + 1 := by
    omega
  have hstart : (c.index * CHUNK_SIZE + c.data.length) / CHUNK_SIZE = c.index := by
    simp only [CHUNK_SIZE] at *
    omega
  have hskip : (c.index * CHUNK_SIZE + c.data.length) % CHUNK_SIZE = c.data.length := by
    simp only [CHUNK_SIZE] at *
    omega
  have hstop : (c.index * CHUNK_SIZE + c.data.length + (p - (c.index * CHUNK_SIZE + c.data.length) + 1) - 1) /
      CHUNK_SIZE = p / CHUNK_SIZE := by
    congr 1
    omega
  rw [hm, hstart, hskip, hstop] at hread
  have hlater : c.index < p / CHUNK_SIZE := by
    simp only [CHUNK_SIZE] at *
    omega
  have hsorted := rowsIn_sorted h.chunked c.index (p / CHUNK_SIZE)
  have hmem : ∀ r, r ∈ rowsIn db f.ino c.index (p / CHUNK_SIZE) → r ∈ db.chunksOf f.ino :=
    fun r hr => (mem_rowsIn.mp hr).1
  obtain ⟨r, hr, hri⟩ : ∃ r ∈ rowsIn db f.ino c.index (p / CHUNK_SIZE), r.index = p / CHUNK_SIZE := by
    cases hg : db.getChunk f.ino (p / CHUNK_SIZE) with
    | none => exact absurd (byteAt_none hg) hp0
    | some d =>
      obtain ⟨r, hr, hi, -⟩ := getChunk_mem hg
      exact ⟨r, mem_rowsIn.mpr ⟨hr, by omega, hi.le⟩, hi⟩
  obtain ⟨rest, hrest⟩ := rowsIn_first h.chunked hc hlater.le
  rw [hrest] at hread hsorted hmem hr
  have hr : r ∈ rest := by
    refine (List.mem_cons.mp hr).resolve_left ?_
    rintro rfl
    omega
  obtain ⟨out, hout, heq⟩ := Option.map_eq_some_iff.mp hread
  obtain ⟨q, hq, hq0⟩ : ∃ q, c.index * CHUNK_SIZE + c.data.length + q < p ∧ out.getD q 0 ≠ 0 := by
    unfold SqliteFile.readRows at hout
    dsimp only at hout
    rw [Nat.sub_self] at hout
    unfold SqliteFile.fillGap at hout
    rw [if_neg (by rw [List.length_nil]; omega), if_pos rfl, Nat.sub_self, Nat.zero_min, if_neg (by omega)] at hout
    refine readRows_early (n := p - (c.index * CHUNK_SIZE + c.data.length) + 1) h.chunked hp0 (by omega)
      (Nat.lt_succ_self _) ?_ (List.pairwise_cons.mp hsorted).2 (fun r hr => ?_) ⟨r, hr, hri⟩ hout
    · rw [List.take_zero, List.append_nil, List.length_nil, Nat.succ_mul]
      omega
    · exact ⟨hmem r (List.mem_cons_of_mem _ hr), (List.pairwise_cons.mp hsorted).1 r hr⟩
  have heq : out ++ List.replicate (p - (c.index * CHUNK_SIZE + c.data.length) + 1 - out.length) 0 =
      (data.drop (c.index * CHUNK_SIZE + c.data.length)).take (p - (c.index * CHUNK_SIZE + c.data.length) + 1) :=
    Except.ok.inj heq
  have hbyte : (out ++ List.replicate (p - (c.index * CHUNK_SIZE + c.data.length) + 1 - out.length) 0).getD q 0 = _ :=
    congrArg (fun b : Bytes => b.getD q 0) heq
  rw [getD_pad, getD_take, if_pos (by omega), getD_drop, ← h.byte] at hbyte
  have hzero : byteAt db f.ino (c.index * CHUNK_SIZE + c.data.length + q) = 0 := by
    cases q with
    | zero =>
      rw [Nat.add_zero, byteAt_chunk h.chunked hc (by omega)]
      exact getD_beyond le_rfl
    | succ q => exact hmin _ (by rw [Nat.succ_mul]; omega) hq
  exact hq0 (hbyte.trans hzero)

/-- A read that starts past the bytes of a short chunk, but in it, panics. -/
theorem Stored.read_panics (h : Stored db f.ino data) (hc : c ∈ db.chunksOf f.ino) (hshort : c.data.length + 1 < CHUNK_SIZE)
    (hend : c.index * CHUNK_SIZE + c.data.length + 1 < data.length) :
    f.read db (c.index * CHUNK_SIZE + c.data.length + 1) 1 = none := by
  have hm : min 1 (data.length - (c.index * CHUNK_SIZE + c.data.length + 1)) = 1 := by omega
  have hstart : (c.index * CHUNK_SIZE + c.data.length + 1) / CHUNK_SIZE = c.index := by
    simp only [CHUNK_SIZE] at *
    omega
  have hskip : (c.index * CHUNK_SIZE + c.data.length + 1) % CHUNK_SIZE = c.data.length + 1 := by
    simp only [CHUNK_SIZE] at *
    omega
  obtain ⟨rest, hrest⟩ := rowsIn_first h.chunked hc (le_refl c.index)
  rw [h.read_eq, if_neg (by omega), hm, Nat.add_sub_cancel, hstart, hskip, hrest]
  unfold SqliteFile.readRows
  dsimp only
  rw [Nat.sub_self]
  unfold SqliteFile.fillGap
  rw [if_neg (by decide), if_pos rfl, if_pos (by omega)]
  rfl

/-- **Only whole chunks are always read right**: a chunk that is shorter by
more than one byte makes a read panic, and one that is shorter by a byte moves
what follows it. -/
theorem whole_of_agrees (h : Stored db f.ino data)
    (ha : ∀ off n, f.read db off n = some (.ok (MemFile.read data off n))) : Whole db f.ino data.length := by
  intro c hc
  have hle := h.chunked.short c hc
  by_contra hno
  push Not at hno
  obtain ⟨hfull, hend, hlast⟩ := hno
  by_cases hone : c.data.length + 1 = CHUNK_SIZE
  · obtain ⟨c', hc', hlt, hnonzero⟩ := hlast hone
    obtain ⟨p, hp, hplen, hp0, hmin⟩ := h.first_nonzero hc' hlt hnonzero
    exact h.read_early hc hone hp hplen hp0 hmin (ha _ _)
  · have hpanic := h.read_panics hc (by omega) hend
    rw [ha] at hpanic
    cases hpanic

end Reads

/-! ### Runs -/

/-- The database and the array of `MemFile`. -/
structure St where
  db : Db
  data : Bytes
  deriving DecidableEq

/-- The calls that change the bytes of a file. -/
inductive Act
  | write (off : ℕ) (bytes : Bytes) (nowMs : ℤ)
  | truncate (size : ℕ)
  | setattr (size : ℕ)

/-- A call within `MAX_FILE_SIZE`, on a handle and on `MemFile`. -/
def step (f : SqliteFile) (s : St) : Act → Option St
  | .write off bytes now =>
    if off + bytes.length ≤ MAX_FILE_SIZE then some ⟨(f.write s.db off bytes now).2, MemFile.write s.data off bytes⟩
    else none
  | .truncate size =>
    if size ≤ MAX_FILE_SIZE then some ⟨f.truncate s.db size, MemFile.truncate s.data size⟩ else none
  | .setattr size =>
    if size ≤ MAX_FILE_SIZE then some ⟨(Fs.setattrSize s.db f.ino size).2, MemFile.truncate s.data size⟩ else none

/-- Each read of the file is the read of the array, and none panics. -/
def Agrees (f : SqliteFile) (s : St) : Prop :=
  ∀ off n, f.read s.db off n = some (.ok (MemFile.read s.data off n))

/-- No empty write starts beyond the end of the file. -/
def WriteOk (s : St) : Act → Prop
  | .write off bytes _ => bytes = [] → off ≤ s.data.length
  | _ => True

instance (s : St) : ∀ a, Decidable (WriteOk s a)
  | .write off bytes _ => inferInstanceAs (Decidable (bytes = [] → off ≤ s.data.length))
  | .truncate _ => isTrue trivial
  | .setattr _ => isTrue trivial

/-- An empty file. -/
structure Start (f : SqliteFile) (s : St) : Prop where
  inode : ∃ i, s.db.getInode f.ino = some i ∧ i.kind = .reg ∧ i.size = 0
  chunks : s.db.chunksOf f.ino = []
  data : s.data = []

section Runs

variable {f : SqliteFile} {s t : St}

theorem Start.stored (h : Start f s) : Stored s.db f.ino s.data where
  chunked := by
    refine ⟨?_, ?_, ?_⟩ <;> rw [h.chunks]
    · exact List.nodup_nil
    · exact fun c hc => by cases hc
    · exact fun c hc => by cases hc
  byte := fun p => by
    have hnone : s.db.getChunk f.ino (p / CHUNK_SIZE) = none := getChunk_none fun c hc => by
      rw [h.chunks] at hc
      cases hc
    rw [byteAt_none hnone, h.data]
    rfl
  inode := by
    obtain ⟨i, hi, hk, hs⟩ := h.inode
    exact ⟨i, hi, hk, by rw [h.data, hs]; rfl⟩
  cap := by
    rw [h.data]
    exact Nat.zero_le _

theorem asI64_of_le {n : ℕ} (h : n ≤ MAX_FILE_SIZE) : asI64 n = n := by
  unfold asI64
  simp only [MAX_FILE_SIZE] at h
  rw [if_pos (by omega)]

/-- A write puts its bytes in the chunks as in the array. -/
theorem holds_write (h : Stored s.db f.ino s.data) {off : ℕ} {bytes : Bytes} {now : ℤ}
    (hcap : off + bytes.length ≤ MAX_FILE_SIZE) (hok : bytes = [] → off ≤ s.data.length) :
    Stored (f.write s.db off bytes now).2 f.ino (MemFile.write s.data off bytes) := by
  obtain ⟨i, hi, hk, hs⟩ := h.inode
  unfold SqliteFile.write
  by_cases hempty : bytes.isEmpty = true
  · rw [if_pos hempty]
    obtain rfl : bytes = [] := by simpa using hempty
    have hsame : MemFile.write s.data off [] = s.data := by
      refine ext_getD ?_ fun p _ => ?_
      · rw [length_write]
        have := hok rfl
        rw [List.length_nil]
        omega
      · rw [getD_write, if_neg (by rw [List.length_nil]; omega)]
    rw [hsame]
    exact h
  · rw [if_neg hempty, if_neg (not_lt.mpr hcap), hi]
    obtain ⟨hchunked, hbyte⟩ := writeChunks_holds f.ino off bytes le_rfl h.chunked
    have hlen : (MemFile.write s.data off bytes).length = max s.data.length (off + bytes.length) := length_write
    have hcap' : (MemFile.write s.data off bytes).length ≤ MAX_FILE_SIZE := by
      rw [hlen]
      exact max_le h.cap hcap
    refine ⟨⟨?_, fun p => ?_⟩, ?_, hcap'⟩
    · rw [hlen]
      exact ⟨hchunked.nodup, hchunked.short, hchunked.within⟩
    · rw [getD_write, ← h.byte]
      exact hbyte p
    · have hget : (SqliteFile.writeChunks s.db f.ino bytes.length off bytes).getInode f.ino = some i := by
        unfold getInode
        rw [SqliteFile.writeChunks_inodes.1]
        exact hi
      refine ⟨{ i with size := asI64 (max (asU64 i.size) (off + bytes.length)), dirtySince := some now }, ?_, hk, ?_⟩
      · exact getInode_updInode_self (fun _ => rfl) hget
      · dsimp only
        rw [hs, asU64_length h.cap, ← hlen, asI64_of_le hcap']

theorem truncate_inodes {db : Db} {g : SqliteFile} {n : ℕ} :
    (g.truncate db n).inodes = (db.updInode g.ino fun i => { i with size := asI64 n }).inodes := by
  by_cases h0 : n = 0
  · unfold SqliteFile.truncate
    rw [if_pos h0]
    rfl
  · rw [truncate_eq h0]
    unfold cutLast
    split
    · split_ifs <;> rfl
    · rfl

/-- A truncate gives the inode the size. -/
theorem getInode_truncate {db : Db} {g : SqliteFile} {n : ℕ} : (g.truncate db n).getInode g.ino =
    (db.getInode g.ino).map fun i => { i with size := asI64 n } := by
  have hupd : (db.updInode g.ino fun i => { i with size := asI64 n }).getInode g.ino =
      if g.ino = g.ino then (db.getInode g.ino).map fun i => { i with size := asI64 n }
      else db.getInode g.ino := getInode_updInode fun _ => rfl
  rw [if_pos rfl] at hupd
  unfold getInode at hupd ⊢
  rw [truncate_inodes]
  exact hupd

theorem truncate_inode {db : Db} {g : SqliteFile} {n : ℕ} {i : Inode} (hg : g.ino = f.ino)
    (hi : db.getInode f.ino = some i) :
    (g.truncate db n).getInode f.ino = some { i with size := asI64 n } := by
  rw [← hg] at hi ⊢
  rw [getInode_truncate, hi]
  rfl

/-- So does a truncate. -/
theorem holds_truncate (h : Stored s.db f.ino s.data) {n : ℕ} (hcap : n ≤ MAX_FILE_SIZE) {g : SqliteFile}
    (hg : g.ino = f.ino) : Stored (g.truncate s.db n) f.ino (MemFile.truncate s.data n) := by
  obtain ⟨i, hi, hk, -⟩ := h.inode
  obtain ⟨hchunked, hbyte⟩ := truncate_holds h.chunked hg (n := n)
  have hlen : (MemFile.truncate s.data n).length = n := length_resize
  refine ⟨⟨?_, fun p => ?_⟩, ?_, ?_⟩
  · rw [hlen]
    exact hchunked
  · rw [hbyte, h.byte]
    exact getD_resize.symm
  · refine ⟨{ i with size := asI64 n }, truncate_inode hg hi, hk, ?_⟩
    rw [hlen]
    exact asI64_of_le hcap
  · rw [hlen]
    exact hcap

theorem step_stored (s : St) (a : Act) (t : St) (h : Stored s.db f.ino s.data) (hok : WriteOk s a)
    (hst : step f s a = some t) : Stored t.db f.ino t.data := by
  cases a with
  | write off bytes now =>
    simp only [step] at hst
    split_ifs at hst with hcap
    cases hst
    exact holds_write h hcap hok
  | truncate n =>
    simp only [step] at hst
    split_ifs at hst with hcap
    cases hst
    exact holds_truncate h hcap rfl
  | setattr n =>
    simp only [step] at hst
    split_ifs at hst with hcap
    cases hst
    obtain ⟨i, hi, hk, -⟩ := h.inode
    have hset : (Fs.setattrSize s.db f.ino n).2 = SqliteFile.truncate s.db ⟨f.ino, false, none⟩ n := by
      unfold Fs.setattrSize
      rw [hi]
      dsimp only
      rw [hk]
    show Stored (Fs.setattrSize s.db f.ino n).2 f.ino _
    rw [hset]
    exact holds_truncate h hcap rfl

/-- An empty write beyond the end only makes the array longer. -/
theorem write_breaks {a : Act} (h : Stored s.db f.ino s.data) (hst : step f s a = some t) (hok : ¬ WriteOk s a) :
    ¬ Agrees f t := by
  cases a with
  | write off bytes now =>
    simp only [step] at hst
    split_ifs at hst with hcap
    cases hst
    unfold WriteOk at hok
    push Not at hok
    obtain ⟨rfl, hlt⟩ := hok
    intro ha
    have hread := ha s.data.length 1
    have hdb : (f.write s.db off [] now).2 = s.db := rfl
    dsimp only at hread
    rw [hdb, h.read_eq, if_pos le_rfl, read_eq] at hread
    have hlen := congrArg List.length (Except.ok.inj (Option.some.inj hread))
    rw [List.length_take, List.length_drop, length_write, List.length_nil] at hlen
    omega
  | truncate | setattr => exact absurd trivial hok

end Runs

/-- **The chunked file reads as the array, exactly when its chunks are
whole**, in every run without an empty write beyond the end; and such a write
makes them differ. -/
theorem reads_flat (f : SqliteFile) (s₀ : St) (h₀ : Start f s₀) :
    (∀ s, Reach (step f) WriteOk s₀ s → (Agrees f s ↔ Whole s.db f.ino s.data.length)) ∧
    ∀ s a t, Reach (step f) WriteOk s₀ s → step f s a = some t → ¬ WriteOk s a → ¬ Agrees f t := by
  have hstored : ∀ s, Reach (step f) WriteOk s₀ s → Stored s.db f.ino s.data :=
    fun s h => h.inv (I := fun s : St => Stored s.db f.ino s.data) h₀.stored step_stored
  refine ⟨fun s h => ⟨fun ha => whole_of_agrees (hstored s h) ha, fun hw off n => ?_⟩, fun s a t h hst hok => ?_⟩
  · exact agrees_of_whole (hstored s h) hw
  · exact write_breaks (hstored s h) hst hok

/-- A new file. -/
def created : St := ⟨(Fs.createFile .fresh false ROOT_INO "a").2, []⟩

def handle : SqliteFile := ⟨2, false, some "/a"⟩

theorem created_start : Start handle created := ⟨⟨⟨2, .reg, 1, 0, none, false⟩, by decide⟩, by decide, rfl⟩

/-- Two writes that each end in the next chunk, and a truncate. -/
def spannedRun : List Act :=
  [.write 4094 [97, 98, 99, 100] 0, .write 8190 [101, 102, 103, 104] 1, .truncate 8193]

/-- Two full chunks and one byte: every read is the array's, within a chunk and across them. -/
theorem reads_flat_spanned :
    ∃ s, run (step handle) WriteOk created spannedRun = some s ∧
      (s.db.chunksOf 2).map (fun c => (c.index, c.data.length)) = [(0, 4096), (1, 4096), (2, 1)] ∧
      s.data.length = 8193 ∧ Agrees handle s := by
  obtain ⟨s, hs, hp⟩ := (Option.any_eq_true _ _).mp
    (by decide +kernel : (run (step handle) WriteOk created spannedRun).any (fun s => decide
      ((s.db.chunksOf 2).map (fun c => (c.index, c.data.length)) = [(0, 4096), (1, 4096), (2, 1)] ∧
        (s.db.getInode 2).map Inode.size = some 8193)) = true)
  obtain ⟨hchunks, hsize⟩ := of_decide_eq_true hp
  have hreach : Reach (step handle) WriteOk created s := .of_run hs
  have hstored : Stored s.db 2 s.data :=
    hreach.inv (I := fun s : St => Stored s.db handle.ino s.data) created_start.stored step_stored
  obtain ⟨i, hi, -, hdata⟩ := hstored.inode
  have hlen : s.data.length = 8193 := by
    rw [hi, Option.map_some, hdata] at hsize
    exact_mod_cast Option.some.inj hsize
  have hwhole : Whole s.db 2 s.data.length := by
    intro c hc
    have hmem : (c.index, c.data.length) ∈ (s.db.chunksOf 2).map (fun c => (c.index, c.data.length)) :=
      List.mem_map_of_mem hc
    simp only [hchunks, List.mem_cons, Prod.mk.injEq, List.not_mem_nil, or_false] at hmem
    rw [hlen]
    simp only [CHUNK_SIZE]
    omega
  exact ⟨s, hs, hchunks, hlen, ((reads_flat handle created created_start).1 s hreach).mpr hwhole⟩

/-- A short chunk in a file that was made longer: one read panics. -/
theorem shifted : ¬ ∀ s, Reach (step handle) anyStep created s → Agrees handle s := by
  intro h
  obtain ⟨s, hs, hp⟩ : ∃ s, Reach (step handle) anyStep created s ∧ decide (handle.read s.db 2 1 = none) = true :=
    Reach.exists_of_run [.write 0 [97] 0, .truncate 3] (by decide)
  have hread := h s hs 2 1
  rw [of_decide_eq_true hp] at hread
  cases hread

end Flat
end Smfs
