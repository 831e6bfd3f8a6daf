/-
# Files without holes

A file whose writes all start within it, and whose truncates all make it
shorter, has each of its bytes in a chunk. Of such a file every read is that of
the array (`Held.read`) and what is pushed is the array (`Held.pushed`), and
further such writes and truncates keep it so (`Held.write`, `Held.truncate`).

Key definitions: `Flat.Held`.
Key theorems: `Flat.Held.read`, `Flat.Held.pushed`, `Flat.Held.write`, `Flat.Held.truncate`.
-/
import Smfs.File.Pushed

namespace Smfs
namespace Flat

open Db Pushed

/-- The file holds an array, and each byte lies in a chunk. -/
structure Held (db : Db) (ino : Ino) (data : Bytes) : Prop extends Stored db ino data where
  solid : Solid db ino data.length

/-- The position lies in a chunk. -/
def InChunk (db : Db) (ino : Ino) (p : ℕ) : Prop :=
  p % CHUNK_SIZE < ((db.getChunk ino (p / CHUNK_SIZE)).getD []).length

section Lemmas

variable {db db' : Db} {ino : Ino} {f : SqliteFile} {data bytes : Bytes} {off n p : ℕ} {nowMs : ℤ}

/-- The chunk that `write` stores is no shorter than the old one, and reaches the end of what is written. -/
theorem written_length {old : Bytes} {q : ℕ}
    (hn : n = min (CHUNK_SIZE - off % CHUNK_SIZE) data.length) (hq : q < CHUNK_SIZE)
    (h : q < old.length ∨ q < off % CHUNK_SIZE + n) :
    q < (if n ≠ CHUNK_SIZE then SqliteFile.overwrite old (off % CHUNK_SIZE) (data.take n) else data.take n).length := by
  have hlen : (data.take n).length = n := by
    rw [List.length_take]
    omega
  split_ifs with hfull
  · rw [length_overwrite, hlen]
    omega
  · omega

theorem writeChunks_inChunk (ino : Ino) : ∀ {fuel : ℕ} (off : ℕ) (data : Bytes) {db : Db}, data.length ≤ fuel →
    InChunk db ino p ∨ off ≤ p ∧ p < off + data.length →
      InChunk (SqliteFile.writeChunks db ino fuel off data) ino p := by
  intro fuel
  induction fuel with
  | zero =>
    intro off data db hf h
    apply h.resolve_right
    omega
  | succ fuel ih =>
    intro off data db hf h
    unfold SqliteFile.writeChunks
    by_cases hempty : data.isEmpty = true
    · have hd : data.length = 0 := by simpa using hempty
      rw [if_pos hempty]
      apply h.resolve_right
      omega
    · rw [if_neg hempty]
      dsimp only
      have hmod : p % CHUNK_SIZE < CHUNK_SIZE := Nat.mod_lt _ (by decide)
      generalize hn : min (CHUNK_SIZE - off % CHUNK_SIZE) data.length = n
      have hdrop : (data.drop n).length = data.length - n := List.length_drop
      have hpos : 0 < data.length := List.length_pos_iff.mpr (by simpa using hempty)
      have hn0 : 0 < n := by
        have := Nat.mod_lt off (show 0 < CHUNK_SIZE by decide)
        omega
      apply ih (off + n) (data.drop n) (by omega)
      rw [hdrop]
      by_cases hlater : off + n ≤ p ∧ p < off + n + (data.length - n)
      · exact .inr hlater
      · refine .inl ?_
        unfold InChunk
        rw [getChunk_put]
        by_cases hk : p / CHUNK_SIZE = off / CHUNK_SIZE
        · rw [if_pos hk, Option.getD_some]
          apply written_length hn.symm hmod
          rcases h with h | h
          · exact .inl (by rwa [InChunk, hk] at h)
          · right
            simp only [CHUNK_SIZE] at *
            omega
        · rw [if_neg hk]
          apply h.resolve_right
          simp only [CHUNK_SIZE] at *
          omega

/-- A write from within a file leaves no hole. -/
theorem solid_write (h : Held db f.ino data) (hcap : off + bytes.length ≤ MAX_FILE_SIZE) (hoff : off ≤ data.length) :
    Solid (f.write db off bytes nowMs).2 f.ino (MemFile.write data off bytes).length := by
  obtain ⟨i, hi, -, -⟩ := h.inode
  rw [length_write]
  unfold SqliteFile.write
  by_cases hempty : bytes.isEmpty = true
  · have hlen : bytes.length = 0 := by simpa using hempty
    rw [if_pos hempty, hlen, Nat.add_zero, max_eq_left hoff]
    exact h.solid
  · rw [if_neg hempty, if_neg (by omega), hi]
    intro p hp
    apply writeChunks_inChunk f.ino off bytes le_rfl
    by_cases hin : p < data.length
    · exact .inl (h.solid p hin)
    · exact .inr (by omega)

/-- A file that is cut has no hole where it had none. -/
theorem solid_truncate (h : Held db f.ino data) (hn : n ≤ data.length) : Solid (f.truncate db n) f.ino n := by
  intro p hp
  rw [truncate_eq (by omega)]
  change InChunk (cutLast db f.ino ((n - 1) / CHUNK_SIZE) (n % CHUNK_SIZE)) f.ino p
  generalize hlast : (n - 1) / CHUNK_SIZE = last
  have hle : p / CHUNK_SIZE ≤ last := by
    rw [← hlast]
    exact Nat.div_le_div_right (by omega)
  have hin := h.solid p (by omega)
  have hdropped : (dropAfter db f.ino last).getChunk f.ino (p / CHUNK_SIZE) = db.getChunk f.ino (p / CHUNK_SIZE) := by
    rw [getChunk_dropAfter h.chunked, if_pos hle]
  have hkept : InChunk (dropAfter db f.ino last) f.ino p := by rwa [InChunk, hdropped]
  unfold cutLast
  split
  next chunk hc =>
    split_ifs with hcut
    · unfold InChunk
      rw [getChunk_put]
      split_ifs with hk
      · rw [InChunk, hk, hc] at hkept
        simp only [Bool.and_eq_true, decide_eq_true_eq] at hcut
        simp only [Option.getD_some, List.length_take] at hkept ⊢
        simp only [CHUNK_SIZE] at *
        omega
      · exact hkept
    · exact hkept
  next => exact hkept

theorem Held.keeps (h : Held db ino data) (hk : Keeps ino db db') : Held db' ino data := by
  have hchunk (k : ℕ) : db'.getChunk ino k = db.getChunk ino k := by
    unfold getChunk
    rw [hk.chunks]
  obtain ⟨i, hi, hkind, hsize⟩ := h.inode
  have hfile : db'.fileOf ino = some { i with nlink := 0 } := by
    rw [hk.file, fileOf, hi]
    rfl
  obtain ⟨j, hj, hij⟩ := Option.map_eq_some_iff.mp hfile
  refine ⟨⟨⟨⟨?_, ?_, ?_⟩, fun p => ?_⟩, ⟨j, hj, ?_, ?_⟩, h.cap⟩, fun p hp => ?_⟩
  · rw [hk.chunks]
    exact h.chunked.nodup
  · rw [hk.chunks]
    exact h.chunked.short
  · rw [hk.chunks]
    exact h.chunked.within
  · rw [byteAt, hchunk]
    exact h.byte p
  · exact (congrArg Inode.kind hij).trans hkind
  · exact (congrArg Inode.size hij).trans hsize
  · rw [hchunk]
    exact h.solid p hp

/-- A new file is empty. -/
theorem held_nil {i : Inode} (hi : db.getInode ino = some i) (hk : i.kind = .reg) (hs : i.size = 0)
    (hc : db.chunksOf ino = []) : Held db ino [] := by
  have hnone : ∀ c ∈ db.chunksOf ino, False := by simp [hc]
  refine ⟨⟨⟨⟨by simp [hc], fun c h => (hnone c h).elim, fun c h => (hnone c h).elim⟩, fun p => ?_⟩,
    ⟨i, hi, hk, hs⟩, Nat.zero_le _⟩, fun p hp => absurd hp (Nat.not_lt_zero p)⟩
  rw [byteAt_none (getChunk_none fun c h => (hnone c h).elim)]
  rfl

/-- **Every read of it is the read of the array.** -/
theorem Held.read (h : Held db f.ino data) (off n : ℕ) : f.read db off n = some (.ok (MemFile.read data off n)) :=
  agrees_of_whole h.toStored (whole_of_solid h.chunked h.solid)

/-- **What is pushed of it is the array.** -/
theorem Held.pushed (h : Held db ino data) : db.readAllContent ino = data := by
  obtain ⟨i, hi, hk, hs⟩ := h.inode
  have hcap := h.cap
  simp only [MAX_FILE_SIZE] at hcap
  have hlaid : Laid db ino data.length := ⟨⟨i, hi, hk, hs.trans (asI64_of_le h.cap).symm⟩, by omega, h.chunked⟩
  obtain ⟨hread, hlen⟩ := (mirrored_iff (f := ⟨ino, false, none⟩) hlaid).mpr ⟨by omega, h.solid⟩
  rw [Held.read (f := ⟨ino, false, none⟩) h, hlaid.sizeOf, Flat.read_eq] at hread
  simpa using (Except.ok.inj (Option.some.inj hread)).symm

theorem Held.write (h : Held db f.ino data) (hcap : off + bytes.length ≤ MAX_FILE_SIZE) (hoff : off ≤ data.length) :
    Held (f.write db off bytes nowMs).2 f.ino (MemFile.write data off bytes) :=
  ⟨holds_write (s := ⟨db, data⟩) h.toStored hcap fun _ => hoff, solid_write h hcap hoff⟩

theorem Held.truncate (h : Held db f.ino data) (hn : n ≤ data.length) :
    Held (f.truncate db n) f.ino (MemFile.truncate data n) := by
  refine ⟨holds_truncate (f := f) (s := ⟨db, data⟩) h.toStored (hn.trans h.cap) rfl, ?_⟩
  have hlen : (MemFile.truncate data n).length = n := length_resize
  rw [hlen]
  exact solid_truncate h hn

end Lemmas

end Flat
end Smfs
