/-
# The session cache of the TypeScript client

`SessionCache` is the one of `session-cache.ts`: a `Map` whose order is the
order of use, the bytes it holds, a lifetime for its entries and a bound on the
bytes. The clock is a sequence of readings, one for each call of `now()`. Which
entries are left depends on the clock and the bound; what is handed out is held
(`get_mem`), and what is held was put there by a `set` (`mem_set`).

Key definitions: `Content`, `SessionCache`, `SessionCache.get`, `SessionCache.set`.
Key theorems: `SessionCache.get_mem`, `SessionCache.mem_get`, `SessionCache.mem_set`.
-/
import Smfs.Lib.Table
import Smfs.Bash.Filepath

namespace Smfs.Bash

/-- `string | Uint8Array`. -/
inductive Content
  | text (s : String)
  | bytes (b : Bytes)
  deriving DecidableEq

/-- `byteLength`. -/
def Content.byteLength : Content → ℕ
  | .text s => s.utf8ByteSize
  | .bytes b => b.length

/-- `typeof content === "string" ? content.length : content.byteLength`. -/
def Content.size : Content → ℕ
  | .text s => utf16Length s
  | .bytes b => b.length

inductive DocStatus
  | done
  | failed
  | processing
  deriving DecidableEq, Repr

def normalizeStatus (s : String) : DocStatus :=
  if s = "done" then .done else if s = "failed" then .failed else .processing

structure CachedEntry where
  content : Content
  status : DocStatus
  deriving DecidableEq

/-- An entry without `expiresAt` never expires. -/
structure InternalEntry extends CachedEntry where
  expiresAt : Option ℤ
  bytes : ℕ
  deriving DecidableEq

structure SessionCache where
  /-- The least recently used first. -/
  entries : List (String × InternalEntry)
  currentBytes : ℤ
  ttlMs : Option ℤ
  maxBytes : ℤ
  /-- The readings of the clock, and how many have been taken. -/
  now : ℕ → ℤ
  reads : ℕ

namespace SessionCache

def defaultTtlMs : ℤ := 150000

/-- A cache with these options; an option that is `none` is not given. -/
def new (ttlMs : Option (Option ℤ)) (maxBytes : Option ℤ) (now : ℕ → ℤ) : SessionCache :=
  { entries := [], currentBytes := 0, ttlMs := ttlMs.getD (some defaultTtlMs),
    maxBytes := maxBytes.getD (50 * 1024 * 1024),
    now := now, reads := 0 }

def get (c : SessionCache) (path : String) : Option CachedEntry × SessionCache :=
  match Table.get Prod.fst c.entries path with
  | none => (none, c)
  | some (_, entry) =>
    let rest := Table.erase Prod.fst c.entries path
    if entry.expiresAt.any (· ≤ c.now c.reads) then
      (none, { c with entries := rest, currentBytes := c.currentBytes - entry.bytes, reads := c.reads + 1 })
    else (some entry.toCachedEntry, { c with entries := rest ++ [(path, entry)], reads := c.reads + 1 })

/-- The oldest entries go while there are too many bytes; the last one stays. -/
def evict (maxBytes : ℤ) : List (String × InternalEntry) → ℤ → List (String × InternalEntry) × ℤ
  | [], held => ([], held)
  | [e], held => ([e], held)
  | oldest :: e :: rest, held =>
    if held > maxBytes then evict maxBytes (e :: rest) (held - oldest.2.bytes) else (oldest :: e :: rest, held)

/-- When an entry written now expires, and the readings taken after that. -/
def expiry (c : SessionCache) : Option ℤ × ℕ :=
  match c.ttlMs with
  | none => (none, c.reads)
  | some 0 => (some (c.now c.reads), c.reads + 1)
  | some ttl => (some (c.now c.reads + ttl), c.reads + 1)

/-- The bytes of the entry of a path. -/
def heldBy (c : SessionCache) (path : String) : ℤ :=
  ((Table.get Prod.fst c.entries path).map fun e => (e.2.bytes : ℤ)).getD 0

def set (c : SessionCache) (path : String) (content : Content) (status : DocStatus) : SessionCache :=
  let (expiresAt, reads) := c.expiry
  let entry : InternalEntry := { content, status, expiresAt, bytes := content.byteLength }
  let (entries, held) := evict c.maxBytes (Table.erase Prod.fst c.entries path ++ [(path, entry)])
    (c.currentBytes - c.heldBy path + content.byteLength)
  { c with entries := entries, currentBytes := held, reads := reads }

def delete (c : SessionCache) (path : String) : SessionCache :=
  { c with entries := Table.erase Prod.fst c.entries path, currentBytes := c.currentBytes - c.heldBy path }

def clear (c : SessionCache) : SessionCache := { c with entries := [], currentBytes := 0 }

/-! ### What the cache holds -/

variable {c : SessionCache} {p : String} {x : String × InternalEntry}

/-- What is handed out is held. -/
theorem get_mem {e : CachedEntry} (h : (c.get p).1 = some e) : ∃ x ∈ c.entries, x.1 = p ∧ x.2.toCachedEntry = e := by
  unfold get at h
  split at h
  · cases h
  · rename_i path x hx
    obtain ⟨hmem, rfl⟩ := Table.get_some hx
    dsimp only at h
    split_ifs at h
    exact ⟨_, hmem, rfl, Option.some.inj h⟩

/-- A lookup adds nothing. -/
theorem mem_get (h : x ∈ (c.get p).2.entries) : x ∈ c.entries := by
  unfold get at h
  split at h
  · exact h
  · rename_i path entry hx
    obtain ⟨hmem, rfl⟩ := Table.get_some hx
    dsimp only at h
    split_ifs at h
    · exact (Table.mem_erase.mp h).1
    · rcases List.mem_append.mp h with h | h
      · exact (Table.mem_erase.mp h).1
      · exact List.mem_singleton.mp h ▸ hmem

theorem evict_sublist (maxBytes : ℤ) (entries : List (String × InternalEntry)) (held : ℤ) :
    (evict maxBytes entries held).1.Sublist entries := by
  induction entries generalizing held with
  | nil => exact List.Sublist.refl _
  | cons x rest ih =>
    cases rest with
    | nil => exact List.Sublist.refl _
    | cons y rest =>
      unfold evict
      split_ifs
      · exact (ih _).trans (List.sublist_cons_self _ _)
      · exact List.Sublist.refl _

/-- A `set` changes no entry but its own. -/
theorem mem_set {content : Content} {status : DocStatus}
    (h : x ∈ (c.set p content status).entries) :
    (x.1 = p ∧ x.2.toCachedEntry = ⟨content, status⟩) ∨ (x.1 ≠ p ∧ x ∈ c.entries) := by
  have hx := (evict_sublist _ _ _).subset h
  rcases List.mem_append.mp hx with hx | hx
  · obtain ⟨hmem, hne⟩ := Table.mem_erase.mp hx
    exact .inr ⟨hne, hmem⟩
  · obtain rfl := List.mem_singleton.mp hx
    exact .inl ⟨rfl, rfl⟩

theorem mem_delete (h : x ∈ (c.delete p).entries) : x.1 ≠ p ∧ x ∈ c.entries := (Table.mem_erase.mp h).symm

/-- The last entry stays. -/
theorem evict_concat (maxBytes : ℤ) (entries : List (String × InternalEntry)) (y : String × InternalEntry) (held : ℤ) :
    ∃ older, older.Sublist entries ∧ (evict maxBytes (entries ++ [y]) held).1 = older ++ [y] := by
  induction entries generalizing held with
  | nil => exact ⟨[], List.Sublist.refl _, rfl⟩
  | cons x entries ih =>
    have hevict : evict maxBytes (x :: entries ++ [y]) held =
        if held > maxBytes then evict maxBytes (entries ++ [y]) (held - x.2.bytes) else (x :: entries ++
          [y], held) := by
      cases entries with
      | nil => rfl
      | cons z entries => rfl
    rw [hevict]
    split_ifs
    · obtain ⟨older, hsub, he⟩ := ih (held - x.2.bytes)
      exact ⟨older, hsub.trans (List.sublist_cons_self _ _), he⟩
    · exact ⟨x :: entries, List.Sublist.refl _, rfl⟩

/-- What was written last is held. -/
theorem get_entries_set (c : SessionCache) (p : String) (content : Content) (status : DocStatus) :
    Table.get Prod.fst (c.set p content status).entries p =
      some (p, { content, status, expiresAt := c.expiry.1, bytes := content.byteLength }) := by
  unfold set
  dsimp only
  obtain ⟨older, hsub, he⟩ := evict_concat c.maxBytes (Table.erase Prod.fst c.entries p)
    (p, { content, status, expiresAt := c.expiry.1, bytes := content.byteLength })
    (c.currentBytes - c.heldBy p + content.byteLength)
  rw [he, Table.get_append, Table.get_none.mpr fun x hx => (Table.mem_erase.mp (hsub.subset hx)).2]
  simp [Table.get]

/-- Without a lifetime it is handed out. -/
theorem get_set_self (h : c.ttlMs = none) (content : Content) (status : DocStatus) :
    ((c.set p content status).get p).1 = some ⟨content, status⟩ := by
  have hexpiry : c.expiry.1 = none := by
    unfold expiry
    rw [h]
  unfold get
  rw [get_entries_set, hexpiry]
  rfl

/-- With a lifetime of nothing, and a clock that goes on, it is not. -/
theorem get_set_expired (h : c.ttlMs = some 0) (hclock : c.now c.reads ≤ c.now (c.reads + 1)) (content : Content)
    (status : DocStatus) :
    ((c.set p content status).get p).1 = none := by
  have hexpiry : c.expiry = (some (c.now c.reads), c.reads + 1) := by
    unfold expiry
    rw [h]
    rfl
  have hreads : (c.set p content status).reads = c.reads + 1 := by
    show c.expiry.2 = _
    rw [hexpiry]
  have hnow : (c.set p content status).now = c.now := rfl
  unfold get
  rw [get_entries_set, hexpiry]
  dsimp only
  rw [hreads, hnow, Option.any_some, if_pos (decide_eq_true hclock)]

end SessionCache

end Smfs.Bash
