/-
# What the session cache promises

The cache as a bounded map that drops what was used longest ago, under any
calls, lifetime and bound. Beside the cache runs the history of its calls
(`Watched`): what was written, used, deleted, evicted or cleared. The order of
the `Map` is the order of last use, and it holds what stands in the history but
for entries that a `get` found expired. So `totalBytes` counts the stored
contents, a `set` leaves no more than the bound or a single entry, what it
evicts was used before all that stays, and `get` returns what stands and has not
expired (`promises_run`). The last needs a clock that does not go back.

Key definitions: `Call`, `evicted`, `Watched`, `Promises`.
Key theorems: `evict_spec`, `Valid.call`, `promises_run`.
-/
import Mathlib
import Smfs.Lib.Usage
import Smfs.Bash.Cache

namespace Smfs.Bash.SessionCache

/-! ### The calls and their history -/

inductive Call
  | get (path : String)
  | set (path : String) (content : Content) (status : DocStatus)
  | delete (path : String)
  | clear

/-- The paths that had an entry before a `set` of the path, or got one by it,
and have none after it. -/
def evicted (c : SessionCache) (path : String) (after : SessionCache) : List String :=
  (path :: c.entries.map Prod.fst).filter (· ∉ after.entries.map Prod.fst)

/-- A cache and the history of its calls, the newest first. -/
structure Watched where
  cache : SessionCache
  log : List (Use String InternalEntry)

/-- An entry written now. -/
def fresh (c : SessionCache) (content : Content) (status : DocStatus) : InternalEntry :=
  { content, status, expiresAt := c.ttlMs.map (c.now c.reads + ·), bytes := content.byteLength }

def Watched.call (s : Watched) : Call → Watched
  | .get path => ⟨(s.cache.get path).2, if (s.cache.get path).1.isSome then .used path :: s.log else s.log⟩
  | .set path content status =>
    let after := s.cache.set path content status
    ⟨after, (evicted s.cache path after).map .dropped ++ .wrote path (s.cache.fresh content status) :: s.log⟩
  | .delete path => ⟨s.cache.delete path, .dropped path :: s.log⟩
  | .clear => ⟨s.cache.clear, .cleared :: s.log⟩

/-- The lifetime of the entry has lapsed at this moment. -/
def lapsed (now : ℤ) (e : InternalEntry) : Bool := e.expiresAt.any (· ≤ now)

/-- What the cache promises in a state. -/
structure Promises (s : Watched) : Prop where
  /-- The counter is the sum of the lengths. -/
  total : s.cache.currentBytes = (s.cache.entries.map fun e => (e.2.content.byteLength : ℤ)).sum
  /-- A `set` leaves what fits, or one entry. -/
  bounded : ∀ path content status, (s.cache.set path content status).currentBytes ≤ s.cache.maxBytes ∨
    (s.cache.set path content status).entries.length = 1
  /-- It evicts what was used before all that stays, and never what it wrote. -/
  oldest : ∀ path content status, ∀ q ∈ evicted s.cache path (s.cache.set path content status), q ≠ path ∧
    ∀ e ∈ (s.cache.set path content status).entries,
      Use.last (s.call (.set path content status)).log q < Use.last (s.call (.set path content status)).log e.1
  /-- It evicts no more than it must: the entry that went last did not fit. -/
  needed : ∀ path content status, evicted s.cache path (s.cache.set path content status) ≠ [] →
    ∃ e ∈ s.cache.entries, e.1 ∈ evicted s.cache path (s.cache.set path content status) ∧
      s.cache.maxBytes < (s.cache.set path content status).currentBytes + e.2.content.byteLength
  /-- A `get` returns what stands and has not lapsed. -/
  answer : ∀ path, (s.cache.get path).1 = ((Use.standing s.log path).filter
    fun e => !lapsed (s.cache.now s.cache.reads) e).map InternalEntry.toCachedEntry

/-! ### The bytes of a list of entries -/

def bytesOf (entries : List (String × InternalEntry)) : ℤ := (entries.map fun e => (e.2.bytes : ℤ)).sum

@[simp] theorem bytesOf_append (xs ys : List (String × InternalEntry)) : bytesOf (xs ++ ys) = bytesOf xs + bytesOf ys := by
  simp [bytesOf]

@[simp] theorem bytesOf_cons (x : String × InternalEntry) (xs : List (String × InternalEntry)) :
    bytesOf (x :: xs) = x.2.bytes + bytesOf xs := by simp [bytesOf]

@[simp] theorem bytesOf_nil : bytesOf [] = 0 := rfl

variable {c : SessionCache} {s : Watched} {p : String}

theorem bytesOf_erase {entries : List (String × InternalEntry)} (hn : (entries.map Prod.fst).Nodup) (p : String) :
    bytesOf (Table.erase Prod.fst entries p) =
      bytesOf entries - ((Table.get Prod.fst entries p).map fun e => (e.2.bytes : ℤ)).getD 0 := by
  induction entries with
  | nil => rfl
  | cons e entries ih =>
    rw [List.map_cons, List.nodup_cons] at hn
    rw [Table.get_cons]
    by_cases he : e.1 = p
    · have hgone : Table.erase Prod.fst (e :: entries) p = entries := by
        unfold Table.erase
        rw [List.filter_cons_of_neg (by simp [he]), List.filter_eq_self]
        intro x hx
        simpa using fun hp : x.1 = p => hn.1 (List.mem_map.mpr ⟨x, hx, hp.trans he.symm⟩)
      rw [if_pos he, hgone]
      simp
    · have hstay : Table.erase Prod.fst (e :: entries) p = e :: Table.erase Prod.fst entries p :=
        List.filter_cons_of_pos (by simp [he])
      rw [if_neg he, hstay, bytesOf_cons, bytesOf_cons, ih hn.2]
      omega

/-- What `evict` does: it drops from the front while there is too much. -/
theorem evict_spec (maxBytes : ℤ) (entries : List (String × InternalEntry)) (held : ℤ) :
    ∃ gone, entries = gone ++ (evict maxBytes entries held).1 ∧
      (evict maxBytes entries held).2 = held - bytesOf gone ∧
      ((evict maxBytes entries held).2 ≤ maxBytes ∨ (evict maxBytes entries held).1.length ≤ 1) ∧
      ∀ e ∈ gone.getLast?, maxBytes < (evict maxBytes entries held).2 + e.2.bytes := by
  induction entries generalizing held with
  | nil => exact ⟨[], rfl, by simp [evict], .inr (by simp [evict]), by simp⟩
  | cons x rest ih =>
    cases rest with
    | nil => exact ⟨[], rfl, by simp [evict], .inr (by simp [evict]), by simp⟩
    | cons y rest =>
      unfold evict
      split_ifs with hmax
      · obtain ⟨gone, hsplit, hheld, hfits, hlast⟩ := ih (held - x.2.bytes)
        refine ⟨x :: gone, by rw [List.cons_append, ← hsplit], by rw [hheld, bytesOf_cons]; omega, hfits, ?_⟩
        rcases List.eq_nil_or_concat gone with rfl | ⟨init, last, rfl⟩
        · intro e he
          obtain rfl : x = e := by simpa using he
          rw [hheld, bytesOf_nil]
          omega
        · intro e he
          rw [List.concat_eq_append, ← List.cons_append, List.getLast?_concat] at he
          exact hlast e (by simpa using he)
      · exact ⟨[], rfl, by simp, .inl (by omega), by simp⟩

/-! ### One call -/

/-- The invariant: the entries track the history, and the counter their bytes. -/
structure Valid (s : Watched) : Prop where
  clock : Monotone s.cache.now
  tracks : Tracks (fun e => lapsed (s.cache.now s.cache.reads) e = true) s.log s.cache.entries
  bytes : ∀ e ∈ s.cache.entries, e.2.bytes = e.2.content.byteLength
  total : s.cache.currentBytes = bytesOf s.cache.entries

theorem lapsed_mono {now now' : ℤ} (h : now ≤ now') (e : InternalEntry) (ho : lapsed now e = true) :
    lapsed now' e = true := by
  unfold lapsed at ho ⊢
  rw [Option.any_eq_true] at ho ⊢
  obtain ⟨d, hd, hle⟩ := ho
  exact ⟨d, hd, decide_eq_true ((of_decide_eq_true hle).trans h)⟩

/-- The readings of the clock go on. -/
theorem Valid.later (h : Valid s) {n : ℕ} (hn : s.cache.reads ≤ n) :
    Tracks (fun e => lapsed (s.cache.now n) e = true) s.log s.cache.entries :=
  h.tracks.mono fun e => lapsed_mono (h.clock hn) e

theorem Valid.heldBy_erase (h : Valid s) (p : String) :
    bytesOf (Table.erase Prod.fst s.cache.entries p) = s.cache.currentBytes - s.cache.heldBy p := by
  rw [bytesOf_erase h.tracks.nodup, h.total]
  rfl

theorem expiry_eq (c : SessionCache) : c.expiry.1 = c.ttlMs.map (c.now c.reads + ·) ∧ c.reads ≤ c.expiry.2 := by
  unfold expiry
  split <;> simp_all

/-- What a `get` does: a miss changes nothing, an entry that lapsed is
dropped, and any other is brought to the end. -/
theorem get_cases (c : SessionCache) (p : String) :
    (Table.get Prod.fst c.entries p = none ∧ c.get p = (none, c)) ∨
    ∃ e, Table.get Prod.fst c.entries p = some (p, e) ∧
      ((lapsed (c.now c.reads) e = true ∧ c.get p = (none, { c with
          entries := Table.erase Prod.fst c.entries p
          currentBytes := c.currentBytes - e.bytes
          reads := c.reads + 1 })) ∨
        (lapsed (c.now c.reads) e = false ∧ c.get p = (some e.toCachedEntry, { c with
          entries := Table.erase Prod.fst c.entries p ++ [(p, e)]
          reads := c.reads + 1 }))) := by
  unfold SessionCache.get
  rcases hg : Table.get Prod.fst c.entries p with _ | ⟨q, e⟩
  · exact .inl ⟨rfl, rfl⟩
  · obtain rfl : q = p := (Table.get_some hg).2
    refine .inr ⟨e, rfl, ?_⟩
    by_cases ho : lapsed (c.now c.reads) e = true
    · exact .inl ⟨ho, if_pos ho⟩
    · exact .inr ⟨Bool.not_eq_true _ ▸ ho, if_neg ho⟩

theorem Valid.get (h : Valid s) (p : String) : Valid (s.call (.get p)) := by
  have hlater := h.later (Nat.le_succ s.cache.reads)
  rcases get_cases s.cache p with ⟨hg, he⟩ | ⟨e, hg, ⟨ho, he⟩ | ⟨ho, he⟩⟩
  · have hcall : s.call (.get p) = s := by simp [Watched.call, he]
    rw [hcall]
    exact h
  · obtain ⟨hmem, -⟩ := Table.get_some hg
    have hcall : s.call (.get p) = ⟨(s.cache.get p).2, s.log⟩ := by simp [Watched.call, he]
    rw [hcall, he]
    refine ⟨h.clock, hlater.forget hmem (lapsed_mono (h.clock (Nat.le_succ _)) e ho), ?_, ?_⟩
    · exact fun x hx => h.bytes x (Table.mem_erase.mp hx).1
    · show s.cache.currentBytes - e.bytes = bytesOf (Table.erase Prod.fst s.cache.entries p)
      rw [bytesOf_erase h.tracks.nodup, hg, h.total]
      rfl
  · obtain ⟨hmem, -⟩ := Table.get_some hg
    have hcall : s.call (.get p) = ⟨(s.cache.get p).2, .used p :: s.log⟩ := by simp [Watched.call, he]
    rw [hcall, he]
    refine ⟨h.clock, hlater.used hmem, ?_, ?_⟩
    · intro x hx
      rcases List.mem_append.mp hx with hx | hx
      · exact h.bytes x (Table.mem_erase.mp hx).1
      · exact List.mem_singleton.mp hx ▸ h.bytes _ hmem
    · show s.cache.currentBytes = bytesOf (Table.erase Prod.fst s.cache.entries p ++ [(p, e)])
      rw [bytesOf_append, bytesOf_erase h.tracks.nodup, hg, h.total]
      simp

theorem Valid.delete (h : Valid s) (p : String) : Valid (s.call (.delete p)) :=
  ⟨h.clock, h.tracks.dropped p, fun x hx => h.bytes x (Table.mem_erase.mp hx).1, (h.heldBy_erase p).symm⟩

theorem Valid.clear (h : Valid s) : Valid (s.call .clear) :=
  ⟨h.clock, Tracks.cleared _ _, fun _ hx => absurd hx List.not_mem_nil, rfl⟩

/-! ### A write -/

/-- The entries that a `set` starts to evict from. -/
def written (c : SessionCache) (p : String) (content : Content) (status : DocStatus) : List (String × InternalEntry) :=
  Table.erase Prod.fst c.entries p ++ [(p, c.fresh content status)]

variable {content : Content} {status : DocStatus}

/-- What a `set` does: of the entries with its own at the end it keeps the
last ones. -/
theorem Valid.set_spec (h : Valid s) (p : String) (content : Content) (status : DocStatus) :
    ∃ gone, s.cache.written p content status = gone ++ (s.cache.set p content status).entries ∧
      (s.cache.set p content status).currentBytes = bytesOf (s.cache.set p content status).entries ∧
      ((s.cache.set p content status).currentBytes ≤ s.cache.maxBytes ∨
        (s.cache.set p content status).entries.length ≤ 1) ∧
      ∀ e ∈ gone.getLast?, s.cache.maxBytes < (s.cache.set p content status).currentBytes + e.2.bytes := by
  have hset : ((s.cache.set p content status).entries, (s.cache.set p content status).currentBytes) =
      evict s.cache.maxBytes (s.cache.written p content status)
        (s.cache.currentBytes - s.cache.heldBy p + content.byteLength) := by
    unfold written fresh
    rw [← (expiry_eq s.cache).1]
    rfl
  obtain ⟨gone, hsplit, hheld, hfits, hlast⟩ := evict_spec s.cache.maxBytes (s.cache.written p content status)
    (s.cache.currentBytes - s.cache.heldBy p + content.byteLength)
  rw [← hset] at hsplit hheld hfits hlast
  refine ⟨gone, hsplit, ?_, hfits, hlast⟩
  have hbytes := congrArg bytesOf hsplit
  rw [written, bytesOf_append, bytesOf_append, h.heldBy_erase] at hbytes
  simp only [bytesOf_cons, bytesOf_nil, fresh] at hbytes
  dsimp only at hheld
  omega

theorem mem_evicted {after : SessionCache} {q : String} : q ∈ evicted c p after ↔
    (q = p ∨ ∃ e ∈ c.entries, e.1 = q) ∧ ∀ e ∈ after.entries, e.1 ≠ q := by
  rw [evicted, List.mem_filter, List.mem_cons, List.mem_map, decide_eq_true_eq, List.mem_map, not_exists]
  exact and_congr_right fun _ => forall_congr' fun e => not_and

/-- What was written is kept. -/
theorem mem_set_self (c : SessionCache) (p : String) (content : Content) (status : DocStatus) :
    ∃ e ∈ (c.set p content status).entries, e.1 = p :=
  ⟨_, Table.get_some (get_entries_set c p content status)⟩

/-- The paths evicted are those of the entries dropped from the front. -/
theorem Valid.mem_evicted_iff (h : Valid s) {gone : List (String × InternalEntry)}
    (hsplit : s.cache.written p content status = gone ++ (s.cache.set p content status).entries) {q : String} :
    q ∈ evicted s.cache p (s.cache.set p content status) ↔ ∃ e ∈ gone, e.1 = q := by
  have hnodup : ((s.cache.written p content status).map Prod.fst).Nodup :=
    (h.tracks.wrote p (s.cache.fresh content status)).nodup
  rw [hsplit, List.map_append, List.nodup_append] at hnodup
  obtain ⟨x, hx, hxp⟩ := mem_set_self s.cache p content status
  rw [mem_evicted]
  constructor
  · rintro ⟨hq | ⟨e, he, rfl⟩, hno⟩
    · exact absurd (hxp.trans hq.symm) (hno x hx)
    · have hne : e.1 ≠ p := fun hp => hno x hx (hxp.trans hp.symm)
      have hmem : e ∈ s.cache.written p content status := List.mem_append_left _ (Table.mem_erase.mpr ⟨he, hne⟩)
      rw [hsplit] at hmem
      exact ⟨e, (List.mem_append.mp hmem).resolve_right fun hk => hno e hk rfl, rfl⟩
  · rintro ⟨e, he, rfl⟩
    have hmem : e ∈ s.cache.written p content status := hsplit ▸ List.mem_append_left _ he
    refine ⟨?_, fun k hk hke => hnodup.2.2 _ (List.mem_map_of_mem he) _ (List.mem_map_of_mem hk) hke.symm⟩
    rcases List.mem_append.mp hmem with hm | hm
    · exact .inr ⟨e, (Table.mem_erase.mp hm).1, rfl⟩
    · exact .inl (by rw [List.mem_singleton.mp hm])

theorem Valid.set_entries (h : Valid s) (p : String) (content : Content) (status : DocStatus) :
    (s.cache.set p content status).entries = (s.cache.written p content status).filter
      fun e => e.1 ∉ evicted s.cache p (s.cache.set p content status) := by
  obtain ⟨gone, hsplit, -⟩ := h.set_spec p content status
  rw [hsplit, List.filter_append]
  have hgone : gone.filter (fun e => e.1 ∉ evicted s.cache p (s.cache.set p content status)) = [] := by
    rw [List.filter_eq_nil_iff]
    intro e he
    simpa using (h.mem_evicted_iff hsplit).mpr ⟨e, he, rfl⟩
  have hkept : (s.cache.set p content status).entries.filter
      (fun e => e.1 ∉ evicted s.cache p (s.cache.set p content status)) = (s.cache.set p content status).entries := by
    rw [List.filter_eq_self]
    intro e he
    simpa using fun hev => (mem_evicted.mp hev).2 e he rfl
  rw [hgone, hkept, List.nil_append]

theorem Valid.set (h : Valid s) (p : String) (content : Content) (status : DocStatus) :
    Valid (s.call (.set p content status)) := by
  obtain ⟨gone, hsplit, htotal, -⟩ := h.set_spec p content status
  refine ⟨h.clock, ?_, ?_, htotal⟩
  · have htracks := ((h.later (expiry_eq s.cache).2).wrote p (s.cache.fresh content status)).drops
      (evicted s.cache p (s.cache.set p content status))
    rw [← written, ← h.set_entries] at htracks
    exact htracks
  · intro e he
    have hmem : e ∈ s.cache.written p content status := hsplit ▸ List.mem_append_right _ he
    rcases List.mem_append.mp hmem with hm | hm
    · exact h.bytes e (Table.mem_erase.mp hm).1
    · rw [List.mem_singleton.mp hm]
      rfl

/-- One call keeps the invariant. -/
theorem Valid.call (h : Valid s) (a : Call) : Valid (s.call a) := by
  cases a with
  | get p => exact h.get p
  | set p content status => exact h.set p content status
  | delete p => exact h.delete p
  | clear => exact h.clear

/-! ### What follows -/

@[simp] theorem last_drops (ks : List String) (log : List (Use String InternalEntry)) (q : String) :
    Use.last (ks.map .dropped ++ log) q = Use.last log q := by
  induction ks with
  | nil => rfl
  | cons k ks ih => exact ih

theorem Valid.answer (h : Valid s) (p : String) : (s.cache.get p).1 =
    ((Use.standing s.log p).filter fun e =>
      !lapsed (s.cache.now s.cache.reads) e).map InternalEntry.toCachedEntry := by
  rcases get_cases s.cache p with ⟨hg, he⟩ | ⟨e, hg, ⟨ho, he⟩ | ⟨ho, he⟩⟩
  · rw [he]
    rcases hs : Use.standing s.log p with _ | e
    · rfl
    · have hlapsed : lapsed (s.cache.now s.cache.reads) e = true := h.tracks.stale_of_get hg hs
      simp [Option.filter, hlapsed]
  · rw [he, h.tracks.standing_of_get hg]
    simp [Option.filter, ho]
  · rw [he, h.tracks.standing_of_get hg]
    simp [Option.filter, ho]

theorem Valid.oldest (h : Valid s) {q : String} (hq : q ∈ evicted s.cache p (s.cache.set p content status)) :
    q ≠ p ∧ ∀ e ∈ (s.cache.set p content status).entries,
      Use.last (s.call (.set p content status)).log q < Use.last (s.call (.set p content status)).log e.1 := by
  obtain ⟨gone, hsplit, -⟩ := h.set_spec p content status
  obtain ⟨x, hx, hxp⟩ := mem_set_self s.cache p content status
  refine ⟨fun hqp => (mem_evicted.mp hq).2 x hx (hxp.trans hqp.symm), fun e he => ?_⟩
  obtain ⟨g, hg, rfl⟩ := (h.mem_evicted_iff hsplit).mp hq
  have horder := (h.tracks.wrote p (s.cache.fresh content status)).order
  rw [← written, hsplit, List.pairwise_append] at horder
  simpa [Watched.call] using horder.2.2 g hg e he

theorem Valid.needed (h : Valid s) (hne : evicted s.cache p (s.cache.set p content status) ≠ []) :
    ∃ e ∈ s.cache.entries, e.1 ∈ evicted s.cache p (s.cache.set p content status) ∧
      s.cache.maxBytes < (s.cache.set p content status).currentBytes + e.2.content.byteLength := by
  obtain ⟨gone, hsplit, -, -, hlast⟩ := h.set_spec p content status
  obtain ⟨q, hq⟩ := List.exists_mem_of_ne_nil _ hne
  obtain ⟨g, hg, -⟩ := (h.mem_evicted_iff hsplit).mp hq
  obtain ⟨e, he⟩ : ∃ e, gone.getLast? = some e :=
    ⟨gone.getLast (List.ne_nil_of_mem hg), List.getLast?_eq_some_getLast _⟩
  have hmem : e ∈ gone := List.mem_of_getLast? he
  have hev := (h.mem_evicted_iff hsplit).mpr ⟨e, hmem, rfl⟩
  have hwritten : e ∈ s.cache.written p content status := hsplit ▸ List.mem_append_left _ hmem
  rcases List.mem_append.mp hwritten with hm | hm
  · have hold := (Table.mem_erase.mp hm).1
    exact ⟨e, hold, hev, by rw [← h.bytes e hold]; exact hlast e he⟩
  · exact absurd (by rw [List.mem_singleton.mp hm]) (h.oldest hev).1

theorem Valid.promises (h : Valid s) : Promises s := by
  refine ⟨?_, ?_, fun p content status q hq => h.oldest hq, fun p content status => h.needed, h.answer⟩
  · rw [h.total, bytesOf]
    congr 1
    exact List.map_congr_left fun e he => by rw [h.bytes e he]
  · intro p content status
    obtain ⟨gone, hsplit, -, hfits, -⟩ := h.set_spec p content status
    apply hfits.imp_right
    intro hle
    obtain ⟨x, hx, -⟩ := mem_set_self s.cache p content status
    have := List.length_pos_of_mem hx
    omega

theorem valid_run (calls : List Call) (h : Valid s) : Valid (calls.foldl Watched.call s) := by
  induction calls generalizing s with
  | nil => exact h
  | cons a calls ih => exact ih (h.call a)

/-- **What the cache promises**, in every state of every run. -/
theorem promises_run (ttlMs : Option (Option ℤ)) (maxBytes : Option ℤ) (now : ℕ → ℤ) (hclock : Monotone now)
    (calls : List Call) : Promises (calls.foldl Watched.call ⟨new ttlMs maxBytes now, []⟩) :=
  (valid_run calls ⟨hclock, Tracks.start _, fun _ he => absurd he List.not_mem_nil, rfl⟩).promises

theorem promises_two_files : Monotone (fun n : ℕ => (n : ℤ)) ∧
    Promises ([.set "/a.md" (.text "one") .done, .get "/a.md", .set "/b.md" (.text "two") .done].foldl Watched.call
      ⟨new (some (some 2)) (some 4) fun n : ℕ => (n : ℤ), []⟩) :=
  ⟨fun _ _ h => Int.ofNat_le.mpr h, promises_run (some (some 2)) (some 4) _ (fun _ _ h => Int.ofNat_le.mpr h)
    [.set "/a.md" (.text "one") .done, .get "/a.md", .set "/b.md" (.text "two") .done]⟩

end Smfs.Bash.SessionCache
