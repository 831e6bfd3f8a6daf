/-
# Removal by prefix in the two clients

`removeByPrefix` of `volume.ts` and `remove_by_prefix` of `_volume.py`, for any
answers of the server: bulk deletes that keep documents and name them in their
errors, or do not name them, and requests that throw. By filter the TypeScript
client forgets every path under the prefix, whatever the errors say; the
Python client keeps the paths of the documents that the errors name, and all
paths if an error names none. By listing the two do the same, up to the words
for a missing id and the white space around one.

Key definitions: `Removal.BulkResponse`, `Removal.Client`, `Removal.Service`, `Removal.removeByPrefix`,
`Removal.Py.removeByPrefix`, `Removal.KeepsWhatStays`, `Removal.Forgettable`.
Key theorems: `Removal.viaList_holdings`, `Removal.removeByPrefix_answered`, `Removal.keepsWhatStays_iff`,
`Removal.holdings_removeByPrefix`.
-/
import Smfs.Bash.Volume

namespace Smfs.Bash
namespace Removal

open Turns

/-! ### Answers -/

/-- An error of a bulk delete, with the id of the document that stays, if it says so. -/
structure BulkError where
  id : Option String
  error : Option String
  deriving DecidableEq

structure BulkResponse where
  deletedCount : Option ℕ
  errors : Option (List BulkError)

/-- `resp.errors ?? []`. -/
def BulkResponse.stays (resp : BulkResponse) : List BulkError := resp.errors.getD []

/-- What the requests of a removal get: the documents of the container with
their paths, and the response to each bulk delete; or the message of the
error that is thrown. -/
structure Service where
  documents : Except String (List (String × Option String))
  answers : ℕ → Except String BulkResponse

/-! ### Clients -/

/-- What differs between the languages: what is trimmed, how a missing value
reads, how strings are sorted, and how the method is called. -/
structure Client where
  isSpace : Char → Bool
  nothing : String
  sort : List String → List String
  method : String
  mem_sort : ∀ {xs : List String} {x : String}, x ∈ sort xs ↔ x ∈ xs

/-- What `String.prototype.trim` trims. -/
def isJsSpace (c : Char) : Bool :=
  let n := c.toNat
  (0x9 ≤ n && n ≤ 0xD) || n = 0x20 || n = 0xA0 || n = 0x1680 || (0x2000 ≤ n && n ≤ 0x200A) ||
    n = 0x2028 || n = 0x2029 || n = 0x202F || n = 0x205F || n = 0x3000 || n = 0xFEFF

/-- What `str.strip` strips. -/
def isPySpace (c : Char) : Bool :=
  let n := c.toNat
  (0x9 ≤ n && n ≤ 0xD) || (0x1C ≤ n && n ≤ 0x20) || n = 0x85 || n = 0xA0 || n = 0x1680 || (0x2000 ≤ n && n ≤ 0x200A) ||
    n = 0x2028 || n = 0x2029 || n = 0x202F || n = 0x205F || n = 0x3000

def js : Client := ⟨isJsSpace, "undefined", sorted, "removeByPrefix", mem_sorted⟩

/-- `sorted` of Python orders strings by their characters. -/
def py : Client := ⟨isPySpace, "None", (·.mergeSort (· ≤ ·)), "remove_by_prefix", List.mem_mergeSort⟩

/-- The index and the cache of a client. -/
structure Holdings where
  index : PathIndex
  cache : SessionCache

def Holdings.drop (h : Holdings) (p : String) : Holdings := ⟨h.index.remove p, h.cache.delete p⟩

namespace Client

variable (l : Client)

/-- The text of an error of a response. -/
def text (e : BulkError) : String := e.id.getD l.nothing ++ ": " ++ e.error.getD l.nothing

/-- The text of an error that the request throws. -/
def thrown (pre message : String) : String := l.method ++ "(" ++ pre ++ "): " ++ message

def trim (s : List Char) : List Char := ((s.dropWhile l.isSpace).reverse.dropWhile l.isSpace).reverse

/-- The id that an error is about: what stands before its first colon. -/
def idIn (message : String) : String := String.ofList (l.trim (message.toList.takeWhile (· ≠ ':')))

def paths (ix : PathIndex) : List String := l.sort (ix.files.map Prod.fst)

/-- `evictSyntheticUnder`. -/
def evict (pre : String) (h : Holdings) : Holdings :=
  let dirSelf := if endsWithSlash pre then String.ofList pre.toList.dropLast else pre
  let unmark (ix : PathIndex) (d : String) : PathIndex :=
    if d = dirSelf || startsWith d pre then ix.removeSyntheticDir d else ix
  { h with index := (l.sort h.index.syntheticDirs).foldl unmark h.index }

/-- The batches of ids, from the given request on: what was deleted, and the errors. -/
def deleteBatches (answers : ℕ → Except String BulkResponse) :
    ℕ → List (List (String × String)) → RemoveByPrefixResult → RemoveByPrefixResult
  | _, [], res => res
  | n, batch :: rest, res =>
    match answers n with
    | .ok resp => deleteBatches answers (n + 1) rest ⟨res.deleted + resp.deletedCount.getD 0,
      res.errors ++ resp.stays.map l.text⟩
    | .error message => deleteBatches answers (n + 1) rest ⟨res.deleted,
      res.errors ++ batch.map fun m => m.1 ++ ": " ++ message⟩

end Client

/-- The documents under the prefix, of those that are listed. -/
def under (pre : String) (docs : List (String × Option String)) : List (String × String) :=
  docs.filterMap fun d => (d.2.filter (startsWith · pre)).map fun p => (d.1, p)

/-- The removal by listing, which is the same in both clients. -/
def Client.viaList (l : Client) (pre : String) (s : Service) (h : Holdings) :
    Except String RemoveByPrefixResult × Holdings :=
  match s.documents with
  | .error message => (.error message, h)
  | .ok docs =>
    let found := under pre docs
    if found = [] then (.ok ⟨0, []⟩, h)
    else
      let res := l.deleteBatches s.answers 0 (found.toChunks 100) ⟨0, []⟩
      let erred := (res.errors.map l.idIn).filter (· ≠ "")
      let gone := found.filter fun m => !erred.contains m.1
      let h := gone.foldl (fun h m => h.drop m.2) h
      (.ok res, if res.errors = [] then l.evict pre h else h)

def removeByPrefixViaList (pre : String) (s : Service) (h : Holdings) : Except String RemoveByPrefixResult × Holdings :=
  js.viaList pre s h

def removeByPrefix (pre : String) (s : Service) (h : Holdings) : Except String RemoveByPrefixResult × Holdings :=
  match filterArgFor pre false with
  | none => removeByPrefixViaList pre s h
  | some _ =>
    match s.answers 0 with
    | .error message => (.ok ⟨0, [js.thrown pre message]⟩, h)
    | .ok resp => (.ok ⟨resp.deletedCount.getD 0, resp.stays.map js.text⟩,
        js.evict pre ((js.paths h.index).foldl (fun h p => if startsWith p pre then h.drop p else h) h))

namespace Py

/-- `_remove_by_prefix_via_list`. -/
def removeByPrefixViaList (pre : String) (s : Service) (h : Holdings) : Except String RemoveByPrefixResult × Holdings :=
  py.viaList pre s h

/-- The loop over the indexed paths. -/
def forget (pre : String) (failedIds : List String) (h : Holdings) (p : String) : Holdings :=
  if startsWith p pre then
    if (h.index.resolve p).any (failedIds.contains ·) then h else h.drop p
  else h

def removeByPrefix (pre : String) (s : Service) (h : Holdings) : Except String RemoveByPrefixResult × Holdings :=
  match filterArgFor pre false with
  | none => removeByPrefixViaList pre s h
  | some _ =>
    match s.answers 0 with
    | .error message => (.ok ⟨0, [py.thrown pre message]⟩, h)
    | .ok resp =>
      let failedIds := resp.stays.filterMap fun e => truthy e.id
      let anyUnattributed := resp.stays.any fun e => (truthy e.id).isNone
      (.ok ⟨resp.deletedCount.getD 0, resp.stays.map py.text⟩,
        if anyUnattributed then h else py.evict pre ((py.paths h.index).foldl (forget pre failedIds) h))

end Py

/-! ### Paths that are dropped -/

section Drop

variable {h : Holdings} {ix : PathIndex} {ps qs : List String} {p pre : String} {l : Client}

def Holdings.dropAll (h : Holdings) (ps : List String) : Holdings := ps.foldl Holdings.drop h

/-- The path has an entry. -/
def Cached (c : SessionCache) (p : String) : Prop := (Table.get Prod.fst c.entries p).isSome

theorem cached_delete {c : SessionCache} {q : String} : Cached (c.delete q) p ↔ Cached c p ∧ p ≠ q := by
  unfold Cached SessionCache.delete
  dsimp only
  rw [Table.get_erase]
  by_cases hp : p = q <;> simp [hp]

theorem resolve_dropAll : (h.dropAll ps).index.resolve p = if p ∈ ps then none else h.index.resolve p := by
  unfold Holdings.dropAll
  induction ps generalizing h with
  | nil => rfl
  | cons q ps ih =>
    rw [List.foldl_cons, ih]
    show (if p ∈ ps then none else (h.index.remove q).resolve p) = _
    rw [PathIndex.resolve_remove]
    by_cases hq : p = q <;> by_cases hm : p ∈ ps <;> simp [hq, hm]

theorem cached_dropAll : Cached (h.dropAll ps).cache p ↔ Cached h.cache p ∧ p ∉ ps := by
  unfold Holdings.dropAll
  induction ps generalizing h with
  | nil => simp
  | cons q ps ih =>
    rw [List.foldl_cons, ih]
    show Cached (h.cache.delete q) p ∧ p ∉ ps ↔ _
    rw [cached_delete, List.mem_cons, not_or, and_assoc]

theorem mem_filterMap_remove {q id : String} (hid : ix.resolve q ≠ some id) :
    id ∈ ps.filterMap (ix.remove q).resolve ↔ id ∈ ps.filterMap ix.resolve := by
  simp only [List.mem_filterMap, PathIndex.resolve_remove]
  constructor
  · rintro ⟨p, hp, hr⟩
    split_ifs at hr
    exact ⟨p, hp, hr⟩
  · rintro ⟨p, hp, hr⟩
    refine ⟨p, hp, ?_⟩
    rwa [if_neg]
    rintro rfl
    exact hid hr

/-- The index without some paths and the ids that they have. -/
theorem index_dropAll : (h.dropAll ps).index =
    ⟨h.index.files.filter (·.1 ∉ ps), h.index.byDocId.filter (·.1 ∉ ps.filterMap h.index.resolve),
      h.index.syntheticDirs⟩ := by
  unfold Holdings.dropAll
  induction ps generalizing h with
  | nil => simp
  | cons q ps ih =>
    rw [List.foldl_cons, ih]
    congr 1
    · show (Table.erase Prod.fst h.index.files q).filter _ = _
      rw [Table.erase, List.filter_filter]
      refine List.filter_congr fun x _ => ?_
      simp [not_or, Bool.and_comm]
    · show (h.index.remove q).byDocId.filter (·.1 ∉ ps.filterMap (h.index.remove q).resolve) = _
      cases hq : h.index.resolve q with
      | none =>
        have hsame : (h.index.remove q).byDocId = h.index.byDocId := by rw [PathIndex.remove, hq]
        rw [hsame]
        refine List.filter_congr fun x _ => ?_
        have hne : h.index.resolve q ≠ some x.1 := by simp [hq]
        simp only [mem_filterMap_remove hne, List.filterMap_cons_none hq]
      | some d =>
        have hsame : (h.index.remove q).byDocId = Table.erase Prod.fst h.index.byDocId d := by rw [PathIndex.remove, hq]
        rw [hsame, Table.erase, List.filter_filter]
        refine List.filter_congr fun x _ => ?_
        rw [List.filterMap_cons_some hq]
        by_cases hx : x.1 = d
        · simp [hx]
        · have hne : h.index.resolve q ≠ some x.1 := by
            rw [hq]
            exact fun he => hx (Option.some.inj he).symm
          simp only [mem_filterMap_remove hne, List.mem_cons, hx, false_or, not_false_eq_true, ne_eq, decide_true,
            Bool.and_true]

/-- Only the indexed paths of those that are dropped matter. -/
theorem index_dropAll_congr (hsame : ∀ p id, h.index.resolve p = some id → (p ∈ ps ↔ p ∈ qs)) :
    (h.dropAll ps).index = (h.dropAll qs).index := by
  rw [index_dropAll, index_dropAll]
  congr 1
  · refine List.filter_congr fun x hx => ?_
    obtain ⟨id, hid⟩ := PathIndex.isFile_iff.mp (PathIndex.mem_files.mp ⟨x.2, hx⟩)
    simp only [hsame x.1 id hid]
  · refine List.filter_congr fun x _ => ?_
    have hmem : x.1 ∈ ps.filterMap h.index.resolve ↔ x.1 ∈ qs.filterMap h.index.resolve := by
      simp only [List.mem_filterMap]
      exact exists_congr fun p => and_congr_left fun hr => hsame p x.1 hr
    simp only [hmem]

/-- The directories that lose their mark with a prefix. -/
def Evicted (pre d : String) : Prop :=
  d = (if endsWithSlash pre then String.ofList pre.toList.dropLast else pre) ∨ startsWith d pre = true

instance (pre d : String) : Decidable (Evicted pre d) := inferInstanceAs (Decidable (_ ∨ _))

theorem index_evict : (l.evict pre h).index =
    { h.index with syntheticDirs := h.index.syntheticDirs.filter fun d => ¬ Evicted pre d } := by
  have hfold : ∀ (ds : List String) (ix : PathIndex), ds.foldl (fun ix d =>
      if d = (if endsWithSlash pre then String.ofList pre.toList.dropLast else pre) || startsWith d pre then ix.removeSyntheticDir d
      else ix) ix = { ix with syntheticDirs := ix.syntheticDirs.filter fun d => ¬ (d ∈ ds ∧ Evicted pre d) } := by
    intro ds
    induction ds with
    | nil => simp
    | cons d ds ih =>
      intro ix
      rw [List.foldl_cons, ih]
      by_cases hd : Evicted pre d
      · rw [if_pos (by simpa [Evicted] using hd)]
        simp only [PathIndex.removeSyntheticDir, List.filter_filter]
        congr 1
        refine List.filter_congr fun x _ => ?_
        by_cases hx : x = d
        · simp [hx, hd]
        · simp [hx]
      · rw [if_neg (by simpa [Evicted] using hd)]
        congr 1
        refine List.filter_congr fun x _ => ?_
        by_cases hx : x = d
        · simp [hx, hd]
        · simp [hx]
  have hall := hfold (l.sort h.index.syntheticDirs) h.index
  refine hall.trans ?_
  congr 1
  exact List.filter_congr fun x hx => by simp [l.mem_sort, hx]

theorem resolve_evict : (l.evict pre h).index.resolve p = h.index.resolve p := by
  rw [index_evict]
  rfl

theorem mem_paths (l : Client) : p ∈ l.paths ix ↔ ∃ id, ix.resolve p = some id := by
  rw [Client.paths, l.mem_sort, ← PathIndex.isFile_iff, ← PathIndex.mem_files]
  simp

end Drop

/-! ### What the removals leave -/

/-- The documents under the prefix that are listed. -/
def Service.found (s : Service) (pre : String) : List (String × String) :=
  match s.documents with
  | .ok docs => under pre docs
  | .error _ => []

/-- The ids that a client reads in the errors of the batches. -/
def Client.erred (l : Client) (pre : String) (s : Service) : List String :=
  ((l.deleteBatches s.answers 0 ((s.found pre).toChunks 100) ⟨0, []⟩).errors.map l.idIn).filter (· ≠ "")

/-- The paths that a removal by listing drops. -/
def Client.gone (l : Client) (pre : String) (s : Service) : List String :=
  ((s.found pre).filter fun m => !(l.erred pre s).contains m.1).map Prod.snd

/-- An error is about the id, as the client reads it: it names the id, up to a
colon and trimmed, or the request for its batch threw. -/
def Client.Blamed (l : Client) (pre : String) (s : Service) (id : String) : Prop :=
  id ≠ "" ∧ ∃ n batch, ((s.found pre).toChunks 100)[n]? = some batch ∧
    match s.answers n with
    | .ok resp => ∃ e ∈ resp.stays, l.idIn (e.id.getD l.nothing) = id
    | .error _ => ∃ m ∈ batch, l.idIn m.1 = id

/-- A document is listed at the path that no error is about. -/
def Client.Clears (l : Client) (pre : String) (s : Service) (p : String) : Prop :=
  ∃ id, (id, p) ∈ s.found pre ∧ ¬ l.Blamed pre s id

section ViaList

variable {h : Holdings} {s : Service} {pre : String} {l : Client}

theorem idIn_append (l : Client) (id rest : String) : l.idIn (id ++ ": " ++ rest) = l.idIn id := by
  unfold Client.idIn
  congr 2
  rw [String.toList_append, String.toList_append, List.append_assoc, List.takeWhile_append]
  split_ifs with hlen
  · have hcolon : (": ".toList ++ rest.toList).takeWhile (· ≠ ':') = [] := rfl
    rw [hcolon, List.append_nil]
    exact ((List.takeWhile_prefix _).eq_of_length hlen).symm
  · rfl

/-- The errors of the batches, one answer each. -/
theorem mem_deleteBatches {answers : ℕ → Except String BulkResponse} {n : ℕ} {batches : List (List (String × String))}
    {res : RemoveByPrefixResult} {x : String} : x ∈ (l.deleteBatches answers n batches res).errors ↔
      x ∈ res.errors ∨ ∃ k batch, batches[k]? = some batch ∧
        match answers (n + k) with
        | .ok resp => ∃ e ∈ resp.stays, l.text e = x
        | .error message => ∃ m ∈ batch, m.1 ++ ": " ++ message = x := by
  induction batches generalizing n res with
  | nil => simp [Client.deleteBatches]
  | cons batch rest ih =>
    have hsplit (p : ℕ → List (String × String) → Prop) : (∃ k b, (batch :: rest)[k]? = some b ∧ p k b) ↔
        p 0 batch ∨ ∃ k b, rest[k]? = some b ∧ p (k + 1) b := by
      constructor
      · rintro ⟨_ | k, b, hb, hp⟩
        · cases hb
          exact .inl hp
        · exact .inr ⟨k, b, hb, hp⟩
      · rintro (hp | ⟨k, b, hb, hp⟩)
        · exact ⟨0, batch, rfl, hp⟩
        · exact ⟨k + 1, b, hb, hp⟩
    rw [hsplit]
    unfold Client.deleteBatches
    cases hans : answers n with
    | ok resp =>
      dsimp only
      rw [ih]
      simp only [List.mem_append, List.mem_map, or_assoc, Nat.add_assoc, Nat.add_comm 1]
    | error message =>
      dsimp only
      rw [ih]
      simp only [List.mem_append, List.mem_map, or_assoc, Nat.add_assoc, Nat.add_comm 1]

theorem mem_erred {id : String} : id ∈ l.erred pre s ↔ l.Blamed pre s id := by
  unfold Client.erred Client.Blamed
  rw [List.mem_filter, List.mem_map, and_comm]
  simp only [mem_deleteBatches, List.not_mem_nil, false_or, Nat.zero_add, decide_eq_true_eq]
  refine and_congr_right fun _ => ⟨?_, ?_⟩
  · rintro ⟨x, ⟨n, batch, hb, hx⟩, rfl⟩
    refine ⟨n, batch, hb, ?_⟩
    cases hans : s.answers n with rw [hans] at hx
    | ok resp =>
      obtain ⟨e, he, rfl⟩ := hx
      exact ⟨e, he, (idIn_append l _ _).symm⟩
    | error message =>
      obtain ⟨m, hm, rfl⟩ := hx
      exact ⟨m, hm, (idIn_append l _ _).symm⟩
  · rintro ⟨n, batch, hb, hx⟩
    cases hans : s.answers n with rw [hans] at hx
    | ok resp =>
      obtain ⟨e, he, rfl⟩ := hx
      exact ⟨_, ⟨n, batch, hb, by rw [hans]; exact ⟨e, he, rfl⟩⟩, idIn_append l _ _⟩
    | error message =>
      obtain ⟨m, hm, rfl⟩ := hx
      exact ⟨_, ⟨n, batch, hb, by rw [hans]; exact ⟨m, hm, rfl⟩⟩, idIn_append l _ _⟩

theorem mem_gone {p : String} : p ∈ l.gone pre s ↔ l.Clears pre s p := by
  unfold Client.gone Client.Clears
  rw [List.mem_map]
  constructor
  · rintro ⟨⟨id, p⟩, hm, rfl⟩
    obtain ⟨hfound, hnot⟩ := List.mem_filter.mp hm
    refine ⟨id, hfound, fun hb => ?_⟩
    simp [mem_erred.mpr hb] at hnot
  · rintro ⟨id, hfound, hnot⟩
    refine ⟨(id, p), List.mem_filter.mpr ⟨hfound, ?_⟩, rfl⟩
    simpa using fun hm => hnot (mem_erred.mp hm)

/-- Both clients get as many errors. -/
theorem length_deleteBatches (l l' : Client) (answers : ℕ → Except String BulkResponse) (n : ℕ)
    (batches : List (List (String × String))) {res res' : RemoveByPrefixResult}
    (hlen : res.errors.length = res'.errors.length) :
    (l.deleteBatches answers n batches res).errors.length =
      (l'.deleteBatches answers n batches res').errors.length := by
  induction batches generalizing n res res' with
  | nil => exact hlen
  | cons batch rest ih =>
    unfold Client.deleteBatches
    cases answers n with
    | ok resp => exact ih (n + 1) (by simp [hlen])
    | error message => exact ih (n + 1) (by simp [hlen])

/-- **By listing**, the paths of the documents that no error is about are
dropped; the marks under the prefix go if there is no error. -/
theorem viaList_holdings (l : Client) (pre : String) (s : Service) (h : Holdings) :
    (l.viaList pre s h).2 = h.dropAll (l.gone pre s) ∧ s.found pre = [] ∨
    (l.viaList pre s h).2 = (if (l.deleteBatches s.answers 0 ((s.found pre).toChunks 100) ⟨0, []⟩).errors = [] then
      l.evict pre (h.dropAll (l.gone pre s)) else h.dropAll (l.gone pre s)) ∧ s.found pre ≠ [] := by
  unfold Client.viaList Client.gone Client.erred Service.found Holdings.dropAll
  cases s.documents with
  | error message => exact .inl ⟨rfl, rfl⟩
  | ok docs =>
    dsimp only
    by_cases hf : under pre docs = []
    · rw [if_pos hf]
      simp [hf]
    · rw [if_neg hf, List.foldl_map]
      exact .inr ⟨rfl, hf⟩

theorem viaList_resolve (l : Client) (p : String) :
    (l.viaList pre s h).2.index.resolve p = if p ∈ l.gone pre s then none else h.index.resolve p := by
  rcases viaList_holdings l pre s h with ⟨he, -⟩ | ⟨he, -⟩
  · rw [he, resolve_dropAll]
  · rw [he]
    split_ifs <;> simp [resolve_evict, resolve_dropAll, *]

theorem viaList_cached (l : Client) (p : String) :
    Cached (l.viaList pre s h).2.cache p ↔ Cached h.cache p ∧ p ∉ l.gone pre s := by
  rcases viaList_holdings l pre s h with ⟨he, -⟩ | ⟨he, -⟩
  · rw [he, cached_dropAll]
  · rw [he]
    split_ifs
    · exact cached_dropAll
    · exact cached_dropAll

/-- Clients that drop the same indexed paths are left with the same index. -/
theorem viaList_index_congr {l l' : Client}
    (hsame : ∀ p id, h.index.resolve p = some id → (p ∈ l.gone pre s ↔ p ∈ l'.gone pre s)) :
    (l.viaList pre s h).2.index = (l'.viaList pre s h).2.index := by
  have hdrop := index_dropAll_congr hsame
  have hlen := @length_deleteBatches l l' s.answers 0 ((s.found pre).toChunks 100) ⟨0, []⟩ ⟨0, []⟩ rfl
  rcases viaList_holdings l pre s h with ⟨he, hf⟩ | ⟨he, hf⟩
  · rcases viaList_holdings l' pre s h with ⟨he', -⟩ | ⟨-, hf'⟩
    · rw [he, he', hdrop]
    · exact absurd hf hf'
  · rcases viaList_holdings l' pre s h with ⟨-, hf'⟩ | ⟨he', -⟩
    · exact absurd hf' hf
    · rw [he, he']
      simp only [← List.length_eq_zero_iff, hlen]
      split_ifs
      · rw [index_evict, index_evict, hdrop]
      · exact hdrop

end ViaList

section Filter

variable {h h' : Holdings} {s : Service} {pre p : String} {l l' : Client} {resp : BulkResponse} {message : String}

theorem index_evict_congr (he : h.index = h'.index) : (l.evict pre h).index = (l'.evict pre h').index := by
  rw [index_evict, index_evict, he]

/-- The indexed paths under the prefix. -/
def Client.below (l : Client) (pre : String) (ix : PathIndex) : List String := (l.paths ix).filter (startsWith · pre)

theorem mem_below : p ∈ l.below pre h.index ↔ (∃ id, h.index.resolve p = some id) ∧ startsWith p pre = true := by
  rw [Client.below, List.mem_filter, mem_paths]

theorem removeByPrefix_empty : (removeByPrefix "" s h).2 = (js.viaList "" s h).2 := rfl

theorem Py.removeByPrefix_empty : (Py.removeByPrefix "" s h).2 = (py.viaList "" s h).2 := rfl

theorem filterArgFor_some (hpre : pre ≠ "") : filterArgFor pre false = some (withSlash pre) := by
  rw [filterArgFor, if_neg hpre, if_neg Bool.false_ne_true]

theorem removeByPrefix_thrown (hpre : pre ≠ "") (hans : s.answers 0 = .error message) :
    (removeByPrefix pre s h).2 = h := by
  rw [removeByPrefix, filterArgFor_some hpre]
  dsimp only
  rw [hans]

theorem Py.removeByPrefix_thrown (hpre : pre ≠ "") (hans : s.answers 0 = .error message) :
    (Py.removeByPrefix pre s h).2 = h := by
  rw [Py.removeByPrefix, filterArgFor_some hpre]
  dsimp only
  rw [hans]

/-- **By filter**, TypeScript forgets all paths under the prefix. -/
theorem removeByPrefix_answered (hpre : pre ≠ "") (hans : s.answers 0 = .ok resp) :
    (removeByPrefix pre s h).2 = js.evict pre (h.dropAll (js.below pre h.index)) := by
  rw [removeByPrefix, filterArgFor_some hpre]
  dsimp only
  rw [hans]
  dsimp only
  rw [Holdings.dropAll, Client.below, List.foldl_filter]

/-- With an error that names no document Python forgets nothing. -/
theorem Py.removeByPrefix_unattributed (hpre : pre ≠ "") (hans : s.answers 0 = .ok resp)
    (hun : ∃ e ∈ resp.stays, truthy e.id = none) : (Py.removeByPrefix pre s h).2 = h := by
  have hany : (resp.stays.any fun e => (truthy e.id).isNone) = true := by simpa [List.any_eq_true] using hun
  rw [Py.removeByPrefix, filterArgFor_some hpre]
  dsimp only
  rw [hans]
  dsimp only
  rw [if_pos hany]

/-- With errors that name documents of other paths it forgets what TypeScript does. -/
theorem Py.removeByPrefix_answered (hpre : pre ≠ "") (hans : s.answers 0 = .ok resp)
    (hattr : ∀ e ∈ resp.stays, truthy e.id ≠ none)
    (hclear : ∀ p id, h.index.resolve p = some id → startsWith p pre = true →
    id ∉ resp.stays.filterMap fun e => truthy e.id) :
    (Py.removeByPrefix pre s h).2 = py.evict pre (h.dropAll (py.below pre h.index)) := by
  have hany : (resp.stays.any fun e => (truthy e.id).isNone) = false := by
    rw [List.any_eq_false]
    intro e he
    simpa using hattr e he
  have hfold : ∀ (ps : List String) (h : Holdings), (∀ p id, h.index.resolve p = some id → startsWith p pre = true →
      id ∉ resp.stays.filterMap fun e => truthy e.id) →
      ps.foldl (forget pre (resp.stays.filterMap fun e => truthy e.id)) h =
        h.dropAll (ps.filter (startsWith · pre)) := by
    intro ps
    induction ps with
    | nil => exact fun _ _ => rfl
    | cons q ps ih =>
      intro h hclear
      rw [List.foldl_cons]
      by_cases hq : startsWith q pre = true
      · have hkeep : (h.index.resolve q).any ((resp.stays.filterMap fun e => truthy e.id).contains ·) = false := by
          cases hr : h.index.resolve q with
          | none => rfl
          | some id => simpa using hclear q id hr hq
        have hstep : forget pre (resp.stays.filterMap fun e => truthy e.id) h q = h.drop q := by
          rw [forget, if_pos hq, hkeep, if_neg Bool.false_ne_true]
        rw [hstep, ih (h.drop q), List.filter_cons_of_pos (p := fun x => startsWith x pre) hq]
        · rfl
        · intro p id hr hp
          change (h.index.remove q).resolve p = some id at hr
          rw [PathIndex.resolve_remove] at hr
          split_ifs at hr
          exact hclear p id hr hp
      · rw [forget, if_neg hq, ih h hclear, List.filter_cons_of_neg (p := fun x => startsWith x pre) hq]
  rw [Py.removeByPrefix, filterArgFor_some hpre]
  dsimp only
  rw [hans]
  dsimp only
  rw [hany, if_neg Bool.false_ne_true, hfold _ h hclear]
  rfl

end Filter

/-! ### What a removal is to do -/

/-- The server reports that the document of the id stays. -/
def Service.Reported (s : Service) (pre id : String) : Prop :=
  if pre = "" then
    ∃ n batch, ((s.found pre).toChunks 100)[n]? = some batch ∧
      match s.answers n with
      | .ok resp => some id ∈ resp.stays.map BulkError.id
      | .error _ => id ∈ batch.map Prod.fst
  else ∃ resp, s.answers 0 = .ok resp ∧ some id ∈ resp.stays.map BulkError.id

/-- Of the paths under the prefix the client loses those whose documents are
deleted and no other, and keeps those that are reported to stay; and the
other client is left with the same index. -/
structure KeepsWhatStays (deleted : String → Bool) (pre : String) (s : Service) (h : Holdings) : Prop where
  index : ∀ p id, h.index.resolve p = some id → (removeByPrefix pre s h).2.index.resolve p =
    if startsWith p pre = true ∧ deleted id = true then none else some id
  others : ∀ p, h.index.resolve p = none → (removeByPrefix pre s h).2.index.resolve p = none
  cache : ∀ p id, h.index.resolve p = some id →
    (Cached (removeByPrefix pre s h).2.cache p ↔ Cached h.cache p ∧ ¬ (startsWith p pre = true ∧ deleted id = true))
  failed : ∀ p id, s.Reported pre id → h.index.resolve p = some id →
    (removeByPrefix pre s h).2.index.resolve p = some id
  python : (removeByPrefix pre s h).2.index = (Py.removeByPrefix pre s h).2.index

/-- By filter: the documents of all indexed paths under the prefix are deleted
and none of them is named in an error, and an error that names no document
comes only where no path under the prefix is indexed and no directory marked;
of a request that throws: none of them is deleted. By listing: of the indexed
paths those whose documents are deleted are listed with a document that
neither client takes an error to be about, and those whose documents stay are
not. -/
def Forgettable (deleted : String → Bool) (pre : String) (s : Service) (h : Holdings) : Prop :=
  if pre = "" then
    ∀ p id, h.index.resolve p = some id → (deleted id = true ↔ js.Clears pre s p) ∧
      (js.Clears pre s p ↔ py.Clears pre s p) ∧
      (s.Reported pre id → deleted id = false)
  else match s.answers 0 with
    | .error _ => ∀ p id, h.index.resolve p = some id → startsWith p pre = true → deleted id = false
    | .ok resp =>
      (∀ p id, h.index.resolve p = some id → startsWith p pre = true →
        deleted id = true ∧ some id ∉ resp.stays.map BulkError.id) ∧
      ((∃ e ∈ resp.stays, truthy e.id = none) →
        (∀ p id, h.index.resolve p = some id → startsWith p pre = false) ∧ ∀ d ∈ h.index.syntheticDirs, ¬ Evicted pre d)

section Exactly

variable {deleted : String → Bool} {pre : String} {s : Service} {h : Holdings} {resp : BulkResponse} {message : String}

/-- What is left of a path that is known. -/
theorem resolve_below (hpre : pre ≠ "") (hans : s.answers 0 = .ok resp) (p : String) :
    (removeByPrefix pre s h).2.index.resolve p = if startsWith p pre = true then none else h.index.resolve p := by
  rw [removeByPrefix_answered hpre hans, resolve_evict, resolve_dropAll]
  by_cases hp : startsWith p pre = true
  · rw [if_pos hp]
    split_ifs with hm
    · rfl
    · cases hr : h.index.resolve p with
      | none => rfl
      | some id => exact absurd (mem_below.mpr ⟨⟨id, hr⟩, hp⟩) hm
  · rw [if_neg hp, if_neg fun hm => hp (mem_below.mp hm).2]

theorem keepsWhatStays_thrown (hpre : pre ≠ "") (hans : s.answers 0 = .error message) :
    KeepsWhatStays deleted pre s h ↔ Forgettable deleted pre s h := by
  unfold Forgettable
  rw [if_neg hpre, hans]
  dsimp only
  constructor
  · intro hkeep p id hr hp
    have hindex := hkeep.index p id hr
    rw [removeByPrefix_thrown hpre hans, hr] at hindex
    by_contra hdel
    rw [if_pos ⟨hp, by simpa using hdel⟩] at hindex
    cases hindex
  · intro hcond
    have hstay (p id : String) (hr : h.index.resolve p = some id) :
      ¬ (startsWith p pre = true ∧ deleted id = true) := by
      rintro ⟨hp, hdel⟩
      rw [hcond p id hr hp] at hdel
      cases hdel
    refine ⟨fun p id hr => ?_, fun p hr => ?_, fun p id hr => ?_, fun p id _ hr => ?_, ?_⟩
    · rw [removeByPrefix_thrown hpre hans, if_neg (hstay p id hr), hr]
    · rw [removeByPrefix_thrown hpre hans, hr]
    · rw [removeByPrefix_thrown hpre hans]
      simp [hstay p id hr]
    · rw [removeByPrefix_thrown hpre hans, hr]
    · rw [removeByPrefix_thrown hpre hans, Py.removeByPrefix_thrown hpre hans]

theorem keepsWhatStays_answered (hpre : pre ≠ "") (hans : s.answers 0 = .ok resp) :
    KeepsWhatStays deleted pre s h ↔ Forgettable deleted pre s h := by
  have hreported (id : String) : s.Reported pre id ↔ some id ∈ resp.stays.map BulkError.id := by
    unfold Service.Reported
    rw [if_neg hpre, hans]
    simp
  have hafter (p : String) := resolve_below (h := h) hpre hans p
  unfold Forgettable
  rw [if_neg hpre, hans]
  dsimp only
  constructor
  · intro hkeep
    refine ⟨fun p id hr hp => ?_, fun hun => ⟨fun p id hr => ?_, fun d hd hev => ?_⟩⟩
    · have hgone : (removeByPrefix pre s h).2.index.resolve p = none := by rw [hafter, if_pos hp]
      constructor
      · have hindex := hkeep.index p id hr
        by_contra hdel
        rw [hgone, if_neg fun hh => hdel hh.2] at hindex
        cases hindex
      · intro hnamed
        have hfailed := hkeep.failed p id ((hreported id).mpr hnamed) hr
        rw [hgone] at hfailed
        cases hfailed
    · by_contra hp
      have hp : startsWith p pre = true := by simpa using hp
      have hsame := congrArg (PathIndex.resolve · p) hkeep.python
      simp only [hafter, if_pos hp, Py.removeByPrefix_unattributed hpre hans hun, hr] at hsame
      cases hsame
    · have hsame := congrArg PathIndex.syntheticDirs hkeep.python
      rw [Py.removeByPrefix_unattributed hpre hans hun, removeByPrefix_answered hpre hans, index_evict,
        index_dropAll] at hsame
      rw [← hsame] at hd
      simpa [hev] using (List.mem_filter.mp hd).2
  · rintro ⟨hdeleted, hun⟩
    refine ⟨fun p id hr => ?_, fun p hr => ?_, fun p id hr => ?_, fun p id hrep hr => ?_, ?_⟩
    · rw [hafter, hr]
      by_cases hp : startsWith p pre = true
      · rw [if_pos hp, if_pos ⟨hp, (hdeleted p id hr hp).1⟩]
      · rw [if_neg hp, if_neg fun hh => hp hh.1]
    · rw [hafter, hr, ite_self]
    · rw [removeByPrefix_answered hpre hans]
      show Cached (h.dropAll (js.below pre h.index)).cache p ↔ _
      rw [cached_dropAll, mem_below]
      refine and_congr_right fun _ => not_congr ⟨fun hh => ⟨hh.2, (hdeleted p id hr hh.2).1⟩,
        fun hh => ⟨⟨id, hr⟩, hh.1⟩⟩
    · rw [hafter, hr, if_neg]
      intro hp
      exact (hdeleted p id hr hp).2 ((hreported id).mp hrep)
    · by_cases hex : ∃ e ∈ resp.stays, truthy e.id = none
      · obtain ⟨hnone, hmarks⟩ := hun hex
        have hbelow : js.below pre h.index = [] := by
          refine List.eq_nil_iff_forall_not_mem.mpr fun p hp => ?_
          obtain ⟨⟨id, hr⟩, hs⟩ := mem_below.mp hp
          rw [hnone p id hr] at hs
          cases hs
        have hmarks' : h.index.syntheticDirs.filter (fun d => ¬ Evicted pre d) = h.index.syntheticDirs :=
          List.filter_eq_self.mpr fun d hd => by simpa using hmarks d hd
        rw [Py.removeByPrefix_unattributed hpre hans hex, removeByPrefix_answered hpre hans, hbelow, index_evict]
        show PathIndex.mk h.index.files h.index.byDocId (h.index.syntheticDirs.filter _) = h.index
        rw [hmarks']
      · push Not at hex
        have hclear : ∀ p id, h.index.resolve p = some id → startsWith p pre = true →
            id ∉ resp.stays.filterMap fun e => truthy e.id := by
          intro p id hr hp hm
          obtain ⟨e, he, hid⟩ := List.mem_filterMap.mp hm
          refine (hdeleted p id hr hp).2 (List.mem_map.mpr ⟨e, he, ?_⟩)
          exact Option.filter_eq_some_iff.mp hid |>.1
        rw [removeByPrefix_answered hpre hans, Py.removeByPrefix_answered hpre hans hex hclear]
        refine index_evict_congr (index_dropAll_congr fun p id _ => ?_)
        rw [mem_below, mem_below]

theorem keepsWhatStays_listed : KeepsWhatStays deleted "" s h ↔ Forgettable deleted "" s h := by
  have hall (p : String) : startsWith p "" = true := by simp [startsWith]
  have hafter (p : String) : (removeByPrefix "" s h).2.index.resolve p =
    if p ∈ js.gone "" s then none else h.index.resolve p :=
    viaList_resolve js p
  unfold Forgettable
  simp only [if_pos, ← mem_gone]
  constructor
  · intro hkeep p id hr
    have hiff : deleted id = true ↔ p ∈ js.gone "" s := by
      have hindex := hkeep.index p id hr
      rw [hafter, hr] at hindex
      by_cases hg : p ∈ js.gone "" s <;> by_cases hd : deleted id = true <;> simp_all
    refine ⟨hiff, ?_, fun hrep => ?_⟩
    · have hsame := congrArg (PathIndex.resolve · p) hkeep.python
      simp only [hafter, Py.removeByPrefix_empty, viaList_resolve, hr] at hsame
      by_cases hg : p ∈ js.gone "" s <;> by_cases hg' : p ∈ py.gone "" s <;> simp_all
    · have hfailed := hkeep.failed p id hrep hr
      rw [hafter, hr] at hfailed
      by_contra hd
      rw [if_pos (hiff.mp (by simpa using hd))] at hfailed
      cases hfailed
  · intro hcond
    refine ⟨fun p id hr => ?_, fun p hr => ?_, fun p id hr => ?_, fun p id hrep hr => ?_, ?_⟩
    · rw [hafter, hr]
      simp only [hall, true_and, (hcond p id hr).1]
    · rw [hafter, hr, ite_self]
    · rw [removeByPrefix_empty, viaList_cached]
      simp only [hall, true_and, (hcond p id hr).1]
    · have hstay := (hcond p id hr).2.2 hrep
      rw [hafter, hr, if_neg fun hg => ?_]
      rw [(hcond p id hr).1.mpr hg] at hstay
      cases hstay
    · rw [removeByPrefix_empty, Py.removeByPrefix_empty]
      exact viaList_index_congr fun p id hr => (hcond p id hr).2.1

end Exactly

/-- **When a removal loses exactly what the server deleted**, and both clients
are left with the same index. -/
theorem keepsWhatStays_iff (deleted : String → Bool) (pre : String) (s : Service) (h : Holdings) :
    KeepsWhatStays deleted pre s h ↔ Forgettable deleted pre s h := by
  by_cases hpre : pre = ""
  · subst hpre
    exact keepsWhatStays_listed
  · cases hans : s.answers 0 with
    | error message => exact keepsWhatStays_thrown hpre hans
    | ok resp => exact keepsWhatStays_answered hpre hans

/-- A bulk delete that keeps the one document. -/
private def busy : Service := ⟨.ok [], fun _ => .ok ⟨some 0, some [⟨some "1", some "in use"⟩]⟩⟩

private def busyHeld : Holdings := ⟨PathIndex.new.insert "/n/a.md" "1", .new none none fun _ => 0⟩

/-- The document stays on the server, and its path is forgotten. -/
theorem failed_forgotten : busy.Reported "/n/" "1" ∧ ¬ KeepsWhatStays (fun _ => false) "/n/" busy busyHeld := by
  have hrep : busy.Reported "/n/" "1" := ⟨_, rfl, by decide⟩
  have hheld : busyHeld.index.resolve "/n/a.md" = some "1" := by decide
  refine ⟨hrep, fun hkeep => ?_⟩
  have hfailed := hkeep.failed "/n/a.md" "1" hrep hheld
  rw [resolve_below (by decide) rfl, if_pos (by decide)] at hfailed
  cases hfailed

/-! ### The removal as a computation -/

section Computed

variable {w : World} {pre : String}

/-- What a client holds in a world. -/
def holdings (w : World) : Holdings := ⟨w.index, w.cache⟩

/-- The answer of the server to a bulk delete, where every error names its document. -/
def answerOf : Except ApiError DeleteBulkResponse → Except String BulkResponse
  | .ok resp => .ok ⟨some resp.deletedCount, some (resp.errors.map fun e => ⟨some e.1, some e.2⟩)⟩
  | .error e => .error e.message

theorem holdings_forgetUnder (w : World) : holdings (forgetUnder pre w) =
    (js.paths w.index).foldl (fun h p => if startsWith p pre then h.drop p else h) (holdings w) := by
  show holdings (w.index.paths.foldl _ w) = w.index.paths.foldl _ (holdings w)
  generalize w.index.paths = ps
  induction ps generalizing w with
  | nil => rfl
  | cons p ps ih =>
    rw [List.foldl_cons, List.foldl_cons, ih]
    split_ifs <;> rfl

/-- The client that sends its requests to the server is left with what is computed here from the answer. -/
theorem holdings_removeByPrefix (hpre : pre ≠ "") (w : World) : holdings (eval (Bash.removeByPrefix pre) w).2 =
    (removeByPrefix pre ⟨.ok [], fun _ => answerOf (w.send (bulkCall (Container.listed (some (withSlash pre))))).1⟩ (holdings w)).2 := by
  obtain ⟨hindex, hcache, -⟩ := send_kept w (bulkCall (Container.listed (some (withSlash pre))))
  have hheld : holdings (w.send (bulkCall (Container.listed (some (withSlash pre))))).2 = holdings w := by
    rw [holdings, hindex, hcache, holdings]
  rw [eval_removeByPrefix hpre, removeByPrefix, filterArgFor_some hpre]
  cases hs : w.send (bulkCall (Container.listed (some (withSlash pre)))) with
  | mk answer t =>
    rw [hs] at hheld
    dsimp only at hheld ⊢
    cases answer with
    | error e => exact hheld
    | ok resp =>
      show js.evict pre (holdings (forgetUnder pre t)) = js.evict pre _
      rw [holdings_forgetUnder, hheld]
      have : t.index = (holdings w).index := by rw [← hheld]; rfl
      rw [this]

end Computed

end Removal
end Smfs.Bash
