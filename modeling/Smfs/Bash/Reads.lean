/-
# Cached reads and uncached reads

`getDoc` caches the text it makes up for a document that could not be
processed, and `statDoc` and `listByPrefix` cache the raw one; `getDoc` answers
from the cache without the reason. So against a server that does not change a
cached read answers like one on an empty volume exactly if it is not of such a
document (`agrees_iff`): a `getDoc` must find nothing in the cache, and a
`statDoc` nothing of another length (`ReadFits`, `StatFits`). In
`blurb_forgotten` a `statDoc` comes before the `getDoc`.

Key definitions: `Reads.Apart`, `Reads.Act`, `Reads.Faithful`, `Reads.ReadFits`, `Reads.StatFits`.
Key theorems: `Reads.step_inv`, `Reads.agrees_iff`, `Reads.blurb_forgotten`.
-/
import Smfs.Lib.Reach
import Smfs.Bash.Volume

namespace Smfs.Bash.Reads

open Turns Trans

/-- The documents have distinct paths, and none of the paths is above another. -/
structure Apart (s : Container) : Prop where
  distinct : ∀ d ∈ s.docs, ∀ e ∈ s.docs, ∀ p, d.filepath = some p → e.filepath = some p → d = e
  apart : ∀ d ∈ s.docs, ∀ e ∈ s.docs, ∀ p q, d.filepath = some p → e.filepath = some q →
    startsWith q (withSlash p) = true → d = e

/-- The reads. -/
inductive Act
  | getDoc (path : String)
  | statDoc (path : String)
  | listByPrefix (pre : String) (opts : ListByPrefixOpts)

/-- A call, whatever it answers. -/
def step (w : World) : Act → Option World
  | .getDoc path => some (eval (Bash.getDoc path) w).2
  | .statDoc path => some (eval (Bash.statDoc path) w).2
  | .listByPrefix pre opts => some (eval (Bash.listByPrefix pre opts) w).2

/-- A volume that has read nothing. -/
def fresh (s : Container) (cache : SessionCache) (fates : List Fate) : World := ⟨s, .new, cache, fates⟩

/-- The requests are answered. -/
def answered (w : World) : World := { w with fates := [] }

variable {s : Container} {w : World} {d : Memory} {p q : String}

/-! ### The server's answers -/

/-- The document of a path is found. -/
theorem found_of_mem (h : Apart s) (hd : d ∈ s.docs) (hp : d.filepath = some p) :
    found p (s.list (exactly p true)) = some d := by
  have hall : ∀ e ∈ s.docs.filter (Container.listed (some p)), e = d := by
    intro e he
    obtain ⟨hmem, hl⟩ := List.mem_filter.mp he
    obtain ⟨q, hq⟩ := listed_some hl
    unfold Container.listed at hl
    rw [hq] at hl
    dsimp only at hl
    split_ifs at hl with hslash
    · refine (h.apart d hd e hmem p q hp hq ?_).symm
      rw [withSlash, if_pos hslash]
      exact hl
    · rw [decide_eq_true_eq] at hl
      exact (h.distinct d hd e hmem p hp (hl ▸ hq)).symm
  have hmem : d ∈ s.docs.filter (Container.listed (some p)) := by
    refine List.mem_filter.mpr ⟨hd, ?_⟩
    unfold Container.listed
    rw [hp]
    dsimp only
    split_ifs
    · exact List.isPrefixOf_iff_prefix.mpr (List.prefix_refl _)
    · exact decide_eq_true rfl
  unfold found
  rw [memories_head]
  cases hl : s.docs.filter (Container.listed (some p)) with
  | nil =>
    rw [hl] at hmem
    cases hmem
  | cons e rest =>
    obtain rfl := hall e (hl ▸ List.mem_cons_self)
    rw [List.head?_cons]
    dsimp only
    rw [hp]
    simp

/-! ### What the client holds of the documents -/

/-- What is indexed and cached is of the documents. -/
structure Faithful (s : Container) (w : World) : Prop where
  server : w.server = s
  synthetic : w.index.syntheticDirs = []
  indexed : ∀ p id, w.index.resolve p = some id → ∃ d ∈ s.docs, d.filepath = some p
  cached : ∀ x ∈ w.cache.entries, ∃ d ∈ s.docs, d.filepath = some x.1 ∧ x.2.status = d.docStatus ∧
    (x.2.content = .text (d.content.getD "") ∨ x.2.content = d.result.content)

theorem Faithful.looked (h : Faithful s w) (p : String) : Faithful s (w.looked p) :=
  ⟨h.server, h.synthetic, h.indexed, fun x hx => h.cached x (SessionCache.mem_get hx)⟩

theorem Faithful.sent (h : Faithful s w) (params : ListParams) : Faithful s (w.send (listCall params)).2 := by
  obtain ⟨hindex, hcache, -⟩ := send_kept w (listCall params)
  refine ⟨(listCall_server w params).trans h.server, ?_, ?_, ?_⟩
  · rw [hindex]
    exact h.synthetic
  · rw [hindex]
    exact h.indexed
  · rw [hcache]
    exact h.cached

theorem Faithful.drop (h : Faithful s w) (p : String) : Faithful s (w.drop p) := by
  refine ⟨h.server, h.synthetic, fun q id hq => ?_, fun x hx => h.cached x (SessionCache.mem_delete hx).2⟩
  change (w.index.remove p).resolve q = some id at hq
  rw [PathIndex.resolve_remove] at hq
  split_ifs at hq
  exact h.indexed q id hq

theorem Faithful.insert (h : Faithful s w) (hd : d ∈ s.docs) (hp : d.filepath = some p) (id : String) {q i : String}
    (hq : (w.index.insert p id).resolve q = some i) : ∃ d ∈ s.docs, d.filepath = some q := by
  rw [PathIndex.resolve_insert] at hq
  split_ifs at hq with he
  · exact ⟨d, hd, he ▸ hp⟩
  · exact h.indexed q i hq

theorem Faithful.set (h : Faithful s w) (hd : d ∈ s.docs) (hp : d.filepath = some p) {content : Content}
    (hc : content = .text (d.content.getD "") ∨ content = d.result.content) {x : String × InternalEntry}
    (hx : x ∈ (w.cache.set p content d.docStatus).entries) :
    ∃ d ∈ s.docs, d.filepath = some x.1 ∧ x.2.status = d.docStatus ∧
      (x.2.content = .text (d.content.getD "") ∨ x.2.content = d.result.content) := by
  rcases SessionCache.mem_set hx with ⟨he, hentry⟩ | ⟨-, hx⟩
  · refine ⟨d, hd, he ▸ hp, congrArg CachedEntry.status hentry, ?_⟩
    have hcontent := congrArg CachedEntry.content hentry
    dsimp only at hcontent
    rw [hcontent]
    exact hc
  · exact h.cached x hx

theorem Faithful.fetched (h : Faithful s w) (hd : d ∈ s.docs) (hp : d.filepath = some p) {content : Content}
    (hc : content = .text (d.content.getD "") ∨ content = d.result.content) (id : String) :
    Faithful s (w.fetched p id content d.docStatus) := by
  unfold World.fetched
  refine ⟨h.server, ?_, fun q i hq => ?_, fun x hx => h.set hd hp hc hx⟩
  · dsimp only
    split_ifs
    · exact h.synthetic
    · exact h.synthetic
  · dsimp only at hq
    split_ifs at hq
    · exact h.indexed q i hq
    · exact h.insert hd hp id hq

/-! ### One call -/

theorem getDoc_inv (h : Faithful s w) (p : String) : Faithful s (eval (getDoc p) w).2 := by
  cases hh : hit w p with
  | some c =>
    rw [eval_getDoc_hit hh]
    exact h.looked p
  | none =>
    rw [eval_getDoc_miss hh]
    have hsent := (h.looked p).sent (exactly p true)
    cases ha : (w.looked p).send (listCall (exactly p true)) with
    | mk answer t =>
      rw [ha] at hsent
      cases answer with
      | error e => exact hsent
      | ok resp =>
        have hresp : resp = s.list (exactly p true) :=
          (listCall_answer _ _ _ (congrArg Prod.fst ha)).trans (congrArg (Container.list · _) h.server)
        dsimp only
        cases hm : found p resp with
        | none => exact hsent.drop p
        | some m =>
          obtain ⟨hmem, hp⟩ := found_some (hresp ▸ hm)
          exact hsent.fetched hmem hp (.inr rfl) m.id

theorem statDoc_inv (h : Faithful s w) (p : String) : Faithful s (eval (statDoc p) w).2 := by
  cases hdir : w.index.isDirOnly p with
  | true =>
    rw [eval_statDoc_dir hdir]
    exact h
  | false =>
    cases hh : hit w p with
    | some c =>
      rw [eval_statDoc_hit hdir hh]
      exact h.looked p
    | none =>
      rw [eval_statDoc_miss hdir hh]
      have hsent := (h.looked p).sent (exactly p true)
      cases ha : (w.looked p).send (listCall (exactly p true)) with
      | mk answer t =>
        rw [ha] at hsent
        cases answer with
        | error e => exact hsent
        | ok resp =>
          have hresp : resp = s.list (exactly p true) :=
            (listCall_answer _ _ _ (congrArg Prod.fst ha)).trans (congrArg (Container.list · _) h.server)
          dsimp only
          cases hm : found p resp with
          | none => exact hsent.drop p
          | some m =>
            obtain ⟨hmem, hp⟩ := found_some (hresp ▸ hm)
            exact hsent.fetched hmem hp (.inl rfl) m.id

theorem note_inv (h : Faithful s w) (hd : d ∈ s.docs) (hp : d.filepath = some p) {withContent : Bool} {m : Memory}
    (hm : withContent = true → m = d) : Faithful s (note withContent w p m) := by
  refine ⟨h.server, h.synthetic, fun q i hq => h.insert hd hp m.id hq, fun x hx => ?_⟩
  unfold note at hx
  dsimp only at hx
  split at hx
  · rename_i content hc
    obtain rfl := hm rfl
    exact h.set hd hp (.inl (by rw [hc]; rfl)) hx
  · exact h.cached x hx

theorem visit_inv {pre : String} {opts : ListByPrefixOpts} {ms : List Memory}
    (hms : ∀ m ∈ ms, ∃ d ∈ s.docs, d.filepath = m.filepath ∧ (opts.withContent = true → m = d))
    (out : List DocSummary) (h : Faithful s w) : Faithful s (visit pre opts ms out w).2 := by
  induction ms generalizing out w with
  | nil => exact h
  | cons m ms ih =>
    have hrest := fun x hx => hms x (List.mem_cons_of_mem m hx)
    unfold visit
    cases ht : taken pre opts.exact m with
    | none => exact ih hrest out h
    | some p =>
      obtain ⟨d, hd, hfp, hm⟩ := hms m List.mem_cons_self
      have hp : d.filepath = some p := hfp.trans (Option.filter_eq_some_iff.mp ht).1
      have hnote := note_inv h hd hp hm
      dsimp only
      split_ifs
      · exact hnote
      · exact ih hrest _ hnote

/-- The documents of a page are the server's, with their content if it was asked for. -/
theorem memories_mem {params : ListParams} {m : Memory} (h : m ∈ (s.list params).memories) :
    ∃ d ∈ s.docs, d.filepath = m.filepath ∧ (params.includeContent = true → m = d) := by
  obtain ⟨d, hd, rfl⟩ := List.mem_map.mp h
  refine ⟨d, (List.mem_filter.mp (Paging.mem_of_mem_page hd)).1, ?_, fun hc => if_pos hc⟩
  split_ifs <;> rfl

theorem listPages_inv {pre : String} {opts : ListByPrefixOpts} (fuel page : ℕ) (out : List DocSummary)
    (h : Faithful s w) : Faithful s (eval (listPages pre opts fuel page out) w).2 := by
  induction fuel generalizing page out w with
  | zero => exact h
  | succ fuel ih =>
    unfold listPages
    rw [eval_bind, eval_listRequest, andThen_ok]
    have hsent := h.sent ⟨filterArgFor pre opts.exact, 100, page, opts.withContent⟩
    cases ha : (w.send (listCall ⟨filterArgFor pre opts.exact, 100, page, opts.withContent⟩)) with
    | mk answer t =>
      rw [ha] at hsent
      cases answer with
      | error e => exact hsent
      | ok resp =>
        have hresp : resp = s.list ⟨filterArgFor pre opts.exact, 100, page, opts.withContent⟩ :=
          (listCall_answer _ _ _ (congrArg Prod.fst ha)).trans (congrArg (Container.list · _) h.server)
        subst hresp
        have hvisit : Faithful s (visit pre opts
            (s.list ⟨filterArgFor pre opts.exact, 100, page, opts.withContent⟩).memories out t).2 :=
          visit_inv (fun m hm => memories_mem hm) out hsent
        dsimp only
        rw [eval_bind, eval_sync, andThen_ok]
        generalize visit pre opts _ out t = v at hvisit
        obtain ⟨⟨out', enough⟩, t'⟩ := v
        dsimp only
        split_ifs
        · exact hvisit
        · exact ih _ _ hvisit

theorem listByPrefix_inv (h : Faithful s w) (pre : String) (opts : ListByPrefixOpts) :
    Faithful s (eval (listByPrefix pre opts) w).2 := listPages_inv _ 1 [] h

theorem step_inv (h : Faithful s w) {a : Act} {t : World} (hst : step w a = some t) : Faithful s t := by
  cases a with
  | getDoc p =>
    cases hst
    exact getDoc_inv h p
  | statDoc p =>
    cases hst
    exact statDoc_inv h p
  | listByPrefix pre opts =>
    cases hst
    exact listByPrefix_inv h pre opts

/-! ### Cached and uncached answers -/

/-- What a `getDoc` tells of a document. -/
def docView (answer : Except Thrown (Option DocResult)) :
    Except Thrown (Option (Content × DocStatus × Option String)) :=
  answer.map (Option.map fun r => (r.content, r.status, r.errorReason))

/-- What a `statDoc` tells of a document. -/
def statView (answer : Except Thrown (Option DocStat)) : Except Thrown (Option (ℕ × Option DocStatus)) :=
  answer.map (Option.map fun st => (st.size, st.status))

/-- Of a document that could not be processed nothing is found in the cache. -/
def ReadFits (w : World) (d : Memory) (p : String) : Prop := d.docStatus = .failed → hit w p = none

/-- Of a document that could not be processed nothing of another length is
found in the cache; and no document is known to stand at the root. -/
def StatFits (w : World) (d : Memory) (p : String) : Prop :=
  if p = "/" ∨ p = "" then w.index.isFile p = false
  else d.docStatus = .failed → ∀ id c, hit w p = some (id, c) → c.content.size = utf16Length (d.content.getD "")

theorem Faithful.answered (h : Faithful s w) : Faithful s (answered w) := ⟨h.server, h.synthetic, h.indexed, h.cached⟩

theorem Faithful.answer (h : Faithful s w) (hf : w.fates = []) (params : ListParams) :
    w.send (listCall params) = (.ok (s.list params), { w with server := s, fates := [] }) := by
  rw [send_nil w hf, ← h.server]
  rfl

theorem hit_fresh {cache : SessionCache} (h : cache.entries = []) {fates : List Fate} :
    hit (fresh s cache fates) p = none := by
  unfold hit fresh SessionCache.get
  dsimp only
  rw [h]
  rfl

theorem fresh_inv {cache : SessionCache} (h : cache.entries = []) {fates : List Fate} :
    Faithful s (fresh s cache fates) :=
  ⟨rfl, rfl, fun _ _ hq => (nomatch hq), fun x hx => absurd (h ▸ hx : x ∈ []) List.not_mem_nil⟩

/-- What is handed out of a document is its text or what `getDoc` makes of it. -/
theorem Faithful.hit (h : Faithful s w) (hs : Apart s) (hd : d ∈ s.docs) (hp : d.filepath = some p) {id : String}
    {c : CachedEntry} (hh : hit w p = some (id, c)) :
    c.status = d.docStatus ∧ (c.content = .text (d.content.getD "") ∨ c.content = d.result.content) := by
  obtain ⟨c', hc, hid⟩ := Option.bind_eq_some_iff.mp hh
  obtain ⟨x, hx, rfl, rfl⟩ := SessionCache.get_mem hc
  obtain ⟨i, -, he⟩ := Option.map_eq_some_iff.mp hid
  cases he
  obtain ⟨e, he, hfp, hstatus, hcontent⟩ := h.cached x hx
  obtain rfl := hs.distinct d hd e he x.1 hp hfp
  exact ⟨hstatus, hcontent⟩

theorem result_of_processed (h : d.docStatus ≠ .failed) :
    d.result = ⟨d.id, .text (d.content.getD ""), d.docStatus, none⟩ := by
  unfold Memory.result
  cases hst : d.docStatus with
  | failed => exact absurd hst h
  | done => rfl
  | processing => rfl

theorem result_of_failed (h : d.docStatus = .failed) :
    d.result = ⟨d.id, .text (failedContent d.reason), .failed, some d.reason⟩ := by
  unfold Memory.result
  rw [h]

/-- On a miss the server's document is the answer. -/
theorem getDoc_uncached (h : Faithful s w) (hf : w.fates = []) (hs : Apart s) (hd : d ∈ s.docs)
    (hp : d.filepath = some p)
    (hh : Bash.hit w p = none) : (eval (getDoc p) w).1 = .ok (some d.result) := by
  rw [eval_getDoc_miss hh, (h.looked p).answer hf]
  dsimp only
  rw [found_of_mem hs hd hp]

theorem statDoc_uncached (h : Faithful s w) (hf : w.fates = []) (hs : Apart s) (hd : d ∈ s.docs)
    (hp : d.filepath = some p) (hdir : w.index.isDirOnly p = false) (hh : Bash.hit w p = none) :
    (eval (statDoc p) w).1 =
      .ok (some ⟨some d.id, true, false, utf16Length (d.content.getD ""), d.updatedAt.getD 0, some d.docStatus⟩) := by
  rw [eval_statDoc_miss hdir hh, (h.looked p).answer hf]
  dsimp only
  rw [found_of_mem hs hd hp]

theorem read_iff (h : Faithful s w) (hf : w.fates = []) (hs : Apart s) (hd : d ∈ s.docs) (hp : d.filepath = some p) :
    docView (eval (getDoc p) w).1 = docView (.ok (some d.result)) ↔ ReadFits w d p := by
  unfold ReadFits
  cases hh : hit w p with
  | none =>
    rw [getDoc_uncached h hf hs hd hp hh]
    exact iff_of_true rfl fun _ => rfl
  | some ic =>
    obtain ⟨id, c⟩ := ic
    obtain ⟨hstatus, hcontent⟩ := h.hit hs hd hp hh
    rw [eval_getDoc_hit hh]
    by_cases hfailed : d.docStatus = .failed
    · rw [result_of_failed hfailed]
      refine iff_of_false (fun he => ?_) fun hall => (nomatch hall hfailed)
      simp [docView, Except.map] at he
    · rw [result_of_processed hfailed] at hcontent ⊢
      refine iff_of_true ?_ fun hst => absurd hst hfailed
      rw [or_self_iff] at hcontent
      unfold docView
      rw [hcontent, hstatus]
      rfl

/-- A document at a path that is not the root is not taken for a directory. -/
theorem not_dir (h : Faithful s w) (hs : Apart s) (hd : d ∈ s.docs) (hp : d.filepath = some p)
    (hroot : ¬ (p = "/" ∨ p = "")) :
    w.index.isDirOnly p = false := by
  push Not at hroot
  cases hfile : w.index.isFile p with
  | true => simp [PathIndex.isDirOnly, hfile]
  | false =>
    have hbelow : w.index.hasBelow p = false := by
      by_contra hb
      rw [Bool.not_eq_false, PathIndex.hasBelow_iff] at hb
      obtain ⟨q, hq, hpre⟩ := hb
      obtain ⟨id, hid⟩ := PathIndex.isFile_iff.mp hq
      obtain ⟨e, he, hfp⟩ := h.indexed q id hid
      obtain rfl := hs.apart d hd e he p q hp hfp hpre
      rw [hp] at hfp
      cases hfp
      rw [hfile] at hq
      cases hq
    simp [PathIndex.isDirOnly, PathIndex.isDirectory, hroot, h.synthetic, hbelow]

theorem stat_iff (h : Faithful s w) (hf : w.fates = []) (hs : Apart s) (hd : d ∈ s.docs) (hp : d.filepath = some p)
    (hroot : ¬ (p = "/" ∨ p = "")) : statView (eval (statDoc p) w).1 =
      .ok (some (utf16Length (d.content.getD ""), some d.docStatus)) ↔ StatFits w d p := by
  have hdir := not_dir h hs hd hp hroot
  unfold StatFits
  rw [if_neg hroot]
  cases hh : hit w p with
  | none =>
    rw [statDoc_uncached h hf hs hd hp hdir hh]
    refine iff_of_true rfl fun _ id c hc => ?_
    cases hc
  | some ic =>
    obtain ⟨id, c⟩ := ic
    obtain ⟨hstatus, hcontent⟩ := h.hit hs hd hp hh
    rw [eval_statDoc_hit hdir hh]
    have hview : statView (.ok (some ⟨some id, true, false, c.content.size, 0, some c.status⟩)) =
        .ok (some (utf16Length (d.content.getD ""), some d.docStatus)) ↔
          c.content.size = utf16Length (d.content.getD "") := by
      simp [statView, Except.map, hstatus]
    rw [hview]
    constructor
    · intro he _ id' c' hc
      cases hc
      exact he
    · intro hfit
      by_cases hfailed : d.docStatus = .failed
      · exact hfit hfailed id c rfl
      · rw [result_of_processed hfailed, or_self_iff] at hcontent
        rw [hcontent]
        rfl

/-- At the root a document is told from the directory by the index alone. -/
theorem root_iff (h : Faithful s w) (hf : w.fates = []) (hs : Apart s) (hd : d ∈ s.docs) (hp : d.filepath = some p)
    (hroot : p = "/" ∨ p = "") : statView (eval (statDoc p) w).1 = .ok (some (0, none)) ↔ StatFits w d p := by
  unfold StatFits
  rw [if_pos hroot]
  have hisdir : w.index.isDirectory p = true := by
    unfold PathIndex.isDirectory
    rcases hroot with rfl | rfl <;> simp
  cases hfile : w.index.isFile p with
  | false =>
    rw [eval_statDoc_dir (by rw [PathIndex.isDirOnly, hisdir, hfile]; rfl)]
    exact iff_of_true rfl rfl
  | true =>
    have hdir : w.index.isDirOnly p = false := by
      rw [PathIndex.isDirOnly, hfile, Bool.not_true, Bool.and_false]
    refine iff_of_false (fun he => ?_) fun he => (nomatch he)
    cases hh : hit w p with
    | some ic =>
      obtain ⟨id, c⟩ := ic
      rw [eval_statDoc_hit hdir hh] at he
      simp [statView, Except.map] at he
    | none =>
      rw [statDoc_uncached h hf hs hd hp hdir hh] at he
      simp [statView, Except.map] at he

/-- **A read of a document answers like one on an empty volume exactly if it
fits what the volume holds**, in every state that reads of a server that does
not change can reach. -/
theorem agrees_iff {cache cache₀ : SessionCache} {fates : List Fate} (hs : Apart s) (hc : cache.entries = [])
    (hr : Reach step anyStep (fresh s cache fates) w) (hc₀ : cache₀.entries = []) (hd : d ∈ s.docs)
    (hp : d.filepath = some p) :
    (docView (eval (getDoc p) (answered w)).1 = docView (eval (getDoc p) (fresh s cache₀ [])).1 ↔
      ReadFits (answered w) d p) ∧
    (statView (eval (statDoc p) (answered w)).1 = statView (eval (statDoc p) (fresh s cache₀ [])).1 ↔
      StatFits (answered w) d p) := by
  have hw : Faithful s (answered w) := (hr.inv (fresh_inv hc) fun _ _ _ h _ hst => step_inv h hst).answered
  have hw₀ : Faithful s (fresh s cache₀ []) := fresh_inv hc₀
  refine ⟨?_, ?_⟩
  · rw [getDoc_uncached hw₀ rfl hs hd hp (hit_fresh hc₀)]
    exact read_iff hw rfl hs hd hp
  · by_cases hroot : p = "/" ∨ p = ""
    · have hfresh : (fresh s cache₀ []).index.isFile p = false := rfl
      rw [(root_iff hw₀ rfl hs hd hp hroot).mpr (by rw [StatFits, if_pos hroot]; exact hfresh)]
      exact root_iff hw rfl hs hd hp hroot
    · rw [statDoc_uncached hw₀ rfl hs hd hp (not_dir hw₀ hs hd hp hroot) (hit_fresh hc₀)]
      exact stat_iff hw rfl hs hd hp hroot

/-- A cache whose clock stands still. -/
def still : SessionCache := .new none none fun _ => 0

/-- A document that is processed, in a directory, and one that could not be. -/
def mixed : Container :=
  ⟨[⟨"d1", some "/notes/a.md", some "hello", some "done", none, none, none, none, none⟩,
    ⟨"d2", some "/bad.md", some "raw", some "failed", some "bad mime", none, none, none, none⟩], [], ([], [])⟩

theorem mixed_apart : Apart mixed := by
  have hcross : startsWith "/bad.md" (withSlash "/notes/a.md") = false ∧
      startsWith "/notes/a.md" (withSlash "/bad.md") = false := by decide
  constructor
  · simp [mixed]
  · simp [mixed, hcross]

/-- A listing with contents, and one call of each document. -/
def warmRun : List Act :=
  [.listByPrefix "/notes/" { withContent := true }, .statDoc "/bad.md", .getDoc "/notes/a.md"]

/-- Both documents are cached. The calls agree on the processed one, and on
the other one only `statDoc` does. -/
theorem agrees_warm :
    ∃ w, run step anyStep (fresh mixed still []) warmRun = some w ∧
      ((hit (answered w) "/notes/a.md").map (fun x => x.2.content) = some (.text "hello") ∧
        (hit (answered w) "/bad.md").map (fun x => x.2.content) = some (.text "raw")) ∧
      (docView (eval (getDoc "/notes/a.md") (answered w)).1 =
          docView (eval (getDoc "/notes/a.md") (fresh mixed still [])).1 ∧
        statView (eval (statDoc "/notes/a.md") (answered w)).1 =
          statView (eval (statDoc "/notes/a.md") (fresh mixed still [])).1) ∧
      docView (eval (getDoc "/bad.md") (answered w)).1 ≠ docView (eval (getDoc "/bad.md") (fresh mixed still [])).1 ∧
        statView (eval (statDoc "/bad.md") (answered w)).1 =
          statView (eval (statDoc "/bad.md") (fresh mixed still [])).1 := by
  obtain ⟨w, hw, hp⟩ := (Option.any_eq_true _ _).mp
    (by decide +kernel : (run step anyStep (fresh mixed still []) warmRun).any (fun w => decide
      ((hit (answered w) "/notes/a.md").map (fun x => x.2.content) = some (.text "hello") ∧
        (hit (answered w) "/bad.md").map (fun x => x.2.content) = some (.text "raw"))) = true)
  obtain ⟨hgood, hbad⟩ := of_decide_eq_true hp
  have hempty : still.entries = [] := rfl
  obtain ⟨hget, hstat⟩ := agrees_iff (p := "/notes/a.md") mixed_apart hempty (.of_run hw) hempty
    List.mem_cons_self rfl
  obtain ⟨hget', hstat'⟩ := agrees_iff (p := "/bad.md") mixed_apart hempty (.of_run hw) hempty
    (List.mem_cons_of_mem _ List.mem_cons_self) rfl
  refine ⟨w, hw, ⟨hgood, hbad⟩, ⟨hget.mpr fun hf => absurd hf (by decide), hstat.mpr ?_⟩,
    fun he => ?_, hstat'.mpr ?_⟩
  · rw [StatFits, if_neg (by decide)]
    exact fun hf => absurd hf (by decide)
  · have hnone := hget'.mp he (by decide)
    rw [hnone] at hbad
    cases hbad
  · rw [StatFits, if_neg (by decide)]
    intro _ id c hc
    rw [hc, Option.map_some, Option.some.injEq] at hbad
    rw [hbad]
    rfl

/-! ### A document that could not be processed -/

/-- One document, with a text and an error. -/
def failing : Container :=
  ⟨[⟨"d1", some "/a.md", some "raw", some "failed", some "bad mime", none, none, none, none⟩], [], ([], [])⟩

theorem failing_apart : Apart failing := by
  constructor
  · intro d hd e he _ _ _
    rw [List.mem_singleton.mp hd, List.mem_singleton.mp he]
  · intro d hd e he _ _ _ _ _
    rw [List.mem_singleton.mp hd, List.mem_singleton.mp he]

/-- After a `statDoc` the `getDoc` gives the raw text, and no reason. -/
theorem blurb_forgotten : Apart failing ∧ ∃ w, Reach step anyStep (fresh failing still []) w ∧
    docView (eval (getDoc "/a.md") w).1 = .ok (some (.text "raw", .failed, none)) ∧
    docView (eval (getDoc "/a.md") (fresh failing still [])).1 =
      .ok (some (.text (failedContent "bad mime"), .failed, some "bad mime")) :=
  ⟨failing_apart, _, .next (.start) (a := .statDoc "/a.md") trivial rfl, by decide +kernel, by decide +kernel⟩

end Smfs.Bash.Reads
