/-
# The paths that are held

A path is held if it is indexed or the server has a document there. What a call
adds to the paths held and to the synthetic directories is bounded by its
arguments: a read, a lookup and a removal add nothing, a write its path, and a
tree operation the images of what was under its source. The tree operations
start several documents at once; the bound is one on every section, so it holds
in every schedule.

Key definitions: `Held`, `Within`, `image`.
Key theorems: `sections_addDoc`, `sections_moveDoc`, `moveDoc_within`, `moveTree_within`, `copyTree_within`.
-/
import Smfs.Bash.Fs

namespace Smfs.Bash

open Turns Relation

/-- The path is indexed, or the server has a document there. -/
def Held (w : World) (p : String) : Prop := w.index.isFile p = true ∨ Stands w.server p

/-- What is held and marked now was so before, or is one of these. -/
structure Within (S T : String → Prop) (w t : World) : Prop where
  held : ∀ p, Held t p → Held w p ∨ S p
  dirs : ∀ d ∈ t.index.syntheticDirs, d ∈ w.index.syntheticDirs ∨ T d

/-- No path. -/
def noPath : String → Prop := fun _ => False

variable {S T S' T' : String → Prop} {w t u : World} {s : Container} {p q id src dest : String}

theorem Within.refl (w : World) : Within S T w w := ⟨fun _ h => .inl h, fun _ h => .inl h⟩

theorem Within.trans (h : Within S T w t) (h' : Within S T t u) : Within S T w u := by
  refine ⟨fun p hp => ?_, fun d hd => ?_⟩
  · rcases h'.held p hp with hp | hp
    · exact h.held p hp
    · exact .inr hp
  · rcases h'.dirs d hd with hd | hd
    · exact h.dirs d hd
    · exact .inr hd

theorem Within.mono (h : Within S T w t) (hS : ∀ p, S p → Held w p ∨ S' p) (hT : ∀ d, T d → T' d) : Within S' T' w t :=
  ⟨fun p hp => (h.held p hp).elim .inl (hS p), fun d hd => (h.dirs d hd).imp_right (hT d)⟩

theorem Within.of_steps (h : ReflTransGen (Within S T) w t) : Within S T w t := by
  induction h with
  | refl => exact .refl _
  | tail _ h ih => exact ih.trans h

/-! ### Indexes and containers -/

theorem isFile_insert {ix : PathIndex} : (ix.insert p id).isFile q = true ↔ q = p ∨ ix.isFile q = true := by
  unfold PathIndex.isFile
  rw [PathIndex.resolve_insert]
  by_cases h : q = p <;> simp [h]

theorem isFile_remove {ix : PathIndex} : (ix.remove p).isFile q = true ↔ q ≠ p ∧ ix.isFile q = true := by
  unfold PathIndex.isFile
  rw [PathIndex.resolve_remove]
  by_cases h : q = p <;> simp [h]

theorem stands_add {content : String} (h : Stands (s.add p content).2 q) : Stands s q ∨ q = p := by
  obtain ⟨d, hd, hq⟩ := h
  rcases List.mem_append.mp hd with hd | hd
  · exact .inl ⟨d, hd, hq⟩
  · obtain rfl := List.mem_singleton.mp hd
    exact .inr (Option.some.inj hq).symm

theorem stands_update {content : Option String} (h : Stands (s.update id content p).2 q) : Stands s q ∨ q = p := by
  obtain ⟨e, he, hq⟩ := h
  unfold Container.update at he
  cases hg : s.get id with
  | none =>
    rw [hg] at he
    exact .inl ⟨e, he, hq⟩
  | some d₀ =>
    rw [hg] at he
    obtain ⟨d, hd, rfl⟩ := List.mem_map.mp he
    by_cases hid : d.id = id
    · rw [if_pos hid] at hq
      cases content with
      | none => exact .inr (Option.some.inj hq).symm
      | some c => exact .inl ⟨d, hd, hq⟩
    · rw [if_neg hid] at hq
      exact .inl ⟨d, hd, hq⟩

theorem stands_delete (h : Stands (s.delete id).2 q) : Stands s q := by
  obtain ⟨e, he, hq⟩ := h
  unfold Container.delete at he
  cases hg : s.get id with
  | none =>
    rw [hg] at he
    exact ⟨e, he, hq⟩
  | some d =>
    rw [hg] at he
    exact ⟨e, (Table.mem_erase.mp he).1, hq⟩

theorem stands_deleteBulk {which : Memory → Bool} {stay : List (String × String)}
    (h : Stands (s.deleteBulk which stay).2 q) : Stands s q := by
  obtain ⟨e, he, hq⟩ := h
  exact ⟨e, (List.mem_filter.mp he).1, hq⟩

/-- A request adds what its call adds on the server. -/
theorem Within.send {α : Type} {call : List (String × String) → Container → Except ApiError α × Container}
    (h : ∀ stay q, Stands (call stay w.server).2 q → Stands w.server q ∨ S q) : Within S T w (w.send call).2 := by
  obtain ⟨hindex, -, -⟩ := send_kept w call
  refine ⟨fun q hq => ?_, fun d hd => .inl (hindex ▸ hd)⟩
  rcases hq with hq | hq
  · exact .inl (.inl (hindex ▸ hq))
  · rcases send_server w call with hs | ⟨stay, hs⟩
    · exact .inl (.inr (hs ▸ hq))
    · rcases h stay q (hs ▸ hq) with hq | hq
      · exact .inl (.inr hq)
      · exact .inr hq

theorem within_listCall (params : ListParams) : Within S T w (w.send (listCall params)).2 :=
  .send fun _ _ hq => .inl hq

/-- A path that is inserted. -/
theorem within_insert (hserver : t.server = w.server) (hindex : t.index = w.index.insert p id) (hp : Held w p ∨ S p) :
    Within S T w t := by
  refine ⟨fun q hq => ?_, fun d hd => .inl ?_⟩
  swap
  · rw [hindex] at hd
    exact hd
  rcases hq with hq | hq
  · rw [hindex, isFile_insert] at hq
    rcases hq with rfl | hq
    · exact hp
    · exact .inl (.inl hq)
  · exact .inl (.inr (hserver ▸ hq))

/-- Nothing is inserted. -/
theorem within_fewer (hserver : t.server = w.server) (hindex : ∀ q, t.index.isFile q = true → w.index.isFile q = true)
    (hdirs : ∀ d ∈ t.index.syntheticDirs, d ∈ w.index.syntheticDirs) : Within S T w t :=
  ⟨fun q hq => .inl (hq.imp (hindex q) fun h => hserver ▸ h), fun d hd => .inl (hdirs d hd)⟩

theorem within_indexed (hp : Held w p ∨ S p) : Within S T w { w with index := w.index.insert p id } :=
    within_insert rfl rfl hp

theorem within_keep {content : Content} {status : DocStatus} (hp : Held w p ∨ S p) :
    Within S T w (w.keep p id content status) :=
  within_insert rfl rfl hp

theorem within_drop : Within S T w (w.drop p) := within_fewer rfl (fun _ hq => (isFile_remove.mp hq).2) fun _ hd => hd

/-! ### The sections of the writes -/

theorem sections_look {α : Type} (f : World → α) : Sections (Within S T) (look f) := sections_sync fun w => .refl w

theorem sections_lookupDocId (hp : S p) : Sections (Within S T) (lookupDocId p) := by
  unfold lookupDocId
  refine (sections_look _).bind fun known => ?_
  cases known with
  | some id => exact sections_pure _
  | none =>
    refine Sections.bind (sections_sync fun w => within_listCall _) fun answer => ?_
    cases answer with
    | error e => exact sections_throw _
    | ok resp =>
      dsimp only
      cases resp.memories.head? with
      | none => exact sections_pure _
      | some m =>
        dsimp only
        split_ifs
        · exact Sections.bind (sections_sync fun w => within_indexed (.inr hp)) fun _ => sections_pure _
        · exact sections_pure _

theorem sections_addDoc (hp : S p) (content : Content) : Sections (Within S T) (addDoc p content) := by
  cases content with
  | bytes b => exact sections_throw _
  | text data =>
    refine (sections_look _).bind fun err => ?_
    cases err with
    | some e => exact sections_throw _
    | none =>
      refine (sections_look _).bind fun existing => Sections.bind (sections_sync fun w => .send fun stay q hq =>
        ?_) fun answer => ?_
      · cases existing with
        | some id => exact (stands_update hq).imp_right fun (he : q = p) => he ▸ hp
        | none => exact (stands_add hq).imp_right fun (he : q = p) => he ▸ hp
      · cases answer with
        | error e => exact sections_throw _
        | ok m => exact Sections.bind (sections_sync fun w => within_keep (.inr hp)) fun _ => sections_pure _

theorem sections_renameDoc (hdest : S dest) : Sections (Within S T) (renameDoc id src dest) := by
  refine Sections.bind (sections_sync fun w => .send fun stay q hq =>
    (stands_update hq).imp_right fun (he : q = dest) => he ▸ hdest)
    fun answer => ?_
  cases answer with
  | error e =>
    dsimp only
    split_ifs
    · exact (sections_sync fun w => within_drop).bind fun _ => sections_throw _
    · exact sections_throw _
    · exact sections_throw _
  | ok m =>
    refine sections_sync fun w => ?_
    have hremoved : Within S T w { w with index := w.index.remove src } :=
      within_fewer rfl (fun _ hq => (isFile_remove.mp hq).2) fun _ hd => hd
    exact hremoved.trans (within_insert rfl rfl (.inr hdest))

theorem sections_moveDoc (hsrc : S src) (hdest : S dest) : Sections (Within S T) (moveDoc src dest) := by
  refine (sections_look _).bind fun err => ?_
  cases err with
  | some e => exact sections_throw _
  | none =>
    refine (sections_lookupDocId hsrc).bind fun found => ?_
    cases truthy found with
    | none => exact sections_throw _
    | some docId =>
      refine (sections_lookupDocId hdest).bind fun there => ?_
      cases truthy there with
      | some _ => exact sections_throw _
      | none => exact sections_renameDoc hdest

theorem all_caught {α : Type} {job : Vol α} (h : Sections (Within S T) job) : (caught job).All (Within S T) := by
  refine Async.All.bind h fun answer => ?_
  cases answer with
  | ok _ => exact trivial
  | error e => exact trivial

/-- The batches, in any schedule. -/
theorem runBatches_within {sched : ℕ → List ℕ} {n : ℕ} {batches : List (List (Async World (Option Thrown)))}
    (h : ∀ batch ∈ batches, ∀ x ∈ batch, x.All (Within S T)) : Within S T w (runBatches sched n batches w).2 := by
  induction batches generalizing n w with
  | nil => exact .refl w
  | cons batch rest ih =>
    exact (Within.of_steps (interleave_steps (h batch List.mem_cons_self) w)).trans
      (ih fun b hb => h b (List.mem_cons_of_mem batch hb))

/-! ### The reads add nothing -/

/-- Nothing of the index or of the server changes. -/
theorem within_same (hserver : t.server = w.server) (hindex : t.index = w.index) : Within S T w t :=
  within_fewer hserver (hindex ▸ fun _ hq => hq) (hindex ▸ fun _ hd => hd)

/-- The paths of an answer are of documents the server has. -/
theorem stands_of_list {params : ListParams} {m : Memory} (hm : m ∈ (s.list params).memories)
    (hp : m.filepath = some p) : Stands s p := by
  obtain ⟨d, hd, rfl⟩ := List.mem_map.mp hm
  refine ⟨d, (List.mem_filter.mp (Paging.mem_of_mem_page hd)).1, ?_⟩
  rw [← hp]
  split_ifs <;> rfl

theorem lookupDocId_within : Within noPath noPath w (eval (lookupDocId p) w).2 := by
  cases hr : truthy (w.index.resolve p) with
  | some id =>
    rw [eval_lookupDocId_known hr]
    exact .refl w
  | none =>
    rw [eval_lookupDocId_unknown hr]
    have hsent : Within noPath noPath w _ := within_listCall (exactly p false)
    have hanswer := listCall_answer w (exactly p false)
    have hserver := listCall_server w (exactly p false)
    generalize w.send (listCall (exactly p false)) = r at hsent hanswer hserver
    obtain ⟨answer, t⟩ := r
    cases answer with
    | error e => exact hsent
    | ok resp =>
      dsimp only at hserver ⊢
      cases hm : named p resp with
      | none => exact hsent
      | some m =>
        refine hsent.trans (within_indexed (.inl (.inr ?_)))
        obtain ⟨d, hd, -, hp⟩ := named_some (hanswer resp rfl ▸ hm)
        exact ⟨d, hserver ▸ hd, hp⟩

theorem within_fetched {content : Content} {status : DocStatus} (hp : Held w p ∨ S p) :
    Within S T w (w.fetched p id content status) := by
  by_cases hid : id = ""
  · exact within_same rfl (if_pos hid)
  · exact within_insert rfl (if_neg hid) hp

theorem getDoc_within : Within noPath noPath w (eval (getDoc p) w).2 := by
  have hlooked : Within noPath noPath w (w.looked p) := within_same rfl rfl
  cases hh : hit w p with
  | some c =>
    rw [eval_getDoc_hit hh]
    exact hlooked
  | none =>
    rw [eval_getDoc_miss hh]
    have hsent : Within noPath noPath (w.looked p) _ := within_listCall (exactly p true)
    have hanswer := listCall_answer (w.looked p) (exactly p true)
    have hserver := listCall_server (w.looked p) (exactly p true)
    generalize (w.looked p).send (listCall (exactly p true)) = r at hsent hanswer hserver
    obtain ⟨answer, t⟩ := r
    cases answer with
    | error e => exact hlooked.trans hsent
    | ok resp =>
      dsimp only at hserver ⊢
      cases hm : found p resp with
      | none => exact (hlooked.trans hsent).trans within_drop
      | some m =>
        refine (hlooked.trans hsent).trans (within_fetched (.inl (.inr ?_)))
        obtain ⟨hmem, hp⟩ := found_some (hanswer resp rfl ▸ hm)
        exact ⟨m, hserver ▸ hmem, hp⟩

/-- What a listing by prefix gives: documents that stand under it. -/
def Lists (s : Container) (pre : String) (out : List DocSummary) : Prop :=
  ∀ e ∈ out, Stands s e.filepath ∧ startsWith e.filepath pre = true

theorem visit_within (pre : String) {opts : ListByPrefixOpts} (ms : List Memory) (hexact : opts.exact = false)
    (hms : ∀ m ∈ ms, ∀ p, m.filepath = some p → Stands w.server p) {out : List DocSummary}
    (hout : Lists w.server pre out) :
    Within noPath noPath w (visit pre opts ms out w).2 ∧ (visit pre opts ms out w).2.server = w.server ∧
      Lists w.server pre (visit pre opts ms out w).1.1 := by
  induction ms generalizing out w with
  | nil => exact ⟨.refl w, rfl, hout⟩
  | cons m ms ih =>
    have hrest := fun x hx => hms x (List.mem_cons_of_mem m hx)
    unfold visit
    cases ht : taken pre opts.exact m with
    | none => exact ih hrest hout
    | some p =>
      obtain ⟨hfp, hpre⟩ := Option.filter_eq_some_iff.mp ht
      rw [hexact, if_neg Bool.false_ne_true] at hpre
      have hp := hms m List.mem_cons_self p hfp
      have hnote : Within noPath noPath w (note opts.withContent w p m) := within_insert rfl rfl (.inl (.inr hp))
      have hout' : Lists w.server pre (out ++ [m.summary p]) := by
        intro e he
        rcases List.mem_append.mp he with he | he
        · exact hout e he
        · rw [List.mem_singleton.mp he]
          exact ⟨hp, hpre⟩
      dsimp only
      split_ifs
      · exact ⟨hnote, rfl, hout'⟩
      · obtain ⟨hwithin, hserver, hentries⟩ := ih (w := note opts.withContent w p m) hrest hout'
        exact ⟨hnote.trans hwithin, hserver, hentries⟩

/-- What a listing leaves, and what it gives. -/
structure Listed (w : World) (pre : String) (r : Except Thrown (List DocSummary) × World) : Prop where
  within : Within noPath noPath w r.2
  server : r.2.server = w.server
  entries : ∀ out, r.1 = .ok out → Lists w.server pre out

theorem listPages_listed {pre : String} {opts : ListByPrefixOpts} (hexact : opts.exact = false) (fuel page : ℕ)
    {out : List DocSummary} (hout : Lists w.server pre out) :
    Listed w pre (eval (listPages pre opts fuel page out) w) := by
  induction fuel generalizing page out w with
  | zero => exact ⟨.refl w, rfl, fun out' h => Except.ok.inj h ▸ hout⟩
  | succ fuel ih =>
    unfold listPages
    rw [eval_bind, eval_listRequest, andThen_ok]
    generalize hq : ListParams.mk (filterArgFor pre opts.exact) 100 page opts.withContent = params
    have hsent : Within noPath noPath w _ := within_listCall params
    have hanswer := listCall_answer w params
    have hserver := listCall_server w params
    generalize w.send (listCall params) = r at hsent hanswer hserver
    obtain ⟨answer, t⟩ := r
    dsimp only at hsent hanswer hserver
    cases answer with
    | error e => exact ⟨hsent, hserver, fun out' h => (nomatch h)⟩
    | ok resp =>
      obtain rfl := hanswer resp rfl
      rw [← hserver] at hout
      have hv := visit_within (w := t) pre (w.server.list params).memories hexact
        (fun m hm p hp => hserver ▸ stands_of_list hm hp) hout
      dsimp only
      rw [eval_bind, eval_sync, andThen_ok]
      generalize visit pre opts _ out t = v at hv
      obtain ⟨⟨out', enough⟩, u⟩ := v
      obtain ⟨hwithin, hserver', hentries⟩ := hv
      dsimp only at hwithin hserver' hentries ⊢
      split_ifs
      · exact ⟨hsent.trans hwithin, hserver'.trans hserver, fun out'' h => Except.ok.inj h ▸ hserver ▸ hentries⟩
      · rw [← hserver'] at hentries
        obtain ⟨h1, h2, h3⟩ := ih (page + 1) hentries
        exact ⟨(hsent.trans hwithin).trans h1, h2.trans (hserver'.trans hserver),
          fun out'' h => hserver ▸ hserver' ▸ h3 out'' h⟩

theorem listByPrefix_listed (pre : String) (opts : ListByPrefixOpts) (hexact : opts.exact = false) :
    Listed w pre (eval (listByPrefix pre opts) w) := listPages_listed hexact _ 1 fun _ he => (nomatch he)

theorem isDirEmpty_within : Within noPath noPath w (eval (isDirEmpty p) w).2 := by
  unfold isDirEmpty
  dsimp only
  generalize (if p = "/" then "/" else p ++ "/") = pre
  rw [eval_bind]
  have hlisted := listByPrefix_listed (w := w) pre { limit := some 1 } rfl
  generalize eval (listByPrefix pre { limit := some 1 }) w = r at hlisted
  obtain ⟨answer, t⟩ := r
  cases answer with
  | error e => exact hlisted.within
  | ok probe =>
    rw [andThen_ok]
    split_ifs
    · exact hlisted.within
    · exact hlisted.within

theorem fetchProfile_same : (eval fetchProfile w).2.server = w.server ∧ (eval fetchProfile w).2.index = w.index := by
  unfold fetchProfile
  rw [eval_bind, eval_cacheGet, andThen_ok]
  split
  · exact ⟨rfl, rfl⟩
  · rw [eval_bind, eval_request, andThen_ok]
    have hkept : ∀ x : World, (x.send fun _ s => (Except.ok s.profile, s)).2.server = x.server ∧
        (x.send fun _ s => (Except.ok s.profile, s)).2.index = x.index := by
      intro x
      refine ⟨?_, (send_kept x _).1⟩
      rcases send_server x fun _ s => (Except.ok s.profile, s) with h | ⟨_, h⟩ <;> exact h
    have hk := hkept { w with cache := (w.cache.get profilePath).2 }
    generalize World.send { w with cache := (w.cache.get profilePath).2 } _ = r at hk ⊢
    obtain ⟨answer, t⟩ := r
    cases answer with
    | error e => exact hk
    | ok profile => exact hk

/-! ### Removals and trees -/

theorem sections_removeDoc (hp : S p) : Sections (Within S T) (removeDoc p) := by
  unfold removeDoc
  refine (sections_lookupDocId hp).bind fun found => ?_
  cases truthy found with
  | none => exact sections_pure _
  | some docId =>
    refine Sections.bind (sections_sync fun w => .send fun stay q hq => .inl (stands_delete hq)) fun answer => ?_
    cases answer with
    | ok _ => exact sections_sync fun w => within_drop
    | error e =>
      dsimp only
      split_ifs
      · exact sections_throw _
      · exact sections_sync fun w => within_drop
      · exact sections_throw _

theorem mem_evictSyntheticUnder {pre d : String} {ix : PathIndex} : d ∈ (evictSyntheticUnder pre ix).syntheticDirs ↔
    d ∈ ix.syntheticDirs ∧ ¬ (d = (if endsWithSlash pre then String.ofList pre.toList.dropLast else pre) ∨
      startsWith d pre = true) := by
  unfold evictSyntheticUnder
  rw [PathIndex.mem_foldl_unmark, PathIndex.mem_syntheticDirPaths]
  exact and_congr_right fun hd => by simp [hd]

theorem within_withoutPrefix {pre : String} : Within S T w (w.withoutPrefix pre) := by
  refine within_fewer forgetUnder_server.1 (fun q hq => ?_) fun d hd => ?_
  · obtain ⟨id, hid⟩ := PathIndex.isFile_iff.mp hq
    rw [withoutPrefix_resolve] at hid
    split_ifs at hid
    exact PathIndex.isFile_iff.mpr ⟨id, hid⟩
  · exact forgetUnder_server.2 ▸ (mem_evictSyntheticUnder.mp hd).1

theorem removeByPrefix_within {pre : String} (hpre : pre ≠ "") : Within S T w (eval (removeByPrefix pre) w).2 := by
  rw [eval_removeByPrefix hpre]
  have hsent : Within S T w (w.send (bulkCall (Container.listed (some (withSlash pre))))).2 :=
    .send fun stay q hq => .inl (stands_deleteBulk hq)
  generalize w.send (bulkCall (Container.listed (some (withSlash pre)))) = r at hsent
  obtain ⟨answer, t⟩ := r
  cases answer with
  | error e => exact hsent
  | ok resp => exact hsent.trans within_withoutPrefix

/-- A path that is written, if it is one a document may have. -/
def Written (dest p : String) : Prop := p = dest ∧ checkFilepath p = none

theorem noPath_mono (h : Within noPath noPath w t) : Within S T w t := h.mono (fun _ hp => hp.elim) fun _ hd => hd.elim

theorem addDoc_within {content : Content} : Within (Written p) noPath w (eval (addDoc p content) w).2 := by
  cases content with
  | bytes b => exact .refl w
  | text data =>
    by_cases hcheck : checkFilepath p = none
    · exact .of_steps ((sections_addDoc ⟨rfl, hcheck⟩ _).eval w)
    · rw [eval_addDoc_text]
      cases ha : assertWritable w.index p .addDoc with
      | some e => exact .refl w
      | none => exact absurd (assertWritable_none.mp ha).1 hcheck

theorem moveDoc_within : Within (Written dest) noPath w (eval (moveDoc src dest) w).2 := by
  unfold moveDoc
  rw [eval_bind, eval_look, andThen_ok]
  cases ha : assertWritable w.index dest .moveDoc with
  | some e => exact .refl w
  | none =>
    have hsrc : Within (Written dest) noPath w _ := noPath_mono (lookupDocId_within (p := src))
    dsimp only
    rw [eval_bind]
    generalize eval (lookupDocId src) w = r at hsrc
    obtain ⟨found, t⟩ := r
    cases found with
    | error e => exact hsrc
    | ok found =>
      rw [andThen_ok]
      cases truthy found with
      | none => exact hsrc
      | some docId =>
        have hdest := hsrc.trans (noPath_mono (lookupDocId_within (w := t) (p := dest)))
        dsimp only at hdest ⊢
        rw [eval_bind]
        generalize eval (lookupDocId dest) t = r at hdest
        obtain ⟨there, u⟩ := r
        cases there with
        | error e => exact hdest
        | ok there =>
          rw [andThen_ok]
          cases truthy there with
          | some _ => exact hdest
          | none =>
            have hsteps : Sections (Within (Written dest) noPath) (renameDoc docId src dest) :=
              sections_renameDoc ⟨rfl, (assertWritable_none.mp ha).1⟩
            exact hdest.trans (.of_steps (hsteps.eval u))

/-- The path of what was under `src`, under `dest`. -/
def image (src dest p : String) : String := withSlash dest ++ sliceAfter p (withSlash src)

/-- The images of the paths in `X` that are under `src`. -/
def Images (src dest : String) (X : String → Prop) (p : String) : Prop :=
  ∃ f, X f ∧ startsWith f (withSlash src) = true ∧ p = image src dest f

/-- The batches of a tree operation, one job for each entry of the listing. -/
theorem allAtOnce_within (sched : ℕ → List ℕ) {entries : List DocSummary} {α : Type} {job : DocSummary → Vol α}
    (h : ∀ e ∈ entries, Sections (Within S T) (job e)) :
    ∃ errors t, eval (allAtOnce sched (entries.map fun e => caught (job e))) w = (.ok errors, t) ∧ Within S T w t := by
  refine ⟨_, _, rfl, runBatches_within fun batch hb x hx => ?_⟩
  obtain ⟨e, he, rfl⟩ := List.mem_map.mp (Paging.mem_of_mem_chunk hb hx)
  exact all_caught (h e he)

/-- An index with the files of another, and some more directories. -/
structure Spread (T : String → Prop) (ix ix' : PathIndex) : Prop where
  files : ∀ q, ix'.isFile q = ix.isFile q
  dirs : ∀ d ∈ ix'.syntheticDirs, d ∈ ix.syntheticDirs ∨ T d

theorem Spread.refl (ix : PathIndex) : Spread T ix ix := ⟨fun _ => rfl, fun _ hd => .inl hd⟩

theorem Spread.trans {ix ix' ix'' : PathIndex} (h : Spread T ix ix') (h' : Spread T ix' ix'') : Spread T ix ix'' :=
  ⟨fun q => (h'.files q).trans (h.files q), fun d hd => (h'.dirs d hd).elim (h.dirs d) .inr⟩

theorem spread_mark {ix : PathIndex} {d : String} (h : d ≠ "/" → T d) : Spread T ix (ix.markSyntheticDir d) := by
  refine ⟨fun q => by rw [PathIndex.isFile, PathIndex.resolve_mark, PathIndex.isFile], fun e he => ?_⟩
  rcases PathIndex.mem_mark.mp he with he | ⟨rfl, hroot, -⟩
  · exact .inl he
  · exact .inr (h hroot)

theorem spread_unmark {ix : PathIndex} {d : String} : Spread T ix (ix.removeSyntheticDir d) :=
  ⟨fun _ => rfl, fun _ he => .inl (PathIndex.mem_unmark.mp he).1⟩

theorem spread_foldl {f : PathIndex → String → PathIndex} {ds : List String} (h : ∀ ix, ∀ d ∈ ds, Spread T ix (f ix d))
    (ix : PathIndex) : Spread T ix (ds.foldl f ix) := by
  induction ds generalizing ix with
  | nil => exact .refl ix
  | cons d ds ih => exact (h ix d List.mem_cons_self).trans (ih (fun ix e he => h ix e (List.mem_cons_of_mem d he)) _)

theorem Spread.within {ix : PathIndex} (h : Spread T w.index ix) : Within S T w { w with index := ix } :=
  ⟨fun _ hq => .inl (hq.imp_left fun hf => (h.files _).symm.trans hf), h.dirs⟩

/-- The directories a tree operation marks; the root has no mark. -/
def Marks (src dest : String) (w : World) (d : String) :
    Prop := (d = dest ∧ d ≠ "/") ∨ Images src dest (· ∈ w.index.syntheticDirs) d

/-- What a tree operation may add: images of what was there, and its target. -/
abbrev WithinTree (src dest : String) (w t : World) : Prop := Within (Images src dest (Held w)) (Marks src dest w) w t

/-- The jobs of the listing and the marks after them. -/
theorem tree_within {sched : ℕ → List ℕ} {α : Type} {job : DocSummary → Vol α} (mark : String → PathIndex → PathIndex)
    {entries : List DocSummary} (hlist : Within noPath noPath w t)
    (hjobs : ∀ e ∈ entries, Sections (Within (fun p => Held w p ∨ Images src dest (Held w) p) noPath) (job e))
    (hmark : ∀ ix, ∀ d ∈ w.index.syntheticDirs, Spread (Marks src dest w) ix (mark d ix)) :
    WithinTree src dest w (eval (do
      let errors ← allAtOnce sched (entries.map fun e => caught (job e))
      changeIndex fun ix => ix.syntheticDirPaths.foldl (fun ix d => mark d ix) ix
      changeIndex (·.markSyntheticDir dest)
      return errors) t).2 := by
  obtain ⟨errors, u, hu, hjobs⟩ := allAtOnce_within (w := t) sched hjobs
  have hrun : Within (fun p => Held w p ∨ Images src dest (Held w) p) noPath w u :=
    (noPath_mono hlist).trans hjobs
  have hdocs : WithinTree src dest w u := hrun.mono (fun _ hp => hp) fun _ hd => hd.elim
  rw [eval_bind, hu, andThen_ok, eval_bind, eval_changeIndex, andThen_ok, eval_bind, eval_changeIndex,
    andThen_ok, eval_pure]
  refine hdocs.trans ((Spread.trans (spread_foldl (fun ix d hd => hmark ix d ?_) u.index) (spread_mark fun hroot =>
    .inl ⟨rfl, hroot⟩)).within)
  exact (hrun.dirs d (PathIndex.mem_syntheticDirPaths.mp hd)).elim id False.elim

theorem moveTree_within (sched : ℕ → List ℕ) (src dest : String) :
    WithinTree src dest w (eval (moveTree sched src dest) w).2 := by
  unfold moveTree
  dsimp only
  rw [eval_bind]
  have hlisted := listByPrefix_listed (w := w) (withSlash src) {} rfl
  generalize eval (listByPrefix (withSlash src) {}) w = r at hlisted
  obtain ⟨answer, t⟩ := r
  cases answer with
  | error e => exact noPath_mono hlisted.within
  | ok entries =>
    rw [andThen_ok]
    refine tree_within (fun d ix => if d = src then ix.removeSyntheticDir d
      else if startsWith d (withSlash src) then
        (ix.removeSyntheticDir d).markSyntheticDir (withSlash dest ++ sliceAfter d (withSlash src))
      else ix) hlisted.within (fun e he => ?_) fun ix d hd => ?_
    · obtain ⟨hst, hpre⟩ := hlisted.entries entries rfl e he
      exact sections_moveDoc (.inl (.inr hst)) (.inr ⟨e.filepath, .inr hst, hpre, rfl⟩)
    · split_ifs with hself hpre
      · exact spread_unmark
      · exact spread_unmark.trans (spread_mark fun _ => .inr ⟨d, hd, hpre, rfl⟩)
      · exact .refl ix

theorem copyTree_within (sched : ℕ → List ℕ) (src dest : String) :
    WithinTree src dest w (eval (copyTree sched src dest) w).2 := by
  unfold copyTree
  dsimp only
  rw [eval_bind]
  have hlisted := listByPrefix_listed (w := w) (withSlash src) { withContent := true } rfl
  generalize eval (listByPrefix (withSlash src) { withContent := true }) w = r at hlisted
  obtain ⟨answer, t⟩ := r
  cases answer with
  | error e => exact noPath_mono hlisted.within
  | ok entries =>
    rw [andThen_ok]
    refine tree_within (fun d ix => if startsWith d (withSlash src) then
        ix.markSyntheticDir (withSlash dest ++ sliceAfter d (withSlash src))
      else ix) hlisted.within (fun e he => ?_) fun ix d hd => ?_
    · obtain ⟨hst, hpre⟩ := hlisted.entries entries rfl e he
      exact sections_addDoc (.inr ⟨e.filepath, .inr hst, hpre, rfl⟩) _
    · split_ifs with hpre
      · exact spread_mark fun _ => .inr ⟨d, hd, hpre, rfl⟩
      · exact .refl ix

end Smfs.Bash
