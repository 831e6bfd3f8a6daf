/-
# What a listing by prefix gives

Pages of a hundred documents, until there are no more: with no limit, and no
page failing, the documents under the prefix, each once and in the order of the
server.

Key definitions: `pathsUnder`, `asked`.
Key theorems: `visit_all`, `listPages_all`, `listByPrefix_all`, `eval_listByPrefix`, `visit_entries`, `visit_knows`.
-/
import Smfs.Bash.Held

namespace Smfs.Bash

open Turns

variable {w t : World} {s : Container} {p pre : String} {opts : ListByPrefixOpts}

/-- The paths of the documents under a prefix. -/
def pathsUnder (s : Container) (pre : String) : List String := s.docs.filterMap (taken pre false)

theorem taken_some {d : Memory} : taken pre false d = some p ↔ d.filepath = some p ∧ startsWith p pre = true := by
  unfold taken
  rw [Option.filter_eq_some_iff]
  exact Iff.rfl

/-- Without a limit every document that is taken is listed. -/
theorem visit_all (hlimit : opts.limit = none) (ms : List Memory) (out : List DocSummary) (w : World) :
    (visit pre opts ms out w).1.1.map DocSummary.filepath = out.map DocSummary.filepath ++
      ms.filterMap (taken pre opts.exact) ∧
      (visit pre opts ms out w).1.2 = false ∧ (visit pre opts ms out w).2.server = w.server := by
  induction ms generalizing out w with
  | nil => simp [visit]
  | cons m ms ih =>
    unfold visit
    cases ht : taken pre opts.exact m with
    | none =>
      rw [List.filterMap_cons_none ht]
      exact ih out w
    | some q =>
      rw [List.filterMap_cons_some ht]
      dsimp only
      rw [hlimit, Option.any_none, if_neg Bool.false_ne_true]
      obtain ⟨hpaths, hrest⟩ := ih (out ++ [m.summary q]) (note opts.withContent w q m)
      refine ⟨hpaths.trans ?_, hrest⟩
      simp [Memory.summary]

/-- What a listing takes, it asks for. -/
theorem listed_of_taken (hslash : endsWithSlash pre = true) {d : Memory} (h : taken pre false d = some p) :
    Container.listed (some (withSlash pre)) d = true := by
  obtain ⟨hp, hpre⟩ := taken_some.mp h
  unfold Container.listed
  rw [hp]
  dsimp only
  rw [if_pos (endsWithSlash_withSlash pre), withSlash, if_pos hslash]
  exact hpre

theorem taken_of_listed (hslash : endsWithSlash pre = true) :
    (s.docs.filter (Container.listed (some (withSlash pre)))).filterMap (taken pre false) = pathsUnder s pre := by
  unfold pathsUnder
  rw [List.filterMap_filter]
  refine List.filterMap_congr fun d _ => ?_
  cases ht : taken pre false d with
  | none => split_ifs <;> rfl
  | some q => rw [if_pos (listed_of_taken hslash ht)]

theorem filterMap_strip {b : Bool} (xs : List Memory) :
    (xs.map fun d => if b then d else { d with content := none }).filterMap (taken pre opts.exact) =
      xs.filterMap (taken pre opts.exact) := by
  rw [List.filterMap_map]
  refine List.filterMap_congr fun d _ => ?_
  cases b <;> rfl

/-- The pages from one on, if none fails: all that lies there. -/
theorem listPages_all (hlimit : opts.limit = none) (n fuel : ℕ) {out out' : List DocSummary}
    (hfuel : (w.server.docs.filter (Container.listed (filterArgFor pre opts.exact))).length ≤ (fuel + n) * 100)
    (h : (eval (listPages pre opts fuel (n + 1) out) w).1 = .ok out') :
    out'.map DocSummary.filepath = out.map DocSummary.filepath ++
      (Paging.ahead 100 (w.server.docs.filter (Container.listed (filterArgFor pre opts.exact))) n).filterMap (taken pre opts.exact) := by
  induction fuel generalizing n out w with
  | zero =>
    rw [Nat.zero_add] at hfuel
    rw [Paging.ahead, List.drop_eq_nil_of_le hfuel, List.filterMap_nil, List.append_nil, Except.ok.inj h]
  | succ fuel ih =>
    unfold listPages at h
    rw [eval_bind, eval_listRequest, andThen_ok] at h
    generalize hq : ListParams.mk (filterArgFor pre opts.exact) 100 (n + 1) opts.withContent = params at h
    have hanswer := listCall_answer w params
    have hserver := listCall_server w params
    generalize w.send (listCall params) = r at h hanswer hserver
    obtain ⟨answer, t⟩ := r
    dsimp only at h hanswer hserver
    cases answer with
    | error e => cases h
    | ok resp =>
      obtain rfl := hanswer resp rfl
      obtain ⟨hpaths, henough, hvisited⟩ : (visit pre opts (w.server.list params).memories out t).1.1.map DocSummary.filepath = _ ∧ _ :=
        visit_all hlimit (w.server.list params).memories out t
      dsimp only at h
      rw [eval_bind, eval_sync, andThen_ok] at h
      generalize visit pre opts (w.server.list params).memories out t = v at h hpaths henough hvisited
      obtain ⟨⟨out₁, enough⟩, u⟩ := v
      dsimp only at h hpaths henough hvisited
      subst henough
      -- the page, and what lies behind it
      have hpage : (w.server.list params).memories.filterMap (taken pre opts.exact) =
          (Paging.page 100 (w.server.docs.filter (Container.listed (filterArgFor pre opts.exact))) (n + 1)).filterMap
            (taken pre opts.exact) := by
        rw [← hq]
        exact filterMap_strip _
      rw [← Paging.page_append_ahead, List.filterMap_append, ← List.append_assoc, ← hpage, ← hpaths]
      by_cases hlast : (w.server.list params).totalPages ≤ n + 1
      · rw [if_pos (.inr hlast)] at h
        have hnil : Paging.ahead 100 (w.server.docs.filter (Container.listed (filterArgFor pre opts.exact))) (n + 1) = [] := by
          rw [← hq] at hlast
          exact Paging.ahead_of_last (by decide) hlast
        rw [hnil, List.filterMap_nil, List.append_nil, Except.ok.inj h]
      · rw [if_neg (by simp [hlast])] at h
        have hsame : u.server = w.server := hvisited.trans hserver
        have hrest := ih (w := u) (n + 1) (by rw [hsame]; omega) h
        rw [hsame] at hrest
        exact hrest

theorem listByPrefix_all (hslash : endsWithSlash pre = true) (hlimit : opts.limit = none) (hexact : opts.exact = false)
    {out : List DocSummary} (h : (eval (listByPrefix pre opts) w).1 = .ok out) :
    out.map DocSummary.filepath = pathsUnder w.server pre := by
  have hne : pre ≠ "" := by
    rintro rfl
    cases hslash
  unfold listByPrefix at h
  rw [eval_bind, eval_look, andThen_ok] at h
  have hall := listPages_all hlimit 0 (w.server.docs.length + 1) (by
    have hle := List.length_filter_le (Container.listed (filterArgFor pre opts.exact)) w.server.docs
    omega) h
  rw [hall, hexact, filterArgFor, if_neg hne, if_neg Bool.false_ne_true, List.map_nil, List.nil_append,
    Paging.ahead, Nat.zero_mul,
    List.drop_zero, taken_of_listed hslash]

/-! ### Listings that are answered -/

/-- What a listing shows of a document. -/
def shown (withContent : Bool) (d : Memory) : Memory := if withContent then d else { d with content := none }

/-- The documents a listing goes through. -/
def asked (s : Container) (pre : String) (opts : ListByPrefixOpts) : List Memory :=
  (s.docs.filter (Container.listed (filterArgFor pre opts.exact))).map (shown opts.withContent)

theorem visit_skip {m : Memory} (h : taken pre opts.exact m = none) (ms : List Memory)
    (out : List DocSummary) (w : World) :
    visit pre opts (m :: ms) out w = visit pre opts ms out w := by
  rw [visit, h]

theorem visit_take {m : Memory} (h : taken pre opts.exact m = some p) (ms : List Memory)
    (out : List DocSummary) (w : World) :
    visit pre opts (m :: ms) out w =
      if opts.limit.any (· ≤ (out ++ [m.summary p]).length) then ((out ++ [m.summary p], true),
        note opts.withContent w p m)
      else visit pre opts ms (out ++ [m.summary p]) (note opts.withContent w p m) := by
  rw [visit, h]

theorem visit_append (xs ys : List Memory) (out : List DocSummary) (w : World) : visit pre opts (xs ++ ys) out w =
    if (visit pre opts xs out w).1.2 then visit pre opts xs out w
    else visit pre opts ys (visit pre opts xs out w).1.1 (visit pre opts xs out w).2 := by
  induction xs generalizing out w with
  | nil => rfl
  | cons x xs ih =>
    rw [List.cons_append]
    cases hx : taken pre opts.exact x with
    | none =>
      rw [visit_skip hx, visit_skip hx]
      exact ih out w
    | some q =>
      rw [visit_take hx, visit_take hx]
      by_cases hlimit : opts.limit.any (· ≤ (out ++ [x.summary q]).length) = true
      · simp only [hlimit, if_true]
      · simp only [hlimit]
        exact ih _ _

theorem note_kept (withContent : Bool) (w : World) (q : String) (m : Memory) :
    (note withContent w q m).server = w.server ∧
    (note withContent w q m).fates = w.fates ∧ (note withContent w q m).index.syntheticDirs = w.index.syntheticDirs ∧
    (note withContent w q m).cache.ttlMs = w.cache.ttlMs := by
  refine ⟨rfl, rfl, rfl, ?_⟩
  unfold note
  dsimp only
  split <;> rfl

/-- Only the index and the cache change. -/
theorem visit_kept (ms : List Memory) (out : List DocSummary) (w : World) :
    (visit pre opts ms out w).2.server = w.server ∧ (visit pre opts ms out w).2.fates = w.fates ∧
      (visit pre opts ms out w).2.index.syntheticDirs = w.index.syntheticDirs ∧
      (visit pre opts ms out w).2.cache.ttlMs = w.cache.ttlMs := by
  induction ms generalizing out w with
  | nil => exact ⟨rfl, rfl, rfl, rfl⟩
  | cons m ms ih =>
    cases hm : taken pre opts.exact m with
    | none =>
      rw [visit_skip hm]
      exact ih out w
    | some q =>
      rw [visit_take hm]
      have hnote := note_kept opts.withContent w q m
      split_ifs
      · exact hnote
      · obtain ⟨hs, hf, hd, hc⟩ := ih (out ++ [m.summary q]) (note opts.withContent w q m)
        exact ⟨hs.trans hnote.1, hf.trans hnote.2.1, hd.trans hnote.2.2.1, hc.trans hnote.2.2.2⟩

theorem send_listCall (hf : w.fates = []) (params : ListParams) :
    w.send (listCall params) = (.ok (w.server.list params), w) := by
  rw [send_nil w hf]
  obtain ⟨server, index, cache, fates⟩ := w
  cases hf
  rfl

/-- The pages from one on, one after another, are one list. -/
theorem eval_listPages (hf : w.fates = []) (n fuel : ℕ) (out : List DocSummary)
    (hfuel : (w.server.docs.filter (Container.listed (filterArgFor pre opts.exact))).length ≤ (fuel + n) * 100) :
    eval (listPages pre opts fuel (n + 1) out) w =
      let r := visit pre opts ((Paging.ahead 100 (w.server.docs.filter (Container.listed (filterArgFor pre opts.exact))) n).map
        (shown opts.withContent)) out w
      (.ok r.1.1, r.2) := by
  induction fuel generalizing n out w with
  | zero =>
    rw [Nat.zero_add] at hfuel
    rw [Paging.ahead, List.drop_eq_nil_of_le hfuel]
    rfl
  | succ fuel ih =>
    unfold listPages
    rw [eval_bind, eval_listRequest, andThen_ok, send_listCall hf, ← Paging.page_append_ahead,
      List.map_append, visit_append]
    dsimp only
    rw [eval_bind, eval_sync, andThen_ok]
    generalize hL : w.server.docs.filter (Container.listed (filterArgFor pre opts.exact)) = L at hfuel ih
    have hpage : (w.server.list ⟨filterArgFor pre opts.exact, 100, n + 1, opts.withContent⟩).memories =
        (Paging.page 100 L (n + 1)).map (shown opts.withContent) := by
      rw [← hL]
      rfl
    have hpages : (w.server.list ⟨filterArgFor pre opts.exact, 100, n + 1, opts.withContent⟩).totalPages =
        Paging.totalPages 100 L := by
      rw [← hL]
      rfl
    rw [hpage, hpages]
    obtain ⟨hserver, hfates, -, -⟩ : (visit pre opts ((Paging.page 100 L (n + 1)).map (shown opts.withContent)) out w).2.server = _ ∧ _ :=
      visit_kept _ out w
    generalize visit pre opts ((Paging.page 100 L (n + 1)).map (shown opts.withContent)) out w = v at hserver hfates
    obtain ⟨⟨out₁, enough⟩, u⟩ := v
    dsimp only at hserver hfates ⊢
    by_cases henough : enough = true
    · rw [if_pos (.inl henough), if_pos henough]
      rfl
    · rw [if_neg henough]
      by_cases hlast : Paging.totalPages 100 L ≤ n + 1
      · rw [if_pos (.inr hlast), Paging.ahead_of_last (by decide) hlast]
        rfl
      · rw [if_neg (not_or.mpr ⟨henough, hlast⟩)]
        have hsame : u.server.docs.filter (Container.listed (filterArgFor pre opts.exact)) = L := by rw [hserver, hL]
        have hrest := ih (hfates.trans hf) (n + 1) out₁ (by rw [hsame]; omega)
        rw [hsame] at hrest
        exact hrest

theorem eval_listByPrefix (hf : w.fates = []) (pre : String) (opts : ListByPrefixOpts) :
    eval (listByPrefix pre opts) w =
    (.ok (visit pre opts (asked w.server pre opts) [] w).1.1, (visit pre opts (asked w.server pre opts) [] w).2) := by
  unfold listByPrefix
  rw [eval_bind, eval_look, andThen_ok]
  refine (eval_listPages hf 0 (w.server.docs.length + 1) [] ?_).trans ?_
  · have hle := List.length_filter_le (Container.listed (filterArgFor pre opts.exact)) w.server.docs
    omega
  · rw [Paging.ahead, Nat.zero_mul, List.drop_zero]
    rfl

/-- Without a limit, the entries are those of the documents taken. -/
theorem visit_entries (hlimit : opts.limit = none) (ms : List Memory) (out : List DocSummary) (w : World) :
    (visit pre opts ms out w).1.1 = out ++ ms.filterMap fun m => (taken pre opts.exact m).map m.summary := by
  induction ms generalizing out w with
  | nil => simp [visit]
  | cons m ms ih =>
    cases hm : taken pre opts.exact m with
    | none =>
      rw [visit_skip hm, ih, List.filterMap_cons_none (by rw [hm]; rfl)]
    | some q =>
      rw [visit_take hm, hlimit, Option.any_none, if_neg Bool.false_ne_true, ih,
        List.filterMap_cons_some (by rw [hm]; rfl), List.append_assoc]
      rfl

/-- A path that no document taken has stays as it is indexed. -/
theorem visit_others {q : String} (hlimit : opts.limit = none) {ms : List Memory}
    (h : ∀ m ∈ ms, taken pre opts.exact m ≠ some q)
    (out : List DocSummary) (w : World) : (visit pre opts ms out w).2.index.resolve q = w.index.resolve q := by
  induction ms generalizing out w with
  | nil => rfl
  | cons m ms ih =>
    have hrest := fun x hx => h x (List.mem_cons_of_mem m hx)
    cases hm : taken pre opts.exact m with
    | none =>
      rw [visit_skip hm]
      exact ih hrest out w
    | some p =>
      rw [visit_take hm, hlimit, Option.any_none, if_neg Bool.false_ne_true, ih hrest]
      show (w.index.insert p m.id).resolve q = _
      rw [PathIndex.resolve_insert, if_neg]
      rintro rfl
      exact h m List.mem_cons_self hm

/-- A document whose path no other one has is indexed. -/
theorem visit_knows {q : String} (hlimit : opts.limit = none) {ms : List Memory}
    (hnodup : (ms.filterMap (taken pre opts.exact)).Nodup) {m : Memory} (hmem : m ∈ ms)
    (hm : taken pre opts.exact m = some q)
    (out : List DocSummary) (w : World) : (visit pre opts ms out w).2.index.resolve q = some m.id := by
  induction ms generalizing out w with
  | nil => cases hmem
  | cons x ms ih =>
    cases hx : taken pre opts.exact x with
    | none =>
      rw [List.filterMap_cons_none hx] at hnodup
      rw [visit_skip hx]
      rcases List.mem_cons.mp hmem with rfl | hmem
      · rw [hm] at hx
        cases hx
      · exact ih hnodup hmem out w
    | some p =>
      rw [List.filterMap_cons_some hx] at hnodup
      obtain ⟨hp, hnodup⟩ := List.nodup_cons.mp hnodup
      rw [visit_take hx, hlimit, Option.any_none, if_neg Bool.false_ne_true]
      rcases List.mem_cons.mp hmem with rfl | hmem
      · obtain rfl := Option.some.inj (hx.symm.trans hm)
        rw [visit_others hlimit fun y hy hyp => hp (List.mem_filterMap.mpr ⟨y, hy, hyp⟩)]
        show (w.index.insert p m.id).resolve p = _
        rw [PathIndex.resolve_insert, if_pos rfl]
      · exact ih hnodup hmem _ _

/-- A listing of one document ends with the first it takes. -/
theorem visit_first {ms : List Memory} (hlimit : opts.limit = some 1)
    (h : ∃ m ∈ ms, (taken pre opts.exact m).isSome = true) :
    ∃ m q, m ∈ ms ∧ taken pre opts.exact m = some q ∧ (visit pre opts ms [] w).2 = note opts.withContent w q m := by
  induction ms with
  | nil =>
    obtain ⟨m, hm, -⟩ := h
    exact (nomatch hm)
  | cons x ms ih =>
    cases ht : taken pre opts.exact x with
    | some q =>
      refine ⟨x, q, List.mem_cons_self, ht, ?_⟩
      rw [visit_take ht, hlimit]
      rfl
    | none =>
      rw [visit_skip ht]
      obtain ⟨m, hm, hsome⟩ := h
      rcases List.mem_cons.mp hm with rfl | hm
      · rw [ht] at hsome
        cases hsome
      · obtain ⟨m', q, hmem, hrest⟩ := ih ⟨m, hm, hsome⟩
        exact ⟨m', q, List.mem_cons_of_mem x hmem, hrest⟩

/-- A listing may end with any document it takes. -/
theorem visit_upto {xs ys : List Memory} {m : Memory} (ht : taken pre opts.exact m = some p) (out : List DocSummary)
    (hlimit : opts.limit = some (out.length + (xs.filterMap (taken pre opts.exact)).length + 1)) (w : World) :
    ∃ v, v.cache.ttlMs = w.cache.ttlMs ∧ (visit pre opts (xs ++ m :: ys) out w).2 = note opts.withContent v p m := by
  have hany : ∀ k, opts.limit.any (· ≤ k) = true ↔ out.length + (xs.filterMap (taken pre opts.exact)).length + 1 ≤ k := by
    intro k
    rw [hlimit]
    simp
  induction xs generalizing out w with
  | nil =>
    refine ⟨w, rfl, ?_⟩
    rw [List.nil_append, visit_take ht, if_pos ((hany _).mpr (by simp))]
  | cons x xs ih =>
    rw [List.cons_append]
    cases hx : taken pre opts.exact x with
    | none =>
      rw [visit_skip hx]
      rw [List.filterMap_cons_none hx] at hlimit hany
      exact ih out hlimit w hany
    | some q =>
      rw [List.filterMap_cons_some hx] at hlimit hany
      have hlen : (out ++ [x.summary q]).length + (xs.filterMap (taken pre opts.exact)).length + 1 =
          out.length + (q :: xs.filterMap (taken pre opts.exact)).length + 1 := by
        simp only [List.length_append, List.length_cons, List.length_nil]
        omega
      rw [visit_take hx, if_neg ((hany _).not.mpr (by simp))]
      obtain ⟨v, hv, hend⟩ := ih (out ++ [x.summary q]) (by rw [hlen, hlimit]) (note opts.withContent w q x)
        (fun k => by rw [hlen]; exact hany k)
      exact ⟨v, hv.trans (note_kept opts.withContent w q x).2.2.2, hend⟩

end Smfs.Bash
