/-
# Calls that read

A read, a lookup, a search and a listing of the Python client leave the server
as it is, whatever becomes of their requests, and the index has nothing after
them that it did not have or the server has.

Key definitions: `Learns`.
Key theorems: `learns_list`, `Py.getDoc_learns`, `Py.statDoc_learns`, `Py.listByPrefix_learns`.
-/
import Smfs.Lib.Effect
import Smfs.Bash.Builtins
import Smfs.Bash.Batches

namespace Smfs.Bash

open Turns

/-- The server is as it was, and what the index has it had before, or the
server has it. -/
structure Learns (w t : World) : Prop where
  server : t.server = w.server
  index : ∀ q id, t.index.resolve q = some id → w.index.resolve q = some id ∨ Has w.server id q

instance : IsPreorder World Learns where
  refl _ := ⟨rfl, fun _ _ h => .inl h⟩
  trans _ _ _ h h' := by
    refine ⟨h'.server.trans h.server, fun q id hq => ?_⟩
    rcases h'.index q id hq with hq | hq
    · exact h.index q id hq
    · exact .inr (h.server ▸ hq)

variable {α : Type} {w t : World} {p q id pre : String} {D : Dialect}

/-! ### Steps -/

theorem effect_look {R : World → World → Prop} [IsPreorder World R] {β : Type} {f : World → β} {g : β → Vol α}
    (h : Effect R (g (f w)) w) : Effect R (look f >>= g) w :=
  effect_sync_bind (refl_of R w) h

theorem learns_fewer (hserver : t.server = w.server)
    (hindex : ∀ q id, t.index.resolve q = some id → w.index.resolve q = some id) : Learns w t :=
  ⟨hserver, fun q id hq => .inl (hindex q id hq)⟩

theorem learns_same (hserver : t.server = w.server) (hindex : t.index = w.index) : Learns w t :=
  learns_fewer hserver fun _ _ hq => hindex ▸ hq

theorem learns_insert (hserver : t.server = w.server) (hindex : t.index = w.index.insert q id)
    (hhas : Has w.server id q) : Learns w t := by
  refine ⟨hserver, fun q' id' hq => ?_⟩
  rw [hindex, PathIndex.resolve_insert] at hq
  split_ifs at hq with heq
  · cases hq
    exact .inr (heq ▸ hhas)
  · exact .inl hq

theorem learns_drop : Learns w (w.drop p) := by
  refine learns_fewer rfl fun q id hq => ?_
  change (w.index.remove p).resolve q = some id at hq
  rw [PathIndex.resolve_remove] at hq
  split_ifs at hq
  exact hq

/-- Marks are no entries. -/
theorem learns_marks {f : PathIndex → String → PathIndex} (hf : ∀ ix d q, (f ix d).resolve q = ix.resolve q)
    (dirs : List String) : Learns w { w with index := dirs.foldl f w.index } := by
  have hfold : ∀ (q : String) (ix : PathIndex), (dirs.foldl f ix).resolve q = ix.resolve q := by
    intro q
    induction dirs with
    | nil => exact fun _ => rfl
    | cons d dirs ih => exact fun ix => (ih (f ix d)).trans (hf ix d q)
  exact learns_fewer rfl fun q id hq => by rwa [← hfold]

theorem learns_looked : Learns w (w.looked p) := learns_same rfl rfl

theorem learns_fetched {content : Content} {status : DocStatus} (h : Has w.server id p) :
    Learns w (w.fetched p id content status) := by
  by_cases hid : id = ""
  · exact learns_same rfl (if_pos hid)
  · exact learns_insert rfl (if_neg hid) h

/-- A request that leaves the server. -/
theorem learns_send {call : List (String × String) → Container → Except ApiError α × Container}
    (hcall : ∀ stay s, (call stay s).2 = s) : Learns w (w.send call).2 := by
  apply learns_same _ (send_kept w call).1
  rcases send_server w call with h | ⟨stay, h⟩
  · exact h
  · rw [h, hcall]

/-- What comes after a listing may take its answer from the server as it stands. -/
theorem learns_list {params : ListParams} {g : Except ApiError ListResponse → Vol α}
    (herr : ∀ e t, Effect Learns (g (.error e)) t) (hok : ∀ t, Effect Learns (g (.ok (t.server.list params))) t) :
    Effect Learns (listRequest params >>= g) w := by
  have hsend : Effect Learns (listRequest params) w := learns_send fun _ _ => rfl
  apply hsend.bind
  intro answer t he
  rw [eval_listRequest] at he
  cases he
  cases hr : (w.send (listCall params)).1 with
  | error e => exact herr e _
  | ok resp =>
    rw [listCall_answer w params resp hr, ← listCall_server w params]
    exact hok _

/-! ### One path -/

theorem lookupDocId_learns (D : Dialect) (p : String) (w : World) : Effect Learns (D.lookupDocId p) w := by
  unfold Dialect.lookupDocId
  apply effect_look
  cases truthy (w.index.resolve p) with
  | some id => exact effect_pure _
  | none =>
    refine learns_list (fun e t => effect_throw _) ?_
    intro t
    dsimp only
    cases hm : (t.server.list (exactly p false)).memories.head? with
    | none => exact effect_pure _
    | some m =>
      dsimp only
      split_ifs with hp
      · refine effect_sync_bind ?_ (effect_pure _)
        exact learns_insert rfl rfl (has_of_list (List.mem_of_head? hm) hp)
      · exact effect_pure _

/-- What a lookup finds is indexed. -/
theorem lookupDocId_indexed (h : eval (D.lookupDocId p) w = (.ok (some id), t)) : t.index.resolve p = some id := by
  unfold Dialect.lookupDocId at h
  rw [eval_bind, eval_look, andThen_ok] at h
  cases hr : truthy (w.index.resolve p) with
  | some id' =>
    rw [hr] at h
    cases h
    exact (Option.filter_eq_some_iff.mp hr).1
  | none =>
    rw [hr] at h
    dsimp only at h
    rw [eval_bind, eval_listRequest, andThen_ok] at h
    generalize w.send (listCall (exactly p false)) = r at h
    obtain ⟨_ | resp, u⟩ := r
    · cases h
    · dsimp only at h
      cases hm : resp.memories.head? with
      | none =>
        rw [hm] at h
        cases h
      | some m =>
        rw [hm] at h
        dsimp only at h
        split_ifs at h with hp
        · cases h
          change (u.index.insert p m.id).resolve p = some m.id
          rw [PathIndex.resolve_insert, if_pos rfl]
        · cases h

theorem cachedDoc_learns : Effect Learns (cachedDoc p) w := by
  unfold Effect
  rw [eval_cachedDoc]
  exact learns_looked

/-- The document of a path, in the listing that asks for it. -/
theorem has_of_exactly {m : Memory} (h : (w.server.list (exactly p true)).memories.head? = some m)
    (hp : ¬ (m.filepath.any (· ≠ p)) = true) : Has w.server m.id p := by
  have hfound : found p (w.server.list (exactly p true)) = some m := by
    unfold found
    rw [h]
    exact if_neg hp
  obtain ⟨hmem, hpath⟩ := found_some hfound
  exact ⟨m, hmem, rfl, hpath⟩

/-- The answer for one path is kept, or the path is dropped. -/
theorem kept_learns {content : Memory → Content} {a : Memory → α} {b : α} (u : World) :
    Effect Learns (match (u.server.list (exactly p true)).memories.head? with
      | none => (do
        dropPath p
        return b)
      | some m =>
        if m.filepath.any (· ≠ p) then (do
          dropPath p
          return b)
        else (do
          sync fun w => ((), w.fetched p m.id (content m) m.docStatus)
          return a m) : Vol α) u := by
  cases hm : (u.server.list (exactly p true)).memories.head? with
  | none => exact effect_sync_bind (f := fun w : World => ((), w.drop p)) learns_drop (effect_pure _)
  | some m =>
    dsimp only
    split_ifs with hp
    · exact effect_sync_bind (f := fun w : World => ((), w.drop p)) learns_drop (effect_pure _)
    · refine effect_sync_bind ?_ (effect_pure _)
      exact learns_fetched (has_of_exactly hm hp)

theorem getDoc_learns (D : Dialect) (p : String) (w : World) : Effect Learns (D.getDoc p) w := by
  unfold Dialect.getDoc
  apply Effect.seq cachedDoc_learns
  intro hit t
  cases hit with
  | some c => exact effect_pure _
  | none =>
    refine learns_list (fun e t => effect_throw _) ?_
    intro u
    exact kept_learns u

theorem statDoc_learns (D : Dialect) (p : String) (w : World) : Effect Learns (D.statDoc p) w := by
  unfold Dialect.statDoc
  apply effect_look
  split_ifs
  · exact effect_pure _
  · apply Effect.seq cachedDoc_learns
    intro hit t
    cases hit with
    | some c => exact effect_pure _
    | none =>
      refine learns_list (fun e t => effect_throw _) ?_
      intro u
      exact kept_learns u

theorem fetchProfile_learns (w : World) : Effect Learns fetchProfile w :=
  learns_same fetchProfile_same.1 fetchProfile_same.2

/-! ### Listings -/

theorem visit_learns (opts : ListByPrefixOpts) {ms : List Memory}
    (hms : ∀ m ∈ ms, ∀ p, m.filepath = some p → Has w.server m.id p) (out : List DocSummary) :
    Learns w (visit pre opts ms out w).2 := by
  induction ms generalizing out w with
  | nil => exact refl_of Learns w
  | cons m ms ih =>
    have hrest : ∀ x ∈ ms, ∀ p, x.filepath = some p → Has w.server x.id p :=
      fun x hx => hms x (List.mem_cons_of_mem m hx)
    cases ht : taken pre opts.exact m with
    | none =>
      rw [visit_skip ht]
      exact ih hrest out
    | some p =>
      rw [visit_take ht]
      have hnote : Learns w (note opts.withContent w p m) :=
        learns_insert rfl rfl (hms m List.mem_cons_self p (Option.filter_eq_some_iff.mp ht).1)
      split_ifs
      · exact hnote
      · exact trans_of Learns hnote (ih (w := note opts.withContent w p m) hrest _)

theorem listPages_learns (opts : ListByPrefixOpts) (fuel page : ℕ) (out : List DocSummary) :
    Effect Learns (listPages pre opts fuel page out) w := by
  induction fuel generalizing page out w with
  | zero => exact effect_pure _
  | succ fuel ih =>
    unfold listPages
    refine learns_list (fun e t => effect_throw _) ?_
    intro t
    refine effect_sync_bind (visit_learns opts (fun m hm p hp => has_of_list hm hp) out) ?_
    generalize visit pre opts _ out t = v
    obtain ⟨⟨out', enough⟩, u⟩ := v
    dsimp only
    split_ifs
    · exact effect_pure _
    · exact ih (page + 1) _

theorem listByPrefix_learns (pre : String) (opts : ListByPrefixOpts) (w : World) :
    Effect Learns (listByPrefix pre opts) w :=
  effect_look (listPages_learns opts _ 1 [])

namespace Py

theorem getDoc_learns (p : String) (w : World) : Effect Learns (getDoc p) w := by
  unfold getDoc
  split_ifs
  · exact (fetchProfile_learns w).seq fun _ _ => effect_pure _
  · exact Bash.getDoc_learns python p w

theorem statDoc_learns (time : ℤ) (p : String) (w : World) : Effect Learns (statDoc time p) w := by
  unfold statDoc
  split_ifs
  · exact (fetchProfile_learns w).seq fun _ _ => effect_pure _
  · exact Bash.statDoc_learns python p w

theorem listByPrefix_learns (time : ℤ) (pre : String) (opts : ListByPrefixOpts) (w : World) :
    Effect Learns (listByPrefix time pre opts) w :=
  (Bash.listByPrefix_learns pre _ w).seq fun _ _ => effect_pure _

theorem isDirEmpty_learns (time : ℤ) (p : String) (w : World) : Effect Learns (isDirEmpty time p) w := by
  unfold isDirEmpty
  dsimp only
  apply (listByPrefix_learns time _ _ w).seq
  intro probe t
  by_cases hprobe : (!probe.isEmpty) = true
  · rw [if_pos hprobe]
    exact effect_pure _
  · rw [if_neg hprobe]
    exact refl_of Learns t

theorem search_learns (ask : Ask) (params : SearchParams) (w : World) : Effect Learns (search ask params) w := by
  unfold search
  have hsend : Effect Learns (request (searchCall ask params)) w := learns_send fun _ _ => rfl
  apply hsend.seq
  intro answer t
  cases answer with
  | error e => exact effect_throw _
  | ok records => exact refl_of Learns t

/-- The entries of a listing stand under its prefix. -/
theorem listed_under {time : ℤ} {opts : ListByPrefixOpts} (hexact : opts.exact = false) {out : List DocSummary}
    (h : eval (listByPrefix time pre opts) w = (.ok out, t)) : ∀ e ∈ out, startsWith e.filepath pre = true := by
  rw [eval_listByPrefix] at h
  have hlisted := (listByPrefix_listed (w := w) pre { opts with limit := opts.limit.filter (· ≠ 0) } hexact).entries
  cases hr : eval (Bash.listByPrefix pre { opts with limit := opts.limit.filter (· ≠ 0) }) w with
  | mk answer u =>
    rw [hr] at h hlisted
    cases answer with
    | error e => cases h
    | ok found =>
      cases h
      have hfound : ∀ e ∈ found.map resized, startsWith e.filepath pre = true := by
        simpa [resized] using fun e he => (hlisted found rfl e he).2
      intro e he
      unfold withProfile at he
      split_ifs at he with hroot
      · rcases List.mem_append.mp he with he | he
        · exact hfound e he
        · rw [List.mem_singleton.mp he]
          simp only [Bool.and_eq_true, Bool.or_eq_true, decide_eq_true_eq] at hroot
          rcases hroot.1.1 with rfl | rfl
          · rfl
          · exact (show startsWith profilePath "/" = true by decide)
      · exact hfound e he

end Py
end Smfs.Bash
