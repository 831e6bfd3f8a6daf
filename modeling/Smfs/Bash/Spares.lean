/-
# What a call leaves alone

A client that knows the documents at a path under that path alone (`Owned`)
leaves them as they are as long as no call names the path, or a directory
above it that is removed, moved or copied to. It may rename a document and lose
the answer, and have an entry for it that is out of date; the entry is of
another path, and leads to a document at another path.

Key definitions: `docsAt`, `Owned`, `Spares`.
Key theorems: `Learns.spares`, `addDoc_spares`, `moveDoc_spares`, `Py.removeDoc_spares`, `Py.removeByPrefix_spares`,
`Py.moveTree_spares`, `Py.copyTree_spares`.
-/
import Smfs.Bash.Learns
import Smfs.Bash.Trees

namespace Smfs.Bash

open Turns Shape

/-- The documents at a path. -/
def docsAt (s : Container) (p : String) : List Memory := s.docs.filter fun d => d.filepath = some p

/-- No document with the id is at the path. -/
def NotAt (p : String) (s : Container) (id : String) : Prop := ∀ d ∈ s.docs, d.id = id → d.filepath ≠ some p

/-- Ids are distinct, and the entry of another path leads to no document at
this one. -/
structure Owned (p : String) (w : World) : Prop where
  ids : (w.server.docs.map Memory.id).Nodup
  entries : ∀ q ≠ p, ∀ id, w.index.resolve q = some id → NotAt p w.server id

/-- The documents at the path are as they were, if they were known under it alone; and so they are still. -/
def Spares (p : String) (w t : World) : Prop := Owned p w → Owned p t ∧ docsAt t.server p = docsAt w.server p

variable {α : Type} {w t : World} {s s' : Container} {p q id src dest pre : String} {D : Dialect}

instance : IsPreorder World (Spares p) where
  refl _ h := ⟨h, rfl⟩
  trans _ _ _ h h' ho := by
    obtain ⟨ht, hdocs⟩ := h ho
    obtain ⟨hu, hdocs'⟩ := h' ht
    exact ⟨hu, hdocs'.trans hdocs⟩

/-- What is shown for a client that knows the documents as it should is shown. -/
theorem effect_owned {x : Vol α} (h : Owned p w → Effect (Spares p) x w) : Effect (Spares p) x w :=
  fun ho => h ho ho

/-! ### The documents at a path -/

theorem mem_docsAt {d : Memory} : d ∈ docsAt s p ↔ d ∈ s.docs ∧ d.filepath = some p := by simp [docsAt]

theorem NotAt.congr (h : NotAt p s id) (hdocs : docsAt s' p = docsAt s p) : NotAt p s' id := by
  intro d hd hid hp
  have hmem : d ∈ docsAt s p := hdocs ▸ mem_docsAt.mpr ⟨hd, hp⟩
  exact h d (mem_docsAt.mp hmem).1 hid hp

theorem Has.notAt (h : Has s id q) (hids : (s.docs.map Memory.id).Nodup) (hne : q ≠ p) : NotAt p s id := by
  obtain ⟨d, hd, rfl, hq⟩ := h
  intro e he hid hp
  obtain rfl : e = d := List.inj_on_of_nodup_map hids he hd hid
  rw [hq] at hp
  exact hne (Option.some.inj hp)

theorem docsAt_add {content : String} (hne : q ≠ p) : docsAt (s.add q content).2 p = docsAt s p := by
  unfold docsAt Container.add
  dsimp only
  rw [List.filter_append]
  simp [hne]

theorem docsAt_update {content : Option String} (h : NotAt p s id) (hne : q ≠ p) :
    docsAt (s.update id content q).2 p = docsAt s p := by
  unfold Container.update
  cases hg : s.get id with
  | none => rfl
  | some d₀ =>
    apply Table.filter_modify
    intro d hd hid
    have hp := h d hd hid
    cases content with
    | none => simp [hp, hne]
    | some c => simp [hp]

theorem delete_sublist (s : Container) (id : String) : (s.delete id).2.docs.Sublist s.docs := by
  unfold Container.delete
  cases s.get id with
  | none => exact List.Sublist.refl _
  | some d => exact Table.erase_sublist s.docs id

theorem docsAt_delete (h : NotAt p s id) : docsAt (s.delete id).2 p = docsAt s p := by
  unfold Container.delete
  cases hg : s.get id with
  | none => rfl
  | some d₀ =>
    apply Table.filter_erase
    intro d hd hid
    simp [h d hd hid]

theorem docsAt_deleteBulk {which : Memory → Bool} {stay : List (String × String)}
    (h : ∀ d ∈ s.docs, d.filepath = some p → which d = false) : docsAt (s.deleteBulk which stay).2 p = docsAt s p := by
  unfold docsAt Container.deleteBulk
  dsimp only
  rw [List.filter_filter]
  apply List.filter_congr
  intro d hd
  by_cases hp : d.filepath = some p
  · simp [hp, h d hd hp]
  · simp [hp]

/-! ### Steps -/

theorem Learns.spares (h : Learns w t) : Spares p w t := by
  intro ho
  refine ⟨⟨h.server ▸ ho.ids, fun q hq id hr => ?_⟩, by rw [h.server]⟩
  rw [h.server]
  rcases h.index q id hr with hr | hhas
  · exact ho.entries q hq id hr
  · exact hhas.notAt ho.ids hq

theorem learns_spares {x : Vol α} (h : Effect Learns x w) : Effect (Spares p) x w := h.mono fun _ _ => Learns.spares

theorem spares_insert (hserver : t.server = w.server) (hid : NotAt p w.server id)
    (hindex : ∀ q id', t.index.resolve q = some id' → w.index.resolve q = some id' ∨ id' = id) : Spares p w t := by
  intro ho
  refine ⟨⟨hserver ▸ ho.ids, fun q hq id' hr => ?_⟩, by rw [hserver]⟩
  rw [hserver]
  rcases hindex q id' hr with hr | rfl
  · exact ho.entries q hq id' hr
  · exact hid

/-- A call leaves the documents at the path to the server. -/
def Leaves (p : String) (s s' : Container) : Prop := (s'.docs.map Memory.id).Nodup ∧ docsAt s' p = docsAt s p

theorem spares_send {call : List (String × String) → Container → Except ApiError α × Container}
    (h : Owned p w → ∀ stay, Leaves p w.server (call stay w.server).2) : Spares p w (w.send call).2 := by
  intro ho
  obtain ⟨hindex, -, -⟩ := send_kept w call
  have hserver : Leaves p w.server (w.send call).2.server := by
    rcases send_server w call with hs | ⟨stay, hs⟩
    · rw [hs]
      exact ⟨ho.ids, rfl⟩
    · rw [hs]
      exact h ho stay
  refine ⟨⟨hserver.1, fun q hq id hr => ?_⟩, hserver.2⟩
  rw [hindex] at hr
  exact (ho.entries q hq id hr).congr hserver.2

/-- What comes after a request knows what the call answered. -/
theorem spares_request {β : Type} {call : List (String × String) → Container → Except ApiError β × Container}
    {g : Except ApiError β → Vol α} (h : Owned p w → ∀ stay, Leaves p w.server (call stay w.server).2)
    (herr : ∀ e t, Effect (Spares p) (g (.error e)) t)
    (hok : ∀ stay a t, call stay w.server = (.ok a, t.server) → Effect (Spares p) (g (.ok a)) t) :
    Effect (Spares p) (request call >>= g) w := by
  have hsend : Effect (Spares p) (request call) w := spares_send h
  apply hsend.bind
  intro answer t he
  rw [eval_request] at he
  cases he
  cases hr : (w.send call).1 with
  | error e => exact herr e _
  | ok a =>
    obtain ⟨stay, hcall⟩ := send_answer w call a hr
    exact hok stay a _ hcall

theorem spares_drop : Spares p w (w.drop q) := learns_drop.spares

/-! ### Documents -/

theorem leaves_write (ho : Owned p w) (hne : q ≠ p) (data : String) (stay : List (String × String)) :
    Leaves p w.server (writeCall (truthy (w.index.resolve q)) q data stay w.server).2 ∧
      ∀ m, (writeCall (truthy (w.index.resolve q)) q data stay w.server).1 = .ok m →
        NotAt p (writeCall (truthy (w.index.resolve q)) q data stay w.server).2 m.id := by
  cases hr : truthy (w.index.resolve q) with
  | none =>
    refine ⟨⟨Container.nodup_add ho.ids, docsAt_add hne⟩, fun m hm => ?_⟩
    cases hm
    intro d hd hid
    rcases List.mem_append.mp hd with hd | hd
    · exact absurd (List.mem_append_left _ (List.mem_map.mpr ⟨d, hd, hid⟩)) (Container.newId_fresh w.server)
    · rw [List.mem_singleton.mp hd]
      exact fun hp => hne (Option.some.inj hp)
  | some id =>
    have hid := ho.entries q hne id (Option.filter_eq_some_iff.mp hr).1
    have hdocs : docsAt (w.server.update id (some data) q).2 p = docsAt w.server p := docsAt_update hid hne
    refine ⟨⟨(update_ids (some data) (q := q)).symm ▸ ho.ids, hdocs⟩, fun m hm => ?_⟩
    rcases Container.update_cases w.server id (some data) q with ⟨herr, -, -⟩ | ⟨m', hm', hmid, -⟩
    · rw [writeCall, herr] at hm
      cases hm
    · rw [writeCall, hm'] at hm
      cases hm
      exact hmid ▸ hid.congr hdocs

theorem addDoc_spares (D : Dialect) (hne : q ≠ p) (content : Content) (w : World) :
    Effect (Spares p) (D.addDoc q content) w := by
  unfold Dialect.addDoc
  cases content with
  | bytes b => exact effect_throw _
  | text data =>
    apply effect_look
    cases D.assertWritable w.index q .addDoc with
    | some e => exact effect_throw _
    | none =>
      apply effect_look
      apply effect_owned
      intro ho
      refine spares_request (fun ho stay => (leaves_write ho hne data stay).1) (fun e t => effect_throw _) ?_
      intro stay m t hcall
      have hm := (leaves_write ho hne data stay).2 m
      rw [hcall] at hm
      refine effect_sync_bind ?_ (effect_pure _)
      refine spares_insert rfl (hm rfl) fun q' id' hr => ?_
      change (t.index.insert q m.id).resolve q' = some id' at hr
      rw [PathIndex.resolve_insert] at hr
      split_ifs at hr
      · exact .inr (Option.some.inj hr).symm
      · exact .inl hr

/-- What a lookup of another path finds is not at this one. -/
theorem found_notAt (ho : Owned p w) (hne : q ≠ p) (h : eval (D.lookupDocId q) w = (.ok (some id), t)) :
    Owned p t ∧ NotAt p t.server id := by
  have howned := (((lookupDocId_learns D q w).of_eval h).spares ho).1
  exact ⟨howned, howned.entries q hne id (lookupDocId_indexed h)⟩

theorem Py.removeDoc_spares (hne : q ≠ p) (w : World) : Effect (Spares p) (Py.removeDoc q) w := by
  unfold Py.removeDoc
  apply effect_owned
  intro ho
  refine (learns_spares (lookupDocId_learns python q w)).bind fun found t he => ?_
  cases hf : truthy found with
  | none => exact effect_pure _
  | some id =>
    obtain ⟨rfl, -⟩ := Option.filter_eq_some_iff.mp hf
    obtain ⟨ht, hid⟩ := found_notAt ho hne he
    refine spares_request (fun _ stay => ⟨?_, docsAt_delete hid⟩) (fun e u => ?_) fun _ _ _ _ => spares_drop
    · exact ht.ids.sublist ((delete_sublist _ id).map _)
    · dsimp only
      split_ifs
      · exact effect_throw _
      · exact spares_drop
      · exact effect_throw _

theorem renameDoc_spares (D : Dialect) (hid : NotAt p w.server id) (hdest : dest ≠ p) :
    Effect (Spares p) (D.renameDoc id src dest) w := by
  have hdocs : docsAt (w.server.update id none dest).2 p = docsAt w.server p := docsAt_update hid hdest
  unfold Dialect.renameDoc
  refine spares_request (fun ho _ => ⟨(update_ids none).symm ▸ ho.ids, hdocs⟩) (fun e t => ?_) fun _ m t hcall => ?_
  · dsimp only
    split_ifs
    · exact effect_sync_bind spares_drop (effect_throw _)
    · exact effect_throw _
    · exact effect_throw _
  · have hserver : (w.server.update id none dest).2 = t.server := congrArg Prod.snd hcall
    rw [hserver] at hdocs
    show Spares p t (t.relocate src dest id)
    refine spares_insert rfl (hid.congr hdocs) fun q id' hr => ?_
    change ((t.index.remove src).insert dest id).resolve q = some id' at hr
    rw [PathIndex.resolve_insert, PathIndex.resolve_remove] at hr
    split_ifs at hr
    · exact .inr (Option.some.inj hr).symm
    · exact .inl hr

theorem moveDoc_spares (D : Dialect) (hsrc : src ≠ p) (hdest : dest ≠ p) (w : World) :
    Effect (Spares p) (D.moveDoc src dest) w := by
  unfold Dialect.moveDoc
  apply effect_look
  cases D.assertWritable w.index dest .moveDoc with
  | some e => exact effect_throw _
  | none =>
    apply effect_owned
    intro ho
    refine (learns_spares (lookupDocId_learns D src w)).bind fun found t he => ?_
    cases hf : truthy found with
    | none => exact effect_throw _
    | some id =>
      obtain ⟨rfl, -⟩ := Option.filter_eq_some_iff.mp hf
      obtain ⟨-, hid⟩ := found_notAt ho hsrc he
      have hlearns := lookupDocId_learns D dest t
      refine (learns_spares hlearns).bind fun taken u hu => ?_
      cases truthy taken with
      | some _ => exact effect_throw _
      | none => exact renameDoc_spares D ((hlearns.of_eval hu).server ▸ hid) hdest

/-! ### Trees -/

theorem resolve_forgotten {failedIds : List String} (h : (Py.forgotten pre failedIds w).index.resolve q = some id) :
    w.index.resolve q = some id := by
  change (Removal.py.evict pre ((Removal.py.paths w.index).foldl (Removal.Py.forget pre failedIds)
    (Removal.holdings w))).index.resolve q = some id at h
  rw [Removal.resolve_evict] at h
  suffices hfold : ∀ (ps : List String) (held : Removal.Holdings),
      (ps.foldl (Removal.Py.forget pre failedIds) held).index.resolve q = some id → held.index.resolve q = some id from
    hfold _ _ h
  intro ps
  induction ps with
  | nil => exact fun _ h => h
  | cons x ps ih =>
    intro held h
    have hrest := ih _ h
    unfold Removal.Py.forget at hrest
    split_ifs at hrest
    · exact hrest
    · change (held.index.remove x).resolve q = some id at hrest
      rw [PathIndex.resolve_remove] at hrest
      split_ifs at hrest
      exact hrest
    · exact hrest

theorem Py.removeByPrefix_spares (h : startsWith p (withSlash pre) = false) (w : World) :
    Effect (Spares p) (Py.removeByPrefix pre) w := by
  have hwhich : ∀ d : Memory, d.filepath = some p → Container.listed (some (withSlash pre)) d = false := by
    intro d hd
    unfold Container.listed
    rw [hd]
    simp [endsWithSlash_withSlash, h]
  unfold Py.removeByPrefix
  refine spares_request (fun ho stay => ⟨?_, docsAt_deleteBulk fun d _ hd => hwhich d hd⟩) (fun e t => effect_pure _) ?_
  · exact ho.ids.sublist (List.filter_sublist.map _)
  · intro stay resp t hcall
    dsimp only
    split_ifs
    · refine effect_sync_bind (Learns.spares ?_) (effect_pure _)
      exact learns_fewer rfl fun _ _ => resolve_forgotten
    · exact effect_pure _

/-- Jobs that run one after another, and what each throws. -/
theorem oneByOne_spares {jobs : List (Vol α)} (h : ∀ job ∈ jobs, ∀ w, Effect (Spares p) job w) (w : World) :
    Effect (Spares p) (Py.oneByOne jobs) w := by
  unfold Effect
  rw [Trees.eval_oneByOne]
  induction jobs generalizing w with
  | nil => exact refl_of (Spares p) w
  | cons job jobs ih =>
    rw [List.map_cons, runAll]
    have hjob : Spares p w ((caught job).run w).2 := by
      rw [Trees.run_caught]
      exact h job List.mem_cons_self w
    exact trans_of (Spares p) hjob (ih (fun j hj => h j (List.mem_cons_of_mem job hj)) _)

/-- What lies in a directory is not at a path outside of it. -/
theorem ne_of_under {e : DocSummary} (h : startsWith e.filepath (withSlash src) = true) (hp : ¬ Below p src) :
    e.filepath ≠ p := by
  rintro rfl
  exact hp h

theorem ne_of_image {tail : String} (hp : ¬ Below p dest) : withSlash dest ++ tail ≠ p := by
  rintro rfl
  exact hp (startsWith_iff.mpr ⟨tail.toList, String.toList_append⟩)

theorem Py.moveTree_spares (time : ℤ) (hsrc : ¬ Below p src) (hdest : ¬ Below p dest) (w : World) :
    Effect (Spares p) (Py.moveTree time src dest) w := by
  unfold Py.moveTree
  dsimp only
  refine (learns_spares (Py.listByPrefix_learns time _ _ w)).bind fun entries t he => ?_
  have hunder := Py.listed_under rfl he
  refine (oneByOne_spares (fun job hjob => ?_) t).seq fun errors u => ?_
  · obtain ⟨e, hmem, rfl⟩ := List.mem_map.mp hjob
    exact moveDoc_spares python (ne_of_under (hunder e hmem) hsrc) (ne_of_image hdest)
  · refine effect_sync_bind (learns_marks (fun ix d q => ?_) _).spares ?_
    · split_ifs
      · rfl
      · simp
      · rfl
    · refine effect_sync_bind (Learns.spares ?_) (effect_pure _)
      exact learns_marks (fun ix d q => PathIndex.resolve_mark) [dest]

theorem Py.copyTree_spares (time : ℤ) (hdest : ¬ Below p dest) (w : World) :
    Effect (Spares p) (Py.copyTree time src dest) w := by
  unfold Py.copyTree
  dsimp only
  refine (learns_spares (Py.listByPrefix_learns time _ _ w)).seq fun entries t => ?_
  refine (oneByOne_spares (fun job hjob => ?_) t).seq fun errors u => ?_
  · obtain ⟨e, hmem, rfl⟩ := List.mem_map.mp hjob
    exact addDoc_spares python (ne_of_image hdest) _
  · refine effect_sync_bind (learns_marks (fun ix d q => ?_) _).spares ?_
    · split_ifs
      · simp
      · rfl
    · refine effect_sync_bind (Learns.spares ?_) (effect_pure _)
      exact learns_marks (fun ix d q => PathIndex.resolve_mark) [dest]

end Smfs.Bash
