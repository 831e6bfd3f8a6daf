/-
# Documents that are moved to targets of their own

The jobs of a move, each with its document, its source and its target for
itself: all succeed, whatever turns they take, and what they leave is the
documents as they were, but for the paths of those that were moved.

Key definitions: `Sourced`, `Moving`, `moves`.
Key theorems: `moveDoc_succeeds`, `moves_all`.
-/
import Smfs.Bash.Copying

namespace Smfs.Bash

open Turns Relation Shape

/-- Each entry is of a document of the server, and indexed. -/
structure Sourced (v : World) (es : List DocSummary) : Prop where
  ids : (v.server.docs.map Memory.id).Nodup
  named : ∀ e ∈ es, e.id ≠ ""
  has : ∀ e ∈ es, Has v.server e.id e.filepath
  knows : ∀ e ∈ es, v.index.resolve e.filepath = some e.id

/-- What was moved so far. -/
structure Moving (v : World) (src dest : String) (es : List DocSummary) (t : World) : Prop where
  calm : t.fates = []
  files : ∀ q, t.index.isFile q = true → Held v q ∨ ∃ e ∈ es, q = image src dest e.filepath
  docs : List.Forall₂ (fun d x => x = d ∨ ∃ e ∈ es, e.id = d.id ∧ x =
    { d with filepath := some (image src dest e.filepath) })
    v.server.docs t.server.docs

/-- The part of one move: its document, its source and its target. -/
def Moving.part (src dest : String) (e : DocSummary) (t : World) : Option Memory × Option String × Option String :=
  (t.server.get e.id, t.index.resolve e.filepath, t.index.resolve (image src dest e.filepath))

/-- The moves, each of which ends with its document at its target. -/
abbrev moves (v : World) (src dest : String) (es : List DocSummary) : Spec DocSummary World (Option Thrown) :=
  Spec.parts (Moving v src dest es) (Moving.part src dest) es fun e r t =>
    r = none ∧ Moving v src dest es t ∧ (t.server.get e.id).bind Memory.filepath = some (image src dest e.filepath)

variable {D : Dialect} {v w t : World} {src dest : String} {es : List DocSummary} {e e' : DocSummary}

namespace Sourced

theorem id_inj (h : Sourced v es) (haim : Aimed D v src dest es) (he : e ∈ es) (he' : e' ∈ es)
    (hid : e.id = e'.id) : e = e' := by
  obtain ⟨d, hd, hdid, hp⟩ := h.has e he
  obtain ⟨d', hd', hdid', hp'⟩ := h.has e' he'
  obtain rfl : d = d' := List.inj_on_of_nodup_map h.ids hd hd' (by rw [hdid, hdid', hid])
  refine List.inj_on_of_nodup_map haim.paths he he' (Option.some.inj ?_)
  rw [← hp, ← hp']

theorem ne_image (h : Sourced v es) (haim : Aimed D v src dest es) (he : e ∈ es) (p : String) :
    e.filepath ≠ image src dest p := by
  intro himage
  exact haim.not_held p (.inr (himage ▸ stands_iff.mpr ⟨_, h.has e he⟩))

end Sourced

namespace Moving

theorem ids (h : Moving v src dest es t) : t.server.docs.map Memory.id = v.server.docs.map Memory.id := by
  have hids : List.Forall₂ (fun x y => x = y) (t.server.docs.map Memory.id) (v.server.docs.map Memory.id) := by
    rw [List.forall₂_map_left_iff, List.forall₂_map_right_iff]
    refine h.docs.flip.imp fun x d hx => ?_
    rcases hx with rfl | ⟨_, _, _, rfl⟩
    · rfl
    · rfl
  rwa [List.forall₂_eq_eq_eq] at hids

theorem stays (h : Moving v src dest es w) : (moves v src dest es).keep e w w := Spec.parts_look h

/-- A document that has not been moved leaves its target free. -/
theorem free (h : Moving v src dest es t) (hsrc : Sourced v es) (haim : Aimed D v src dest es)
    (he : e ∈ es) {d : Memory}
    (hget : t.server.get e.id = some d) (hd : d.filepath = some e.filepath) :
    ¬ Stands t.server (image src dest e.filepath) := by
  rintro ⟨x, hx, hp⟩
  obtain ⟨d', hd', rfl | ⟨e', he', hid, rfl⟩⟩ := forall₂_mem h.docs hx
  · exact haim.not_held e.filepath (.inr ⟨x, hd', hp⟩)
  · obtain rfl := haim.inj he he' (Option.some.inj hp).symm
    have hself : t.server.get e.id = some { d' with filepath := some (image src dest e.filepath) } := by
      rw [hid]
      exact Table.get_of_mem (h.ids ▸ hsrc.ids) hx
    rw [hget] at hself
    rw [Option.some.inj hself] at hd
    exact hsrc.ne_image haim he e.filepath (Option.some.inj hd).symm

/-- The document is renamed. -/
theorem renamed (h : Moving v src dest es w) (hsrc : Sourced v es) (haim : Aimed D v src dest es) (he : e ∈ es)
    {s : Container} (hs : s.docs = Table.modify Memory.id w.server.docs e.id fun d =>
      { d with filepath := some (image src dest e.filepath) }) :
    (moves v src dest es).keep e w { w with server := s, fates := [] } := by
  refine ⟨⟨rfl, h.files, ?_⟩, fun e' he' hne => Prod.ext ?_ rfl⟩
  · show List.Forall₂ _ v.server.docs s.docs
    rw [hs, Table.modify, List.forall₂_map_right_iff]
    refine h.docs.imp fun d x hx => ?_
    by_cases hid : x.id = e.id
    · rw [if_pos hid]
      rcases hx with rfl | ⟨_, _, _, rfl⟩
      · exact .inr ⟨e, he, hid.symm, rfl⟩
      · exact .inr ⟨e, he, hid.symm, rfl⟩
    · rw [if_neg hid]
      exact hx
  · show Table.get Memory.id s.docs e'.id = Table.get Memory.id w.server.docs e'.id
    rw [hs, Table.get_modify, if_neg fun hid => hne (hsrc.id_inj haim he' he hid)]
    exact fun _ hid => hid

/-- The index follows. -/
theorem relocated (h : Moving v src dest es w) (hsrc : Sourced v es) (haim : Aimed D v src dest es) (he : e ∈ es) :
    (moves v src dest es).keep e w (w.relocate e.filepath (image src dest e.filepath) e.id) := by
  have hindex : ∀ q, (w.relocate e.filepath (image src dest e.filepath) e.id).index.resolve q =
      if q = image src dest e.filepath then some e.id else if q = e.filepath then none else w.index.resolve q := by
    intro q
    show ((w.index.remove e.filepath).insert (image src dest e.filepath) e.id).resolve q = _
    rw [PathIndex.resolve_insert, PathIndex.resolve_remove]
  refine ⟨⟨h.calm, fun q hq => ?_, h.docs⟩, fun e' he' hne => Prod.ext rfl (Prod.ext ?_ ?_)⟩
  · by_cases htarget : q = image src dest e.filepath
    · exact .inr ⟨e, he, htarget⟩
    · rw [PathIndex.isFile, hindex, if_neg htarget] at hq
      split_ifs at hq
      · cases hq
      · exact h.files q hq
  · show (w.relocate _ _ _).index.resolve _ = _
    rw [hindex, if_neg (hsrc.ne_image haim he' e.filepath),
      if_neg fun hp => hne (List.inj_on_of_nodup_map haim.paths he' he hp)]
    rfl
  · show (w.relocate _ _ _).index.resolve _ = _
    rw [hindex, if_neg fun himage => hne (haim.inj he' he himage), if_neg (hsrc.ne_image haim he e'.filepath).symm]
    rfl

end Moving

/-! ### One move among others -/

/-- No listing has what does not stand. -/
theorem memories_nil {s : Container} {p : String} (hslash : endsWithSlash p = false) (h : ¬ Stands s p) :
    (s.list (exactly p false)).memories = [] := by
  have hnone : s.docs.filter (Container.listed (some p)) = [] :=
    List.filter_eq_nil_iff.mpr fun d hd hl => h ⟨d, hd, (listed_exactly hslash).mp hl⟩
  unfold Container.list exactly
  rw [hnone]
  rfl

/-- The source is found in the index. -/
theorem lookup_source_succeeds (hsrc : Sourced v es) (he : e ∈ es) (h : Moving v src dest es w)
    (hknows : w.index.resolve e.filepath = some e.id) :
    Succeeds ((moves v src dest es).rely e) ((moves v src dest es).keep e)
      (fun found t => found = some e.id ∧ Moving v src dest es t ∧ Moving.part src dest e t = Moving.part src dest e w)
      (D.lookupDocId e.filepath) w := by
  unfold Dialect.lookupDocId
  refine Succeeds.sync_bind fun t ht => ?_
  obtain ⟨hIt, hpt⟩ := Spec.parts_rely ht h
  refine ⟨hIt.stays, ?_⟩
  have hfound : truthy (t.index.resolve e.filepath) = some e.id := by
    have hr : t.index.resolve e.filepath = some e.id := (congrArg (fun p => p.2.1) hpt).trans hknows
    rw [hr]
    exact truthy_some.mpr (hsrc.named e he)
  dsimp only
  rw [hfound]
  refine succeeds_pure fun u hu => ?_
  obtain ⟨hIu, hpu⟩ := Spec.parts_rely hu hIt
  exact ⟨rfl, hIu, hpu.trans hpt⟩

/-- The target is not found: no document stands there. -/
theorem lookup_target_succeeds (hD : D.Strict) (haim : Aimed D v src dest es) (hsrc : Sourced v es) (he : e ∈ es)
    (h : Moving v src dest es w) {d : Memory} (hd : d.filepath = some e.filepath)
    (hpart : Moving.part src dest e w = (some d, some e.id, none)) :
    Succeeds ((moves v src dest es).rely e) ((moves v src dest es).keep e)
      (fun found t => found = none ∧ Moving v src dest es t ∧ Moving.part src dest e t = (some d, some e.id, none))
      (D.lookupDocId (image src dest e.filepath)) w := by
  unfold Dialect.lookupDocId
  refine Succeeds.sync_bind fun t ht => ?_
  obtain ⟨hIt, hpt⟩ := Spec.parts_rely ht h
  refine ⟨hIt.stays, ?_⟩
  have hnone : t.index.resolve (image src dest e.filepath) = none := congrArg (fun p => p.2.2) (hpt.trans hpart)
  dsimp only
  rw [hnone]
  refine Succeeds.sync_bind fun u hu => ?_
  obtain ⟨hIu, hpu⟩ := Spec.parts_rely hu hIt
  have hpart' := hpu.trans (hpt.trans hpart)
  have hfree : ¬ Stands u.server (image src dest e.filepath) := hIu.free hsrc haim he (congrArg Prod.fst hpart') hd
  rw [send_listCall hIu.calm]
  refine ⟨hIu.stays, ?_⟩
  dsimp only
  rw [memories_nil (hD _ (haim.valid e he)).named hfree]
  refine succeeds_pure fun x hx => ?_
  obtain ⟨hIx, hpx⟩ := Spec.parts_rely hx hIu
  exact ⟨rfl, hIx, hpx.trans hpart'⟩

/-- The request of a move, and what is indexed after it. -/
theorem renameDoc_succeeds (haim : Aimed D v src dest es) (hsrc : Sourced v es) (he : e ∈ es)
    (h : Moving v src dest es w)
    {d : Memory} (hpart : Moving.part src dest e w = (some d, some e.id, none)) :
    Succeeds ((moves v src dest es).rely e) ((moves v src dest es).keep e)
      (fun _ t => Moving v src dest es t ∧ (t.server.get e.id).bind Memory.filepath = some (image src dest e.filepath))
      (D.renameDoc e.id e.filepath (image src dest e.filepath)) w := by
  unfold Dialect.renameDoc
  refine Succeeds.sync_bind fun t ht => ?_
  obtain ⟨hIt, hpt⟩ := Spec.parts_rely ht h
  have hget : t.server.get e.id = some d := congrArg Prod.fst (hpt.trans hpart)
  have hcall : ∀ stay, renameCall e.id (image src dest e.filepath) stay t.server =
      (.ok { d with filepath := some (image src dest e.filepath) }, { t.server with
        docs := Table.modify Memory.id t.server.docs e.id fun d =>
          { d with filepath := some (image src dest e.filepath) } }) := by
    intro stay
    unfold renameCall Container.update
    rw [hget]
  rw [send_nil t hIt.calm, hcall]
  have hrenamed := hIt.renamed hsrc haim he (s := { t.server with
    docs := Table.modify Memory.id t.server.docs e.id fun d =>
      { d with filepath := some (image src dest e.filepath) } }) rfl
  refine ⟨hrenamed, ?_⟩
  refine Succeeds.sync fun u hu => ?_
  obtain ⟨hIu, hpu⟩ := Spec.parts_rely hu hrenamed.1
  have hrelocated := hIu.relocated hsrc haim he
  refine ⟨hrelocated, fun x hx => ?_⟩
  obtain ⟨hIx, hpx⟩ := Spec.parts_rely hx hrelocated.1
  refine ⟨hIx, ?_⟩
  have hend : x.server.get e.id = (Table.get Memory.id (Table.modify Memory.id t.server.docs e.id fun d =>
      { d with filepath := some (image src dest e.filepath) }) e.id) := (congrArg Prod.fst hpx).trans (congrArg Prod.fst hpu)
  have hmodified : (Table.get Memory.id (Table.modify Memory.id t.server.docs e.id fun d =>
      { d with filepath := some (image src dest e.filepath) }) e.id) =
        some { d with filepath := some (image src dest e.filepath) } := by
    rw [Table.get_modify, if_pos rfl]
    · exact congrArg (Option.map _) hget
    · exact fun _ hid => hid
  rw [hend, hmodified]
  rfl

/-- **A move among others**, each with its document, its source and its target:
it succeeds. -/
theorem moveDoc_succeeds (hD : D.Strict) (haim : Aimed D v src dest es) (hsrc : Sourced v es) (he : e ∈ es)
    (h : Moving v src dest es w) {d : Memory} (hd : d.filepath = some e.filepath)
    (hpart : Moving.part src dest e w = (some d, some e.id, none)) :
    Succeeds ((moves v src dest es).rely e) ((moves v src dest es).keep e)
      (fun _ t => Moving v src dest es t ∧ (t.server.get e.id).bind Memory.filepath = some (image src dest e.filepath))
      (D.moveDoc e.filepath (image src dest e.filepath)) w := by
  unfold Dialect.moveDoc
  refine Succeeds.sync_bind fun t ht => ?_
  obtain ⟨hIt, hpt⟩ := Spec.parts_rely ht h
  refine ⟨hIt.stays, ?_⟩
  dsimp only
  rw [haim.writable hD he .moveDoc hIt.files]
  refine Succeeds.bind (lookup_source_succeeds hsrc he hIt (congrArg (fun p => p.2.1) (hpt.trans hpart)))
    fun found u hu => ?_
  obtain ⟨rfl, hIu, hpu⟩ := hu
  have hpart' := hpu.trans (hpt.trans hpart)
  rw [truthy_some.mpr (hsrc.named e he)]
  refine Succeeds.bind (lookup_target_succeeds hD haim hsrc he hIu hd hpart') fun there x hx => ?_
  obtain ⟨rfl, hIx, hpx⟩ := hx
  exact renameDoc_succeeds haim hsrc he hIx hpx

/-- **All the moves succeed**, in any batches and any schedule, and what they
change is the paths of their documents. -/
theorem moves_all (hD : D.Strict) (haim : Aimed D v src dest es) (hsrc : Sourced v es) (hf : v.fates = [])
    {batches : List (List (Async World (Option Thrown)))}
    (hjobs : batches.flatten = es.map fun e => caught (D.moveDoc e.filepath (image src dest e.filepath)))
    (sched : ℕ → List ℕ) (n : ℕ) :
    (runBatches sched n batches v).1 = [] ∧
      List.Forall₂ (fun d x => (∀ e ∈ es, e.id = d.id → x = { d with filepath := some (image src dest e.filepath) }) ∧
        ((∀ e ∈ es, e.id ≠ d.id) → x = d)) v.server.docs (runBatches sched n batches v).2.server.docs := by
  have hstart : Moving v src dest es v := ⟨hf, fun q hq => .inl (.inl hq), List.forall₂_same.mpr fun _ _ => .inl rfl⟩
  have hsafe : List.Forall₂ ((moves v src dest es).safe v) es batches.flatten := by
    rw [hjobs, List.forall₂_map_right_iff, List.forall₂_same]
    intro e he
    obtain ⟨d, hd, hid, hp⟩ := hsrc.has e he
    have hget : v.server.get e.id = some d := hid ▸ Table.get_of_mem hsrc.ids hd
    have hfree : v.index.resolve (image src dest e.filepath) = none := by
      by_contra hr
      exact haim.not_held e.filepath (.inl (Option.ne_none_iff_isSome.mp hr))
    have hpart : Moving.part src dest e v = (some d, some e.id, none) := by
      unfold Moving.part
      rw [hget, hsrc.knows e he, hfree]
    refine caught_succeeds (moveDoc_succeeds hD haim hsrc he hstart hp hpart) fun t u ht hu => ?_
    obtain ⟨hI, hpart⟩ := Spec.parts_rely hu ht.1
    refine ⟨hI, ?_⟩
    have hsame : u.server.get e.id = t.server.get e.id := congrArg Prod.fst hpart
    rw [hsame]
    exact ht.2
  have hsilent : (runBatches sched n batches v).1 = [] :=
    runBatches_silent (fun _ _ _ _ hend => And.left hend) haim.nodup Spec.parts_tolerant hsafe
  obtain ⟨hsteps, hends⟩ : ReflTransGen _ v (runBatches sched n batches v).2 ∧ _ :=
    runBatches_safe haim.nodup Spec.parts_tolerant hsafe
  have hend := Spec.parts_steps hsteps hstart
  refine ⟨hsilent, ?_⟩
  generalize (runBatches sched n batches v).2 = t at hends hend
  have hmem := (List.forall₂_and_left v.server.docs _).mpr ⟨fun d hd => hd, hend.docs⟩
  have hmem' := (List.forall₂_and_left t.server.docs _).mpr ⟨fun x hx => hx, hmem.flip⟩
  refine hmem'.flip.imp fun d x hdx => ?_
  obtain ⟨hx, hd, hcases⟩ := hdx
  refine ⟨fun e he hid => ?_, fun hnone => ?_⟩
  · -- the document is where its move ends
    have hxid : x.id = e.id := by
      rcases hcases with rfl | ⟨_, _, _, rfl⟩
      · exact hid.symm
      · exact hid.symm
    have hget : t.server.get e.id = some x := hxid ▸ Table.get_of_mem (hend.ids ▸ hsrc.ids) hx
    have hp : x.filepath = some (image src dest e.filepath) := by
      have hat := (hends hsilent e he _ .refl).2.2
      rw [hget] at hat
      exact hat
    rcases hcases with rfl | ⟨e', he', hid', rfl⟩
    · exact absurd (.inr ⟨x, hd, hp⟩) (haim.not_held e.filepath)
    · rw [hsrc.id_inj haim he' he (hid'.trans hid.symm)]
  · rcases hcases with rfl | ⟨e, he, hid, -⟩
    · rfl
    · exact absurd hid (hnone e he)

end Smfs.Bash
