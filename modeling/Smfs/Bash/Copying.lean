/-
# Documents that are written to targets of their own

A tree operation starts a job for each entry of its listing. Where the targets
are paths that may be written, none lies below another, and nothing is held at,
above or below the directory they are in (`Aimed`), no job gets in the way of
another: each has its target for itself. So all the writes of a copy succeed,
whatever turns they take, and what they add is one document for each entry.

Key definitions: `Aimed`, `Copying`, `copies`.
Key theorems: `Aimed.writable`, `addDoc_succeeds`, `copies_all`.
-/
import Smfs.Bash.Batches
import Smfs.Bash.Image

namespace Smfs.Bash

open Turns Relation Shape

/-- Each entry has a target for itself. -/
structure Aimed (D : Dialect) (v : World) (src dest : String) (es : List DocSummary) : Prop where
  paths : (es.map DocSummary.filepath).Nodup
  under : ∀ e ∈ es, Below e.filepath src
  free : ∀ q, Held v q → q ≠ dest ∧ ¬ Below dest q ∧ ¬ Below q dest
  valid : ∀ e ∈ es, D.checkFilepath (image src dest e.filepath) = none
  unreserved : ∀ e ∈ es, isReservedFilepath (image src dest e.filepath) = false
  unnested : ∀ e ∈ es, ∀ e' ∈ es, ¬ Below (image src dest e'.filepath) (image src dest e.filepath)

variable {ι : Type} {D : Dialect} {v w t : World} {src dest q : String} {es : List DocSummary} {e e' : DocSummary}

namespace Aimed

theorem nodup (h : Aimed D v src dest es) : es.Nodup := h.paths.of_map _

theorem inj (h : Aimed D v src dest es) (he : e ∈ es) (he' : e' ∈ es)
    (himage : image src dest e.filepath = image src dest e'.filepath) : e = e' :=
  List.inj_on_of_nodup_map h.paths he he' (image_inj (h.under e he) (h.under e' he') himage)

theorem not_held (h : Aimed D v src dest es) (p : String) : ¬ Held v (image src dest p) :=
  fun hheld => (h.free _ hheld).2.2 (below_image p)

/-- As long as only targets are added to what is indexed, each may be written. -/
theorem writable (h : Aimed D v src dest es) (hD : D.Strict) (he : e ∈ es) {ix : PathIndex} (intent : WriteIntent)
    (hfiles : ∀ q, ix.isFile q = true → Held v q ∨ ∃ e ∈ es, q = image src dest e.filepath) :
    D.assertWritable ix (image src dest e.filepath) intent = none := by
  refine Dialect.assertWritable_none (h.valid e he) (h.unreserved e he) (hD _ (h.valid e he)) fun q hq => ?_
  rcases hfiles q hq with hheld | ⟨e', he', rfl⟩
  · obtain ⟨hne, habove, hbelow⟩ := h.free q hheld
    exact (apart_image hne habove hbelow e.filepath).2
  · exact ⟨h.unnested e he e' he', h.unnested e' he' e he⟩

end Aimed

/-! ### Jobs that do not throw -/

theorem caught_succeeds {α : Type} {R G : World → World → Prop} {P : World → Prop} {job : Vol α}
    (h : Succeeds R G (fun _ t => P t) job w) (hstable : ∀ t u, P t → ReflTransGen R t u → P u) :
    Safe R G (fun r t => r = none ∧ P t) (caught job) w := by
  refine Safe.bind h fun r t hr => ?_
  obtain ⟨a, rfl, ha⟩ := hr
  exact fun u hu => ⟨rfl, hstable t u ha hu⟩

/-- The batches one after another: where every job ends without an error, none
is given. -/
theorem runBatches_silent {S : Spec ι World (Option Thrown)} {is : List ι}
    {batches : List (List (Async World (Option Thrown)))}
    {sched : ℕ → List ℕ} {n : ℕ} (hends : ∀ i ∈ is, ∀ a t, S.ends i a t → a = none) (hnodup : is.Nodup)
    (htol : S.Tolerant is)
    (h : List.Forall₂ (S.safe w) is batches.flatten) : (runBatches sched n batches w).1 = [] := by
  induction batches generalizing n w is with
  | nil => rfl
  | cons batch rest ih =>
    rw [List.flatten_cons] at h
    generalize hnow : is.take batch.length = now
    generalize hlater : is.drop batch.length = later
    have hsplit : now ++ later = is := by rw [← hnow, ← hlater, List.take_append_drop]
    subst hsplit
    obtain ⟨hnow', hlater', hdisjoint⟩ := List.nodup_append.mp hnodup
    have hbatch : List.Forall₂ (S.safe w) now batch := hnow ▸ List.forall₂_take_append _ _ _ h
    have hrest : List.Forall₂ (S.safe w) later rest.flatten := hlater ▸ List.forall₂_drop_append _ _ _ h
    have hin : ∀ i ∈ now, i ∈ now ++ later := fun i hi => List.mem_append_left _ hi
    have hin' : ∀ i ∈ later, i ∈ now ++ later := fun i hi => List.mem_append_right _ hi
    have hended : Ended S now w (interleave (sched n) batch w) := interleave_safe hnow' (htol.mono hin) hbatch
    have hanswers : ∀ a ∈ (interleave (sched n) batch w).1, a = none :=
      interleave_answers (fun i hi => hends i (hin i hi)) hnow' (htol.mono hin) hbatch
    have hwait : List.Forall₂ (S.safe (interleave (sched n) batch w).2) later rest.flatten :=
      forall₂_imp hrest fun i hi x hx => hx.others htol (hin' i hi)
        (fun j hj => ⟨hin j hj, hdisjoint j hj i hi⟩) hended.steps
    unfold runBatches
    have hlast := ih (n := n + 1) (fun i hi => hends i (hin' i hi)) hlater' (htol.mono hin') hwait
    exact List.append_eq_nil_iff.mpr ⟨List.filterMap_eq_nil_iff.mpr hanswers, hlast⟩

/-! ### The writes of a copy -/

/-- What was copied so far. -/
structure Copying (v : World) (src dest : String) (es : List DocSummary) (t : World) : Prop where
  calm : t.fates = []
  files : ∀ q, t.index.isFile q = true → Held v q ∨ ∃ e ∈ es, q = image src dest e.filepath
  docs : ∃ new, t.server.docs = v.server.docs ++ new ∧
    ∀ x ∈ new, ∃ e ∈ es, x.filepath = some (image src dest e.filepath) ∧ x.content = some (e.content.getD "")

/-- The contents at a path. -/
def contentsAt (s : Container) (p : String) : List (Option String) :=
  (s.docs.filter fun d => d.filepath = some p).map Memory.content

theorem contentsAt_add {s : Container} {p content : String} :
    contentsAt (s.add p content).2 q = contentsAt s q ++ if q = p then [some content] else [] := by
  unfold contentsAt Container.add
  dsimp only
  rw [List.filter_append, List.map_append]
  by_cases h : q = p
  · subst h
    simp
  · simp [h, Ne.symm h]

/-- The part of one write: its target. -/
def Copying.part (src dest : String) (e : DocSummary) (t : World) : List (Option String) × Option String :=
  (contentsAt t.server (image src dest e.filepath), t.index.resolve (image src dest e.filepath))

/-- The writes of a copy, each of which ends with its document at its target. -/
abbrev copies (v : World) (src dest : String) (es : List DocSummary) : Spec DocSummary World (Option Thrown) :=
  Spec.parts (Copying v src dest es) (Copying.part src dest) es fun e r t =>
    r = none ∧ Copying v src dest es t ∧ contentsAt t.server (image src dest e.filepath) = [some (e.content.getD "")]

theorem Copying.stays (h : Copying v src dest es w) : (copies v src dest es).keep e w w := Spec.parts_look h

/-- The target is indexed. -/
theorem Copying.kept (h : Copying v src dest es w) (haim : Aimed D v src dest es) (he : e ∈ es) {id : String}
    {content : Content}
    {status : DocStatus} : (copies v src dest es).keep e w (w.keep (image src dest e.filepath) id content status) := by
  refine ⟨⟨h.calm, fun q hq => ?_, h.docs⟩, fun e' he' hne => Prod.ext rfl ?_⟩
  · rcases isFile_insert.mp hq with rfl | hq
    · exact .inr ⟨e, he, rfl⟩
    · exact h.files q hq
  · show (w.index.insert _ id).resolve _ = _
    rw [PathIndex.resolve_insert, if_neg fun himage => hne (haim.inj he' he himage)]
    rfl

/-- The document is added. -/
theorem Copying.added (h : Copying v src dest es w) (haim : Aimed D v src dest es) (he : e ∈ es) :
    (copies v src dest es).keep e w
      { w with server := (w.server.add (image src dest e.filepath) (e.content.getD "")).2, fates := [] } := by
  refine ⟨⟨rfl, h.files, ?_⟩, fun e' he' hne => Prod.ext ?_ rfl⟩
  · obtain ⟨new, hdocs, hnew⟩ := h.docs
    refine ⟨new ++ [(w.server.add (image src dest e.filepath) (e.content.getD "")).1], ?_, fun x hx => ?_⟩
    · rw [← List.append_assoc, ← hdocs]
      rfl
    · rcases List.mem_append.mp hx with hx | hx
      · exact hnew x hx
      · rw [List.mem_singleton.mp hx]
        exact ⟨e, he, rfl, rfl⟩
  · show contentsAt (w.server.add _ _).2 _ = _
    rw [contentsAt_add, if_neg fun himage => hne (haim.inj he' he himage), List.append_nil]
    rfl

/-- **A write among others**, each to its target: it succeeds. -/
theorem addDoc_succeeds (hD : D.Strict) (haim : Aimed D v src dest es) (he : e ∈ es) (h : Copying v src dest es w)
    (hpart : Copying.part src dest e w = ([], none)) :
    Succeeds ((copies v src dest es).rely e) ((copies v src dest es).keep e)
      (fun _ t => Copying v src dest es t ∧ contentsAt t.server (image src dest e.filepath) =
        [some (e.content.getD "")])
      (D.addDoc (image src dest e.filepath) (.text (e.content.getD ""))) w := by
  unfold Dialect.addDoc
  refine Succeeds.sync_bind fun t ht => ?_
  obtain ⟨hIt, hpt⟩ := Spec.parts_rely ht h
  refine ⟨hIt.stays, ?_⟩
  dsimp only
  rw [haim.writable hD he .addDoc hIt.files]
  refine Succeeds.sync_bind fun u hu => ?_
  obtain ⟨hIu, hpu⟩ := Spec.parts_rely hu hIt
  refine ⟨hIu.stays, ?_⟩
  refine Succeeds.sync_bind fun x hx => ?_
  obtain ⟨hIx, hpx⟩ := Spec.parts_rely hx hIu
  have hpart' : Copying.part src dest e x = ([], none) := hpx.trans (hpu.trans (hpt.trans hpart))
  have hfree : u.index.resolve (image src dest e.filepath) = none := congrArg Prod.snd (hpu.trans (hpt.trans hpart))
  have hempty : contentsAt x.server (image src dest e.filepath) = [] := congrArg Prod.fst hpart'
  dsimp only
  rw [hfree, send_nil x hIx.calm]
  have hadded := hIx.added haim he
  refine ⟨hadded, ?_⟩
  -- what is left is to keep the answer
  refine Succeeds.sync_bind fun y hy => ?_
  obtain ⟨hIy, hpy⟩ := Spec.parts_rely hy hadded.1
  have hkept : (copies v src dest es).keep e y (y.keep (image src dest e.filepath) x.server.newId
      (.text (e.content.getD "")) (normalizeStatus queued)) := hIy.kept haim he
  refine ⟨hkept, succeeds_pure fun z hz => ?_⟩
  obtain ⟨hIz, hpz⟩ := Spec.parts_rely hz hkept.1
  refine ⟨hIz, (congrArg Prod.fst hpz).trans ((congrArg Prod.fst hpy).trans ?_)⟩
  show contentsAt (x.server.add _ _).2 _ = _
  rw [contentsAt_add, hempty, if_pos rfl]
  rfl

theorem contentsAt_none {s : Container} (h : ¬ Stands s q) : contentsAt s q = [] := by
  unfold contentsAt
  rw [List.map_eq_nil_iff, List.filter_eq_nil_iff]
  exact fun d hd hp => h ⟨d, hd, of_decide_eq_true hp⟩

theorem Aimed.part_none (haim : Aimed D v src dest es) (e : DocSummary) : Copying.part src dest e v = ([], none) := by
  have hheld := haim.not_held e.filepath
  refine Prod.ext (contentsAt_none fun hst => hheld (.inr hst)) ?_
  by_contra hr
  exact hheld (.inl (Option.ne_none_iff_isSome.mp hr))

/-- Where what was added has each of these contents once at its path, it is
these, in some order. -/
theorem perm_of_contentsAt {docs new : List Memory} {s : Container} (haim : Aimed D v src dest es)
    (hs : s.docs = docs ++ new)
    (hdocs : ∀ e ∈ es, ∀ d ∈ docs, d.filepath ≠ some (image src dest e.filepath))
    (hnew : ∀ x ∈ new, ∃ e ∈ es, x.filepath = some (image src dest e.filepath) ∧ x.content = some (e.content.getD ""))
    (hend : ∀ e ∈ es, contentsAt s (image src dest e.filepath) = [some (e.content.getD "")]) :
    (new.map fun x => (x.filepath, x.content)).Perm
      (es.map fun e => (some (image src dest e.filepath), some (e.content.getD ""))) := by
  have hat : ∀ e ∈ es, (new.filter fun d => d.filepath = some (image src dest e.filepath)).map Memory.content =
      [some (e.content.getD "")] := by
    intro e he
    have hnil : docs.filter (fun d => d.filepath = some (image src dest e.filepath)) = [] :=
      List.filter_eq_nil_iff.mpr fun d hd hp => hdocs e he d hd (of_decide_eq_true hp)
    have hall := hend e he
    rw [contentsAt, hs, List.filter_append, hnil, List.nil_append] at hall
    exact hall
  have hnodup : (new.map Memory.filepath).Nodup := by
    refine List.nodup_iff_count_le_one.mpr fun p => ?_
    by_cases hp : p ∈ new.map Memory.filepath
    · obtain ⟨x, hx, rfl⟩ := List.mem_map.mp hp
      obtain ⟨e, he, hpath, -⟩ := hnew x hx
      have hlen := congrArg List.length (hat e he)
      rw [List.length_map, List.length_singleton] at hlen
      rw [hpath, List.count, List.countP_map, List.countP_eq_length_filter, ← hlen]
      refine le_of_eq (congrArg (fun f => (List.filter f new).length) (funext fun d => ?_))
      exact Bool.eq_iff_iff.mpr (beq_iff_eq.trans decide_eq_true_iff.symm)
    · rw [List.count_eq_zero_of_not_mem hp]
      exact Nat.zero_le 1
  have hnodup' : (es.map fun e => (some (image src dest e.filepath), some (e.content.getD ""))).Nodup :=
    haim.nodup.map_on fun e he e' he' heq => haim.inj he he' (Option.some.inj (congrArg Prod.fst heq))
  have hpairs : (new.map fun x => (x.filepath, x.content)).Nodup := by
    refine List.Nodup.of_map Prod.fst ?_
    rw [List.map_map]
    exact hnodup
  refine (List.perm_ext_iff_of_nodup hpairs hnodup').mpr fun pc => ?_
  constructor
  · intro h
    obtain ⟨x, hx, rfl⟩ := List.mem_map.mp h
    obtain ⟨e, he, hpath, hcontent⟩ := hnew x hx
    exact List.mem_map.mpr ⟨e, he, by rw [hpath, hcontent]⟩
  · intro h
    obtain ⟨e, he, rfl⟩ := List.mem_map.mp h
    have hmem : some (e.content.getD "") ∈ (new.filter fun d => d.filepath =
      some (image src dest e.filepath)).map Memory.content := by
      rw [hat e he]
      exact List.mem_singleton_self _
    obtain ⟨x, hx, hcontent⟩ := List.mem_map.mp hmem
    obtain ⟨hx, hpath⟩ := List.mem_filter.mp hx
    exact List.mem_map.mpr ⟨x, hx, by rw [hcontent, of_decide_eq_true hpath]⟩

/-- **All the writes of a copy succeed**, in any batches and any schedule, and
add one document for each entry. -/
theorem copies_all (hD : D.Strict) (haim : Aimed D v src dest es) (hf : v.fates = [])
    {batches : List (List (Async World (Option Thrown)))}
    (hjobs : batches.flatten = es.map fun e => caught (D.addDoc (image src dest e.filepath) (.text (e.content.getD ""))))
    (sched : ℕ → List ℕ) (n : ℕ) :
    (runBatches sched n batches v).1 = [] ∧ ∃ new, (runBatches sched n batches v).2.server.docs = v.server.docs ++ new ∧
      (new.map fun x => (x.filepath, x.content)).Perm
        (es.map fun e => (some (image src dest e.filepath), some (e.content.getD ""))) := by
  have hstart : Copying v src dest es v := ⟨hf, fun q hq => .inl (.inl hq), [], (List.append_nil _).symm,
    fun _ hx => (nomatch hx)⟩
  have hsafe : List.Forall₂ ((copies v src dest es).safe v) es batches.flatten := by
    rw [hjobs, List.forall₂_map_right_iff, List.forall₂_same]
    refine fun e he => caught_succeeds (addDoc_succeeds hD haim he hstart (haim.part_none e)) fun t u ht hu => ?_
    obtain ⟨hI, hpart⟩ := Spec.parts_rely hu ht.1
    exact ⟨hI, (congrArg Prod.fst hpart).trans ht.2⟩
  have hsilent : (runBatches sched n batches v).1 = [] :=
    runBatches_silent (fun _ _ _ _ hend => And.left hend) haim.nodup Spec.parts_tolerant hsafe
  obtain ⟨hsteps, hends⟩ : ReflTransGen _ v (runBatches sched n batches v).2 ∧ _ :=
    runBatches_safe haim.nodup Spec.parts_tolerant hsafe
  obtain ⟨new, hdocs, hnew⟩ := (Spec.parts_steps hsteps hstart).docs
  refine ⟨hsilent, new, hdocs, perm_of_contentsAt haim hdocs (fun e _ d hd hp => ?_) hnew fun e he => ?_⟩
  · exact haim.not_held e.filepath (.inr ⟨d, hd, hp⟩)
  · exact (hends hsilent e he _ .refl).2.2

end Smfs.Bash
