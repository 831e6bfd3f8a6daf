/-
# When each document of a tree is mapped once

A move or a copy reports no errors and maps each document under its source to
its image, and nothing else, in whatever turns its jobs take, just if no
document under the source lies below another one and each entry of the listing
is of a document. So it fails where the Python client lists the root: a copy
makes a document of the profile, and a move has an error for it.

Key definitions: `Unnested`, `Copied`, `Moved`, `Mappable`.
Key theorems: `aimed_of_silent`, `copied_of_aimed`, `moved_of_aimed`, `mapsOnce_iff`.
-/
import Smfs.Bash.Trees

namespace Smfs.Bash.Trees

open Turns Relation Shape

/-- No document under the source lies below another one. -/
def Unnested (s : Container) (src : String) : Prop :=
  ∀ p q, Stands s p → Stands s q → Below p src → Below q src → ¬ Below q p

/-- Each document under the source is copied once, and nothing else is done. -/
structure Copied (w : World) (src dest : String) (r : Except Thrown (List Thrown) × World) : Prop where
  silent : r.1 = .ok []
  arrived : ((r.2.server.docs.filter (under dest)).map fun x => (x.filepath, x.content)).Perm
    ((w.server.docs.filter (under src)).map fun d => (d.filepath.map (image src dest), some (d.content.getD "")))
  others : r.2.server.docs.filter (!under dest ·) = w.server.docs

/-- Each document under the source is moved, and nothing else is done. -/
structure Moved (w : World) (src dest : String) (r : Except Thrown (List Thrown) × World) : Prop where
  silent : r.1 = .ok []
  arrived : r.2.server.docs.filter (under dest) =
    (w.server.docs.filter (under src)).map fun d => { d with filepath := d.filepath.map (image src dest) }
  others : r.2.server.docs.filter (!under dest ·) = w.server.docs.filter (!under src ·)
  emptied : ∀ p, Stands r.2.server p → ¬ Below p src

def TreeOp.MapsOnce (op : TreeOp) (w : World) (src dest : String) (r : Except Thrown (List Thrown) × World) : Prop :=
  match op with
  | .move => Moved w src dest r
  | .copy => Copied w src dest r

variable {D : Dialect} {v w : World} {src dest p q : String} {es : List DocSummary} {e : DocSummary}

/-! ### Entries and their targets -/

section Entries

variable {b : Bool} {ds extra : List DocSummary} {d : Memory}

theorem filterMap_of_entries {docs : List Memory} (h : List.Forall₂ (EntryOf b) docs ds) :
    docs.filterMap Memory.filepath = ds.map DocSummary.filepath := by
  induction h with
  | nil => rfl
  | cons he _ ih => rw [List.filterMap_cons_some he.2.1, List.map_cons, ih]

namespace Prepared

theorem mem (hp : Prepared w src b v ds) (he : e ∈ ds) : ∃ d ∈ w.server.docs, under src d = true ∧ EntryOf b d e := by
  obtain ⟨d, hd, hentry⟩ := forall₂_mem hp.entries he
  exact ⟨d, (List.mem_filter.mp hd).1, (List.mem_filter.mp hd).2, hentry⟩

theorem of_mem (hp : Prepared w src b v ds) (hd : d ∈ w.server.docs) (hu : under src d = true) :
    ∃ e ∈ ds, EntryOf b d e :=
  forall₂_mem hp.entries.flip (List.mem_filter.mpr ⟨hd, hu⟩)

theorem stands (hp : Prepared w src b v ds) (he : e ∈ ds) : Stands w.server e.filepath ∧ Below e.filepath src := by
  obtain ⟨d, hd, hu, hentry⟩ := hp.mem he
  exact ⟨⟨d, hd, hentry.2.1⟩, (under_iff hentry.2.1).mp hu⟩

theorem of_stands (hp : Prepared w src b v ds) (h : Stands w.server p) (hbelow : Below p src) :
    ∃ e ∈ ds, e.filepath = p := by
  obtain ⟨d, hd, hpath⟩ := h
  obtain ⟨e, he, -, hpath', -⟩ := hp.of_mem hd ((under_iff hpath).mpr hbelow)
  exact ⟨e, he, Option.some.inj (hpath'.symm.trans hpath)⟩

theorem paths (hp : Prepared w src b v ds) (h : Clear D w src dest) : (ds.map DocSummary.filepath).Nodup := by
  rw [← filterMap_of_entries hp.entries]
  exact h.distinct.sublist (List.filter_sublist.filterMap _)

/-- Where no document under the source lies below another, each entry has a
target for itself. -/
theorem targets (hp : Prepared w src b v ds) (hD : D.Strict) (h : Clear D w src dest) (hun : Unnested w.server src) :
    Aimed D v src dest ds where
  paths := hp.paths h
  under e he := (hp.stands he).2
  free q hq := h.free q (hp.held q hq)
  valid e he := h.valid _ (hp.stands he).1 (hp.stands he).2
  unreserved e he := h.unreserved _ (hp.stands he).1 (hp.stands he).2
  unnested e he e' he' hbelow := by
    obtain ⟨hst, hb⟩ := hp.stands he
    obtain ⟨hst', hb'⟩ := hp.stands he'
    have hrooted := hD _ (h.valid _ hst hb)
    exact hun _ _ hst hst' hb hb' ((image_below hb hb' hrooted.named).mp hbelow)

theorem unnested (hp : Prepared w src b v ds) (hD : D.Strict) (haim : Aimed D v src dest es) (hsub : ∀ e ∈ ds, e ∈ es) :
    Unnested w.server src := by
  intro p q hst hst' hb hb' hbelow
  obtain ⟨e, he, rfl⟩ := hp.of_stands hst hb
  obtain ⟨e', he', rfl⟩ := hp.of_stands hst' hb'
  have hrooted := hD _ (haim.valid e (hsub e he))
  exact haim.unnested e (hsub e he) e' (hsub e' he') ((image_below hb hb' hrooted.named).mpr hbelow)

theorem sourced (hp : Prepared w src b v ds) (h : Clear D w src dest) : Sourced v ds := by
  refine ⟨by rw [hp.server]; exact h.ids, fun e he => ?_, fun e he => ?_, hp.knows⟩
  · obtain ⟨d, hd, -, hid, -⟩ := hp.mem he
    exact hid ▸ h.named d hd
  · obtain ⟨d, hd, -, hid, hpath, -⟩ := hp.mem he
    rw [hp.server]
    exact ⟨d, hd, hid.symm, hpath⟩

end Prepared

theorem reserved_profile : isReservedFilepath profilePath = true := decide_eq_true rfl

/-- **What an operation without an error has met**, if its jobs run one after
another: each entry has a target for itself, one for the profile among them. -/
theorem aimed_of_silent {op : TreeOp} {c : Client} {r : Except Thrown (List Thrown) × World}
    {batches : List (List (Async World (Option Thrown)))} (hD : c.dialect.Strict) (h : Clear c.dialect w src dest)
    (hruns : Runs op c (fun _ => []) w src dest r v ds extra batches) (hsilent : r.1 = .ok []) :
    Aimed c.dialect v src dest (ds ++ extra) := by
  have hp := hruns.prepared
  have hextra : ∀ e ∈ extra, e.filepath = profilePath ∧ withSlash src = "/" ∧ ∀ e ∈ ds, e.filepath ≠ profilePath := by
    intro e he
    rcases hruns.more with ⟨rfl, -⟩ | ⟨-, hroot, hnone, e', rfl, hprofile⟩
    · cases he
    · rw [List.mem_singleton.mp he]
      exact ⟨hprofile, hroot, hnone⟩
  have hanswers : ∀ a ∈ (runAll ((ds ++ extra).map (op.task c.dialect src dest)) v).1, a = none := by
    have herrors := hruns.errors
    rw [hsilent, runBatches_alone, hruns.jobs] at herrors
    exact List.filterMap_eq_nil_iff.mp (Except.ok.inj herrors).symm
  have hsources : ∀ e ∈ ds ++ extra, isReservedFilepath (image src dest e.filepath) = false →
      ∀ e' ∈ ds ++ extra, image src dest e.filepath ≠ e'.filepath := by
    intro e he hunreserved e' he' himage
    rcases List.mem_append.mp he' with he' | he'
    · obtain ⟨hne, habove, hbelow⟩ := h.free _ (.inr (hp.stands he').1)
      exact (apart_image hne habove hbelow e.filepath).1 himage.symm
    · rw [himage, (hextra e' he').1, reserved_profile] at hunreserved
      cases hunreserved
  obtain ⟨hvalid, hpairs⟩ : (∀ e ∈ ds ++ extra, c.dialect.checkFilepath (image src dest e.filepath) = none ∧
      isReservedFilepath (image src dest e.filepath) = false) ∧
      (ds ++ extra).Pairwise fun e e' => Apart (image src dest e.filepath) (image src dest e'.filepath) := by
    cases op with
    | move =>
      obtain ⟨hvalid, hpairs, -⟩ := apart_of_runAll hD (fun e _ => moveDoc_lands _ _ _) hsources hanswers
      exact ⟨hvalid, hpairs⟩
    | copy =>
      obtain ⟨hvalid, hpairs, -⟩ := apart_of_runAll hD (fun e _ => addDoc_lands _ _ _ _) hsources hanswers
      exact ⟨hvalid, hpairs⟩
  refine ⟨?_, fun e he => ?_, fun q hq => h.free q (hp.held q hq), fun e he => (hvalid e he).1,
    fun e he => (hvalid e he).2, ?_⟩
  · rw [List.map_append]
    refine List.nodup_append.mpr ⟨hp.paths h, ?_, fun p hpd p' hpe heq => ?_⟩
    · rcases hruns.more with ⟨rfl, -⟩ | ⟨-, -, -, e, rfl, -⟩
      · exact .nil
      · exact List.nodup_singleton _
    · obtain ⟨e, he, rfl⟩ := List.mem_map.mp hpd
      obtain ⟨e', he', rfl⟩ := List.mem_map.mp hpe
      obtain ⟨hprofile, -, hnone⟩ := hextra e' he'
      exact hnone e he (heq.trans hprofile)
  · rcases List.mem_append.mp he with he | he
    · exact (hp.stands he).2
    · obtain ⟨hprofile, hroot, -⟩ := hextra e he
      unfold Below
      rw [hprofile, hroot]
      rfl
  · have hself : ∀ e ∈ ds ++ extra, Apart (image src dest e.filepath) (image src dest e.filepath) := fun e he =>
      ⟨(hD _ (hvalid e he).1).not_below_self, (hD _ (hvalid e he).1).not_below_self⟩
    have hall := List.Pairwise.forall_of_forall_of_flip hself hpairs (hpairs.imp fun hapart => ⟨hapart.2, hapart.1⟩)
    exact fun e he e' he' => (hall he he').2

/-! ### What is left by an operation -/

theorem Clear.not_under (h : Clear D w src dest) (hd : d ∈ w.server.docs) : under dest d = false := by
  cases hpath : d.filepath with
  | none =>
    unfold under
    rw [hpath]
    rfl
  | some p => exact eq_false_of_ne_true fun hu => (h.free p (.inr ⟨d, hd, hpath⟩)).2.2 ((under_iff hpath).mp hu)

/-- The copies, under the target. -/
theorem copies_arrive {c : Client} {sched : ℕ → List ℕ} {r : Except Thrown (List Thrown) × World}
    {batches : List (List (Async World (Option Thrown)))} (hD : c.dialect.Strict) (h : Clear c.dialect w src dest)
    (hruns : Runs .copy c sched w src dest r v ds extra batches) (haim : Aimed c.dialect v src dest (ds ++ extra)) :
    r.1 = .ok [] ∧ ((r.2.server.docs.filter (under dest)).map fun x => (x.filepath, x.content)).Perm
      ((ds ++ extra).map fun e => (some (image src dest e.filepath), some (e.content.getD ""))) ∧
    r.2.server.docs.filter (!under dest ·) = w.server.docs := by
  obtain ⟨hsilent, new, hdocs, hnew⟩ := copies_all hD haim hruns.prepared.calm hruns.jobs sched 0
  have hunder : ∀ x ∈ new, under dest x = true := by
    intro x hx
    have hmem : (x.filepath, x.content) ∈ new.map fun x => (x.filepath, x.content) := List.mem_map_of_mem hx
    obtain ⟨e, he, heq⟩ := List.mem_map.mp (hnew.mem_iff.mp hmem)
    exact (under_iff (congrArg Prod.fst heq).symm).mpr (below_image _)
  have hnone : ∀ d ∈ w.server.docs, under dest d = false := fun d hd => h.not_under hd
  rw [hruns.errors, hruns.server, hdocs, hruns.prepared.server, hsilent, List.filter_append, List.filter_append,
    List.filter_eq_nil_iff.mpr fun d hd => by rw [hnone d hd]; exact Bool.false_ne_true, List.nil_append,
    List.filter_eq_self.mpr hunder, List.filter_eq_self.mpr fun d hd => by rw [hnone d hd]; rfl,
    List.filter_eq_nil_iff.mpr fun x hx => by rw [hunder x hx]; exact Bool.false_ne_true, List.append_nil]
  exact ⟨rfl, hnew, rfl⟩

theorem copied_of_aimed {c : Client} {sched : ℕ → List ℕ} {r : Except Thrown (List Thrown) × World}
    {batches : List (List (Async World (Option Thrown)))} (hD : c.dialect.Strict) (h : Clear c.dialect w src dest)
    (hruns : Runs .copy c sched w src dest r v ds [] batches) (haim : Aimed c.dialect v src dest ds) :
    Copied w src dest r := by
  rw [← List.append_nil ds] at haim
  obtain ⟨hsilent, harrived, hothers⟩ := copies_arrive hD h hruns haim
  refine ⟨hsilent, ?_, hothers⟩
  have hsame : List.Forall₂ (fun x y => x = y)
      ((w.server.docs.filter (under src)).map fun d => (d.filepath.map (image src dest), some (d.content.getD "")))
      (ds.map fun e => (some (image src dest e.filepath), some (e.content.getD ""))) := by
    rw [List.forall₂_map_left_iff, List.forall₂_map_right_iff]
    refine hruns.prepared.entries.imp fun d e hentry => ?_
    rw [hentry.2.1, hentry.2.2 rfl]
    rfl
  rw [List.forall₂_eq_eq_eq] at hsame
  rw [hsame]
  rw [List.append_nil] at harrived
  exact harrived

/-- A document and where it is moved to. -/
def moved (src dest : String) (d : Memory) : Memory :=
  if under src d then { d with filepath := d.filepath.map (image src dest) } else d

theorem under_moved (h : Clear D w src dest) (hd : d ∈ w.server.docs) :
    under dest (moved src dest d) = under src d := by
  unfold moved
  by_cases hu : under src d = true
  · rw [if_pos hu, hu]
    obtain ⟨p, hpath, -⟩ := (Option.any_eq_true _ _).mp hu
    exact (under_iff (by rw [hpath]; rfl)).mpr (below_image p)
  · rw [if_neg hu, eq_false_of_ne_true hu]
    exact h.not_under hd

theorem moved_of_aimed {c : Client} {sched : ℕ → List ℕ} {r : Except Thrown (List Thrown) × World}
    {batches : List (List (Async World (Option Thrown)))} (hD : c.dialect.Strict) (h : Clear c.dialect w src dest)
    (hne : dest ≠ src) (hout : ¬ Below dest src)
    (hruns : Runs .move c sched w src dest r v ds [] batches) (haim : Aimed c.dialect v src dest ds) :
    Moved w src dest r := by
  have hp := hruns.prepared
  have hjobs := hruns.jobs
  rw [List.append_nil] at hjobs
  obtain ⟨hsilent, hdocs⟩ := moves_all hD haim (hp.sourced h) hp.calm hjobs sched 0
  have hall : r.2.server.docs = w.server.docs.map (moved src dest) := by
    rw [hp.server, ← hruns.server] at hdocs
    have hmem := (List.forall₂_and_left w.server.docs _).mpr ⟨fun d hd => hd, hdocs⟩
    have hsame : List.Forall₂ (fun x y => x = y) (w.server.docs.map (moved src dest)) r.2.server.docs := by
      rw [List.forall₂_map_left_iff]
      refine hmem.imp fun d x hdx => ?_
      obtain ⟨hd, hin, hnot⟩ := hdx
      unfold moved
      by_cases hu : under src d = true
      · obtain ⟨e, he, hid, hpath, -⟩ := hp.of_mem hd hu
        rw [if_pos hu, hin e he hid, hpath]
        rfl
      · rw [if_neg hu]
        refine (hnot fun e he hid => hu ?_).symm
        obtain ⟨d', hd', hu', hid', -⟩ := hp.mem he
        rwa [List.inj_on_of_nodup_map h.ids hd hd' (hid.symm.trans hid')]
    rw [List.forall₂_eq_eq_eq] at hsame
    exact hsame.symm
  refine ⟨by rw [hruns.errors, hsilent], ?_, ?_, fun p hst hbelow => ?_⟩
  · rw [hall, List.filter_map]
    have hfilter : w.server.docs.filter (under dest ∘ moved src dest) = w.server.docs.filter (under src) :=
      List.filter_congr fun d hd => under_moved h hd
    rw [hfilter]
    exact List.map_congr_left fun d hd => if_pos (List.mem_filter.mp hd).2
  · rw [hall, List.filter_map]
    have hfilter : w.server.docs.filter ((!under dest ·) ∘ moved src dest) = w.server.docs.filter (!under src ·) :=
      List.filter_congr fun d hd => congrArg (!·) (under_moved h hd)
    rw [hfilter]
    refine (List.map_congr_left fun d hd => if_neg ?_).trans (List.map_id _)
    simpa using (List.mem_filter.mp hd).2
  · obtain ⟨x, hx, hpath⟩ := hst
    rw [hall] at hx
    obtain ⟨d, hd, rfl⟩ := List.mem_map.mp hx
    unfold moved at hpath
    by_cases hu : under src d = true
    · rw [if_pos hu] at hpath
      obtain ⟨q, hq, rfl⟩ := Option.map_eq_some_iff.mp hpath
      have hnested : src = dest ∨ Below dest src ∨ Below src dest := by
        rcases List.prefix_or_prefix_of_prefix (below_iff_starts.mp hbelow) (below_iff_starts.mp (below_image q)) with hpre | hpre
        · exact slashed_starts hpre
        · rcases slashed_starts hpre with heq | hb | hb
          · exact .inl heq.symm
          · exact .inr (.inr hb)
          · exact .inr (.inl hb)
      rcases hnested with heq | hb | hb
      · exact hne heq.symm
      · exact hout hb
      · -- the source would be under the target, and the document with it
        refine (h.free q (.inr ⟨d, hd, hq⟩)).2.2 (below_iff_starts.mpr ((below_iff_starts.mp hb).trans ?_))
        refine List.IsPrefix.trans ?_ (below_iff_starts.mp ((under_iff hq).mp hu))
        rw [toList_withSlash]
        split_ifs
        · exact List.prefix_refl _
        · exact List.prefix_append _ _
    · rw [if_neg hu] at hpath
      exact hu ((under_iff hpath).mpr hbelow)

end Entries

/-! ### When each document is mapped once -/

theorem strict (c : Client) : c.dialect.Strict := by
  cases c with
  | typescript => exact strict_typescript
  | python => exact strict_python

/-- Where the root is moved to a target that is not in it, the entry of the
profile has no path to go to. -/
theorem profile_unmovable (hroot : withSlash src = "/") (hout : ¬ Below dest src)
    (hrooted : Rooted (image src dest profilePath)) : isReservedFilepath (image src dest profilePath) = true := by
  have hbelow : Below profilePath src := by
    unfold Below
    rw [hroot]
    rfl
  obtain ⟨x, hprofile, himage⟩ : ∃ x, profilePath.toList = _ ++ x ∧ (image src dest profilePath).toList = _ ++ x :=
    image_rest hbelow
  obtain ⟨cs, hcs⟩ := startsWith_iff.mp hrooted.absolute
  change (image src dest profilePath).toList = '/' :: cs at hcs
  cases hdest : dest.toList with
  | nil =>
    obtain rfl : dest = "" := String.toList_inj.mp hdest
    have hsame : image src "" profilePath = profilePath := by
      refine String.toList_inj.mp (himage.trans (Eq.trans ?_ hprofile.symm))
      rw [hroot]
      rfl
    rw [hsame]
    exact reserved_profile
  | cons c rest =>
    -- a relative path
    have hc : c = '/' := by
      rw [himage, toList_withSlash] at hcs
      split_ifs at hcs
      · rw [hdest] at hcs
        exact (List.cons.inj hcs).1
      · rw [hdest] at hcs
        exact (List.cons.inj hcs).1
    refine absurd ?_ hout
    unfold Below
    rw [hroot]
    exact startsWith_iff.mpr ⟨rest, by rw [hdest, hc]; rfl⟩

/-- What it takes to map each document once. -/
def Mappable (c : Client) (s : Container) (src : String) : Prop :=
  Unnested s src ∧ (c = .python → withSlash src = "/" → Stands s profilePath)

theorem mappable_of_mapsOnce {c : Client} (op : TreeOp) {time : ℤ} (h : Clear c.dialect w src dest)
    (hmove : op = .move → dest ≠ src ∧ ¬ Below dest src)
    (hmaps : op.MapsOnce w src dest (op.run c (fun _ => []) time src dest w)) : Mappable c w.server src := by
  obtain ⟨v, ds, extra, batches, hruns⟩ := run_batches op c (fun _ => []) time h
  have hturns : c.turns (fun _ => []) = fun _ => [] := by
    cases c with
    | typescript => rfl
    | python => rfl
  rw [hturns] at hruns
  have hsilent : (op.run c (fun _ => []) time src dest w).1 = .ok [] := by
    cases op with
    | move => exact Moved.silent hmaps
    | copy => exact Copied.silent hmaps
  have haim := aimed_of_silent (strict c) h hruns hsilent
  refine ⟨hruns.prepared.unnested (strict c) haim fun e he => List.mem_append_left _ he, fun hc hroot => ?_⟩
  rcases hruns.more with ⟨-, hprofile⟩ | ⟨-, -, -, e, rfl, hprofile⟩
  · obtain ⟨e, he, hpath⟩ := hprofile hc hroot
    exact hpath ▸ (hruns.prepared.stands he).1
  · have he : e ∈ ds ++ [e] := List.mem_append_right _ (List.mem_singleton_self e)
    cases op with
    | move =>
      obtain ⟨-, hout⟩ := hmove rfl
      have hreserved := profile_unmovable hroot hout (hprofile ▸ strict c _ (haim.valid e he))
      rw [← hprofile, haim.unreserved e he] at hreserved
      cases hreserved
    | copy =>
      -- there would be one copy more than documents
      obtain ⟨-, harrived, -⟩ := copies_arrive (strict c) h hruns haim
      have hlen := harrived.length_eq.symm.trans (Copied.arrived hmaps).length_eq
      have hcount := hruns.prepared.entries.length_eq
      rw [List.length_map, List.length_map, List.length_append, List.length_singleton] at hlen
      omega

theorem mapsOnce_of_mappable {c : Client} {op : TreeOp} {time : ℤ} {sched : ℕ → List ℕ} (h : Clear c.dialect w src dest)
    (hmove : op = .move → dest ≠ src ∧ ¬ Below dest src) (hmap : Mappable c w.server src) :
    op.MapsOnce w src dest (op.run c sched time src dest w) := by
  obtain ⟨hun, hprofile⟩ := hmap
  obtain ⟨v, ds, extra, batches, hruns⟩ := run_batches op c sched time h
  have hnone : extra = [] := by
    rcases hruns.more with ⟨hnone, -⟩ | ⟨hc, hroot, hpaths, -⟩
    · exact hnone
    · have hbelow : Below profilePath src := by
        unfold Below
        rw [hroot]
        rfl
      obtain ⟨e, he, hpath⟩ := hruns.prepared.of_stands (hprofile hc hroot) hbelow
      exact absurd hpath (hpaths e he)
  subst hnone
  have haim := hruns.prepared.targets (strict c) h hun
  cases op with
  | move =>
    obtain ⟨hne, hout⟩ := hmove rfl
    exact moved_of_aimed (strict c) h hne hout hruns haim
  | copy => exact copied_of_aimed (strict c) h hruns haim

/-- **Each document is mapped once**, in every schedule, just if no document
under the source lies below another one and, where the Python client lists the
root, a document has the path of the profile. -/
theorem mapsOnce_iff (c : Client) (op : TreeOp) (h : Clear c.dialect w src dest)
    (hmove : op = .move → dest ≠ src ∧ ¬ Below dest src) :
    (∀ sched time, op.MapsOnce w src dest (op.run c sched time src dest w)) ↔ Mappable c w.server src :=
  ⟨fun hmaps => mappable_of_mapsOnce op h hmove (hmaps (fun _ => []) 0),
    fun hmap _ _ => mapsOnce_of_mappable h hmove hmap⟩

/-- Two directories, one in the other, and a document beside them, of a client that has looked at nothing. -/
def shelfWorld : World :=
  ⟨⟨[⟨"1", some "/src/a.md", some "one", some "done", none, none, none, none, none⟩,
      ⟨"2", some "/src/sub/b.md", some "two", some "done", none, none, none, none, none⟩,
      ⟨"3", some "/src/sub/c.md", some "three", some "done", none, none, none, none, none⟩,
      ⟨"4", some "/other.md", some "four", some "done", none, none, none, none, none⟩], [], ([], [])⟩, .new,
    .new none none fun _ => 0, []⟩

def shelfPaths : List String := ["/src/a.md", "/src/sub/b.md", "/src/sub/c.md", "/other.md"]

theorem stands_shelf (h : Stands shelfWorld.server p) : p ∈ shelfPaths := by
  obtain ⟨d, hd, hp⟩ := h
  exact List.mem_filterMap.mpr ⟨d, hd, hp⟩

theorem held_shelf (h : Held shelfWorld p) : p ∈ shelfPaths := by
  rcases h with h | h
  · exact absurd h (by simp [shelfWorld, PathIndex.new, PathIndex.isFile, PathIndex.resolve])
  · exact stands_shelf h

theorem clear_shelf (c : Client) : Clear c.dialect shelfWorld "/src" "/dst" where
  calm := rfl
  ids := by decide
  named := by decide
  distinct := by decide
  free q hq := by
    have hall : ∀ q ∈ shelfPaths, q ≠ "/dst" ∧ ¬ Below "/dst" q ∧ ¬ Below q "/dst" := by
      unfold Below
      decide
    exact hall q (held_shelf hq)
  valid p hp _ := by
    have hall : ∀ p ∈ shelfPaths, c.dialect.checkFilepath (image "/src" "/dst" p) = none := by
      cases c with
      | typescript => decide +kernel
      | python => decide +kernel
    exact hall p (stands_shelf hp)
  unreserved p hp _ := by
    have hall : ∀ p ∈ shelfPaths, isReservedFilepath (image "/src" "/dst" p) = false := by decide +kernel
    exact hall p (stands_shelf hp)

theorem mappable_shelf (c : Client) : Mappable c shelfWorld.server "/src" := by
  have hall : ∀ p ∈ shelfPaths, ∀ q ∈ shelfPaths, ¬ Below q p := by
    unfold Below
    decide
  exact ⟨fun p q hp hq _ _ => hall p (stands_shelf hp) q (stands_shelf hq), fun _ hroot => absurd hroot (by decide)⟩

/-- Both clients copy the directory and move it, in every schedule. -/
theorem mapsOnce_shelf :
    (∀ sched time, Copied shelfWorld "/src" "/dst" (TreeOp.run .copy .typescript sched time "/src" "/dst" shelfWorld)) ∧
    (∀ sched time, Moved shelfWorld "/src" "/dst" (TreeOp.run .move .typescript sched time "/src" "/dst" shelfWorld)) ∧
    (∀ sched time, Copied shelfWorld "/src" "/dst" (TreeOp.run .copy .python sched time "/src" "/dst" shelfWorld)) ∧
    ∀ sched time, Moved shelfWorld "/src" "/dst" (TreeOp.run .move .python sched time "/src" "/dst" shelfWorld) := by
  have hout : "/dst" ≠ "/src" ∧ ¬ Below "/dst" "/src" := by
    unfold Below
    decide
  exact ⟨(mapsOnce_iff .typescript .copy (clear_shelf .typescript) fun h => (nomatch h)).mpr (mappable_shelf .typescript),
    (mapsOnce_iff .typescript .move (clear_shelf .typescript) fun _ => hout).mpr (mappable_shelf .typescript),
    (mapsOnce_iff .python .copy (clear_shelf .python) fun h => (nomatch h)).mpr (mappable_shelf .python),
    (mapsOnce_iff .python .move (clear_shelf .python) fun _ => hout).mpr (mappable_shelf .python)⟩

/-- One document, of a client that has looked at nothing. -/
def freshWorld : World :=
  ⟨⟨[⟨"1", some "/a.md", some "text", some "done", none, none, none, none, none⟩], [], ([], [])⟩, .new,
    .new none none fun _ => 0, []⟩

theorem held_fresh (h : Held freshWorld q) : q = "/a.md" := by
  rcases h with h | ⟨d, hd, hp⟩
  · exact absurd h (by simp [freshWorld, PathIndex.new, PathIndex.isFile, PathIndex.resolve])
  · rw [List.mem_singleton.mp hd] at hp
    exact (Option.some.inj hp).symm

theorem clear_fresh (c : Client) : Clear c.dialect freshWorld "/" "/b" := by
  have hstands : ∀ p, Stands freshWorld.server p → p = "/a.md" := fun p hp => held_fresh (.inr hp)
  refine ⟨rfl, List.nodup_singleton _, fun d hd => ?_, List.nodup_singleton _, fun q hq => ?_, fun p hp _ => ?_,
    fun p hp _ => ?_⟩
  · rw [List.mem_singleton.mp hd]
    decide
  · rw [held_fresh hq]
    unfold Below
    decide
  · rw [hstands p hp]
    cases c with
    | typescript => decide +kernel
    | python => decide +kernel
  · rw [hstands p hp]
    decide +kernel

/-- **The counterexample.** A copy of the root by the Python client makes a
document of the profile. -/
theorem profile_copied : Clear python freshWorld "/" "/b" ∧
    (TreeOp.run .copy .python (fun _ => []) 0 "/" "/b" freshWorld).2.server.docs.map Memory.filepath =
      [some "/a.md", some "/b/a.md", some "/b/profile.md"] ∧
    ¬ Copied freshWorld "/" "/b" (TreeOp.run .copy .python (fun _ => []) 0 "/" "/b" freshWorld) := by
  refine ⟨clear_fresh .python, by decide +kernel, fun h => ?_⟩
  obtain ⟨-, hprofile⟩ := mappable_of_mapsOnce .copy (clear_fresh .python) (fun h => (nomatch h)) h
  exact absurd (held_fresh (.inr (hprofile rfl rfl))) (by decide)

end Smfs.Bash.Trees
