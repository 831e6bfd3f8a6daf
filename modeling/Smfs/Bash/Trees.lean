/-
# Trees that are moved or copied

Both clients list what is under the source and start a job for each entry, one
in batches whose jobs take turns, the other one job after another. The entries
are of the documents under the source; the listing of the root in the Python
client has one more, for the profile. Jobs that run one after another and all
succeed have targets that may be written and are apart from each other.

Key definitions: `Client`, `TreeOp.run`, `Clear`, `Lands`, `Prepared`, `Runs`.
Key theorems: `apart_of_runAll`, `prepared`, `run_batches`.
-/
import Smfs.Bash.Moving

namespace Smfs.Bash.Trees

open Turns Relation Shape

/-! ### The clients and their operations -/

inductive Client
  | typescript
  | python
  deriving DecidableEq

def Client.dialect : Client → Dialect
  | .typescript => Bash.typescript
  | .python => Bash.python

inductive TreeOp
  | move
  | copy
  deriving DecidableEq

/-- The errors of the operation. The jobs of the TypeScript client take turns as
`sched` says; `time` is the clock of the other. -/
def TreeOp.run (op : TreeOp) (c : Client) (sched : ℕ → List ℕ) (time : ℤ) (src dest : String) (w : World) :
    Except Thrown (List Thrown) × World :=
  match op, c with
  | .move, .typescript => eval (moveTree sched src dest) w
  | .copy, .typescript => eval (copyTree sched src dest) w
  | .move, .python => ((eval (Py.moveTree time src dest) w).1.map Py.TreeResult.errors,
    (eval (Py.moveTree time src dest) w).2)
  | .copy, .python => ((eval (Py.copyTree time src dest) w).1.map Py.TreeResult.errors,
    (eval (Py.copyTree time src dest) w).2)

/-- The document is under the directory. -/
def under (dir : String) (d : Memory) : Bool := d.filepath.any fun p => startsWith p (withSlash dir)

/-- What an operation on trees may meet: no fates, documents with paths of their
own, nothing at, above or below the target, and paths there that may be written. -/
structure Clear (D : Dialect) (w : World) (src dest : String) : Prop where
  calm : w.fates = []
  ids : (w.server.docs.map Memory.id).Nodup
  named : ∀ d ∈ w.server.docs, d.id ≠ ""
  distinct : (w.server.docs.filterMap Memory.filepath).Nodup
  free : ∀ q, Held w q → q ≠ dest ∧ ¬ Below dest q ∧ ¬ Below q dest
  valid : ∀ p, Stands w.server p → Below p src → D.checkFilepath (image src dest p) = none
  unreserved : ∀ p, Stands w.server p → Below p src → isReservedFilepath (image src dest p) = false

variable {D : Dialect} {α : Type} {v w t : World} {src dest p q : String} {es : List DocSummary} {e : DocSummary}

theorem under_iff {d : Memory} (hp : d.filepath = some p) : under src d = true ↔ Below p src := by
  unfold under
  rw [hp]
  exact Iff.rfl

/-! ### What a job that succeeds has met -/

/-- Nothing leaves the index. -/
def Grows (w t : World) : Prop := ∀ q, w.index.isFile q = true → t.index.isFile q = true

theorem Grows.of_steps (h : ReflTransGen Grows w t) : Grows w t := by
  induction h with
  | refl => exact fun _ hq => hq
  | tail _ h ih => exact fun q hq => h q (ih q hq)

theorem grows_send {β : Type} (call : List (String × String) → Container → Except ApiError β × Container) (w : World) :
    Grows w (w.send call).2 := fun _ hq => (send_kept w call).1 ▸ hq

theorem grows_insert {id : String} (hindex : t.index = w.index.insert p id) : Grows w t :=
  fun _ hq => hindex ▸ isFile_insert.mpr (.inr hq)

theorem sections_grows (D : Dialect) (p : String) : Sections Grows (D.lookupDocId p) := by
  unfold Dialect.lookupDocId
  refine Sections.bind (sections_sync fun _ _ hq => hq) fun known => ?_
  cases known with
  | some id => exact sections_pure _
  | none =>
    refine Sections.bind (sections_sync fun w => grows_send _ w) fun answer => ?_
    cases answer with
    | error e => exact sections_throw _
    | ok resp =>
      dsimp only
      cases resp.memories.head? with
      | none => exact sections_pure _
      | some m =>
        dsimp only
        split_ifs
        · exact Sections.bind (sections_sync fun w => grows_insert rfl) fun _ => sections_pure _
        · exact sections_pure _

theorem lookup_grows {r : Except Thrown (Option String)} (h : eval (D.lookupDocId p) w = (r, t)) : Grows w t := by
  have hsteps := (sections_grows D p).eval w
  rw [h] at hsteps
  exact .of_steps hsteps

/-- A job that succeeds has found that its target may be written, and leaves it
indexed, with all that was indexed but for its source. -/
def Lands (D : Dialect) (source target : String) (job : Vol α) : Prop :=
  ∀ w a t, eval job w = (.ok a, t) → (∃ intent, D.assertWritable w.index target intent = none) ∧
    t.index.isFile target = true ∧ ∀ q, q ≠ source → w.index.isFile q = true → t.index.isFile q = true

theorem addDoc_lands (D : Dialect) (source target data : String) :
    Lands D source target (D.addDoc target (.text data)) := by
  intro w a t h
  unfold Dialect.addDoc at h
  dsimp only at h
  rw [eval_bind, eval_look, andThen_ok] at h
  cases ha : D.assertWritable w.index target .addDoc with
  | some e =>
    rw [ha] at h
    cases congrArg Prod.fst h
  | none =>
    rw [ha] at h
    dsimp only at h
    rw [eval_bind, eval_look, andThen_ok, eval_bind, eval_request, andThen_ok] at h
    generalize hcall : writeCall (truthy (w.index.resolve target)) target data = call at h
    have hgrows := grows_send call w
    generalize w.send call = r at h hgrows
    obtain ⟨answer, u⟩ := r
    cases answer with
    | error e => cases congrArg Prod.fst h
    | ok m =>
      dsimp only at h
      rw [eval_bind, eval_sync, andThen_ok, eval_pure] at h
      obtain rfl := congrArg Prod.snd h
      refine ⟨⟨_, ha⟩, isFile_insert.mpr (.inl rfl), fun q _ hq => isFile_insert.mpr (.inr (hgrows q hq))⟩

theorem renameDoc_lands {docId source target : String} {a : Unit}
    (h : eval (D.renameDoc docId source target) w = (.ok a, t)) :
    t.index.isFile target = true ∧ ∀ q, q ≠ source → w.index.isFile q = true → t.index.isFile q = true := by
  unfold Dialect.renameDoc at h
  rw [eval_bind, eval_request, andThen_ok] at h
  have hgrows := grows_send (renameCall docId target) w
  generalize w.send (renameCall docId target) = r at h hgrows
  obtain ⟨answer, u⟩ := r
  cases answer with
  | error e =>
    dsimp only at h
    split_ifs at h
    · cases congrArg Prod.fst h
    · cases congrArg Prod.fst h
    · cases congrArg Prod.fst h
  | ok m =>
    obtain rfl := congrArg Prod.snd h
    refine ⟨isFile_insert.mpr (.inl rfl), fun q hq hfile => isFile_insert.mpr (.inr ?_)⟩
    exact isFile_remove.mpr ⟨hq, hgrows q hfile⟩

theorem moveDoc_lands (D : Dialect) (source target : String) : Lands D source target (D.moveDoc source target) := by
  intro w a t h
  unfold Dialect.moveDoc at h
  rw [eval_bind, eval_look, andThen_ok] at h
  cases ha : D.assertWritable w.index target .moveDoc with
  | some e =>
    rw [ha] at h
    cases congrArg Prod.fst h
  | none =>
    rw [ha] at h
    obtain ⟨found, u, hsource, h⟩ := eval_bind_ok h
    have hu : Grows w u := lookup_grows hsource
    cases hfound : truthy found with
    | none =>
      rw [hfound] at h
      cases congrArg Prod.fst h
    | some docId =>
      rw [hfound] at h
      obtain ⟨there, x, htarget, h⟩ := eval_bind_ok h
      have hx : Grows u x := lookup_grows htarget
      cases hthere : truthy there with
      | some _ =>
        rw [hthere] at h
        cases congrArg Prod.fst h
      | none =>
        rw [hthere] at h
        obtain ⟨hfile, hrest⟩ := renameDoc_lands h
        exact ⟨⟨_, ha⟩, hfile, fun q hq hqw => hrest q hq (hx q (hu q hqw))⟩

theorem run_caught (job : Vol α) (w : World) :
    (caught job).run w = (match (eval job w).1 with | .ok _ => none | .error e => some e, (eval job w).2) := by
  unfold caught
  rw [Async.run_bind]
  unfold eval
  generalize Async.run job.run w = r
  obtain ⟨answer, t⟩ := r
  cases answer with
  | ok a => rfl
  | error e => rfl

/-- A path that is apart from another: neither is below the other. -/
def Apart (p q : String) : Prop := ¬ Below p q ∧ ¬ Below q p

/-- **What the jobs of an operation have met**, one after another and all
without an error: their targets may be written, and are apart from each other
and from what was indexed at the start. -/
theorem apart_of_runAll (hD : D.Strict) {target : DocSummary → String} {task : DocSummary → Vol α}
    (hlands : ∀ e ∈ es, Lands D e.filepath (target e) (task e))
    (hsources : ∀ e ∈ es, isReservedFilepath (target e) = false → ∀ e' ∈ es, target e ≠ e'.filepath)
    (h : ∀ a ∈ (runAll (es.map fun e => caught (task e)) w).1, a = none) :
    (∀ e ∈ es, D.checkFilepath (target e) = none ∧ isReservedFilepath (target e) = false) ∧
      es.Pairwise (fun e e' => Apart (target e) (target e')) ∧
      ∀ q, Rooted q → w.index.isFile q = true → (∀ e ∈ es, q ≠ e.filepath) → ∀ e ∈ es, Apart q (target e) := by
  induction es generalizing w with
  | nil => exact ⟨fun _ he => (nomatch he), .nil, fun _ _ _ _ _ he => (nomatch he)⟩
  | cons e es ih =>
    rw [List.map_cons, runAll, run_caught] at h
    cases hrun : eval (task e) w with
    | mk answer t =>
      rw [hrun] at h
      dsimp only at h
      cases answer with
      | error err => cases h _ List.mem_cons_self
      | ok a =>
        obtain ⟨⟨intent, hwritable⟩, hfile, hkept⟩ := hlands e List.mem_cons_self w a t hrun
        obtain ⟨hvalid, hunreserved, hapart⟩ := Dialect.apart_of_assertWritable hD hwritable
        obtain ⟨hrest, hpairs, hlater⟩ := ih (w := t) (fun e' he' => hlands e' (List.mem_cons_of_mem e he'))
          (fun e' he' hr e'' he'' => hsources e' (List.mem_cons_of_mem e he') hr e'' (List.mem_cons_of_mem e he''))
          (fun a ha => h a (List.mem_cons_of_mem _ ha))
        refine ⟨fun e' he' => ?_, List.pairwise_cons.mpr ⟨fun e' he' => ?_, hpairs⟩, fun q hq hqw hqs e' he' => ?_⟩
        · rcases List.mem_cons.mp he' with rfl | he'
          · exact ⟨hvalid, hunreserved⟩
          · exact hrest e' he'
        · -- what this job wrote stays indexed
          exact hlater (target e) (hD _ hvalid) hfile
            (fun e'' he'' => hsources e List.mem_cons_self hunreserved e'' (List.mem_cons_of_mem e he'')) e' he'
        · rcases List.mem_cons.mp he' with rfl | he'
          · exact hapart q hq hqw
          · exact hlater q hq (hkept q (hqs e List.mem_cons_self) hqw) (fun e'' he'' =>
              hqs e'' (List.mem_cons_of_mem e he'')) e' he'

/-- The batches of a schedule in which nobody waits for a turn. -/
theorem runBatches_alone (n : ℕ) (batches : List (List (Async World (Option Thrown)))) (w : World) :
    runBatches (fun _ => []) n batches w = ((runAll batches.flatten w).1.filterMap id,
      (runAll batches.flatten w).2) := by
  induction batches generalizing n w with
  | nil => rfl
  | cons batch rest ih =>
    have hstep : runBatches (fun _ => []) n (batch :: rest) w =
        ((runAll batch w).1.filterMap id ++ (runBatches (fun _ => []) (n + 1) rest (runAll batch w).2).1,
          (runBatches (fun _ => []) (n + 1) rest (runAll batch w).2).2) := rfl
    rw [hstep, ih, List.flatten_cons, runAll_append, List.filterMap_append]

/-! ### What is listed -/

/-- The entry is of the document. -/
def EntryOf (withContent : Bool) (d : Memory) (e : DocSummary) : Prop :=
  e.id = d.id ∧ d.filepath = some e.filepath ∧ (withContent = true → e.content = d.content)

theorem under_eq (d : Memory) : under src d = (taken (withSlash src) false d).isSome := by
  unfold under taken
  cases d.filepath with
  | none => rfl
  | some p =>
    rw [Option.any_some, Option.filter_some]
    by_cases h : startsWith p (withSlash src) = true
    · simp [h]
    · simp [h]

theorem withSlash_ne (dir : String) : withSlash dir ≠ "" := by
  intro h
  have hslash := endsWithSlash_withSlash dir
  rw [h] at hslash
  cases hslash

theorem taken_shown (b : Bool) (d : Memory) : taken (withSlash src) false (shown b d) =
    taken (withSlash src) false d := by
  cases b with
  | false => rfl
  | true => rfl

/-- The documents that are asked for and taken are those under the source. -/
theorem entriesOf (b : Bool) (docs : List Memory) : List.Forall₂ (EntryOf b) (docs.filter (under src))
    (((docs.filter (Container.listed (filterArgFor (withSlash src) false))).map (shown b)).filterMap fun m =>
      (taken (withSlash src) false m).map m.summary) := by
  induction docs with
  | nil => exact .nil
  | cons d docs ih =>
    cases ht : taken (withSlash src) false d with
    | none =>
      have hnone : (taken (withSlash src) false (shown b d)).map (shown b d).summary = none := by
        rw [taken_shown, ht]
        rfl
      rw [List.filter_cons_of_neg (by rw [under_eq, ht]; exact Bool.false_ne_true)]
      by_cases hl : Container.listed (filterArgFor (withSlash src) false) d = true
      · rw [List.filter_cons_of_pos hl, List.map_cons, List.filterMap_cons_none (f := fun m =>
          (taken (withSlash src) false m).map m.summary) hnone]
        exact ih
      · rw [List.filter_cons_of_neg hl]
        exact ih
    | some p =>
      have hsome : (taken (withSlash src) false (shown b d)).map (shown b d).summary =
        some ((shown b d).summary p) := by
        rw [taken_shown, ht]
        rfl
      have hl : Container.listed (filterArgFor (withSlash src) false) d = true := by
        rw [filterArgFor, if_neg (withSlash_ne src), if_neg Bool.false_ne_true]
        exact listed_of_taken (endsWithSlash_withSlash src) ht
      rw [List.filter_cons_of_pos (by rw [under_eq, ht]; rfl), List.filter_cons_of_pos hl, List.map_cons,
        List.filterMap_cons_some (f := fun m => (taken (withSlash src) false m).map m.summary) hsome]
      refine .cons ⟨?_, (taken_some.mp ht).1, fun hb => ?_⟩ ih
      · cases b with
        | false => rfl
        | true => rfl
      · rw [hb]
        rfl

/-- The world after the listing, and its entries. -/
structure Prepared (w : World) (src : String) (withContent : Bool) (v : World) (ds : List DocSummary) : Prop where
  server : v.server = w.server
  calm : v.fates = []
  held : ∀ q, Held v q → Held w q
  entries : List.Forall₂ (EntryOf withContent) (w.server.docs.filter (under src)) ds
  knows : ∀ e ∈ ds, v.index.resolve e.filepath = some e.id

theorem prepared (h : Clear D w src dest) (b : Bool) : ∃ v ds,
    eval (listByPrefix (withSlash src) { withContent := b }) w = (.ok ds, v) ∧ Prepared w src b v ds := by
  have hlisted := listByPrefix_listed (w := w) (withSlash src) { withContent := b } rfl
  rw [eval_listByPrefix h.calm] at hlisted ⊢
  refine ⟨_, _, rfl, ?_⟩
  obtain ⟨hserver, hfates, -, -⟩ : (visit (withSlash src) { withContent := b } _ [] w).2.server = _ ∧ _ :=
    visit_kept (asked w.server (withSlash src) { withContent := b }) [] w
  have hentries : List.Forall₂ (EntryOf b) (w.server.docs.filter (under src)) _ := entriesOf b w.server.docs
  refine ⟨hserver, hfates.trans h.calm, fun q hq => (hlisted.within.held q hq).elim id False.elim, ?_, fun e he => ?_⟩
  · rw [visit_entries rfl, List.nil_append]
    exact hentries
  · rw [visit_entries rfl, List.nil_append] at he
    obtain ⟨m, hm, hsummary⟩ := List.mem_filterMap.mp he
    obtain ⟨q, ht, rfl⟩ := Option.map_eq_some_iff.mp hsummary
    refine visit_knows rfl ?_ hm ht [] w
    have hpaths : (asked w.server (withSlash src) { withContent := b }).filterMap (taken (withSlash src) false) =
        pathsUnder w.server (withSlash src) := by
      unfold asked
      rw [List.filterMap_map]
      refine (List.filterMap_congr fun d _ => taken_shown b d).trans ?_
      rw [filterArgFor, if_neg (withSlash_ne src), if_neg Bool.false_ne_true]
      exact taken_of_listed (endsWithSlash_withSlash src)
    have hsub : (pathsUnder w.server (withSlash src)).Sublist (w.server.docs.filterMap Memory.filepath) := by
      have hfilter : pathsUnder w.server (withSlash src) =
          (w.server.docs.filterMap Memory.filepath).filter (startsWith · (withSlash src)) := by
        rw [List.filter_filterMap]
        refine List.filterMap_congr fun d _ => ?_
        unfold taken
        simp
      rw [hfilter]
      exact List.filter_sublist
    rw [show ({ withContent := b } : ListByPrefixOpts).exact = false from rfl, hpaths]
    exact h.distinct.sublist hsub

/-! ### The jobs of an operation -/

/-- The job of an entry. -/
def TreeOp.task (op : TreeOp) (D : Dialect) (src dest : String) (e : DocSummary) : Async World (Option Thrown) :=
  match op with
  | .move => caught (D.moveDoc e.filepath (image src dest e.filepath))
  | .copy => caught (D.addDoc (image src dest e.filepath) (.text (e.content.getD "")))

theorem eval_oneByOne (jobs : List (Vol α)) (w : World) :
    eval (Py.oneByOne jobs) w = (.ok ((runAll (jobs.map caught) w).1.filterMap id),
      (runAll (jobs.map caught) w).2) := by
  have hlift : ∀ (x : Async World (Option Thrown)) (w : World), eval (ExceptT.lift x : Vol (Option Thrown)) w =
      (.ok (x.run w).1, (x.run w).2) := fun x w => Async.run_bind x _ w
  induction jobs generalizing w with
  | nil => rfl
  | cons job jobs ih =>
    unfold Py.oneByOne
    rw [eval_bind, hlift, andThen_ok, eval_bind, ih, andThen_ok, eval_pure, List.map_cons, runAll]
    dsimp only
    cases ((caught job).run w).1 with
    | none => rfl
    | some e => rfl

/-- What the listing of the Python client has beyond the documents: at the root
an entry for the profile, where no document has its path. -/
def Extra (c : Client) (src : String) (ds extra : List DocSummary) : Prop :=
  (extra = [] ∧ (c = .python → withSlash src = "/" → ∃ e ∈ ds, e.filepath = profilePath)) ∨
  (c = .python ∧ withSlash src = "/" ∧ (∀ e ∈ ds, e.filepath ≠ profilePath) ∧ ∃ e, extra = [e] ∧
    e.filepath = profilePath)

theorem withProfile_extra (src : String) (time : ℤ) (ds : List DocSummary) :
    ∃ extra, Py.withProfile time (withSlash src) false ds = ds ++ extra ∧ Extra .python src ds extra := by
  unfold Py.withProfile
  by_cases hroot : withSlash src = "/"
  · by_cases hany : ds.any (·.filepath = profilePath) = true
    · refine ⟨[], ?_, .inl ⟨rfl, fun _ _ => ?_⟩⟩
      · rw [hany]
        simp
      · obtain ⟨e, he, hp⟩ := List.any_eq_true.mp hany
        exact ⟨e, he, of_decide_eq_true hp⟩
    · refine ⟨[⟨Py.virtualId, profilePath, .done, 0, time, none⟩], ?_,
        .inr ⟨rfl, hroot, fun e he hp => hany ?_, _, rfl, rfl⟩⟩
      · rw [eq_false_of_ne_true hany, hroot]
        simp
      · exact List.any_eq_true.mpr ⟨e, he, decide_eq_true hp⟩
  · refine ⟨[], ?_, .inl ⟨rfl, fun _ h => absurd h hroot⟩⟩
    rw [List.append_nil, if_neg]
    simp [hroot, withSlash_ne src]

/-- An operation lists, runs the job of each entry, in batches or in one row,
and gives their errors. -/
structure Runs (op : TreeOp) (c : Client) (sched : ℕ → List ℕ) (w : World) (src dest : String)
    (r : Except Thrown (List Thrown) × World) (v : World) (ds extra : List DocSummary)
    (batches : List (List (Async World (Option Thrown)))) : Prop where
  prepared : Prepared w src (op = .copy) v ds
  more : Extra c src ds extra
  jobs : batches.flatten = (ds ++ extra).map (op.task c.dialect src dest)
  errors : r.1 = .ok (runBatches sched 0 batches v).1
  server : r.2.server = (runBatches sched 0 batches v).2.server

/-- The schedule of the jobs: those of the Python client run in one row. -/
def Client.turns (c : Client) (sched : ℕ → List ℕ) : ℕ → List ℕ :=
  match c with
  | .typescript => sched
  | .python => fun _ => []

theorem EntryOf.resized {b : Bool} {d : Memory} (h : EntryOf b d e) : EntryOf b d (Py.resized e) := h

theorem Prepared.resized {b : Bool} {ds : List DocSummary} (h : Prepared w src b v ds) :
    Prepared w src b v (ds.map Py.resized) := by
  refine ⟨h.server, h.calm, h.held, ?_, fun e he => ?_⟩
  · rw [List.forall₂_map_right_iff]
    exact h.entries.imp fun _ _ => EntryOf.resized
  · obtain ⟨e', he', rfl⟩ := List.mem_map.mp he
    exact h.knows e' he'

/-- The listing of the Python client. -/
theorem Py.prepared (h : Clear D w src dest) (time : ℤ) (b : Bool) : ∃ v ds extra,
    eval (Py.listByPrefix time (withSlash src) { withContent := b }) w = (.ok (ds ++ extra), v) ∧
      Prepared w src b v ds ∧
      Extra .python src ds extra := by
  obtain ⟨v, ds, hlist, hprepared⟩ := Trees.prepared h b
  obtain ⟨extra, hwith, hextra⟩ := withProfile_extra src time (ds.map Py.resized)
  refine ⟨v, ds.map Py.resized, extra, ?_, hprepared.resized, hextra⟩
  rw [Py.eval_listByPrefix]
  show andThen (eval (listByPrefix (withSlash src) { withContent := b }) w) _ = _
  rw [hlist, andThen_ok, hwith]

/-- What follows the listing: the jobs, and marks on the index. -/
theorem allAtOnce_runs (op : TreeOp) {sched : ℕ → List ℕ} {ds : List DocSummary} {f g : PathIndex → PathIndex}
    (hprepared : Prepared w src (op = .copy) v ds) :
    Runs op .typescript sched w src dest (eval (do
      let errors ← allAtOnce sched (ds.map (op.task typescript src dest))
      changeIndex f
      changeIndex g
      return errors : Vol (List Thrown)) v) v ds [] ((ds.map (op.task typescript src dest)).toChunks concurrency) := by
  refine ⟨hprepared, .inl ⟨rfl, fun hc => (nomatch hc)⟩, ?_, rfl, rfl⟩
  rw [Paging.flatten_toChunks, List.append_nil]
  rfl

theorem oneByOne_runs (op : TreeOp) {ds extra : List DocSummary} {f g : PathIndex → PathIndex}
    {jobs : List (Vol α)} {n : ℕ}
    (hprepared : Prepared w src (op = .copy) v ds) (hextra : Extra .python src ds extra)
    (hjobs : jobs.map caught = (ds ++ extra).map (op.task python src dest)) {r : Except Thrown Py.TreeResult × World}
    (hr : eval (do
      let errors ← Py.oneByOne jobs
      changeIndex f
      changeIndex g
      return ⟨n - errors.length, errors⟩ : Vol Py.TreeResult) v = r) :
    Runs op .python (fun _ => []) w src dest (r.1.map Py.TreeResult.errors,
      r.2) v ds extra [(ds ++ extra).map (op.task python src dest)] := by
  rw [eval_bind, eval_oneByOne, andThen_ok, hjobs] at hr
  refine ⟨hprepared, hextra, ?_, ?_, ?_⟩
  · rw [List.flatten_cons, List.flatten_nil, List.append_nil]
    rfl
  · rw [runBatches_alone, List.flatten_cons, List.flatten_nil, List.append_nil, ← hr]
    rfl
  · rw [runBatches_alone, List.flatten_cons, List.flatten_nil, List.append_nil, ← hr]
    rfl

theorem run_batches (op : TreeOp) (c : Client) (sched : ℕ → List ℕ) (time : ℤ) (h : Clear c.dialect w src dest) :
    ∃ v ds extra batches, Runs op c (c.turns sched) w src dest (op.run c sched time src dest w) v ds extra batches := by
  cases c with
  | typescript =>
    cases op with
    | move =>
      obtain ⟨v, ds, hlist, hprepared⟩ := prepared h false
      refine ⟨v, ds, [], (ds.map (TreeOp.task .move typescript src dest)).toChunks concurrency, ?_⟩
      unfold TreeOp.run moveTree
      dsimp only
      rw [eval_bind, hlist, andThen_ok]
      exact allAtOnce_runs .move hprepared
    | copy =>
      obtain ⟨v, ds, hlist, hprepared⟩ := prepared h true
      refine ⟨v, ds, [], (ds.map (TreeOp.task .copy typescript src dest)).toChunks concurrency, ?_⟩
      unfold TreeOp.run copyTree
      dsimp only
      rw [eval_bind, hlist, andThen_ok]
      exact allAtOnce_runs .copy hprepared
  | python =>
    cases op with
    | move =>
      obtain ⟨v, ds, extra, hlist, hprepared, hextra⟩ := Py.prepared h time false
      refine ⟨v, ds, extra, [(ds ++ extra).map (TreeOp.task .move python src dest)], ?_⟩
      unfold TreeOp.run Py.moveTree
      dsimp only
      rw [eval_bind, hlist, andThen_ok]
      exact oneByOne_runs .move hprepared hextra (List.map_map) rfl
    | copy =>
      obtain ⟨v, ds, extra, hlist, hprepared, hextra⟩ := Py.prepared h time true
      refine ⟨v, ds, extra, [(ds ++ extra).map (TreeOp.task .copy python src dest)], ?_⟩
      unfold TreeOp.run Py.copyTree
      dsimp only
      rw [eval_bind, hlist, andThen_ok]
      exact oneByOne_runs .copy hprepared hextra (List.map_map) rfl

end Smfs.Bash.Trees
