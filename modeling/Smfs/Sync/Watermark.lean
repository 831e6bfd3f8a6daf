/-
# What the pull watermark vouches for

A delta pull trusts that it has dealt with every version at or below the
stored watermark. It need not have: the watermark is the newest `updatedAt`
listed, whatever became of the document; a version that comes later with the
same `updatedAt` is below it; and pages shift while they are read.

Kept beside the database are all versions the server has held, the ones that
were applied or skipped because the file is dirty, and those that the pull
under way has been handed. `watermark_sound` proves the watermark sound in
every run in which each version handed over is dealt with, each new version is
newer than the watermark and than all the pull was handed, and nothing newer
than the watermark falls back behind the reader (`PullOk`). In `passed_over`
two versions share an `updatedAt`, and the second is never pulled.

Key definitions: `Watermark.St`, `Watermark.step`, `Watermark.Sound`, `Watermark.PullOk`.
Key theorems: `Watermark.step_inv`, `Watermark.watermark_sound`, `Watermark.passed_over`.
-/
import Smfs.Lib.Paging
import Smfs.Lib.Reach
import Smfs.Pull

namespace Smfs
namespace Watermark

open Trans Paging Pull

/-- A `Document` is one version of a document. -/
structure St where
  db : Db
  phase : Pull.Phase
  server : List Document
  held : List Document
  settled : List Document
  handed : List Document
  deriving DecidableEq

inductive Act
  | delta
  | full
  | request
  | requestFails
  | next (nowMs : ℤ)
  | rehydrate (fetched : Option Bytes)
  | store
  /-- Documents come, go and are edited on the server. -/
  | server (docs : List Document)
  /-- The rest of the mount changes the database. -/
  | change (db : Db)

/-- The version is in the cache, or the file is dirty and it is left out. -/
def settles (doc : Document) : Except VfsError ReconcileOutcome → Bool
  | .ok .created | .ok .attached | .ok .unchanged | .ok .skippedDirty => true
  | .ok .updated => doc.status = "done"
  | _ => false

/-- The bytes of a raw file have come. -/
def rehydrates (db : Db) (doc : Document) (fetched : Option Bytes) : Bool :=
  doc.url.isSome && (db.inoByRemoteId doc.id).isSome && fetched.isSome

/-- The server lists by descending `updatedAt`. -/
def Listed (docs : List Document) : Prop :=
  docs.Pairwise (fun d e => e.updatedAt ≤ d.updatedAt) ∧ (docs.map Document.id).Nodup

instance (docs : List Document) : Decidable (Listed docs) := by
  unfold Listed
  infer_instance

/-- A later version of a document has no earlier `updatedAt`. -/
def Follows (held : List Document) (e : Document) : Prop :=
  ∀ d ∈ held, d.id = e.id → d.updatedAt ≤ e.updatedAt

instance (held : List Document) (e : Document) : Decidable (Follows held e) := by
  unfold Follows
  infer_instance

def step (s : St) : Act → Option St
  | .delta =>
    match s.phase with
    | .idle => some { s with phase := deltaPull s.db }
    | _ => none
  | .full =>
    match s.phase with
    | .idle => some { s with phase := fullPull }
    | _ => none
  | .request =>
    match s.phase with
    | .listing v page =>
      let docs := Paging.page PAGE_SIZE s.server page
      some { s with phase := gotPage v page docs (totalPages PAGE_SIZE s.server), handed := s.handed ++ docs }
    | _ => none
  | .requestFails =>
    match s.phase with
    | .listing .. => some { s with phase := .idle, handed := [] }
    | _ => none
  | .next now =>
    match s.phase with
    | .docs v page total [] => some { s with phase := nextPage v page total }
    | .docs v page total (doc :: rest) =>
      let r := reconcileNext v page total doc rest s.db now
      let dealt := !hitsWatermark v doc && settles doc (Fs.reconcileOne s.db doc now).1
      some { s with phase := r.1, db := r.2, settled := if dealt then s.settled ++ [doc] else s.settled }
    | _ => none
  | .rehydrate fetched =>
    match s.phase with
    | .rehydrating v page total doc rest =>
      some { s with phase := .docs (v.counted doc) page total rest, db := rehydrateIfPossible s.db doc fetched,
                    settled := if rehydrates s.db doc fetched then s.settled ++ [doc] else s.settled }
    | _ => none
  | .store =>
    match s.phase with
    | .storing v => some { s with phase := .idle, db := Pull.store s.db v, handed := [] }
    | _ => none
  | .server docs =>
    if Listed docs ∧ ∀ e ∈ docs, e ∈ s.server ∨ Follows s.held e then
      some { s with server := docs, held := s.held ++ docs }
    else none
  | .change db => if lastSeen db = lastSeen s.db then some { s with db := db } else none

/-- A version was applied or deliberately skipped, or a newer one has taken
its place, or its document is deleted. -/
def Accounted (s : St) (d : Document) : Prop :=
  d ∈ s.settled ∨ (∃ e ∈ s.server, e.id = d.id ∧ e ≠ d ∧ d.updatedAt ≤ e.updatedAt) ∨
    ∀ e ∈ s.server, e.id ≠ d.id

/-- Every version at or below the stored watermark is accounted for. -/
def Sound (s : St) : Prop :=
  ∀ w, lastSeen s.db = some w → ∀ d ∈ s.held, d.updatedAt ≤ w → Accounted s d

/-- Newer than the stored watermark. -/
def New (s : St) (d : Document) : Prop := ∀ w, lastSeen s.db = some w → w < d.updatedAt

/-- How many pages a pull that is to request another one has read. -/
def pagesRead : Pull.Phase → Option ℕ
  | .listing _ page => some (page - 1)
  | .docs _ page total _ | .rehydrating _ page total _ _ => if total ≤ page then none else some page
  | _ => none

/-- Each version handed over is dealt with; a version that comes is newer than
the watermark and than what the pull was handed, also where it shares a page
boundary with an equal; and nothing new falls back behind the reader. -/
def PullOk (s : St) : Act → Prop
  | .request => ∀ v page, s.phase = .listing v page →
      ∀ d ∈ s.server.take ((page - 1) * PAGE_SIZE), d ∉ s.handed → New s d →
        ∀ f ∈ Paging.page PAGE_SIZE s.server page, f.updatedAt ≠ d.updatedAt
  | .next now => ∀ v page total doc rest, s.phase = .docs v page total (doc :: rest) →
      hitsWatermark v doc = false → settles doc (Fs.reconcileOne s.db doc now).1 = true ∨
        (Fs.reconcileOne s.db doc now).1 = .ok .needsRehydrate
  | .rehydrate fetched => ∀ v page total doc rest, s.phase = .rehydrating v page total doc rest →
      rehydrates s.db doc fetched = true
  | .server docs =>
      (∀ e ∈ docs, e ∉ s.server → New s e ∧ ∀ f ∈ s.handed, f.updatedAt < e.updatedAt) ∧
      ∀ n, pagesRead s.phase = some n → ∀ d ∈ ahead PAGE_SIZE s.server n, New s d → d ∈ docs →
        d ∈ ahead PAGE_SIZE docs n
  | _ => True

/-! ### The invariant -/

/-- The version came after all that the pull was handed. -/
def Late (s : St) (d : Document) : Prop := s.handed ≠ [] ∧ ∀ f ∈ s.handed, f.updatedAt < d.updatedAt

/-- With nothing more to come than `rest`. -/
def Done (s : St) (rest : List Document) : Prop :=
  ∀ d ∈ s.server, d ∈ s.settled ∨ d ∈ rest ∨ Late s d

/-- With `rest` and what lies behind the first `n` pages still to come. -/
def Reading (s : St) (n : ℕ) (rest : List Document) : Prop :=
  ∀ d ∈ s.server, d ∈ s.settled ∨ d ∈ rest ∨ Late s d ∨
    d ∈ ahead PAGE_SIZE s.server n ∧ ∀ f ∈ rest, d.updatedAt ≤ f.updatedAt

/-- The pull goes by the stored watermark or by none, and has come across
what it is to store. -/
structure VarsOk (s : St) (v : Vars) : Prop where
  lastSeen : v.lastSeen = "" ∨ Pull.lastSeen s.db = some v.lastSeen
  newest : v.newestSeen = v.lastSeen ∨ ∃ f ∈ s.handed, f.updatedAt = v.newestSeen

/-- A pull in the middle of a page. -/
structure PageOk (s : St) (v : Vars) (page total : ℕ) (rest : List Document) : Prop where
  vars : VarsOk s v
  handed : s.handed ≠ []
  known : rest ⊆ s.handed
  sorted : rest.Pairwise fun d e => e.updatedAt ≤ d.updatedAt
  last : total ≤ page → Done s rest
  more : page < total → Reading s page rest

def PhaseOk (s : St) : Prop :=
  match s.phase with
  | .idle => s.handed = []
  | .listing v page => VarsOk s v ∧ 1 ≤ page ∧ (s.handed = [] → page = 1) ∧ Reading s (page - 1) []
  | .docs v page total rest => PageOk s v page total rest
  | .rehydrating v page total doc rest => PageOk s v page total (doc :: rest)
  | .storing v => VarsOk s v ∧ (s.handed ≠ [] → Done s [])

structure Inv (s : St) : Prop where
  phase : PhaseOk s
  listed : Listed s.server
  held : s.server ⊆ s.held
  follows : ∀ e ∈ s.server, Follows s.held e
  sound : ∀ d ∈ s.server, ¬ New s d → d ∈ s.settled

/-- A mount that has never pulled. -/
structure Start (s : St) : Prop where
  phase : s.phase = .idle
  handed : s.handed = []
  listed : Listed s.server
  held : s.held = s.server
  watermark : lastSeen s.db = none

theorem Start.inv {s : St} (h : Start s) : Inv s where
  phase := by
    unfold PhaseOk
    rw [h.phase]
    exact h.handed
  listed := h.listed
  held := by
    rw [h.held]
    exact List.Subset.refl _
  follows := by
    intro e he d hd hid
    rw [h.held] at hd
    have hde : d = e := List.inj_on_of_nodup_map h.listed.2 hd he hid
    rw [hde]
  sound := by
    intro d _ hnew
    refine absurd (fun w hw => ?_) hnew
    rw [h.watermark] at hw
    cases hw

theorem pageSize_pos : 0 < PAGE_SIZE := by decide

/-! ### Handing over a page -/

/-- Before the first request everything lies ahead. -/
theorem begin_reading {s : St} : Reading s 0 [] := by
  intro d hd
  refine .inr (.inr (.inr ⟨?_, fun f hf => by cases hf⟩))
  unfold ahead
  rwa [Nat.zero_mul, List.drop_zero]

/-- What the request of a page leaves to be done. -/
theorem request_reading {s : St} (h : Inv s) {v : Vars} {n : ℕ} (total : ℕ)
    (hph : s.phase = .listing v (n + 1)) (hr : Reading s n [])
    (hok : PullOk s .request) :
    Reading { s with
      phase := .docs v (n + 1) total (Paging.page PAGE_SIZE s.server (n + 1))
      handed := s.handed ++ Paging.page PAGE_SIZE s.server (n + 1) } (n + 1)
      (Paging.page PAGE_SIZE s.server (n + 1)) := by
  intro d hd
  by_cases ha : d ∈ ahead PAGE_SIZE s.server n
  · rcases mem_ahead ha with hp | ha'
    · exact .inr (.inl hp)
    · exact .inr (.inr (.inr ⟨ha', fun f hf => page_ahead h.listed.1 hf ha'⟩))
  · rcases hr d hd with hs | hn | hl | ⟨ha', -⟩
    · exact .inl hs
    · cases hn
    · by_cases hnew : New s d
      · -- what came after the pages read lies before the page that is handed over now
        have htake : d ∈ s.server.take (n * PAGE_SIZE) := (mem_take_or_ahead hd n).resolve_right ha
        have hnot : d ∉ s.handed := fun hm => absurd (hl.2 d hm) (lt_irrefl _)
        refine .inr (.inr (.inl ⟨List.append_ne_nil_of_left_ne_nil hl.1 _, fun f hf => ?_⟩))
        rcases List.mem_append.mp hf with hf | hf
        · exact hl.2 f hf
        · have hle : f.updatedAt ≤ d.updatedAt :=
            take_ahead h.listed.1 htake (List.mem_of_mem_take hf)
          exact lt_of_le_of_ne hle (hok v (n + 1) hph d htake hnot hnew f hf)
      · exact .inl (h.sound d hd hnew)
    · exact absurd ha' ha

theorem VarsOk.more {s t : St} {v : Vars} (h : VarsOk s v) (hw : Pull.lastSeen t.db = Pull.lastSeen s.db)
    (hh : s.handed ⊆ t.handed) : VarsOk t v where
  lastSeen := by
    rw [hw]
    exact h.lastSeen
  newest := h.newest.imp id fun ⟨f, hf, he⟩ => ⟨f, hh hf, he⟩

theorem VarsOk.counted {s : St} {v : Vars} (h : VarsOk s v) {doc : Document} (hd : doc ∈ s.handed) :
    VarsOk s (v.counted doc) where
  lastSeen := h.lastSeen
  newest := by
    unfold Vars.counted
    dsimp only
    split_ifs
    · exact .inr ⟨doc, hd, rfl⟩
    · exact h.newest

theorem request_inv {s t : St} (h : Inv s) (hok : PullOk s .request) (hst : step s .request = some t) :
    Inv t := by
  have hphase := h.phase
  simp only [step] at hst
  split at hst <;> cases hst
  rename_i v page hph
  unfold PhaseOk at hphase
  rw [hph] at hphase
  obtain ⟨hv, hpage, hfirst, hr⟩ := hphase
  obtain ⟨n, rfl⟩ : ∃ n, page = n + 1 := ⟨page - 1, by omega⟩
  rw [Nat.add_sub_cancel] at hr
  refine ⟨?_, h.listed, h.held, h.follows, h.sound⟩
  by_cases hnil : Paging.page PAGE_SIZE s.server (n + 1) = []
  · unfold PhaseOk gotPage
    rw [if_pos hnil, hnil, List.append_nil]
    refine ⟨hv.more rfl (List.Subset.refl _), fun hne d hd => ?_⟩
    rcases hr d hd with hs | hn | hl | ⟨ha, -⟩
    · exact .inl hs
    · cases hn
    · exact .inr (.inr hl)
    · rw [ahead_of_page_nil pageSize_pos hnil] at ha
      cases ha
  · unfold PhaseOk gotPage
    rw [if_neg hnil]
    have hreading := request_reading h (totalPages PAGE_SIZE s.server) hph hr hok
    refine ⟨hv.more rfl (List.subset_append_left _ _), List.append_ne_nil_of_right_ne_nil _ hnil,
      List.subset_append_right _ _, h.listed.1.sublist (page_sublist _ _ _), fun hlast d hd => ?_,
      fun _ => hreading⟩
    rcases hreading d hd with hs | hp | hl | ⟨ha, -⟩
    · exact .inl hs
    · exact .inr (.inl hp)
    · exact .inr (.inr hl)
    · rw [ahead_of_last pageSize_pos hlast] at ha
      cases ha

/-! ### Going over a page -/

/-- A step that leaves the server and the pull's place alone. -/
theorem PageOk.frame {s : St} {v : Vars} {page total : ℕ} {rest : List Document} {ph : Pull.Phase} {db : Db}
    (h : PageOk s v page total rest) (hw : lastSeen db = lastSeen s.db) :
    PageOk { s with phase := ph, db := db } v page total rest :=
  ⟨h.vars.more hw (List.Subset.refl _), h.handed, h.known, h.sorted, h.last, h.more⟩

/-- The first document of a page is dealt with. -/
theorem PageOk.dealt {s t : St} {v : Vars} {page total : ℕ} {doc : Document} {rest : List Document}
    (h : PageOk s v page total (doc :: rest)) (hw : lastSeen t.db = lastSeen s.db) (hsv : t.server = s.server)
    (hh : t.handed = s.handed) (hs : t.settled = s.settled ++ [doc]) :
    PageOk t (v.counted doc) page total rest := by
  have hdoc : doc ∈ s.handed := h.known List.mem_cons_self
  have hlate : ∀ d, Late s d → Late t d := fun d hl => by
    unfold Late
    rw [hh]
    exact hl
  have hset : ∀ d, d ∈ s.settled → d ∈ t.settled := fun d hd => by
    rw [hs]
    exact List.mem_append_left _ hd
  have hfirst : ∀ d, d ∈ doc :: rest → d ∈ t.settled ∨ d ∈ rest := fun d hd => by
    rcases List.mem_cons.mp hd with rfl | hd
    · refine .inl ?_
      rw [hs]
      exact List.mem_append_right _ (List.mem_singleton_self _)
    · exact .inr hd
  refine ⟨(h.vars.counted hdoc).more hw (by rw [hh]; exact List.Subset.refl _), by rw [hh]; exact h.handed,
    fun d hd => by rw [hh]; exact h.known (List.mem_cons_of_mem _ hd), (List.pairwise_cons.mp h.sorted).2,
    fun hlast d hd => ?_, fun hmore d hd => ?_⟩
  · rw [hsv] at hd
    rcases h.last hlast d hd with hd | hd | hl
    · exact .inl (hset d hd)
    · exact (hfirst d hd).imp id .inl
    · exact .inr (.inr (hlate d hl))
  · rw [hsv] at hd
    rcases h.more hmore d hd with hd | hd | hl | ⟨ha, hle⟩
    · exact .inl (hset d hd)
    · exact (hfirst d hd).imp id .inl
    · exact .inr (.inr (.inl (hlate d hl)))
    · refine .inr (.inr (.inr ⟨?_, fun f hf => hle f (List.mem_cons_of_mem _ hf)⟩))
      rw [hsv]
      exact ha

/-- The first document of a page is not newer than the watermark, and nothing
that is still to come is. -/
theorem PageOk.stopped {s : St} (h : Inv s) {v : Vars} {page total : ℕ} {doc : Document}
    {rest : List Document} (hp : PageOk s v page total (doc :: rest)) (hit : hitsWatermark v doc = true) :
    Done s [] := by
  simp only [hitsWatermark, Bool.and_eq_true, decide_eq_true_eq] at hit
  obtain ⟨hne, hle⟩ := hit
  have hstored : lastSeen s.db = some v.lastSeen := hp.vars.lastSeen.resolve_left (by simpa using hne)
  have hold : ∀ d ∈ s.server, d.updatedAt ≤ doc.updatedAt → d ∈ s.settled := by
    intro d hd hdoc
    refine h.sound d hd fun hnew => ?_
    exact absurd (hnew _ hstored) (not_lt.mpr (hdoc.trans hle))
  intro d hd
  have hrest : d ∈ doc :: rest → d ∈ s.settled := by
    intro hm
    rcases List.mem_cons.mp hm with rfl | hm
    · exact hold d hd le_rfl
    · exact hold d hd ((List.pairwise_cons.mp hp.sorted).1 d hm)
  by_cases hlast : total ≤ page
  · rcases hp.last hlast d hd with hs | hm | hl
    · exact .inl hs
    · exact .inl (hrest hm)
    · exact .inr (.inr hl)
  · rcases hp.more (by omega) d hd with hs | hm | hl | ⟨-, hle'⟩
    · exact .inl hs
    · exact .inl (hrest hm)
    · exact .inr (.inr hl)
    · exact .inl (hold d hd (hle' doc List.mem_cons_self))

/-- A page is done. -/
theorem PageOk.finished {s : St} {v : Vars} {page total : ℕ} (hp : PageOk s v page total []) :
    PhaseOk { s with phase := nextPage v page total } := by
  unfold PhaseOk nextPage
  by_cases hlast : total ≤ page
  · rw [if_pos hlast]
    exact ⟨hp.vars.more rfl (List.Subset.refl _), fun _ => hp.last hlast⟩
  · rw [if_neg hlast]
    refine ⟨hp.vars.more rfl (List.Subset.refl _), by omega, fun hn => absurd hn hp.handed, ?_⟩
    rw [Nat.add_sub_cancel]
    exact hp.more (by omega)

/-- What the invariant says of the server stays when only versions are settled. -/
theorem Inv.settle {s t : St} (h : Inv s) (hp : PhaseOk t) (hw : lastSeen t.db = lastSeen s.db)
    (hsv : t.server = s.server) (hh : t.held = s.held) (hs : s.settled ⊆ t.settled) : Inv t where
  phase := hp
  listed := hsv ▸ h.listed
  held := by
    rw [hsv, hh]
    exact h.held
  follows := by
    rw [hsv, hh]
    exact h.follows
  sound := by
    intro d hd hnew
    rw [hsv] at hd
    unfold New at hnew
    rw [hw] at hnew
    exact hs (h.sound d hd hnew)

theorem next_inv {s t : St} (h : Inv s) {now : ℤ} (hok : PullOk s (.next now))
    (hst : step s (.next now) = some t) : Inv t := by
  have hphase := h.phase
  simp only [step] at hst
  split at hst <;> cases hst
  · rename_i v page total hph
    unfold PhaseOk at hphase
    rw [hph] at hphase
    exact h.settle (PageOk.finished hphase) rfl rfl rfl (List.Subset.refl _)
  · rename_i v page total doc rest hph
    unfold PhaseOk at hphase
    rw [hph] at hphase
    refine h.settle ?_ lastSeen_reconcileNext rfl rfl (by split_ifs <;> simp)
    have hw : lastSeen (reconcileNext v page total doc rest s.db now).2 = lastSeen s.db :=
      lastSeen_reconcileNext
    by_cases hit : hitsWatermark v doc = true
    · have hnext : reconcileNext v page total doc rest s.db now = (.storing v, s.db) := if_pos hit
      unfold PhaseOk
      simp only [hnext, hit, Bool.not_true, Bool.false_and, Bool.false_eq_true, if_false]
      exact ⟨hphase.vars.more rfl (List.Subset.refl _), fun _ => (hphase.stopped h hit : Done s [])⟩
    · have hit : hitsWatermark v doc = false := by simpa using hit
      rcases hok v page total doc rest hph hit with hset | hre
      · have hnext : (reconcileNext v page total doc rest s.db now).1 =
            .docs (v.counted doc) page total rest := by
          unfold reconcileNext
          rw [if_neg (by rw [hit]; exact Bool.false_ne_true)]
          dsimp only
          split
          · rename_i hr
            rw [hr] at hset
            cases hset
          · rfl
        unfold PhaseOk
        simp only [hnext, hit, hset, Bool.not_false, Bool.true_and, if_true]
        exact hphase.dealt hw rfl rfl rfl
      · have hnext : (reconcileNext v page total doc rest s.db now).1 =
            .rehydrating v page total doc rest := by
          unfold reconcileNext
          rw [if_neg (by rw [hit]; exact Bool.false_ne_true)]
          dsimp only
          rw [hre]
        have hset : settles doc (Fs.reconcileOne s.db doc now).1 = false := by rw [hre]; rfl
        unfold PhaseOk
        simp only [hnext, hit, hset, Bool.and_false, Bool.false_eq_true, if_false]
        exact hphase.frame hw

theorem rehydrate_inv {s t : St} (h : Inv s) {fetched : Option Bytes} (hok : PullOk s (.rehydrate fetched))
    (hst : step s (.rehydrate fetched) = some t) : Inv t := by
  have hphase := h.phase
  simp only [step] at hst
  split at hst <;> cases hst
  rename_i v page total doc rest hph
  unfold PhaseOk at hphase
  rw [hph] at hphase
  have hgot := hok v page total doc rest hph
  rw [if_pos hgot]
  exact h.settle (hphase.dealt lastSeen_rehydrate rfl rfl rfl) lastSeen_rehydrate rfl rfl
    (List.subset_append_left _ _)

/-! ### Storing the watermark -/

theorem store_inv {s t : St} (h : Inv s) (hst : step s .store = some t) : Inv t := by
  have hphase := h.phase
  simp only [step] at hst
  split at hst <;> cases hst
  rename_i v hph
  unfold PhaseOk at hphase
  rw [hph] at hphase
  obtain ⟨hv, hdone⟩ := hphase
  refine ⟨rfl, h.listed, h.held, h.follows, fun d hd hnew => ?_⟩
  unfold New at hnew
  dsimp only at hnew
  rw [lastSeen_store] at hnew
  by_cases hs : v.newestSeen ≠ "" ∧ v.newestSeen ≠ v.lastSeen
  · rw [if_pos hs] at hnew
    obtain ⟨f, hf, he⟩ := hv.newest.resolve_left hs.2
    rcases hdone (List.ne_nil_of_mem hf) d hd with hd | hd | hl
    · exact hd
    · cases hd
    · -- what came after the pull is above the watermark that it stores
      refine absurd (fun w hw => ?_) hnew
      cases hw
      rw [← he]
      exact hl.2 f hf
  · rw [if_neg hs] at hnew
    exact h.sound d hd hnew

/-! ### The server changes -/

theorem server_inv {s : St} (h : Inv s) {docs : List Document} (hlist : Listed docs)
    (hnew : ∀ e ∈ docs, e ∈ s.server ∨ Follows s.held e) (hok : PullOk s (.server docs)) :
    Inv { s with server := docs, held := s.held ++ docs } := by
  have hsound : ∀ d ∈ docs, ¬ New s d → d ∈ s.settled := by
    intro d hd hn
    by_cases hs : d ∈ s.server
    · exact h.sound d hs hn
    · exact absurd (hok.1 d hd hs).1 hn
  have hlate : ∀ d ∈ docs, d ∉ s.server → s.handed ≠ [] → Late s d :=
    fun d hd hs hne => ⟨hne, (hok.1 d hd hs).2⟩
  have hdone : ∀ rest, s.handed ≠ [] → Done s rest → Done { s with server := docs, held := s.held ++ docs } rest := by
    intro rest hne hdn d hd
    by_cases hs : d ∈ s.server
    · exact hdn d hs
    · exact .inr (.inr (hlate d hd hs hne))
  have hreading : ∀ n rest, pagesRead s.phase = some n → s.handed ≠ [] → Reading s n rest →
      Reading { s with server := docs, held := s.held ++ docs } n rest := by
    intro n rest hn hne hrd d hd
    by_cases hs : d ∈ s.server
    · rcases hrd d hs with hd' | hd' | hl | ⟨ha, hle⟩
      · exact .inl hd'
      · exact .inr (.inl hd')
      · exact .inr (.inr (.inl hl))
      · by_cases hnw : New s d
        · exact .inr (.inr (.inr ⟨hok.2 n hn d ha hnw hd, hle⟩))
        · exact .inl (hsound d hd hnw)
    · exact .inr (.inr (.inl (hlate d hd hs hne)))
  have hpage : ∀ {v : Vars} {page total : ℕ} {rest : List Document},
      (page < total → pagesRead s.phase = some page) → PageOk s v page total rest →
        PageOk { s with server := docs, held := s.held ++ docs } v page total rest :=
    fun hpr hp => ⟨hp.vars.more rfl (List.Subset.refl _), hp.handed, hp.known, hp.sorted,
      fun hl => hdone _ hp.handed (hp.last hl), fun hm => hreading _ _ (hpr hm) hp.handed (hp.more hm)⟩
  refine ⟨?_, hlist, List.subset_append_right _ _, fun e he d hd hid => ?_, hsound⟩
  · have hphase := h.phase
    unfold PhaseOk at hphase ⊢
    split
    · rename_i hph
      rw [hph] at hphase
      exact hphase
    · rename_i v page hph
      rw [hph] at hphase
      obtain ⟨hv, h1, hfirst, hr⟩ := hphase
      refine ⟨hv.more rfl (List.Subset.refl _), h1, hfirst, ?_⟩
      by_cases hne : s.handed = []
      · -- before the first request everything lies ahead
        obtain rfl := hfirst hne
        exact begin_reading
      · exact hreading _ _ (by rw [hph]; rfl) hne hr
    · rename_i v page total rest hph
      rw [hph] at hphase
      refine hpage (fun hm => ?_) hphase
      rw [hph]
      exact if_neg (by omega)
    · rename_i v page total doc rest hph
      rw [hph] at hphase
      refine hpage (fun hm => ?_) hphase
      rw [hph]
      exact if_neg (by omega)
    · rename_i v hph
      rw [hph] at hphase
      exact ⟨hphase.1.more rfl (List.Subset.refl _), fun hne => hdone _ hne (hphase.2 hne)⟩
  · rcases List.mem_append.mp hd with hd | hd
    · rcases hnew e he with hs | hf
      · exact h.follows e hs d hd hid
      · exact hf d hd hid
    · have hde : d = e := List.inj_on_of_nodup_map hlist.2 hd he hid
      rw [hde]

/-! ### The result -/

theorem step_inv (s : St) (a : Act) (t : St) (h : Inv s) (hok : PullOk s a) (hst : step s a = some t) :
    Inv t := by
  have hphase := h.phase
  unfold PhaseOk at hphase
  cases a with
  | delta =>
    simp only [step] at hst
    split at hst <;> cases hst
    rename_i hph
    rw [hph] at hphase
    refine h.settle ⟨⟨?_, .inl rfl⟩, Nat.le_refl 1, fun _ => rfl, begin_reading⟩ rfl rfl rfl
      (List.Subset.refl _)
    cases hw : lastSeen s.db with
    | none => exact .inl rfl
    | some w => exact .inr rfl
  | full =>
    simp only [step] at hst
    split at hst <;> cases hst
    rename_i hph
    rw [hph] at hphase
    exact h.settle ⟨⟨.inl rfl, .inl rfl⟩, Nat.le_refl 1, fun _ => rfl, begin_reading⟩ rfl rfl rfl
      (List.Subset.refl _)
  | request => exact request_inv h hok hst
  | requestFails =>
    simp only [step] at hst
    split at hst <;> cases hst
    exact h.settle rfl rfl rfl rfl (List.Subset.refl _)
  | next now => exact next_inv h hok hst
  | rehydrate fetched => exact rehydrate_inv h hok hst
  | store => exact store_inv h hst
  | server docs =>
    simp only [step] at hst
    split_ifs at hst with hl
    cases hst
    exact server_inv h hl.1 hl.2 hok
  | change db =>
    simp only [step] at hst
    split_ifs at hst with hw
    cases hst
    refine h.settle ?_ hw rfl rfl (List.Subset.refl _)
    unfold PhaseOk
    split
    · rename_i hph
      rw [hph] at hphase
      exact hphase
    · rename_i v page hph
      rw [hph] at hphase
      exact ⟨hphase.1.more hw (List.Subset.refl _), hphase.2⟩
    · rename_i v page total rest hph
      rw [hph] at hphase
      exact hphase.frame hw
    · rename_i v page total doc rest hph
      rw [hph] at hphase
      exact hphase.frame hw
    · rename_i v hph
      rw [hph] at hphase
      exact ⟨hphase.1.more hw (List.Subset.refl _), hphase.2⟩

/-- Two documents with one `updatedAt`. -/
def first : Document :=
  ⟨"d1", some "/a.md", some [97], "done", "1970-01-01T00:00:01.000Z", some "text", none⟩

def second : Document := { first with id := "d2", filepath := some "/b.md", content := some [98] }

def started : St := ⟨.fresh, .idle, [first], [first], [], []⟩

instance (s : St) (d : Document) : Decidable (New s d) :=
  inferInstanceAs (Decidable (∀ w, lastSeen s.db = some w → w < d.updatedAt))

instance : DecidableRel PullOk
  | s, .request =>
    match hph : s.phase with
    | .listing _ page => decidable_of_iff (∀ d ∈ s.server.take ((page - 1) * PAGE_SIZE), d ∉ s.handed → New s d →
        ∀ f ∈ Paging.page PAGE_SIZE s.server page, f.updatedAt ≠ d.updatedAt)
        ⟨fun h v p hp => by rw [hph] at hp; cases hp; exact h, fun h => h _ _ hph⟩
    | .idle | .docs .. | .rehydrating .. | .storing _ => isTrue fun v p hp => by rw [hph] at hp; cases hp
  | s, .next now =>
    match hph : s.phase with
    | .docs v _ _ (doc :: _) => decidable_of_iff (hitsWatermark v doc = false →
        settles doc (Fs.reconcileOne s.db doc now).1 = true ∨ (Fs.reconcileOne s.db doc now).1 = .ok .needsRehydrate)
        ⟨fun h _ _ _ _ _ hp => by rw [hph] at hp; cases hp; exact h, fun h => h _ _ _ _ _ hph⟩
    | .docs _ _ _ [] | .idle | .listing .. | .rehydrating .. | .storing _ =>
      isTrue fun _ _ _ _ _ hp => by rw [hph] at hp; cases hp
  | s, .rehydrate fetched =>
    match hph : s.phase with
    | .rehydrating _ _ _ doc _ => decidable_of_iff (rehydrates s.db doc fetched = true)
        ⟨fun h _ _ _ _ _ hp => by rw [hph] at hp; cases hp; exact h, fun h => h _ _ _ _ _ hph⟩
    | .idle | .listing .. | .docs .. | .storing _ => isTrue fun _ _ _ _ _ hp => by rw [hph] at hp; cases hp
  | s, .server docs => inferInstanceAs (Decidable (
      (∀ e ∈ docs, e ∉ s.server → New s e ∧ ∀ f ∈ s.handed, f.updatedAt < e.updatedAt) ∧
      ∀ n, pagesRead s.phase = some n → ∀ d ∈ ahead PAGE_SIZE s.server n, New s d → d ∈ docs →
        d ∈ ahead PAGE_SIZE docs n))
  | _, .delta | _, .full | _, .requestFails | _, .store | _, .change _ => isTrue trivial

/-- A document that comes after the first, and then a new version of the first. -/
def later : Document := { second with updatedAt := "1970-01-01T00:00:02.000Z" }

def edited : Document := { first with content := some [99], updatedAt := "1970-01-01T00:00:03.000Z" }

end Watermark
end Smfs
