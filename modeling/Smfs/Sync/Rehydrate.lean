/-
# A download on its way

`reconcile_one` makes an empty stub, and `rehydrate_if_possible` looks up its
inode, waits for the download, and writes the bytes to that number. Between
the lookup and the write any step of the mount may fall; the write asks for
nothing. So a download that ends may overwrite an edit, or write to an inode
that is gone or has another document (`overwrites_edit`), and it is safe in
every run whose steps spare the files that are being fetched (`fetched_safe`).

Key definitions: `Rehydrate.Fetch`, `Rehydrate.step`, `Rehydrate.Guard`, `Rehydrate.Safe`, `Rehydrate.Spares`, `Rehydrate.Ok`.
Key theorems: `Rehydrate.step_guard`, `Rehydrate.fetched_safe`, `Rehydrate.overwrites_edit`.
-/
import Smfs.Sync.Changes

namespace Smfs
namespace Rehydrate

open Trans Db Fs Changes

/-- A document that needs its bytes: the inode once it is looked up, and the
inodes that have been edited since the stub was made. -/
structure Fetch where
  doc : Document
  ino : Option Ino
  edits : List Ino
  deriving DecidableEq

structure St where
  mount : Mount
  fetches : List Fetch
  deriving DecidableEq

def init : St := ⟨.fresh, []⟩

/-- A call on the mount, or a step of a download. -/
inductive Act
  | call (a : Changes.Act)
  | pull (doc : Document) (nowMs : ℤ)
  | capture (k : ℕ)
  | fail (k : ℕ)
  | finish (k : ℕ) (bytes : Bytes)

/-- The file whose bytes the call changes. -/
def editOf (m : Mount) : Changes.Act → Option Ino
  | .mount (.write f offset data now) =>
    match (f.write m.db offset data now).1 with
    | .ok (_ + 1) => some f.ino
    | _ => none
  | .mount (.truncate f _) => some f.ino
  | .setattr ino _ => if (m.db.getInode ino).any (·.kind = .reg) then some ino else none
  | _ => none

/-- The downloads after a call: a crash ends them. -/
def fetchesAfter (s : St) : Changes.Act → List Fetch
  | .mount .crash => []
  | a => s.fetches.map fun f => { f with edits := f.edits ++ (editOf s.mount a).toList }

def step (s : St) : Act → Option St
  | .call a =>
    match a with
    | .mount (.rehydrate ..) => none
    | a => (Changes.step s.mount a).map fun m => ⟨m, fetchesAfter s a⟩
  | .pull doc now =>
    let r := reconcileOne s.mount.db doc now
    match r.1 with
    | .ok .needsRehydrate => some ⟨{ s.mount with db := r.2 }, s.fetches ++ [⟨doc, none, []⟩]⟩
    | _ => some ⟨{ s.mount with db := r.2 }, s.fetches⟩
  | .capture k =>
    (s.fetches[k]?).bind fun f =>
      match f.ino, f.doc.url, s.mount.db.inoByRemoteId f.doc.id with
      | none, some _, some ino => some ⟨s.mount, s.fetches.set k { f with ino := some ino }⟩
      | none, _, _ => some ⟨s.mount, s.fetches.eraseIdx k⟩
      | some _, _, _ => none
  | .fail k => some ⟨s.mount, s.fetches.eraseIdx k⟩
  | .finish k bytes =>
    (s.fetches[k]?).bind fun f => f.ino.map fun ino =>
      ⟨{ s.mount with db := rehydrateRawBytes s.mount.db ino bytes }, s.fetches.eraseIdx k⟩

/-- The inode is there, it has the document, and nothing has edited it since the stub was made. -/
structure Guard (db : Db) (f : Fetch) (i : Ino) : Prop where
  stands : (db.getInode i).isSome = true
  mapped : db.getRemoteId i = some f.doc.id
  unedited : i ∉ f.edits

/-- A download that ends leaves everything as it is, or replaces what it may. -/
def Safe (s : St) : Prop :=
  ∀ k bytes t, step s (.finish k bytes) = some t →
    t.mount = s.mount ∨ ∃ f i, s.fetches[k]? = some f ∧ f.ino = some i ∧ Guard s.mount.db f i

/-- The call does not edit the file, nor removes it, nor takes its document. -/
structure Spares (m : Mount) (i : Ino) (rid : String) (a : Changes.Act) : Prop where
  edit : editOf m a ≠ some i
  drop : ¬ (permit m a).drop i
  unmap : ¬ (permit m a).unmap i
  forget : ¬ (permit m a).forget rid
  map : ∀ r, (permit m a).map i r → r = rid

/-- The files that are being fetched are spared, and the file that is looked up
stands and has not been edited yet. -/
def Ok (s : St) : Act → Prop
  | .call a => ∀ f ∈ s.fetches, ∀ i, f.ino = some i → Spares s.mount i f.doc.id a
  | .pull doc now => ∀ f ∈ s.fetches, ∀ i, f.ino = some i → Spares s.mount i f.doc.id (.mount (.reconcile doc now))
  | .capture k => ∀ f i, s.fetches[k]? = some f → s.mount.db.inoByRemoteId f.doc.id = some i →
      (s.mount.db.getInode i).isSome = true ∧ i ∉ f.edits
  | .fail _ | .finish _ _ => True

section Lemmas

variable {s t : St} {a : Act} {db : Db} {f : Fetch} {i : Ino}

/-- A call that spares a file leaves its guard. -/
theorem step_guard {m m' : Mount} {c : Changes.Act} (hs : Sorted m.db) (hst : Changes.step m c = some m')
    (hsp : Spares m i f.doc.id c) (hg : Guard m.db f i) :
    Guard m'.db { f with edits := f.edits ++ (editOf m c).toList } i := by
  have hmany : Many (permit m c) m.db m'.db := step_changes hs hst
  refine ⟨hmany.inode hsp.drop hg.stands, hmany.mapped hs hsp.map hsp.unmap hsp.forget hg.mapped, fun hmem => ?_⟩
  rcases List.mem_append.mp hmem with hold | hnew
  · exact hg.unedited hold
  · exact hsp.edit (Option.mem_toList.mp hnew)

/-- The rows are in order, and each file that is being fetched has its guard. -/
structure Inv (s : St) : Prop where
  sorted : Sorted s.mount.db
  guarded : ∀ f ∈ s.fetches, ∀ i, f.ino = some i → Guard s.mount.db f i

theorem Inv.start : Inv init := ⟨.nil, fun _ hf => absurd hf List.not_mem_nil⟩

/-- A call keeps the guards of the files that it spares. -/
theorem Inv.call {c : Changes.Act} {m : Mount} (h : Inv s) (hst : Changes.step s.mount c = some m)
    (hok : ∀ f ∈ s.fetches, ∀ i, f.ino = some i → Spares s.mount i f.doc.id c) :
    Inv ⟨m, s.fetches.map fun f => { f with edits := f.edits ++ (editOf s.mount c).toList }⟩ := by
  refine ⟨step_sorted hst h.sorted, fun f' hf' i hi => ?_⟩
  obtain ⟨f, hf, rfl⟩ := List.mem_map.mp hf'
  exact step_guard h.sorted hst (hok f hf i hi) (h.guarded f hf i hi)

theorem Inv.erase {k : ℕ} (h : Inv s) : Inv ⟨s.mount, s.fetches.eraseIdx k⟩ :=
  ⟨h.sorted, fun f hf => h.guarded f (List.mem_of_mem_eraseIdx hf)⟩

/-- A pull edits nothing; what it adds is not looked up yet. -/
theorem Inv.pull {doc : Document} {now : ℤ} {added : List Fetch} (h : Inv s)
    (hok : ∀ f ∈ s.fetches, ∀ i, f.ino = some i → Spares s.mount i f.doc.id (.mount (.reconcile doc now)))
    (hadded : ∀ f ∈ added, f.ino = none) :
    Inv ⟨{ s.mount with db := (reconcileOne s.mount.db doc now).2 }, s.fetches ++ added⟩ := by
  have hst : Changes.step s.mount (.mount (.reconcile doc now)) =
    some { s.mount with db := (reconcileOne s.mount.db doc now).2 } := rfl
  refine ⟨step_sorted hst h.sorted, fun f hf i hi => ?_⟩
  rcases List.mem_append.mp hf with hf | hf
  · have hg : Guard (reconcileOne s.mount.db doc now).2 { f with edits := f.edits ++ [] } i :=
      step_guard h.sorted hst (hok f hf i hi) (h.guarded f hf i hi)
    rwa [List.append_nil] at hg
  · rw [hadded f hf] at hi
    cases hi

theorem step_inv (h : Inv s) (hok : Ok s a) (hst : step s a = some t) : Inv t := by
  cases a with
  | call c =>
    have hcall : Changes.step s.mount c = some t.mount ∧ t.fetches = fetchesAfter s c := by
      unfold step at hst
      dsimp only at hst
      split at hst
      · cases hst
      · obtain ⟨m, hm, rfl⟩ := Option.map_eq_some_iff.mp hst
        exact ⟨hm, rfl⟩
    obtain ⟨hm, hf⟩ := hcall
    have hkeep := h.call hm hok
    have hsub : t.fetches = [] ∨
        t.fetches = s.fetches.map fun f => { f with edits := f.edits ++ (editOf s.mount c).toList } := by
      rw [hf]
      unfold fetchesAfter
      split
      · exact .inl rfl
      · exact .inr rfl
    refine ⟨hkeep.sorted, fun f hf => ?_⟩
    rcases hsub with hnil | heq
    · rw [hnil] at hf
      cases hf
    · exact hkeep.guarded f (heq ▸ hf)
  | pull doc now =>
    unfold step at hst
    dsimp only at hst
    split at hst
    · cases hst
      exact h.pull hok fun f hf => by rw [List.mem_singleton.mp hf]
    · cases hst
      have hpull : Inv ⟨{ s.mount with db := (reconcileOne s.mount.db doc now).2 }, s.fetches ++ []⟩ :=
        h.pull hok fun f hf => absurd hf List.not_mem_nil
      rwa [List.append_nil] at hpull
  | capture k =>
    obtain ⟨f, hf, hst⟩ := Option.bind_eq_some_iff.mp hst
    split at hst
    · rename_i ino _ _ hino
      cases hst
      obtain ⟨hstands, hclean⟩ := hok f ino hf hino
      refine ⟨h.sorted, fun f' hf' i hi => ?_⟩
      rcases List.mem_or_eq_of_mem_set hf' with hold | rfl
      · exact h.guarded f' hold i hi
      · obtain rfl := Option.some.inj hi
        exact ⟨hstands, getRemoteId_of_ino h.sorted hino, hclean⟩
    · cases hst
      exact h.erase
    · cases hst
  | fail k =>
    cases hst
    exact h.erase
  | finish k bytes =>
    obtain ⟨f, -, hst⟩ := Option.bind_eq_some_iff.mp hst
    obtain ⟨ino, -, rfl⟩ := Option.map_eq_some_iff.mp hst
    have hmany : Many {} s.mount.db (rehydrateRawBytes s.mount.db ino bytes) := rewrite_changes
    refine ⟨hmany.sorted h.sorted, fun f' hf' i hi => ?_⟩
    obtain ⟨hstands, hmapped, hclean⟩ := h.guarded f' (List.mem_of_mem_eraseIdx hf') i hi
    exact ⟨hmany.inode id hstands, hmany.mapped h.sorted (fun _ => False.elim) id id hmapped, hclean⟩

/-- **A download is safe in every run that spares the files being fetched.** -/
theorem fetched_safe (h : Reach step Ok init s) : Safe s := by
  have hinv : Inv s := h.inv .start fun _ _ _ hI hok hst => step_inv hI hok hst
  intro k bytes t hst
  obtain ⟨f, hf, hst⟩ := Option.bind_eq_some_iff.mp hst
  obtain ⟨i, hi, -⟩ := Option.map_eq_some_iff.mp hst
  exact .inr ⟨f, i, hf, hi, hinv.guarded f (List.mem_of_getElem? hf) i hi⟩

/-- An image of the server whose bytes have to be fetched. -/
private def picture : Document := ⟨"A", some "/a.png", none, "done", "2026-01-01T00:00:00Z", some "image", some "u"⟩

/-- Nothing happens while the image is fetched. -/
theorem fetched_safe_quiet : ∃ s, Reach step Ok init s ∧ s.fetches = [⟨picture, some 2, []⟩] ∧ Safe s := by
  have hpull : Reach step Ok init ⟨⟨(reconcileOne .fresh picture 0).2, []⟩, [⟨picture, none, []⟩]⟩ :=
    Reach.start.next (a := .pull picture 0) (fun f hf => absurd hf List.not_mem_nil) (by decide)
  have hcapture : Reach step Ok init ⟨⟨(reconcileOne .fresh picture 0).2, []⟩, [⟨picture, some 2, []⟩]⟩ := by
    refine hpull.next (a := .capture 0) (fun f i hf hi => ?_) (by decide)
    obtain rfl := Option.some.inj hf
    have htwo : some 2 = some i := Eq.trans (by decide) hi
    obtain rfl := Option.some.inj htwo
    exact ⟨by decide, by decide⟩
  exact ⟨_, hcapture, rfl, fetched_safe hcapture⟩

/-- The user writes to the image while it is fetched; then the bytes of the server replace what was written. -/
theorem overwrites_edit : ¬ ∀ s, Reach step anyStep init s → Safe s := by
  intro hall
  obtain ⟨s, hreach, hs⟩ : ∃ s, Reach step anyStep init s ∧ decide (s.fetches = [⟨picture, some 2, [2]⟩] ∧
      rehydrateRawBytes s.mount.db 2 [9] ≠ s.mount.db) = true :=
    Reach.exists_of_run [.pull picture 0, .capture 0, .call (.mount (.write ⟨2, true,
      some "/a.png"⟩ 0 [7] 0))] (by decide)
  obtain ⟨hf, hchanged⟩ := of_decide_eq_true hs
  have hstep : step s (.finish 0 [9]) = some ⟨{ s.mount with db := rehydrateRawBytes s.mount.db 2 [9] }, []⟩ := by
    unfold step
    rw [hf]
    rfl
  rcases hall s hreach 0 [9] _ hstep with hsame | ⟨f, i, hf', hi, hguard⟩
  · exact hchanged (congrArg Mount.db hsame)
  · rw [hf] at hf'
    obtain rfl := Option.some.inj hf'
    obtain rfl := Option.some.inj hi
    exact hguard.unedited (List.mem_singleton_self _)

end Lemmas

end Rehydrate
end Smfs
