/-
# The deletion scan removes what the server still has, if the list moves

The scan reads the server's list page by page while other clients and this
mount's push jobs change it, reads `fs_remote` afterwards, and removes what it
has not seen. Two things make it miss a document that is there: a removal
that moves the document from behind the pages read into their range, and a
document that a push creates there and maps before `fs_remote` is read.

Without these (`ScanOk`) every removal is of a document the server does not
have (`removals`); `removed_alive` is a scan that removes the file of a
document pushed while it ran.

Key definitions: `DeletionScan.St`, `DeletionScan.step`, `DeletionScan.Safe`, `DeletionScan.ScanOk`.
Key theorems: `DeletionScan.step_inv`, `DeletionScan.removals`, `DeletionScan.removed_alive`.
-/
import Smfs.Lib.Paging
import Smfs.Lib.Reach
import Smfs.Ops
import Smfs.Scan

namespace Smfs
namespace DeletionScan

open Trans Paging Scan

/-- The server's list, the ids it has ever given out, and the documents that
were on the list when the scan began or have come in behind the pages it has
read. -/
structure St where
  db : Db
  phase : Scan.Phase
  server : List String
  issued : List String
  listed : List String
  deriving DecidableEq

inductive Act
  | begin
  | request
  | requestFails
  | readRemotes
  | remove
  /-- The server's list changes: documents come, go and change places. -/
  | server (docs : List String)
  /-- The rest of the mount changes the database. -/
  | change (db : Db)

/-- What lies behind the pages that a phase has read. -/
def behind (docs : List String) : Scan.Phase → List String
  | .listing page _ => ahead PAGE_SIZE docs (page - 1)
  | _ => []

def step (s : St) : Act → Option St
  | .begin =>
    match s.phase with
    | .idle => some { s with phase := Scan.begin, listed := s.server }
    | _ => none
  | .request =>
    match s.phase with
    | .listing page ids =>
      some { s with phase := gotPage page ids (Paging.page PAGE_SIZE s.server page)
                      (totalPages PAGE_SIZE s.server) }
    | _ => none
  | .requestFails =>
    match s.phase with
    | .listing .. => some { s with phase := .idle }
    | _ => none
  | .readRemotes =>
    match s.phase with
    | .mapping ids => some { s with phase := .removing ids s.db.remoteIds 0 }
    | _ => none
  | .remove =>
    match s.phase with
    | .removing ids (id :: rest) n =>
      let r := removeNext s.db ids id
      some { s with db := r.2, phase := .removing ids rest (n + r.1.toNat) }
    | .removing _ [] _ => some { s with phase := .idle }
    | _ => none
  | .server docs =>
    -- an id is given to one document
    if ∀ d ∈ docs, d ∈ s.server ∨ d ∉ s.issued then
      some { s with server := docs, issued := s.issued ++ docs, listed := s.listed ++ behind docs s.phase }
    else none
  | .change db =>
    -- the ids of `fs_remote` come from the server
    if ∀ id ∈ db.remoteIds, id ∈ s.issued then some { s with db := db } else none

/-- The next removal is of a document that the server does not have. -/
def Safe (s : St) : Prop :=
  ∀ ids id rest n, s.phase = .removing ids (id :: rest) n → (removeNext s.db ids id).1 = true →
    id ∉ s.server

/-- While the scan waits for a page, no document that stays on the list falls
back from behind the pages it has read; and when it reads `fs_remote`, the
documents that are mapped and on the server were on the list when it began or
came in behind. -/
def ScanOk (s : St) : Act → Prop
  | .server docs => ∀ page ids, s.phase = .listing page ids → KeepsAhead PAGE_SIZE (page - 1) s.server docs
  | .readRemotes => ∀ id ∈ s.db.remoteIds, id ∈ s.server → id ∈ s.listed
  | _ => True

/-! ### The invariant -/

/-- What the phases know of the documents on the server. -/
def PhaseOk (s : St) : Prop :=
  match s.phase with
  | .idle => True
  | .listing page ids => 1 ≤ page ∧ Covers PAGE_SIZE s.server (page - 1) (· ∈ s.listed) (· ∈ ids)
  | .mapping ids => ∀ d ∈ s.server, d ∈ s.listed → d ∈ ids
  | .removing ids localIds _ => ∀ d ∈ s.server, d ∈ localIds → d ∈ ids

structure Inv (s : St) : Prop where
  phase : PhaseOk s
  server : s.server ⊆ s.issued
  listed : s.listed ⊆ s.issued
  mapped : s.db.remoteIds ⊆ s.issued
  ids : ∀ ids localIds n, s.phase = .removing ids localIds n → localIds ⊆ s.issued

/-- A mount whose ids all come from the server, with no scan under way. -/
structure Start (s : St) : Prop where
  phase : s.phase = .idle
  server : s.server ⊆ s.issued
  listed : s.listed = []
  mapped : s.db.remoteIds ⊆ s.issued

theorem Start.inv {s : St} (h : Start s) : Inv s where
  phase := by
    unfold PhaseOk
    rw [h.phase]
    trivial
  server := h.server
  listed := by
    rw [h.listed]
    exact List.nil_subset _
  mapped := h.mapped
  ids := by
    intro ids localIds n he
    rw [h.phase] at he
    cases he

theorem pageSize_pos : 0 < PAGE_SIZE := by decide

theorem begin_inv {s : St} (h : Inv s) : Inv { s with phase := Scan.begin, listed := s.server } where
  phase := ⟨Nat.le_refl 1, Covers.start⟩
  server := h.server
  listed := h.server
  mapped := h.mapped
  ids := by
    intro ids localIds n he
    cases he

/-- What a page brings: a full list, or a longer one with the rest still behind. -/
theorem gotPage_ok {s : St} {page : ℕ} {ids : List String} (hp : 1 ≤ page)
    (hc : Covers PAGE_SIZE s.server (page - 1) (· ∈ s.listed) (· ∈ ids)) :
    PhaseOk { s with
      phase := gotPage page ids (Paging.page PAGE_SIZE s.server page)
        (totalPages PAGE_SIZE s.server) } := by
  obtain ⟨n, rfl⟩ : ∃ n, page = n + 1 := ⟨page - 1, by omega⟩
  rw [Nat.add_sub_cancel] at hc
  have hnext : Covers PAGE_SIZE s.server (n + 1) (· ∈ s.listed)
      (· ∈ ids ++ Paging.page PAGE_SIZE s.server (n + 1)) :=
    hc.page (fun d hd => List.mem_append_left _ hd) fun d hd => List.mem_append_right _ hd
  unfold gotPage
  by_cases hnil : Paging.page PAGE_SIZE s.server (n + 1) = []
  · rw [if_pos hnil]
    exact hc.last (ahead_of_page_nil pageSize_pos hnil)
  · rw [if_neg hnil]
    by_cases hlast : totalPages PAGE_SIZE s.server ≤ n + 1
    · rw [if_pos hlast]
      exact hnext.last (ahead_of_last pageSize_pos hlast)
    · rw [if_neg hlast]
      refine ⟨by omega, ?_⟩
      rw [Nat.add_sub_cancel]
      exact hnext

theorem gotPage_not_removing {page : ℕ} {ids new localIds remoteIds : List String} {total n : ℕ} :
    gotPage page ids new total ≠ .removing remoteIds localIds n := by
  unfold gotPage
  intro he
  split_ifs at he

/-- An id that comes to the list is new, so nothing the scan knows is about it. -/
theorem server_inv {s : St} (h : Inv s) {docs : List String}
    (hnew : ∀ d ∈ docs, d ∈ s.server ∨ d ∉ s.issued) (hok : ScanOk s (.server docs)) :
    Inv { s with server := docs, issued := s.issued ++ docs, listed := s.listed ++ behind docs s.phase } := by
  have hold : ∀ d ∈ docs, d ∈ s.issued → d ∈ s.server := by
    intro d hd hi
    rcases hnew d hd with hs | hn
    · exact hs
    · exact absurd hi hn
  have hbehind : behind docs s.phase ⊆ docs := by
    intro d hd
    cases hph : s.phase <;> rw [hph] at hd
    case listing page ids => exact mem_of_mem_ahead hd
    all_goals cases hd
  have hphase := h.phase
  refine ⟨?_, List.subset_append_right _ _, ?_, fun d hd => List.mem_append_left _ (h.mapped hd),
    fun ids localIds n he d hd => List.mem_append_left _ (h.ids ids localIds n he hd)⟩
  · unfold PhaseOk at hphase ⊢
    cases hph : s.phase with
    | idle => trivial
    | listing page ids =>
      rw [hph] at hphase
      refine ⟨hphase.1, hphase.2.change (hok page ids hph) fun d hd hl => ?_⟩
      rcases List.mem_append.mp hl with hl | ha
      · exact .inl ⟨hold d hd (h.listed hl), hl⟩
      · exact .inr ha
    | mapping ids =>
      rw [hph] at hphase
      intro d hd hl
      have hl : d ∈ s.listed := by simpa [hph, behind] using hl
      exact hphase d (hold d hd (h.listed hl)) hl
    | removing ids localIds n =>
      rw [hph] at hphase
      intro d hd hl
      exact hphase d (hold d hd (h.ids ids localIds n hph hl)) hl
  · intro d hd
    rcases List.mem_append.mp hd with hl | hb
    · exact List.mem_append_left _ (h.listed hl)
    · exact List.mem_append_right _ (hbehind hb)

theorem remove_inv {s : St} (h : Inv s) {ids rest : List String} {id : String} {n m : ℕ}
    (hph : s.phase = .removing ids (id :: rest) n) :
    Inv { s with db := (removeNext s.db ids id).2, phase := .removing ids rest m } := by
  have hphase := h.phase
  unfold PhaseOk at hphase
  rw [hph] at hphase
  refine ⟨fun d hd hr => hphase d hd (List.mem_cons_of_mem _ hr), h.server, h.listed,
    fun d hd => h.mapped (removeNext_remoteIds hd), fun ids' localIds' n' he => ?_⟩
  obtain ⟨rfl, rfl, rfl⟩ := Scan.Phase.removing.inj he
  exact fun d hd => h.ids _ _ _ hph (List.mem_cons_of_mem _ hd)

theorem step_inv (s : St) (a : Act) (t : St) (h : Inv s) (hok : ScanOk s a) (hst : step s a = some t) :
    Inv t := by
  have hphase := h.phase
  unfold PhaseOk at hphase
  cases a with
  | begin =>
    simp only [step] at hst
    split at hst <;> cases hst
    exact begin_inv h
  | request =>
    simp only [step] at hst
    split at hst <;> cases hst
    rename_i page ids hph
    rw [hph] at hphase
    exact ⟨gotPage_ok hphase.1 hphase.2, h.server, h.listed, h.mapped,
      fun _ _ _ he => absurd he gotPage_not_removing⟩
  | requestFails =>
    simp only [step] at hst
    split at hst <;> cases hst
    exact ⟨trivial, h.server, h.listed, h.mapped, fun _ _ _ he => by cases he⟩
  | readRemotes =>
    simp only [step] at hst
    split at hst <;> cases hst
    rename_i ids hph
    rw [hph] at hphase
    refine ⟨fun d hd hm => hphase d hd (hok d hm hd), h.server, h.listed, h.mapped, fun _ _ _ he => ?_⟩
    obtain ⟨rfl, rfl, rfl⟩ := Scan.Phase.removing.inj he
    exact h.mapped
  | remove =>
    simp only [step] at hst
    split at hst <;> cases hst
    · rename_i hph
      exact remove_inv h hph
    · exact ⟨trivial, h.server, h.listed, h.mapped, fun _ _ _ he => by cases he⟩
  | server docs =>
    simp only [step] at hst
    split_ifs at hst with hnew
    cases hst
    exact server_inv h hnew hok
  | change db =>
    simp only [step] at hst
    split_ifs at hst with hmap
    cases hst
    exact ⟨h.phase, h.server, h.listed, hmap, h.ids⟩

/-! ### The result -/

theorem Inv.safe {s : St} (h : Inv s) : Safe s := by
  intro ids id rest n hph hrem hs
  have hphase := h.phase
  unfold PhaseOk at hphase
  rw [hph] at hphase
  have hid : id ∈ ids := hphase id hs List.mem_cons_self
  unfold removeNext at hrem
  rw [if_pos hid] at hrem
  cases hrem

/-- **A deletion scan removes only what the server does not have**, in every
run in which nothing falls back behind the reader and nothing is mapped that
came in before it. -/
theorem removals (s₀ s : St) (h₀ : Start s₀) (h : Reach step ScanOk s₀ s) : Safe s :=
  (h.inv h₀.inv step_inv).safe

/-- The database of a new file, and once a push has created its document. -/
def created : Db := (Fs.createFile .fresh true ROOT_INO "a.md").2

def pushed : Db := created.setRemoteId 2 "d1"

def quiet : St := ⟨created, .idle, [], [], []⟩

instance : DecidableRel ScanOk
  | s, .server docs =>
    match hph : s.phase with
    | .listing page _ => decidable_of_iff (KeepsAhead PAGE_SIZE (page - 1) s.server docs)
        ⟨fun h _ _ hp => by rw [hph] at hp; cases hp; exact h, fun h => h _ _ hph⟩
    | .idle | .mapping _ | .removing .. => isTrue fun _ _ hp => by rw [hph] at hp; cases hp
  | s, .readRemotes => inferInstanceAs (Decidable (∀ id ∈ s.db.remoteIds, id ∈ s.server → id ∈ s.listed))
  | _, .begin | _, .request | _, .requestFails | _, .remove | _, .change _ => isTrue trivial

/-- Two files with their documents, of which the server has only the first. -/
def half : St where
  db := ((Fs.createFile pushed true ROOT_INO "b.md").2).setRemoteId 3 "d2"
  phase := .idle
  server := ["d1"]
  issued := ["d1", "d2"]
  listed := []

theorem half_start : Start half := ⟨rfl, by decide, rfl, by decide⟩

/-- A document comes before the page is read and another one after it. -/
def scannedRun : List Act := [.begin, .server ["d3", "d1"], .request, .server ["d4", "d3", "d1"], .readRemotes, .remove]

/-- The first file is kept, and the next step removes the second. -/
theorem removals_scanned :
    ∃ s, run step ScanOk half scannedRun = some s ∧
      (s.phase = .removing ["d3", "d1"] ["d2"] 0 ∧ (removeNext s.db ["d3", "d1"] "d2").1 = true ∧
        (step s .remove).map (fun t => t.db.dentries.map Dentry.name) = some ["a.md"]) ∧
      Safe s ∧ "d2" ∉ s.server := by
  obtain ⟨s, hs, hp⟩ := (Option.any_eq_true _ _).mp
    (by decide : (run step ScanOk half scannedRun).any (fun s => decide
      (s.phase = .removing ["d3", "d1"] ["d2"] 0 ∧ (removeNext s.db ["d3", "d1"] "d2").1 = true ∧
        (step s .remove).map (fun t => t.db.dentries.map Dentry.name) = some ["a.md"])) = true)
  obtain ⟨hph, hrem, hnext⟩ := of_decide_eq_true hp
  have hsafe : Safe s := removals half s half_start (.of_run hs)
  exact ⟨s, hs, ⟨hph, hrem, hnext⟩, hsafe, hsafe _ _ _ _ hph hrem⟩

/-- The scan finds an empty list; a push creates the document and maps it. -/
def aliveRun : List Act := [.begin, .request, .server ["d1"], .change pushed, .readRemotes]

/-- Without the condition the scan removes the file of a document that the
server has. -/
theorem removed_alive :
    ¬ (∀ s, Reach step anyStep quiet s → Safe s) ∧
    (run step anyStep quiet (aliveRun ++ [.remove])).map (fun s => (s.server, s.db.dentries)) =
      some (["d1"], []) := by
  refine ⟨fun h => ?_, by decide⟩
  obtain ⟨s, hs, hp⟩ : ∃ s, Reach step anyStep quiet s ∧
      decide (s.phase = .removing [] ["d1"] 0 ∧ (removeNext s.db [] "d1").1 = true ∧ s.server = ["d1"]) = true :=
    Reach.exists_of_run aliveRun (by decide)
  obtain ⟨hph, hrem, hserver⟩ := of_decide_eq_true hp
  refine h s hs [] "d1" [] 0 hph hrem ?_
  rw [hserver]
  exact List.mem_singleton_self _

end DeletionScan
end Smfs
