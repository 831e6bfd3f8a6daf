/-
# The server as the TypeScript client sees it

A container is a list of documents. A listing with a path that ends in `/` is
of the documents whose path starts with it, and one with another path of those
that have it; a document that is added gets an id that no document has or had;
an update with content changes the content and leaves the path alone. A
request meets one of five fates (`Fate`): besides answering, the server may
refuse it, lose the answer, or, for a bulk delete, keep some of the documents.
A `World` is all that a call of the client reads and changes.

Key definitions: `Memory`, `Container`, `Fate`, `World`, `Thrown`, `request`.
Key theorems: `Container.newId_fresh`.
-/
import Smfs.Lib.Async
import Smfs.Lib.Paging
import Smfs.Bash.Cache
import Smfs.Bash.Index

namespace Smfs.Bash

open Turns

/-- A document of a listing; `updatedAt` in milliseconds. -/
structure Memory where
  id : String
  filepath : Option String
  content : Option String
  status : Option String
  errorMessage : Option String
  errorReason : Option String
  error : Option String
  failureReason : Option String
  updatedAt : Option ℤ
  deriving DecidableEq, Repr

/-- The container of a tag. -/
structure Container where
  docs : List Memory
  /-- The ids of the documents that are gone. -/
  retired : List String
  /-- The static and the dynamic items of the profile. -/
  profile : List String × List String
  deriving DecidableEq, Repr

structure ListParams where
  filepath : Option String
  limit : ℕ
  page : ℕ
  includeContent : Bool

structure ListResponse where
  memories : List Memory
  totalPages : ℕ

structure DeleteBulkResponse where
  deletedCount : ℕ
  /-- The id and the error of each document that stays. -/
  errors : List (String × String)

/-- What a failed request throws. -/
structure ApiError where
  status : Option ℕ
  message : String
  deriving DecidableEq, Repr

def notFound : ApiError := ⟨some 404, "not found"⟩

/-- The status of a document that was just written. -/
def queued : String := "queued"

namespace Container

def empty : Container := ⟨[], [], ([], [])⟩

/-- The document is in the listing with this path. -/
def listed (filepath : Option String) (d : Memory) : Bool :=
  match filepath, d.filepath with
  | none, _ => true
  | some _, none => false
  | some f, some p => if endsWithSlash f then startsWith p f else p = f

def get (s : Container) (id : String) : Option Memory := Table.get Memory.id s.docs id

def list (s : Container) (params : ListParams) : ListResponse :=
  let found := s.docs.filter (listed params.filepath)
  { memories := (Paging.page params.limit found params.page).map fun d =>
      if params.includeContent then d else { d with content := none }
    totalPages := Paging.totalPages params.limit found }

/-- An id longer than every id there is or was. -/
def newId (s : Container) : String :=
  String.ofList (List.replicate (((s.docs.map Memory.id ++ s.retired).map String.length).foldr max 0 + 1) 'd')

def add (s : Container) (filepath content : String) : Memory × Container :=
  let doc : Memory := ⟨s.newId, some filepath, some content, some queued, none, none, none, none, none⟩
  (doc, { s with docs := s.docs ++ [doc] })

/-- With content, the path that is sent along is ignored. -/
def update (s : Container) (id : String) (content : Option String) (filepath : String) :
    Except ApiError Memory × Container :=
  let change (d : Memory) : Memory := match content with
    | some c => { d with content := some c, status := some queued }
    | none => { d with filepath := some filepath }
  match s.get id with
  | none => (.error notFound, s)
  | some d => (.ok (change d), { s with docs := Table.modify Memory.id s.docs id change })

def delete (s : Container) (id : String) : Except ApiError Unit × Container :=
  match s.get id with
  | none => (.error notFound, s)
  | some _ => (.ok (), { s with docs := Table.erase Memory.id s.docs id, retired := id :: s.retired })

/-- Delete the documents that `which` picks, but for those that stay. -/
def deleteBulk (s : Container) (which : Memory → Bool) (stay : List (String × String)) :
    DeleteBulkResponse × Container :=
  let gone (d : Memory) : Bool := which d && !(stay.map Prod.fst).contains d.id
  ({ deletedCount := (s.docs.filter gone).length, errors := stay },
    { s with docs := s.docs.filter (!gone ·), retired := (s.docs.filter gone).map Memory.id ++ s.retired })

theorem newId_fresh (s : Container) : s.newId ∉ s.docs.map Memory.id ++ s.retired := by
  intro hmem
  have hle : ∀ {ids : List String} {id : String}, id ∈ ids → id.length ≤ (ids.map String.length).foldr max 0 := by
    intro ids id hid
    induction ids with
    | nil => cases hid
    | cons x ids ih =>
      rw [List.map_cons, List.foldr_cons]
      rcases List.mem_cons.mp hid with rfl | hid
      · exact le_max_left _ _
      · exact (ih hid).trans (le_max_right _ _)
  have h := hle hmem
  unfold newId at h
  rw [String.length_ofList, List.length_replicate] at h
  omega

theorem newId_ne (s : Container) : s.newId ≠ "" := by
  intro hnil
  have hlen := congrArg String.length hnil
  unfold newId at hlen
  rw [String.length_ofList, List.length_replicate] at hlen
  exact absurd hlen (Nat.succ_ne_zero _)

theorem nodup_add {s : Container} {filepath content : String} (h : (s.docs.map Memory.id).Nodup) :
    ((s.add filepath content).2.docs.map Memory.id).Nodup := by
  show ((s.docs ++ [(s.add filepath content).1]).map Memory.id).Nodup
  rw [List.map_append, List.map_singleton]
  refine List.nodup_append.mpr ⟨h, List.pairwise_singleton _ _, fun a ha b hb he => ?_⟩
  have hnew : a = s.newId := he.trans (List.mem_singleton.mp hb)
  exact s.newId_fresh (List.mem_append_left _ (hnew ▸ ha))

/-- An update finds the document, or there is none with the id. -/
theorem update_cases (s : Container) (id : String) (content : Option String) (p : String) :
    ((s.update id content p).1 = .error notFound ∧ (s.update id content p).2 = s ∧ s.get id = none) ∨
    ∃ m, (s.update id content p).1 = .ok m ∧ m.id = id ∧ (s.update id content p).2.docs =
      Table.modify Memory.id s.docs id fun d => match content with
        | some c => { d with content := some c, status := some queued }
        | none => { d with filepath := some p } := by
  unfold Container.update
  cases hg : s.get id with
  | none => exact .inl ⟨rfl, rfl, rfl⟩
  | some d =>
    refine .inr ⟨_, rfl, ?_, rfl⟩
    have hid := (Table.get_some hg).2
    cases content with
    | none => exact hid
    | some c => exact hid

end Container

/-- The server has a document at the path. -/
def Stands (s : Container) (p : String) : Prop := ∃ d ∈ s.docs, d.filepath = some p

/-- What becomes of a request. -/
inductive Fate
  | answered
  /-- A bulk delete that keeps these documents; another request is answered. -/
  | partly (stay : List (String × String))
  /-- The document is in use: status 409, and nothing is done. -/
  | busy (message : String)
  /-- Nothing is done. -/
  | failed (message : String)
  /-- It is done, but the client gets an error. -/
  | lost (message : String)

/-- The server, what the client holds, and what its requests will meet; a
request past the end of the list is answered. -/
structure World where
  server : Container
  index : PathIndex
  cache : SessionCache
  fates : List Fate

/-- What a call of the client throws: an error of its own, or the one of the
request. -/
inductive Thrown
  | fs (e : FsError)
  | api (e : ApiError)
  deriving DecidableEq, Repr

abbrev Vol (α : Type) := Job Thrown World α

def throwFs {α : Type} (e : FsError) : Vol α := throw (.fs e)

/-- The documents that a fate keeps from a bulk delete. -/
def Fate.stay : Fate → List (String × String)
  | .partly stay => stay
  | _ => []

/-- The server gets a request, and the client its answer. -/
def World.send {α : Type} (w : World) (call : List (String × String) → Container → Except ApiError α × Container) :
    Except ApiError α × World :=
  let fate := w.fates.headD .answered
  let (answer, server) := call fate.stay w.server
  let w' : World := { w with fates := w.fates.tail }
  match fate with
  | .busy message => (.error ⟨some 409, message⟩, w')
  | .failed message => (.error ⟨none, message⟩, w')
  | .lost message => (.error ⟨none, message⟩, { w' with server := server })
  | .answered => (answer, { w' with server := server })
  | .partly _ => (answer, { w' with server := server })

def request {α : Type} (call : List (String × String) → Container → Except ApiError α × Container) :
    Vol (Except ApiError α) :=
  sync fun w => w.send call

def listCall (params : ListParams) : List (String × String) → Container → Except ApiError ListResponse × Container :=
  fun _ s => (.ok (s.list params), s)

/-- `client.documents.list`. -/
def listRequest (params : ListParams) : Vol (Except ApiError ListResponse) := request (listCall params)

/-- Read what the client holds. -/
def look {α : Type} (f : World → α) : Vol α := sync fun w => (f w, w)

def changeIndex (f : PathIndex → PathIndex) : Vol Unit := sync fun w => ((), { w with index := f w.index })

def changeCache (f : SessionCache → SessionCache) : Vol Unit := sync fun w => ((), { w with cache := f w.cache })

/-- `cache.get`. -/
def cacheGet (path : String) : Vol (Option CachedEntry) :=
  sync fun w => ((w.cache.get path).1, { w with cache := (w.cache.get path).2 })

/-! ### The sections, run alone -/

variable {α : Type} (w : World)

@[simp] theorem eval_look (f : World → α) : eval (look f) w = (.ok (f w), w) := rfl

@[simp] theorem eval_throwFs (e : FsError) : eval (throwFs e : Vol α) w = (.error (.fs e), w) := rfl

@[simp] theorem eval_changeIndex (f : PathIndex → PathIndex) :
    eval (changeIndex f) w = (.ok (), { w with index := f w.index }) := rfl

@[simp] theorem eval_cacheGet (path : String) :
    eval (cacheGet path) w = (.ok (w.cache.get path).1, { w with cache := (w.cache.get path).2 }) := rfl

@[simp] theorem eval_request (call : List (String × String) → Container → Except ApiError α × Container) :
    eval (request call) w = (.ok (w.send call).1, (w.send call).2) := rfl

@[simp] theorem eval_listRequest (params : ListParams) :
    eval (listRequest params) w = (.ok (w.send (listCall params)).1, (w.send (listCall params)).2) := rfl

/-- A request leaves what the client holds. -/
theorem send_kept (call : List (String × String) → Container → Except ApiError α × Container) :
    (w.send call).2.index = w.index ∧ (w.send call).2.cache = w.cache ∧ (w.send call).2.fates = w.fates.tail := by
  unfold World.send
  cases w.fates.headD .answered <;> exact ⟨rfl, rfl, rfl⟩

/-- What the server has after a request: what it had, or what the call leaves. -/
theorem send_server (call : List (String × String) → Container → Except ApiError α × Container) :
    (w.send call).2.server = w.server ∨ ∃ stay, (w.send call).2.server = (call stay w.server).2 := by
  unfold World.send
  cases w.fates.headD .answered with
  | answered => exact .inr ⟨_, rfl⟩
  | partly stay => exact .inr ⟨stay, rfl⟩
  | busy _ => exact .inl rfl
  | failed _ => exact .inl rfl
  | lost _ => exact .inr ⟨_, rfl⟩

/-- An answer is what the call gives. -/
theorem send_answer (call : List (String × String) → Container → Except ApiError α × Container) (a : α)
    (h : (w.send call).1 = .ok a) : ∃ stay, call stay w.server = (.ok a, (w.send call).2.server) := by
  unfold World.send at h ⊢
  revert h
  cases w.fates.headD .answered with
  | answered =>
    intro h
    exact ⟨_, Prod.ext h rfl⟩
  | partly stay =>
    intro h
    exact ⟨_, Prod.ext h rfl⟩
  | busy _ =>
    intro h
    cases h
  | failed _ =>
    intro h
    cases h
  | lost _ =>
    intro h
    cases h

/-- That a document is not found comes from the server. -/
theorem send_notFound (call : List (String × String) → Container → Except ApiError α × Container) (e : ApiError)
    (h : (w.send call).1 = .error e) (he : e.status = some 404) :
    ∃ stay, call stay w.server = (.error e, (w.send call).2.server) := by
  unfold World.send at h ⊢
  revert h
  cases w.fates.headD .answered with
  | answered =>
    intro h
    exact ⟨_, Prod.ext h rfl⟩
  | partly stay =>
    intro h
    exact ⟨_, Prod.ext h rfl⟩
  | busy _ =>
    intro h
    cases h
    simp at he
  | failed _ =>
    intro h
    cases h
    cases he
  | lost _ =>
    intro h
    cases h
    cases he

/-- With no fate in its way, a request is answered. -/
theorem send_nil (h : w.fates = []) (call : List (String × String) → Container → Except ApiError α × Container) :
    w.send call = ((call [] w.server).1, { w with server := (call [] w.server).2, fates := [] }) := by
  unfold World.send
  rw [h]
  rfl

/-- A listing leaves the server. -/
theorem listCall_server (params : ListParams) : (w.send (listCall params)).2.server = w.server := by
  rcases send_server w (listCall params) with h | ⟨_, h⟩ <;> exact h

theorem listCall_answer (params : ListParams) (resp : ListResponse) (h : (w.send (listCall params)).1 = .ok resp) :
    resp = w.server.list params := by
  obtain ⟨_, h⟩ := send_answer w _ _ h
  exact (Except.ok.inj (congrArg Prod.fst h)).symm

end Smfs.Bash
