/-
# The server

The documents of the API as the push worker meets them. A `POST` or a `PATCH`
is answered at once and processed later; a `PATCH` that arrives while the
document is not done loses its content, as the comments of `push.rs` say, and
keeps its filepath.

Key definitions: `ServerDoc`, `Server`, `Server.handle`, `Server.contentOf`.
Key theorems: `Server.contentOf_update`, `Server.contentOf_create`.
-/
import Smfs.Push

namespace Smfs

/-- A document on the server. -/
structure ServerDoc where
  id : String
  filepath : String
  content : Bytes
  done : Bool
  deriving DecidableEq, Repr

abbrev Server := List ServerDoc

namespace Server

def get (s : Server) (id : String) : Option ServerDoc := Table.get ServerDoc.id s id

/-- The content of a document. -/
def contentOf (s : Server) (id : String) : Option Bytes := (s.get id).map ServerDoc.content

/-- The document as a `PATCH` leaves it. -/
def patched (filepath : String) (content : Option Bytes) (d : ServerDoc) : ServerDoc where
  id := d.id
  filepath := filepath
  content := if d.done then content.getD d.content else d.content
  done := false

/-- The answer to a request, and the documents afterwards. `newId` is the id
of a document that the request creates. -/
def handle (s : Server) (newId : String) : Call → Answer × Server
  | .getDocument id =>
    match s.get id with
    | some d => (.status (if d.done then "done" else "processing"), s)
    | none => (.err .notFound, s)
  | .updateDocument id filepath content =>
    match s.get id with
    | some _ => (.ok, Table.modify ServerDoc.id s id (patched filepath content))
    | none => (.err .notFound, s)
  | .createDocument content filepath | .createDocumentMultipart content filepath =>
    (.created newId, s ++ [⟨newId, filepath, content, false⟩])
  | .deleteDocumentsByIds id => (.ok, Table.erase ServerDoc.id s id)
  | .deleteDocuments filepath => (.ok, s.filter fun d => d.filepath ≠ filepath)
  | .listDocuments filepath => (.documents ((s.filter fun d => d.filepath = filepath).map ServerDoc.id), s)

/-- The server has processed a document. -/
def finish (s : Server) (id : String) : Server :=
  Table.modify ServerDoc.id s id fun d => { d with done := true }

variable {s : Server} {id id' newId : String}

/-! ### Requests -/

theorem handle_getDocument : (handle s newId (.getDocument id)).2 = s := by
  unfold handle
  dsimp only
  cases s.get id <;> rfl

theorem handle_updateDocument {filepath : String} {content : Option Bytes} :
    handle s newId (.updateDocument id filepath content) = if (s.get id).isSome then
      (.ok, Table.modify ServerDoc.id s id (patched filepath content)) else (.err .notFound, s) := by
  unfold handle
  dsimp only
  cases s.get id <;> rfl

/-! ### Contents -/

theorem get_update {filepath : String} {content : Option Bytes} :
    get (Table.modify ServerDoc.id s id (patched filepath content)) id' =
      if id' = id then (s.get id).map (patched filepath content) else s.get id' :=
  Table.get_modify _ _ _ _ fun _ h => h

theorem contentOf_update {filepath : String} {content : Option Bytes} :
    contentOf (Table.modify ServerDoc.id s id (patched filepath content)) id' =
      if id' = id then (s.get id).map fun d => if d.done then content.getD d.content else d.content
      else s.contentOf id' := by
  unfold contentOf
  rw [get_update]
  split_ifs
  · cases s.get id <;> rfl
  · rfl

theorem contentOf_create {d : ServerDoc} (h : s.get d.id = none) :
    contentOf (s ++ [d]) id' = if id' = d.id then some d.content else s.contentOf id' := by
  unfold contentOf get
  rw [Table.get_append, Table.get_cons, Table.get_nil]
  by_cases he : id' = d.id
  · subst he
    have hn : Table.get ServerDoc.id s d.id = none := h
    simp [hn]
  · simp [he, Ne.symm he]

theorem contentOf_finish : (s.finish id).contentOf id' = s.contentOf id' := by
  have hg : get (s.finish id) id' = if id' = id then (s.get id).map fun d => { d with done := true }
      else s.get id' := Table.get_modify _ _ _ _ fun _ h => h
  unfold contentOf
  rw [hg]
  split_ifs with he
  · subst he
    cases s.get id' <;> rfl
  · rfl

end Server
end Smfs
