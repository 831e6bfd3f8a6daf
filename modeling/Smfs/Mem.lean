/-
# The file system in memory

`MemFs` and `MemFile` (`vfs/mem.rs`): the reference implementation of the
`FileSystem` trait, a map from inode numbers to nodes. A directory holds its
entries itself. Of the attributes only the link count is kept; the size of a
file is that of its data.

Key definitions: `MemFs`, `MemFs.mkdir`, `MemFs.rename`, `MemFile.read`, `MemFile.write`.
-/
import Smfs.Names

namespace Smfs

/-! ### Open files -/

namespace MemFile

/-- `Vec::resize` with zeros. -/
def resize (data : Bytes) (size : ℕ) : Bytes := data.take size ++ List.replicate (size - data.length) 0

/-- `MemFile::read` of a regular file. -/
def read (data : Bytes) (offset size : ℕ) : Bytes :=
  let start := min offset data.length
  let stop := min (start + size) data.length
  (data.drop start).take (stop - start)

/-- `MemFile::write` of a regular file. -/
def write (file : Bytes) (offset : ℕ) (data : Bytes) : Bytes :=
  let stop := offset + data.length
  let file := if stop > file.length then resize file stop else file
  file.take offset ++ data ++ file.drop stop

/-- `MemFile::truncate`, and `MemFs::setattr` with a size, of a regular file. -/
def truncate (file : Bytes) (size : ℕ) : Bytes := resize file size

end MemFile

/-! ### Nodes -/

/-- `Node`. -/
inductive Node
  | file (nlink : UInt32) (data : Bytes)
  | directory (nlink : UInt32) (children : List (String × Ino))
  | symlink (nlink : UInt32) (target : String)
  deriving DecidableEq, Repr

namespace Node

/-- The type bits of `attr.mode`. -/
def kind : Node → FileKind
  | .file .. => .reg
  | .directory .. => .dir
  | .symlink .. => .lnk

def nlink : Node → UInt32
  | .file n _ => n
  | .directory n _ => n
  | .symlink n _ => n

def setNlink (n : UInt32) : Node → Node
  | .file _ data => .file n data
  | .directory _ children => .directory n children
  | .symlink _ target => .symlink n target

/-- What a directory holds; nothing for the other nodes. -/
def children : Node → List (String × Ino)
  | .directory _ children => children
  | _ => []

/-- The children of a directory changed; the other nodes stay. -/
def mapChildren (f : List (String × Ino) → List (String × Ino)) : Node → Node
  | .directory n children => .directory n (f children)
  | node => node

def target : Node → Option String
  | .symlink _ target => some target
  | _ => none

def isDirectory (node : Node) : Bool := node.kind = .dir

end Node

/-- `Inner`. -/
structure MemFs where
  nodes : List (Ino × Node)
  nextIno : Ino
  deriving DecidableEq

namespace MemFs

/-- `MemFs::new`. -/
def new : MemFs := ⟨[(ROOT_INO, .directory 2 [])], ROOT_INO + 1⟩

def getNode (m : MemFs) (ino : Ino) : Option Node := (Table.get Prod.fst m.nodes ino).map Prod.snd

/-- `nodes.get_mut`. -/
def updNode (m : MemFs) (ino : Ino) (f : Node → Node) : MemFs :=
  { m with nodes := Table.modify Prod.fst m.nodes ino fun e => (e.1, f e.2) }

/-- `nodes.insert` under the next inode number. -/
def addNode (m : MemFs) (node : Node) : MemFs × Ino :=
  ({ nodes := m.nodes ++ [(m.nextIno, node)], nextIno := m.nextIno + 1 }, m.nextIno)

/-- `nodes.remove`. -/
def removeNode (m : MemFs) (ino : Ino) : MemFs := { m with nodes := Table.erase Prod.fst m.nodes ino }

/-- `children.get` of a node. -/
def childOf (node : Node) (name : String) : Option Ino :=
  (Table.get Prod.fst node.children name).map Prod.snd

/-- `children.insert` in a directory. -/
def insertChild (m : MemFs) (parentIno : Ino) (name : String) (ino : Ino) : MemFs :=
  m.updNode parentIno (Node.mapChildren fun c => Table.erase Prod.fst c name ++ [(name, ino)])

/-- `children.remove` in a directory. -/
def removeChild (m : MemFs) (parentIno : Ino) (name : String) : MemFs :=
  m.updNode parentIno (Node.mapChildren fun c => Table.erase Prod.fst c name)

/-- The directory that an entry is to be read from. -/
def directory (m : MemFs) (ino : Ino) : Except VfsError Node :=
  match m.getNode ino with
  | none => .error .notFound
  | some node => if node.isDirectory then .ok node else .error .notADirectory

/-- The entry of a directory. -/
def child (m : MemFs) (parentIno : Ino) (name : String) : Except VfsError Ino :=
  match m.directory parentIno with
  | .error e => .error e
  | .ok parent =>
    match childOf parent name with
    | none => .error .notFound
    | some ino => .ok ino

/-- The checks before a name is added to a directory. -/
def vacant (m : MemFs) (parentIno : Ino) (name : String) : Except VfsError Unit :=
  match m.directory parentIno with
  | .error e => .error e
  | .ok parent => if (childOf parent name).isSome then .error .alreadyExists else .ok ()

/-- `attr.nlink += 1` on a `u32`. -/
def bump (node : Node) : Node := node.setNlink (node.nlink + 1)

/-! ### Operations -/

/-- A new node under a name, as `mkdir`, `create_file` and `symlink` make it. -/
def create (m : MemFs) (parentIno : Ino) (name : String) (node : Node) : Except VfsError Ino × MemFs :=
  match Fs.validateName name with
  | .error e => (.error e, m)
  | .ok () =>
    match m.vacant parentIno name with
    | .error e => (.error e, m)
    | .ok () =>
      let added := m.addNode node
      (.ok added.2, added.1.insertChild parentIno name added.2)

/-- `mkdir`: the parent gains a link for the `..` of the child. -/
def mkdir (m : MemFs) (parentIno : Ino) (name : String) : Except VfsError Ino × MemFs :=
  match m.create parentIno name (.directory 2 []) with
  | (.ok ino, m) => (.ok ino, m.updNode parentIno bump)
  | failed => failed

/-- `create_file`. -/
def createFile (m : MemFs) (parentIno : Ino) (name : String) : Except VfsError Ino × MemFs :=
  m.create parentIno name (.file 1 [])

/-- `symlink`. -/
def symlink (m : MemFs) (parentIno : Ino) (name target : String) : Except VfsError Ino × MemFs :=
  m.create parentIno name (.symlink 1 target)

/-- `rmdir`. -/
def rmdir (m : MemFs) (parentIno : Ino) (name : String) : Except VfsError Unit × MemFs :=
  match Fs.validateName name with
  | .error e => (.error e, m)
  | .ok () =>
    match m.child parentIno name with
    | .error e => (.error e, m)
    | .ok childIno =>
      match m.directory childIno with
      | .error e => (.error e, m)
      | .ok node =>
        if !node.children.isEmpty then (.error .notEmpty, m)
        else
          let m := m.removeChild parentIno name
          let m := m.updNode parentIno fun n => if n.nlink > 2 then n.setNlink (n.nlink - 1) else n
          (.ok (), m.removeNode childIno)

/-- `unlink`. -/
def unlink (m : MemFs) (parentIno : Ino) (name : String) : Except VfsError Unit × MemFs :=
  match Fs.validateName name with
  | .error e => (.error e, m)
  | .ok () =>
    match m.child parentIno name with
    | .error e => (.error e, m)
    | .ok childIno =>
      match m.getNode childIno with
      | none => (.error .notFound, m)
      | some node =>
        if node.isDirectory then (.error .isADirectory, m)
        else
          let m := m.removeChild parentIno name
          (.ok (), if node.nlink > 1 then m.updNode childIno fun n => n.setNlink (n.nlink - 1)
            else m.removeNode childIno)

/-- `readlink`. -/
def readlink (m : MemFs) (ino : Ino) : Except VfsError (Option String) :=
  match m.getNode ino with
  | none => .ok none
  | some node =>
    match node.target with
    | some target => .ok (some target)
    | none => .error .notASymlink

/-- `link`. -/
def link (m : MemFs) (ino newParentIno : Ino) (newName : String) : Except VfsError Unit × MemFs :=
  match Fs.validateName newName with
  | .error e => (.error e, m)
  | .ok () =>
    match m.getNode ino with
    | none => (.error .notFound, m)
    | some node =>
      if node.isDirectory then (.error .isADirectory, m)
      else
        match m.vacant newParentIno newName with
        | .error e => (.error e, m)
        | .ok () => (.ok (), (m.updNode ino bump).insertChild newParentIno newName ino)

/-- Whether `rename` may put a node in the place of another one. -/
def mayReplace (m : MemFs) (srcIno dstIno : Ino) : Except VfsError Unit :=
  let srcIsDir := (m.getNode srcIno).any Node.isDirectory
  let dstIsDir := (m.getNode dstIno).any Node.isDirectory
  if srcIsDir then
    if !dstIsDir then .error .notADirectory
    else if (m.getNode dstIno).any fun n => !n.children.isEmpty then .error .notEmpty
    else .ok ()
  else if dstIsDir then .error .isADirectory
  else .ok ()

/-- The entry of `rename` moves. -/
def moveChild (m : MemFs) (srcIno oldParentIno : Ino) (oldName : String) (newParentIno : Ino)
    (newName : String) : MemFs :=
  (m.removeChild oldParentIno oldName).insertChild newParentIno newName srcIno

/-- `rename`. -/
def rename (m : MemFs) (oldParentIno : Ino) (oldName : String) (newParentIno : Ino) (newName : String) :
    Except VfsError Unit × MemFs :=
  match Fs.validateName oldName, Fs.validateName newName with
  | .error e, _ => (.error e, m)
  | .ok (), .error e => (.error e, m)
  | .ok (), .ok () =>
    match m.child oldParentIno oldName, m.directory newParentIno with
    | .error e, _ => (.error e, m)
    | .ok _, .error e => (.error e, m)
    | .ok srcIno, .ok newParent =>
      match childOf newParent newName with
      | none => (.ok (), m.moveChild srcIno oldParentIno oldName newParentIno newName)
      | some dstIno =>
        if dstIno = srcIno then (.ok (), m)
        else
          match m.mayReplace srcIno dstIno with
          | .error e => (.error e, m)
          | .ok () => (.ok (), (m.removeNode dstIno).moveChild srcIno oldParentIno oldName newParentIno newName)

open Fs (outcome) in
/-- An operation on names. -/
def apply (m : MemFs) : Fs.NameOp → Option VfsError × MemFs
  | .mkdir p n => (outcome (m.mkdir p n).1, (m.mkdir p n).2)
  | .rmdir p n => (outcome (m.rmdir p n).1, (m.rmdir p n).2)
  | .createFile p n => (outcome (m.createFile p n).1, (m.createFile p n).2)
  | .unlink p n => (outcome (m.unlink p n).1, (m.unlink p n).2)
  | .symlink p n t => (outcome (m.symlink p n t).1, (m.symlink p n t).2)
  | .link i p n => (outcome (m.link i p n).1, (m.link i p n).2)
  | .rename p n p' n' => (outcome (m.rename p n p' n').1, (m.rename p n p' n').2)

/-! ### Nodes after an update -/

section Lemmas

variable {m : MemFs} {i j : Ino} {name n : String} {node : Node}

theorem getNode_updNode {f : Node → Node} :
    (m.updNode i f).getNode j = if j = i then (m.getNode i).map f else m.getNode j := by
  have hget : Table.get Prod.fst (Table.modify Prod.fst m.nodes i fun e => (e.1, f e.2)) j =
      if j = i then (Table.get Prod.fst m.nodes i).map fun e => (e.1, f e.2) else Table.get Prod.fst m.nodes j :=
    Table.get_modify _ _ _ _ fun _ h => h
  unfold getNode updNode
  dsimp only
  rw [hget]
  split_ifs
  · cases Table.get Prod.fst m.nodes i <;> rfl
  · rfl

theorem getNode_removeNode : (m.removeNode i).getNode j = if j = i then none else m.getNode j := by
  unfold getNode removeNode
  dsimp only
  rw [Table.get_erase]
  split_ifs <;> rfl

theorem getNode_addNode (h : m.getNode m.nextIno = none) :
    (m.addNode node).1.getNode j = if j = m.nextIno then some node else m.getNode j := by
  unfold getNode addNode
  dsimp only
  rw [Table.get_append, Table.get_cons, Table.get_nil]
  by_cases hj : j = m.nextIno
  · subst hj
    rw [if_pos rfl, if_pos rfl, Option.map_eq_none_iff.mp h]
    rfl
  · rw [if_neg (Ne.symm hj), if_neg hj, Option.or_none]

theorem childOf_insert (h : node.isDirectory = true) :
    childOf (node.mapChildren fun c => Table.erase Prod.fst c name ++ [(name, i)]) n =
      if n = name then some i else childOf node n := by
  cases node with
  | directory k c =>
    unfold childOf
    show (Table.get Prod.fst (Table.erase Prod.fst c name ++ [(name, i)]) n).map Prod.snd = _
    rw [Table.get_append, Table.get_erase, Table.get_cons, Table.get_nil]
    by_cases hn : n = name
    · rw [if_pos hn, if_pos hn, if_pos hn.symm]
      rfl
    · rw [if_neg hn, if_neg hn, if_neg (Ne.symm hn), Option.or_none]
      rfl
  | file | symlink => cases h

theorem childOf_erase : childOf (node.mapChildren fun c => Table.erase Prod.fst c name) n =
    if n = name then none else childOf node n := by
  cases node with
  | directory k c =>
    unfold childOf
    show (Table.get Prod.fst (Table.erase Prod.fst c name) n).map Prod.snd = _
    rw [Table.get_erase]
    split_ifs <;> rfl
  | file | symlink =>
    split_ifs <;> rfl

end Lemmas

end MemFs
end Smfs
