/-
# An operation that fails leaves no trace

An operation first reads, then changes the tables in one transaction, and then
does what cannot fail: it tells the cache and the queue. So whichever
statements fail, an error leaves the tables and the cache as they were.
`link` reads the new attributes last, and what it throws there comes too late
(`link_allOrNothing`).

Key definitions: `Statements.VfsOp.Unread`.
Key theorems: `Statements.link_allOrNothing`, `Statements.all_or_nothing`.
-/
import Smfs.Statements

namespace Smfs
namespace Statements

open Sql

section Lemmas

variable {online : Bool} {p p' ino : Ino} {n n' : String} {nowMs : ℤ}

/-! ### What only reads -/

theorem vacant_reads : Reads (vacant p n) := by
  unfold vacant selectMode
  refine ((Reads.query _).orRaise _).bind fun mode => ?_
  split_ifs
  · exact .raise _
  · refine ((Reads.query _).bind fun _ => .pure _).bind fun taken => ?_
    split_ifs
    · exact .raise _
    · exact .pure _

theorem resolveParts_reads : ∀ {fuel : ℕ} {current : Ino}, Reads (resolveParts fuel current)
  | 0, _ => .pure _
  | fuel + 1, current => by
    unfold resolveParts
    split_ifs
    · exact .pure _
    · refine (Reads.query _).bind fun row => ?_
      cases row with
      | none => exact .pure _
      | some d => exact resolveParts_reads.bind fun _ => .pure _

theorem resolveFilepath_reads : Reads (resolveFilepath ino) := by
  unfold resolveFilepath
  split_ifs
  · exact .pure _
  · exact Reads.peek.bind fun _ => resolveParts_reads.bind fun _ => .pure _

theorem childPath_reads : Reads (childPath p n) := resolveFilepath_reads.bind fun _ => .pure _

/-! ### What never throws -/

theorem resolveParts_total : ∀ {fuel : ℕ} {current : Ino}, Total (resolveParts fuel current)
  | 0, _ => .pure _
  | fuel + 1, current => by
    unfold resolveParts
    split_ifs
    · exact .pure _
    · refine (Total.query _).bind fun row => ?_
      cases row with
      | none => exact .pure _
      | some d => exact resolveParts_total.bind fun _ => .pure _

theorem resolveFilepath_total : Total (resolveFilepath ino) := by
  unfold resolveFilepath
  split_ifs
  · exact .pure _
  · exact Total.peek.bind fun _ => resolveParts_total.bind fun _ => .pure _

theorem childPath_total : Total (childPath p n) := resolveFilepath_total.bind fun _ => .pure _

theorem setRemoteId_total {rid : String} : Total (setRemoteId ino rid) := (Total.execute _).ignore

theorem pushQueueUpsert_total {fp : String} {pl : Payload} {rid : Option String} :
    Total (pushQueueUpsert fp pl rid nowMs) := by
  unfold pushQueueUpsert
  split_ifs
  · exact .pure _
  · refine (Total.query _).bind fun started => ?_
    split_ifs
    · exact (Total.execute _).ignore
    · exact (Total.execute _).ignore

theorem retarget_total {oldFp newFp : String} {rebind : Option String} :
    Total (pushQueueRetargetPendingCreate oldFp newFp rebind nowMs) := by
  unfold pushQueueRetargetPendingCreate
  refine (Total.query _).bind fun eligible => ?_
  split_ifs
  · exact (Total.execute _).ignore.bind fun _ => (Total.statement _).bind fun _ => .pure _
  · exact .pure _

theorem eachSuffix_total {f : String → Sqlite Unit} (hf : ∀ suffix, Total (f suffix)) :
    ∀ {suffixes : List String}, Total (eachSuffix f suffixes)
  | [] => .pure _
  | suffix :: _ => (hf suffix).bind fun _ => eachSuffix_total hf

theorem cascadeUnlink_total : Total (cascadeUnlinkDerivedSiblings p n) := by
  refine eachSuffix_total fun suffix => ?_
  unfold removeDerivedSibling
  refine (Total.query _).bind fun row => ?_
  cases row with
  | none => exact .pure _
  | some i =>
    dsimp only
    split_ifs
    · exact (Total.execute _).ignore.bind fun _ => (Total.execute _).ignore.bind fun _ =>
        (Total.execute _).ignore.bind fun _ => .touch _
    · exact .pure _

theorem cascadeRename_total : Total (cascadeRenameDerivedSiblings p n p' n') := by
  refine eachSuffix_total fun suffix => ?_
  unfold renameDerivedSibling
  refine (Total.query _).bind fun row => ?_
  cases row with
  | none => exact .pure _
  | some i =>
    dsimp only
    split_ifs
    · exact (Total.execute _).ignore.bind fun _ => (Total.execute _).ignore.bind fun _ => .touch _
    · exact .pure _

theorem unlinkEnqueue_total {fp : Option String} : Total (unlinkEnqueue online fp ino nowMs) := by
  unfold unlinkEnqueue
  split
  · exact (Total.query _).bind fun _ => pushQueueUpsert_total
  · exact .pure _

theorem renamePush_total {oldFp newFp dstFp rid : Option String} {didOverwrite : Bool} :
    Total (renamePush online ino oldFp newFp dstFp didOverwrite rid nowMs) := by
  unfold renamePush
  split
  · refine retarget_total.bind fun retargeted => ?_
    split_ifs
    · cases rid with
      | none => exact .pure _
      | some rid => exact setRemoteId_total
    · refine Total.bind ?_ fun _ => (Total.query _).bind fun _ => pushQueueUpsert_total
      unfold enqueueOverwritten
      split
      · exact pushQueueUpsert_total
      · exact .pure _
  · exact .pure _

/-! ### The transactions keep to the tables -/

/-- A change that must be made. -/
theorem orIo_inTables (g : Db → Option Db) : InTables (orRaise VfsError.io (execute g) : Sqlite Unit) :=
  (InTables.execute g).orRaise _

theorem purge_inTables : InTables (purge ino) :=
  (orIo_inTables _).bind fun _ => (orIo_inTables _).bind fun _ => (orIo_inTables _).bind fun _ => orIo_inTables _

theorem unlinkTables_inTables : InTables (unlinkTables p n ino) := by
  refine (orIo_inTables _).bind fun _ => (orIo_inTables _).bind fun _ => (orIo_inTables _).bind fun _ => ?_
  refine ((InTables.query _).orRaise _).bind fun nlink => ?_
  split_ifs
  · exact purge_inTables
  · exact .pure _

theorem mayReplace_inTables {srcIsDir : Bool} : InTables (mayReplace srcIsDir ino) := by
  refine ((InTables.query _).orRaise _).bind fun dstMode => ?_
  split_ifs
  · exact .raise _
  · refine ((InTables.query _).orRaise _).bind fun count => ?_
    split_ifs
    · exact .raise _
    · exact .pure _
  · exact .raise _
  · exact .pure _

theorem removeDestination_inTables : InTables (removeDestination p n ino) :=
  (orIo_inTables _).bind fun _ => (orIo_inTables _).bind fun _ => (orIo_inTables _).bind fun _ =>
    (InTables.query _).bind fun _ => (orIo_inTables _).bind fun _ => (orIo_inTables _).bind fun _ => .pure _

theorem moveEntry_inTables : InTables (moveEntry p n p' n') := by
  refine (orIo_inTables _).bind fun _ => (orIo_inTables _).bind fun _ => (orIo_inTables _).bind fun _ => ?_
  split_ifs
  · exact orIo_inTables _
  · exact .pure _

theorem renameTables_inTables {srcIsDir : Bool} {dst : Option Ino} :
    InTables (renameTables ino srcIsDir dst p n p' n') := by
  unfold renameTables
  cases dst with
  | none => exact moveEntry_inTables.bind fun _ => .pure _
  | some dstIno =>
    dsimp only
    split_ifs
    · exact .pure _
    · exact mayReplace_inTables.bind fun _ => removeDestination_inTables.bind fun _ =>
        moveEntry_inTables.bind fun _ => .pure _

theorem writeChunks_inTables : ∀ {fuel offset : ℕ} {data : Bytes}, InTables (writeChunks ino fuel offset data)
  | 0, _, _ => .pure _
  | fuel + 1, offset, data => by
    unfold writeChunks
    dsimp only
    split_ifs
    · exact .pure _
    · refine InTables.bind ?_ fun _ => (orIo_inTables _).bind fun _ => writeChunks_inTables
      unfold chunkToWrite
      split_ifs
      · exact (InTables.query _).bind fun _ => .pure _
      · exact .pure _

theorem dropChunks_inTables {size : ℕ} : InTables (dropChunks ino size) := by
  unfold dropChunks
  split_ifs
  · exact orIo_inTables _
  · refine (orIo_inTables _).bind fun _ => ?_
    unfold trimChunk
    split_ifs
    · refine (InTables.query _).bind fun existing => ?_
      cases existing with
      | none => exact .pure _
      | some chunk =>
        dsimp only
        split_ifs
        · exact orIo_inTables _
        · exact .pure _
    · exact .pure _

/-! ### The operations -/

theorem committed_atomic {α : Type} {body : Sqlite α} (h : InTables body) : Atomic (committed body) :=
  transaction_atomic _ h

theorem validate_reads : Reads (ofExcept (Fs.validateName n) : Sqlite Unit) := .ofExcept _

theorem mkdir_atomic : Atomic (mkdir p n) := by
  refine .read validate_reads fun _ => .read vacant_reads fun _ => Atomic.andTotal (committed_atomic ?_) fun _ =>
    (Total.touch _).bind fun _ => .pure _
  exact ((InTables.statement _).orRaise _).bind fun _ => (orIo_inTables _).bind fun _ =>
    (orIo_inTables _).bind fun _ => .pure _

theorem rmdir_atomic : Atomic (rmdir p n) := by
  refine .read validate_reads fun _ => .read ((Reads.query _).orRaise _) fun childIno => ?_
  refine .read ((Reads.query _).orRaise _) fun mode => ?_
  split_ifs
  · exact .raise _
  · refine .read ((Reads.query _).orRaise _) fun count => ?_
    split_ifs
    · exact .raise _
    · refine Atomic.andTotal (committed_atomic ?_) fun _ => .touch _
      exact (orIo_inTables _).bind fun _ => (orIo_inTables _).bind fun _ => orIo_inTables _

theorem createFile_atomic : Atomic (createFile online p n) := by
  refine .read validate_reads fun _ => .read vacant_reads fun _ => Atomic.andTotal (committed_atomic ?_) fun _ =>
    (Total.touch _).bind fun _ => childPath_total.bind fun _ => .pure _
  exact ((InTables.statement _).orRaise _).bind fun _ => (orIo_inTables _).bind fun _ =>
    (orIo_inTables _).bind fun _ => .pure _

theorem unlink_atomic : Atomic (unlink online p n nowMs) := by
  refine .read validate_reads fun _ => ?_
  split_ifs
  · exact .raise _
  · refine .read childPath_reads fun filepathForApi => .read ((Reads.query _).orRaise _) fun childIno => ?_
    refine .read ((Reads.query _).orRaise _) fun mode => ?_
    split_ifs
    · exact .raise _
    · exact Atomic.andTotal (committed_atomic unlinkTables_inTables) fun _ => (Total.touch _).bind fun _ =>
        unlinkEnqueue_total.bind fun _ => cascadeUnlink_total

theorem symlink_atomic {target : String} : Atomic (symlink p n target) := by
  refine .read validate_reads fun _ => .read vacant_reads fun _ => Atomic.andTotal (committed_atomic ?_) fun _ =>
    (Total.touch _).bind fun _ => .pure _
  exact ((InTables.statement _).orRaise _).bind fun _ => (orIo_inTables _).bind fun _ =>
    (orIo_inTables _).bind fun _ => (orIo_inTables _).bind fun _ => .pure _

theorem linkNames_atomic : Atomic (linkNames ino p n) := by
  refine .read validate_reads fun _ => .read ((Reads.query _).orRaise _) fun mode => ?_
  split_ifs
  · exact .raise _
  · refine .read vacant_reads fun _ => Atomic.andTotal (committed_atomic ?_) fun _ => .touch _
    exact (orIo_inTables _).bind fun _ => (orIo_inTables _).bind fun _ => orIo_inTables _

theorem rename_atomic : Atomic (rename online p n p' n' nowMs) := by
  refine .read validate_reads fun _ => .read validate_reads fun _ => .read childPath_reads fun oldFp => ?_
  refine .read childPath_reads fun dstFp => .read ((Reads.query _).orRaise _) fun srcIno => ?_
  refine .read ((Reads.query _).orRaise _) fun dstParentMode => ?_
  split_ifs
  · exact .raise _
  · refine .read (Reads.query _) fun dstExisting => .read ((Reads.query _).orRaise _) fun srcMode => ?_
    refine Atomic.andTotal (transaction_atomic _ renameTables_inTables) fun renamed => ?_
    cases renamed with
    | none => exact .pure _
    | some r => exact (Total.touch _).bind fun _ => childPath_total.bind fun _ =>
        renamePush_total.bind fun _ => cascadeRename_total

theorem write_atomic {f : SqliteFile} {offset : ℕ} {data : Bytes} : Atomic (write f offset data nowMs) := by
  unfold write
  split_ifs
  · exact .pure _
  · exact .raise _
  · apply committed_atomic
    exact ((InTables.query _).orRaise _).bind fun _ => writeChunks_inTables.bind fun _ =>
      (orIo_inTables _).bind fun _ => .pure _

theorem truncate_atomic {f : SqliteFile} {size : ℕ} : Atomic (truncate f size) :=
  committed_atomic (dropChunks_inTables.bind fun _ => orIo_inTables _)

/-! ### `link` -/

variable {c c' : Conn Db (Lru (Ino × String) Ino)} {u : Unit}

theorem exists_apply : (exists_ p n).run c = (.ok (!c.fails 0 && (c.tables.child p n).isSome), c.next) := by
  unfold exists_
  rw [bind_ok (query_apply _ _)]
  cases c.fails 0 <;> rfl

theorem vacant_eq_ok : (vacant p n).run c = (.ok u, c') ↔ c.fails 0 = false ∧
    (∃ i, c.tables.getInode p = some i ∧ i.kind = .dir) ∧
    (c.fails 1 = true ∨ (c.tables.child p n).isSome = false) ∧ c' = c.next.next := by
  unfold vacant selectMode
  rw [bind_eq_ok]
  constructor
  · rintro ⟨mode, c₁, hmode, h⟩
    obtain ⟨hf, hm, rfl⟩ := orRaise_query_eq_ok.mp hmode
    obtain ⟨i, hi, rfl⟩ := Option.map_eq_some_iff.mp hm
    split_ifs at h with hdir
    · cases h
    · rw [bind_ok exists_apply] at h
      split_ifs at h with ht
      · cases h
      · cases h
        refine ⟨hf, ⟨i, hi, not_not.mp hdir⟩, ?_, rfl⟩
        have hfree : (!c.fails 1 && (c.tables.child p n).isSome) = false := Bool.eq_false_iff.mpr ht
        simpa [or_iff_not_imp_left] using hfree
  · rintro ⟨hf, ⟨i, hi, hdir⟩, hfree, rfl⟩
    have hmode : (c.tables.getInode p).map Inode.kind = some .dir := by rw [hi, ← hdir]; rfl
    refine ⟨.dir, c.next, orRaise_query_eq_ok.mpr ⟨hf, hmode, rfl⟩, ?_⟩
    have htaken : (!c.next.fails 0 && (c.next.tables.child p n).isSome) = false := by
      show (!c.fails 1 && (c.tables.child p n).isSome) = false
      rcases hfree with hc | hc <;> simp [hc]
    rw [if_neg (not_not.mpr rfl), bind_ok exists_apply, htaken]
    rfl

/-- The new name is made, in five statements. -/
def linked (c : Conn Db (Lru (Ino × String) Ino)) (ino p : Ino) (n : String) : Conn Db (Lru (Ino × String) Ino) where
  tables := (c.tables.updInode ino fun i => { i with nlink := i.nlink + 1 }).addDentry n p ino
  memory := c.memory
  fails := fun k => c.fails (k + 5)

theorem linkTables_eq_ok : (committed (linkTables ino p n)).run c = (.ok u, c') ↔
    (∀ k < 5, c.fails k = false) ∧ (c.tables.child p n).isSome = false ∧ c' = linked c ino p n := by
  unfold committed linkTables insertDentry updateInode updateTimes
  rw [transaction_eq_ok]
  constructor
  · rintro ⟨hbegin, c₁, h, hcommit, rfl⟩
    obtain ⟨_, c₂, h₂, h⟩ := bind_eq_ok.mp h
    obtain ⟨hf₁, _, ht, rfl⟩ := orRaise_execute_eq_ok.mp h₂
    obtain ⟨_, c₃, h₃, h⟩ := bind_eq_ok.mp h
    obtain ⟨hf₂, _, ht', rfl⟩ := orRaise_execute_eq_ok.mp h₃
    obtain ⟨hf₃, _, ht'', rfl⟩ := orRaise_execute_eq_ok.mp h
    cases ht
    split_ifs at ht' with hfree
    cases ht'
    cases ht''
    refine ⟨fun k hk => ?_, Bool.eq_false_iff.mpr hfree, rfl⟩
    match k, hk with
    | 0, _ => exact hbegin
    | 1, _ => exact hf₁
    | 2, _ => exact hf₂
    | 3, _ => exact hf₃
    | 4, _ => exact hcommit
  · rintro ⟨hf, hfree, rfl⟩
    refine ⟨hf 0 (by decide), { linked c ino p n with fails := fun k => c.fails (k + 4) }, ?_, hf 4 (by decide), rfl⟩
    have hnlink : c.next.fails 0 = false := hf 1 (by decide)
    have hdentry : c.next.next.fails 0 = false := hf 2 (by decide)
    have htimes : c.next.next.next.fails 0 = false := hf 3 (by decide)
    refine bind_eq_ok.mpr ⟨(), _, orRaise_execute_eq_ok.mpr ⟨hnlink, _, rfl, rfl⟩, ?_⟩
    refine bind_eq_ok.mpr ⟨(), _, orRaise_execute_eq_ok.mpr ⟨hdentry, _, if_neg (Bool.eq_false_iff.mp hfree), rfl⟩, ?_⟩
    exact orRaise_execute_eq_ok.mpr ⟨htimes, _, rfl, rfl⟩

theorem vacant_iff {db : Db} : Fs.vacant db p n = .ok () ↔
    (∃ i, db.getInode p = some i ∧ i.kind = .dir) ∧ (db.child p n).isSome = false := by
  unfold Fs.vacant
  cases db.getInode p with
  | none => simp
  | some i =>
    dsimp only
    split_ifs with hdir htaken
    · simp [hdir]
    · simp [htaken]
    · simp [not_not.mp hdir, htaken]

theorem linkNames_eq_ok : (linkNames ino p n).run c = (.ok u, c') ↔ Fs.validateName n = .ok () ∧
    (∃ i, c.tables.getInode ino = some i ∧ i.kind ≠ .dir) ∧ Fs.vacant c.tables p n = .ok () ∧
    (∀ k < 8, k ≠ 2 → c.fails k = false) ∧
    c' = { linked c ino p n with memory := c.memory.put (p, n) ino, fails := fun k => c.fails (k + 8) } := by
  unfold linkNames selectMode
  constructor
  · intro h
    obtain ⟨_, _, hvalid, h⟩ := bind_eq_ok.mp h
    obtain ⟨hname, rfl⟩ := ofExcept_eq_ok.mp hvalid
    obtain ⟨mode, _, hmode, h⟩ := bind_eq_ok.mp h
    obtain ⟨hsrc, hm, rfl⟩ := orRaise_query_eq_ok.mp hmode
    obtain ⟨i, hi, rfl⟩ := Option.map_eq_some_iff.mp hm
    split_ifs at h with hdir
    · cases h
    · obtain ⟨_, _, hvacant, h⟩ := bind_eq_ok.mp h
      obtain ⟨hparent, hp, -, rfl⟩ := vacant_eq_ok.mp hvacant
      obtain ⟨_, _, htables, h⟩ := bind_eq_ok.mp h
      obtain ⟨hf, hfree, rfl⟩ := linkTables_eq_ok.mp htables
      cases h
      refine ⟨hname, ⟨i, hi, hdir⟩, vacant_iff.mpr ⟨hp, hfree⟩, fun k hk hne => ?_, rfl⟩
      match k, hk with
      | 0, _ => exact hsrc
      | 1, _ => exact hparent
      | 2, _ => exact absurd rfl hne
      | k + 3, hk => exact hf k (by omega)
  · rintro ⟨hname, ⟨i, hi, hdir⟩, hvacant, hf, rfl⟩
    obtain ⟨hp, hfree⟩ := vacant_iff.mp hvacant
    have hsrc : c.fails 0 = false := hf 0 (by decide) (by decide)
    have hparent : c.next.fails 0 = false := hf 1 (by decide) (by decide)
    have hmode : (c.tables.getInode ino).map Inode.kind = some i.kind := by rw [hi]; rfl
    have htables : ∀ k < 5, c.next.next.next.fails k = false := fun k hk => hf (k + 3) (by omega) (by omega)
    refine bind_eq_ok.mpr ⟨(), c, ofExcept_eq_ok.mpr ⟨hname, rfl⟩, ?_⟩
    refine bind_eq_ok.mpr ⟨i.kind, _, orRaise_query_eq_ok.mpr ⟨hsrc, hmode, rfl⟩, ?_⟩
    rw [if_neg hdir]
    refine bind_eq_ok.mpr ⟨(), _, vacant_eq_ok.mpr ⟨hparent, hp, .inr hfree, rfl⟩, ?_⟩
    exact bind_eq_ok.mpr ⟨(), _, linkTables_eq_ok.mpr ⟨htables, hfree, rfl⟩, rfl⟩

end Lemmas

/-- The operation is a link that is made and then not read back: its checks
pass, its transaction is committed and its last statement fails. Whether the
count of the entries of the name fails does not matter. -/
def VfsOp.Unread (c : Conn Db (Lru (Ino × String) Ino)) : VfsOp → Prop
  | .name (.link ino newParentIno newName) =>
    Fs.validateName newName = .ok () ∧ (∃ i, c.tables.getInode ino = some i ∧ i.kind ≠ .dir) ∧
      Fs.vacant c.tables newParentIno newName = .ok () ∧
      (∀ k < 8, k ≠ 2 → c.fails k = false) ∧ c.fails 8 = true
  | _ => False

section Run

variable {c : Conn Db (Lru (Ino × String) Ino)} {ino p : Ino} {n : String}

theorem getInode_linked : (linked c ino p n).tables.getInode ino =
    (c.tables.getInode ino).map fun i => { i with nlink := i.nlink + 1 } := by
  show (c.tables.updInode ino fun i => { i with nlink := i.nlink + 1 }).getInode ino = _
  rw [Db.getInode_updInode (f := fun i => { i with nlink := i.nlink + 1 }) fun _ => rfl, if_pos rfl]

/-- A link is undone by an error of anything but its last statement. -/
theorem link_allOrNothing : AllOrNothing (link ino p n) c ↔ ¬ (VfsOp.name (.link ino p n)).Unread c := by
  constructor
  · rintro hall ⟨hname, hsrc, hvacant, hf, hlast⟩
    have hlinked := (linkNames_eq_ok (u := ())).mpr ⟨hname, hsrc, hvacant, hf, rfl⟩
    have hrun : (link ino p n).run c = _ := (bind_ok hlinked).trans (orRaise_query_apply _ _ _)
    have hfail : (c.fails (0 + 8)) = true := hlast
    rw [if_pos hfail] at hrun
    obtain ⟨htables, -⟩ := hall .notFound _ hrun
    have hlen : (c.tables.dentries ++ [(⟨n, p, ino⟩ : Dentry)]).length = c.tables.dentries.length :=
      congrArg (fun db => db.dentries.length) htables
    rw [List.length_append, List.length_singleton] at hlen
    omega
  · intro hread e c' h
    rcases bind_cases (linkNames ino p n) _ c with ⟨e₁, c₁, h₁, h'⟩ | ⟨_, c₁, h₁, h'⟩
    · rw [link, h'] at h
      cases h
      exact linkNames_atomic _ _ _ h₁
    · obtain ⟨hname, ⟨i, hi, hdir⟩, hvacant, hf, rfl⟩ := linkNames_eq_ok.mp h₁
      rw [link, h', orRaise_query_apply] at h
      cases hlast : c.fails 8 with
      | true => exact absurd ⟨hname, ⟨i, hi, hdir⟩, hvacant, hf, hlast⟩ hread
      | false =>
        have hok : ¬ c.fails (0 + 8) = true := Bool.eq_false_iff.mp hlast
        have hfound := (getInode_linked (c := c) (p := p) (n := n)).trans (congrArg _ hi)
        rw [if_neg hok] at h
        dsimp only at h
        rw [hfound] at h
        cases h

/-- **Whichever statements of an operation fail, an error of it leaves the
tables and the cache as they were, unless it is a link that is not read back.** -/
theorem all_or_nothing (online : Bool) (nowMs : ℤ) (op : VfsOp) (c : Conn Db (Lru (Ino × String) Ino)) :
    AllOrNothing (op.run online nowMs) c ↔ ¬ op.Unread c := by
  have hatomic {p : Sqlite Unit} (h : Atomic p) : AllOrNothing p c ↔ ¬ False := ⟨fun _ => not_false, fun _ => h c⟩
  rcases op with op | ⟨f, offset, data⟩ | ⟨f, size⟩
  · cases op with
    | mkdir p n => exact hatomic (mkdir_atomic.andTotal fun _ => .pure _)
    | rmdir p n => exact hatomic rmdir_atomic
    | createFile p n => exact hatomic (createFile_atomic.andTotal fun _ => .pure _)
    | unlink p n => exact hatomic unlink_atomic
    | symlink p n target => exact hatomic (symlink_atomic.andTotal fun _ => .pure _)
    | link ino p n =>
      refine Iff.trans ⟨fun h => ?_, allOrNothing_andTotal fun _ => .pure _⟩ link_allOrNothing
      intro e c' hc
      exact h e c' (bind_error hc)
    | rename p n p' n' => exact hatomic rename_atomic
  · exact hatomic (write_atomic.andTotal fun _ => .pure _)
  · exact hatomic truncate_atomic

end Run

/-- A file of one name. -/
private def oneName : Db := (Fs.createFile .fresh false ROOT_INO "notes.md").2

/-- The new name is there, and the answer is that there is no such file. -/
theorem link_torn : ¬ AllOrNothing ((VfsOp.name (.link 2 ROOT_INO "copy.md")).run false 0)
    (scripted oneName (Lru.empty _ _ 8 (Nat.succ_pos 7)) (List.replicate 8 false ++ [true])) := by
  intro h
  have hkept := (h .notFound _ (Prod.ext (by decide) rfl)).1
  revert hkept
  decide

end Statements
end Smfs
