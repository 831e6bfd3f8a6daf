/-
# What a directory of the client shows

`readdirWithFileTypes` folds the paths below a directory into a map of names: a
document gives its name, one that lies deeper gives a directory, whatever was
there, and synthetic directories and the profile come where nothing has their
names. So a listing that is answered shows each name once, and as a directory
just if a document lies deeper under it or none stands there and a synthetic
directory does (`readdir_shows`).

Key definitions: `Dirents.entryOf`, `Dirents.Shows`.
Key theorems: `Dirents.get_listDocs`, `Dirents.readdir_shows`, `Dirents.readdir_sorted`.
-/
import Smfs.Bash.Held
import Smfs.Bash.Listing
import Mathlib.Data.List.Induction

namespace Smfs.Bash.Dirents

open Turns

/-- The name under which a path lies in a directory, and whether it ends there. -/
def entryOf (pre path : String) : Option (String × Bool) :=
  let rest := sliceAfter path pre
  if rest = "" then none else some (String.ofList (rest.toList.takeWhile (· ≠ '/')), !rest.toList.contains '/')

/-- The name of a synthetic directory in the directory. -/
def synthOf (pre synth : String) : Option String :=
  let rest := sliceAfter synth pre
  if !startsWith synth pre || rest = "" || rest.toList.contains '/' then none else some rest

/-- A document lies under the name, and is what it names or lies deeper. -/
def Lies (s : Container) (pre name : String) (ends : Bool) : Prop :=
  ∃ p ∈ pathsUnder s pre, entryOf pre p = some (name, ends)

/-- A synthetic directory has the name. -/
def Made (ix : PathIndex) (pre name : String) : Prop := ∃ q ∈ ix.syntheticDirs, synthOf pre q = some name

instance (s : Container) (pre name : String) (ends : Bool) : Decidable (Lies s pre name ends) :=
  inferInstanceAs (Decidable (∃ p ∈ pathsUnder s pre, _))

instance (ix : PathIndex) (pre name : String) : Decidable (Made ix pre name) :=
  inferInstanceAs (Decidable (∃ q ∈ ix.syntheticDirs, _))

/-- What the directory has under a name: a directory, or a file. -/
def Shows (s : Container) (ix : PathIndex) (norm name : String) : Bool → Prop
  | false => Lies s (dirPrefix norm) name false ∨ (¬ Lies s (dirPrefix norm) name true ∧ Made ix (dirPrefix norm) name)
  | true => ¬ Lies s (dirPrefix norm) name false ∧ (Lies s (dirPrefix norm) name true ∨
      (¬ Made ix (dirPrefix norm) name ∧ norm = "/" ∧ name = sliceAfter profilePath "/"))

variable {w : World} {pre norm name path : String} {entries : Kinds}

/-! ### The map of names -/

theorem get_listDoc : Table.get Prod.fst (listDoc pre entries path) name =
    match entryOf pre path with
    | none => Table.get Prod.fst entries name
    | some (n, ends) =>
      if name = n then some (n, ends && (Table.get Prod.fst entries n).all Prod.snd)
      else Table.get Prod.fst entries name := by
  unfold listDoc entryOf
  dsimp only
  by_cases hrest : sliceAfter path pre = ""
  · rw [if_pos hrest, if_pos hrest]
  · rw [if_neg hrest, if_neg hrest]
    dsimp only
    generalize String.ofList ((sliceAfter path pre).toList.takeWhile (· ≠ '/')) = n
    generalize (sliceAfter path pre).toList.contains '/' = deeper
    cases hn : Table.get Prod.fst entries n with
    | none =>
      rw [Table.get_set]
      simp
    | some old =>
      obtain ⟨-, hold⟩ := Table.get_some hn
      cases deeper with
      | false =>
        -- what is there stays
        rw [Bool.not_false, if_pos rfl]
        by_cases hname : name = n
        · rw [if_pos hname, hname, hn, ← hold]
          simp
        · rw [if_neg hname]
      | true =>
        rw [if_neg (by simp), Table.get_set]
        simp

/-- **The documents give each name its kind**, in whatever order they come. -/
theorem get_listDocs (paths : List String) : Table.get Prod.fst (paths.foldl (listDoc pre) []) name =
    if ∃ p ∈ paths, entryOf pre p = some (name, false) then some (name, false)
    else if ∃ p ∈ paths, entryOf pre p = some (name, true) then some (name, true) else none := by
  induction paths using List.reverseRecOn with
  | nil => simp
  | append_singleton paths path ih =>
    have hexists (ends : Bool) : (∃ p ∈ paths ++ [path], entryOf pre p = some (name, ends)) ↔
        (∃ p ∈ paths, entryOf pre p = some (name, ends)) ∨ entryOf pre path = some (name, ends) := by
      simp only [List.mem_append, List.mem_singleton, or_and_right, exists_or, exists_eq_left]
    rw [List.foldl_append, List.foldl_cons, List.foldl_nil, get_listDoc]
    simp only [hexists]
    cases hentry : entryOf pre path with
    | none => simpa using ih
    | some e =>
      obtain ⟨n, ends⟩ := e
      dsimp only
      by_cases hname : name = n
      · subst hname
        rw [if_pos rfl, ih]
        cases ends with
        | false => simp
        | true =>
          by_cases hdir : ∃ p ∈ paths, entryOf pre p = some (name, false)
          · simp [hdir]
          · have hno : ¬ ((∃ p ∈ paths, entryOf pre p = some (name, false)) ∨ some (name, true) = some (name, false)) := by
              simpa using hdir
            have hyes : (∃ p ∈ paths, entryOf pre p = some (name, true)) ∨ some (name, true) = some (name, true) := .inr rfl
            rw [if_neg hdir, if_neg hno, if_pos hyes]
            split_ifs <;> rfl
      · rw [if_neg hname, ih]
        simp [Ne.symm hname]

theorem get_listSynthetic (synth : String) : Table.get Prod.fst (listSynthetic pre entries synth) name =
    (Table.get Prod.fst entries name).or (if synthOf pre synth = some name then some (name, false) else none) := by
  unfold listSynthetic synthOf
  dsimp only
  generalize sliceAfter synth pre = rest
  by_cases hskip : (!startsWith synth pre || decide (rest = "") || rest.toList.contains '/') = true
  · rw [if_pos hskip, if_pos hskip]
    simp
  · rw [if_neg hskip, if_neg hskip]
    by_cases hname : rest = name
    · subst hname
      rw [if_pos rfl]
      cases hold : Table.get Prod.fst entries rest with
      | none =>
        rw [Option.isSome_none, if_neg Bool.false_ne_true, Table.get_set, if_pos rfl]
        rfl
      | some x =>
        rw [Option.isSome_some, if_pos rfl, hold]
        rfl
    · rw [if_neg fun he => hname (Option.some.inj he), Option.or_none]
      split_ifs
      · rfl
      · rw [Table.get_set, if_neg (Ne.symm hname)]

theorem get_listSynthetics (synths : List String) : Table.get Prod.fst (synths.foldl (listSynthetic pre) entries) name =
    (Table.get Prod.fst entries name).or
      (if ∃ q ∈ synths, synthOf pre q = some name then some (name, false) else none) := by
  induction synths generalizing entries with
  | nil => simp
  | cons q synths ih =>
    rw [List.foldl_cons, ih, get_listSynthetic, Option.or_assoc]
    congr 1
    by_cases hq : synthOf pre q = some name <;> simp [hq]

theorem get_listReserved : Table.get Prod.fst (listReserved norm entries) name =
    (Table.get Prod.fst entries name).or
      (if norm = "/" ∧ name = sliceAfter profilePath "/" then some (name, true) else none) := by
  unfold listReserved
  dsimp only
  generalize sliceAfter profilePath "/" = reserved
  by_cases hroot : norm = "/"
  · by_cases hname : name = reserved
    · subst hname
      cases hold : Table.get Prod.fst entries name with
      | none =>
        rw [if_neg (by simp [hroot]), Table.get_set, if_pos rfl, if_pos ⟨hroot, rfl⟩]
        rfl
      | some x =>
        rw [if_pos (by simp), hold]
        rfl
    · have hother : ¬ (norm = "/" ∧ name = reserved) := fun h => hname h.2
      rw [if_neg hother, Option.or_none]
      split_ifs
      · rfl
      · rw [Table.get_set, if_neg hname]
  · rw [if_pos (by simp [hroot]), if_neg fun h => hroot h.1, Option.or_none]

/-! ### Each name once -/

theorem listDoc_nodup (h : (entries.map Prod.fst).Nodup) : ((listDoc pre entries path).map Prod.fst).Nodup := by
  unfold listDoc
  dsimp only
  by_cases hrest : sliceAfter path pre = ""
  · rw [if_pos hrest]
    exact h
  · rw [if_neg hrest]
    split
    · exact Table.set_nodup h
    · split_ifs
      · exact h
      · exact Table.set_nodup h

theorem listSynthetic_nodup (h : (entries.map Prod.fst).Nodup) :
    ((listSynthetic pre entries path).map Prod.fst).Nodup := by
  unfold listSynthetic
  dsimp only
  split_ifs
  · exact h
  · exact h
  · exact Table.set_nodup h

theorem listReserved_nodup (h : (entries.map Prod.fst).Nodup) : ((listReserved norm entries).map Prod.fst).Nodup := by
  unfold listReserved
  dsimp only
  split_ifs
  · exact h
  · exact Table.set_nodup h

/-- A map of names keeps its names apart through a fold that does. -/
theorem foldl_nodup {step : Kinds → String → Kinds} (hstep : ∀ entries x, (entries.map Prod.fst).Nodup →
    ((step entries x).map Prod.fst).Nodup) (xs : List String) (h : (entries.map Prod.fst).Nodup) :
    ((xs.foldl step entries).map Prod.fst).Nodup := by
  induction xs generalizing entries with
  | nil => exact h
  | cons x xs ih => exact ih (hstep entries x h)

/-! ### What is shown -/

theorem endsWithSlash_dirPrefix (norm : String) : endsWithSlash (dirPrefix norm) = true := by
  unfold dirPrefix endsWithSlash
  split_ifs <;> simp

/-- What a directory has under a name, in the map. -/
def shown (s : Container) (ix : PathIndex) (norm : String) : Kinds :=
  listReserved norm (ix.syntheticDirPaths.foldl (listSynthetic (dirPrefix norm))
    ((pathsUnder s (dirPrefix norm)).foldl (listDoc (dirPrefix norm)) []))

theorem shown_nodup (s : Container) (ix : PathIndex) (norm : String) : ((shown s ix norm).map Prod.fst).Nodup :=
  listReserved_nodup (foldl_nodup (fun _ _ => listSynthetic_nodup) _
    (foldl_nodup (fun _ _ => listDoc_nodup) _ List.nodup_nil))

theorem mem_shown (s : Container) (ix : PathIndex) (norm name : String) (ends : Bool) :
    (name, ends) ∈ shown s ix norm ↔ Shows s ix norm name ends := by
  have hmem : (name, ends) ∈ shown s ix norm ↔ Table.get Prod.fst (shown s ix norm) name = some (name, ends) :=
    ⟨Table.get_of_mem (shown_nodup s ix norm), fun h => (Table.get_some h).1⟩
  have hmade : (∃ q ∈ ix.syntheticDirPaths, synthOf (dirPrefix norm) q = some name) ↔ Made ix (dirPrefix norm) name :=
    exists_congr fun q => and_congr_left' PathIndex.mem_syntheticDirPaths
  have hlies (ends : Bool) : (∃ p ∈ pathsUnder s (dirPrefix norm), entryOf (dirPrefix norm) p = some (name, ends)) ↔
      Lies s (dirPrefix norm) name ends := .rfl
  rw [hmem, shown, get_listReserved, get_listSynthetics, get_listDocs]
  simp only [hmade, hlies]
  cases ends with
  | false =>
    unfold Shows
    by_cases hdir : Lies s (dirPrefix norm) name false
    · simp [hdir]
    · by_cases hfile : Lies s (dirPrefix norm) name true
      · simp [hdir, hfile]
      · by_cases hm : Made ix (dirPrefix norm) name
        · simp [hdir, hfile, hm]
        · simp [hdir, hfile, hm]
  | true =>
    unfold Shows
    by_cases hdir : Lies s (dirPrefix norm) name false
    · simp [hdir]
    · by_cases hfile : Lies s (dirPrefix norm) name true
      · simp [hdir, hfile]
      · by_cases hm : Made ix (dirPrefix norm) name
        · simp [hdir, hfile, hm]
        · simp [hdir, hfile, hm]

variable {localeLe : String → String → Bool} {es : List DirentEntry} {t : World}

/-- What is answered is what is shown, in the order of the names. -/
theorem readdir_eq (h : eval (readdirWithFileTypes localeLe path) w = (.ok es, t)) :
    es = ((shown w.server t.index (normalizePath path)).map direntOf).mergeSort fun a b => localeLe a.name b.name := by
  unfold readdirWithFileTypes at h
  dsimp only at h
  rw [eval_bind, eval_look, andThen_ok] at h
  split_ifs at h
  · cases h
  · rw [eval_bind] at h
    cases hl : eval (listByPrefix (dirPrefix (normalizePath path)) {}) w with
    | mk answer u =>
      rw [hl] at h
      cases answer with
      | error e => cases h
      | ok ds =>
        have hdocs : ds.map DocSummary.filepath = pathsUnder w.server (dirPrefix (normalizePath path)) :=
          listByPrefix_all (endsWithSlash_dirPrefix _) rfl rfl (congrArg Prod.fst hl)
        rw [andThen_ok, eval_bind, eval_look, andThen_ok] at h
        split_ifs at h
        · cases h
        · rw [eval_bind, eval_look, andThen_ok, hdocs] at h
          cases h
          rfl

/-- **A listing that is answered shows each name once**, as a directory or as a
file, and nothing else. -/
theorem readdir_shows (h : eval (readdirWithFileTypes localeLe path) w = (.ok es, t)) :
    (es.map DirentEntry.name).Nodup ∧ ∀ e, e ∈ es ↔
      (e.isDirectory = !e.isFile ∧ e.isSymbolicLink = false) ∧
        Shows w.server t.index (normalizePath path) e.name e.isFile := by
  have heq := readdir_eq h
  have hperm := List.mergeSort_perm ((shown w.server t.index (normalizePath path)).map direntOf)
    fun a b => localeLe a.name b.name
  rw [← heq] at hperm
  constructor
  · have hnames : ((shown w.server t.index (normalizePath path)).map direntOf).map DirentEntry.name =
        (shown w.server t.index (normalizePath path)).map Prod.fst := List.map_map
    rw [(hperm.map DirentEntry.name).nodup_iff, hnames]
    exact shown_nodup _ _ _
  · intro e
    rw [hperm.mem_iff, List.mem_map, ← mem_shown]
    constructor
    · rintro ⟨x, hx, rfl⟩
      exact ⟨⟨rfl, rfl⟩, hx⟩
    · rintro ⟨⟨hdir, hlink⟩, hx⟩
      refine ⟨_, hx, ?_⟩
      unfold direntOf
      rw [← hdir, ← hlink]

/-- The names stand in the order of `localeCompare`. -/
theorem readdir_sorted (htrans : ∀ a b c, localeLe a b = true → localeLe b c = true → localeLe a c = true)
    (htotal : ∀ a b, (localeLe a b || localeLe b a) = true)
    (h : eval (readdirWithFileTypes localeLe path) w = (.ok es, t)) :
    (es.map DirentEntry.name).Pairwise fun a b => localeLe a b = true := by
  rw [readdir_eq h, List.pairwise_map]
  exact List.pairwise_mergeSort (fun a b c => htrans a.name b.name c.name) (fun a b => htotal a.name b.name) _

/-! ### What a path is -/

variable {u : World} {st : FsStat} {text : String}

/-- `stat` of a path is the word of the index on directories, and the rest is taken for files. -/
theorem stat_kind (h : eval (stat path) w = (.ok st, t)) :
    st.isDirectory = !st.isFile ∧ st.isSymbolicLink = false ∧
      st.isFile = (isReservedFilepath (normalizePath path) || !w.index.isDirOnly (normalizePath path)) := by
  unfold stat at h
  dsimp only at h
  cases hres : isReservedFilepath (normalizePath path) with
  | true =>
    rw [hres, if_pos rfl, eval_bind, eval_cacheGet, andThen_ok] at h
    cases h
    exact ⟨rfl, rfl, rfl⟩
  | false =>
    rw [hres, if_neg Bool.false_ne_true, eval_bind] at h
    cases hdir : w.index.isDirOnly (normalizePath path) with
    | true =>
      rw [eval_statDoc_dir hdir, andThen_ok] at h
      cases h
      exact ⟨rfl, rfl, rfl⟩
    | false =>
      cases hh : hit w (normalizePath path) with
      | some c =>
        rw [eval_statDoc_hit hdir hh, andThen_ok] at h
        cases h
        exact ⟨rfl, rfl, rfl⟩
      | none =>
        rw [eval_statDoc_miss hdir hh] at h
        generalize (w.looked (normalizePath path)).send (listCall (exactly (normalizePath path) true)) = r at h
        obtain ⟨answer, v⟩ := r
        cases answer with
        | error e => cases h
        | ok resp =>
          dsimp only at h
          cases hm : found (normalizePath path) resp with
          | none =>
            rw [hm] at h
            cases h
          | some m =>
            rw [hm] at h
            cases h
            exact ⟨rfl, rfl, rfl⟩

/-- What `stat` takes for a directory has no text. -/
theorem readFile_of_directory (h : eval (stat path) w = (.ok st, t)) (hdir : st.isDirectory = true) :
    eval (readFile path) w = (.error (.fs (eisdir (normalizePath path))), w) := by
  obtain ⟨hother, -, hfile⟩ := stat_kind h
  rw [hdir, hfile] at hother
  obtain ⟨hres, hindex⟩ : isReservedFilepath (normalizePath path) = false ∧
      w.index.isDirOnly (normalizePath path) = true := by simpa using hother
  unfold readFile
  dsimp only
  rw [hres, if_neg Bool.false_ne_true, eval_bind, eval_look, andThen_ok, hindex, if_pos rfl]
  rfl

/-- A document that was found makes no directory of its path. -/
theorem not_dir_fetched {p id : String} {content : Content} {status : DocStatus} (h : w.index.isDirOnly p = false) :
    (w.fetched p id content status).index.isDirOnly p = false := by
  show (if id = "" then w.index else w.index.insert p id).isDirOnly p = false
  split_ifs with hid
  · exact h
  · have hfile : (w.index.insert p id).isFile p = true := isFile_insert.mpr (.inl rfl)
    unfold PathIndex.isDirOnly
    rw [hfile, Bool.not_true, Bool.and_false]

/-- What was read is a file to the next `stat`. -/
theorem stat_of_readFile (h : eval (readFile path) w = (.ok text, t)) (hst : eval (stat path) t = (.ok st, u)) :
    st.isFile = true := by
  obtain ⟨-, -, hfile⟩ := stat_kind hst
  rw [hfile]
  cases hres : isReservedFilepath (normalizePath path) with
  | true => rfl
  | false =>
    unfold readFile at h
    dsimp only at h
    rw [hres, if_neg Bool.false_ne_true, eval_bind, eval_look, andThen_ok] at h
    cases hdir : w.index.isDirOnly (normalizePath path) with
    | true =>
      rw [hdir, if_pos rfl] at h
      cases h
    | false =>
      rw [hdir, if_neg Bool.false_ne_true, eval_bind] at h
      cases hh : hit w (normalizePath path) with
      | some c =>
        rw [eval_getDoc_hit hh, andThen_ok] at h
        cases h
        exact congrArg (!·) hdir
      | none =>
        rw [eval_getDoc_miss hh] at h
        obtain ⟨hindex, -, -⟩ := send_kept (w.looked (normalizePath path)) (listCall (exactly (normalizePath path) true))
        generalize (w.looked (normalizePath path)).send (listCall (exactly (normalizePath path) true)) = r at h hindex
        obtain ⟨answer, v⟩ := r
        cases answer with
        | error e => cases h
        | ok resp =>
          dsimp only at h hindex
          cases hm : found (normalizePath path) resp with
          | none =>
            rw [hm] at h
            cases h
          | some m =>
            rw [hm] at h
            cases h
            exact congrArg (!·) (not_dir_fetched (hindex ▸ hdir))

end Smfs.Bash.Dirents
