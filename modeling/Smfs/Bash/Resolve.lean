/-
# Relative paths

A path is resolved by walking its segments from a stack of names: an empty one
and `.` stay, `..` goes up, and at the root stays there. The walk of a path
that goes on after a slash is the walk of the rest from where the first part
arrived (`walk_slash`), and a normalised path is walked down to its own names
(`walk_pathOf`); so resolving in two steps is resolving at once. The Python
client walks with a loop of its own, to the same place (`normalizePath_eq_py`).

Key definitions: `resolvePath`, `walk`, `Py.normalizePath`, `Py.resolve`.
Key theorems: `normalizePath_eq_walk`, `resolvePath_eq`, `resolve_eq_py`, `resolve_laws`.
-/
import Smfs.Bash.Filepath

namespace Smfs.Bash

/-! ### The two clients -/

/-- `base.replace(/\/$/, "")`. -/
def dropSlash (base : String) : String :=
  if endsWithSlash base then String.ofList base.toList.dropLast else base

def resolvePath (base path : String) : String :=
  normalizePath (if startsWith path "/" then path else dropSlash base ++ "/" ++ path)

namespace Py

def pushSegment (stack : List String) (seg : String) : List String :=
  if seg = "" ∨ seg = "." then stack
  else if seg = ".." then (if stack ≠ [] then stack.dropLast else stack)
  else stack ++ [seg]

/-- `_normalize_path`. -/
def normalizePath (path : String) : String :=
  if path = "" ∨ path = "/" then "/"
  else "/" ++ "/".intercalate (((path.toList.splitOn '/').map String.ofList).foldl pushSegment [])

/-- `_resolve`, from the working directory. -/
def resolve (cwd path : String) : String :=
  if startsWith path "/" then normalizePath path else normalizePath (cwd ++ "/" ++ path)

end Py

/-! ### The walk -/

/-- Where the segments of a path lead from a stack of names. -/
def walk (stack : List String) (path : String) : List String :=
  ((components path).filter (· ≠ ".")).foldl pushSegment stack

variable {stack names : List String} {base path p q : String}

theorem normalizePath_eq_walk (path : String) : normalizePath path = pathOf (walk [] path) := by
  unfold normalizePath
  split_ifs with h
  · rcases h with rfl | rfl <;> decide
  · rfl

/-- After a slash the walk goes on from where it arrived. -/
theorem walk_slash (stack : List String) (p q : String) : walk stack (p ++ "/" ++ q) = walk (walk stack p) q := by
  have hlist : (p ++ "/" ++ q).toList = p.toList ++ '/' :: q.toList := by simp
  unfold walk
  rw [components_append hlist, String.ofList_toList, List.filter_append, List.foldl_append]

theorem walk_dropSlash (stack : List String) (base : String) : walk stack (dropSlash base) = walk stack base := by
  unfold dropSlash
  split_ifs with h
  · rw [endsWithSlash, decide_eq_true_eq] at h
    obtain ⟨cs, hcs⟩ := List.getLast?_eq_some_iff.mp h
    have hbase : base = String.ofList cs ++ "/" ++ "" := by
      apply String.toList_inj.mp
      simp [hcs]
    rw [hcs, List.dropLast_concat, hbase, walk_slash]
    rfl
  · rfl

/-- A normalised path leads down to its names. -/
theorem walk_pathOf (h : ∀ n ∈ names, Clean n) : walk stack (pathOf names) = stack ++ names := by
  rw [walk, components_pathOf (plain_of_clean h), segments_append h]

theorem walk_clean (path : String) : ∀ n ∈ walk [] path, Clean n :=
  segments_clean (fun _ hn => mem_segments hn) fun _ hn => (nomatch hn)

/-- What a path is resolved to. -/
theorem resolvePath_eq (base path : String) :
    resolvePath base path = pathOf (walk (if startsWith path "/" then [] else walk [] base) path) := by
  rw [resolvePath, normalizePath_eq_walk]
  split_ifs with h
  · rfl
  · rw [walk_slash, walk_dropSlash]

theorem walk_resolvePath (base path : String) : walk [] (resolvePath base path) =
    walk (if startsWith path "/" then [] else walk [] base) path := by
  have hclean : ∀ n ∈ walk (if startsWith path "/" then [] else walk [] base) path, Clean n := by
    split_ifs
    · exact walk_clean path
    · rw [← walk_slash]
      exact walk_clean _
  rw [resolvePath_eq, walk_pathOf hclean, List.nil_append]

/-- The resolved path and a relative one. -/
theorem resolvePath_twice (hp : p ≠ "") (hq : startsWith q "/" = false) :
    resolvePath (resolvePath base p) q = resolvePath base (p ++ "/" ++ q) := by
  have hstart : startsWith (p ++ "/" ++ q) "/" = startsWith p "/" := by
    obtain ⟨c, cs, hcs⟩ := List.exists_cons_of_ne_nil fun h : p.toList = [] => hp (String.toList_inj.mp h)
    simp [startsWith, hcs, List.isPrefixOf]
  rw [resolvePath_eq _ q, if_neg (by simp [hq]), walk_resolvePath, resolvePath_eq, hstart, walk_slash]

/-- Of the root, `..` is the root. -/
theorem walk_up (q : String) : walk [] ("../" ++ q) = walk [] q := by
  have h := walk_slash [] ".." q
  have hup : walk [] ".." = [] := by decide
  rw [hup] at h
  exact h

/-! ### The Python client -/

/-- What the loop does to a segment that is to be looked at. -/
theorem Py.foldl_pushSegment (stack segs : List String) : segs.foldl Py.pushSegment stack =
    ((segs.filter (· ≠ "")).filter (· ≠ ".")).foldl Bash.pushSegment stack := by
  induction segs generalizing stack with
  | nil => rfl
  | cons seg segs ih =>
    rw [List.foldl_cons, ih, Py.pushSegment]
    by_cases hempty : seg = ""
    · simp [hempty]
    · by_cases hdot : seg = "."
      · simp [hdot]
      · have hpop : (if stack ≠ [] then stack.dropLast else stack) = stack.dropLast := by
          split_ifs with hne
          · rfl
          · rw [not_not.mp hne, List.dropLast_nil]
        simp [hempty, hdot, hpop, Bash.pushSegment]

theorem components_eq (path : String) : components path = ((path.toList.splitOn '/').map String.ofList).filter (· ≠ "") := by
  rw [List.filter_map, components]
  congr 1
  apply List.filter_congr
  intro cs _
  simp

theorem normalizePath_eq_py (path : String) : Py.normalizePath path = normalizePath path := by
  unfold Py.normalizePath normalizePath
  rw [Py.foldl_pushSegment, ← components_eq]
  rfl

/-- The shell resolves from its working directory as the file system does. -/
theorem resolve_eq_py (cwd path : String) : Py.resolve cwd path = resolvePath cwd path := by
  rw [Py.resolve, normalizePath_eq_py, normalizePath_eq_py, resolvePath_eq, normalizePath_eq_walk, normalizePath_eq_walk,
    walk_slash]
  split_ifs <;> rfl

/-- **The laws of resolution.** -/
theorem resolve_laws (base p q : String) :
    Canonical (resolvePath base p) ∧ normalizePath (resolvePath base p) = resolvePath base p ∧
      (p ≠ "" → startsWith q "/" = false →
        resolvePath (resolvePath base p) q = resolvePath base (p ++ "/" ++ q)) ∧
      (resolvePath "/" ".." = "/" ∧ resolvePath "/" ("../" ++ q) = resolvePath "/" q) ∧
      ∀ path, Py.normalizePath path = normalizePath path := by
  obtain ⟨names, hnames, he⟩ := canonical_normalizePath (if startsWith p "/" then p else dropSlash base ++ "/" ++ p)
  have hres : resolvePath base p = pathOf names := he
  refine ⟨⟨names, hnames, he⟩, ?_, resolvePath_twice, ⟨by decide, ?_⟩, normalizePath_eq_py⟩
  · rw [hres, normalizePath_pathOf hnames]
  · have hroot : walk [] "/" = [] := by decide
    rw [resolvePath_eq, resolvePath_eq, hroot, ite_self, ite_self, walk_up]

theorem resolve_laws_dots : "a/b" ≠ "" ∧ startsWith "../c" "/" = false ∧
    resolvePath (resolvePath "/x" "a/b") "../c" = resolvePath "/x" ("a/b" ++ "/" ++ "../c") :=
  ⟨by decide, by decide, (resolve_laws "/x" "a/b" "../c").2.2.1 (by decide) (by decide)⟩

end Smfs.Bash
