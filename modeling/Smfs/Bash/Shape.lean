/-
# No path is both a file and a directory

`addDoc` and `moveDoc` let no document stand above or below another, but
directories are marked by other routes: `mkdir` asks whether its path is a
file and not what is above it, and the tree operations mark their target and
the images of the directories under their source without asking. Nor do the
writes ask for marks below their path. So a directory may come to lie under a
file, and a file over a directory. In a run whose calls do not do that
(`Caught`), the files and directories are those of a tree (`stays_apart`).

Key definitions: `Shape.Tree`, `Shape.Fits`, `Shape.Refused`, `Shape.Caught`.
Key theorems: `Shape.Tree.extend`, `Shape.call_within`, `Shape.refused_unchanged`, `Shape.stays_apart`, `Shape.marked_below`.
-/
import Smfs.Lib.Reach
import Smfs.Bash.Held

namespace Smfs.Bash.Shape

open Turns Trans

/-! ### Trees of paths -/

/-- `q` lies strictly below `p`. -/
def Below (q p : String) : Prop := startsWith q (withSlash p) = true

/-- A path with a name. -/
def Named (p : String) : Prop := ∃ names, names ≠ [] ∧ (∀ n ∈ names, Clean n) ∧ p = pathOf names

/-- Files and directories of a tree: none is both, and nothing is below a
file. -/
structure Tree (F D : String → Prop) : Prop where
  files : ∀ p, F p → Named p
  dirs : ∀ d, D d → Named d
  apart : ∀ p, F p → ¬ D p
  above : ∀ p, F p → ∀ q, F q ∨ D q → ¬ Below q p

/-- A file may be put here. -/
structure FileFits (F D : String → Prop) (p : String) : Prop where
  files : ∀ q, F q → ¬ Below q p ∧ ¬ Below p q
  apart : ¬ D p
  dirs : ∀ d, D d → ¬ Below d p

/-- A directory may be put here. -/
def DirFits (F : String → Prop) (d : String) : Prop := ∀ p, F p → p ≠ d ∧ ¬ Below d p

variable {F D F' D' S T : String → Prop} {p q d src dest : String} {names rest : List String} {w t : World}

theorem Tree.mono (h : Tree F D) (hF : ∀ p, F' p → F p) (hD : ∀ d, D' d → D d) : Tree F' D' :=
  ⟨fun p hp => h.files p (hF p hp), fun d hd => h.dirs d (hD d hd), fun p hp hd => h.apart p (hF p hp) (hD p hd),
    fun p hp q hq => h.above p (hF p hp) q (hq.imp (hF q) (hD q))⟩

/-- A tree takes the files and directories of another, where they fit. -/
theorem Tree.extend (h : Tree F D) (h' : Tree S T) (hS : ∀ p, S p → FileFits F D p) (hT : ∀ d, T d → DirFits F d) :
    Tree (fun p => F p ∨ S p) (fun d => D d ∨ T d) where
  files p hp := hp.elim (h.files p) (h'.files p)
  dirs d hd := hd.elim (h.dirs d) (h'.dirs d)
  apart := by
    rintro p (hp | hp) (hd | hd)
    · exact h.apart p hp hd
    · exact (hT p hd p hp).1 rfl
    · exact (hS p hp).apart hd
    · exact h'.apart p hp hd
  above := by
    rintro p (hp | hp) q ((hq | hq) | (hq | hq))
    · exact h.above p hp q (.inl hq)
    · exact ((hS q hq).files p hp).2
    · exact h.above p hp q (.inr hq)
    · exact (hT q hq p hp).2
    · exact ((hS p hp).files q hq).1
    · exact h'.above p hp q (.inl hq)
    · exact (hS p hp).dirs q hq
    · exact h'.above p hp q (.inr hq)

/-! ### Paths of names -/

theorem below_names (hnames : ∀ n ∈ names, Clean n) (hrest : ∀ n ∈ rest, Clean n) (hne : names ≠ []) :
    Below (pathOf rest) (pathOf names) ↔ ∃ more, more ≠ [] ∧ rest = names ++ more :=
  below_iff (plain_of_clean hnames) (plain_of_clean hrest) hne

theorem pathOf_clean_inj (hnames : ∀ n ∈ names, Clean n) (hrest : ∀ n ∈ rest, Clean n)
    (h : pathOf names = pathOf rest) :
    names = rest := pathOf_inj (plain_of_clean hnames) (plain_of_clean hrest) h

theorem clean_append (hnames : ∀ n ∈ names, Clean n) (hrest : ∀ n ∈ rest, Clean n) : ∀ n ∈ names ++ rest, Clean n :=
  fun n hn => (List.mem_append.mp hn).elim (hnames n) (hrest n)

theorem Named.slash (h : Named p) : endsWithSlash p = false := by
  obtain ⟨names, hne, hclean, rfl⟩ := h
  exact endsWithSlash_pathOf (plain_of_clean hclean) hne

theorem Named.not_below_self (h : Named p) : ¬ Below p p := by
  unfold Below
  rw [Bash.not_below_self h.slash]
  exact Bool.false_ne_true

theorem Named.below_trans (hp : Named p) (hq : Named q) (hd : Named d) (h : Below d q) (h' : Below q p) :
    Below d p := by
  obtain ⟨a, hane, ha, rfl⟩ := hp
  obtain ⟨b, hbne, hb, rfl⟩ := hq
  obtain ⟨c, -, hc, rfl⟩ := hd
  obtain ⟨more, hmore, rfl⟩ := (below_names ha hb hane).mp h'
  obtain ⟨more', -, rfl⟩ := (below_names hb hc hbne).mp h
  exact (below_names ha hc hane).mpr ⟨more ++ more', by simp [hmore], List.append_assoc _ _ _⟩

/-- A normalised path is the root or has a name. -/
theorem normalizePath_cases (path : String) : normalizePath path = "/" ∨ Named (normalizePath path) := by
  obtain ⟨names, hplain, h⟩ := canonical_normalizePath path
  by_cases hne : names = []
  · exact .inl (by rw [h, hne]; rfl)
  · exact .inr ⟨names, hne, hplain, h⟩

theorem check_root : checkFilepath "/" ≠ none := by decide

theorem named_of_check (path : String) (h : checkFilepath (normalizePath path) = none) :
    Named (normalizePath path) := by
  rcases normalizePath_cases path with hroot | hnamed
  · exact absurd (hroot ▸ h) check_root
  · exact hnamed

/-- What lies under a directory, by the names below it. -/
theorem under_names (hsrc : ∀ n ∈ names, Clean n) (hp : Named p) (h : Below p (pathOf names)) :
    ∃ rest, rest ≠ [] ∧ (∀ n ∈ rest, Clean n) ∧ p = pathOf (names ++ rest) := by
  obtain ⟨all, hne, hall, rfl⟩ := hp
  by_cases hnil : names = []
  · subst hnil
    exact ⟨all, hne, hall, rfl⟩
  · obtain ⟨rest, hrest, rfl⟩ := (below_names hsrc hall hnil).mp h
    exact ⟨rest, hrest, fun n hn => hall n (List.mem_append_right _ hn), rfl⟩

/-! ### Images of a tree -/

/-- An image, by the names below the source. -/
theorem images_names {X : String → Prop} {s t : List String} (hs : ∀ n ∈ s, Clean n) (ht : ∀ n ∈ t, Clean n)
    (hX : ∀ p, X p → Named p) (h : Images (pathOf s) (pathOf t) X q) :
    ∃ rest, rest ≠ [] ∧ (∀ n ∈ rest, Clean n) ∧ X (pathOf (s ++ rest)) ∧ q = pathOf (t ++ rest) := by
  obtain ⟨f, hf, hunder, rfl⟩ := h
  obtain ⟨rest, hrest, hclean, rfl⟩ := under_names hs (hX f hf) hunder
  exact ⟨rest, hrest, hclean, hf, under_pathOf (plain_of_clean hs) (plain_of_clean ht) hrest⟩

/-- The images of a tree, with their target, are a tree. -/
theorem Tree.images (h : Tree F D) (hsrc : Canonical src) (hdest : Canonical dest) :
    Tree (Images src dest F) (fun d => (d = dest ∧ d ≠ "/") ∨ Images src dest D d) := by
  obtain ⟨s, hs, rfl⟩ := hsrc
  obtain ⟨t, ht, rfl⟩ := hdest
  have hnamed : ∀ rest, rest ≠ [] → (∀ n ∈ rest, Clean n) → Named (pathOf (t ++ rest)) :=
    fun rest hne hr => ⟨t ++ rest, by simp [hne], clean_append ht hr, rfl⟩
  refine ⟨fun p hp => ?_, fun d hd => ?_, fun p hp hd => ?_, fun p hp q hq hbelow => ?_⟩
  · obtain ⟨rest, hne, hr, -, rfl⟩ := images_names hs ht h.files hp
    exact hnamed rest hne hr
  · rcases hd with ⟨rfl, hroot⟩ | hd
    · exact ⟨t, fun hnil => hroot (by rw [hnil]; rfl), ht, rfl⟩
    · obtain ⟨rest, hne, hr, -, rfl⟩ := images_names hs ht h.dirs hd
      exact hnamed rest hne hr
  · obtain ⟨rest, hne, hr, hf, rfl⟩ := images_names hs ht h.files hp
    rcases hd with ⟨he, -⟩ | hd
    · have hlist := pathOf_clean_inj (clean_append ht hr) ht he
      simp [hne] at hlist
    · obtain ⟨rest', hne', hr', hd', he⟩ := images_names hs ht h.dirs hd
      have hlist := pathOf_clean_inj (clean_append ht hr) (clean_append ht hr') he
      obtain rfl := List.append_cancel_left hlist
      exact h.apart _ hf hd'
  · obtain ⟨rest, hne, hr, hf, rfl⟩ := images_names hs ht h.files hp
    -- what lies below an image is no target, and as an image it lay below
    have hcontra : ∀ X : String → Prop, (∀ p, X p → Named p) → Images (pathOf s) (pathOf t) X q →
        ∃ g, X g ∧ Below g (pathOf (s ++ rest)) := by
      intro X hX hx
      obtain ⟨rest', hne', hr', hx', rfl⟩ := images_names hs ht hX hx
      obtain ⟨more, hmore, he⟩ := (below_names (clean_append ht hr) (clean_append ht hr') (by simp [hne])).mp hbelow
      rw [List.append_assoc] at he
      obtain rfl := List.append_cancel_left he
      refine ⟨_, hx', (below_names (clean_append hs hr) (clean_append hs hr') (by simp [hne])).mpr ⟨more, hmore, ?_⟩⟩
      rw [List.append_assoc]
    rcases hq with hq | ⟨rfl, -⟩ | hq
    · obtain ⟨g, hg, hb⟩ := hcontra F h.files hq
      exact h.above _ hf g (.inl hg) hb
    · obtain ⟨more, -, he⟩ := (below_names (clean_append ht hr) ht (by simp [hne])).mp hbelow
      rw [List.append_assoc] at he
      simp [hne] at he
    · obtain ⟨g, hg, hb⟩ := hcontra D h.dirs hq
      exact h.above _ hf g (.inr hg) hb

/-! ### The calls -/

inductive Act
  | mkdir (path : String) (recursive : Bool)
  | writeFile (path : String) (content : Content)
  | appendFile (path : String) (content : Content)
  | mv (sched : ℕ → List ℕ) (src dest : String)
  | cp (sched : ℕ → List ℕ) (src dest : String) (recursive : Bool)
  | rm (path : String) (options : RmOptions)
  | rmdir (path : String)

def call : Act → Vol Unit
  | .mkdir path recursive => Bash.mkdir path recursive
  | .writeFile path content => Bash.writeFile path content
  | .appendFile path content => Bash.appendFile path content
  | .mv sched src dest => Bash.mv sched src dest
  | .cp sched src dest recursive => Bash.cp sched src dest recursive
  | .rm path options => Bash.rm path options
  | .rmdir path => Bash.rmdir path

/-- A call, whatever it answers. -/
def step (w : World) (a : Act) : Option World := some (eval (call a) w).2

/-- Nothing is on the server, and nothing indexed. -/
structure Start (w : World) : Prop where
  docs : w.server.docs = []
  index : w.index = .new

/-- What is held and what is marked make a tree. -/
def Tidy (w : World) : Prop := Tree (Held w) (· ∈ w.index.syntheticDirs)

/-- The source is a directory to the call. -/
def FromTree (w : World) (src : String) : Prop :=
  isReservedFilepath (normalizePath src) = false ∧ w.index.isDirOnly (normalizePath src) = true

/-- The images of the files and of the directories fit. -/
structure TreeFits (w : World) (src dest : String) : Prop where
  files : ∀ p, Images src dest (Held w) p → FileFits (Held w) (· ∈ w.index.syntheticDirs) p
  dirs : ∀ d, Marks src dest w d → DirFits (Held w) d

/-- The files and directories that the call is to make fit into the tree. -/
def Fits (w : World) : Act → Prop
  | .mkdir path _ => DirFits (Held w) (normalizePath path)
  | .writeFile path _ => FileFits (Held w) (· ∈ w.index.syntheticDirs) (normalizePath path)
  | .appendFile path _ => FileFits (Held w) (· ∈ w.index.syntheticDirs) (normalizePath path)
  | .mv _ src dest | .cp _ src dest _ =>
    (FromTree w src → TreeFits w (normalizePath src) (normalizePath dest)) ∧
      (¬ FromTree w src → FileFits (Held w) (· ∈ w.index.syntheticDirs) (normalizePath dest))
  | .rm _ _ => True
  | .rmdir _ => True

/-- The index says of the path what the server says. -/
def Tracked (w : World) (p : String) : Prop := w.index.resolve p =
    (found p (w.server.list (exactly p true))).map Memory.id

/-- One of the checks of the call refuses it, or there is nothing to move or
copy. -/
def Refused (w : World) : Act → Prop
  | .mkdir path recursive =>
    isReservedFilepath (normalizePath path) = true ∨ w.index.isFile (normalizePath path) = true ∨
      (w.index.isDirectory (normalizePath path) = true ∧ recursive = false)
  | .writeFile path _ =>
    isReservedFilepath (normalizePath path) = true ∨ w.index.isDirOnly (normalizePath path) = true ∨
      assertWritable w.index (normalizePath path) .addDoc ≠ none
  | .appendFile path _ =>
    isReservedFilepath (normalizePath path) = true ∨ w.index.isDirOnly (normalizePath path) = true ∨
      (Tracked w (normalizePath path) ∧ assertWritable w.index (normalizePath path) .addDoc ≠ none)
  | .mv _ src dest =>
    isReservedFilepath (normalizePath src) = true ∨ isReservedFilepath (normalizePath dest) = true ∨
      (w.index.isDirOnly (normalizePath src) = false ∧
        (assertWritable w.index (normalizePath dest) .moveDoc ≠ none ∨ ¬ Held w (normalizePath src)))
  | .cp _ src dest recursive =>
    isReservedFilepath (normalizePath dest) = true ∨
      (isReservedFilepath (normalizePath src) = true ∧ assertWritable w.index (normalizePath dest) .addDoc ≠ none) ∨
      (FromTree w src ∧ recursive = false) ∨
      (isReservedFilepath (normalizePath src) = false ∧ w.index.isDirOnly (normalizePath src) = false ∧
        (¬ Held w (normalizePath src) ∨
          (Tracked w (normalizePath src) ∧ assertWritable w.index (normalizePath dest) .addDoc ≠ none)))
  | .rm _ _ => False
  | .rmdir _ => False

/-- The call does not break the tree, or the code refuses it. -/
def Caught (w : World) (a : Act) : Prop := Fits w a ∨ Refused w a

/-- The server, the directories and what is indexed stay. -/
structure Unchanged (w t : World) : Prop where
  server : t.server = w.server
  dirs : t.index.syntheticDirs = w.index.syntheticDirs
  index : ∀ p, t.index.resolve p = w.index.resolve p

/-! ### What a call adds -/

/-- The files a call may add. -/
def added (w : World) : Act → String → Prop
  | .mkdir _ _ => noPath
  | .writeFile path _ => Written (normalizePath path)
  | .appendFile path _ => Written (normalizePath path)
  | .mv _ src dest | .cp _ src dest _ => fun p =>
    (FromTree w src ∧ Images (normalizePath src) (normalizePath dest) (Held w) p) ∨
      (¬ FromTree w src ∧ Written (normalizePath dest) p)
  | .rm _ _ => noPath
  | .rmdir _ => noPath

/-- The directories a call may mark. -/
def marked (w : World) : Act → String → Prop
  | .mkdir path _ => (· ∈ upTo (normalizePath path))
  | .mv _ src dest | .cp _ src dest _ => fun d => FromTree w src ∧ Marks (normalizePath src) (normalizePath dest) w d
  | _ => noPath

theorem mem_upTo (h : ∀ n ∈ names, Plain n) :
    d ∈ upTo (pathOf names) ↔ ∃ i, 1 ≤ i ∧ i ≤ names.length ∧ d = pathOf (names.take i) := by
  unfold upTo
  rw [components_pathOf h]
  simp only [List.mem_map, List.mem_range'_1]
  constructor
  · rintro ⟨i, hi, rfl⟩
    exact ⟨i, hi.1, by omega, rfl⟩
  · rintro ⟨i, h1, h2, rfl⟩
    exact ⟨i, ⟨h1, by omega⟩, rfl⟩

/-- A path with a name is one of those up to it. -/
theorem Named.mem_upTo (h : Named p) : p ∈ upTo p := by
  obtain ⟨names, hne, hclean, rfl⟩ := h
  refine (Shape.mem_upTo (plain_of_clean hclean)).mpr ⟨names.length, List.length_pos_iff.mpr hne, le_rfl, ?_⟩
  rw [List.take_length]

/-- What lies up to a path has a name, and the path is it or lies below it. -/
theorem upTo_cases (h : Named p) (hd : d ∈ upTo p) : Named d ∧ (d = p ∨ Below p d) := by
  obtain ⟨names, -, hclean, rfl⟩ := h
  obtain ⟨i, h1, h2, rfl⟩ := (Shape.mem_upTo (plain_of_clean hclean)).mp hd
  have htake : ∀ n ∈ names.take i, Clean n := fun n hn => hclean n (List.mem_of_mem_take hn)
  have hne : names.take i ≠ [] := by
    rw [← List.length_pos_iff, List.length_take]
    omega
  refine ⟨⟨_, hne, htake, rfl⟩, ?_⟩
  by_cases hdrop : names.drop i = []
  · refine .inl ?_
    rw [← List.take_append_drop i names, hdrop, List.append_nil, List.take_take, Nat.min_self]
  · exact .inr ((below_names htake hclean hne).mpr ⟨_, hdrop, (List.take_append_drop i names).symm⟩)

theorem upTo_root : upTo "/" = [] := by decide

theorem mkdir_within (path : String) (recursive : Bool) :
    Within noPath (· ∈ upTo (normalizePath path)) w (eval (mkdir path recursive) w).2 := by
  have hself : ∀ ix : PathIndex, Spread (· ∈ upTo (normalizePath path)) ix (ix.markSyntheticDir (normalizePath path)) :=
    fun ix => spread_mark fun hroot => ((normalizePath_cases path).resolve_left hroot).mem_upTo
  unfold mkdir
  dsimp only
  by_cases hres : isReservedFilepath (normalizePath path) = true
  · rw [if_pos hres]
    exact .refl w
  rw [if_neg hres, eval_bind, eval_look, andThen_ok]
  by_cases hfile : w.index.isFile (normalizePath path) = true
  · rw [if_pos hfile]
    exact .refl w
  rw [if_neg hfile, eval_bind, eval_look, andThen_ok]
  by_cases hdir : (w.index.isDirectory (normalizePath path) && !recursive) = true
  · rw [if_pos hdir]
    exact .refl w
  rw [if_neg hdir, eval_changeIndex]
  cases recursive with
  | true => exact (spread_foldl (fun ix d hd => spread_mark fun _ => hd) w.index).within
  | false => exact (hself w.index).within

theorem writeFile_within (path : String) (content : Content) :
    Within (Written (normalizePath path)) noPath w (eval (writeFile path content) w).2 := by
  rw [eval_writeFile]
  split_ifs
  · exact .refl w
  · exact addDoc_within

theorem appendFile_within (path : String) (content : Content) :
    Within (Written (normalizePath path)) noPath w (eval (appendFile path content) w).2 := by
  unfold appendFile
  dsimp only
  split_ifs with hres
  · exact .refl w
  rw [eval_bind, eval_look, andThen_ok]
  split_ifs with hdir
  · exact .refl w
  rw [eval_bind]
  have hread : Within (Written (normalizePath path)) noPath w _ := noPath_mono (getDoc_within (p := normalizePath path))
  generalize eval (getDoc (normalizePath path)) w = r at hread
  obtain ⟨existing, t⟩ := r
  cases existing with
  | error e => exact hread
  | ok existing =>
    rw [andThen_ok, eval_forget]
    exact hread.trans addDoc_within

theorem mv_within (sched : ℕ → List ℕ) (src dest : String) :
    Within (added w (.mv sched src dest)) (marked w (.mv sched src dest)) w (eval (mv sched src dest) w).2 := by
  unfold mv
  dsimp only
  split_ifs with hres hdest
  · exact .refl w
  · exact .refl w
  rw [eval_bind, eval_look, andThen_ok]
  split_ifs with hdir
  · have hfrom : FromTree w src := ⟨Bool.not_eq_true _ ▸ hres, hdir⟩
    have htree : Within (added w (.mv sched src dest)) (marked w (.mv sched src dest)) w _ :=
      (moveTree_within sched (normalizePath src) (normalizePath dest)).mono
        (fun p hp => .inr (.inl ⟨hfrom, hp⟩)) fun d hd => ⟨hfrom, hd⟩
    rw [eval_bind]
    generalize eval (moveTree sched (normalizePath src) (normalizePath dest)) w = r at htree
    obtain ⟨errors, t⟩ := r
    cases errors with
    | error e => exact htree
    | ok errors =>
      rw [andThen_ok]
      split_ifs
      · exact htree
      · exact htree
  · exact moveDoc_within.mono (fun p hp => .inr (.inr ⟨fun hfrom => hdir hfrom.2, hp⟩)) fun _ hd => hd.elim

theorem cp_within (sched : ℕ → List ℕ) (src dest : String) (recursive : Bool) :
    Within (added w (.cp sched src dest recursive)) (marked w (.cp sched src dest recursive)) w
      (eval (cp sched src dest recursive) w).2 := by
  -- of a file, or of the profile: the read adds nothing
  have hfile : ∀ {t : World} {content : Content}, ¬ FromTree w src → Within noPath noPath w t →
      Within (added w (.cp sched src dest recursive)) (marked w (.cp sched src dest recursive)) w
        (eval (addDoc (normalizePath dest) content) t).2 :=
    fun hfrom hread => ((noPath_mono hread).trans addDoc_within).mono (fun p hp => .inr (.inr ⟨hfrom,
      hp⟩)) fun _ hd => hd.elim
  unfold cp
  dsimp only
  by_cases hdest : isReservedFilepath (normalizePath dest) = true
  · rw [if_pos hdest]
    exact .refl w
  rw [if_neg hdest]
  by_cases hres : isReservedFilepath (normalizePath src) = true
  · rw [if_pos hres, eval_bind]
    have hread : Within noPath noPath w (eval fetchProfile w).2 := within_same fetchProfile_same.1 fetchProfile_same.2
    generalize eval fetchProfile w = r at hread
    obtain ⟨body, t⟩ := r
    cases body with
    | error e => exact noPath_mono hread
    | ok body =>
      rw [andThen_ok, eval_forget]
      exact hfile (fun hfrom => absurd hres (by rw [hfrom.1]; exact Bool.false_ne_true)) hread
  rw [if_neg hres, eval_bind, eval_look, andThen_ok]
  by_cases hdir : w.index.isDirOnly (normalizePath src) = true
  · rw [if_pos hdir]
    have hfrom : FromTree w src := ⟨Bool.not_eq_true _ ▸ hres, hdir⟩
    by_cases hrec : (!recursive) = true
    · rw [if_pos hrec]
      exact .refl w
    rw [if_neg hrec]
    have htree : Within (added w (.cp sched src dest recursive)) (marked w (.cp sched src dest recursive)) w _ :=
      (copyTree_within sched (normalizePath src) (normalizePath dest)).mono
        (fun p hp => .inr (.inl ⟨hfrom, hp⟩)) fun d hd => ⟨hfrom, hd⟩
    rw [eval_bind]
    generalize eval (copyTree sched (normalizePath src) (normalizePath dest)) w = r at htree
    obtain ⟨errors, t⟩ := r
    cases errors with
    | error e => exact htree
    | ok errors =>
      rw [andThen_ok]
      split_ifs
      · exact htree
      · exact htree
  · rw [if_neg hdir, eval_bind]
    have hread : Within noPath noPath w _ := getDoc_within (p := normalizePath src)
    generalize eval (getDoc (normalizePath src)) w = r at hread
    obtain ⟨doc, t⟩ := r
    cases doc with
    | error e => exact noPath_mono hread
    | ok doc =>
      rw [andThen_ok]
      cases doc with
      | none => exact noPath_mono hread
      | some doc =>
        dsimp only
        rw [eval_forget]
        exact hfile (fun hfrom => hdir hfrom.2) hread

theorem rm_within (path : String) (options : RmOptions) : Within noPath noPath w (eval (rm path options) w).2 := by
  unfold rm
  dsimp only
  generalize normalizePath path = p
  by_cases hres : isReservedFilepath p = true
  · rw [if_pos hres]
    exact .refl w
  rw [if_neg hres, eval_bind, eval_look, andThen_ok]
  by_cases hdir : w.index.isDirOnly p = true
  · rw [if_pos hdir]
    by_cases hrec : (!options.recursive) = true
    · rw [if_pos hrec]
      exact .refl w
    have hremoved : Within noPath noPath w _ := removeByPrefix_within (withSlash_ne p)
    rw [if_neg hrec, eval_bind]
    generalize eval (removeByPrefix (withSlash p)) w = r at hremoved
    obtain ⟨res, t⟩ := r
    cases res with
    | error e => exact hremoved
    | ok res =>
      rw [andThen_ok]
      split_ifs
      · exact hremoved
      · exact hremoved
  · rw [if_neg hdir, eval_tryCatch, eval_bind, eval_look, andThen_ok]
    cases hr : truthy (w.index.resolve p) with
    | none =>
      dsimp only
      by_cases hforce : options.force = true
      · rw [if_pos hforce]
        exact .refl w
      · rw [if_neg hforce, eval_throwFs]
        dsimp only
        split_ifs
        · exact .refl w
        · exact .refl w
    | some id =>
      have hindexed : Held w p := .inl (PathIndex.isFile_iff.mpr ⟨id, (Option.filter_eq_some_iff.mp hr).1⟩)
      have hsteps : Sections (Within (· = p) noPath) (removeDoc p) := sections_removeDoc rfl
      have hremoved : Within noPath noPath w (eval (removeDoc p) w).2 :=
        (Within.of_steps (hsteps.eval w)).mono (fun q (hq : q = p) => .inl (hq ▸ hindexed)) fun _ hd => hd
      dsimp only
      generalize eval (removeDoc p) w = r at hremoved
      obtain ⟨_ | _, t⟩ := r
      · dsimp only
        split_ifs
        · exact hremoved
        · exact hremoved
      · exact hremoved

theorem rmdir_within (path : String) : Within noPath noPath w (eval (rmdir path) w).2 := by
  unfold rmdir
  dsimp only
  generalize normalizePath path = p
  rw [eval_bind, eval_look, andThen_ok]
  split_ifs with hfile
  · exact .refl w
  rw [eval_bind, eval_look, andThen_ok]
  split_ifs with hdir
  · exact .refl w
  rw [eval_bind]
  have hlisted : Within noPath noPath w _ := isDirEmpty_within (p := p)
  generalize eval (isDirEmpty p) w = r at hlisted
  obtain ⟨_ | isEmpty, t⟩ := r
  · exact hlisted
  · rw [andThen_ok]
    split_ifs
    · exact hlisted
    · exact hlisted.trans (spread_unmark.within)

/-- What a call adds is bounded by its arguments. -/
theorem call_within (w : World) (a : Act) : Within (added w a) (marked w a) w (eval (call a) w).2 := by
  cases a with
  | mkdir path recursive => exact mkdir_within path recursive
  | writeFile path content => exact writeFile_within path content
  | appendFile path content => exact appendFile_within path content
  | mv sched src dest => exact mv_within sched src dest
  | cp sched src dest recursive => exact cp_within sched src dest recursive
  | rm path options => exact rm_within path options
  | rmdir path => exact rmdir_within path

/-! ### Calls that fit -/

theorem Tidy.within (h : Tidy w) (hw : Within S T w t) (hself : Tree S T)
    (hS : ∀ p, S p → FileFits (Held w) (· ∈ w.index.syntheticDirs) p) (hT : ∀ d, T d → DirFits (Held w) d) : Tidy t :=
  (Tree.extend h hself hS hT).mono hw.held hw.dirs

theorem tree_none : Tree noPath noPath :=
  ⟨fun _ hp => hp.elim, fun _ hd => hd.elim, fun _ hp => hp.elim, fun _ hp => hp.elim⟩

theorem tree_written (path : String) : Tree (Written (normalizePath path)) noPath := by
  have hnamed : ∀ p, Written (normalizePath path) p → Named p := fun p hp => hp.1 ▸ named_of_check path (hp.1 ▸ hp.2)
  refine ⟨hnamed, fun _ hd => hd.elim, fun _ _ hd => hd.elim, fun p hp q hq => ?_⟩
  rcases hq with hq | hq
  · rw [hq.1, ← hp.1]
    exact (hnamed p hp).not_below_self
  · exact hq.elim

theorem tree_upTo (path : String) : Tree noPath (· ∈ upTo (normalizePath path)) := by
  refine ⟨fun _ hp => hp.elim, fun d hd => ?_, fun _ hp => hp.elim, fun _ hp => hp.elim⟩
  rcases normalizePath_cases path with hroot | hnamed
  · rw [hroot, upTo_root] at hd
    cases hd
  · exact (upTo_cases hnamed hd).1

/-- Where a directory fits, the ones above it do. -/
theorem DirFits.upTo (h : Tidy w) {path : String} (hf : DirFits (Held w) (normalizePath path))
    (hd : d ∈ upTo (normalizePath path)) :
    DirFits (Held w) d := by
  rcases normalizePath_cases path with hroot | hnamed
  · rw [hroot, upTo_root] at hd
    cases hd
  obtain ⟨hdn, rfl | hbelow⟩ := upTo_cases hnamed hd
  · exact hf
  · intro p hp
    refine ⟨?_, fun hb => (hf p hp).2 ((h.files p hp).below_trans hdn hnamed hbelow hb)⟩
    rintro rfl
    exact (hf p hp).2 hbelow

theorem tree_fits (h : Tidy w) {ofTree : Prop} (src dest : String)
    (hf : (ofTree → TreeFits w (normalizePath src) (normalizePath dest)) ∧
      (¬ ofTree → FileFits (Held w) (· ∈ w.index.syntheticDirs) (normalizePath dest)))
    (hw : Within (fun p => (ofTree ∧ Images (normalizePath src) (normalizePath dest) (Held w) p) ∨
        (¬ ofTree ∧ Written (normalizePath dest) p))
      (fun d => ofTree ∧ Marks (normalizePath src) (normalizePath dest) w d) w t) : Tidy t := by
  by_cases hfrom : ofTree
  · obtain ⟨hfiles, hdirs⟩ := hf.1 hfrom
    have himages := Tree.images h (canonical_normalizePath src) (canonical_normalizePath dest)
    refine h.within hw (himages.mono (fun p hp => ?_) fun d hd => hd.2) (fun p hp =>
      hfiles p ?_) fun d hd => hdirs d hd.2
    · exact hp.elim And.right fun hn => absurd hfrom hn.1
    · exact hp.elim And.right fun hn => absurd hfrom hn.1
  · have hp' : ∀ {p}, (ofTree ∧ Images (normalizePath src) (normalizePath dest) (Held w) p) ∨
        (¬ ofTree ∧ Written (normalizePath dest) p) → Written (normalizePath dest) p :=
      fun hp => hp.elim (fun hi => absurd hi.1 hfrom) And.right
    exact h.within hw ((tree_written dest).mono (fun p => hp') fun d hd => absurd hd.1 hfrom)
      (fun p hp => (hp' hp).1 ▸ hf.2 hfrom) fun d hd => absurd hd.1 hfrom

/-- Where what a call makes fits, it leaves a tree. -/
theorem fits_tidy (h : Tidy w) {a : Act} (hf : Fits w a) : Tidy (eval (call a) w).2 := by
  have hw := call_within w a
  cases a with
  | mkdir path recursive => exact h.within hw (tree_upTo path) (fun _ hp => hp.elim) fun d hd => DirFits.upTo h hf hd
  | writeFile path content => exact h.within hw (tree_written path) (fun p hp => hp.1 ▸ hf) fun _ hd => hd.elim
  | appendFile path content => exact h.within hw (tree_written path) (fun p hp => hp.1 ▸ hf) fun _ hd => hd.elim
  | mv sched src dest => exact tree_fits h src dest hf hw
  | cp sched src dest recursive => exact tree_fits h src dest hf hw
  | rm path options => exact h.within hw tree_none (fun _ hp => hp.elim) fun _ hd => hd.elim
  | rmdir path => exact h.within hw tree_none (fun _ hp => hp.elim) fun _ hd => hd.elim

/-! ### Calls that are refused -/

theorem Unchanged.refl (w : World) : Unchanged w w := ⟨rfl, rfl, fun _ => rfl⟩

theorem unchanged_same (hserver : t.server = w.server) (hindex : t.index = w.index) : Unchanged w t :=
  ⟨hserver, hindex ▸ rfl, fun _ => hindex ▸ rfl⟩

theorem Unchanged.isFile (h : Unchanged w t) : t.index.isFile = w.index.isFile := by
  funext q
  rw [PathIndex.isFile, h.index, PathIndex.isFile]

theorem Unchanged.within (h : Unchanged w t) : Within S T w t :=
  within_fewer h.server (fun _ hq => h.isFile ▸ hq) fun _ hd => h.dirs ▸ hd

/-- The rules ask which paths are indexed. -/
theorem Unchanged.assertWritable (h : Unchanged w t) (p : String) (intent : WriteIntent) :
    assertWritable t.index p intent = assertWritable w.index p intent := by
  have hbelow : t.index.hasBelow p = w.index.hasBelow p := by
    rw [Bool.eq_iff_iff, PathIndex.hasBelow_iff, PathIndex.hasBelow_iff, h.isFile]
  unfold Bash.assertWritable ruleAncestorNotFile ruleNoDescendants PathIndex.findAncestorFile PathIndex.hasDescendant
  rw [h.isFile, hbelow]

/-- A write that the rules refuse. -/
theorem addDoc_refused (hne : assertWritable w.index p .addDoc ≠ none) (content : Content) :
    ∃ e, eval (addDoc p content) w = (.error e, w) := by
  cases content with
  | bytes b => exact ⟨_, rfl⟩
  | text data =>
    rw [eval_addDoc_text]
    cases ha : Bash.assertWritable w.index p .addDoc with
    | none => exact absurd ha hne
    | some e => exact ⟨_, rfl⟩

theorem eval_forget_error {α : Type} {x : Vol α} {e : Thrown} (h : eval x w = (.error e, t)) :
    eval (do let _ ← x : Vol Unit) w = (.error e, t) := by
  rw [eval_bind, h, andThen_error]

/-- A read of a path that is tracked leaves the index; of one that is not
held, it finds nothing. -/
theorem getDoc_unchanged (h : Tracked w p) : Unchanged w (eval (getDoc p) w).2 ∧
    (¬ Held w p → ∀ doc, (eval (getDoc p) w).1 ≠ .ok (some doc)) := by
  cases hh : hit w p with
  | some c =>
    rw [eval_getDoc_hit hh]
    refine ⟨unchanged_same rfl rfl, fun hheld => absurd (.inl ?_) hheld⟩
    obtain ⟨e, -, he⟩ := Option.bind_eq_some_iff.mp hh
    obtain ⟨id, hid, -⟩ := Option.map_eq_some_iff.mp he
    exact PathIndex.isFile_iff.mpr ⟨id, (Option.filter_eq_some_iff.mp hid).1⟩
  | none =>
    rw [eval_getDoc_miss hh]
    obtain ⟨hindex, -, -⟩ := send_kept (w.looked p) (listCall (exactly p true))
    have hanswer := listCall_answer (w.looked p) (exactly p true)
    have hserver := listCall_server (w.looked p) (exactly p true)
    generalize (w.looked p).send (listCall (exactly p true)) = r at hindex hanswer hserver
    obtain ⟨answer, t⟩ := r
    dsimp only at hindex hanswer hserver
    have hresolve : ∀ q, t.index.resolve q = w.index.resolve q := fun q => congrArg (PathIndex.resolve · q) hindex
    have hdirs : t.index.syntheticDirs = w.index.syntheticDirs := congrArg PathIndex.syntheticDirs hindex
    cases answer with
    | error e => exact ⟨unchanged_same hserver hindex, fun _ doc he => (nomatch he)⟩
    | ok resp =>
      obtain rfl := hanswer resp rfl
      unfold Tracked at h
      change w.index.resolve p = (found p ((w.looked p).server.list (exactly p true))).map Memory.id at h
      dsimp only
      cases hm : found p ((w.looked p).server.list (exactly p true)) with
      | none =>
        rw [hm] at h
        refine ⟨⟨hserver, hdirs, fun q => ?_⟩, fun _ doc he => (nomatch he)⟩
        change (t.index.remove p).resolve q = _
        rw [PathIndex.resolve_remove, hresolve]
        split_ifs with hq
        · exact hq ▸ h.symm
        · rfl
      | some m =>
        rw [hm] at h
        refine ⟨⟨hserver, ?_, fun q => ?_⟩, fun hheld => absurd (.inr ?_) hheld⟩
        · show (if m.id = "" then t.index else t.index.insert p m.id).syntheticDirs = _
          split_ifs
          · exact hdirs
          · exact hdirs
        · show (if m.id = "" then t.index else t.index.insert p m.id).resolve q = _
          split_ifs with hid
          · exact hresolve q
          · rw [PathIndex.resolve_insert, hresolve]
            split_ifs with hq
            · exact hq ▸ h.symm
            · rfl
        · obtain ⟨hmem, hp⟩ := found_some hm
          exact ⟨m, hmem, hp⟩

theorem tracked_of_not_held (h : ¬ Held w p) : Tracked w p := by
  have hresolve : w.index.resolve p = none := by
    cases hr : w.index.resolve p with
    | none => rfl
    | some id => exact absurd (.inl (PathIndex.isFile_iff.mpr ⟨id, hr⟩)) h
  unfold Tracked
  rw [hresolve]
  cases hm : found p (w.server.list (exactly p true)) with
  | none => rfl
  | some m =>
    obtain ⟨hmem, hp⟩ := found_some hm
    exact absurd (.inr ⟨m, hmem, hp⟩) h

/-- A lookup of a path that is not held finds nothing. -/
theorem lookupDocId_unheld (h : ¬ Held w p) : Unchanged w (eval (lookupDocId p) w).2 ∧
    ∀ found, (eval (lookupDocId p) w).1 = .ok found → found = none := by
  have hr : truthy (w.index.resolve p) = none := by
    cases hr : w.index.resolve p with
    | none => rfl
    | some id => exact absurd (.inl (PathIndex.isFile_iff.mpr ⟨id, hr⟩)) h
  rw [eval_lookupDocId_unknown hr]
  obtain ⟨hindex, -, -⟩ := send_kept w (listCall (exactly p false))
  have hanswer := listCall_answer w (exactly p false)
  have hserver := listCall_server w (exactly p false)
  generalize w.send (listCall (exactly p false)) = r at hindex hanswer hserver
  obtain ⟨answer, t⟩ := r
  dsimp only at hindex hanswer hserver
  cases answer with
  | error e => exact ⟨unchanged_same hserver hindex, fun _ he => (nomatch he)⟩
  | ok resp =>
    obtain rfl := hanswer resp rfl
    dsimp only
    cases hm : named p (w.server.list (exactly p false)) with
    | none => exact ⟨unchanged_same hserver hindex, fun _ he => (Except.ok.inj he).symm⟩
    | some m =>
      obtain ⟨d, hd, -, hp⟩ := named_some hm
      exact absurd (.inr ⟨d, hd, hp⟩) h

/-- The call fails, and leaves what there is. -/
def Fails (w : World) (a : Act) : Prop := (∃ e, (eval (call a) w).1 = .error e) ∧ Unchanged w (eval (call a) w).2

theorem mkdir_refused {path : String} {recursive : Bool} (h : Refused w (.mkdir path recursive)) :
    Fails w (.mkdir path recursive) := by
  unfold Fails call mkdir
  dsimp only
  by_cases hres : isReservedFilepath (normalizePath path) = true
  · rw [if_pos hres]
    exact ⟨⟨_, rfl⟩, .refl w⟩
  rw [if_neg hres, eval_bind, eval_look, andThen_ok]
  by_cases hfile : w.index.isFile (normalizePath path) = true
  · rw [if_pos hfile]
    exact ⟨⟨_, rfl⟩, .refl w⟩
  obtain ⟨hdir, hrec⟩ := (h.resolve_left hres).resolve_left hfile
  rw [if_neg hfile, eval_bind, eval_look, andThen_ok, hdir, hrec]
  exact ⟨⟨_, rfl⟩, .refl w⟩

theorem writeFile_refused {path : String} {content : Content} (h : Refused w (.writeFile path content)) :
    Fails w (.writeFile path content) := by
  unfold Fails call writeFile
  dsimp only
  by_cases hres : isReservedFilepath (normalizePath path) = true
  · rw [if_pos hres]
    exact ⟨⟨_, rfl⟩, .refl w⟩
  rw [if_neg hres, eval_bind, eval_look, andThen_ok]
  by_cases hdir : w.index.isDirOnly (normalizePath path) = true
  · rw [if_pos hdir]
    exact ⟨⟨_, rfl⟩, .refl w⟩
  obtain ⟨e, he⟩ := addDoc_refused ((h.resolve_left hres).resolve_left hdir) (.text content.decoded)
  rw [if_neg hdir, eval_forget_error he]
  exact ⟨⟨_, rfl⟩, .refl w⟩

theorem appendFile_refused {path : String} {content : Content} (h : Refused w (.appendFile path content)) :
    Fails w (.appendFile path content) := by
  unfold Fails call appendFile
  dsimp only
  by_cases hres : isReservedFilepath (normalizePath path) = true
  · rw [if_pos hres]
    exact ⟨⟨_, rfl⟩, .refl w⟩
  rw [if_neg hres, eval_bind, eval_look, andThen_ok]
  by_cases hdir : w.index.isDirOnly (normalizePath path) = true
  · rw [if_pos hdir]
    exact ⟨⟨_, rfl⟩, .refl w⟩
  obtain ⟨htracked, hrules⟩ := (h.resolve_left hres).resolve_left hdir
  obtain ⟨hread, -⟩ := getDoc_unchanged htracked
  rw [if_neg hdir, eval_bind]
  generalize eval (getDoc (normalizePath path)) w = r at hread
  obtain ⟨existing, t⟩ := r
  dsimp only at hread
  cases existing with
  | error e => exact ⟨⟨_, rfl⟩, hread⟩
  | ok existing =>
    rw [andThen_ok]
    rw [← hread.assertWritable] at hrules
    obtain ⟨e, he⟩ := addDoc_refused hrules _
    rw [eval_forget_error he]
    exact ⟨⟨_, rfl⟩, hread⟩

theorem mv_refused {sched : ℕ → List ℕ} {src dest : String} (h : Refused w (.mv sched src dest)) :
    Fails w (.mv sched src dest) := by
  unfold Fails call mv
  dsimp only
  by_cases hsrc : isReservedFilepath (normalizePath src) = true
  · rw [if_pos hsrc]
    exact ⟨⟨_, rfl⟩, .refl w⟩
  rw [if_neg hsrc]
  by_cases hdest : isReservedFilepath (normalizePath dest) = true
  · rw [if_pos hdest]
    exact ⟨⟨_, rfl⟩, .refl w⟩
  obtain ⟨hdir, hrest⟩ := (h.resolve_left hsrc).resolve_left hdest
  rw [if_neg hdest, eval_bind, eval_look, andThen_ok, hdir, if_neg Bool.false_ne_true]
  unfold moveDoc
  rw [eval_bind, eval_look, andThen_ok]
  cases ha : assertWritable w.index (normalizePath dest) .moveDoc with
  | some e => exact ⟨⟨_, rfl⟩, .refl w⟩
  | none =>
    obtain ⟨hlook, hnone⟩ := lookupDocId_unheld (hrest.resolve_left fun hne => hne ha)
    dsimp only
    rw [eval_bind]
    generalize eval (lookupDocId (normalizePath src)) w = r at hlook hnone
    obtain ⟨found, t⟩ := r
    dsimp only at hlook hnone
    cases found with
    | error e => exact ⟨⟨_, rfl⟩, hlook⟩
    | ok found =>
      obtain rfl := hnone found rfl
      exact ⟨⟨_, rfl⟩, hlook⟩

theorem cp_refused {sched : ℕ → List ℕ} {src dest : String} {recursive : Bool}
    (h : Refused w (.cp sched src dest recursive)) :
    Fails w (.cp sched src dest recursive) := by
  unfold Fails call cp
  dsimp only
  by_cases hdest : isReservedFilepath (normalizePath dest) = true
  · rw [if_pos hdest]
    exact ⟨⟨_, rfl⟩, .refl w⟩
  rw [if_neg hdest]
  by_cases hsrc : isReservedFilepath (normalizePath src) = true
  · have hrules : assertWritable w.index (normalizePath dest) .addDoc ≠ none := by
      rcases h with h | h | h | h
      · exact absurd h hdest
      · exact h.2
      · exact absurd hsrc (by rw [h.1.1]; exact Bool.false_ne_true)
      · exact absurd hsrc (by rw [h.1]; exact Bool.false_ne_true)
    obtain ⟨hserver, hindex⟩ := fetchProfile_same (w := w)
    rw [if_pos hsrc, eval_bind]
    generalize eval fetchProfile w = r at hserver hindex
    obtain ⟨body, t⟩ := r
    dsimp only at hserver hindex
    cases body with
    | error e => exact ⟨⟨_, rfl⟩, unchanged_same hserver hindex⟩
    | ok body =>
      obtain ⟨e, he⟩ := addDoc_refused (hindex ▸ hrules) (.text body)
      rw [andThen_ok, eval_forget_error he]
      exact ⟨⟨_, rfl⟩, unchanged_same hserver hindex⟩
  rw [if_neg hsrc, eval_bind, eval_look, andThen_ok]
  by_cases hdir : w.index.isDirOnly (normalizePath src) = true
  · have hrec : recursive = false := by
      rcases h with h | h | h | h
      · exact absurd h hdest
      · exact absurd h.1 hsrc
      · exact h.2
      · exact absurd hdir (by rw [h.2.1]; exact Bool.false_ne_true)
    rw [if_pos hdir, hrec]
    exact ⟨⟨_, rfl⟩, .refl w⟩
  · have hread : ¬ Held w (normalizePath src) ∨
        (Tracked w (normalizePath src) ∧ assertWritable w.index (normalizePath dest) .addDoc ≠ none) := by
      rcases h with h | h | h | h
      · exact absurd h hdest
      · exact absurd h.1 hsrc
      · exact absurd h.1.2 hdir
      · exact h.2.2
    have htracked : Tracked w (normalizePath src) := hread.elim tracked_of_not_held And.left
    obtain ⟨hkept, hnone⟩ := getDoc_unchanged htracked
    rw [if_neg hdir, eval_bind]
    generalize eval (getDoc (normalizePath src)) w = r at hkept hnone
    obtain ⟨doc, t⟩ := r
    dsimp only at hkept hnone
    cases doc with
    | error e => exact ⟨⟨_, rfl⟩, hkept⟩
    | ok doc =>
      rw [andThen_ok]
      cases doc with
      | none => exact ⟨⟨_, rfl⟩, hkept⟩
      | some doc =>
        have hrules := (hread.resolve_left fun hheld => hnone hheld doc rfl).2
        rw [← hkept.assertWritable] at hrules
        obtain ⟨e, he⟩ := addDoc_refused hrules doc.content
        dsimp only
        rw [eval_forget_error he]
        exact ⟨⟨_, rfl⟩, hkept⟩

/-- A call that is refused fails and leaves what there is. -/
theorem refused_unchanged {a : Act} (h : Refused w a) : Fails w a := by
  cases a with
  | mkdir path recursive => exact mkdir_refused h
  | writeFile path content => exact writeFile_refused h
  | appendFile path content => exact appendFile_refused h
  | mv sched src dest => exact mv_refused h
  | cp sched src dest recursive => exact cp_refused h
  | rm path options => exact h.elim
  | rmdir path => exact h.elim

/-! ### Every run -/

theorem Start.tidy (h : Start w) : Tidy w := by
  have hfree : ∀ p, ¬ Held w p := by
    rintro p (hp | ⟨d, hd, -⟩)
    · rw [h.index] at hp
      cases hp
    · rw [h.docs] at hd
      cases hd
  have hnone : ∀ d, d ∉ w.index.syntheticDirs := by
    intro d hd
    rw [h.index] at hd
    cases hd
  exact ⟨fun p hp => absurd hp (hfree p), fun d hd => absurd hd (hnone d), fun p hp => absurd hp (hfree p),
    fun p hp => absurd hp (hfree p)⟩

theorem step_tidy (h : Tidy w) {a : Act} (hc : Caught w a) (hst : step w a = some t) : Tidy t := by
  cases hst
  rcases hc with hf | hr
  · exact fits_tidy h hf
  · exact h.within (refused_unchanged hr).2.within tree_none (fun _ hp => hp.elim) fun _ hd => hd.elim

/-- **Files and directories are those of a tree**, in every run whose calls
are caught: no path is both, nothing is below a file, and a call that would
break this fails and leaves the server and the index. -/
theorem stays_apart {w₀ : World} (h : Start w₀) (hr : Reach step Caught w₀ w) :
    (∀ p, w.index.isFile p = true → p ∉ w.index.syntheticDirs) ∧
    (∀ p q, w.index.isFile p = true → w.index.isFile q = true ∨ q ∈ w.index.syntheticDirs → ¬ Below q p) ∧
    ∀ a, Caught w a → ¬ Fits w a → Fails w a := by
  have htidy : Tidy w := hr.inv h.tidy fun _ _ _ hI hc hst => step_tidy hI hc hst
  refine ⟨fun p hp => htidy.apart p (.inl hp), fun p q hp hq => htidy.above p (.inl hp) q (hq.imp_left .inl),
    fun a hc hf => ?_⟩
  exact refused_unchanged (hc.resolve_left hf)

/-! ### A directory below a file -/

/-- An empty container, and a client that just started. -/
def blank : World := ⟨.empty, .new, .new none none fun _ => 0, []⟩

theorem blank_start : Start blank := ⟨rfl, rfl⟩

/-- A write where a directory is marked is refused. -/
theorem stays_apart_refused : Fails (eval (call (.mkdir "/d" true)) blank).2 (.writeFile "/d" (.text "x")) := by
  have hfits : Fits blank (.mkdir "/d" true) := by
    rintro p (hp | ⟨d, hd, -⟩)
    · cases hp
    · cases hd
  have hrun : Reach step Caught blank (eval (call (.mkdir "/d" true)) blank).2 :=
    .next .start (a := .mkdir "/d" true) (.inl hfits) rfl
  refine (stays_apart blank_start hrun).2.2 _ (.inr (.inr (.inl (by decide +kernel)))) fun hf => hf.apart ?_
  decide +kernel

/-- A file `/a.md` with a directory marked below it, and a `mkdir` that marks
the file itself. -/
def belowFile (w : World) : Bool :=
  w.index.isFile "/a.md" && decide ("/a.md/b" ∈ w.index.syntheticDirs) &&
    decide ("/a.md" ∈ (eval (call (.mkdir "/a.md/c" true)) w).2.index.syntheticDirs)

/-- `mkdir` marks a directory below a file, and with `recursive` the file
itself. -/
theorem marked_below : Start blank ∧ ∃ w, Reach step anyStep blank w ∧ w.index.isFile "/a.md" = true ∧
    "/a.md/b" ∈ w.index.syntheticDirs ∧ Below "/a.md/b" "/a.md" ∧
    "/a.md" ∈ (eval (call (.mkdir "/a.md/c" true)) w).2.index.syntheticDirs := by
  have hrun : ∃ w, Reach step anyStep blank w ∧ belowFile w = true :=
    Reach.exists_of_run [.writeFile "/a.md" (.text "x"), .mkdir "/a.md/b" false] (by decide +kernel)
  obtain ⟨w, hw, hp⟩ := hrun
  simp only [belowFile, Bool.and_eq_true, decide_eq_true_eq] at hp
  exact ⟨blank_start, w, hw, hp.1.1, hp.1.2, by unfold Below; decide +kernel, hp.2⟩

end Smfs.Bash.Shape
