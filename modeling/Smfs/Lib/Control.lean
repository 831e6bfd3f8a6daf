/-
# And-or lists of pipelines

A script is a list of statements, a statement a list of pipelines that `&&` and
`||` join, and a pipeline a list of commands, each of which reads what the one
before it wrote; `!` inverts what a pipeline answers. What a command does, with
what it reads and in what state, is a parameter, and it always answers. The two
operators have one precedence and associate to the left, so a statement means
what its tree means (`runAndOr`), and the tree is run as a loop over the
operators (`runAndOr_tree`). A run of `recorded` commands leaves the list of
those that were executed, and in a script whose commands are `numbered` no two
of them are alike.

Key definitions: `Pipeline`, `Statement`, `Script`, `runPipeline`, `runAndOr`, `runScript`, `recorded`, `numbered`.
Key theorems: `runAndOr_tree`, `runScript_cons`, `runScript_grew`, `Began.not_grew`, `ended_of_log`, `nodup_numbered`.
-/
import Mathlib.Data.List.Basic
import Mathlib.Data.List.Nodup
import Mathlib.Data.List.Range
import Mathlib.Data.Int.Notation
import Mathlib.Tactic.Common

namespace Control

/-- A pipeline: `c₁ | c₂ | …`, with a `!` before it or not. -/
structure Pipeline (γ : Type) where
  commands : List γ
  nonempty : commands ≠ []
  negated : Bool

inductive Operator
  | and
  | or
  deriving DecidableEq

/-- A statement: `p₁ op₂ p₂ op₃ p₃ …`, from left to right. -/
structure Statement (γ : Type) where
  first : Pipeline γ
  rest : List (Operator × Pipeline γ)

def Statement.pipelines {γ : Type} (stmt : Statement γ) : List (Pipeline γ) := stmt.first :: stmt.rest.map Prod.snd

abbrev Script (γ : Type) := List (Statement γ)

/-- What was written, and the answer. -/
structure Result where
  stdout : String := ""
  stderr : String := ""
  status : ℤ := 0
  deriving DecidableEq

/-- What was written first, with what was written then. -/
def Result.before (r r' : Result) : Result := ⟨r.stdout ++ r'.stdout, r.stderr ++ r'.stderr, r'.status⟩

/-- `!`. -/
def invert (status : ℤ) : ℤ := if status = 0 then 1 else 0

/-- What stands right of the operator is run. -/
def Operator.GoesOn : Operator → ℤ → Prop
  | .and, status => status = 0
  | .or, status => status ≠ 0

instance (status : ℤ) : ∀ op : Operator, Decidable (op.GoesOn status)
  | .and => inferInstanceAs (Decidable (_ = _))
  | .or => inferInstanceAs (Decidable (_ ≠ _))

theorem goesOn_invert (op : Operator) (status : ℤ) : op.GoesOn (invert status) ↔ ¬ op.GoesOn status := by
  unfold invert
  cases op <;> by_cases h : status = 0 <;> simp [Operator.GoesOn, h]

theorem invert_ne (status : ℤ) : invert status ≠ status := by
  unfold invert
  split_ifs <;> omega

/-- An and-or list as it is read. -/
inductive AndOr (γ : Type)
  | pipeline (p : Pipeline γ)
  | join (left : AndOr γ) (op : Operator) (right : Pipeline γ)

/-- The operators associate to the left. -/
def Statement.tree {γ : Type} (stmt : Statement γ) : AndOr γ :=
  stmt.rest.foldl (fun tree e => .join tree e.1 e.2) (.pipeline stmt.first)

/-! ### What a script means -/

variable {γ τ : Type}

/-- What a command does with what it reads, in a state. -/
abbrev Command (γ τ : Type) := γ → String → τ → Result × τ

section Run

variable (run : Command γ τ)

/-- Each command reads what the one before it wrote; the last one answers. -/
def runPipes : List γ → String → τ → Result × τ
  | [], stdin, s => ({ stdout := stdin }, s)
  | cmd :: rest, stdin, s =>
    let a := run cmd stdin s
    if rest.isEmpty then a
    else
      let b := runPipes rest a.1.stdout a.2
      ({ b.1 with stderr := a.1.stderr ++ b.1.stderr }, b.2)

def runPipeline (p : Pipeline γ) (s : τ) : Result × τ :=
  let a := runPipes run p.commands "" s
  ({ a.1 with status := if p.negated then invert a.1.status else a.1.status }, a.2)

/-- A pipeline after what ran so far. -/
def runNext (p : Pipeline γ) (a : Result × τ) : Result × τ :=
  let b := runPipeline run p a.2
  (a.1.before b.1, b.2)

def runAndOr : AndOr γ → τ → Result × τ
  | .pipeline p, s => runPipeline run p s
  | .join left op p, s =>
    let a := runAndOr left s
    if op.GoesOn a.1.status then runNext run p a else a

/-- The statements one after another, after what ran so far. -/
def runScript : List (Statement γ) → Result × τ → Result × τ
  | [], a => a
  | stmt :: rest, a =>
    let b := runAndOr run stmt.tree a.2
    runScript rest (a.1.before b.1, b.2)

/-- The operators of a statement as a loop, from left to right. -/
def runRest : List (Operator × Pipeline γ) → Result × τ → Result × τ
  | [], a => a
  | (op, p) :: rest, a => if op.GoesOn a.1.status then runRest rest (runNext run p a) else runRest rest a

variable {run}

theorem runPipes_cons (cmd cmd' : γ) (rest : List γ) (stdin : String) (s : τ) :
    runPipes run (cmd :: cmd' :: rest) stdin s =
      ({ (runPipes run (cmd' :: rest) (run cmd stdin s).1.stdout (run cmd stdin s).2).1 with
        stderr := (run cmd stdin s).1.stderr ++
          (runPipes run (cmd' :: rest) (run cmd stdin s).1.stdout (run cmd stdin s).2).1.stderr },
        (runPipes run (cmd' :: rest) (run cmd stdin s).1.stdout (run cmd stdin s).2).2) := rfl

theorem runAndOr_foldl (rest : List (Operator × Pipeline γ)) (tree : AndOr γ) (s : τ) :
    runAndOr run (rest.foldl (fun tree e => .join tree e.1 e.2) tree) s = runRest run rest (runAndOr run tree s) := by
  induction rest generalizing tree with
  | nil => rfl
  | cons e rest ih =>
    rw [List.foldl_cons, ih, runAndOr, runRest]
    split_ifs <;> rfl

/-- **The tree of a statement is run from left to right.** -/
theorem runAndOr_tree (stmt : Statement γ) (s : τ) :
    runAndOr run stmt.tree s = runRest run stmt.rest (runPipeline run stmt.first s) :=
  runAndOr_foldl stmt.rest (.pipeline stmt.first) s

@[simp] theorem before_before (a b c : Result) : (a.before b).before c = a.before (b.before c) := by
  simp [Result.before, String.append_assoc]

/-- What was written before a statement is not looked at. -/
theorem runRest_before (r : Result) (rest : List (Operator × Pipeline γ)) (a : Result × τ) :
    runRest run rest (r.before a.1, a.2) = (r.before (runRest run rest a).1, (runRest run rest a).2) := by
  induction rest generalizing a with
  | nil => rfl
  | cons e rest ih =>
    simp only [runRest]
    have hnext : runNext run e.2 (r.before a.1, a.2) = (r.before (runNext run e.2 a).1, (runNext run e.2 a).2) := by
      simp [runNext]
    have hstatus : (r.before a.1).status = a.1.status := rfl
    rw [hstatus, hnext]
    split_ifs
    · exact ih (runNext run e.2 a)
    · exact ih a

/-- A statement and what follows it. -/
theorem runScript_cons (stmt : Statement γ) (later : List (Statement γ)) (a : Result × τ) :
    runScript run (stmt :: later) a = runScript run later (runRest run stmt.rest (runNext run stmt.first a)) := by
  rw [runScript, runAndOr_tree, runNext, runRest_before]

/-- Nothing more of a statement is run. -/
theorem runRest_skipped {rest : List (Operator × Pipeline γ)} {a : Result × τ}
    (h : ∀ e ∈ rest, ¬ e.1.GoesOn a.1.status) : runRest run rest a = a := by
  induction rest with
  | nil => rfl
  | cons e rest ih =>
    rw [List.forall_mem_cons] at h
    rw [runRest, if_neg h.1, ih h.2]

end Run

/-! ### What was executed -/

/-- A command that leaves itself in a log. -/
def recorded (run : Command γ τ) : Command γ (List γ × τ) := fun cmd stdin x =>
  let a := run cmd stdin x.2
  (a.1, x.1 ++ [cmd], a.2)

/-- The commands of the pipelines after the first. -/
def commandsOf (rest : List (Operator × Pipeline γ)) : List γ := rest.flatMap fun e => e.2.commands

theorem commandsOf_cons (e : Operator × Pipeline γ) (rest : List (Operator × Pipeline γ)) :
    commandsOf (e :: rest) = e.2.commands ++ commandsOf rest := List.flatMap_cons

def Statement.commands (stmt : Statement γ) : List γ := stmt.first.commands ++ commandsOf stmt.rest

def Script.commands (script : List (Statement γ)) : List γ := script.flatMap Statement.commands

theorem Script.commands_cons (stmt : Statement γ) (later : List (Statement γ)) : Script.commands (stmt :: later) =
    stmt.first.commands ++ (commandsOf stmt.rest ++ Script.commands later) := by
  rw [Script.commands, List.flatMap_cons, Statement.commands, List.append_assoc]
  rfl

/-- A log with some of these commands more. -/
def Grew (cmds log log' : List γ) : Prop := ∃ more, log' = log ++ more ∧ more ⊆ cmds

/-- A log that goes on with one of these commands. -/
def Began (cmds log log' : List γ) : Prop := ∃ cmd ∈ cmds, ∃ more, log' = log ++ cmd :: more

section Recorded

variable {run : Command γ τ} {cmds cmds' log log' log'' : List γ}

theorem Grew.refl (cmds log : List γ) : Grew cmds log log := ⟨[], by simp, by simp⟩

theorem Grew.trans (h : Grew cmds log log') (h' : Grew cmds' log' log'') : Grew (cmds ++ cmds') log log'' := by
  obtain ⟨more, rfl, hsub⟩ := h
  obtain ⟨more', rfl, hsub'⟩ := h'
  refine ⟨more ++ more', List.append_assoc _ _ _, fun c hc => ?_⟩
  exact (List.mem_append.mp hc).elim (fun hc => List.mem_append_left _ (hsub hc))
    fun hc => List.mem_append_right _ (hsub' hc)

theorem Grew.mono (h : Grew cmds log log') (hsub : cmds ⊆ cmds') : Grew cmds' log log' :=
  ⟨h.choose, h.choose_spec.1, fun _ hc => hsub (h.choose_spec.2 hc)⟩

theorem Began.trans (h : Began cmds log log') (h' : Grew cmds' log' log'') : Began cmds log log'' := by
  obtain ⟨cmd, hcmd, more, rfl⟩ := h
  obtain ⟨more', rfl, -⟩ := h'
  exact ⟨cmd, hcmd, more ++ more', by simp⟩

/-- Commands that are told apart: the log goes on with one of the first, or
with some of the others. -/
theorem Began.not_grew (h : Began cmds log log') (hnodup : (cmds ++ cmds').Nodup) : ¬ Grew cmds' log log' := by
  rintro ⟨more', he, hsub⟩
  obtain ⟨cmd, hcmd, more, rfl⟩ := h
  have hmem : cmd ∈ more' := List.append_cancel_left he ▸ List.mem_cons_self
  exact (List.nodup_append'.mp hnodup).2.2 hcmd (hsub hmem)

theorem Began.length_lt (h : Began cmds log log') : log.length < log'.length := by
  obtain ⟨cmd, -, more, rfl⟩ := h
  simp

theorem began_pipeline (p : Pipeline γ) (log : List γ) : Began p.commands log (log ++ p.commands) := by
  obtain ⟨cmd, more, hcmds⟩ := List.exists_cons_of_ne_nil p.nonempty
  rw [hcmds]
  exact ⟨cmd, List.mem_cons_self, more, rfl⟩

/-- All commands of a pipeline are executed, as they are without the log. -/
theorem runPipes_recorded (cmds : List γ) (stdin : String) (log : List γ) (s : τ) :
    runPipes (recorded run) cmds stdin (log, s) =
      ((runPipes run cmds stdin s).1, log ++ cmds, (runPipes run cmds stdin s).2) := by
  induction cmds generalizing stdin log s with
  | nil => simp [runPipes]
  | cons cmd rest ih =>
    cases rest with
    | nil => simp [runPipes, recorded]
    | cons cmd' rest =>
      rw [runPipes_cons, runPipes_cons, recorded, ih]
      simp

theorem runNext_recorded (p : Pipeline γ) (r : Result) (log : List γ) (s : τ) :
    runNext (recorded run) p (r, log, s) =
      ((runNext run p (r, s)).1, log ++ p.commands, (runNext run p (r, s)).2) := by
  simp [runNext, runPipeline, runPipes_recorded]

variable (run)

theorem runRest_grew (rest : List (Operator × Pipeline γ)) (a : Result × List γ × τ) :
    Grew (commandsOf rest) a.2.1 (runRest (recorded run) rest a).2.1 := by
  induction rest generalizing a with
  | nil => exact .refl _ _
  | cons e rest ih =>
    rw [runRest, commandsOf_cons]
    split_ifs
    · have hnext : (runNext (recorded run) e.2 a).2.1 = a.2.1 ++ e.2.commands := by
        rw [show a = (a.1, a.2.1, a.2.2) from rfl, runNext_recorded]
      exact Grew.trans ⟨e.2.commands, hnext, List.Subset.refl _⟩ (ih _)
    · exact (ih a).mono (List.subset_append_right _ _)

theorem runScript_grew (script : List (Statement γ)) (a : Result × List γ × τ) :
    Grew (Script.commands script) a.2.1 (runScript (recorded run) script a).2.1 := by
  induction script generalizing a with
  | nil => exact .refl _ _
  | cons stmt later ih =>
    obtain ⟨r, log, s⟩ := a
    rw [runScript_cons, Script.commands_cons, runNext_recorded]
    exact Grew.trans ⟨stmt.first.commands, rfl, List.Subset.refl _⟩ ((runRest_grew run _ _).trans (ih _))

/-- Where the operator goes on, the log goes on with a command of its pipeline. -/
theorem runRest_began {op : Operator} {r : Result} (h : op.GoesOn r.status) (p : Pipeline γ)
    (rest : List (Operator × Pipeline γ)) (later : List (Statement γ)) (log : List γ) (s : τ) :
    Began p.commands log
      (runScript (recorded run) later (runRest (recorded run) ((op, p) :: rest) (r, log, s))).2.1 := by
  rw [runRest, if_pos h, runNext_recorded]
  exact (began_pipeline p log).trans ((runRest_grew run rest _).trans (runScript_grew run later _))

/-- A script that is not empty executes a command. -/
theorem runScript_longer {script : List (Statement γ)} (h : script ≠ []) (r : Result) (log : List γ) (s : τ) :
    log.length < (runScript (recorded run) script (r, log, s)).2.1.length := by
  obtain ⟨stmt, later, rfl⟩ := List.exists_cons_of_ne_nil h
  rw [runScript_cons, runNext_recorded]
  exact ((began_pipeline stmt.first log).trans
    ((runRest_grew run stmt.rest _).trans (runScript_grew run later _))).length_lt

/-- Nothing more is executed just if every operator skips and no statement follows. -/
theorem ended_of_log {rest : List (Operator × Pipeline γ)} {later : List (Statement γ)} {r : Result} {log : List γ}
    {s : τ} (h : (runScript (recorded run) later (runRest (recorded run) rest (r, log, s))).2.1.length ≤ log.length) :
    (∀ e ∈ rest, ¬ e.1.GoesOn r.status) ∧ later = [] := by
  induction rest with
  | nil =>
    refine ⟨by simp, ?_⟩
    by_contra hne
    exact absurd (runScript_longer run hne r log s) (Nat.not_lt.mpr h)
  | cons e rest ih =>
    have hskip : ¬ e.1.GoesOn r.status := fun hgo =>
      absurd (runRest_began run hgo e.2 rest later log s).length_lt (Nat.not_lt.mpr h)
    rw [runRest, if_neg hskip] at h
    exact ⟨List.forall_mem_cons.mpr ⟨hskip, (ih h).1⟩, (ih h).2⟩

end Recorded

/-! ### Commands that are told apart -/

def Pipeline.numbered (n : ℕ) (p : Pipeline γ) : Pipeline (γ × ℕ) :=
  ⟨p.commands.zipIdx n, by simp [p.nonempty], p.negated⟩

def numberedRest : ℕ → List (Operator × Pipeline γ) → List (Operator × Pipeline (γ × ℕ))
  | _, [] => []
  | n, (op, p) :: rest => (op, p.numbered n) :: numberedRest (n + p.commands.length) rest

def Statement.numbered (n : ℕ) (stmt : Statement γ) : Statement (γ × ℕ) :=
  ⟨stmt.first.numbered n, numberedRest (n + stmt.first.commands.length) stmt.rest⟩

/-- The script with each command under its number. -/
def numbered : ℕ → List (Statement γ) → List (Statement (γ × ℕ))
  | _, [] => []
  | n, stmt :: rest => stmt.numbered n :: numbered (n + stmt.commands.length) rest

theorem commandsOf_numbered (n : ℕ) (rest : List (Operator × Pipeline γ)) :
    commandsOf (numberedRest n rest) = (commandsOf rest).zipIdx n := by
  induction rest generalizing n with
  | nil => rfl
  | cons e rest ih =>
    simp only [numberedRest, commandsOf, List.flatMap_cons, List.zipIdx_append] at ih ⊢
    rw [ih]
    rfl

theorem Statement.commands_numbered (n : ℕ) (stmt : Statement γ) :
    (stmt.numbered n).commands = stmt.commands.zipIdx n := by
  rw [Statement.commands, Statement.commands, List.zipIdx_append, ← commandsOf_numbered]
  rfl

theorem commands_numbered (n : ℕ) (script : List (Statement γ)) :
    Script.commands (numbered n script) = (Script.commands script).zipIdx n := by
  induction script generalizing n with
  | nil => rfl
  | cons stmt rest ih =>
    simp only [numbered, Script.commands, List.flatMap_cons, List.zipIdx_append, Statement.commands_numbered] at ih ⊢
    rw [ih]

/-- **No two commands of a numbered script are alike.** -/
theorem nodup_numbered (n : ℕ) (script : List (Statement γ)) : (Script.commands (numbered n script)).Nodup := by
  rw [commands_numbered]
  have hnumbers : ((Script.commands script).zipIdx n).map Prod.snd = List.range' n (Script.commands script).length := by
    simp
  exact List.Nodup.of_map Prod.snd (hnumbers ▸ List.nodup_range')

end Control
