/-
# The control operators of a call

A call runs a script as the reference does, but for two things: the `!` of a
pipeline is not looked at, and a redirection that fails ends the call, where it
should end its command only. So the two execute the same commands, write the
same and answer the same just if every `!` that is come to ends a statement that
is not the last one, and every command that fails is the last one to be
executed, with nothing written before it (`control_iff`). Up to the first `!` or
failure the two go in step; after it either one of them executes a command that
the other has passed by, or nothing is left to be run. `exec_logged` says that
the log of the commands changes nothing about the call.

Key definitions: `Outcome`, `logging`, `answered`, `Agrees`, `FailsLast`, `FitsPipeline`, `FitsRest`, `FitsScript`.
Key theorems: `pipes_cases`, `step_iff`, `script_iff`, `control_iff`, `fitsScript_of_plain`, `exec_logged`.
-/
import Smfs.Bash.Answers

namespace Smfs.Bash.Shell

open Turns Control
open Py (ExecResult)

variable {ι γ τ : Type}

/-- What becomes of a command: what it answers or raises, with what it reads
and in what state. -/
abbrev Outcome (ι τ : Type) := ι → String → τ → Except Raised ExecResult × τ

/-- A command of the shell that leaves itself in a log. -/
def logging (outcome : Outcome ι τ) (cmd : ι) (stdin : String) : Job Raised (List ι × τ) ExecResult := do
  match ← sync fun x : List ι × τ => ((outcome cmd stdin x.2).1, x.1 ++ [cmd], (outcome cmd stdin x.2).2) with
  | .ok r => return r
  | .error e => throw e

def reported (r : ExecResult) : Result := ⟨r.stdout, r.stderr, r.exitCode⟩

/-- The answer for what is raised. -/
def complaint (e : Raised) : Result := { stderr := "bash: " ++ e.text ++ "\n", status := 1 }

/-- The command of the reference: if it raises, it alone fails. -/
def answered (outcome : Outcome ι τ) : Command ι τ := fun cmd stdin s =>
  match outcome cmd stdin s with
  | (.ok r, t) => (reported r, t)
  | (.error e, t) => (complaint e, t)

variable (outcome : Outcome ι τ)

/-- The call executes the commands that the reference executes, and the result
is the same. -/
def Agrees (script : List (Statement ι)) (s : τ) : Prop :=
  ∃ r log t u, eval (answerScript (logging outcome) script) ([], s) = (.ok r, log, t) ∧
    runScript (recorded (answered outcome)) script ({}, [], s) = (reported r, log, u)

/-! ### The condition -/

/-- A command of the pipeline that raises is its last one, and raises an
`FsError`; nothing was written to the standard error before it. -/
def FailsLast (alone : Prop) : List ι → String → String → τ → Prop
  | [], _, _, _ => True
  | cmd :: rest, err, stdin, s =>
    match outcome cmd stdin s with
    | (.ok r, t) => FailsLast alone rest (err ++ r.stderr) r.stdout t
    | (.error e, _) => IsFs e ∧ rest = [] ∧ err = "" ∧ alone

/-- One pipeline, after what was written before it. If it fails nothing must be
left that is run, and if it is inverted it must not be what answers. -/
def FitsPipeline (p : Pipeline ι) (rest : List (Operator × Pipeline ι)) (later : List (Statement ι)) (a : Result × τ) :
    Prop :=
  FailsLast outcome (p.negated = false ∧ (∀ e ∈ rest, e.1 = .and) ∧ later = [] ∧ a.1.stdout = "") p.commands
      a.1.stderr "" a.2 ∧
    (p.negated = true → rest = [] ∧ later ≠ [])

/-- The pipelines that the reference comes to, then what follows the statement. -/
def FitsRest (later : List (Statement ι)) (next : Result × τ → Prop) : List (Operator × Pipeline ι) → Result × τ → Prop
  | [], a => next a
  | (op, p) :: rest, a =>
    if op.GoesOn a.1.status then
      FitsPipeline outcome p rest later a ∧ FitsRest later next rest (runNext (answered outcome) p a)
    else FitsRest later next rest a

def FitsScript : List (Statement ι) → Result × τ → Prop
  | [], _ => True
  | stmt :: later, a => FitsPipeline outcome stmt.first stmt.rest later a ∧
    FitsRest outcome later (FitsScript later) stmt.rest (runNext (answered outcome) stmt.first a)

variable {outcome}

@[simp] theorem eval_logging (cmd : ι) (stdin : String) (x : List ι × τ) : eval (logging outcome cmd stdin) x =
    ((outcome cmd stdin x.2).1, x.1 ++ [cmd], (outcome cmd stdin x.2).2) := by
  rw [logging, eval_bind, eval_sync, andThen_ok]
  cases (outcome cmd stdin x.2).1 <;> rfl

/-! ### A pipeline -/

/-- No command of the pipeline raises. -/
structure Finished (outcome : Outcome ι τ) (cmds : List ι) (stdin : String) (s : τ) (r : ExecResult) (t : τ) :
    Prop where
  code : ∀ last log, eval (execPipes (logging outcome) cmds stdin last) (log, s) =
    (.ok { r with stderr := last.stderr ++ r.stderr }, log ++ cmds, t)
  reference : runPipes (answered outcome) cmds stdin s = (reported r, t)
  fits : ∀ alone err, FailsLast outcome alone cmds err stdin s

/-- The commands of `pre` are executed, and the last of them raises. -/
structure Broken (outcome : Outcome ι τ) (pre post : List ι) (stdin : String) (s : τ) (e : Raised) (err : String)
    (t : τ) : Prop where
  some : pre ≠ []
  code : ∀ last log, eval (execPipes (logging outcome) (pre ++ post) stdin last) (log, s) = (.error e, log ++ pre, t)
  reference : post = [] → runPipes (answered outcome) pre stdin s =
    ({ complaint e with stderr := err ++ (complaint e).stderr }, t)
  fits : ∀ alone before, FailsLast outcome alone (pre ++ post) before stdin s ↔
    IsFs e ∧ post = [] ∧ before ++ err = "" ∧ alone

section Steps

variable {cmd : ι} {rest : List ι} {stdin : String} {s t : τ} {r : ExecResult} {e : Raised}

theorem eval_execPipes_ok (h : outcome cmd stdin s = (.ok r, t)) (last : ExecResult) (log : List ι) :
    eval (execPipes (logging outcome) (cmd :: rest) stdin last) (log, s) =
      eval (execPipes (logging outcome) rest r.stdout ⟨if rest.isEmpty then r.stdout else "", last.stderr ++ r.stderr,
        r.exitCode⟩) (log ++ [cmd], t) := by
  rw [execPipes, eval_bind, eval_logging, h, andThen_ok]

theorem eval_execPipes_error (h : outcome cmd stdin s = (.error e, t)) (last : ExecResult) (log : List ι) :
    eval (execPipes (logging outcome) (cmd :: rest) stdin last) (log, s) = (.error e, log ++ [cmd], t) := by
  rw [execPipes, eval_bind, eval_logging, h, andThen_error]

theorem failsLast_ok (h : outcome cmd stdin s = (.ok r, t)) (alone : Prop) (err : String) :
    FailsLast outcome alone (cmd :: rest) err stdin s = FailsLast outcome alone rest (err ++ r.stderr) r.stdout t := by
  rw [FailsLast, h]

theorem failsLast_error (h : outcome cmd stdin s = (.error e, t)) (alone : Prop) (err : String) :
    FailsLast outcome alone (cmd :: rest) err stdin s = (IsFs e ∧ rest = [] ∧ err = "" ∧ alone) := by
  rw [FailsLast, h]

theorem answered_ok (h : outcome cmd stdin s = (.ok r, t)) : answered outcome cmd stdin s = (reported r, t) := by
  rw [answered, h]

theorem answered_error (h : outcome cmd stdin s = (.error e, t)) :
    answered outcome cmd stdin s = (complaint e, t) := by
  rw [answered, h]

end Steps

variable (outcome) in
theorem pipes_cases {cmds : List ι} (h : cmds ≠ []) (stdin : String) (s : τ) :
    (∃ r t, Finished outcome cmds stdin s r t) ∨
      ∃ pre post e err t, cmds = pre ++ post ∧ Broken outcome pre post stdin s e err t := by
  induction cmds generalizing stdin s with
  | nil => exact absurd rfl h
  | cons cmd rest ih =>
    rcases ho : outcome cmd stdin s with ⟨e | r, t⟩
    · -- the command itself raises
      refine .inr ⟨[cmd], rest, e, "", t, rfl, by simp, fun last log => ?_, fun _ => ?_, fun alone before => ?_⟩
      · exact eval_execPipes_error ho last log
      · simp [runPipes, answered_error ho]
      · simp [failsLast_error ho]
    · cases rest with
      | nil =>
        refine .inl ⟨r, t, fun last log => ?_, ?_, fun alone err => ?_⟩
        · rw [eval_execPipes_ok ho]
          rfl
        · simp [runPipes, answered_ok ho]
        · rw [failsLast_ok ho]
          trivial
      | cons cmd' rest =>
        rcases ih (by simp) r.stdout t with ⟨r', u, hf⟩ | ⟨pre, post, e, err, u, hsplit, hb⟩
        · refine .inl ⟨{ r' with stderr := r.stderr ++ r'.stderr }, u, fun last log => ?_, ?_, fun alone err => ?_⟩
          · rw [eval_execPipes_ok ho, hf.code]
            simp [String.append_assoc]
          · rw [runPipes_cons, answered_ok ho]
            simp [hf.reference, reported]
          · rw [failsLast_ok ho]
            exact hf.fits alone _
        · refine .inr ⟨cmd :: pre, post, e, r.stderr ++ err, u, by rw [hsplit]; rfl, by simp, fun last log => ?_,
            fun hpost => ?_, fun alone before => ?_⟩
          · rw [List.cons_append, eval_execPipes_ok ho, hb.code]
            simp
          · obtain ⟨c, pre, rfl⟩ := List.exists_cons_of_ne_nil hb.some
            rw [runPipes_cons, answered_ok ho]
            simp [hb.reference hpost, reported, String.append_assoc]
          · rw [List.cons_append, failsLast_ok ho, hb.fits, String.append_assoc]

theorem eval_execPipeline (run : ι → String → Job Raised τ ExecResult) (p : Pipeline ι) (s : τ) :
    eval (execPipeline run p) s = eval (execPipes run p.commands "" {}) s := by
  unfold execPipeline
  split
  · rename_i cmd hcmd
    rw [hcmd]
    simp only [execPipes, eval_bind]
    rcases eval (run cmd "") s with ⟨e | r, t⟩
    · rfl
    · simp
  · rfl

/-! ### What a call leaves in the log -/

theorem grew_andThen {α β : Type} {cmds cmds' log : List ι} {x : Except Raised α × List ι × τ}
    {g : α → List ι × τ → Except Raised β × List ι × τ} (h : Grew cmds log x.2.1)
    (hg : ∀ a y, Grew cmds' y.1 (g a y).2.1) : Grew (cmds ++ cmds') log (andThen x g).2.1 := by
  rcases x with ⟨e | a, y⟩
  · exact h.mono (List.subset_append_left _ _)
  · exact h.trans (hg a y)

variable (outcome) in
/-- A pipeline executes its first command, and none but its own. -/
theorem execPipeline_log (p : Pipeline ι) (x : List ι × τ) :
    ∃ cmd ∈ p.commands, ∃ more, (eval (execPipeline (logging outcome) p) x).2.1 = x.1 ++ cmd :: more ∧
      more ⊆ p.commands := by
  rw [eval_execPipeline]
  rcases pipes_cases outcome p.nonempty "" x.2 with ⟨r, t, hf⟩ | ⟨pre, post, e, err, t, hsplit, hb⟩
  · obtain ⟨cmd, more, hcmds⟩ := List.exists_cons_of_ne_nil p.nonempty
    refine ⟨cmd, hcmds ▸ List.mem_cons_self, more, ?_, hcmds ▸ List.subset_cons_self _ _⟩
    rw [hf.code {} x.1, hcmds]
  · obtain ⟨cmd, more, rfl⟩ := List.exists_cons_of_ne_nil hb.some
    rw [hsplit]
    refine ⟨cmd, List.mem_append_left _ List.mem_cons_self, more, ?_, fun c hc => ?_⟩
    · rw [hb.code {} x.1]
    · exact List.mem_append_left _ (List.mem_cons_of_mem _ hc)

theorem execPipeline_grew (p : Pipeline ι) (x : List ι × τ) :
    Grew p.commands x.1 (eval (execPipeline (logging outcome) p) x).2.1 := by
  obtain ⟨cmd, hcmd, more, hlog, hmore⟩ := execPipeline_log outcome p x
  exact ⟨cmd :: more, hlog, List.cons_subset.mpr ⟨hcmd, hmore⟩⟩

theorem execRest_grew (rest : List (Operator × Pipeline ι)) (acc : ExecResult) (x : List ι × τ) :
    Grew (commandsOf rest) x.1 (eval (execRest (logging outcome) rest acc) x).2.1 := by
  induction rest generalizing acc x with
  | nil => exact .refl _ _
  | cons e rest ih =>
    obtain ⟨op, p⟩ := e
    rw [execRest, commandsOf_cons]
    split_ifs
    · exact (ih acc x).mono (List.subset_append_right _ _)
    · rw [eval_bind]
      exact grew_andThen (execPipeline_grew p x) fun r y => ih _ y


/-- The call from the middle of a statement on. -/
def goingOn (outcome : Outcome ι τ) (rest : List (Operator × Pipeline ι)) (later : List (Statement ι))
    (acc : ExecResult) (x : List ι × τ) : Except Raised ExecResult × List ι × τ :=
  andThen (eval (execRest (logging outcome) rest acc) x) fun r y => eval (execStatements (logging outcome) later r) y

theorem joined_joined (a b c : ExecResult) : joined a (joined b c) = joined (joined a b) c := by
  simp [joined, String.append_assoc]

/-- What was written before a statement is not looked at. -/
theorem eval_execRest_joined (run : ι → String → Job Raised τ ExecResult) (acc r : ExecResult)
    (rest : List (Operator × Pipeline ι)) (s : τ) : eval (execRest run rest (joined acc r)) s =
      andThen (eval (execRest run rest r) s) fun r' t => (.ok (joined acc r'), t) := by
  induction rest generalizing r s with
  | nil => rfl
  | cons e rest ih =>
    obtain ⟨op, p⟩ := e
    have hcode : (joined acc r).exitCode = r.exitCode := rfl
    rw [execRest, execRest, hcode]
    split_ifs
    · exact ih r s
    · rw [eval_bind, eval_bind]
      rcases eval (execPipeline run p) s with ⟨e | q, t⟩
      · rfl
      · rw [andThen_ok, andThen_ok, ← joined_joined, ih]

theorem eval_execStatements_cons (stmt : Statement ι) (later : List (Statement ι)) (acc : ExecResult)
    (x : List ι × τ) : eval (execStatements (logging outcome) (stmt :: later) acc) x =
      andThen (eval (execPipeline (logging outcome) stmt.first) x) fun r y =>
        goingOn outcome stmt.rest later (joined acc r) y := by
  rw [execStatements, execStatement, eval_bind, eval_bind]
  rcases eval (execPipeline (logging outcome) stmt.first) x with ⟨e | r, y⟩
  · rfl
  · have hjoined : joined acc r = joined acc (joined {} r) := by simp [joined]
    rw [andThen_ok, andThen_ok, goingOn, hjoined, eval_execRest_joined _ acc (joined {} r)]
    rcases eval (execRest (logging outcome) stmt.rest (joined {} r)) y with ⟨e | r', z⟩
    · rfl
    · rfl

theorem goingOn_nil (later : List (Statement ι)) (acc : ExecResult) (x : List ι × τ) :
    goingOn outcome [] later acc x = eval (execStatements (logging outcome) later acc) x := rfl

theorem goingOn_skip {op : Operator} {acc : ExecResult} (h : skips op acc.exitCode = true) (p : Pipeline ι)
    (rest : List (Operator × Pipeline ι)) (later : List (Statement ι)) (x : List ι × τ) :
    goingOn outcome ((op, p) :: rest) later acc x = goingOn outcome rest later acc x := by
  rw [goingOn, execRest, if_pos h, goingOn]

theorem goingOn_run {op : Operator} {acc : ExecResult} (h : ¬ skips op acc.exitCode = true) (p : Pipeline ι)
    (rest : List (Operator × Pipeline ι)) (later : List (Statement ι)) (x : List ι × τ) :
    goingOn outcome ((op, p) :: rest) later acc x = andThen (eval (execPipeline (logging outcome) p) x) fun r y =>
      goingOn outcome rest later (joined acc r) y := by
  rw [goingOn, execRest, if_neg h, eval_bind]
  rcases eval (execPipeline (logging outcome) p) x with ⟨e | r, y⟩
  · rfl
  · rfl

theorem skips_iff (op : Operator) (status : ℤ) : skips op status = true ↔ ¬ op.GoesOn status := by
  cases op
  · exact decide_eq_true_iff
  · exact decide_eq_true_iff.trans not_not.symm

theorem execStatements_grew (script : List (Statement ι)) (acc : ExecResult) (x : List ι × τ) :
    Grew (Script.commands script) x.1 (eval (execStatements (logging outcome) script acc) x).2.1 := by
  induction script generalizing acc x with
  | nil => exact .refl _ _
  | cons stmt later ih =>
    rw [eval_execStatements_cons, Script.commands_cons]
    exact grew_andThen (execPipeline_grew stmt.first x) fun r y =>
      grew_andThen (execRest_grew _ _ y) fun r' z => ih r' z

theorem goingOn_grew (rest : List (Operator × Pipeline ι)) (later : List (Statement ι)) (acc : ExecResult)
    (x : List ι × τ) :
    Grew (commandsOf rest ++ Script.commands later) x.1 (goingOn outcome rest later acc x).2.1 :=
  grew_andThen (execRest_grew rest acc x) fun r y => execStatements_grew later r y

/-! ### The call and the reference -/

/-- What the call comes to is what the reference comes to: the answer, and the
commands that were executed. -/
def Agreed : Except Raised ExecResult × List ι × τ → Result × List ι × τ → Prop
  | (.ok r, x), b => b.1 = reported r ∧ b.2.1 = x.1
  | (.error e, x), b => IsFs e ∧ b.1 = complaint e ∧ b.2.1 = x.1

theorem Agreed.log {a : Except Raised ExecResult × List ι × τ} {b : Result × List ι × τ} (h : Agreed a b) :
    b.2.1 = a.2.1 := by
  rcases a with ⟨e | r, x⟩
  · exact h.2.2
  · exact h.2

theorem agrees_agreed (script : List (Statement ι)) (s : τ) : Agrees outcome script s ↔
    Agreed (eval (execStatements (logging outcome) script {}) ([], s))
      (runScript (recorded (answered outcome)) script ({}, [], s)) := by
  unfold Agrees answerScript
  simp only [eval_tryCatch, execScript]
  rcases eval (execStatements (logging outcome) script {}) ([], s) with ⟨(f | message | message) | r, log, t⟩
  · constructor
    · rintro ⟨r, log', t', u, he, href⟩
      obtain ⟨hr, hx⟩ := Prod.mk.inj he
      obtain ⟨hlog, -⟩ := Prod.mk.inj hx
      rw [href]
      exact ⟨⟨f, rfl⟩, by rw [← Except.ok.inj hr]; rfl, hlog.symm⟩
    · rintro ⟨-, hresult, hlog⟩
      exact ⟨_, log, t, (runScript (recorded (answered outcome)) script ({}, [], s)).2.2, rfl,
        Prod.ext hresult (Prod.ext hlog rfl)⟩
  · exact iff_of_false (by simp) (by simp [Agreed, IsFs])
  · exact iff_of_false (by simp) (by simp [Agreed, IsFs])
  · constructor
    · rintro ⟨r', log', t', u, he, href⟩
      obtain ⟨hr, hx⟩ := Prod.mk.inj he
      obtain ⟨hlog, -⟩ := Prod.mk.inj hx
      rw [href]
      exact ⟨by rw [← Except.ok.inj hr], hlog.symm⟩
    · rintro ⟨hresult, hlog⟩
      exact ⟨r, log, t, (runScript (recorded (answered outcome)) script ({}, [], s)).2.2, rfl,
        Prod.ext hresult (Prod.ext hlog rfl)⟩


/-! ### In step -/

theorem execPipeline_began (p : Pipeline ι) (x : List ι × τ) :
    Began p.commands x.1 (eval (execPipeline (logging outcome) p) x).2.1 := by
  obtain ⟨cmd, hcmd, more, hlog, -⟩ := execPipeline_log outcome p x
  exact ⟨cmd, hcmd, more, hlog⟩

variable {p : Pipeline ι} {rest : List (Operator × Pipeline ι)} {later : List (Statement ι)} {acc : ExecResult}
  {r : Result} {log : List ι} {s : τ}

/-- Where the operator goes on, so does the log. -/
theorem goingOn_began {op : Operator} (h : op.GoesOn acc.exitCode) :
    Began p.commands log (goingOn outcome ((op, p) :: rest) later acc (log, s)).2.1 := by
  rw [goingOn_run fun hskip => (skips_iff op _).mp hskip h]
  have hp : Began p.commands log (eval (execPipeline (logging outcome) p) (log, s)).2.1 :=
    execPipeline_began p (log, s)
  rcases he : eval (execPipeline (logging outcome) p) (log, s) with ⟨e | q, y⟩ <;> rw [he] at hp
  · exact hp
  · exact hp.trans (goingOn_grew rest later (joined acc q) y)

/-- If a status is taken for its inverse before an operator, one of the two
executes what the other passes by. -/
theorem not_agreed_of_inverted {op : Operator} (hstatus : r.status = invert acc.exitCode)
    (hnodup : (p.commands ++ (commandsOf rest ++ Script.commands later)).Nodup) (t : τ) :
    ¬ Agreed (goingOn outcome ((op, p) :: rest) later acc (log, s))
      (runScript (recorded (answered outcome)) later
        (runRest (recorded (answered outcome)) ((op, p) :: rest) (r, log, t))) := by
  intro h
  have hlog := h.log
  have hinvert : op.GoesOn r.status ↔ ¬ op.GoesOn acc.exitCode := hstatus ▸ goesOn_invert op acc.exitCode
  by_cases hgo : op.GoesOn acc.exitCode
  · have hbegan : Began p.commands log (goingOn outcome ((op, p) :: rest) later acc (log, s)).2.1 :=
      goingOn_began hgo
    rw [← hlog, runRest, if_neg fun hr => hinvert.mp hr hgo] at hbegan
    exact hbegan.not_grew hnodup ((runRest_grew _ rest (r, log, t)).trans (runScript_grew _ later _))
  · have hbegan := runRest_began (answered outcome) (hinvert.mpr hgo) p rest later log t
    rw [hlog, goingOn_skip ((skips_iff op _).mpr hgo)] at hbegan
    exact hbegan.not_grew hnodup (goingOn_grew rest later acc (log, s))

/-- Where every operator left is a skipped one, the condition is about what follows. -/
theorem fitsRest_skipped {next : Result × τ → Prop} {a : Result × τ} (h : ∀ e ∈ rest, ¬ e.1.GoesOn a.1.status) :
    FitsRest outcome later next rest a ↔ next a := by
  induction rest with
  | nil => rfl
  | cons e rest ih =>
    rw [List.forall_mem_cons] at h
    rw [FitsRest, if_neg h.1, ih h.2]

theorem eq_empty_of_append {a b : String} (h : a ++ b = b) : a = "" := by
  have hlist := congrArg String.toList h
  rw [String.toList_append, List.append_left_eq_self] at hlist
  exact String.toList_eq_nil_iff.mp hlist

/-- The pipeline breaks: then nothing must be left to run, and nothing written. -/
theorem broken_iff {pre post : List ι} {e : Raised} {err : String} {t : τ} (hcmds : p.commands = pre ++ post)
    (hb : Broken outcome pre post "" s e err t) (u : τ) :
    Agreed (.error e, log ++ pre, u) (runScript (recorded (answered outcome)) later
        (runRest (recorded (answered outcome)) rest (runNext (recorded (answered outcome)) p (r, log, s)))) ↔
      FitsPipeline outcome p rest later (r, s) ∧
        FitsRest outcome later (FitsScript outcome later) rest (runNext (answered outcome) p (r, s)) := by
  have hfits : FitsPipeline outcome p rest later (r, s) ↔ (IsFs e ∧ post = [] ∧ r.stderr ++ err = "" ∧
      p.negated = false ∧ (∀ e ∈ rest, e.1 = .and) ∧ later = [] ∧ r.stdout = "") ∧
      (p.negated = true → rest = [] ∧ later ≠ []) := by
    rw [FitsPipeline, hcmds, hb.fits]
  have hnext : post = [] → runNext (answered outcome) p (r, s) = (r.before
      { complaint e with
        stderr := err ++ (complaint e).stderr
        status := if p.negated then invert (complaint e).status else (complaint e).status }, t) := by
    intro hpost
    have hpipes := hb.reference hpost
    rw [hpost, List.append_nil] at hcmds
    simp [runNext, runPipeline, hcmds, hpipes]
  rw [runNext_recorded, hfits]
  rcases hn : runNext (answered outcome) p (r, s) with ⟨q, v⟩
  rw [hn] at hnext
  constructor
  · rintro ⟨he, hresult, hlog⟩
    -- the reference has nothing left to run
    have hlen : (runScript (recorded (answered outcome)) later
        (runRest (recorded (answered outcome)) rest (q, log ++ p.commands, v))).2.1.length ≤
          (log ++ p.commands).length := by
      rw [hlog, hcmds]
      simp
    obtain ⟨hskip, rfl⟩ := ended_of_log (answered outcome) hlen
    have hstill : runRest (recorded (answered outcome)) rest (q, log ++ p.commands, v) = (q, log ++ p.commands, v) :=
      runRest_skipped hskip
    rw [hstill, runScript] at hlog hresult
    have hpost : post = [] := by
      rw [hcmds] at hlog
      simpa using hlog
    have hq := (Prod.mk.inj (hnext hpost)).1
    have hall : q = complaint e := hresult
    have hneg : p.negated = false := by
      by_contra hneg
      have hstatus := congrArg Result.status (hq.symm.trans hall)
      simp [Result.before, complaint, invert, hneg] at hstatus
    have hstatus : q.status = 1 := congrArg Result.status hall
    have hquiet : r.stdout = "" ∧ r.stderr ++ err = "" := by
      have hout : r.stdout ++ "" = "" := congrArg Result.stdout (hq.symm.trans hall)
      have herr : r.stderr ++ (err ++ (complaint e).stderr) = (complaint e).stderr :=
        congrArg Result.stderr (hq.symm.trans hall)
      rw [← String.append_assoc] at herr
      exact ⟨by simpa using hout, eq_empty_of_append herr⟩
    refine ⟨⟨⟨he, hpost, hquiet.2, hneg, fun x hx => ?_, rfl, hquiet.1⟩, by simp [hneg]⟩, ?_⟩
    · have hx' := hskip x hx
      rw [hstatus] at hx'
      rcases x with ⟨_ | _, _⟩
      · rfl
      · simp [Operator.GoesOn] at hx'
    · exact (fitsRest_skipped hskip).mpr trivial
  · rintro ⟨⟨⟨he, hpost, herr, hneg, hands, rfl, hout⟩, -⟩, -⟩
    have hq : q = complaint e := by
      have h := (Prod.mk.inj (hnext hpost)).1
      rw [h, hneg, Result.before, ← String.append_assoc, herr, hout]
      simp [complaint]
    have hskip : ∀ x ∈ rest, ¬ x.1.GoesOn q.status := by
      intro x hx
      rw [hands x hx, hq]
      simp [Operator.GoesOn, complaint]
    have hstill : runRest (recorded (answered outcome)) rest (q, log ++ p.commands, v) = (q, log ++ p.commands, v) :=
      runRest_skipped hskip
    rw [hstill, runScript, hcmds, hpost, List.append_nil]
    exact ⟨he, hq, rfl⟩

theorem step_iff (hout : r.stdout = acc.stdout) (herr : r.stderr = acc.stderr)
    (hnodup : (commandsOf rest ++ Script.commands later).Nodup)
    (hrest : ∀ acc log s, Agreed (goingOn outcome rest later acc (log, s))
        (runScript (recorded (answered outcome)) later (runRest (recorded (answered outcome)) rest
          (reported acc, log, s))) ↔ FitsRest outcome later (FitsScript outcome later) rest (reported acc, s))
    (hlater : later ≠ [] → ∀ (acc : ExecResult) (r : Result) log s, r.stdout = acc.stdout → r.stderr = acc.stderr →
      (Agreed (eval (execStatements (logging outcome) later acc) (log, s))
        (runScript (recorded (answered outcome)) later (r, log, s)) ↔ FitsScript outcome later (r, s))) :
    Agreed (andThen (eval (execPipeline (logging outcome) p) (log, s)) fun q y =>
        goingOn outcome rest later (joined acc q) y)
      (runScript (recorded (answered outcome)) later (runRest (recorded (answered outcome)) rest
        (runNext (recorded (answered outcome)) p (r, log, s)))) ↔
    FitsPipeline outcome p rest later (r, s) ∧
      FitsRest outcome later (FitsScript outcome later) rest (runNext (answered outcome) p (r, s)) := by
  rw [eval_execPipeline]
  rcases pipes_cases outcome p.nonempty "" s with ⟨q, t, hf⟩ | ⟨pre, post, e, err, t, hcmds, hb⟩
  · have hnext : runNext (answered outcome) p (r, s) = (r.before
        { reported q with status := if p.negated then invert q.exitCode else q.exitCode }, t) := by
      simp [runNext, runPipeline, hf.reference, reported]
    have hcode : (⟨q.stdout, "" ++ q.stderr, q.exitCode⟩ : ExecResult) = q := by simp
    rw [hf.code, andThen_ok, runNext_recorded, hnext, FitsPipeline, and_iff_right (hf.fits _ _), hcode]
    cases hneg : p.negated with
    | false =>
      have hsame : r.before { reported q with status := q.exitCode } = reported (joined acc q) := by
        simp [Result.before, reported, joined, hout, herr]
      simp only [Bool.false_eq_true, if_false, false_implies, true_and]
      rw [hsame]
      exact hrest _ _ _
    | true =>
      simp only [if_true, true_implies]
      rcases rest with _ | ⟨⟨op, p'⟩, rest⟩
      · by_cases hlast : later = []
        · -- the two answers differ
          refine iff_of_false (fun h => ?_) (fun h => h.1.2 hlast)
          rw [hlast] at h
          exact invert_ne _ (congrArg Result.status h.1)
        · rw [goingOn_nil, and_iff_right ⟨rfl, hlast⟩]
          exact hlater hlast _ _ _ _ (by simp [Result.before, reported, joined, hout])
            (by simp [Result.before, reported, joined, herr])
      · rw [commandsOf_cons, List.append_assoc] at hnodup
        exact iff_of_false (not_agreed_of_inverted rfl hnodup t) (by simp)
  · rw [hcmds, hb.code, andThen_error]
    exact broken_iff hcmds hb t

theorem rest_iff (hlater : ∀ (acc : ExecResult) (r : Result) log s, r.stdout = acc.stdout → r.stderr = acc.stderr →
      (later = [] → r.status = acc.exitCode) →
      (Agreed (eval (execStatements (logging outcome) later acc) (log, s))
        (runScript (recorded (answered outcome)) later (r, log, s)) ↔ FitsScript outcome later (r, s)))
    (hnodup : (commandsOf rest ++ Script.commands later).Nodup) (acc : ExecResult) (log : List ι) (s : τ) :
    Agreed (goingOn outcome rest later acc (log, s))
        (runScript (recorded (answered outcome)) later (runRest (recorded (answered outcome)) rest
          (reported acc, log, s))) ↔ FitsRest outcome later (FitsScript outcome later) rest (reported acc, s) := by
  induction rest generalizing acc log s with
  | nil => exact hlater acc (reported acc) log s rfl rfl fun _ => rfl
  | cons e rest ih =>
    obtain ⟨op, p⟩ := e
    rw [commandsOf_cons, List.append_assoc] at hnodup
    have hrest := hnodup.sublist (List.sublist_append_right _ _)
    rw [runRest, FitsRest]
    dsimp only
    by_cases hgo : op.GoesOn (reported acc).status
    · rw [goingOn_run fun hskip => (skips_iff op _).mp hskip hgo, if_pos hgo, if_pos hgo]
      exact step_iff rfl rfl hrest (ih hrest) fun hne acc r log s hout herr =>
        hlater acc r log s hout herr fun h => absurd h hne
    · rw [goingOn_skip ((skips_iff op _).mpr hgo), if_neg hgo, if_neg hgo]
      exact ih hrest acc log s

theorem script_iff {script : List (Statement ι)} (hnodup : (Script.commands script).Nodup) (acc : ExecResult)
    (r : Result) (log : List ι) (s : τ) (hout : r.stdout = acc.stdout) (herr : r.stderr = acc.stderr)
    (hstatus : script = [] → r.status = acc.exitCode) :
    Agreed (eval (execStatements (logging outcome) script acc) (log, s))
      (runScript (recorded (answered outcome)) script (r, log, s)) ↔ FitsScript outcome script (r, s) := by
  induction script generalizing acc r log s with
  | nil =>
    refine iff_of_true ⟨?_, rfl⟩ trivial
    have h := hstatus rfl
    obtain ⟨stdout, stderr, status⟩ := r
    obtain ⟨rfl, rfl, rfl⟩ : stdout = acc.stdout ∧ stderr = acc.stderr ∧ status = acc.exitCode := ⟨hout, herr, h⟩
    rfl
  | cons stmt later ih =>
    rw [Script.commands_cons] at hnodup
    have hafter := hnodup.sublist (List.sublist_append_right _ _)
    have hlater := ih (hafter.sublist (List.sublist_append_right _ _))
    rw [eval_execStatements_cons, runScript_cons, FitsScript]
    exact step_iff hout herr hafter (rest_iff (fun acc r log s => hlater acc r log s) hafter)
      fun hne acc r log s hout herr => hlater acc r log s hout herr fun h => absurd h hne

/-- **When the operators compose like a shell's.** -/
theorem control_iff (outcome : Outcome (γ × ℕ) τ) (script : Script γ) (s : τ) :
    Agrees outcome (numbered 0 script) s ↔ FitsScript outcome (numbered 0 script) ({}, s) := by
  rw [agrees_agreed]
  exact script_iff (nodup_numbered 0 script) {} {} [] s rfl rfl fun _ => rfl

/-! ### Scripts without the two -/

/-- The pipeline is not inverted, and no command of it raises. -/
def Plain (outcome : Outcome ι τ) (p : Pipeline ι) : Prop :=
  p.negated = false ∧ ∀ cmd ∈ p.commands, ∀ stdin s, ∃ r t, outcome cmd stdin s = (.ok r, t)

theorem failsLast_of_plain {cmds : List ι} (h : ∀ cmd ∈ cmds, ∀ stdin s, ∃ r t, outcome cmd stdin s = (.ok r, t))
    (alone : Prop) (err stdin : String) (s : τ) : FailsLast outcome alone cmds err stdin s := by
  induction cmds generalizing err stdin s with
  | nil => trivial
  | cons cmd rest ih =>
    rw [List.forall_mem_cons] at h
    obtain ⟨r, t, ho⟩ := h.1 stdin s
    rw [failsLast_ok ho]
    exact ih h.2 _ _ t

theorem Plain.fits (h : Plain outcome p) (rest : List (Operator × Pipeline ι)) (later : List (Statement ι))
    (a : Result × τ) : FitsPipeline outcome p rest later a :=
  ⟨failsLast_of_plain h.2 _ _ _ _, fun hneg => absurd (h.1.symm.trans hneg) Bool.false_ne_true⟩

theorem fitsRest_of_plain {next : Result × τ → Prop} (h : ∀ p ∈ rest.map Prod.snd, Plain outcome p)
    (hnext : ∀ a, next a) (a : Result × τ) : FitsRest outcome later next rest a := by
  induction rest generalizing a with
  | nil => exact hnext a
  | cons e rest ih =>
    rw [List.map_cons, List.forall_mem_cons] at h
    rw [FitsRest]
    split_ifs
    · exact ⟨h.1.fits rest later a, ih h.2 _⟩
    · exact ih h.2 a

/-- **Where nothing is inverted and nothing raises the condition holds.** -/
theorem fitsScript_of_plain {script : List (Statement ι)} (h : ∀ stmt ∈ script, ∀ p ∈ stmt.pipelines, Plain outcome p)
    (a : Result × τ) : FitsScript outcome script a := by
  induction script generalizing a with
  | nil => trivial
  | cons stmt later ih =>
    rw [List.forall_mem_cons] at h
    have hstmt := h.1
    rw [Statement.pipelines, List.forall_mem_cons] at hstmt
    exact ⟨hstmt.1.fits stmt.rest later a, fitsRest_of_plain hstmt.2 (ih h.2) _⟩

/-! ### The shell -/

section Shell

variable (run : γ → String → Job Raised τ ExecResult)

/-- What becomes of a numbered command of the shell. -/
def outcomeOf : Outcome (γ × ℕ) τ := fun cmd stdin s => eval (run cmd.1 stdin) s

/-- A run without its log. -/
def unlogged {α : Type} (a : Except Raised α × List ι × τ) : Except Raised α × τ := (a.1, a.2.2)

variable {run}

theorem unlogged_andThen {α β : Type} {a : Except Raised α × List ι × τ} {a' : Except Raised α × τ}
    {g : α → List ι × τ → Except Raised β × List ι × τ} {g' : α → τ → Except Raised β × τ} (h : unlogged a = a')
    (hg : ∀ r x, unlogged (g r x) = g' r x.2) : unlogged (andThen a g) = andThen a' g' := by
  subst h
  rcases a with ⟨e | r, x⟩
  · rfl
  · exact hg r x

theorem pipes_logged (cmds : List (γ × ℕ)) (stdin : String) (last : ExecResult) (x : List (γ × ℕ) × τ) :
    unlogged (eval (execPipes (logging (outcomeOf run)) cmds stdin last) x) =
      eval (execPipes run (cmds.map Prod.fst) stdin last) x.2 := by
  induction cmds generalizing stdin last x with
  | nil => rfl
  | cons cmd rest ih =>
    rw [List.map_cons, execPipes, execPipes, eval_bind, eval_bind]
    refine unlogged_andThen (by rw [eval_logging]; rfl) fun r y => ?_
    rw [ih, List.isEmpty_map]

theorem pipeline_logged (n : ℕ) (p : Pipeline γ) (x : List (γ × ℕ) × τ) :
    unlogged (eval (execPipeline (logging (outcomeOf run)) (p.numbered n)) x) = eval (execPipeline run p) x.2 := by
  rw [eval_execPipeline, eval_execPipeline, pipes_logged]
  simp [Pipeline.numbered]

theorem rest_logged (n : ℕ) (rest : List (Operator × Pipeline γ)) (result : ExecResult) (x : List (γ × ℕ) × τ) :
    unlogged (eval (execRest (logging (outcomeOf run)) (numberedRest n rest) result) x) =
      eval (execRest run rest result) x.2 := by
  induction rest generalizing n result x with
  | nil => rfl
  | cons e rest ih =>
    obtain ⟨op, p⟩ := e
    rw [numberedRest, execRest, execRest]
    split_ifs
    · exact ih _ _ _
    · rw [eval_bind, eval_bind]
      exact unlogged_andThen (pipeline_logged n p x) fun r y => ih _ _ y

theorem statements_logged (n : ℕ) (script : List (Statement γ)) (result : ExecResult) (x : List (γ × ℕ) × τ) :
    unlogged (eval (execStatements (logging (outcomeOf run)) (numbered n script) result) x) =
      eval (execStatements run script result) x.2 := by
  induction script generalizing n result x with
  | nil => rfl
  | cons stmt later ih =>
    rw [numbered, execStatements, execStatements, execStatement, execStatement]
    simp only [eval_bind]
    refine unlogged_andThen (unlogged_andThen (pipeline_logged n stmt.first x) fun r y => ?_) fun r y => ih _ _ y
    exact rest_logged _ stmt.rest _ y

variable (run) in
/-- **The log changes nothing about the call.** -/
theorem answerScript_logged (script : Script γ) (x : List (γ × ℕ) × τ) :
    unlogged (eval (answerScript (logging (outcomeOf run)) (numbered 0 script)) x) =
      eval (answerScript run script) x.2 := by
  unfold answerScript execScript
  rw [eval_tryCatch, eval_tryCatch, ← statements_logged 0 script {} x]
  rcases eval (execStatements (logging (outcomeOf run)) (numbered 0 script) {}) x with ⟨(f | message | message) | r, y⟩
  · rfl
  · rfl
  · rfl
  · rfl

end Shell

section Call

variable {σ : Type}

/-- What a call answers is what the logged commands come to. -/
theorem exec_logged (V : Volume σ) (builtins : String → Option (Builtin σ)) (script : Script CommandNode)
    (s : State σ) : (eval (exec V builtins (.ok script)) s).1 =
      (eval (answerScript (logging (outcomeOf (execCommand V builtins))) (numbered 0 script)) ([], started s)).1 := by
  have hlogged := congrArg Prod.fst (answerScript_logged (execCommand V builtins) script ([], started s))
  refine Eq.trans ?_ hlogged.symm
  unfold exec
  simp only [eval_bind, eval_sync, andThen_ok]
  rcases eval (answerScript (execCommand V builtins) script) (started s) with ⟨e | r, t⟩
  · rfl
  · rfl

/-- `! true`. -/
def inverted : Script CommandNode := [⟨⟨[.simple ⟨[], some (literal "true"), [], []⟩], by simp, true⟩, []⟩]

/-- **The counterexample.** The call answers what the command does, and the
reference its inverse. -/
theorem inversion_ignored : ¬ Agrees (outcomeOf (execCommand (client 0) plainBuiltins)) (numbered 0 inverted)
    emptyShell := by
  rintro ⟨r, log, t, u, he, href⟩
  have hcode : (eval (answerScript (logging (outcomeOf (execCommand (client 0) plainBuiltins))) (numbered 0 inverted))
      ([], emptyShell)).1 = .ok {} := rfl
  have hstatus : (runScript (recorded (answered (outcomeOf (execCommand (client 0) plainBuiltins))))
      (numbered 0 inverted) ({}, [], emptyShell)).1.status = 1 := rfl
  rw [he] at hcode
  rw [href, Except.ok.inj hcode] at hstatus
  exact absurd (show (0 : ℤ) = 1 from hstatus) (by decide)

end Call
end Smfs.Bash.Shell
