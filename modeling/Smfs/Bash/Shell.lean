/-
# The shell of the Python client

`_shell.py`: a script is run statement by statement, a statement pipeline by
pipeline, a pipeline command by command. A command expands its words, reads
what `<` names, calls its builtin, and hands what that wrote to the
redirections, one after another. The volume is any that reads and writes texts
or raises an `FsError`, and the one of the client is such a volume
(`eval_getDoc`, `eval_addDoc`).

Key definitions: `Volume`, `State`, `execCommand`, `execPipeline`, `execStatement`, `execScript`, `exec`, `client`.
Key theorems: `eval_getDoc`, `eval_addDoc`.
-/
import Smfs.Bash.Parse
import Smfs.Bash.ReadWrite
import Smfs.Bash.Resolve

namespace Smfs.Bash.Shell

open Turns Control
open Py (ExecResult)

/-! ### The state -/

/-- What a call raises. -/
inductive Raised
  | fs (e : FsError)
  | unsupported (message : String)
  | other (message : String)
  deriving DecidableEq

/-- `str(e)` of an `FsError`, which is an `OSError`. -/
def fsText (e : FsError) : String := "[Errno " ++ toString e.errno ++ "] " ++ e.message

/-- `str(e)`. -/
def Raised.text : Raised → String
  | fs e => fsText e
  | unsupported message => message
  | other message => message

/-- What the shell uses of a volume. -/
structure Volume (σ : Type) where
  getDoc : String → σ → Except FsError (Option Content) × σ
  addDoc : String → String → σ → Except FsError Unit × σ
  isDirectory : String → σ → Bool
  /-- The paths and the contents under a prefix. -/
  listByPrefix : String → σ → Except Raised (List (String × Option String)) × σ

/-- The fields of a `Shell`. -/
structure State (σ : Type) where
  volume : σ
  cwd : String
  env : Env
  lastExit : ℤ

abbrev Sh (σ α : Type) := Job Raised (State σ) α

abbrev Builtin (σ : Type) := List String → String → Sh σ ExecResult

variable {σ α τ γ : Type}

/-- A call of the volume. -/
def onVolume (call : σ → Except FsError α × σ) : Sh σ α := do
  match ← sync fun s : State σ => ((call s.volume).1, { s with volume := (call s.volume).2 }) with
  | .ok a => return a
  | .error e => throw (.fs e)

/-- An expansion, with what it writes to the environment. -/
def expanding (x : Expand α) : Sh σ (Except String α) :=
  sync fun s => ((x s.env).1, { s with env := (x s.env).2 })

/-- An expansion that nothing catches. -/
def expanded (x : Expand α) : Sh σ α := do
  match ← expanding x with
  | .ok a => return a
  | .error message => throw (.unsupported message)

/-- `doc.content if isinstance(doc.content, str) else doc.content.decode()`. -/
def decoded : Content → Except Raised String
  | .text s => .ok s
  | .bytes b =>
    if validUtf8 b then .ok (String.ofList (decodeFrom .idle b))
    else .error (.other "'utf-8' codec can't decode bytes")

def decode (content : Content) : Sh σ String :=
  match decoded content with
  | .ok s => return s
  | .error e => throw e

def looking (f : State σ → α) : Sh σ α := sync fun s => (f s, s)

def resolve (path : String) : Sh σ String := looking fun s => Py.resolve s.cwd path

section Eval

variable (s : State σ)

theorem eval_onVolume (call : σ → Except FsError α × σ) :
    eval (onVolume call) s = match call s.volume with
      | (.ok a, v) => (.ok a, { s with volume := v })
      | (.error e, v) => (.error (.fs e), { s with volume := v }) := by
  unfold onVolume
  rw [eval_bind, eval_sync, andThen_ok]
  rcases call s.volume with ⟨_ | a, v⟩
  · rfl
  · rfl

theorem eval_expanded (x : Expand α) :
    eval (expanded x : Sh σ α) s = match x s.env with
      | (.ok a, env) => (.ok a, { s with env := env })
      | (.error message, env) => (.error (.unsupported message), { s with env := env }) := by
  unfold expanded expanding
  rw [eval_bind, eval_sync, andThen_ok]
  rcases x s.env with ⟨_ | a, env⟩
  · rfl
  · rfl

@[simp] theorem eval_expanding (x : Expand α) :
    eval (expanding x : Sh σ _) s = (.ok (x s.env).1, { s with env := (x s.env).2 }) := rfl

@[simp] theorem eval_looking (f : State σ → α) : eval (looking f) s = (.ok (f s), s) := rfl

@[simp] theorem eval_resolve (path : String) : eval (resolve path : Sh σ String) s = (.ok (Py.resolve s.cwd path), s) :=
  rfl

end Eval

/-! ### Commands -/

section Commands

variable (V : Volume σ) (builtins : String → Option (Builtin σ))

/-- The text that a command reads. It is the last one that is named; a file
that is missing ends the command. -/
def readInputs (name : String) : List Redirect → String → Sh σ (Except ExecResult String)
  | [], stdin => return .ok stdin
  | redir :: rest, stdin => do
    if redir.content ≠ "" then readInputs name rest redir.content
    else if redir.op = .read then
      match truthy redir.path with
      | none => readInputs name rest stdin
      | some target =>
        let path ← resolve target
        match ← onVolume (V.getDoc path) with
        | none => return .error { stderr := name ++ ": " ++ path ++ ": No such file\n", exitCode := 1 }
        | some content => readInputs name rest (← decode content)
    else readInputs name rest stdin

/-- What a redirection of this descriptor takes. -/
def streamOf (fd : ℕ) (result : ExecResult) : String := if fd = 1 then result.stdout else result.stderr

/-- The stream, taken. -/
def emptied (fd : ℕ) (result : ExecResult) : ExecResult :=
  if fd = 1 then { result with stdout := "" } else { result with stderr := "" }

/-- What stands in the file so far. -/
def previous (path : String) : Sh σ String := do
  match ← onVolume (V.getDoc path) with
  | none => return ""
  | some existing => decode existing

/-- One redirection of what a command wrote. -/
def applyRedirect (redir : Redirect) (result : ExecResult) : Sh σ ExecResult := do
  if redir.content ≠ "" ∨ redir.op = .read then return result
  else
    let path ← looking fun s => (truthy redir.path).map (Py.resolve s.cwd)
    if path = some "/dev/null" then
      return if redir.fd = 1 then { result with stdout := "" }
        else if redir.fd = 2 then { result with stderr := "" } else result
    else
      let content := streamOf redir.fd result
      match redir.op, path with
      | .write, some path =>
        if content ≠ "" then onVolume (V.addDoc path content)
      | .append, some path =>
        let prev ← previous V path
        if prev ≠ "" ∨ content ≠ "" then onVolume (V.addDoc path (prev ++ content))
      | _, _ => pure ()
      return emptied redir.fd result

def applyRedirects : List Redirect → ExecResult → Sh σ ExecResult
  | [], result => return result
  | redir :: rest, result => do applyRedirects rest (← applyRedirect V redir result)

/-- The name, the arguments and the redirections of a command. -/
def expandCommand (word : WordNode) (node : SimpleCommandNode) : Expand (String × List String × List Redirect) := do
  let name ← expandWord word
  let args ← expandWords node.args
  return (name, args, ← extractRedirects node.redirections)

/-- The call of a builtin, and the redirections if it does not raise. -/
def callBuiltin (name : String) (args : List String) (redirects : List Redirect) (stdin : String) :
    Sh σ ExecResult := do
  match builtins name with
  | none => return { stderr := name ++ ": command not found\n", exitCode := 127 }
  | some handler =>
    match ← tryCatch (do return Except.ok (← handler args stdin)) fun e => return .error e with
    | .error e => return { stderr := name ++ ": " ++ e.text ++ "\n", exitCode := 1 }
    | .ok result => applyRedirects V redirects result

/-- A command with a name. -/
def execNamed (word : WordNode) (node : SimpleCommandNode) (stdin : String) : Sh σ ExecResult := do
  match ← expanding (expandCommand word node) with
  | .error message => return { stderr := message ++ "\n", exitCode := 2 }
  | .ok (name, args, redirects) =>
    match ← readInputs V name redirects stdin with
    | .error result => return result
    | .ok stdin => callBuiltin V builtins name args redirects stdin

/-- The environment with these assignments. -/
def assign (assigns : List (String × String)) (env : Env) : Env :=
  assigns.foldl (fun env a => Function.update env a.1 (some a.2)) env

/-- `_exec_command`. -/
def execCommand : CommandNode → String → Sh σ ExecResult
  | .compound type, _ =>
    return { stderr := "unsupported: " ++ type.name ++ " (only simple commands are supported)\n", exitCode := 2 }
  | .simple node, stdin => do
    let assigns ← expanded (extractAssignments node.assignments)
    sync fun s => ((), { s with env := assign assigns s.env })
    match node.name with
    | none => return {}
    | some word => execNamed V builtins word node stdin

end Commands

/-! ### Control -/

section Run

variable (run : γ → String → Job Raised τ ExecResult)

/-- The commands of a pipeline, each with what the one before it wrote. -/
def execPipes : List γ → String → ExecResult → Job Raised τ ExecResult
  | [], stdin, last => return { last with stdout := stdin }
  | cmd :: rest, stdin, last => do
    let r ← run cmd stdin
    execPipes rest r.stdout
      { stdout := if rest.isEmpty then r.stdout else "", stderr := last.stderr ++ r.stderr, exitCode := r.exitCode }

/-- `_exec_pipeline`. -/
def execPipeline (pipeline : Pipeline γ) : Job Raised τ ExecResult :=
  match pipeline.commands with
  | [cmd] => run cmd ""
  | commands => execPipes run commands "" {}

/-- What was written so far, with what was written then. -/
def joined (result r : ExecResult) : ExecResult := ⟨result.stdout ++ r.stdout, result.stderr ++ r.stderr, r.exitCode⟩

/-- The operator skips the pipeline after it. -/
def skips : Operator → ℤ → Bool
  | .and, code => code ≠ 0
  | .or, code => code = 0

def execRest : List (Operator × Pipeline γ) → ExecResult → Job Raised τ ExecResult
  | [], result => return result
  | (op, pipeline) :: rest, result =>
    if skips op result.exitCode then execRest rest result
    else do
      let r ← execPipeline run pipeline
      execRest rest (joined result r)

/-- `_exec_statement`. -/
def execStatement (stmt : Statement γ) : Job Raised τ ExecResult := do
  let r ← execPipeline run stmt.first
  execRest run stmt.rest (joined {} r)

def execStatements : List (Statement γ) → ExecResult → Job Raised τ ExecResult
  | [], result => return result
  | stmt :: rest, result => do
    let r ← execStatement run stmt
    execStatements rest (joined result r)

/-- `_exec_script`. -/
def execScript (script : Script γ) : Job Raised τ ExecResult := execStatements run script {}

/-- The answer for a script: an `FsError` is one too. -/
def answerScript (script : Script γ) : Job Raised τ ExecResult :=
  tryCatch (execScript run script) fun e =>
    match e with
    | .fs err => return { stderr := "bash: " ++ fsText err ++ "\n", exitCode := 1 }
    | e => throw e

end Run

/-- The shell as a call begins. -/
def started (s : State σ) : State σ := { s with env := Function.update s.env "?" (some (toString s.lastExit)) }

/-- `exec`, with what the parser makes of the text. -/
def exec (V : Volume σ) (builtins : String → Option (Builtin σ)) (parsed : Except String (Script CommandNode)) :
    Sh σ ExecResult := do
  sync fun s => ((), started s)
  match parsed with
  | .error e => return { stderr := "parse error: " ++ e ++ "\n", exitCode := 2 }
  | .ok script =>
    let result ← answerScript (execCommand V builtins) script
    sync fun s => ((), { s with lastExit := result.exitCode })
    return result

/-! ### Builtins that ask nothing of the volume -/

/-- `replace` of a backslash and a character by one character. -/
def unescape (x rep : Char) : List Char → List Char
  | [] => []
  | [c] => [c]
  | a :: b :: rest => if a = '\\' ∧ b = x then rep :: unescape x rep rest else a :: unescape x rep (b :: rest)

/-- `_cmd_echo`. -/
def cmdEcho : Builtin σ := fun args _ =>
  let text := " ".intercalate (args.filter fun a => a ≠ "-n" ∧ a ≠ "-e")
  let shown := if args.contains "-e" then
      String.ofList (unescape '\\' '\\' (unescape 't' '\t' (unescape 'n' '\n' text.toList)))
    else text
  return { stdout := shown ++ if args.contains "-n" then "" else "\n" }

/-- `_cmd_true`. -/
def cmdTrue : Builtin σ := fun _ _ => return {}

/-- `_cmd_false`. -/
def cmdFalse : Builtin σ := fun _ _ => return { exitCode := 1 }

def plainBuiltins : String → Option (Builtin σ)
  | "echo" => some cmdEcho
  | "true" => some cmdTrue
  | "false" => some cmdFalse
  | _ => none

/-! ### The volume of the client -/

/-- What the shell gets of a call of the client's volume; `getDoc_fsOnly` and
`addDoc_fsOnly` say that the last case is none of theirs. -/
def fsPart (r : Except Thrown α × World) : Except FsError α × World :=
  match r with
  | (.ok a, w) => (.ok a, w)
  | (.error (.fs e), w) => (.error e, w)
  | (.error (.api e), w) => (.error (eio e.message), w)

def raised : Thrown → Raised
  | .fs e => .fs e
  | .api e => .other e.message

def readContent (path : String) : Vol (Option Content) := return (← Py.getDoc path).map DocResult.content

def writeText (path content : String) : Vol Unit := do
  let _ ← python.addDoc path (.text content)

def listContents (time : ℤ) (pre : String) : Vol (List (String × Option String)) :=
  return (← Py.listByPrefix time pre { withContent := true }).map fun e => (e.filepath, e.content)

/-- The volume of the Python client; `time` is what `time.time()` gives. -/
def client (time : ℤ) : Volume World where
  getDoc path w := fsPart (eval (readContent path) w)
  addDoc path content w := fsPart (eval (writeText path content) w)
  isDirectory path w := w.index.isDirectory path
  listByPrefix pre w :=
    let r := eval (listContents time pre) w
    (r.1.mapError raised, r.2)

/-- A call that raises no error of a request: it makes an `FsError` of it. -/
def FsOnly (x : Vol α) : Prop := ∀ w, Throws (fun e => ∃ f, e = .fs f) x w

section FsOnly

variable {β : Type}

theorem FsOnly.ret (a : α) : FsOnly (pure a) := fun _ => throws_pure a

theorem FsOnly.throwFs (f : FsError) : FsOnly (throwFs f : Vol α) := fun _ => throws_throw.mpr ⟨f, rfl⟩

theorem FsOnly.sync (f : World → α × World) : FsOnly (sync f) := fun _ => throws_sync f

theorem FsOnly.bind {x : Vol α} {g : α → Vol β} (hx : FsOnly x) (hg : ∀ a, FsOnly (g a)) : FsOnly (x >>= g) :=
  fun w => throws_bind.mpr ⟨hx w, fun a t _ => hg a t⟩

end FsOnly

theorem fetchProfile_fsOnly : FsOnly fetchProfile := by
  unfold fetchProfile
  refine .bind (.sync _) fun cached => ?_
  split
  · exact .ret _
  · refine .bind (.sync _) fun answer => ?_
    cases answer with
    | error e => exact .throwFs _
    | ok profile => exact .bind (.sync _) fun _ => .ret _

theorem getDoc_fsOnly (path : String) : FsOnly (Py.getDoc path) := by
  unfold Py.getDoc
  split_ifs
  · exact .bind fetchProfile_fsOnly fun _ => .ret _
  · have hcached : FsOnly (cachedDoc path) := by
      refine .bind (.sync _) fun cached => ?_
      cases cached with
      | none => exact .ret _
      | some c => exact .bind (.sync _) fun _ => .ret _
    refine .bind hcached fun hit => ?_
    cases hit with
    | some c => exact .ret _
    | none =>
      refine .bind (.sync _) fun answer => ?_
      cases answer with
      | error e => exact .throwFs _
      | ok resp =>
        simp only
        split
        · exact .bind (.sync _) fun _ => .ret _
        · split_ifs
          · exact .bind (.sync _) fun _ => .ret _
          · exact .bind (.sync _) fun _ => .ret _

theorem addDoc_fsOnly (path : String) (content : Content) : FsOnly (python.addDoc path content) := by
  unfold Dialect.addDoc
  cases content with
  | bytes b => exact .throwFs _
  | text data =>
    refine .bind (.sync _) fun refused => ?_
    cases refused with
    | some e => exact .throwFs _
    | none =>
      refine .bind (.sync _) fun known => .bind (.sync _) fun answer => ?_
      cases answer with
      | error e => exact .throwFs _
      | ok m => exact .bind (.sync _) fun _ => .ret _

/-- Of such a call the shell gets all there is. -/
theorem FsOnly.eval_eq {x : Vol α} (h : FsOnly x) (w : World) :
    eval x w = ((fsPart (eval x w)).1.mapError .fs, (fsPart (eval x w)).2) := by
  rcases he : eval x w with ⟨e | a, u⟩
  · obtain ⟨f, rfl⟩ := h w e u he
    rfl
  · rfl

/-- **The shell reads the client's volume as it is.** -/
theorem eval_getDoc (time : ℤ) (path : String) (w : World) :
    eval (readContent path) w = (((client time).getDoc path w).1.mapError .fs, ((client time).getDoc path w).2) :=
  FsOnly.eval_eq (.bind (getDoc_fsOnly path) fun _ => .ret _) w

theorem eval_addDoc (time : ℤ) (path content : String) (w : World) : eval (writeText path content) w =
    (((client time).addDoc path content w).1.mapError .fs, ((client time).addDoc path content w).2) :=
  FsOnly.eval_eq (.bind (addDoc_fsOnly path _) fun _ => .ret _) w

end Smfs.Bash.Shell
