/-
# When a call of the shell answers

`exec` makes an answer of an `FsError`. Each part of a command that may raise
something else has a `try` of its own, but for two: the values of the
assignments are expanded outside, and so are the files decoded that `<` and
`>>` read. So a call gives a result just if every command that it comes to is
`Calm`: its assignments expand, and what its redirections read is text.

Key definitions: `AlongScript`, `InputsDecode`, `OutputsDecode`, `Calm`.
Key theorems: `throws_execScript`, `throws_execCommand`, `answers_iff`.
-/
import Smfs.Bash.Stored

namespace Smfs.Bash.Shell

open Turns Control
open Py (ExecResult)

/-! ### Along a run -/

section Along

variable {τ γ : Type} (run : γ → String → Job Raised τ ExecResult) (Q : γ → String → τ → Prop)

/-- `Q` holds of every command that the pipeline comes to, of what it reads and
of the state in which it finds things. -/
def AlongPipes : List γ → String → τ → Prop
  | [], _, _ => True
  | cmd :: rest, stdin, s => Q cmd stdin s ∧ ∀ r t, eval (run cmd stdin) s = (.ok r, t) → AlongPipes rest r.stdout t

/-- The same of the pipelines that are not skipped. -/
def AlongRest : List (Operator × Pipeline γ) → ℤ → τ → Prop
  | [], _, _ => True
  | (op, pipeline) :: rest, code, s =>
    if skips op code then AlongRest rest code s
    else AlongPipes run Q pipeline.commands "" s ∧
      ∀ r t, eval (execPipeline run pipeline) s = (.ok r, t) → AlongRest rest r.exitCode t

def AlongStatement (stmt : Statement γ) (s : τ) : Prop :=
  AlongPipes run Q stmt.first.commands "" s ∧
    ∀ r t, eval (execPipeline run stmt.first) s = (.ok r, t) → AlongRest run Q stmt.rest r.exitCode t

/-- The same of a script. -/
def AlongScript : List (Statement γ) → τ → Prop
  | [], _ => True
  | stmt :: rest, s => AlongStatement run Q stmt s ∧
    ∀ r t, eval (execStatement run stmt) s = (.ok r, t) → AlongScript rest t

variable {run} {ok : Raised → Prop}

theorem throws_execPipes (cmds : List γ) (stdin : String) (last : ExecResult) (s : τ) :
    Throws ok (execPipes run cmds stdin last) s ↔
      AlongPipes run (fun cmd stdin t => Throws ok (run cmd stdin) t) cmds stdin s := by
  induction cmds generalizing stdin last s with
  | nil => exact iff_of_true (throws_pure _) trivial
  | cons cmd rest ih =>
    rw [execPipes, throws_bind, AlongPipes]
    refine and_congr_right fun _ => forall₃_congr fun r t _ => ?_
    exact ih _ _ t

theorem throws_execPipeline (pipeline : Pipeline γ) (s : τ) : Throws ok (execPipeline run pipeline) s ↔
    AlongPipes run (fun cmd stdin t => Throws ok (run cmd stdin) t) pipeline.commands "" s := by
  unfold execPipeline
  split
  · rename_i cmd hcmd
    rw [hcmd]
    simp [AlongPipes]
  · exact throws_execPipes _ _ _ s

theorem throws_execRest (rest : List (Operator × Pipeline γ)) (result : ExecResult) (s : τ) :
    Throws ok (execRest run rest result) s ↔
      AlongRest run (fun cmd stdin t => Throws ok (run cmd stdin) t) rest result.exitCode s := by
  induction rest generalizing result s with
  | nil => exact iff_of_true (throws_pure _) trivial
  | cons entry rest ih =>
    obtain ⟨op, pipeline⟩ := entry
    rw [execRest, AlongRest]
    split_ifs
    · exact ih result s
    · rw [throws_bind, throws_execPipeline]
      exact and_congr_right fun _ => forall₃_congr fun r t _ => ih _ t

theorem throws_execStatement (stmt : Statement γ) (s : τ) : Throws ok (execStatement run stmt) s ↔
    AlongStatement run (fun cmd stdin t => Throws ok (run cmd stdin) t) stmt s := by
  rw [execStatement, throws_bind, throws_execPipeline]
  exact and_congr_right fun _ => forall₃_congr fun r t _ => throws_execRest _ _ t

theorem throws_execStatements (script : List (Statement γ)) (result : ExecResult) (s : τ) :
    Throws ok (execStatements run script result) s ↔
      AlongScript run (fun cmd stdin t => Throws ok (run cmd stdin) t) script s := by
  induction script generalizing result s with
  | nil => exact iff_of_true (throws_pure _) trivial
  | cons stmt rest ih =>
    rw [execStatements, throws_bind, throws_execStatement, AlongScript]
    exact and_congr_right fun _ => forall₃_congr fun r t _ => ih _ t

/-- **A script throws what the commands throw that it comes to.** -/
theorem throws_execScript (script : Script γ) (s : τ) : Throws ok (execScript run script) s ↔
    AlongScript run (fun cmd stdin t => Throws ok (run cmd stdin) t) script s :=
  throws_execStatements script {} s

section Every

variable {Q}

theorem alongPipes_of_forall {cmds : List γ} {stdin : String} {s : τ} (h : ∀ cmd ∈ cmds, ∀ stdin t, Q cmd stdin t) :
    AlongPipes run Q cmds stdin s := by
  induction cmds generalizing stdin s with
  | nil => trivial
  | cons cmd rest ih =>
    exact ⟨h cmd List.mem_cons_self _ _, fun r t _ => ih fun c hc => h c (List.mem_cons_of_mem cmd hc)⟩

theorem alongRest_of_forall {rest : List (Operator × Pipeline γ)} {code : ℤ} {s : τ}
    (h : ∀ pipeline ∈ rest.map Prod.snd, ∀ cmd ∈ pipeline.commands, ∀ stdin t, Q cmd stdin t) :
    AlongRest run Q rest code s := by
  induction rest generalizing code s with
  | nil => trivial
  | cons entry rest ih =>
    obtain ⟨op, pipeline⟩ := entry
    rw [List.map_cons, List.forall_mem_cons] at h
    rw [AlongRest]
    split_ifs
    · exact ih h.2
    · exact ⟨alongPipes_of_forall h.1, fun r t _ => ih h.2⟩

/-- What holds of every command in every state holds along a run. -/
theorem alongScript_of_forall {script : List (Statement γ)} {s : τ}
    (h : ∀ stmt ∈ script, ∀ pipeline ∈ stmt.pipelines, ∀ cmd ∈ pipeline.commands, ∀ stdin t, Q cmd stdin t) :
    AlongScript run Q script s := by
  induction script generalizing s with
  | nil => trivial
  | cons stmt rest ih =>
    rw [List.forall_mem_cons] at h
    have hstmt := h.1
    rw [Statement.pipelines, List.forall_mem_cons] at hstmt
    exact ⟨⟨alongPipes_of_forall hstmt.1, fun r t _ => alongRest_of_forall hstmt.2⟩, fun r t _ => ih h.2⟩

end Every

end Along

/-! ### A command -/

section Command

variable {σ : Type} (V : Volume σ) (builtins : String → Option (Builtin σ))

/-- The documents that `<` names are texts, each as the state is when it is read. -/
def InputsDecode : List Redirect → State σ → Prop
  | [], _ => True
  | redir :: rest, s =>
    if redir.content ≠ "" then InputsDecode rest s
    else if redir.op = .read then
      match truthy redir.path with
      | none => InputsDecode rest s
      | some path =>
        ∀ found v, V.getDoc (Py.resolve s.cwd path) s.volume = (.ok found, v) →
          match found with
          | none => True
          | some content => ∃ c, decoded content = .ok c ∧ InputsDecode rest { s with volume := v }
    else InputsDecode rest s

/-- A document that `>>` goes on from is a text. -/
def OutputDecodes (redir : Redirect) (s : State σ) : Prop :=
  redir.content = "" → redir.op = .append → ∀ path, truthy redir.path = some path →
    Py.resolve s.cwd path ≠ "/dev/null" → ∀ content v, V.getDoc (Py.resolve s.cwd path) s.volume =
      (.ok (some content), v) → ∃ c, decoded content = .ok c

/-- The same of all redirections, each as the state is when it is applied. -/
def OutputsDecode : List Redirect → ExecResult → State σ → Prop
  | [], _, _ => True
  | redir :: rest, result, s => OutputDecodes V redir s ∧
    ∀ result' t, eval (applyRedirect V redir result) s = (.ok result', t) → OutputsDecode rest result' t

/-- What a command reads for its redirections is text, before its builtin and
after it. -/
def CalmNamed (name : String) (args : List String) (redirects : List Redirect) (stdin : String) (s : State σ) : Prop :=
  InputsDecode V redirects s ∧
    ∀ stdin' t, eval (readInputs V name redirects stdin) s = (.ok (.ok stdin'), t) →
      ∀ handler, builtins name = some handler →
        ∀ result u, eval (handler args stdin') t = (.ok result, u) → OutputsDecode V redirects result u

/-- The assignments of a command expand, and what its redirections read is text. -/
def Calm : CommandNode → String → State σ → Prop
  | .compound _, _, _ => True
  | .simple node, stdin, s =>
    ∃ assigns env, extractAssignments node.assignments s.env = (.ok assigns, env) ∧
      ∀ word, node.name = some word → ∀ name args redirects env',
        expandCommand word node (assign assigns env) = (.ok (name, args, redirects), env') →
          CalmNamed V builtins name args redirects stdin { s with env := env' }

/-- What `exec` makes an answer of. -/
def IsFs (e : Raised) : Prop := ∃ f, e = .fs f

variable {V builtins} {α : Type} {s : State σ}

/-- A call of the volume throws no more than that. -/
theorem throws_onVolume {β : Type} (call : σ → Except FsError α × σ) (g : α → Sh σ β) :
    Throws IsFs (onVolume call >>= g) s ↔
      ∀ a v, call s.volume = (.ok a, v) → Throws IsFs (g a) { s with volume := v } := by
  rw [throws_bind, eval_onVolume, Throws, eval_onVolume]
  rcases call s.volume with ⟨f | a, v⟩
  · simp [IsFs]
  · simp

/-- A content is decoded if it is a text, and else what is thrown is no `FsError`. -/
theorem throws_decode (content : Content) (g : String → Sh σ α) :
    Throws IsFs (decode content >>= g) s ↔ ∃ c, decoded content = .ok c ∧ Throws IsFs (g c) s := by
  unfold decode
  cases hc : decoded content with
  | ok c => simp [throws_ok_bind (eval_pure c s)]
  | error e =>
    have hother : ¬ IsFs e := by
      unfold decoded at hc
      split at hc
      · cases hc
      · split_ifs at hc
        rw [← Except.error.inj hc]
        simp [IsFs]
    simp [throws_bind, throws_throw, hother]

theorem throws_readInputs (name : String) (redirects : List Redirect) (stdin : String) :
    Throws IsFs (readInputs V name redirects stdin) s ↔ InputsDecode V redirects s := by
  induction redirects generalizing stdin s with
  | nil => exact iff_of_true (throws_pure _) trivial
  | cons redir rest ih =>
    rw [readInputs, InputsDecode]
    split_ifs with hcontent hop
    · exact ih _
    · cases truthy redir.path with
      | none => exact ih _
      | some path =>
        rw [throws_ok_bind (eval_resolve s path), throws_onVolume]
        refine forall₃_congr fun found v _ => ?_
        cases found with
        | none => exact iff_of_true (throws_pure _) trivial
        | some content =>
          rw [throws_decode]
          exact exists_congr fun c => and_congr_right fun _ => ih c
    · exact ih _

theorem throws_previous (path : String) (g : String → Sh σ α) : Throws IsFs (previous V path >>= g) s ↔
    ∀ found v, V.getDoc path s.volume = (.ok found, v) →
      match found with
      | none => Throws IsFs (g "") { s with volume := v }
      | some content => ∃ c, decoded content = .ok c ∧ Throws IsFs (g c) { s with volume := v } := by
  rw [previous, throws_assoc, throws_onVolume]
  refine forall₃_congr fun found v _ => ?_
  cases found with
  | none => exact throws_ok_bind (eval_pure _ _)
  | some content => exact throws_decode content g

/-- A write throws no more than that, if there is one. -/
theorem throws_writing (c : Prop) [Decidable c] (call : σ → Except FsError Unit × σ) (a : α) :
    Throws IsFs (if c then onVolume call >>= fun _ => pure a else pure a) s := by
  split_ifs
  · exact (throws_onVolume call _).mpr fun _ _ _ => throws_pure a
  · exact throws_pure a

theorem throws_applyRedirect (redir : Redirect) (result : ExecResult) :
    Throws IsFs (applyRedirect V redir result) s ↔ OutputDecodes V redir s := by
  unfold applyRedirect OutputDecodes
  by_cases hskip : redir.content ≠ "" ∨ redir.op = .read
  · rw [if_pos hskip]
    refine iff_of_true (throws_pure _) fun hcontent hop => ?_
    rcases hskip with hskip | hskip
    · exact absurd hcontent hskip
    · rw [hop] at hskip
      cases hskip
  · rw [if_neg hskip, throws_ok_bind (eval_looking s _)]
    rw [not_or, not_not] at hskip
    cases hpath : truthy redir.path with
    | none =>
      refine iff_of_true ?_ (by simp)
      cases hop : redir.op <;> exact throws_pure _
    | some path =>
      rw [Option.map_some]
      by_cases hnull : Py.resolve s.cwd path = "/dev/null"
      · rw [if_pos (congrArg some hnull)]
        refine iff_of_true (throws_pure _) fun _ _ path' hpath' hne => ?_
        rw [Option.some.inj hpath'] at hnull
        exact absurd hnull hne
      · rw [if_neg fun he => hnull (Option.some.inj he)]
        cases hop : redir.op with
        | read => exact absurd hop hskip.2
        | write => exact iff_of_true (throws_writing _ _ _) (by simp)
        | append =>
          rw [throws_previous]
          constructor
          · rintro h - - path' hpath' - content v hget
            obtain rfl : path = path' := Option.some.inj hpath'
            obtain ⟨c, hc, -⟩ := h (some content) v hget
            exact ⟨c, hc⟩
          · intro h found v hget
            cases found with
            | none => exact throws_writing _ _ _
            | some content =>
              obtain ⟨c, hc⟩ := h hskip.1 rfl path rfl hnull content v hget
              exact ⟨c, hc, throws_writing _ _ _⟩

theorem throws_applyRedirects (redirects : List Redirect) (result : ExecResult) :
    Throws IsFs (applyRedirects V redirects result) s ↔ OutputsDecode V redirects result s := by
  induction redirects generalizing result s with
  | nil => exact iff_of_true (throws_pure _) trivial
  | cons redir rest ih =>
    rw [applyRedirects, throws_bind, throws_applyRedirect, OutputsDecode]
    exact and_congr_right fun _ => forall₃_congr fun r t _ => ih r

/-- Whatever the builtin raises is caught. -/
theorem throws_callBuiltin (name : String) (args : List String) (redirects : List Redirect) (stdin : String) :
    Throws IsFs (callBuiltin V builtins name args redirects stdin) s ↔ ∀ handler, builtins name = some handler →
      ∀ result t, eval (handler args stdin) s = (.ok result, t) → OutputsDecode V redirects result t := by
  unfold callBuiltin
  cases hb : builtins name with
  | none => exact iff_of_true (throws_pure _) (by simp)
  | some handler =>
    simp only [Option.some.injEq, forall_eq']
    rcases he : eval (handler args stdin) s with ⟨e | result, t⟩
    · have htried : eval (tryCatch (do return Except.ok (← handler args stdin))
          fun e => return .error e : Sh σ (Except Raised ExecResult)) s = (.ok (.error e), t) := by simp [he]
      rw [throws_ok_bind htried]
      exact iff_of_true (throws_pure _) (by simp)
    · have htried : eval (tryCatch (do return Except.ok (← handler args stdin))
          fun e => return .error e : Sh σ (Except Raised ExecResult)) s = (.ok (.ok result), t) := by simp [he]
      rw [throws_ok_bind htried]
      simp only [throws_applyRedirects]
      simp

theorem throws_execNamed (word : WordNode) (node : SimpleCommandNode) (stdin : String) :
    Throws IsFs (execNamed V builtins word node stdin) s ↔ ∀ name args redirects env,
      expandCommand word node s.env = (.ok (name, args, redirects), env) →
        CalmNamed V builtins name args redirects stdin { s with env := env } := by
  rw [execNamed, throws_ok_bind (eval_expanding s _)]
  rcases expandCommand word node s.env with ⟨message | ⟨name, args, redirects⟩, env⟩
  · refine iff_of_true (throws_pure _) fun name args redirects env' h => ?_
    cases (Prod.mk.inj h).1
  · have hnamed : CalmNamed V builtins name args redirects stdin { s with env := env } ↔
        ∀ name' args' redirects' env', ((Except.ok (name, args, redirects), env) : Except String _ × Env) =
          (.ok (name', args', redirects'), env') →
            CalmNamed V builtins name' args' redirects' stdin { s with env := env' } := by
      refine ⟨fun h name' args' redirects' env' he => ?_, fun h => h _ _ _ _ rfl⟩
      obtain ⟨hcommand, rfl⟩ := Prod.mk.inj he
      cases hcommand
      exact h
    refine Iff.trans ?_ hnamed
    change Throws IsFs (readInputs V name redirects stdin >>= _) _ ↔ _
    rw [throws_bind, throws_readInputs, CalmNamed]
    refine and_congr_right fun _ => ⟨fun h stdin' t he => ?_, fun h r t he => ?_⟩
    · exact (throws_callBuiltin name args redirects stdin').mp (h (.ok stdin') t he)
    · cases r with
      | error result => exact throws_pure _
      | ok stdin' => exact (throws_callBuiltin name args redirects stdin').mpr (h stdin' t he)

/-- **A command throws an `FsError` or nothing just if it is `Calm`.** -/
theorem throws_execCommand (cmd : CommandNode) (stdin : String) :
    Throws IsFs (execCommand V builtins cmd stdin) s ↔ Calm V builtins cmd stdin s := by
  cases cmd with
  | compound type => exact iff_of_true (throws_pure _) trivial
  | simple node =>
    rw [execCommand, Calm]
    have hexpanded := eval_expanded s (extractAssignments node.assignments)
    rcases hx : extractAssignments node.assignments s.env with ⟨message | assigns, env⟩
    · rw [hx] at hexpanded
      refine iff_of_false (fun h => ?_) ?_
      · obtain ⟨f, hf⟩ := (throws_bind.mp h).1 _ _ hexpanded
        cases hf
      · rintro ⟨assigns, env', he, -⟩
        cases (Prod.mk.inj he).1
    · rw [hx] at hexpanded
      rw [throws_ok_bind hexpanded, throws_ok_bind (eval_sync _ _)]
      constructor
      · intro h
        refine ⟨assigns, env, rfl, fun word hword => ?_⟩
        rw [hword] at h
        exact (throws_execNamed word node stdin).mp h
      · rintro ⟨assigns', env', he, h⟩
        obtain ⟨hassigns, rfl⟩ := Prod.mk.inj he
        cases hassigns
        cases hname : node.name with
        | none => exact throws_pure _
        | some word => exact (throws_execNamed word node stdin).mpr (h word hname)

end Command

/-! ### A call -/

section Call

variable {σ : Type} {V : Volume σ} {builtins : String → Option (Builtin σ)}

/-- **The calls that give a result.** They are the ones that come to `Calm`
commands only, and then the next call finds the answer under `$?`. -/
theorem answers_iff (script : Script CommandNode) (s : State σ) :
    (∃ result t, eval (exec V builtins (.ok script)) s = (.ok result, t) ∧
      (started t).env "?" = some (toString result.exitCode)) ↔
    AlongScript (execCommand V builtins) (Calm V builtins) script (started s) := by
  have hcalm : (fun cmd stdin t => Throws IsFs (execCommand V builtins cmd stdin) t) = Calm V builtins := by
    funext cmd stdin t
    exact propext (throws_execCommand cmd stdin)
  rw [← hcalm, ← throws_execScript, Throws]
  unfold exec answerScript
  simp only [eval_bind, eval_sync, andThen_ok, eval_tryCatch]
  rcases eval (execScript (execCommand V builtins) script) (started s) with ⟨(f | message | message) | result, t⟩
  · exact iff_of_true ⟨_, _, rfl, by simp [started]⟩ (by simp [IsFs])
  · exact iff_of_false (by simp) (by simp [IsFs])
  · exact iff_of_false (by simp) (by simp [IsFs])
  · exact iff_of_true ⟨_, _, rfl, by simp [started]⟩ (by simp)

/-- `A=$(x)`. -/
def substituted : SimpleCommandNode := ⟨[⟨"A", some (.mk [.commandSubstitution])⟩], none, [], []⟩

/-- **The counterexample.** An assignment with a substitution makes `exec` raise. -/
theorem substitution_raises : ¬ ∃ result t,
    eval (exec (client 0) plainBuiltins (.ok [⟨⟨[.simple substituted], by simp, false⟩, []⟩])) emptyShell =
      (.ok result, t) ∧ (started t).env "?" = some (toString result.exitCode) := by
  rintro ⟨result, t, he, -⟩
  have hraised : (eval (exec (client 0) plainBuiltins (.ok [⟨⟨[.simple substituted], by simp, false⟩, []⟩]))
      emptyShell).1 = .error (.unsupported "command substitution ($(...) or `...`) is not supported") := rfl
  rw [he] at hraised
  cases hraised

end Call

end Smfs.Bash.Shell
