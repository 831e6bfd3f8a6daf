/-
# What a session of the shell leaves alone

Each builtin writes what its operands name and no more: `rm`, `touch` and `tee`
all of them, `mv` two, `cp` the second, `sed -i` its files, and the others
none; a redirection writes its target. So in a session none of whose commands
names a path, or a directory above it, the documents at the path are as they
were, whatever the commands do besides and whatever becomes of their requests
(`session_spares`).

Key definitions: `written`, `Names`, `Away`, `AlongCalls`, `session`.
Key theorems: `effect_execScript`, `builtin_spares`, `command_spares`, `session_spares`.
-/
import Smfs.Bash.Answers
import Smfs.Bash.Spares

namespace Smfs.Bash.Shell

open Turns Control Shape
open Py (ExecResult)

/-! ### A relation along a run -/

section Run

variable {τ γ : Type} {run : γ → String → Job Raised τ ExecResult} {R : τ → τ → Prop} [IsPreorder τ R]

theorem effect_execPipes {cmds : List γ} {stdin : String} {s : τ} (last : ExecResult)
    (h : AlongPipes run (fun cmd stdin t => Effect R (run cmd stdin) t) cmds stdin s) :
    Effect R (execPipes run cmds stdin last) s := by
  induction cmds generalizing stdin last s with
  | nil => exact effect_pure _
  | cons cmd rest ih => exact h.1.bind fun r t he => ih _ (h.2 r t he)

theorem effect_execPipeline {pipeline : Pipeline γ} {s : τ}
    (h : AlongPipes run (fun cmd stdin t => Effect R (run cmd stdin) t) pipeline.commands "" s) :
    Effect R (execPipeline run pipeline) s := by
  unfold execPipeline
  split
  · rename_i cmd hcmd
    rw [hcmd] at h
    exact h.1
  · exact effect_execPipes _ h

theorem effect_execRest {rest : List (Operator × Pipeline γ)} {result : ExecResult} {s : τ}
    (h : AlongRest run (fun cmd stdin t => Effect R (run cmd stdin) t) rest result.exitCode s) :
    Effect R (execRest run rest result) s := by
  induction rest generalizing result s with
  | nil => exact effect_pure _
  | cons entry rest ih =>
    obtain ⟨op, pipeline⟩ := entry
    rw [AlongRest] at h
    rw [execRest]
    split_ifs at h ⊢
    · exact ih h
    · exact (effect_execPipeline h.1).bind fun r t he => ih (h.2 r t he)

theorem effect_execStatement {stmt : Statement γ} {s : τ}
    (h : AlongStatement run (fun cmd stdin t => Effect R (run cmd stdin) t) stmt s) :
    Effect R (execStatement run stmt) s :=
  (effect_execPipeline h.1).bind fun r t he => effect_execRest (h.2 r t he)

theorem effect_execStatements {script : List (Statement γ)} (result : ExecResult) {s : τ}
    (h : AlongScript run (fun cmd stdin t => Effect R (run cmd stdin) t) script s) :
    Effect R (execStatements run script result) s := by
  induction script generalizing result s with
  | nil => exact effect_pure _
  | cons stmt rest ih => exact (effect_execStatement h.1).bind fun r t he => ih _ (h.2 r t he)

/-- **What the commands keep that a script comes to, the script keeps.** -/
theorem effect_execScript {script : Script γ} {s : τ}
    (h : AlongScript run (fun cmd stdin t => Effect R (run cmd stdin) t) script s) :
    Effect R (execScript run script) s :=
  effect_execStatements {} h

/-- A property of commands along a run gives another one. -/
theorem AlongPipes.mono {Q Q' : γ → String → τ → Prop} (hQ : ∀ cmd stdin s, Q cmd stdin s → Q' cmd stdin s)
    {cmds : List γ} {stdin : String} {s : τ} (h : AlongPipes run Q cmds stdin s) : AlongPipes run Q' cmds stdin s := by
  induction cmds generalizing stdin s with
  | nil => trivial
  | cons cmd rest ih => exact ⟨hQ _ _ _ h.1, fun r t he => ih (h.2 r t he)⟩

theorem AlongRest.mono {Q Q' : γ → String → τ → Prop} (hQ : ∀ cmd stdin s, Q cmd stdin s → Q' cmd stdin s)
    {rest : List (Operator × Pipeline γ)} {code : ℤ} {s : τ} (h : AlongRest run Q rest code s) :
    AlongRest run Q' rest code s := by
  induction rest generalizing code s with
  | nil => trivial
  | cons entry rest ih =>
    obtain ⟨op, pipeline⟩ := entry
    rw [AlongRest] at h ⊢
    split_ifs at h ⊢
    · exact ih h
    · exact ⟨h.1.mono hQ, fun r t he => ih (h.2 r t he)⟩

theorem AlongScript.mono {Q Q' : γ → String → τ → Prop} (hQ : ∀ cmd stdin s, Q cmd stdin s → Q' cmd stdin s)
    {script : List (Statement γ)} {s : τ} (h : AlongScript run Q script s) : AlongScript run Q' script s := by
  induction script generalizing s with
  | nil => trivial
  | cons stmt rest ih =>
    exact ⟨⟨h.1.1.mono hQ, fun r t he => (h.1.2 r t he).mono hQ⟩, fun r t he => ih (h.2 r t he)⟩

end Run

/-! ### The volume and the working directory -/

/-- The relation holds of the volumes, and the working directory is the same. -/
structure Stays (R : World → World → Prop) (s t : State World) : Prop where
  volume : R s.volume t.volume
  cwd : t.cwd = s.cwd

variable {R : World → World → Prop} [IsPreorder World R]

instance : IsPreorder (State World) (Stays R) where
  refl s := ⟨refl_of R s.volume, rfl⟩
  trans _ _ _ h h' := ⟨trans_of R h.volume h'.volume, h'.cwd.trans h.cwd⟩

section Steps

variable {α : Type} {s t : State World} {x : Vol α}

omit [IsPreorder World R] in
theorem effect_calling (h : Effect R x s.volume) : Effect (Stays R) (calling x) s := by
  unfold Effect
  rw [eval_calling]
  exact ⟨h, rfl⟩

theorem effect_looking {β : Type} {f : State World → β} {g : β → Sh World α} (h : Effect (Stays R) (g (f s)) s) :
    Effect (Stays R) (looking f >>= g) s :=
  effect_sync_bind (refl_of (Stays R) s) h

theorem effect_decode (content : Content) : Effect (Stays R) (decode content) s := by
  unfold decode
  cases decoded content with
  | ok text => exact effect_pure _
  | error e => exact effect_throw _

theorem effect_given (r : Except String α) : Effect (Stays R) (given r) s := by
  cases r with
  | ok a => exact effect_pure _
  | error message => exact effect_throw _

omit [IsPreorder World R] in
theorem effect_onVolume {call : World → Except FsError α × World} (h : R s.volume (call s.volume).2) :
    Effect (Stays R) (onVolume call) s := by
  unfold Effect
  rw [eval_onVolume]
  cases hc : call s.volume with
  | mk r w =>
    rw [hc] at h
    cases r with
    | ok a => exact ⟨h, rfl⟩
    | error e => exact ⟨h, rfl⟩

theorem effect_getDoc (time : ℤ) (path : String) : Effect (Stays Learns) (onVolume ((client time).getDoc path)) s := by
  apply effect_onVolume
  have hstate : (eval (readContent path) s.volume).2 = ((client time).getDoc path s.volume).2 :=
    congrArg Prod.snd (eval_getDoc time path s.volume)
  rw [← hstate]
  exact (Py.getDoc_learns path s.volume).seq fun _ _ => effect_pure _

theorem effect_addDoc {p : String} (time : ℤ) {path : String} (content : String) (hne : path ≠ p) :
    Effect (Stays (Spares p)) (onVolume ((client time).addDoc path content)) s := by
  apply effect_onVolume
  have hstate : (eval (writeText path content) s.volume).2 = ((client time).addDoc path content s.volume).2 :=
    congrArg Prod.snd (eval_addDoc time path content s.volume)
  rw [← hstate]
  exact (addDoc_spares python hne _ s.volume).seq fun _ _ => effect_pure _

/-- What only learns spares every path. -/
theorem stays_spares {p : String} {x : Sh World α} (h : Effect (Stays Learns) x s) : Effect (Stays (Spares p)) x s :=
  h.mono fun _ _ h => ⟨h.volume.spares, h.cwd⟩

end Steps

/-! ### Loops over the operands -/

section Loops

variable {α : Type} {s : State World} {args : List String}

theorem effect_forEach {body : String → Sh World (Option ExecResult)}
    (h : ∀ a ∈ args, ∀ t : State World, t.cwd = s.cwd → Effect (Stays R) (body a) t) :
    Effect (Stays R) (forEach body args) s := by
  induction args generalizing s with
  | nil => exact effect_pure _
  | cons a rest ih =>
    have hbody := h a List.mem_cons_self s rfl
    apply hbody.bind
    intro result t he
    cases result with
    | some result => exact effect_pure _
    | none =>
      have hcwd := (hbody.of_eval he).cwd
      exact ih fun b hb u hu => h b (List.mem_cons_of_mem a hb) u (hu.trans hcwd)

theorem effect_collect {part : String → Sh World (Except ExecResult α)}
    (h : ∀ a ∈ args, ∀ t : State World, t.cwd = s.cwd → Effect (Stays R) (part a) t) :
    Effect (Stays R) (collect part args) s := by
  induction args generalizing s with
  | nil => exact effect_pure _
  | cons a rest ih =>
    have hpart := h a List.mem_cons_self s rfl
    apply hpart.bind
    intro r t he
    cases r with
    | error result => exact effect_pure _
    | ok x =>
      have hcwd := (hpart.of_eval he).cwd
      apply (ih fun b hb u hu => h b (List.mem_cons_of_mem a hb) u (hu.trans hcwd)).seq
      intro parts u
      cases parts with
      | error result => exact effect_pure _
      | ok parts => exact effect_pure _

theorem effect_readParts (time : ℤ) (cmd : String) (part : String → String → String) :
    Effect (Stays Learns) (readParts (client time) cmd part args) s := by
  induction args generalizing s with
  | nil => exact effect_pure _
  | cons a rest ih =>
    apply effect_looking
    apply (effect_getDoc time _).seq
    intro content t
    cases content with
    | none => exact effect_pure _
    | some content =>
      apply (effect_decode content).seq
      intro text u
      apply ih.seq
      intro parts v
      cases parts with
      | error result => exact effect_pure _
      | ok parts => exact effect_pure _

theorem effect_readFile (L : Library) (path : String) : Effect (Stays Learns) (readFile L path) s := by
  apply (effect_getDoc L.time path).seq
  intro content t
  cases content with
  | none => exact effect_pure _
  | some content => exact (effect_decode content).seq fun _ _ => effect_pure _

theorem effect_previous (time : ℤ) (path : String) : Effect (Stays Learns) (previous (client time) path) s := by
  apply (effect_getDoc time path).seq
  intro content t
  cases content with
  | none => exact effect_pure _
  | some content => exact effect_decode content

theorem effect_grepTargets (time : ℤ) (opts : GrepOptions) (found : String → Bool) (multi : Bool)
    (sofar : List String × ℕ) : Effect (Stays Learns) (grepTargets (client time) opts found multi args sofar) s := by
  induction args generalizing s sofar with
  | nil => exact effect_pure _
  | cons a rest ih =>
    unfold grepTargets
    apply effect_looking
    apply effect_looking
    refine effect_ite (fun _ => ?_) fun _ => ?_
    · have hlisting : Effect (Stays Learns) (listing (client time) (withSlash (Py.resolve s.cwd a))) s := by
        have hlist : Effect Learns (listContents time (withSlash (Py.resolve s.cwd a))) s.volume :=
          (Py.listByPrefix_learns time _ _ _).seq fun _ _ => effect_pure _
        refine effect_sync_bind ⟨hlist, rfl⟩ ?_
        dsimp only
        split
        · exact effect_pure _
        · exact effect_throw _
      exact hlisting.seq fun entries t => ih _
    · apply (effect_getDoc time _).seq
      intro content t
      cases content with
      | none => exact effect_pure _
      | some content => exact (effect_decode content).seq fun text u => ih _

end Loops

/-! ### Builtins that only read -/

/-- The builtin only learns, and leaves the working directory. -/
def OnlyReads (b : Builtin World) : Prop := ∀ args stdin s, Effect (Stays Learns) (b args stdin) s

section Reading

variable (L : Library) {s : State World}

theorem cat_reads : OnlyReads (cmdCat L) := by
  intro args stdin s
  unfold cmdCat
  dsimp only
  cases operands args with
  | nil => exact effect_ite (fun _ => effect_pure _) fun _ => effect_pure _
  | cons p rest =>
    apply (effect_readParts L.time "cat" _).seq
    intro parts t
    cases parts with
    | error result => exact effect_pure _
    | ok parts => exact effect_pure _

theorem take_reads (cmd : String) (take : ℤ → List String → List String) :
    OnlyReads (cmdTake (client L.time) cmd take) := by
  intro args stdin s
  unfold cmdTake
  cases countArgs args 10 [] with
  | error message => exact effect_throw _
  | ok parsed =>
    obtain ⟨n, paths⟩ := parsed
    cases paths with
    | nil => exact effect_pure _
    | cons p rest => exact (effect_readParts L.time cmd _).seq fun _ _ => effect_pure _

theorem grep_reads : OnlyReads (cmdGrep (client L.time) L.search) := by
  intro args stdin s
  unfold cmdGrep
  dsimp only
  split
  · exact effect_pure _
  · exact effect_pure _
  · apply (effect_grepTargets L.time _ _ _ _).seq
    intro found t
    cases found with
    | error result => exact effect_pure _
    | ok found => exact effect_pure _

theorem wc_reads : OnlyReads (cmdWc (client L.time)) := by
  intro args stdin s
  unfold cmdWc
  dsimp only
  split
  · exact effect_pure _
  · exact (effect_readParts L.time "wc" _).seq fun _ _ => effect_pure _

theorem sort_reads : OnlyReads (cmdSort L) := by
  intro args stdin s
  unfold cmdSort
  dsimp only
  split
  · exact effect_pure _
  · apply (effect_readParts L.time "sort" _).seq
    intro parts t
    cases parts with
    | error result => exact effect_pure _
    | ok parts => exact effect_pure _

theorem sgrep_reads : OnlyReads (cmdSgrep L.ask) := by
  intro args stdin s
  unfold cmdSgrep
  dsimp only
  split_ifs
  · exact effect_pure _
  · split
    · exact effect_pure _
    · exact effect_pure _
    · exact (effect_calling (Py.search_learns L.ask _ _)).seq fun _ _ => effect_pure _

theorem ls_reads : OnlyReads (cmdLs L) := by
  intro args stdin s
  apply (effect_collect fun p _ t _ => ?_).seq fun _ _ => effect_pure _
  unfold lsPath
  apply effect_looking
  apply (effect_calling (Py.listByPrefix_learns L.time _ _ _)).seq
  intro summaries u
  apply effect_looking
  refine effect_ite (fun _ => ?_) fun _ => effect_looking (effect_pure _)
  apply (effect_calling (Py.statDoc_learns L.time _ _)).seq
  intro stat v
  cases stat with
  | none => exact effect_pure _
  | some stat => exact effect_ite (fun _ => effect_pure _) fun _ => effect_pure _

theorem find_reads : OnlyReads (cmdFind L) := by
  intro args stdin s
  apply effect_looking
  exact (effect_calling (Py.listByPrefix_learns L.time _ _ _)).seq fun _ _ => effect_pure _

theorem stat_reads : OnlyReads (cmdStat L) := by
  intro args stdin s
  apply (effect_collect fun p _ t _ => ?_).seq fun _ _ => effect_pure _
  apply effect_looking
  apply (effect_calling (Py.statDoc_learns L.time _ _)).seq
  intro stat v
  cases stat with
  | none => exact effect_pure _
  | some stat => exact effect_pure _

theorem compared_reads (rel : ℤ → ℤ → Bool) (lhs rhs : String) :
    Effect (Stays Learns) (compared rel lhs rhs : Sh World ExecResult) s :=
  (effect_given _).seq fun _ _ => (effect_given _).seq fun _ _ => effect_pure _

theorem testThree_reads (lhs op rhs : String) :
    Effect (Stays Learns) (testThree lhs op rhs : Sh World ExecResult) s := by
  unfold testThree
  split_ifs
  · exact effect_pure _
  · exact effect_pure _
  · exact compared_reads _ _ _
  · exact compared_reads _ _ _
  · exact compared_reads _ _ _
  · exact compared_reads _ _ _
  · exact compared_reads _ _ _
  · exact compared_reads _ _ _
  · exact effect_pure _

theorem test_reads : OnlyReads (cmdTest L) := by
  intro args stdin
  induction hn : args.length using Nat.strong_induction_on generalizing args with
  | _ n ih =>
    intro s
    unfold cmdTest
    split
    · exact effect_pure _
    · exact effect_pure _
    · rename_i op a rest hargs
      have hlen := length_unbracketed args
      rw [hargs, List.length_cons, List.length_cons] at hlen
      split_ifs
      · apply effect_looking
        exact (effect_calling (Py.statDoc_learns L.time _ _)).seq fun _ _ => effect_pure _
      · apply effect_looking
        exact effect_looking (effect_pure _)
      · apply effect_looking
        exact (effect_calling (Py.statDoc_learns L.time _ _)).seq fun _ _ => effect_pure _
      · exact effect_pure _
      · exact effect_pure _
      · have hinner : Effect (Stays Learns) (cmdTest L (a :: rest) stdin) s := by
          apply ih (a :: rest).length _ (a :: rest) rfl
          rw [List.length_cons]
          omega
        exact hinner.seq fun _ _ => effect_pure _
      · split
        · exact testThree_reads _ _ _
        · exact effect_pure _

theorem mkdir_reads : OnlyReads cmdMkdir := by
  intro args stdin s
  apply effect_forEach
  intro p _ t _
  apply effect_looking
  apply effect_looking
  refine effect_ite (fun _ => effect_pure _) fun _ => ?_
  apply effect_looking
  refine effect_ite (fun _ => effect_pure _) fun _ => ?_
  have hmarks : ∀ dirs : List String,
      Effect Learns (changeIndex fun ix => dirs.foldl PathIndex.markSyntheticDir ix) t.volume :=
    learns_marks fun _ _ _ => PathIndex.resolve_mark
  exact (effect_calling (hmarks _)).seq fun _ _ => effect_pure _

theorem rmdir_reads : OnlyReads (cmdRmdir L) := by
  intro args stdin s
  apply effect_forEach
  intro p _ t _
  apply effect_looking
  apply effect_looking
  refine effect_ite (fun _ => effect_pure _) fun _ => ?_
  apply effect_looking
  refine effect_ite (fun _ => effect_pure _) fun _ => ?_
  apply (effect_calling (Py.isDirEmpty_learns L.time _ _)).seq
  intro empty u
  refine effect_ite (fun _ => effect_pure _) fun _ => ?_
  have hunmark : Effect Learns (changeIndex (·.removeSyntheticDir (Py.resolve t.cwd p))) u.volume :=
    learns_fewer rfl fun _ _ hq => hq
  exact (effect_calling hunmark).seq fun _ _ => effect_pure _

theorem seq_reads : OnlyReads cmdSeq := by
  intro args stdin s
  apply (effect_given _).seq
  intro nums t
  apply (effect_given _).seq
  intro result u
  cases result with
  | none => exact effect_pure _
  | some result => exact effect_pure _

theorem cut_reads : OnlyReads cmdCut := by
  intro args stdin s
  refine effect_ite (fun _ => effect_pure _) fun _ => ?_
  apply (effect_given _).seq
  intro indices t
  exact effect_ite (fun _ => effect_throw _) fun _ => effect_pure _

end Reading

/-! ### Builtins that write -/

/-- The operands that the builtin may write. -/
def written (name : String) (args : List String) : List String :=
  match name with
  | "rm" | "touch" | "tee" => operands args
  | "mv" => (operands args).take 2
  | "cp" => ((operands args).take 2).tail
  | "sed" => if args.contains "-i" then (args.filter (· ≠ "-i")).tail else []
  | _ => []

/-- What the builtin does to a directory it does to what is in it. -/
def deep (name : String) : Bool := name ∈ ["rm", "mv", "cp"]

/-- The operand is the path, or a directory above it that is written as a whole. -/
def Names (deep : Bool) (p cwd a : String) : Prop := Py.resolve cwd a = p ∨ deep = true ∧ Below p (Py.resolve cwd a)

instance (deep : Bool) (p cwd a : String) : Decidable (Names deep p cwd a) :=
  inferInstanceAs (Decidable (_ ∨ _ ∧ startsWith _ _ = true))

section Writing

variable (L : Library) {p : String} {args : List String} {stdin : String} {s : State World}

theorem into_dir {dest : String} (ix : PathIndex) (src : String) (hne : dest ≠ p) (hbelow : ¬ Below p dest) :
    Py.resolveDestIntoDir ix src dest ≠ p ∧ ¬ Below p (Py.resolveDestIntoDir ix src dest) := by
  unfold Py.resolveDestIntoDir
  split_ifs
  · refine ⟨ne_of_image hbelow, fun h => hbelow ?_⟩
    obtain ⟨cs, hcs⟩ := startsWith_iff.mp h
    apply startsWith_iff.mpr
    obtain ⟨tail, htail⟩ : ∃ tail, (withSlash (withSlash dest ++ Py.lastName src)).toList =
        (withSlash dest).toList ++ tail := by
      generalize hwith : withSlash dest = d
      unfold withSlash
      split_ifs
      · exact ⟨_, String.toList_append⟩
      · exact ⟨_, by rw [String.toList_append, String.toList_append, List.append_assoc]⟩
    exact ⟨tail ++ cs, by rw [hcs, htail, List.append_assoc]⟩
  · exact ⟨hne, hbelow⟩

theorem touch_spares (h : ∀ a ∈ operands args, ¬ Names false p s.cwd a) :
    Effect (Stays (Spares p)) (cmdTouch L args stdin) s := by
  apply effect_forEach
  intro a ha t ht
  apply effect_looking
  rw [ht]
  apply (stays_spares (effect_getDoc L.time _)).seq
  intro content u
  cases content with
  | some content => exact effect_pure _
  | none => exact (effect_addDoc L.time " " fun he => h a ha (.inl he)).seq fun _ _ => effect_pure _

theorem tee_spares (h : ∀ a ∈ operands args, ¬ Names false p s.cwd a) :
    Effect (Stays (Spares p)) (cmdTee L args stdin) s := by
  apply (effect_forEach fun a ha t ht => ?_).seq fun _ _ => effect_pure _
  apply effect_looking
  rw [ht]
  have hadd : ∀ prev : String, ∀ u : State World, Effect (Stays (Spares p)) (do
      onVolume ((client L.time).addDoc (Py.resolve s.cwd a) (prev ++ stdin))
      return (none : Option ExecResult)) u :=
    fun prev u => (effect_addDoc L.time _ fun he => h a ha (.inl he)).seq fun _ _ => effect_pure _
  by_cases happend : args.contains "-a" = true
  · rw [if_pos happend]
    exact (stays_spares (effect_previous L.time _)).seq fun prev u => hadd prev u
  · rw [if_neg happend]
    exact hadd "" t

theorem sed_spares (h : args.contains "-i" = true → ∀ a ∈ (args.filter (· ≠ "-i")).tail, ¬ Names false p s.cwd a) :
    Effect (Stays (Spares p)) (cmdSed L args stdin) s := by
  unfold cmdSed
  cases hargs : args.filter (· ≠ "-i") with
  | nil => exact effect_pure _
  | cons expr files =>
    rw [hargs] at h
    dsimp only
    cases sedParts expr.toList with
    | none => exact effect_pure _
    | some parts =>
      refine effect_ite (fun _ => (effect_given _).seq fun _ _ => effect_pure _) fun _ => ?_
      apply (effect_collect fun a ha t ht => ?_).seq
      · intro texts u
        cases texts with
        | error result => exact effect_pure _
        | ok texts => exact effect_pure _
      · unfold sedFile
        apply effect_looking
        rw [ht]
        apply (stays_spares (effect_readFile L _)).seq
        intro content u
        cases content with
        | none => exact effect_pure _
        | some content =>
          apply (effect_given _).seq
          intro result v
          refine effect_ite (fun hi => ?_) fun _ => effect_pure _
          exact (effect_addDoc L.time result fun he => h hi a ha (.inl he)).seq fun _ _ => effect_pure _

theorem rm_spares (h : ∀ a ∈ operands args, ¬ Names true p s.cwd a) :
    Effect (Stays (Spares p)) (cmdRm args stdin) s := by
  apply effect_forEach
  intro a ha t ht
  apply effect_looking
  rw [ht]
  apply effect_looking
  refine effect_ite (fun _ => effect_ite (fun _ => effect_pure _) fun _ => ?_) fun _ => ?_
  · have hbelow : startsWith p (withSlash (withSlash (Py.resolve s.cwd a))) = false := by
      rw [withSlash_idem]
      simpa [Below] using fun hb : Below p (Py.resolve s.cwd a) => h a ha (.inr ⟨rfl, hb⟩)
    apply (effect_calling (Py.removeByPrefix_spares hbelow _)).seq
    intro result u
    exact effect_ite (fun _ => effect_pure _) fun _ => effect_pure _
  · apply effect_looking
    split
    · exact effect_pure _
    · exact (effect_calling (Py.removeDoc_spares (fun he => h a ha (.inl he)) _)).seq fun _ _ => effect_pure _

theorem mv_spares (h : ∀ a ∈ (operands args).take 2, ¬ Names true p s.cwd a) :
    Effect (Stays (Spares p)) (cmdMv L args stdin) s := by
  unfold cmdMv
  split
  · rename_i a b rest hargs
    rw [hargs] at h
    have ha : Py.resolve s.cwd a ≠ p ∧ ¬ Below p (Py.resolve s.cwd a) := by simpa [Names] using h a
    have hb : Py.resolve s.cwd b ≠ p ∧ ¬ Below p (Py.resolve s.cwd b) := by simpa [Names] using h b
    apply effect_looking
    apply effect_looking
    apply effect_looking
    obtain ⟨hne, hbelow⟩ := into_dir s.volume.index (Py.resolve s.cwd a) hb.1 hb.2
    apply effect_looking
    refine effect_ite (fun _ => ?_) fun _ => ?_
    · exact (effect_calling (Py.moveTree_spares L.time ha.2 hbelow _)).seq fun _ _ => effect_pure _
    · exact (effect_calling (moveDoc_spares python ha.1 hne _)).seq fun _ _ => effect_pure _
  · exact effect_pure _

theorem cp_spares (h : ∀ a ∈ ((operands args).take 2).tail, ¬ Names true p s.cwd a) :
    Effect (Stays (Spares p)) (cmdCp L args stdin) s := by
  unfold cmdCp
  split
  · rename_i a b rest hargs
    rw [hargs] at h
    have hb : Py.resolve s.cwd b ≠ p ∧ ¬ Below p (Py.resolve s.cwd b) := by simpa [Names] using h b
    apply effect_looking
    apply effect_looking
    apply effect_calling
    unfold Py.cp
    apply effect_look
    obtain ⟨hne, hbelow⟩ := into_dir s.volume.index (Py.resolve s.cwd a) hb.1 hb.2
    apply effect_look
    refine effect_ite (fun _ => effect_ite (fun _ => effect_pure _) fun _ => ?_) fun _ => ?_
    · apply (Py.copyTree_spares L.time hbelow _).seq
      intro result t
      exact effect_ite (fun _ => effect_pure _) fun _ => effect_pure _
    · apply (learns_spares (Py.getDoc_learns _ _)).seq
      intro doc t
      cases doc with
      | none => exact effect_pure _
      | some doc => exact (addDoc_spares python hne _ t).seq fun _ _ => effect_pure _
  · exact effect_pure _

end Writing

/-! ### The table -/

/-- The working directories that the builtin may leave. -/
def homes (name : String) (args : List String) (cwd : String) : List String :=
  if name = "cd" then [cwd, Py.resolve cwd (args.headD "/home/user")] else [cwd]

/-- The builtin spares every path that it is given no operand for. -/
def Sparing (name : String) (b : Builtin World) : Prop :=
  ∀ (p : String) (args : List String) (stdin : String) (s : State World),
    (∀ a ∈ written name args, ¬ Names (deep name) p s.cwd a) →
      Spares p s.volume (eval (b args stdin) s).2.volume ∧ (eval (b args stdin) s).2.cwd ∈ homes name args s.cwd

section Table

variable (L : Library) {name : String} {b : Builtin World}

theorem mem_homes (name : String) (args : List String) (cwd : String) : cwd ∈ homes name args cwd := by
  unfold homes
  split_ifs <;> simp

theorem sparing_of_stays (h : ∀ (p : String) (args : List String) (stdin : String) (s : State World),
    (∀ a ∈ written name args, ¬ Names (deep name) p s.cwd a) → Effect (Stays (Spares p)) (b args stdin) s) :
    Sparing name b := by
  intro p args stdin s hargs
  obtain ⟨hvolume, hcwd⟩ := h p args stdin s hargs
  exact ⟨hvolume, hcwd ▸ mem_homes name args s.cwd⟩

theorem sparing_of_reads (h : OnlyReads b) : Sparing name b :=
  sparing_of_stays fun _ args stdin s _ => stays_spares (h args stdin s)

/-- `cd` goes to its operand or stays. -/
structure Goes (path : String) (s t : State World) : Prop where
  volume : Learns s.volume t.volume
  cwd : t.cwd = s.cwd ∨ t.cwd = path

instance (path : String) : IsPreorder (State World) (Goes path) where
  refl s := ⟨refl_of Learns s.volume, .inl rfl⟩
  trans _ _ _ h h' := by
    refine ⟨trans_of Learns h.volume h'.volume, ?_⟩
    rcases h'.cwd with h' | h'
    · exact h.cwd.imp h'.trans h'.trans
    · exact .inr h'

theorem cd_goes (args : List String) (stdin : String) (s : State World) :
    Effect (Goes (Py.resolve s.cwd (args.headD "/home/user"))) (cmdCd L args stdin) s := by
  have hstays : ∀ {α : Type} {x : Sh World α} {t : State World}, Effect (Stays Learns) x t →
      Effect (Goes (Py.resolve s.cwd (args.headD "/home/user"))) x t :=
    fun h => h.mono fun _ _ h => ⟨h.volume, .inl h.cwd⟩
  have hgo : ∀ (isDir : Bool) (t : State World), Effect (Goes (Py.resolve s.cwd (args.headD "/home/user")))
      (if isDir = true then do
        sync fun u => ((), { u with cwd := Py.resolve s.cwd (args.headD "/home/user") })
        return {}
      else return missing "cd" (args.headD "/home/user") : Sh World ExecResult) t := by
    intro isDir t
    refine effect_ite (fun _ => ?_) fun _ => effect_pure _
    exact effect_sync_bind ⟨refl_of Learns t.volume, .inr rfl⟩ (effect_pure _)
  unfold cmdCd
  apply effect_sync_bind (refl_of (Goes _) s)
  apply effect_sync_bind (refl_of (Goes _) s)
  refine effect_ite (fun _ => (effect_pure true).seq hgo) fun _ => ?_
  apply (hstays (effect_calling (Py.statDoc_learns L.time _ _))).seq
  intro stat t
  exact (effect_pure _).seq hgo

theorem cd_sparing : Sparing "cd" (cmdCd L) := by
  intro p args stdin s _
  obtain ⟨hvolume, hcwd⟩ := cd_goes L args stdin s
  refine ⟨hvolume.spares, ?_⟩
  unfold homes
  simpa using hcwd

theorem text_reads : OnlyReads cmdPrintf ∧ OnlyReads cmdUniq ∧ OnlyReads cmdBasename ∧ OnlyReads cmdDirname ∧
    OnlyReads cmdTr := by
  refine ⟨?_, fun args stdin s => effect_pure _, ?_, ?_, ?_⟩
  · intro args stdin s
    unfold cmdPrintf
    split
    · exact effect_pure _
    · exact effect_pure _
  · intro args stdin s
    unfold cmdBasename
    split
    · exact effect_pure _
    · exact effect_pure _
    · exact effect_pure _
  · intro args stdin s
    unfold cmdDirname
    split
    · exact effect_pure _
    · exact effect_pure _
  · intro args stdin s
    unfold cmdTr
    split
    · exact effect_pure _
    · refine effect_ite (fun _ => effect_pure _) fun _ => ?_
      split
      · exact effect_pure _
      · exact effect_pure _

/-- Every builtin spares what its operands do not name. -/
theorem table_sparing : ∀ e ∈ table L, Sparing e.1 e.2 := by
  obtain ⟨hprintf, huniq, hbasename, hdirname, htr⟩ := text_reads
  simp only [table, List.forall_mem_cons]
  refine ⟨sparing_of_reads fun _ _ _ => effect_pure _, sparing_of_reads hprintf, sparing_of_reads (cat_reads L),
    sparing_of_reads (take_reads L "head" _), sparing_of_reads (take_reads L "tail" _), sparing_of_reads (ls_reads L),
    sparing_of_reads mkdir_reads, sparing_of_stays fun _ _ _ _ => rm_spares, sparing_of_reads (rmdir_reads L),
    sparing_of_stays fun _ _ _ _ => mv_spares L, sparing_of_stays fun _ _ _ _ => cp_spares L,
    sparing_of_stays fun _ _ _ _ => touch_spares L, sparing_of_reads (stat_reads L),
    sparing_of_reads fun _ _ s => effect_looking (effect_pure _), cd_sparing L, sparing_of_reads (test_reads L),
    sparing_of_reads (test_reads L), sparing_of_reads (grep_reads L), sparing_of_reads (sgrep_reads L),
    sparing_of_reads (wc_reads L), sparing_of_reads (sort_reads L), sparing_of_reads huniq,
    sparing_of_reads (find_reads L), sparing_of_stays fun p args stdin s h => ?_,
    sparing_of_stays fun _ _ _ _ => tee_spares L, sparing_of_reads hbasename, sparing_of_reads hdirname,
    sparing_of_reads fun _ _ _ => effect_pure _, sparing_of_reads fun _ _ _ => effect_pure _,
    sparing_of_reads cut_reads, sparing_of_reads htr, sparing_of_reads seq_reads,
    sparing_of_reads fun _ _ _ => effect_pure _, by simp⟩
  apply sed_spares
  intro hi
  have hwritten : written "sed" args = (args.filter (· ≠ "-i")).tail := if_pos hi
  rwa [hwritten] at h

theorem builtin_spares (h : builtins L name = some b) : Sparing name b := by
  obtain ⟨before, after, htable, -⟩ := List.lookup_eq_some_iff.mp h
  apply table_sparing L (name, b)
  rw [htable]
  simp

end Table

/-! ### Redirections -/

/-- The redirection writes the path. -/
def Targets (p cwd : String) (redir : Redirect) : Prop :=
  redir.content = "" ∧ redir.op ≠ .read ∧ (truthy redir.path).map (Py.resolve cwd) = some p

instance (p cwd : String) (redir : Redirect) : Decidable (Targets p cwd redir) :=
  inferInstanceAs (Decidable (_ ∧ _ ∧ _))

section Redirections

variable {p : String} {s : State World}

theorem effect_readInputs (time : ℤ) (name : String) (redirects : List Redirect) (stdin : String) :
    Effect (Stays Learns) (readInputs (client time) name redirects stdin) s := by
  induction redirects generalizing stdin s with
  | nil => exact effect_pure _
  | cons redir rest ih =>
    unfold readInputs
    refine effect_ite (fun _ => ih _) fun _ => effect_ite (fun _ => ?_) fun _ => ih _
    cases truthy redir.path with
    | none => exact ih _
    | some target =>
      apply effect_looking
      apply (effect_getDoc time _).seq
      intro content t
      cases content with
      | none => exact effect_pure _
      | some content => exact (effect_decode content).seq fun text u => ih _

theorem applyRedirect_spares (time : ℤ) {redir : Redirect} (result : ExecResult) (h : ¬ Targets p s.cwd redir) :
    Effect (Stays (Spares p)) (applyRedirect (client time) redir result) s := by
  unfold applyRedirect
  refine effect_ite (fun _ => effect_pure _) fun hskip => ?_
  rw [not_or, not_not] at hskip
  apply effect_looking
  refine effect_ite (fun _ => effect_pure _) fun _ => ?_
  cases hpath : (truthy redir.path).map (Py.resolve s.cwd) with
  | none => cases redir.op <;> exact effect_pure _
  | some path =>
    have hne : path ≠ p := by
      rintro rfl
      exact h ⟨hskip.1, hskip.2, hpath⟩
    have hwrite : ∀ (text : String) (c : Prop) [Decidable c] (t : State World), Effect (Stays (Spares p)) (do
        if c then onVolume ((client time).addDoc path text)
        return emptied redir.fd result) t :=
      fun text c _ t => effect_ite (fun _ => (effect_addDoc time text hne).seq fun _ _ => effect_pure _)
        fun _ => effect_pure _
    cases hop : redir.op with
    | read => exact absurd hop hskip.2
    | write => exact hwrite _ _ s
    | append => exact (stays_spares (effect_previous time path)).seq fun prev t => hwrite _ _ t

theorem applyRedirects_spares (time : ℤ) {redirects : List Redirect} (result : ExecResult)
    (h : ∀ redir ∈ redirects, ¬ Targets p s.cwd redir) :
    Effect (Stays (Spares p)) (applyRedirects (client time) redirects result) s := by
  induction redirects generalizing result s with
  | nil => exact effect_pure _
  | cons redir rest ih =>
    rw [List.forall_mem_cons] at h
    have hfirst := applyRedirect_spares time result h.1
    apply hfirst.bind
    intro result' t he
    have hcwd : t.cwd = s.cwd := (hfirst.of_eval he).cwd
    apply ih
    rw [hcwd]
    exact h.2

end Redirections

/-! ### A session -/

/-- What the shell keeps of a path. -/
def Kept (p : String) (s t : State World) : Prop := Spares p s.volume t.volume

instance (p : String) : IsPreorder (State World) (Kept p) where
  refl s := refl_of (Spares p) s.volume
  trans _ _ _ h h' := trans_of (Spares p) h h'

/-- No operand that the builtin writes and no redirection names the path. -/
def AwayNamed (p name : String) (args : List String) (redirects : List Redirect) (cwd : String) : Prop :=
  (∀ a ∈ written name args, ¬ Names (deep name) p cwd a) ∧
    ∀ c ∈ homes name args cwd, ∀ redir ∈ redirects, ¬ Targets p c redir

instance (p name : String) (args : List String) (redirects : List Redirect) (cwd : String) :
    Decidable (AwayNamed p name args redirects cwd) :=
  inferInstanceAs (Decidable (_ ∧ _))

/-- The command, as its words expand in this state, keeps away from the path. -/
def Away (p : String) : CommandNode → State World → Prop
  | .compound _, _ => True
  | .simple node, s =>
    ∀ assigns env, extractAssignments node.assignments s.env = (.ok assigns, env) →
      ∀ word, node.name = some word → ∀ name args redirects env',
        expandCommand word node (assign assigns env) = (.ok (name, args, redirects), env') →
          AwayNamed p name args redirects s.cwd

section Session

variable (L : Library) {p : String} {s : State World}

theorem callBuiltin_spares {name : String} {args : List String} {redirects : List Redirect} (stdin : String)
    (h : AwayNamed p name args redirects s.cwd) :
    Effect (Kept p) (callBuiltin (client L.time) (builtins L) name args redirects stdin) s := by
  unfold callBuiltin
  cases hb : builtins L name with
  | none => exact effect_pure _
  | some handler =>
    obtain ⟨hkept, hhome⟩ := builtin_spares L hb p args stdin s h.1
    have htried : eval (tryCatch (do return Except.ok (← handler args stdin))
        fun e => return .error e : Sh World (Except Raised ExecResult)) s =
        (.ok (eval (handler args stdin) s).1, (eval (handler args stdin) s).2) := by
      simp only [eval_tryCatch, eval_bind]
      rcases eval (handler args stdin) s with ⟨_ | result, t⟩
      · rfl
      · rfl
    dsimp only
    apply Effect.bind
    · unfold Effect
      rw [htried]
      exact hkept
    · intro caught t he
      rw [htried] at he
      cases he
      cases (eval (handler args stdin) s).1 with
      | error e => exact effect_pure _
      | ok result =>
        have hredirects := applyRedirects_spares L.time result (h.2 _ hhome)
        exact hredirects.mono fun _ _ hs => hs.volume

theorem kept_same {t u : State World} (h : u.volume = t.volume) : Kept p t u := by
  show Spares p t.volume u.volume
  rw [h]
  exact refl_of (Spares p) t.volume

/-- An expansion touches the environment. -/
theorem expanded_kept {α β : Type} {x : Expand α} {g : α → Sh World β}
    (h : ∀ a env, x s.env = (.ok a, env) → Effect (Kept p) (g a) { s with env := env }) :
    Effect (Kept p) (expanded x >>= g) s := by
  rcases hx : x s.env with ⟨_ | a, env⟩
  · have hthrown : Effect (Kept p) (expanded x : Sh World α) s := by
      unfold Effect
      rw [eval_expanded, hx]
      exact kept_same rfl
    apply hthrown.bind
    intro a t he
    rw [eval_expanded, hx] at he
    cases he
  · have hdone : eval (expanded x : Sh World α) s = (.ok a, { s with env := env }) := by rw [eval_expanded, hx]
    apply Effect.bind
    · unfold Effect
      rw [hdone]
      exact kept_same rfl
    · intro a' t he
      rw [hdone] at he
      cases he
      exact h a env hx

theorem execNamed_spares {word : WordNode} {node : SimpleCommandNode} (stdin : String)
    (h : ∀ name args redirects env, expandCommand word node s.env = (.ok (name, args, redirects), env) →
      AwayNamed p name args redirects s.cwd) :
    Effect (Kept p) (execNamed (client L.time) (builtins L) word node stdin) s := by
  unfold execNamed expanding
  apply effect_sync_bind (kept_same rfl)
  cases hx : expandCommand word node s.env with
  | mk answer env =>
    cases answer with
    | error message => exact effect_pure _
    | ok command =>
      obtain ⟨name, args, redirects⟩ := command
      have haway := h name args redirects env hx
      have hinputs : Effect (Stays Learns) (readInputs (client L.time) name redirects stdin) { s with env := env } :=
        effect_readInputs L.time name redirects stdin
      have hread : Effect (Kept p) (readInputs (client L.time) name redirects stdin) { s with env := env } :=
        hinputs.mono fun _ _ hs => hs.volume.spares
      apply hread.bind
      intro read t he
      cases read with
      | error result => exact effect_pure _
      | ok stdin =>
        have hcwd : t.cwd = s.cwd := (hinputs.of_eval he).cwd
        apply callBuiltin_spares
        rw [hcwd]
        exact haway

/-- **A command that keeps away from a path spares it.** -/
theorem command_spares {cmd : CommandNode} (stdin : String) (h : Away p cmd s) :
    Effect (Kept p) (execCommand (client L.time) (builtins L) cmd stdin) s := by
  cases cmd with
  | compound type => exact effect_pure _
  | simple node =>
    unfold execCommand
    apply expanded_kept
    intro assigns env hassigns
    apply effect_sync_bind (kept_same rfl)
    dsimp only
    cases hname : node.name with
    | none => exact effect_pure _
    | some word => exact execNamed_spares L stdin (h assigns env hassigns word hname)

variable (parsed : Except String (Script CommandNode))

/-- Every command that the call comes to keeps away from the path. -/
def AwayCall (p : String) (s : State World) : Prop :=
  ∀ script, parsed = .ok script →
    AlongScript (execCommand (client L.time) (builtins L)) (fun cmd _ t => Away p cmd t) script (started s)

theorem exec_spares (h : AwayCall L parsed p s) : Effect (Kept p) (exec (client L.time) (builtins L) parsed) s := by
  unfold exec
  apply effect_sync_bind (kept_same rfl)
  cases parsed with
  | error e => exact effect_pure _
  | ok script =>
    have hscript : Effect (Kept p) (execScript (execCommand (client L.time) (builtins L)) script) (started s) :=
      effect_execScript ((h script rfl).mono fun _ stdin _ haway => command_spares L stdin haway)
    apply Effect.bind
    · refine hscript.tryCatch fun e t _ => ?_
      cases e with
      | fs err => exact effect_pure _
      | unsupported message => exact effect_throw _
      | other message => exact effect_throw _
    · intro result t _
      exact effect_sync_bind (kept_same rfl) (effect_pure _)

/-- The calls of a shell one after another, each with what the libraries are
then and with what the parser makes of its text. -/
def session : List (Library × Except String (Script CommandNode)) → State World → State World
  | [], s => s
  | (L, parsed) :: rest, s => session rest (eval (exec (client L.time) (builtins L) parsed) s).2

/-- Every command that the session comes to keeps away from the path. -/
def AlongCalls (p : String) : List (Library × Except String (Script CommandNode)) → State World → Prop
  | [], _ => True
  | (L, parsed) :: rest, s => AwayCall L parsed p s ∧
    AlongCalls p rest (eval (exec (client L.time) (builtins L) parsed) s).2

/-- **A session leaves the documents at a path as they are if none of its
commands names the path.** -/
theorem session_spares {calls : List (Library × Except String (Script CommandNode))}
    (hcalls : AlongCalls p calls s) (howned : Owned p s.volume) :
    Owned p (session calls s).volume ∧ docsAt (session calls s).volume.server p = docsAt s.volume.server p := by
  suffices hkept : Kept p s (session calls s) from hkept howned
  clear howned
  induction calls generalizing s with
  | nil => exact refl_of (Kept p) s
  | cons call rest ih =>
    obtain ⟨L, parsed⟩ := call
    exact trans_of (Kept p) (exec_spares L parsed hcalls.1) (ih hcalls.2)

/-- `rm /a.md`. -/
def rmA : SimpleCommandNode := ⟨[], some (literal "rm"), [literal "/a.md"], []⟩

/-- A shell whose server has `/b.md`. -/
def besideB : State World :=
  { emptyShell with
    volume := { emptyShell.volume with
      server := { Container.empty with docs := [⟨"b", "/b.md", "text", none, none, none, none, none, none⟩] } } }

def quiet : Library :=
  ⟨0, "", fun _ _ => .ok [], fun _ _ _ => false, fun _ _ _ t => .ok t, fun _ _ => false, fun _ => 0⟩

def oneCommand (node : SimpleCommandNode) : Script CommandNode := [⟨⟨[.simple node], by simp, false⟩, []⟩]

theorem session_spares_two :
    docsAt (session [(quiet, .ok (oneCommand rmA)), (quiet, .ok (oneCommand (echoTo ["/c.md"])))] besideB).volume.server
      "/b.md" = docsAt besideB.volume.server "/b.md" := by
  have hone : ∀ (node : SimpleCommandNode) (s : State World), (∀ t, Away "/b.md" (.simple node) t) →
      AwayCall quiet (.ok (oneCommand node)) "/b.md" s := by
    intro node s h script hscript
    cases hscript
    apply alongScript_of_forall
    simpa [oneCommand, Statement.pipelines] using h
  have howned : Owned "/b.md" besideB.volume := ⟨by decide, fun _ _ _ h => by cases h⟩
  have halong : AlongCalls "/b.md" [(quiet, .ok (oneCommand rmA)), (quiet, .ok (oneCommand (echoTo ["/c.md"])))]
      besideB := by
    refine ⟨hone _ _ fun t => ?_, hone _ _ fun t => ?_, trivial⟩
    · intro assigns env hassigns word hword name args redirects env' hcommand
      cases hassigns
      cases hword
      cases hcommand
      show AwayNamed "/b.md" "rm" ["/a.md"] [] t.cwd
      have hresolve : Py.resolve t.cwd "/a.md" = "/a.md" := (if_pos (by decide)).trans (by decide)
      refine ⟨fun a ha => ?_, by simp⟩
      obtain rfl := List.mem_singleton.mp ha
      rw [Names, hresolve, Below]
      decide
    · intro assigns env hassigns word hword name args redirects env' hcommand
      cases hassigns
      cases hword
      cases hcommand
      show AwayNamed "/b.md" "echo" ["hi"] [{ op := .write, path := some "/c.md" }] t.cwd
      have hresolve : Py.resolve t.cwd "/c.md" = "/c.md" := (if_pos (by decide)).trans (by decide)
      refine ⟨by simp [written], fun c hc redir hredir => ?_⟩
      obtain rfl := List.mem_singleton.mp hc
      obtain rfl := List.mem_singleton.mp hredir
      rintro ⟨-, -, hpath⟩
      have hpath : some (Py.resolve t.cwd "/c.md") = some "/b.md" := hpath
      rw [hresolve] at hpath
      exact absurd hpath (by decide)
  exact (session_spares halong howned).2

end Session

end Smfs.Bash.Shell
