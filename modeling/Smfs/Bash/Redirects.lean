/-
# What redirections leave

The redirections of a command take its output one after another, and each takes
all that is left of its stream. So the first target of a stream gets the text,
where the rule of the shell gives it to the last; a file that is opened to be
written anew stays as it was if there is nothing to write; and a command that is
not found, that raises or that has no name gets no redirection at all. The rule
is kept in the other cases (`redirections_iff`).

Key definitions: `Target`, `held`, `pour`, `Stores`, `Ran`, `ShellRule`, `Meets`.
Key theorems: `pour_at`, `follows_pour_iff`, `eval_applyRedirects`, `redirections_iff`.
-/
import Smfs.Bash.Shell

namespace Smfs.Bash.Shell

open Turns
open Py (ExecResult)

/-! ### Streams that are poured into files -/

/-- The file of a redirection: whether it is appended to, and whether it takes
the standard output or the standard error. -/
structure Target where
  append : Bool
  out : Bool
  path : String

/-- What each file holds, if there is one. -/
abbrev Files := String → Option String

/-- What a file holds once a text was handed to it. -/
def held (append : Bool) (before : Option String) (c : String) : Option String :=
  if append then (if before.getD "" ≠ "" ∨ c ≠ "" then some (before.getD "" ++ c) else before)
  else if c ≠ "" then some c else before

/-- The targets one after another, each with what is left of its stream. -/
def pour : List Target → (Bool → String) → Files → Files
  | [], _, files => files
  | t :: rest, streams, files =>
    pour rest (Function.update streams t.out "")
      (Function.update files t.path (held t.append (files t.path) (streams t.out)))

/-- The rule for one stream: the last target gets the text, and each begins
with nothing or, if it is appended to, with what it held. -/
def Follows (ts : List Target) (out : Bool) (written : String) (before after : Files) : Prop :=
  ∀ pre t post, ts = pre ++ t :: post → t.out = out → after t.path =
    some ((if t.append then (before t.path).getD "" else "") ++ if ∃ t' ∈ post, t'.out = out then "" else written)

/-- The targets of a stream hold already what nothing would leave in them. -/
def Settled (ts : List Target) (out : Bool) (before : Files) : Prop :=
  ∀ t ∈ ts, t.out = out → if t.append then (before t.path).isSome else before t.path = some ""

/-- Of a stream with a text there is one target at most; those of one without
are settled. -/
def Poured (ts : List Target) (out : Bool) (written : String) (before : Files) : Prop :=
  if written = "" then Settled ts out before else (ts.filter (·.out = out)).length ≤ 1

variable {ts : List Target} {streams : Bool → String} {files before : Files} {out : Bool} {written : String}

theorem held_nothing (append : Bool) (b : Option String) : held append b "" = b := by
  unfold held
  cases b with
  | none => cases append <;> rfl
  | some c => by_cases hc : c = "" <;> simp [hc]

theorem pour_other {q : String} (h : q ∉ ts.map Target.path) : pour ts streams files q = files q := by
  induction ts generalizing streams files with
  | nil => rfl
  | cons t ts ih =>
    rw [List.map_cons, List.mem_cons, not_or] at h
    rw [pour, ih h.2, Function.update_of_ne h.1]

/-- **A target gets its stream, if none before it had it.** -/
theorem pour_at (streams : Bool → String) (files : Files) {pre post : List Target} {t : Target}
    (h : ((pre ++ t :: post).map Target.path).Nodup) :
    pour (pre ++ t :: post) streams files t.path =
      held t.append (files t.path) (if ∃ t' ∈ pre, t'.out = t.out then "" else streams t.out) := by
  induction pre generalizing streams files with
  | nil =>
    have hnot : t.path ∉ post.map Target.path := by
      rw [List.nil_append, List.map_cons, List.nodup_cons] at h
      exact h.1
    rw [List.nil_append, pour, pour_other hnot, Function.update_self]
    simp
  | cons t' pre ih =>
    rw [List.cons_append, List.map_cons, List.nodup_cons] at h
    have hne : t.path ≠ t'.path := by
      intro he
      exact h.1 (he ▸ List.mem_map.mpr ⟨t, by simp, rfl⟩)
    rw [List.cons_append, pour, ih _ _ h.2, Function.update_of_ne hne]
    by_cases hout : t'.out = t.out
    · simp [hout]
    · have hout' : t.out ≠ t'.out := fun he => hout he.symm
      simp [hout, Function.update_of_ne hout']

theorem settled_iff (append : Bool) (b : Option String) :
    b = some ((if append then b.getD "" else "") ++ "") ↔ if append then b.isSome = true else b = some "" := by
  cases append
  · simp
  · cases b <;> simp

/-- Nothing was written, and nothing changed. -/
theorem follows_nothing_iff : Follows ts out "" before before ↔ Settled ts out before := by
  constructor
  · intro h t ht hout
    obtain ⟨pre, post, hts⟩ := List.append_of_mem ht
    have hrule := h pre t post hts hout
    rw [ite_self] at hrule
    exact (settled_iff t.append _).mp hrule
  · intro h pre t post hts hout
    rw [ite_self]
    exact (settled_iff t.append _).mpr (h t (hts ▸ by simp) hout)

theorem held_text (append : Bool) (b : Option String) (h : written ≠ "") :
    held append b written = some ((if append then b.getD "" else "") ++ written) := by
  unfold held
  cases append <;> simp [h]

/-- **The rule for one stream holds of its targets just if they are `Poured`.** -/
theorem follows_pour_iff (h : (ts.map Target.path).Nodup) :
    Follows ts out (streams out) files (pour ts streams files) ↔ Poured ts out (streams out) files := by
  unfold Poured
  split_ifs with hw
  · rw [← follows_nothing_iff, hw]
    refine forall₃_congr fun pre t post => forall₂_congr fun hts hout => ?_
    have hpour := pour_at streams files (hts ▸ h)
    rw [hts, hpour, hout, hw, ite_self, ite_self, held_nothing]
  · constructor
    · intro hrule
      by_contra hlen
      obtain ⟨t, t', rest, hfilter⟩ : ∃ t t' rest, ts.filter (·.out = out) = t :: t' :: rest := by
        rcases hf : ts.filter (·.out = out) with _ | ⟨t, _ | ⟨t', rest⟩⟩
        · simp [hf] at hlen
        · simp [hf] at hlen
        · exact ⟨t, t', rest, hf⟩
      -- the first target of the stream takes what the last one was to get
      obtain ⟨pre, post, hts, hpre, hout, hpost⟩ := List.filter_eq_cons_iff.mp hfilter
      have hlater : ∃ t' ∈ post, t'.out = out := by
        have hmem : t' ∈ post.filter (·.out = out) := hpost ▸ List.mem_cons_self
        exact ⟨t', (List.mem_filter.mp hmem).1, of_decide_eq_true (List.mem_filter.mp hmem).2⟩
      have hfirst : ¬ ∃ t' ∈ pre, t'.out = t.out := by
        rintro ⟨x, hx, he⟩
        exact hpre x hx (decide_eq_true (he.trans (of_decide_eq_true hout)))
      have hpour := pour_at streams files (hts ▸ h)
      have hat := hrule pre t post hts (of_decide_eq_true hout)
      rw [hts, hpour, if_neg hfirst, if_pos hlater, of_decide_eq_true hout, held_text _ _ hw, Option.some.injEq] at hat
      have hlist := congrArg String.toList hat
      rw [String.toList_append, String.toList_append, List.append_right_inj] at hlist
      exact hw (String.toList_inj.mp hlist)
    · intro hlen pre t post hts hout
      have hpour := pour_at streams files (hts ▸ h)
      have halone : ∀ t' ∈ pre ++ post, t'.out ≠ out := by
        intro t' ht' he
        have hpos : 0 < ((pre ++ post).filter (·.out = out)).length :=
          List.length_pos_of_mem (List.mem_filter.mpr ⟨ht', decide_eq_true he⟩)
        rw [hts, List.filter_append, List.filter_cons, if_pos (decide_eq_true hout), List.length_append,
          List.length_cons] at hlen
        rw [List.filter_append, List.length_append] at hpos
        omega
      have hpre : ¬ ∃ t' ∈ pre, t'.out = t.out := by
        rintro ⟨x, hx, he⟩
        exact halone x (List.mem_append_left _ hx) (he.trans hout)
      have hpost : ¬ ∃ t' ∈ post, t'.out = out := by
        rintro ⟨x, hx, he⟩
        exact halone x (List.mem_append_right _ hx) he
      rw [hts, hpour, if_neg hpre, if_neg hpost, hout, held_text _ _ hw]

/-! ### The redirections of the shell -/

section Apply

variable {σ : Type}

/-- On these files the volume reads what they hold, and writes. -/
structure Stores (V : Volume σ) (P : String → Prop) (text : σ → Files) (I : σ → Prop) : Prop where
  read : ∀ v p, I v → P p → ∃ found v', V.getDoc p v = (.ok found, v') ∧
    (match found with
      | none => text v p = none
      | some content => ∃ c, decoded content = .ok c ∧ text v p = some c) ∧ I v' ∧ text v' = text v
  write : ∀ v p c, I v → P p → ∃ v', V.addDoc p c v = (.ok (), v') ∧ I v' ∧
    text v' = Function.update (text v) p (some c)

/-- A redirection of the standard output or of the standard error. -/
structure IsOutput (r : Redirect) : Prop where
  op : r.op ≠ .read
  content : r.content = ""
  fd : r.fd = 1 ∨ r.fd = 2
  path : ∃ p, r.path = some p ∧ p ≠ ""

/-- Its file, from the working directory. -/
def target (cwd : String) (r : Redirect) : Target := ⟨r.op = .append, r.fd = 1, Py.resolve cwd (r.path.getD "")⟩

/-- The streams of a result. -/
def streamsOf (result : ExecResult) (out : Bool) : String := if out then result.stdout else result.stderr

/-- The result without the streams that were redirected. -/
def unredirected (ts : List Target) (result : ExecResult) : ExecResult :=
  { result with
    stdout := if ∃ t ∈ ts, t.out = true then "" else result.stdout
    stderr := if ∃ t ∈ ts, t.out = false then "" else result.stderr }

variable {V : Volume σ} {P : String → Prop} {text : σ → Files} {I : σ → Prop} {u : State σ} {result : ExecResult}
  {r : Redirect}

theorem truthy_path (h : IsOutput r) : (truthy r.path).map (Py.resolve u.cwd) = some (target u.cwd r).path := by
  obtain ⟨p, hp, hne⟩ := h.path
  rw [hp, truthy_some.mpr hne]
  simp [target, hp]

theorem streamOf_eq (result : ExecResult) (r : Redirect) (cwd : String) :
    streamOf r.fd result = streamsOf result (target cwd r).out := by
  unfold streamOf streamsOf target
  by_cases h : r.fd = 1 <;> simp [h]

/-- A write of the volume. -/
theorem Stores.eval_addDoc (hS : Stores V P text I) {path : String} (c : String) (hP : P path) {s : State σ}
    (hI : I s.volume) : ∃ v, eval (onVolume (V.addDoc path c)) s = (.ok (), { s with volume := v }) ∧ I v ∧
      text v = Function.update (text s.volume) path (some c) := by
  obtain ⟨v, hadd, hI', htext⟩ := hS.write s.volume path c hI hP
  refine ⟨v, ?_, hI', htext⟩
  rw [eval_onVolume, hadd]

/-- A read, as `>>` makes one. -/
theorem Stores.eval_previous (hS : Stores V P text I) {path : String} (hP : P path) {s : State σ} (hI : I s.volume) :
    ∃ v, eval (previous V path) s = (.ok ((text s.volume path).getD ""), { s with volume := v }) ∧ I v ∧
      text v = text s.volume := by
  obtain ⟨found, v, hget, hfound, hI', htext⟩ := hS.read s.volume path hI hP
  refine ⟨v, ?_, hI', htext⟩
  rw [previous, eval_bind, eval_onVolume, hget]
  cases found with
  | none =>
    rw [show text s.volume path = none from hfound]
    rfl
  | some content =>
    obtain ⟨c, hc, hsome⟩ := hfound
    rw [hsome]
    simp only [andThen_ok, decode, hc]
    rfl

/-- What one redirection does to the files and to the result. -/
theorem eval_applyRedirect (result : ExecResult) (hS : Stores V P text I) (h : IsOutput r)
    (hP : P (target u.cwd r).path) (hnull : (target u.cwd r).path ≠ "/dev/null") (hI : I u.volume) :
    ∃ v, eval (applyRedirect V r result) u = (.ok (emptied r.fd result), { u with volume := v }) ∧ I v ∧
      text v = Function.update (text u.volume) (target u.cwd r).path (held (target u.cwd r).append
        (text u.volume (target u.cwd r).path) (streamsOf result (target u.cwd r).out)) := by
  have hskip : ¬ (r.content ≠ "" ∨ r.op = .read) := fun hor => hor.elim (· h.content) h.op
  have hstream := streamOf_eq result r u.cwd
  have happend : (target u.cwd r).append = decide (r.op = .append) := rfl
  rw [applyRedirect, if_neg hskip, eval_bind, eval_looking, andThen_ok, truthy_path h,
    if_neg fun he => hnull (Option.some.inj he), ← hstream, happend]
  generalize (target u.cwd r).path = path at hP hnull ⊢
  generalize streamOf r.fd result = c
  cases hop : r.op with
  | read => exact absurd hop h.op
  | write =>
    by_cases hc : c = ""
    · refine ⟨u.volume, ?_, hI, ?_⟩
      · simp [hc]
      · rw [hc, held_nothing, Function.update_eq_self]
    · obtain ⟨v, hadd, hI', htext⟩ := hS.eval_addDoc c hP hI
      refine ⟨v, ?_, hI', ?_⟩
      · simp [hc, hadd]
      · simp [htext, held, hc]
  | append =>
    obtain ⟨v, hprev, hI', htext⟩ := hS.eval_previous hP hI
    by_cases hw : (text u.volume path).getD "" ≠ "" ∨ c ≠ ""
    · obtain ⟨v', hadd, hI'', htext'⟩ := hS.eval_addDoc (s := { u with volume := v })
        ((text u.volume path).getD "" ++ c) hP hI'
      refine ⟨v', ?_, hI'', ?_⟩
      · simp only [eval_bind, hprev, andThen_ok, if_pos hw, hadd, eval_pure]
      · rw [htext', htext]
        simp [held, if_pos hw]
    · refine ⟨v, ?_, hI', ?_⟩
      · simp only [eval_bind, hprev, andThen_ok, if_neg hw, eval_pure]
      · rw [htext]
        simp [held, if_neg hw]

theorem eval_applyRedirect_null (h : IsOutput r) (hnull : (target u.cwd r).path = "/dev/null") :
    eval (applyRedirect V r result) u = (.ok (emptied r.fd result), u) := by
  have hskip : ¬ (r.content ≠ "" ∨ r.op = .read) := fun hor => hor.elim (· h.content) h.op
  rw [applyRedirect, if_neg hskip, eval_bind, eval_looking, andThen_ok, truthy_path h, hnull, if_pos rfl, eval_pure]
  rcases h.fd with hfd | hfd <;> simp [hfd, emptied]

theorem streamsOf_emptied (cwd : String) :
    streamsOf (emptied r.fd result) = Function.update (streamsOf result) (target cwd r).out "" := by
  funext b
  rw [Function.update_apply]
  by_cases h : r.fd = 1 <;> cases b <;> simp [streamsOf, emptied, target, h]

theorem unredirected_emptied (cwd : String) (ts : List Target) :
    unredirected ts (emptied r.fd result) = unredirected (target cwd r :: ts) result := by
  by_cases h : r.fd = 1 <;> simp [unredirected, emptied, target, h]

/-- **The redirections pour the streams into their files.** -/
theorem eval_applyRedirects (result : ExecResult) (hS : Stores V P text I) {rs : List Redirect}
    (h : ∀ r ∈ rs, IsOutput r) (hP : ∀ r ∈ rs, P (target u.cwd r).path ∧ (target u.cwd r).path ≠ "/dev/null")
    (hI : I u.volume) :
    ∃ v, eval (applyRedirects V rs result) u =
        (.ok (unredirected (rs.map (target u.cwd)) result), { u with volume := v }) ∧ I v ∧
      text v = pour (rs.map (target u.cwd)) (streamsOf result) (text u.volume) := by
  induction rs generalizing result u with
  | nil => exact ⟨u.volume, by simp [applyRedirects, unredirected], hI, rfl⟩
  | cons r rs ih =>
    obtain ⟨hr, hrs⟩ : IsOutput r ∧ ∀ r ∈ rs, IsOutput r := List.forall_mem_cons.mp h
    obtain ⟨hPr, hPrs⟩ := List.forall_mem_cons.mp hP
    obtain ⟨v, heval, hI', htext⟩ := eval_applyRedirect result hS hr hPr.1 hPr.2 hI
    obtain ⟨v', heval', hI'', htext'⟩ := ih (emptied r.fd result) (u := { u with volume := v }) hrs hPrs hI'
    refine ⟨v', ?_, hI'', ?_⟩
    · rw [applyRedirects, eval_bind, heval, andThen_ok, heval', unredirected_emptied u.cwd]
      rfl
    · rw [htext', htext, streamsOf_emptied u.cwd]
      rfl

/-- Where nothing was written the files stay as they are. -/
theorem eval_applyRedirects_nothing (hS : Stores V P text I) {rs : List Redirect} (h : ∀ r ∈ rs, IsOutput r)
    (hP : ∀ r ∈ rs, P (target u.cwd r).path ∨ (target u.cwd r).path = "/dev/null") (hI : I u.volume)
    (hout : result.stdout = "") (herr : result.stderr = "") :
    ∃ v, eval (applyRedirects V rs result) u = (.ok result, { u with volume := v }) ∧ I v ∧ text v = text u.volume := by
  induction rs generalizing u with
  | nil => exact ⟨u.volume, rfl, hI, rfl⟩
  | cons r rs ih =>
    obtain ⟨hr, hrs⟩ : IsOutput r ∧ ∀ r ∈ rs, IsOutput r := List.forall_mem_cons.mp h
    obtain ⟨hPr, hPrs⟩ := List.forall_mem_cons.mp hP
    have hsame : emptied r.fd result = result := by
      unfold emptied
      split_ifs
      · rw [← hout]
      · rw [← herr]
    have hfirst : ∃ v, eval (applyRedirect V r result) u = (.ok result, { u with volume := v }) ∧ I v ∧
        text v = text u.volume := by
      by_cases hnull : (target u.cwd r).path = "/dev/null"
      · exact ⟨u.volume, by rw [eval_applyRedirect_null hr hnull, hsame], hI, rfl⟩
      · obtain ⟨v, heval, hI', htext⟩ := eval_applyRedirect result hS hr (hPr.resolve_right hnull) hnull hI
        have hstream : streamsOf result (target u.cwd r).out = "" := by cases (target u.cwd r).out <;> assumption
        refine ⟨v, by rw [heval, hsame], hI', ?_⟩
        rw [htext, hstream, held_nothing, Function.update_eq_self]
    obtain ⟨v, heval, hI', htext⟩ := hfirst
    obtain ⟨v', heval', hI'', htext'⟩ := ih (u := { u with volume := v }) hrs hPrs hI'
    refine ⟨v', ?_, hI'', htext'.trans htext⟩
    rw [applyRedirects, eval_bind, heval, andThen_ok, heval']

/-! ### Commands -/

/-- The shell once the assignments of a command are made. -/
def Assigned (node : SimpleCommandNode) (s t : State σ) : Prop :=
  ∃ assigns env, extractAssignments node.assignments s.env = (.ok assigns, env) ∧
    t = { s with env := assign assigns env }

/-- What a command did before its redirections are looked at: these, what it
wrote, whether they are applied, and the state it leaves. Of the builtins only
`cd` leaves another working directory, and then it writes nothing. -/
inductive Ran (builtins : String → Option (Builtin σ)) (node : SimpleCommandNode) (stdin : String) (s : State σ) :
    List Redirect → ExecResult → Bool → State σ → Prop
  | nameless {t : State σ} {redirects : List Redirect} (assigned : Assigned node s t) (name : node.name = none)
      (expanded : (extractRedirects node.redirections t.env).1 = .ok redirects) :
      Ran builtins node stdin s redirects {} false t
  | unknown {t : State σ} {word : WordNode} {name : String} {args : List String} {redirects : List Redirect} {env : Env}
      (assigned : Assigned node s t) (named : node.name = some word)
      (expanded : expandCommand word node t.env = (.ok (name, args, redirects), env)) (missing : builtins name = none) :
      Ran builtins node stdin s redirects { stderr := name ++ ": command not found\n", exitCode := 127 } false
        { t with env := env }
  | raised {t u : State σ} {word : WordNode} {name : String} {args : List String} {redirects : List Redirect}
      {env : Env} {handler : Builtin σ} {e : Raised} (assigned : Assigned node s t) (named : node.name = some word)
      (expanded : expandCommand word node t.env = (.ok (name, args, redirects), env))
      (found : builtins name = some handler) (call : eval (handler args stdin) { t with env := env } = (.error e, u)) :
      Ran builtins node stdin s redirects { stderr := name ++ ": " ++ e.text ++ "\n", exitCode := 1 } false u
  | returned {t u : State σ} {word : WordNode} {name : String} {args : List String} {redirects : List Redirect}
      {env : Env} {handler : Builtin σ} {result : ExecResult} (assigned : Assigned node s t)
      (named : node.name = some word) (expanded : expandCommand word node t.env = (.ok (name, args, redirects), env))
      (found : builtins name = some handler) (call : eval (handler args stdin) { t with env := env } = (.ok result, u))
      (cwd : u.cwd = s.cwd ∨ result.stdout = "" ∧ result.stderr = "") :
      Ran builtins node stdin s redirects result true u

theorem eval_readInputs {name stdin : String} {rs : List Redirect} (h : ∀ r ∈ rs, IsOutput r) :
    eval (readInputs V name rs stdin) u = (.ok (.ok stdin), u) := by
  induction rs with
  | nil => rfl
  | cons r rs ih =>
    obtain ⟨hr, hrs⟩ : IsOutput r ∧ ∀ r ∈ rs, IsOutput r := List.forall_mem_cons.mp h
    rw [readInputs, if_neg fun hne => hne hr.content, if_neg hr.op]
    exact ih hrs

section Eval

variable {builtins : String → Option (Builtin σ)} {node : SimpleCommandNode} {stdin : String} {s t : State σ}
  {redirects : List Redirect} {ran : ExecResult} {applied : Bool}

theorem eval_assigned (h : Assigned node s t) : eval (execCommand V builtins (.simple node) stdin) s =
    eval (match node.name with
      | none => pure {}
      | some word => execNamed V builtins word node stdin) t := by
  obtain ⟨assigns, env, hassigns, rfl⟩ := h
  rw [execCommand, eval_bind, eval_expanded, hassigns]
  rfl

theorem eval_named {word : WordNode} {name : String} {args : List String} {env : Env} (h : Assigned node s t)
    (hname : node.name = some word) (hexp : expandCommand word node t.env = (.ok (name, args, redirects), env))
    (hout : ∀ r ∈ redirects, IsOutput r) : eval (execCommand V builtins (.simple node) stdin) s =
      eval (callBuiltin V builtins name args redirects stdin) { t with env := env } := by
  rw [eval_assigned h, hname]
  simp only
  rw [execNamed, eval_bind, eval_expanding, hexp, andThen_ok]
  simp only
  rw [eval_bind, eval_readInputs hout, andThen_ok]

/-- **A command is what it did, and then its redirections.** -/
theorem eval_execCommand (h : Ran builtins node stdin s redirects ran applied u) (hout : ∀ r ∈ redirects, IsOutput r) :
    eval (execCommand V builtins (.simple node) stdin) s =
      if applied then eval (applyRedirects V redirects ran) u else (.ok ran, u) := by
  cases h with
  | nameless assigned name expanded =>
    rw [eval_assigned assigned, name]
    rfl
  | unknown assigned named expanded missing =>
    rw [eval_named assigned named expanded hout, callBuiltin, missing]
    rfl
  | raised assigned named expanded found call =>
    rw [eval_named assigned named expanded hout, callBuiltin, found]
    simp [call]
  | returned assigned named expanded found call cwd =>
    rw [eval_named assigned named expanded hout, callBuiltin, found]
    simp [call]

end Eval

/-! ### The rule of the shell -/

/-- Each stream is in its targets as the rule says, and what was redirected is
not shown. -/
def ShellRule (ts : List Target) (ran result : ExecResult) (before after : Files) : Prop :=
  ∀ out, Follows ts out (streamsOf ran out) before after ∧
    streamsOf result out = if ∃ t ∈ ts, t.out = out then "" else streamsOf ran out

/-- Of a command whose redirections are not looked at: a stream with a text has
no target, and the targets of one without are settled. -/
def Skipped (ts : List Target) (out : Bool) (written : String) (before : Files) : Prop :=
  if written = "" then Settled ts out before else ∀ t ∈ ts, t.out ≠ out

/-- When the rule is kept. -/
def Meets (applied : Bool) (ts : List Target) (ran : ExecResult) (before : Files) : Prop :=
  ∀ out, if applied then Poured ts out (streamsOf ran out) before else Skipped ts out (streamsOf ran out) before

theorem streamsOf_unredirected (ts : List Target) (ran : ExecResult) (out : Bool) :
    streamsOf (unredirected ts ran) out = if ∃ t ∈ ts, t.out = out then "" else streamsOf ran out := by
  cases out <;> rfl

theorem rule_poured_iff {ts : List Target} {ran : ExecResult} {before : Files} (h : (ts.map Target.path).Nodup) :
    ShellRule ts ran (unredirected ts ran) before (pour ts (streamsOf ran) before) ↔ Meets true ts ran before := by
  refine forall_congr' fun out => ?_
  rw [streamsOf_unredirected, follows_pour_iff h]
  simp

theorem rule_skipped_iff {ts : List Target} {ran : ExecResult} {before : Files} :
    ShellRule ts ran ran before before ↔ Meets false ts ran before := by
  refine forall_congr' fun out => ?_
  rw [if_neg Bool.false_ne_true, Skipped]
  by_cases hw : streamsOf ran out = ""
  · rw [if_pos hw, hw, follows_nothing_iff]
    simp
  · rw [if_neg hw]
    by_cases ht : ∃ t ∈ ts, t.out = out
    · rw [if_pos ht]
      obtain ⟨t, hmem, hout⟩ := ht
      exact ⟨fun h => absurd h.2 hw, fun h => absurd hout (h t hmem)⟩
    · constructor
      · rintro - t hmem hout
        exact ht ⟨t, hmem, hout⟩
      · intro hno
        refine ⟨fun pre t post hts hout => ?_, (if_neg ht).symm⟩
        exact absurd hout (hno t (hts ▸ by simp))

theorem meets_nothing {ts : List Target} {ran : ExecResult} {before : Files} (hout : ran.stdout = "")
    (herr : ran.stderr = "") : Meets true ts ran before ↔ Meets false ts ran before := by
  refine forall_congr' fun out => ?_
  have hw : streamsOf ran out = "" := by cases out <;> assumption
  simp [Poured, Skipped, hw]

/-- **The rule of the shell is kept just if no stream with a text has two
targets, those of a stream without one are settled, and a command that does
not come to its redirections has none of what it shows.** -/
theorem redirections_iff (hS : Stores V P text I) {builtins : String → Option (Builtin σ)} {node : SimpleCommandNode}
    {stdin : String} {s : State σ} {redirects : List Redirect} {ran : ExecResult} {applied : Bool}
    (h : Ran builtins node stdin s redirects ran applied u) (hI : I u.volume) (hout : ∀ r ∈ redirects, IsOutput r)
    (hP : ∀ r ∈ redirects, P (target s.cwd r).path ∧ (target s.cwd r).path ≠ "/dev/null")
    (hcwd : ∀ r ∈ redirects, P (target u.cwd r).path ∨ (target u.cwd r).path = "/dev/null")
    (hdistinct : ((redirects.map (target s.cwd)).map Target.path).Nodup) :
    (∃ result t, eval (execCommand V builtins (.simple node) stdin) s = (.ok result, t) ∧
      ShellRule (redirects.map (target s.cwd)) ran result (text u.volume) (text t.volume)) ↔
    Meets applied (redirects.map (target s.cwd)) ran (text u.volume) := by
  have heval := eval_execCommand (V := V) h hout
  have hanswer : ∀ {result t}, eval (execCommand V builtins (.simple node) stdin) s = (.ok result, t) →
      ((∃ result t, eval (execCommand V builtins (.simple node) stdin) s = (.ok result, t) ∧
        ShellRule (redirects.map (target s.cwd)) ran result (text u.volume) (text t.volume)) ↔
      ShellRule (redirects.map (target s.cwd)) ran result (text u.volume) (text t.volume)) := by
    intro result t he
    constructor
    · rintro ⟨result', t', he', hrule⟩
      obtain ⟨rfl, rfl⟩ : result = result' ∧ t = t' := by
        rw [he, Prod.mk.injEq, Except.ok.injEq] at he'
        exact he'
      exact hrule
    · exact fun hrule => ⟨result, t, he, hrule⟩
  cases applied with
  | false => rw [hanswer heval, rule_skipped_iff]
  | true =>
    rw [if_pos rfl] at heval
    have hran : u.cwd = s.cwd ∨ ran.stdout = "" ∧ ran.stderr = "" := by
      cases h with
      | returned _ _ _ _ _ cwd => exact cwd
    rcases hran with hsame | ⟨hnone, hnone'⟩
    · obtain ⟨v, heval', -, htext⟩ := eval_applyRedirects ran (u := u) hS hout (by rwa [hsame]) hI
      rw [hanswer (heval.trans heval'), htext, hsame, rule_poured_iff hdistinct]
    · obtain ⟨v, heval', -, htext⟩ := eval_applyRedirects_nothing hS hout hcwd hI hnone hnone'
      rw [hanswer (heval.trans heval'), htext, rule_skipped_iff, meets_nothing hnone hnone']

end Apply

end Smfs.Bash.Shell
