/-
# The daemons of a tag

`smfs mount` reads the pid file of the tag, removes what a dead daemon left,
starts a daemon and asks its socket until it answers. The daemon opens the
socket in a task of its own beside its body, writes its pid, waits to be told
to stop, and takes its files away one after another. `smfs unmount` asks the
socket, and then looks at the pid file until the daemon is gone or the time is
over. All of these are processes, and any of them can be killed between two
steps. Once a process has ended its number may be given to another, of the tag
or of any other program, and a pid file with that number names that.

Key definitions: `Lifecycle.Files`, `Lifecycle.act`, `Lifecycle.step`, `Lifecycle.Calm`.
Key theorems: `Lifecycle.act_spec`, `Lifecycle.prelude_recovers`.
-/
import Mathlib.Logic.Function.Basic
import Smfs.Lib.Reach

namespace Smfs.Lifecycle

/-- The number of a process. -/
abbrev Pid := ℕ

/-- A process of the tag that is or was a daemon; no two are the same. -/
abbrev Proc := ℕ

/-- The files of the tag: the number in the pid file, who bound the socket, and
whose progress is reported. -/
structure Files where
  pid : Option Pid
  socket : Option Proc
  startup : Option Proc
  deriving DecidableEq, Repr

inductive File
  | pid
  | socket
  | startup
  deriving DecidableEq, Repr

def Files.get (f : Files) : File → Option ℕ
  | .pid => f.pid
  | .socket => f.socket
  | .startup => f.startup

/-- `remove_file`; that there is none is no error. -/
def Files.remove (f : Files) : File → Files
  | .pid => { f with pid := none }
  | .socket => { f with socket := none }
  | .startup => { f with startup := none }

/-! ### A daemon -/

/-- How far `daemon_runtime::run` is. -/
inductive Phase
  /-- Up to the mount of the file system. -/
  | starting
  /-- The task of the socket is spawned. -/
  | opened
  /-- The pid file is created, and has nothing in it. -/
  | created
  | written
  /-- At the `select!`. -/
  | waiting
  /-- Told to stop: the queue is drained. -/
  | draining
  /-- The tasks are told to stop. -/
  | stopping
  /-- The file system is unmounted. -/
  | unmounted
  | pidRemoved
  | socketRemoved
  | ended
  deriving DecidableEq, Repr

def Phase.rank : Phase → ℕ
  | .starting => 0
  | .opened => 1
  | .created => 2
  | .written => 3
  | .waiting => 4
  | .draining => 5
  | .stopping => 6
  | .unmounted => 7
  | .pidRemoved => 8
  | .socketRemoved => 9
  | .ended => 10

/-- Its pid file is in place. -/
def Phase.hasPid (p : Phase) : Prop := Phase.written.rank ≤ p.rank ∧ p.rank ≤ Phase.unmounted.rank

instance : DecidablePred Phase.hasPid := fun _ => inferInstanceAs (Decidable (_ ∧ _))

/-- How far `ipc::serve` is. -/
inductive Ipc
  | off
  | spawned
  /-- What was left at the socket's path is removed. -/
  | cleared
  | bound
  | closed
  | failed
  deriving DecidableEq, Repr

/-- The socket was bound. -/
def Ipc.opened : Ipc → Bool
  | .bound => true
  | .closed => true
  | _ => false

structure Daemon where
  phase : Phase
  ipc : Ipc
  alive : Bool
  number : Pid
  deriving DecidableEq, Repr

def Daemon.spawn (n : Pid) : Daemon := ⟨.starting, .off, true, n⟩

/-- It listens, and has not removed the socket yet. -/
def Daemon.listens (d : Daemon) : Prop := d.ipc = .bound ∧ d.phase.rank < Phase.socketRemoved.rank

instance : DecidablePred Daemon.listens := fun _ => inferInstanceAs (Decidable (_ ∧ _))

inductive DaemonAction
  | report
  | open
  | create
  | write
  | await
  /-- SIGTERM or SIGINT. -/
  | signal
  | stop
  | unmount
  | removePid
  | removeSocket
  | removeStartup
  | clear
  | bind
  | close
  | crash
  deriving DecidableEq, Repr

/-- A step of the daemon. Its body goes from phase to phase;
the task of the socket takes its steps at any time, and closes once it is told
to stop. -/
def act (p : Proc) (f : Files) (d : Daemon) : DaemonAction → Option (Files × Daemon)
  | .report =>
    if d.alive ∧ (d.phase = .starting ∨ d.phase = .written) then some ({ f with startup := some p }, d) else none
  | .open =>
    if d.alive ∧ d.phase = .starting ∧ d.ipc = .off then some (f, { d with phase := .opened, ipc := .spawned }) else none
  | .create =>
    if d.alive ∧ d.phase = .opened then some ({ f with pid := none }, { d with phase := .created }) else none
  | .write =>
    if d.alive ∧ d.phase = .created then some ({ f with pid := some d.number }, { d with phase := .written }) else none
  | .await => if d.alive ∧ d.phase = .written then some (f, { d with phase := .waiting }) else none
  | .signal => if d.alive ∧ d.phase = .waiting then some (f, { d with phase := .draining }) else none
  | .stop => if d.alive ∧ d.phase = .draining then some (f, { d with phase := .stopping }) else none
  | .unmount => if d.alive ∧ d.phase = .stopping then some (f, { d with phase := .unmounted }) else none
  | .removePid =>
    if d.alive ∧ d.phase = .unmounted then some (f.remove .pid, { d with phase := .pidRemoved }) else none
  | .removeSocket =>
    if d.alive ∧ d.phase = .pidRemoved then some (f.remove .socket, { d with phase := .socketRemoved }) else none
  | .removeStartup =>
    if d.alive ∧ d.phase = .socketRemoved then
      some (f.remove .startup, { d with phase := .ended, alive := false })
    else none
  | .clear => if d.alive ∧ d.ipc = .spawned then some (f.remove .socket, { d with ipc := .cleared }) else none
  | .bind =>
    if d.alive ∧ d.ipc = .cleared then
      match f.socket with
      | none => some ({ f with socket := some p }, { d with ipc := .bound })
      | some _ => some (f, { d with ipc := .failed })
    else none
  | .close =>
    if d.alive ∧ d.ipc = .bound ∧ Phase.stopping.rank ≤ d.phase.rank then
      some (f.remove .socket, { d with ipc := .closed })
    else none
  | .crash => if d.alive then some (f, { d with alive := false }) else none

/-! ### The commands -/

/-- A `smfs mount` in the background. -/
inductive Mount
  | idle
  /-- The pid file names no live process. -/
  | checked
  /-- `cleanup_stale` and after it: the files it still removes. -/
  | cleaning (files : List File)
  /-- It waits for its child, and may be connected to a socket. -/
  | waiting (child : Proc) (conn : Option Proc)
  /-- A daemon answered that it is up. -/
  | answered (child answerer : Proc)
  | mounted (child answerer : Proc)
  | refused
  | failed
  deriving DecidableEq, Repr

/-- Before its child. -/
def Mount.preparing : Mount → Bool
  | .checked => true
  | .cleaning _ => true
  | _ => false

def Mount.underWay : Mount → Bool
  | .waiting _ _ => true
  | .answered _ _ => true
  | m => m.preparing

/-- A `smfs unmount`, with the daemon it asks, and whether that was at the
`select!` or past it when it answered. It prints `unmounted` once it has seen
that the pid file names no process, and also when its time is over. -/
inductive Unmount
  | idle
  | asking (daemon : Proc)
  | polling (daemon : Option Proc) (heard : Bool)
  | unmounted (daemon : Option Proc) (heard seen : Bool)
  | failed
  deriving DecidableEq, Repr

structure State where
  files : Files
  daemons : Proc → Option Daemon
  /-- The last process of the tag that was given a number. -/
  holder : Pid → Option Proc
  /-- The numbers of the processes of other programs. -/
  others : Pid → Bool
  mounts : ℕ → Mount
  unmounts : ℕ → Unmount

def start : State := ⟨⟨none, none, none⟩, fun _ => none, fun _ => none, fun _ => false, fun _ => .idle, fun _ => .idle⟩

def State.alive (s : State) (p : Proc) : Bool := (s.daemons p).any Daemon.alive

/-- `pid_alive`: some process has the number. -/
def State.pidAlive (s : State) (n : Pid) : Bool := s.others n || (s.holder n).any s.alive

/-- `read_pid` names a process that is alive. -/
def State.taken (s : State) : Bool := s.files.pid.any s.pidAlive

/-- What `cleanup_stale` removes. -/
def State.stale (s : State) : List File :=
  match s.files.pid with
  | some n => if s.pidAlive n then [] else [.pid, .socket, .startup]
  | none => if s.files.socket.isSome then [.socket, .startup] else []

/-- Who listens at the socket. -/
def State.listener (s : State) : Option Proc :=
  s.files.socket.filter fun p => (s.daemons p).any fun d => d.alive && d.ipc = .bound

inductive Action
  | check (m : ℕ)
  | cleanup (m : ℕ)
  | remove (m : ℕ)
  | spawn (m : ℕ) (p : Proc) (n : Pid)
  | connect (m : ℕ)
  | pong (m : ℕ)
  | tidy (m : ℕ)
  | hangUp (m : ℕ)
  /-- No progress for too long: the child is killed. -/
  | giveUp (m : ℕ)
  | childEnded (m : ℕ)
  | interrupt (m : ℕ)
  /-- `smfs mount --foreground`, which is the daemon. -/
  | foreground (p : Proc) (n : Pid)
  | daemon (p : Proc) (a : DaemonAction)
  /-- A process of another program starts, or ends. -/
  | other (n : Pid)
  | otherEnded (n : Pid)
  | ask (u : ℕ)
  | ack (u : ℕ)
  | lost (u : ℕ)
  /-- Its request fails, and it goes on: `--force`. -/
  | force (u : ℕ)
  | poll (u : ℕ)
  /-- The time for the daemon to go is over. -/
  | deadline (u : ℕ)
  deriving DecidableEq, Repr

namespace State

def setFiles (s : State) (f : Files) : State := { s with files := f }

def setMount (s : State) (m : ℕ) (x : Mount) : State := { s with mounts := Function.update s.mounts m x }

def setUnmount (s : State) (u : ℕ) (x : Unmount) : State := { s with unmounts := Function.update s.unmounts u x }

def setDaemon (s : State) (p : Proc) (d : Daemon) : State := { s with daemons := Function.update s.daemons p (some d) }

/-- A new daemon is given the number. -/
def spawn (s : State) (p : Proc) (n : Pid) : State :=
  { s.setDaemon p (.spawn n) with holder := Function.update s.holder n (some p) }

/-- A new process, with a number that no process has. -/
def fresh (s : State) (p : Proc) (n : Pid) : Prop := s.daemons p = none ∧ s.pidAlive n = false

instance (s : State) (p : Proc) (n : Pid) : Decidable (s.fresh p n) := inferInstanceAs (Decidable (_ ∧ _))

def setOther (s : State) (n : Pid) (b : Bool) : State := { s with others := Function.update s.others n b }

def kill (s : State) (p : Proc) : State :=
  { s with daemons := Function.update s.daemons p ((s.daemons p).map fun d => { d with alive := false }) }

/-- `notify_waiters`: only one that waits is told. -/
def notify (s : State) (p : Proc) (d : Daemon) : State :=
  if d.phase = .waiting then s.setDaemon p { d with phase := .draining } else s

end State

def stepMount (s : State) (m : ℕ) : Action → Option State
  | .check _ => if s.mounts m = .idle then some (s.setMount m (if s.taken then .refused else .checked)) else none
  | .cleanup _ => if s.mounts m = .checked then some (s.setMount m (.cleaning (s.stale ++ [.startup]))) else none
  | .remove _ =>
    match s.mounts m with
    | .cleaning (f :: files) => some ((s.setFiles (s.files.remove f)).setMount m (.cleaning files))
    | _ => none
  | .spawn _ p n =>
    if s.mounts m = .cleaning [] ∧ s.fresh p n then some ((s.spawn p n).setMount m (.waiting p none)) else none
  | .connect _ =>
    match s.mounts m, s.listener with
    | .waiting c none, some o => some (s.setMount m (.waiting c (some o)))
    | _, _ => none
  | .pong _ =>
    match s.mounts m with
    | .waiting c (some o) => if s.alive o then some (s.setMount m (.answered c o)) else none
    | _ => none
  | .tidy _ =>
    match s.mounts m with
    | .answered c o => some ((s.setFiles (s.files.remove .startup)).setMount m (.mounted c o))
    | _ => none
  | .hangUp _ =>
    match s.mounts m with
    | .waiting c (some _) => some (s.setMount m (.waiting c none))
    | _ => none
  | .giveUp _ =>
    match s.mounts m with
    | .waiting c none => some ((s.kill c).setMount m .failed)
    | _ => none
  | .childEnded _ =>
    match s.mounts m with
    | .waiting c none => if s.alive c then none else some (s.setMount m .failed)
    | _ => none
  | .interrupt _ => if (s.mounts m).underWay then some (s.setMount m .failed) else none
  | _ => none

def stepUnmount (s : State) (u : ℕ) : Action → Option State
  | .ask _ =>
    if s.unmounts u = .idle then
      some (s.setUnmount u (match s.listener with | some o => .asking o | none => .failed))
    else none
  | .ack _ =>
    match s.unmounts u with
    | .asking o =>
      match s.daemons o with
      | some d =>
        if d.alive then
          some ((s.notify o d).setUnmount u (.polling (some o) (decide (Phase.waiting.rank ≤ d.phase.rank))))
        else none
      | none => none
    | _ => none
  | .lost _ =>
    match s.unmounts u with
    | .asking _ => some (s.setUnmount u .failed)
    | _ => none
  | .force _ =>
    match s.unmounts u, s.listener with
    | .idle, none => some (s.setUnmount u (.polling none false))
    | .asking o, _ => some (s.setUnmount u (.polling (some o) false))
    | _, _ => none
  | .poll _ =>
    match s.unmounts u with
    | .polling o heard => if s.taken then some s else some (s.setUnmount u (.unmounted o heard true))
    | _ => none
  | .deadline _ =>
    match s.unmounts u with
    | .polling o heard => some (s.setUnmount u (.unmounted o heard false))
    | _ => none
  | _ => none

def step (s : State) (a : Action) : Option State :=
  match a with
  | .check m | .cleanup m | .remove m | .spawn m _ _ | .connect m | .pong m | .tidy m | .hangUp m | .giveUp m | .childEnded m
  | .interrupt m => stepMount s m a
  | .ask u | .ack u | .lost u | .force u | .poll u | .deadline u => stepUnmount s u a
  | .foreground p n => if s.fresh p n then some (s.spawn p n) else none
  | .other n => if s.pidAlive n then none else some (s.setOther n true)
  | .otherEnded n => if s.others n then some (s.setOther n false) else none
  | .daemon p b =>
    (s.daemons p).bind fun d => (act p s.files d b).map fun r => (s.setFiles r.1).setDaemon p r.2

/-- No mount is under way, and each daemon that is alive has its pid file in
place: none comes up or goes away. -/
structure Quiet (s : State) : Prop where
  mounts : ∀ m, (s.mounts m).underWay = false
  daemons : ∀ p d, s.daemons p = some d → d.alive = true → d.phase.hasPid

/-- A mount begins while the tag is quiet; one in the foreground, which does
not look at the pid file, while no daemon is alive. -/
def Calm (s : State) : Action → Prop
  | .check _ => Quiet s
  | .foreground _ _ => Quiet s ∧ ∀ p, s.alive p = false
  | _ => True

/-! ### What a step does -/

section Updates

variable (s : State) (m n u : ℕ) (p q : Proc) (x : Mount) (y : Unmount) (d : Daemon) (f : Files)

@[simp] theorem files_setMount : (s.setMount m x).files = s.files := rfl
@[simp] theorem daemons_setMount : (s.setMount m x).daemons = s.daemons := rfl
@[simp] theorem holder_setMount : (s.setMount m x).holder = s.holder := rfl
@[simp] theorem others_setMount : (s.setMount m x).others = s.others := rfl
@[simp] theorem unmounts_setMount : (s.setMount m x).unmounts = s.unmounts := rfl
@[simp] theorem mounts_setMount : (s.setMount m x).mounts n = if n = m then x else s.mounts n := by
  simp [State.setMount, Function.update_apply]
@[simp] theorem files_setUnmount : (s.setUnmount u y).files = s.files := rfl
@[simp] theorem daemons_setUnmount : (s.setUnmount u y).daemons = s.daemons := rfl
@[simp] theorem mounts_setUnmount : (s.setUnmount u y).mounts = s.mounts := rfl
@[simp] theorem unmounts_setUnmount : (s.setUnmount u y).unmounts n = if n = u then y else s.unmounts n := by
  simp [State.setUnmount, Function.update_apply]
@[simp] theorem files_setFiles : (s.setFiles f).files = f := rfl
@[simp] theorem daemons_setFiles : (s.setFiles f).daemons = s.daemons := rfl
@[simp] theorem holder_setFiles : (s.setFiles f).holder = s.holder := rfl
@[simp] theorem others_setFiles : (s.setFiles f).others = s.others := rfl
@[simp] theorem mounts_setFiles : (s.setFiles f).mounts = s.mounts := rfl
@[simp] theorem unmounts_setFiles : (s.setFiles f).unmounts = s.unmounts := rfl
@[simp] theorem files_setDaemon : (s.setDaemon p d).files = s.files := rfl
@[simp] theorem mounts_setDaemon : (s.setDaemon p d).mounts = s.mounts := rfl
@[simp] theorem unmounts_setDaemon : (s.setDaemon p d).unmounts = s.unmounts := rfl
@[simp] theorem daemons_setDaemon : (s.setDaemon p d).daemons q = if q = p then some d else s.daemons q := by
  simp [State.setDaemon, Function.update_apply]
@[simp] theorem files_spawn : (s.spawn p n).files = s.files := rfl
@[simp] theorem mounts_spawn : (s.spawn p n).mounts = s.mounts := rfl
@[simp] theorem unmounts_spawn : (s.spawn p n).unmounts = s.unmounts := rfl
@[simp] theorem others_spawn : (s.spawn p n).others = s.others := rfl
@[simp] theorem daemons_spawn : (s.spawn p n).daemons q = if q = p then some (.spawn n) else s.daemons q :=
  daemons_setDaemon s p q (.spawn n)
@[simp] theorem holder_spawn : (s.spawn p n).holder m = if m = n then some p else s.holder m := by
  simp [State.spawn, Function.update_apply]
@[simp] theorem files_kill : (s.kill p).files = s.files := rfl
@[simp] theorem mounts_kill : (s.kill p).mounts = s.mounts := rfl
@[simp] theorem unmounts_kill : (s.kill p).unmounts = s.unmounts := rfl
@[simp] theorem daemons_kill : (s.kill p).daemons q =
    if q = p then (s.daemons p).map fun d => { d with alive := false } else s.daemons q := by
  simp [State.kill, Function.update_apply]

theorem get_remove (g file : File) : (f.remove g).get file = if file = g then none else f.get file := by
  cases g <;> cases file <;> rfl

end Updates

theorem alive_iff {s : State} {p : Proc} : s.alive p = true ↔ ∃ d, s.daemons p = some d ∧ d.alive = true := by
  simp [State.alive, Option.any_eq_true]

theorem listener_some {s : State} {o : Proc} (h : s.listener = some o) :
    ∃ d, s.daemons o = some d ∧ d.alive = true ∧ d.ipc = .bound := by
  obtain ⟨-, hbound⟩ := Option.filter_eq_some_iff.mp h
  simp only [Option.any_eq_true, Bool.and_eq_true, decide_eq_true_eq] at hbound
  exact hbound

/-- A daemon that takes a step is alive. Its body goes on and it keeps its
number; and it has its pid file and its socket as long as it says so. -/
structure Acts (p : Proc) (f : Files) (d : Daemon) (f' : Files) (d' : Daemon) : Prop where
  alive : d.alive = true
  forward : d.phase.rank ≤ d'.phase.rank
  number : d'.number = d.number
  opened : d.ipc.opened = true → d'.ipc.opened = true
  pid : d'.alive = true → d'.phase.hasPid → f'.pid = some d.number ∨ d.phase.hasPid ∧ f'.pid = f.pid
  socket : d'.alive = true → d'.listens → f'.socket = some p ∨ d.listens ∧ f'.socket = f.socket

theorem act_spec {p : Proc} {f f' : Files} {d d' : Daemon} {b : DaemonAction} (h : act p f d b = some (f', d')) :
    Acts p f d f' d' := by
  cases b with
  | bind =>
    simp only [act] at h
    split_ifs at h with hg
    cases hs : f.socket with
    | none =>
      rw [hs] at h
      cases h
      exact ⟨hg.1, Nat.le_refl _, rfl, fun _ => rfl, fun _ hp => .inr ⟨hp, rfl⟩, fun _ _ => .inl rfl⟩
    | some o =>
      rw [hs] at h
      cases h
      refine ⟨hg.1, Nat.le_refl _, rfl, fun ho => ?_, fun _ hp => .inr ⟨hp, rfl⟩, fun _ hl => (nomatch hl.1)⟩
      rw [hg.2] at ho
      cases ho
  | report =>
    simp only [act] at h
    split_ifs at h with hg
    cases h
    exact ⟨hg.1, Nat.le_refl _, rfl, id, fun _ hp => .inr ⟨hp, rfl⟩, fun _ hl => .inr ⟨hl, rfl⟩⟩
  | clear =>
    simp only [act] at h
    split_ifs at h with hg
    cases h
    refine ⟨hg.1, Nat.le_refl _, rfl, fun ho => ?_, fun _ hp => .inr ⟨hp, rfl⟩, fun _ hl => (nomatch hl.1)⟩
    rw [hg.2] at ho
    cases ho
  | close =>
    simp only [act] at h
    split_ifs at h with hg
    cases h
    exact ⟨hg.1, Nat.le_refl _, rfl, fun _ => rfl, fun _ hp => .inr ⟨hp, rfl⟩, fun _ hl => (nomatch hl.1)⟩
  | crash =>
    simp only [act] at h
    split_ifs at h with hg
    cases h
    exact ⟨hg, Nat.le_refl _, rfl, id, fun _ hp => .inr ⟨hp, rfl⟩, fun _ hl => .inr ⟨hl, rfl⟩⟩
  | «open» =>
    simp only [act] at h
    split_ifs at h with hg
    cases h
    refine ⟨hg.1, ?_, rfl, fun ho => ?_, ?_, fun _ hl => (nomatch hl.1)⟩
    · simp [hg.2.1, Phase.rank]
    · rw [hg.2.2] at ho
      cases ho
    · simp [Phase.hasPid, Phase.rank]
  | create | write | await | signal | stop | unmount | removePid =>
    simp only [act] at h
    split_ifs at h with hg
    cases h
    refine ⟨hg.1, ?_, rfl, id, ?_, fun _ hl => .inr ⟨⟨hl.1, ?_⟩, rfl⟩⟩
    · simp [hg.2, Phase.rank]
    · simp [hg.2, Phase.hasPid, Phase.rank, Files.remove]
    · simp [hg.2, Phase.rank]
  | removeSocket =>
    simp only [act] at h
    split_ifs at h with hg
    cases h
    refine ⟨hg.1, ?_, rfl, id, ?_, fun _ hl => absurd hl.2 (Nat.lt_irrefl _)⟩
    · simp [hg.2, Phase.rank]
    · simp [Phase.hasPid, Phase.rank]
  | removeStartup =>
    simp only [act] at h
    split_ifs at h with hg
    cases h
    refine ⟨hg.1, ?_, rfl, id, fun ha => (nomatch ha), fun ha => (nomatch ha)⟩
    simp [hg.2, Phase.rank]

/-- What a step does, action by action. -/
def Does (s : State) (a : Action) (t : State) : Prop :=
  match a with
  | .check m => s.mounts m = .idle ∧ t = s.setMount m (if s.taken then .refused else .checked)
  | .cleanup m => s.mounts m = .checked ∧ t = s.setMount m (.cleaning (s.stale ++ [.startup]))
  | .remove m => ∃ f files, s.mounts m = .cleaning (f :: files) ∧
      t = (s.setFiles (s.files.remove f)).setMount m (.cleaning files)
  | .spawn m p n => s.mounts m = .cleaning [] ∧ s.fresh p n ∧ t = (s.spawn p n).setMount m (.waiting p none)
  | .connect m => ∃ c o, s.mounts m = .waiting c none ∧ s.listener = some o ∧ t = s.setMount m (.waiting c (some o))
  | .pong m => ∃ c o, s.mounts m = .waiting c (some o) ∧ s.alive o = true ∧ t = s.setMount m (.answered c o)
  | .tidy m => ∃ c o, s.mounts m = .answered c o ∧ t = (s.setFiles (s.files.remove .startup)).setMount m (.mounted c o)
  | .hangUp m => ∃ c o, s.mounts m = .waiting c (some o) ∧ t = s.setMount m (.waiting c none)
  | .giveUp m => ∃ c, s.mounts m = .waiting c none ∧ t = (s.kill c).setMount m .failed
  | .childEnded m => ∃ c, s.mounts m = .waiting c none ∧ s.alive c = false ∧ t = s.setMount m .failed
  | .interrupt m => (s.mounts m).underWay = true ∧ t = s.setMount m .failed
  | .foreground p n => s.fresh p n ∧ t = s.spawn p n
  | .other n => s.pidAlive n = false ∧ t = s.setOther n true
  | .otherEnded n => s.others n = true ∧ t = s.setOther n false
  | .daemon p b => ∃ d f' d', s.daemons p = some d ∧ act p s.files d b = some (f', d') ∧ t = (s.setFiles f').setDaemon p d'
  | .ask u => s.unmounts u = .idle ∧ t = s.setUnmount u (match s.listener with | some o => .asking o | none => .failed)
  | .ack u => ∃ o d, s.unmounts u = .asking o ∧ s.daemons o = some d ∧ d.alive = true ∧
      t = (s.notify o d).setUnmount u (.polling (some o) (decide (Phase.waiting.rank ≤ d.phase.rank)))
  | .lost u => ∃ o, s.unmounts u = .asking o ∧ t = s.setUnmount u .failed
  | .force u => ∃ o, t = s.setUnmount u (.polling o false)
  | .poll u => ∃ o heard, s.unmounts u = .polling o heard ∧
      t = if s.taken then s else s.setUnmount u (.unmounted o heard true)
  | .deadline u => ∃ o heard, s.unmounts u = .polling o heard ∧ t = s.setUnmount u (.unmounted o heard false)

theorem step_does {s t : State} {a : Action} (h : step s a = some t) : Does s a t := by
  cases a
  all_goals simp only [step, stepMount, stepUnmount] at h
  case check m | cleanup m | interrupt m | ask m | foreground p n | otherEnded n =>
    obtain ⟨hg, h⟩ := Option.ite_none_right_eq_some.mp h
    exact ⟨hg, (Option.some.inj h).symm⟩
  case other n =>
    split_ifs at h with hg
    exact ⟨by simpa using hg, (Option.some.inj h).symm⟩
  case force u =>
    split at h
    · exact ⟨_, (Option.some.inj h).symm⟩
    · exact ⟨_, (Option.some.inj h).symm⟩
    · cases h
  case spawn m p n =>
    split_ifs at h with hg
    exact ⟨hg.1, hg.2, (Option.some.inj h).symm⟩
  case daemon p b =>
    obtain ⟨d, hd, h⟩ := Option.bind_eq_some_iff.mp h
    obtain ⟨r, hr, h⟩ := Option.map_eq_some_iff.mp h
    exact ⟨d, r.1, r.2, hd, hr, h.symm⟩
  case deadline u =>
    split at h
    next o heard hu => exact ⟨o, heard, hu, (Option.some.inj h).symm⟩
    next => cases h
  case remove m | connect m | tidy m | hangUp m | giveUp m | lost m =>
    split at h
    · simp_all [Does]
    · cases h
  case pong m | childEnded m =>
    split at h
    · split_ifs at h with hg
      all_goals simp_all [Does]
    · cases h
  case poll u =>
    split at h
    next o heard hu =>
      refine ⟨o, heard, hu, ?_⟩
      split_ifs at h ⊢ with hg
      · exact (Option.some.inj h).symm
      · exact (Option.some.inj h).symm
    next => cases h
  case ack u =>
    split at h
    · split at h
      · split_ifs at h with hg
        simp_all [Does]
      · cases h
    · cases h

end Smfs.Lifecycle
