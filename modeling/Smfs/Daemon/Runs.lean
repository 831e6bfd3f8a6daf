/-
# At most one daemon

The pid file is the lock of a tag, but a mount that finds it free takes it
only when its daemon has come up, and a daemon that gives it up has its socket
to remove yet. So the mounts are taken to begin while the tag is quiet
(`Calm`); between them every process takes its steps, and crashes, at any time.

The invariant has four parts. `Held`: no two daemons are alive, and one that
says so has its pid file and its socket. `Numbered`: a daemon that is alive
has its number. `Mounting`: while a mount prepares no daemon is alive, and
while it waits only its child is. `Hears`: a daemon that heard that it is to
stop does not go back.

Key definitions: `Lifecycle.Held`, `Lifecycle.Numbered`, `Lifecycle.Mounting`, `Lifecycle.Hears`.
Key theorems: `Lifecycle.valid_step`, `Lifecycle.one_daemon`, `Lifecycle.unmount_sound`, `Lifecycle.mount_recovers`.
-/
import Smfs.Daemon

namespace Smfs.Lifecycle

open Trans

variable {s t : State}

structure Held (s : State) : Prop where
  one : ∀ p q, s.alive p = true → s.alive q = true → p = q
  pid : ∀ p d, s.daemons p = some d → d.alive = true → d.phase.hasPid → s.files.pid = some d.number
  socket : ∀ p d, s.daemons p = some d → d.alive = true → d.listens → s.files.socket = some p

/-- The number of a daemon that is alive is its own. -/
def Numbered (s : State) : Prop := ∀ p d, s.daemons p = some d → d.alive = true → s.holder d.number = some p

/-- The daemon has bound its socket. -/
def Opened (s : State) (p : Proc) : Prop := ∃ d, s.daemons p = some d ∧ d.ipc.opened = true

/-- What a mount may rely on. -/
def Fits (s : State) : Mount → Prop
  | .checked | .cleaning _ => ∀ p, s.alive p = false
  | .waiting c conn => (∀ p, s.alive p = true → p = c) ∧ ∀ o ∈ conn, o = c ∧ Opened s c
  | .answered c o => (∀ p, s.alive p = true → p = c) ∧ o = c ∧ Opened s c
  | .mounted c o => o = c ∧ Opened s c
  | _ => True

structure Mounting (s : State) : Prop where
  fits : ∀ m, Fits s (s.mounts m)
  alone : ∀ m n, (s.mounts m).underWay = true → (s.mounts n).underWay = true → m = n

/-- The daemon is at the `select!` or past it. -/
def Heard (s : State) (p : Proc) : Prop := ∃ d, s.daemons p = some d ∧ Phase.waiting.rank ≤ d.phase.rank

/-- The daemon has let go of the mount and the pid file, or is dead. -/
def Gone (s : State) (p : Proc) : Prop :=
  ∃ d, s.daemons p = some d ∧ (d.alive = true → Phase.pidRemoved.rank ≤ d.phase.rank)

def Hears (s : State) : Unmount → Prop
  | .polling (some o) true => Heard s o
  | .unmounted (some o) true true => Gone s o
  | _ => True

structure Valid (s : State) : Prop where
  held : Held s
  numbered : Numbered s
  mounting : Mounting s
  told : ∀ u, Hears s (s.unmounts u)

/-! ### Frames -/

/-- Daemons go on with their numbers, and do not rise from the dead. -/
def Forward (s t : State) : Prop :=
  ∀ p d, s.daemons p = some d → ∃ d', t.daemons p = some d' ∧ d.phase.rank ≤ d'.phase.rank ∧
    (d'.alive = true → d.alive = true) ∧ d'.number = d.number ∧ (d.ipc.opened = true → d'.ipc.opened = true)

theorem Forward.of_eq (h : t.daemons = s.daemons) : Forward s t :=
  fun p d hd => ⟨d, by rw [h, hd], Nat.le_refl _, id, rfl, id⟩

theorem Hears.forward (hst : Forward s t) {y : Unmount} (h : Hears s y) : Hears t y := by
  cases y with
  | polling o heard =>
    cases o with
    | none => trivial
    | some o =>
      cases heard with
      | false => trivial
      | true =>
        obtain ⟨d, hd, hrank⟩ := h
        obtain ⟨d', hd', hle, -⟩ := hst o d hd
        exact ⟨d', hd', Nat.le_trans hrank hle⟩
  | unmounted o heard seen =>
    cases o with
    | none => trivial
    | some o =>
      cases heard with
      | false => trivial
      | true =>
        cases seen with
        | false => trivial
        | true =>
          obtain ⟨d, hd, hgone⟩ := h
          obtain ⟨d', hd', hle, halive, -⟩ := hst o d hd
          exact ⟨d', hd', fun ha => Nat.le_trans (hgone (halive ha)) hle⟩
  | idle | asking | failed => trivial

theorem Opened.forward (hst : Forward s t) {p : Proc} (h : Opened s p) : Opened t p := by
  obtain ⟨d, hd, ho⟩ := h
  obtain ⟨d', hd', -, -, -, hopened⟩ := hst p d hd
  exact ⟨d', hd', hopened ho⟩

/-- A mount that is not under way relies on nothing but its daemon. -/
theorem Fits.of_not_underWay (hst : Forward s t) {x : Mount} (hx : x.underWay = false) (h : Fits s x) : Fits t x := by
  cases x with
  | checked | cleaning files | waiting c conn | answered c o => cases hx
  | mounted c o => exact ⟨h.1, h.2.forward hst⟩
  | idle | refused | failed => trivial

/-- Daemons go on, and none comes to life. -/
structure Quieter (s t : State) : Prop where
  forward : Forward s t
  alive : ∀ p, t.alive p = true → s.alive p = true

theorem Quieter.of_eq (hd : t.daemons = s.daemons) : Quieter s t where
  forward := .of_eq hd
  alive p h := by
    unfold State.alive at h ⊢
    rwa [hd] at h

theorem Quieter.dead (h : Quieter s t) (hs : ∀ p, s.alive p = false) (p : Proc) : t.alive p = false := by
  by_contra hp
  have halive := h.alive p (by simpa using hp)
  rw [hs p] at halive
  cases halive

theorem Fits.quieter (hst : Quieter s t) {x : Mount} (h : Fits s x) : Fits t x := by
  cases x with
  | checked | cleaning files => exact hst.dead h
  | waiting c conn =>
    exact ⟨fun p hp => h.1 p (hst.alive p hp), fun o ho => ⟨(h.2 o ho).1, (h.2 o ho).2.forward hst.forward⟩⟩
  | answered c o => exact ⟨fun p hp => h.1 p (hst.alive p hp), h.2.1, h.2.2.forward hst.forward⟩
  | mounted c o => exact ⟨h.1, h.2.forward hst.forward⟩
  | idle | refused | failed => trivial

theorem Held.quieter (h : Held s) (hst : Quieter s t) (hpid : ∀ p d, t.daemons p = some d → d.alive = true →
    d.phase.hasPid → t.files.pid = some d.number)
    (hsocket : ∀ p d, t.daemons p = some d → d.alive = true → d.listens → t.files.socket = some p) : Held t :=
  ⟨fun p q hp hq => h.one p q (hst.alive p hp) (hst.alive q hq), hpid, hsocket⟩

/-- Numbers stay with the daemons that have them. -/
theorem Numbered.forward (h : Numbered s) (hst : Quieter s t) (hholder : t.holder = s.holder) : Numbered t := by
  intro p d hd ha
  obtain ⟨e, he, -⟩ := alive_iff.mp (hst.alive p (alive_iff.mpr ⟨d, hd, ha⟩))
  obtain ⟨d', hd', -, halive, hnumber, -⟩ := hst.forward p e he
  rw [hd] at hd'
  cases hd'
  rw [hholder, hnumber]
  exact h p e he (halive ha)

/-- The mounts are as they were, but for one that was under way and may rely on
what it does now. -/
theorem Mounting.move (h : Mounting s) (hst : Quieter s t) {m : ℕ} {x : Mount} (hx : Fits t x)
    (hw : (s.mounts m).underWay = true) (hm : ∀ n, t.mounts n = if n = m then x else s.mounts n) : Mounting t := by
  have hback : ∀ n, (t.mounts n).underWay = true → (s.mounts n).underWay = true := by
    intro n hn
    rw [hm n] at hn
    split_ifs at hn with he
    · rwa [he]
    · exact hn
  refine ⟨fun n => ?_, fun n k hn hk => h.alone n k (hback n hn) (hback k hk)⟩
  rw [hm n]
  split_ifs
  · exact hx
  · exact (h.fits n).quieter hst

theorem Mounting.same (h : Mounting s) (hst : Quieter s t) (hm : t.mounts = s.mounts) : Mounting t := by
  refine ⟨fun n => ?_, ?_⟩
  · rw [hm]
    exact (h.fits n).quieter hst
  · rw [hm]
    exact h.alone

/-! ### The steps -/

theorem taken_iff : s.taken = true ↔ ∃ n, s.files.pid = some n ∧ s.pidAlive n = true := by
  simp [State.taken, Option.any_eq_true]

theorem pidAlive_iff {n : Pid} :
    s.pidAlive n = true ↔ s.others n = true ∨ ∃ p, s.holder n = some p ∧ s.alive p = true := by
  simp [State.pidAlive, Option.any_eq_true]

/-- The number of a daemon that is alive is taken. -/
theorem Numbered.pidAlive (h : Numbered s) {p : Proc} {d : Daemon} (hd : s.daemons p = some d) (ha : d.alive = true) :
    s.pidAlive d.number = true :=
  pidAlive_iff.mpr (.inr ⟨p, h p d hd ha, alive_iff.mpr ⟨d, hd, ha⟩⟩)

/-- **A mount is refused exactly if a daemon of the tag is alive, or another
program has the number in the pid file**, as long as the tag is quiet. -/
theorem Valid.refused (h : Valid s) (hq : Quiet s) :
    s.taken = true ↔ (∃ p, s.alive p = true) ∨ ∃ n, s.files.pid = some n ∧ s.others n = true := by
  rw [taken_iff]
  constructor
  · rintro ⟨n, hn, halive⟩
    rcases pidAlive_iff.mp halive with ho | ⟨p, -, hp⟩
    · exact .inr ⟨n, hn, ho⟩
    · exact .inl ⟨p, hp⟩
  · rintro (⟨p, hp⟩ | ⟨n, hn, ho⟩)
    · obtain ⟨d, hd, ha⟩ := alive_iff.mp hp
      exact ⟨d.number, h.held.pid p d hd ha (hq.daemons p d hd ha), h.numbered.pidAlive hd ha⟩
    · exact ⟨n, hn, pidAlive_iff.mpr (.inl ho)⟩

theorem alive_setDaemon {p q : Proc} {d : Daemon} :
    (s.setDaemon p d).alive q = if q = p then d.alive else s.alive q := by
  unfold State.alive
  rw [daemons_setDaemon]
  split_ifs <;> rfl

theorem alive_spawn {p q : Proc} {n : Pid} : (s.spawn p n).alive q = if q = p then true else s.alive q :=
  @alive_setDaemon s p q (.spawn n)

theorem alive_kill {p q : Proc} : (s.kill p).alive q = true ↔ q ≠ p ∧ s.alive q = true := by
  unfold State.alive
  rw [daemons_kill]
  by_cases h : q = p
  · cases hd : s.daemons p <;> simp [h, hd]
  · simp [h]

theorem forward_set {p : Proc} {d d' : Daemon} (hd : s.daemons p = some d) (hrank : d.phase.rank ≤ d'.phase.rank)
    (halive : d'.alive = true → d.alive = true) (hnumber : d'.number = d.number)
    (hopened : d.ipc.opened = true → d'.ipc.opened = true) : Forward s (s.setDaemon p d') := by
  intro q e he
  rw [daemons_setDaemon]
  split_ifs with hq
  · subst hq
    rw [hd] at he
    cases he
    exact ⟨d', rfl, hrank, halive, hnumber, hopened⟩
  · exact ⟨e, he, Nat.le_refl _, id, rfl, id⟩

/-- A daemon that takes a step was alive. -/
theorem quieter_act {p : Proc} {d d' : Daemon} {f : Files} (hd : s.daemons p = some d) (h : Acts p s.files d f d') :
    Quieter s ((s.setFiles f).setDaemon p d') := by
  have hp : s.alive p = true := alive_iff.mpr ⟨d, hd, h.alive⟩
  have hforward : Forward s (s.setDaemon p d') := forward_set hd h.forward (fun _ => h.alive) h.number h.opened
  refine ⟨hforward, fun q hq => ?_⟩
  rw [alive_setDaemon] at hq
  split_ifs at hq with he
  · rwa [he]
  · exact hq

/-- The new daemon is no other. -/
theorem forward_spawn {p : Proc} {n : Pid} (hp : s.daemons p = none) : Forward s (s.spawn p n) := by
  intro q e he
  rw [daemons_spawn]
  split_ifs with hq
  · rw [hq, hp] at he
    cases he
  · exact ⟨e, he, Nat.le_refl _, id, rfl, id⟩

theorem quieter_kill (c : Proc) : Quieter s (s.kill c) := by
  refine ⟨fun q e he => ?_, fun _ hq => (alive_kill.mp hq).2⟩
  rw [daemons_kill]
  split_ifs with hq
  · subst hq
    rw [he]
    exact ⟨_, rfl, Nat.le_refl _, fun h => (nomatch h), rfl, id⟩
  · exact ⟨e, he, Nat.le_refl _, id, rfl, id⟩

/-- A step of a mount alone. -/
theorem Valid.setMount (h : Valid s) {m : ℕ} {x : Mount} (hw : (s.mounts m).underWay = true) (hx : Fits s x) :
    Valid (s.setMount m x) where
  held := ⟨h.held.one, h.held.pid, h.held.socket⟩
  numbered := h.numbered
  mounting := h.mounting.move (.of_eq rfl) (Fits.quieter (.of_eq rfl) hx) hw fun n => mounts_setMount s m n x
  told u := Hears.forward (.of_eq rfl) (h.told u)

theorem Valid.setUnmount (h : Valid s) {u : ℕ} {y : Unmount} (hy : Hears s y) : Valid (s.setUnmount u y) where
  held := ⟨h.held.one, h.held.pid, h.held.socket⟩
  numbered := h.numbered
  mounting := h.mounting.same (.of_eq rfl) rfl
  told v := by
    rw [unmounts_setUnmount]
    split_ifs
    · exact Hears.forward (.of_eq rfl) hy
    · exact Hears.forward (.of_eq rfl) (h.told v)

/-- Processes of other programs come and go. -/
theorem Valid.setOther (h : Valid s) (n : Pid) (b : Bool) : Valid (s.setOther n b) where
  held := ⟨h.held.one, h.held.pid, h.held.socket⟩
  numbered := h.numbered
  mounting := h.mounting.same (.of_eq rfl) rfl
  told u := Hears.forward (.of_eq rfl) (h.told u)

/-- A mount that begins finds the tag free or is refused. -/
theorem Valid.check (h : Valid s) (hq : Quiet s) (m : ℕ) :
    Valid (s.setMount m (if s.taken then .refused else .checked)) := by
  have hfits : Fits s (if s.taken then .refused else .checked) := by
    split_ifs with ht
    · trivial
    · intro p
      by_contra hp
      exact ht ((h.refused hq).mpr (.inl ⟨p, by simpa using hp⟩))
  refine ⟨⟨h.held.one, h.held.pid, h.held.socket⟩, h.numbered, ⟨fun n => ?_, fun n k hn hk => ?_⟩, fun u => Hears.forward (.of_eq rfl) (h.told u)⟩
  · rw [mounts_setMount]
    by_cases hn : n = m
    · rw [if_pos hn]
      exact Fits.quieter (.of_eq rfl) hfits
    · rw [if_neg hn]
      exact Fits.quieter (.of_eq rfl) (h.mounting.fits n)
  · rw [mounts_setMount] at hn hk
    have hself : ∀ i, (if i = m then (if s.taken then Mount.refused else .checked) else s.mounts i).underWay = true →
        i = m := by
      intro i hi
      by_contra hne
      rw [if_neg hne, hq.mounts i] at hi
      cases hi
    rw [hself n hn, hself k hk]

/-- A mount that cleans up goes on while no daemon is alive. -/
theorem Valid.cleans (h : Valid s) {m : ℕ} {x : Mount} {files : List File} (hm : s.mounts m = x)
    (hw : x.underWay = true) (hdead : Fits s x → ∀ p, s.alive p = false) (f : Files) :
    Valid ((s.setFiles f).setMount m (.cleaning files)) := by
  have hall : ∀ p, s.alive p = false := hdead (hm ▸ h.mounting.fits m)
  have hno {p : Proc} {d : Daemon} (hd : s.daemons p = some d) (ha : d.alive = true) : False := by
    have hp : s.alive p = true := alive_iff.mpr ⟨d, hd, ha⟩
    rw [hall p] at hp
    cases hp
  refine ⟨⟨h.held.one, fun _ _ hd ha => (hno hd ha).elim, fun _ _ hd ha => (hno hd ha).elim⟩, h.numbered, ?_,
    fun u => Hears.forward (.of_eq rfl) (h.told u)⟩
  have hx : Fits ((s.setFiles f).setMount m (.cleaning files)) (.cleaning files) := hall
  exact h.mounting.move (.of_eq rfl) hx (by rw [hm]; exact hw) fun n => mounts_setMount _ m n _

theorem Valid.tidy (h : Valid s) {m : ℕ} {c o : Proc} (hm : s.mounts m = .answered c o) :
    Valid ((s.setFiles (s.files.remove .startup)).setMount m (.mounted c o)) := by
  have hfits : Fits s (.answered c o) := hm ▸ h.mounting.fits m
  refine ⟨⟨h.held.one, h.held.pid, h.held.socket⟩, h.numbered, ?_, fun u => Hears.forward (.of_eq rfl) (h.told u)⟩
  have hx : Fits ((s.setFiles (s.files.remove .startup)).setMount m (.mounted c o)) (.mounted c o) := hfits.2
  exact h.mounting.move (.of_eq rfl) hx (by rw [hm]; rfl) fun n => mounts_setMount _ m n _

/-- A daemon is born while no other is alive, with a number that no process has. -/
theorem Valid.born (h : Valid s) {p : Proc} {n : Pid} (hp : s.fresh p n) (hdead : ∀ q, s.alive q = false)
    (hw : ∀ m, (s.mounts m).underWay = false) : Valid (s.spawn p n) := by
  have halive : ∀ q, (s.spawn p n).alive q = true → q = p := by
    intro q hq
    by_contra hne
    rw [alive_spawn, if_neg hne, hdead q] at hq
    cases hq
  have hborn {q : Proc} {d : Daemon} (hd : (s.spawn p n).daemons q = some d) (ha : d.alive = true) :
      q = p ∧ d = .spawn n := by
    obtain rfl := halive q (alive_iff.mpr ⟨d, hd, ha⟩)
    rw [daemons_spawn, if_pos rfl] at hd
    exact ⟨rfl, (Option.some.inj hd).symm⟩
  refine ⟨⟨fun q r hq hr => (halive q hq).trans (halive r hr).symm, fun q d hd ha hpid => ?_, fun q d hd ha hl => ?_⟩,
    fun q d hd ha => ?_, ⟨fun m => ?_, ?_⟩, fun u => Hears.forward (forward_spawn hp.1) (h.told u)⟩
  · obtain ⟨rfl, rfl⟩ := hborn hd ha
    exact absurd hpid (by simp [Daemon.spawn, Phase.hasPid, Phase.rank])
  · obtain ⟨rfl, rfl⟩ := hborn hd ha
    cases hl.1
  · obtain ⟨rfl, rfl⟩ := hborn hd ha
    rw [holder_spawn]
    exact if_pos rfl
  · exact (h.mounting.fits m).of_not_underWay (forward_spawn hp.1) (hw m)
  · intro m n hm _
    rw [mounts_spawn, hw m] at hm
    cases hm

/-- A mount that has cleaned up starts its daemon. -/
theorem Valid.spawn (h : Valid s) {m : ℕ} {p : Proc} {n : Pid} (hm : s.mounts m = .cleaning []) (hp : s.fresh p n) :
    Valid ((s.spawn p n).setMount m (.waiting p none)) := by
  have hdead : ∀ q, s.alive q = false := (hm ▸ h.mounting.fits m : Fits s (.cleaning []))
  have hw : (s.mounts m).underWay = true := by rw [hm]; rfl
  have hother : ∀ k, k ≠ m → (s.mounts k).underWay = false := by
    intro k hne
    by_contra hk
    exact hne (h.mounting.alone k m (by simpa using hk) hw)
  -- the others are under way in neither state, so nothing they rely on changes
  have hmid : Valid ((s.setMount m .failed).spawn p n) := by
    have hfailed : Fits s .failed := trivial
    refine (h.setMount hw hfailed).born hp hdead fun k => ?_
    rw [mounts_setMount]
    by_cases hk : k = m
    · rw [if_pos hk]
      rfl
    · rw [if_neg hk]
      exact hother k hk
  refine ⟨⟨hmid.held.one, hmid.held.pid, hmid.held.socket⟩, hmid.numbered, ⟨fun k => ?_, fun k l hk hl => ?_⟩, hmid.told⟩
  · rw [mounts_setMount]
    by_cases hk : k = m
    · rw [if_pos hk]
      refine ⟨fun q hq => ?_, by simp⟩
      by_contra hne
      have hq' : (s.spawn p n).alive q = true := hq
      rw [alive_spawn, if_neg hne, hdead q] at hq'
      cases hq'
    · rw [if_neg hk]
      exact (h.mounting.fits k).of_not_underWay (forward_spawn hp.1) (hother k hk)
  · rw [mounts_setMount] at hk hl
    have hself : ∀ i, (if i = m then Mount.waiting p none else (s.spawn p n).mounts i).underWay = true → i = m := by
      intro i hi
      by_contra hne
      rw [if_neg hne, mounts_spawn, hother i hne] at hi
      cases hi
    rw [hself k hk, hself l hl]

/-- A step of a daemon. -/
theorem Valid.act (h : Valid s) {p : Proc} {d d' : Daemon} {f : Files} (hd : s.daemons p = some d)
    (ha : Acts p s.files d f d') : Valid ((s.setFiles f).setDaemon p d') := by
  have hst := quieter_act hd ha
  have hp : s.alive p = true := alive_iff.mpr ⟨d, hd, ha.alive⟩
  -- a daemon that is alive then is the one that took the step
  have hown {q : Proc} {e : Daemon} (he : ((s.setFiles f).setDaemon p d').daemons q = some e) (hlive : e.alive = true) :
      q = p ∧ e = d' := by
    obtain rfl := h.held.one q p (hst.alive q (alive_iff.mpr ⟨e, he, hlive⟩)) hp
    rw [daemons_setDaemon, if_pos rfl] at he
    exact ⟨rfl, (Option.some.inj he).symm⟩
  refine ⟨h.held.quieter hst (fun q e he hlive hpid => ?_) (fun q e he hlive hl => ?_), h.numbered.forward hst rfl,
    h.mounting.same hst rfl, fun u => (h.told u).forward hst.forward⟩
  · obtain ⟨rfl, rfl⟩ := hown he hlive
    rw [ha.number]
    rcases ha.pid hlive hpid with hf | ⟨hheld, hf⟩
    · exact hf
    · exact hf.trans (h.held.pid q d hd ha.alive hheld)
  · obtain ⟨rfl, rfl⟩ := hown he hlive
    rcases ha.socket hlive hl with hf | ⟨hheld, hf⟩
    · exact hf
    · exact hf.trans (h.held.socket q d hd ha.alive hheld)

theorem Valid.giveUp (h : Valid s) {m : ℕ} {c : Proc} (hm : s.mounts m = .waiting c none) :
    Valid ((s.kill c).setMount m .failed) := by
  have hst : Quieter s ((s.kill c).setMount m .failed) := ⟨(quieter_kill c).forward, (quieter_kill c).alive⟩
  have hold {q : Proc} {e : Daemon} (he : ((s.kill c).setMount m .failed).daemons q = some e) (hlive : e.alive = true) :
      s.daemons q = some e := by
    have hq : (s.kill c).daemons q = some e := he
    rw [daemons_kill] at hq
    by_cases hqc : q = c
    · rw [if_pos hqc] at hq
      obtain ⟨e', -, rfl⟩ := Option.map_eq_some_iff.mp hq
      cases hlive
    · rwa [if_neg hqc] at hq
  refine ⟨h.held.quieter hst (fun q e he hlive hpid => h.held.pid q e (hold he hlive) hlive hpid)
    (fun q e he hlive hl => h.held.socket q e (hold he hlive) hlive hl), h.numbered.forward hst rfl, ?_,
    fun u => (h.told u).forward hst.forward⟩
  have hx : Fits ((s.kill c).setMount m .failed) .failed := trivial
  exact h.mounting.move hst hx (by rw [hm]; rfl) fun n => mounts_setMount _ m n _

/-- An answer to `unmount`: a daemon that waits is told. -/
theorem Valid.ack (h : Valid s) {u : ℕ} {o : Proc} {d : Daemon} (hd : s.daemons o = some d) (ha : d.alive = true) :
    Valid ((s.notify o d).setUnmount u (.polling (some o) (decide (Phase.waiting.rank ≤ d.phase.rank)))) := by
  unfold State.notify
  split_ifs with hw
  · have hacts : Acts o s.files d s.files { d with phase := .draining } := by
      refine ⟨ha, ?_, rfl, id, fun _ _ => .inr ⟨?_, rfl⟩, fun _ hl => .inr ⟨⟨hl.1, ?_⟩, rfl⟩⟩
      · rw [hw]
        exact Nat.le_succ _
      · rw [hw]
        decide
      · rw [hw]
        decide
    have hmid : Valid (s.setDaemon o { d with phase := .draining }) := h.act hd hacts
    apply hmid.setUnmount
    rw [hw]
    exact ⟨{ d with phase := .draining }, by simp, Nat.le_succ _⟩
  · apply h.setUnmount
    by_cases hrank : Phase.waiting.rank ≤ d.phase.rank
    · rw [decide_eq_true hrank]
      exact ⟨d, hd, hrank⟩
    · rw [decide_eq_false hrank]
      trivial

/-- The pid file names no live process, so the daemon that heard is gone. -/
theorem Valid.poll (h : Valid s) {u : ℕ} {o : Option Proc} {heard : Bool} (hu : s.unmounts u = .polling o heard)
    (ht : s.taken = false) : Valid (s.setUnmount u (.unmounted o heard true)) := by
  apply h.setUnmount
  cases o with
  | none => trivial
  | some o =>
    cases heard with
    | false => trivial
    | true =>
      obtain ⟨d, hd, hrank⟩ : Hears s (.polling (some o) true) := hu ▸ h.told u
      refine ⟨d, hd, fun ha => ?_⟩
      by_contra hlt
      have hpid : d.phase.hasPid := by
        simp only [Phase.rank, Nat.not_le] at hlt hrank
        exact ⟨by simp only [Phase.rank]; omega, by simp only [Phase.rank]; omega⟩
      have htaken := taken_iff.mpr ⟨d.number, h.held.pid o d hd ha hpid, h.numbered.pidAlive hd ha⟩
      rw [ht] at htaken
      cases htaken

/-- **Every step keeps the invariant**, if a mount begins only while the tag is quiet. -/
theorem valid_step (h : Valid s) {a : Action} (hcalm : Calm s a) (hs : step s a = some t) : Valid t := by
  have hdoes := step_does hs
  cases a with
  | check m =>
    obtain ⟨-, rfl⟩ := hdoes
    exact h.check hcalm m
  | cleanup m =>
    obtain ⟨hm, rfl⟩ := hdoes
    exact h.cleans hm rfl id s.files
  | remove m =>
    obtain ⟨f, files, hm, rfl⟩ := hdoes
    exact h.cleans hm rfl id (s.files.remove f)
  | spawn m p n =>
    obtain ⟨hm, hp, rfl⟩ := hdoes
    exact h.spawn hm hp
  | connect m =>
    obtain ⟨c, o, hm, ho, rfl⟩ := hdoes
    obtain ⟨hchild, -⟩ : Fits s (.waiting c none) := hm ▸ h.mounting.fits m
    refine h.setMount (by rw [hm]; rfl) ⟨hchild, fun q hq => ?_⟩
    cases hq
    obtain ⟨d, hd, ha, hbound⟩ := listener_some ho
    obtain rfl := hchild o (alive_iff.mpr ⟨d, hd, ha⟩)
    exact ⟨rfl, d, hd, by rw [hbound]; rfl⟩
  | pong m =>
    obtain ⟨c, o, hm, -, rfl⟩ := hdoes
    obtain ⟨hchild, hconn⟩ : Fits s (.waiting c (some o)) := hm ▸ h.mounting.fits m
    exact h.setMount (by rw [hm]; rfl) ⟨hchild, hconn o rfl⟩
  | tidy m =>
    obtain ⟨c, o, hm, rfl⟩ := hdoes
    exact h.tidy hm
  | hangUp m =>
    obtain ⟨c, o, hm, rfl⟩ := hdoes
    obtain ⟨hchild, -⟩ : Fits s (.waiting c (some o)) := hm ▸ h.mounting.fits m
    exact h.setMount (by rw [hm]; rfl) ⟨hchild, by simp⟩
  | giveUp m =>
    obtain ⟨c, hm, rfl⟩ := hdoes
    exact h.giveUp hm
  | childEnded m =>
    obtain ⟨c, hm, -, rfl⟩ := hdoes
    exact h.setMount (by rw [hm]; rfl) trivial
  | interrupt m =>
    obtain ⟨hm, rfl⟩ := hdoes
    exact h.setMount hm trivial
  | foreground p n =>
    obtain ⟨hp, rfl⟩ := hdoes
    exact h.born hp hcalm.2 hcalm.1.mounts
  | daemon p b =>
    obtain ⟨d, f, d', hd, hact, rfl⟩ := hdoes
    exact h.act hd (act_spec hact)
  | other n =>
    obtain ⟨-, rfl⟩ := hdoes
    exact h.setOther n true
  | otherEnded n =>
    obtain ⟨-, rfl⟩ := hdoes
    exact h.setOther n false
  | ask u =>
    obtain ⟨-, rfl⟩ := hdoes
    apply h.setUnmount
    cases s.listener <;> trivial
  | ack u =>
    obtain ⟨o, d, -, hd, ha, rfl⟩ := hdoes
    exact h.ack hd ha
  | lost u =>
    obtain ⟨o, -, rfl⟩ := hdoes
    exact h.setUnmount trivial
  | force u =>
    obtain ⟨o, rfl⟩ := hdoes
    apply h.setUnmount
    cases o <;> trivial
  | poll u =>
    obtain ⟨o, heard, hu, rfl⟩ := hdoes
    by_cases ht : s.taken = true
    · rwa [if_pos ht]
    · rw [if_neg ht]
      exact h.poll hu (by simpa using ht)
  | deadline u =>
    obtain ⟨o, heard, -, rfl⟩ := hdoes
    apply h.setUnmount
    cases o with
    | none => trivial
    | some o => cases heard <;> trivial

theorem valid_start : Valid start where
  held := ⟨fun _ _ hp => absurd hp Bool.false_ne_true, fun _ _ hd => (nomatch hd), fun _ _ hd => (nomatch hd)⟩
  numbered := fun _ _ hd => (nomatch hd)
  mounting := ⟨fun _ => trivial, fun _ _ hm => absurd hm Bool.false_ne_true⟩
  told _ := trivial

theorem valid_of_reach (h : Reach step Calm start s) : Valid s :=
  h.inv valid_start fun _ _ _ hv hok hst => valid_step hv hok hst

/-- **An unmount that has seen its daemon go was right**, if the daemon was
waiting to be told when it answered: that daemon has unmounted the file system,
or it is dead. -/
theorem unmount_sound (h : Reach step Calm start s) {u : ℕ} {o : Proc} (hu : s.unmounts u = .unmounted (some o) true true) :
    Gone s o := by
  have htold := (valid_of_reach h).told u
  rwa [hu] at htold

/-! ### Runs -/

/-- The step is no beginning of a mount. -/
def Later (_ : State) : Action → Prop
  | .check _ => False
  | .foreground _ _ => False
  | _ => True

instance : DecidableRel Later := fun _ a => match a with
  | .check _ | .foreground _ _ => inferInstanceAs (Decidable False)
  | .cleanup _ | .remove _ | .spawn _ _ _ | .connect _ | .pong _ | .tidy _ | .hangUp _ | .giveUp _ | .childEnded _
  | .interrupt _ | .daemon _ _ | .other _ | .otherEnded _ | .ask _ | .ack _ | .lost _ | .force _ | .poll _
  | .deadline _ => inferInstanceAs (Decidable True)

theorem quiet_start : Quiet start := ⟨fun _ => rfl, fun _ _ hd => (nomatch hd)⟩

/-- A mount begins at the start, and what follows is no beginning of another. -/
theorem reach_later (h : Reach step Later (start.setMount 0 .checked) s) : Reach step Calm start s := by
  have hcheck : Reach step Calm start (start.setMount 0 .checked) := Reach.start.next (a := .check 0) quiet_start rfl
  apply hcheck.trans
  apply h.mono
  intro s a ha
  cases a with
  | check m => exact ha.elim
  | foreground p n => exact ha.elim
  | _ => trivial

/-- A mount up to its success. Its daemon has the number 7. -/
def mounting : List Action :=
  [.cleanup 0, .remove 0, .spawn 0 0 7, .daemon 0 .open, .other 8, .daemon 0 .clear, .daemon 0 .bind, .daemon 0 .create,
    .daemon 0 .write, .daemon 0 .await, .connect 0, .pong 0, .tidy 0]

theorem unmount_sound_seven : ∃ s, Reach step Calm start s ∧ s.unmounts 0 = .unmounted (some 0) true true ∧ Gone s 0 := by
  have hrun : (run step Later (start.setMount 0 .checked)
      (mounting ++ [.ask 0, .ack 0, .daemon 0 .stop, .daemon 0 .unmount, .daemon 0 .removePid, .poll 0])).any
      (fun s => decide (s.unmounts 0 = .unmounted (some 0) true true)) = true := by decide
  obtain ⟨s, hs, hu⟩ := Reach.exists_of_run _ hrun
  have hdone : s.unmounts 0 = .unmounted (some 0) true true := of_decide_eq_true hu
  exact ⟨s, reach_later hs, hdone, unmount_sound (reach_later hs) hdone⟩

/-- When its time is over an unmount says so too, and the daemon may be draining yet. -/
example : (run step Later (start.setMount 0 .checked) (mounting ++ [.ask 0, .ack 0, .deadline 0])).any
    (fun s => decide (s.unmounts 0 = .unmounted (some 0) true false ∧
      (s.daemons 0).map Daemon.phase = some .draining)) = true := by decide

/-- Of two mounts that begin together, neither sees the daemon of the other. -/
example : (run step anyStep start [.check 0, .check 1, .cleanup 0, .remove 0, .spawn 0 0 7, .cleanup 1, .remove 1,
    .spawn 1 1 8]).any (fun s => s.alive 0 && s.alive 1) = true := by decide

/-! ### After a crash -/

/-- A mount removes the files it has to. -/
theorem reach_removed (m : ℕ) : ∀ (files : List File) {s : State}, s.mounts m = .cleaning files →
    ∃ t, Reach step anyStep s t ∧ t.mounts m = .cleaning [] ∧ t.daemons = s.daemons ∧ t.pidAlive = s.pidAlive ∧
      (∀ f, (f ∈ files ∨ s.files.get f = none) → t.files.get f = none)
  | [], s, hm => ⟨s, .start, hm, rfl, rfl, fun f hf => hf.resolve_left (List.not_mem_nil)⟩
  | f :: files, s, hm => by
    have hstep : step s (.remove m) = some ((s.setFiles (s.files.remove f)).setMount m (.cleaning files)) := by
      simp [step, stepMount, hm]
    have hnext : ((s.setFiles (s.files.remove f)).setMount m (.cleaning files)).mounts m = .cleaning files := by simp
    obtain ⟨t, ht, hmt, hdt, hpt, hft⟩ := reach_removed m files hnext
    refine ⟨t, (Reach.start.next trivial hstep).trans ht, hmt, hdt, hpt, fun g hg => hft g ?_⟩
    by_cases hgf : g = f
    · exact .inr (by simp [get_remove, hgf])
    · rcases hg with hg | hg
      · exact .inl ((List.mem_cons.mp hg).resolve_left hgf)
      · exact .inr (by simp [get_remove, hgf, hg])

theorem mem_stale (hfree : s.taken = false) (f : File) : f ∈ s.stale ++ [.startup] ∨ s.files.get f = none := by
  unfold State.stale
  cases hp : s.files.pid with
  | some n =>
    have hn : s.pidAlive n = false := by
      unfold State.taken at hfree
      rw [hp] at hfree
      exact hfree
    cases f <;> simp [hn]
  | none => cases hsock : s.files.socket <;> cases f <;> simp [Files.get, hp, hsock]

/-- Whatever files are left, a mount removes them all if the pid file names no process. -/
theorem prelude_recovers {m : ℕ} (hfree : s.taken = false) (hm : s.mounts m = .idle) :
    ∃ t, Reach step anyStep s t ∧ t.mounts m = .cleaning [] ∧ t.daemons = s.daemons ∧ t.pidAlive = s.pidAlive ∧
      t.files = ⟨none, none, none⟩ := by
  have hcheck : step s (.check m) = some (s.setMount m .checked) := by simp [step, stepMount, hm, hfree]
  have hcleanup : step (s.setMount m .checked) (.cleanup m) =
      some ((s.setMount m .checked).setMount m (.cleaning ((s.setMount m .checked).stale ++ [.startup]))) := by
    simp [step, stepMount]
  have hreach : Reach step anyStep s
      ((s.setMount m .checked).setMount m (.cleaning ((s.setMount m .checked).stale ++ [.startup]))) :=
    (Reach.start.next trivial hcheck).next trivial hcleanup
  have hcleaning : ((s.setMount m .checked).setMount m
      (.cleaning ((s.setMount m .checked).stale ++ [.startup]))).mounts m =
      .cleaning ((s.setMount m .checked).stale ++ [.startup]) := by simp
  obtain ⟨t, ht, hmt, hdt, hpt, hft⟩ := reach_removed m _ hcleaning
  have hnone : ∀ f, t.files.get f = none := fun f => hft f (mem_stale (s := s.setMount m .checked) hfree f)
  refine ⟨t, hreach.trans ht, hmt, hdt, hpt, ?_⟩
  calc t.files = ⟨t.files.get .pid, t.files.get .socket, t.files.get .startup⟩ := rfl
    _ = ⟨none, none, none⟩ := by rw [hnone, hnone, hnone]

/-- The state with these files and this daemon. -/
def State.having (s : State) (p : Proc) (f : Files) (d : Daemon) : State := (s.setFiles f).setDaemon p d

theorem having_self {p : Proc} {d : Daemon} (hd : s.daemons p = some d) : s.having p s.files d = s := by
  have hself : Function.update s.daemons p (some d) = s.daemons := by
    rw [← hd]
    exact Function.update_eq_self p s.daemons
  unfold State.having State.setDaemon State.setFiles
  dsimp only
  rw [hself]

theorem having_having (p : Proc) (f g : Files) (d e : Daemon) : (s.having p f d).having p g e = s.having p g e := by
  simp [State.having, State.setFiles, State.setDaemon]

theorem step_having {p : Proc} {f g : Files} {d e : Daemon} {b : DaemonAction} (h : act p f d b = some (g, e)) :
    step (s.having p f d) (.daemon p b) = some (s.having p g e) := by
  rw [← having_having p f g d e]
  simp [step, State.having, h]

/-- A daemon that is not disturbed comes up. -/
theorem reach_up (p : Proc) (n : Pid) : Reach step anyStep (s.having p ⟨none, none, none⟩ (.spawn n))
    (s.having p ⟨some n, some p, none⟩ ⟨.waiting, .bound, true, n⟩) := by
  have hopen : act p ⟨none, none, none⟩ (.spawn n) .open = some (⟨none, none, none⟩, ⟨.opened, .spawned, true, n⟩) := rfl
  have hclear : act p ⟨none, none, none⟩ ⟨.opened, .spawned, true, n⟩ .clear =
      some (⟨none, none, none⟩, ⟨.opened, .cleared, true, n⟩) := rfl
  have hbind : act p ⟨none, none, none⟩ ⟨.opened, .cleared, true, n⟩ .bind =
      some (⟨none, some p, none⟩, ⟨.opened, .bound, true, n⟩) := rfl
  have hcreate : act p ⟨none, some p, none⟩ ⟨.opened, .bound, true, n⟩ .create =
      some (⟨none, some p, none⟩, ⟨.created, .bound, true, n⟩) := rfl
  have hwrite : act p ⟨none, some p, none⟩ ⟨.created, .bound, true, n⟩ .write =
      some (⟨some n, some p, none⟩, ⟨.written, .bound, true, n⟩) := rfl
  have hawait : act p ⟨some n, some p, none⟩ ⟨.written, .bound, true, n⟩ .await =
      some (⟨some n, some p, none⟩, ⟨.waiting, .bound, true, n⟩) := rfl
  have hbound : Reach step anyStep (s.having p ⟨none, none, none⟩ (.spawn n))
      (s.having p ⟨none, some p, none⟩ ⟨.opened, .bound, true, n⟩) :=
    ((Reach.start.next trivial (step_having hopen)).next trivial (step_having hclear)).next trivial (step_having hbind)
  exact ((hbound.next trivial (step_having hcreate)).next trivial (step_having hwrite)).next trivial (step_having hawait)

/-- **After whatever crashes, a mount that is not disturbed comes up**, if the
pid file names no process: no daemon of the tag is alive, and then one is, with
its files and no others. -/
theorem mount_recovers {m : ℕ} {p : Proc} {n : Pid} (hdead : ∀ q, s.alive q = false) (hfree : s.taken = false)
    (hm : s.mounts m = .idle) (hp : s.fresh p n) : ∃ t, Reach step anyStep s t ∧ t.mounts m = .mounted p p ∧
      t.files = ⟨some n, some p, none⟩ ∧ ∀ q, t.alive q = true ↔ q = p := by
  obtain ⟨u, hu, hmu, hdu, hpu, hfu⟩ := prelude_recovers hfree hm
  have hfresh : u.fresh p n := by
    unfold State.fresh
    rw [hdu, hpu]
    exact hp
  have hspawn : step u (.spawn m p n) = some ((u.spawn p n).setMount m (.waiting p none)) := by
    simp [step, stepMount, hmu, hfresh]
  -- the state with the daemon born, and with the daemon up
  obtain ⟨w, hw⟩ : ∃ w, w = (u.spawn p n).setMount m (.waiting p none) := ⟨_, rfl⟩
  have hdw : w.daemons p = some (.spawn n) := by simp [hw]
  have hfw : w.files = ⟨none, none, none⟩ := by simp [hw, hfu]
  have hborn : w.having p ⟨none, none, none⟩ (.spawn n) = w := hfw ▸ having_self hdw
  obtain ⟨v, hv⟩ : ∃ v, v = w.having p ⟨some n, some p, none⟩ ⟨.waiting, .bound, true, n⟩ := ⟨_, rfl⟩
  have hup : Reach step anyStep s v := by
    have hto : Reach step anyStep (w.having p ⟨none, none, none⟩ (.spawn n)) v := hv ▸ reach_up p n
    rw [hborn] at hto
    exact (hu.next trivial (hw ▸ hspawn)).trans hto
  have hmv : v.mounts m = .waiting p none := by simp [hv, hw, State.having]
  have hdv : v.daemons p = some ⟨.waiting, .bound, true, n⟩ := by simp [hv, State.having]
  have hfv : v.files = ⟨some n, some p, none⟩ := by simp [hv, State.having]
  have halive : v.alive p = true := alive_iff.mpr ⟨_, hdv, rfl⟩
  have hconnect : step v (.connect m) = some (v.setMount m (.waiting p (some p))) := by
    have hlistener : v.listener = some p := by simp [State.listener, hfv, Option.filter, hdv]
    simp [step, stepMount, hmv, hlistener]
  have hpong : step (v.setMount m (.waiting p (some p))) (.pong m) =
      some ((v.setMount m (.waiting p (some p))).setMount m (.answered p p)) := by
    have ha : (v.setMount m (.waiting p (some p))).alive p = true := halive
    simp [step, stepMount, ha]
  have htidy : step ((v.setMount m (.waiting p (some p))).setMount m (.answered p p)) (.tidy m) =
      some ((((v.setMount m (.waiting p (some p))).setMount m (.answered p p)).setFiles
        (v.files.remove .startup)).setMount m (.mounted p p)) := by
    simp [step, stepMount]
  refine ⟨_, ((hup.next trivial hconnect).next trivial hpong).next trivial htidy, by simp, by simp [hfv, Files.remove],
    fun q => ?_⟩
  have hq : v.alive q = true ↔ q = p := by
    have hstep : v.alive q = if q = p then true else w.alive q := by
      rw [hv]
      exact alive_setDaemon
    have hborn : w.alive q = if q = p then true else u.alive q := by
      rw [hw]
      exact alive_spawn
    have hold : u.alive q = false := by
      unfold State.alive
      rw [hdu]
      exact hdead q
    rw [hstep, hborn, hold]
    simp
  exact hq

/-- A daemon that was killed leaves its three files, and another program runs. -/
def crashed : State :=
  { (start.setOther 9 true).setDaemon 0 ⟨.waiting, .bound, false, 7⟩ with
    files := ⟨some 7, some 0, some 0⟩, holder := fun n => if n = 7 then some 0 else none }

/-- The next daemon is given its number. -/
theorem mount_recovers_crashed : ∃ t, Reach step anyStep crashed t ∧ t.mounts 0 = .mounted 1 1 ∧
    t.files = ⟨some 7, some 1, none⟩ ∧ ∀ q, t.alive q = true ↔ q = 1 := by
  have hdead : ∀ q, crashed.alive q = false := by
    intro q
    have hq : crashed.alive q = if q = 0 then false else start.alive q := alive_setDaemon
    rw [hq]
    split_ifs <;> rfl
  exact mount_recovers hdead rfl rfl (by decide)

end Smfs.Lifecycle
