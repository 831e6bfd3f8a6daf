/-
# The hydration scheduler

`HydrationScheduler` of `cache/hydration.rs`: a queue of keys to be fetched,
the set of those in it (`pending`), the set of those a worker has (`inflight`),
and when the last ones were completed (`recent`, from which each `enqueue`
drops what is older than the lifetime). An `Instant` is a number of
nanoseconds and `duration_since` a difference that does not go below zero. The
workers take keys and complete the ones they have, in any order; the history
of what was accepted, claimed and completed runs beside them. In every state
the four collections fit together, a key is with one worker at most, the keys
are claimed in the order they were accepted, and a worker that goes on claiming
has every one of them handed out (`bookkeeping`).

Key definitions: `HydrationScheduler`, `Hydration.step`, `Hydration.Bookkeeping`.
Key theorems: `Hydration.Valid.step`, `Hydration.accepts_iff`, `Hydration.drains`, `Hydration.bookkeeping`.
-/
import Mathlib.Data.Finset.Basic
import Smfs.Lib.Reach
import Smfs.Lib.Table

namespace Smfs

inductive HydrationKey
  | exact (path : String)
  /-- Ends with a slash. -/
  | below (path : String)
  deriving DecidableEq, Repr

structure HydrationScheduler where
  queue : List HydrationKey
  pending : Finset HydrationKey
  inflight : Finset HydrationKey
  recent : List (HydrationKey × ℕ)
  negativeTtl : ℕ

/-- Two seconds. -/
def NEGATIVE_TTL : ℕ := 2000000000

namespace HydrationScheduler

def new : HydrationScheduler := ⟨[], ∅, ∅, [], NEGATIVE_TTL⟩

/-- `recent.retain`. -/
def retain (s : HydrationScheduler) (now : ℕ) : HydrationScheduler :=
  { s with recent := s.recent.filter fun r => now - r.2 < s.negativeTtl }

/-- The scheduler, and whether a worker is notified: the key was accepted. -/
def enqueue (s : HydrationScheduler) (now : ℕ) (key : HydrationKey) : HydrationScheduler × Bool :=
  let s := s.retain now
  if s.recent.any fun r => r.1 = key then (s, false)
  else if key ∈ s.pending ∨ key ∈ s.inflight then (s, false)
  else ({ s with pending := insert key s.pending, queue := s.queue ++ [key] }, true)

def claimNext (s : HydrationScheduler) : Option HydrationKey × HydrationScheduler :=
  match s.queue with
  | [] => (none, s)
  | key :: queue =>
    (some key, { s with queue := queue, pending := s.pending.erase key, inflight := insert key s.inflight })

def complete (s : HydrationScheduler) (now : ℕ) (key : HydrationKey) : HydrationScheduler :=
  { s with inflight := s.inflight.erase key, recent := (key, now) :: Table.erase Prod.fst s.recent key }

end HydrationScheduler

namespace Hydration

/-! ### Workers -/

/-- The scheduler and its workers, with the history of the keys. -/
structure State where
  sched : HydrationScheduler
  /-- The last reading of the clock. -/
  clock : ℕ
  /-- The keys the workers have. -/
  held : List (ℕ × HydrationKey)
  accepted : List HydrationKey
  claimed : List HydrationKey
  completed : List (HydrationKey × ℕ)

inductive Action
  | enqueue (now : ℕ) (key : HydrationKey)
  | claimNext (worker : ℕ)
  | complete (now : ℕ) (worker : ℕ) (key : HydrationKey)

def start : State := ⟨.new, 0, [], [], [], []⟩

/-- The clock does not go back, and a worker completes a key that it has. -/
def step (s : State) : Action → Option State
  | .enqueue now key =>
    if s.clock ≤ now then
      let r := s.sched.enqueue now key
      some { s with sched := r.1, clock := now, accepted := if r.2 then s.accepted ++ [key] else s.accepted }
    else none
  | .claimNext worker =>
    match s.sched.claimNext with
    | (none, sched) => some { s with sched }
    | (some key, sched) =>
      some { s with sched, held := s.held ++ [(worker, key)], claimed := s.claimed ++ [key] }
  | .complete now worker key =>
    if s.clock ≤ now ∧ (worker, key) ∈ s.held then
      some { s with
        sched := s.sched.complete now key
        clock := now
        held := s.held.erase (worker, key)
        completed := (key, now) :: s.completed }
    else none

/-- The key was completed less than the lifetime ago. -/
def CompletedLately (s : State) (now : ℕ) (key : HydrationKey) : Prop :=
  ∃ t, (key, t) ∈ s.completed ∧ now - t < NEGATIVE_TTL

/-- The books of a scheduler and its workers. -/
structure Bookkeeping (s : State) : Prop where
  nodup : s.sched.queue.Nodup
  pending : ∀ key, key ∈ s.sched.queue ↔ key ∈ s.sched.pending
  disjoint : Disjoint s.sched.pending s.sched.inflight
  /-- A key is in flight exactly if a worker has it, and only one has it, once. -/
  inflight : ∀ key, key ∈ s.sched.inflight ↔ ∃ worker, (worker, key) ∈ s.held
  one : (s.held.map Prod.snd).Nodup
  /-- The keys are claimed once each, in the order they were accepted. -/
  order : s.accepted = s.claimed ++ s.sched.queue
  /-- A call of `claim_next` hands out the first key in the queue, if there is one. -/
  next : s.sched.claimNext.1 = s.sched.queue.head?
  /-- As many calls as there are keys in the queue leave none of the accepted ones unclaimed. -/
  drained : ∀ worker, ∃ t,
    Trans.run step Trans.anyStep s (List.replicate s.sched.queue.length (.claimNext worker)) = some t ∧
      t.sched.queue = [] ∧ t.claimed = s.accepted
  dropped : ∀ now ≥ s.clock, ∀ key, (s.sched.enqueue now key).2 = false ↔
    key ∈ s.sched.queue ∨ key ∈ s.sched.inflight ∨ CompletedLately s now key

/-! ### The invariant -/

structure Valid (s : State) : Prop where
  ttl : s.sched.negativeTtl = NEGATIVE_TTL
  nodup : s.sched.queue.Nodup
  pending : ∀ key, key ∈ s.sched.queue ↔ key ∈ s.sched.pending
  disjoint : ∀ key ∈ s.sched.pending, key ∉ s.sched.inflight
  inflight : ∀ key, key ∈ s.sched.inflight ↔ ∃ worker, (worker, key) ∈ s.held
  one : (s.held.map Prod.snd).Nodup
  order : s.accepted = s.claimed ++ s.sched.queue
  /-- What is remembered was completed. -/
  recent : ∀ r ∈ s.sched.recent, r ∈ s.completed
  /-- What was completed is remembered, as of then or later, unless its time is over. -/
  remembered : ∀ key t, (key, t) ∈ s.completed → t ≤ s.clock ∧
    ((∃ t' ≥ t, (key, t') ∈ s.sched.recent) ∨ t + NEGATIVE_TTL ≤ s.clock)

variable {s t : State} {now : ℕ} {key : HydrationKey}

theorem mem_retain {s : HydrationScheduler} {r : HydrationKey × ℕ} :
    r ∈ (s.retain now).recent ↔ r ∈ s.recent ∧ now - r.2 < s.negativeTtl := by
  simp [HydrationScheduler.retain]

/-- A completion is in the books after the purge exactly if it was lately. -/
theorem Valid.lately_iff (h : Valid s) (hnow : s.clock ≤ now) (key : HydrationKey) :
    (∃ r ∈ (s.sched.retain now).recent, r.1 = key) ↔ CompletedLately s now key := by
  constructor
  · rintro ⟨⟨_, t⟩, hr, rfl⟩
    obtain ⟨hmem, hlt⟩ := mem_retain.mp hr
    exact ⟨t, h.recent _ hmem, h.ttl ▸ hlt⟩
  · rintro ⟨t, ht, hlt⟩
    obtain ⟨hle, ⟨t', ht', hmem⟩ | hover⟩ := h.remembered key t ht
    · refine ⟨(key, t'), mem_retain.mpr ⟨hmem, ?_⟩, rfl⟩
      rw [h.ttl]
      show now - t' < NEGATIVE_TTL
      omega
    · omega

/-- What an `enqueue` does: it purges, and then drops the key or accepts it. -/
theorem Valid.enqueue_cases (h : Valid s) (hnow : s.clock ≤ now) (key : HydrationKey) :
    (s.sched.enqueue now key = (s.sched.retain now, false) ∧
      (key ∈ s.sched.queue ∨ key ∈ s.sched.inflight ∨ CompletedLately s now key)) ∨
    (s.sched.enqueue now key = ({ s.sched.retain now with
        pending := insert key s.sched.pending, queue := s.sched.queue ++ [key] }, true) ∧
      key ∉ s.sched.queue ∧ key ∉ s.sched.inflight ∧ ¬ CompletedLately s now key) := by
  have hlate : (s.sched.retain now).recent.any (fun r => r.1 = key) = true ↔ CompletedLately s now key := by
    rw [← h.lately_iff hnow]
    simp
  unfold HydrationScheduler.enqueue
  dsimp only
  by_cases hlately : CompletedLately s now key
  · exact .inl ⟨if_pos (hlate.mpr hlately), .inr (.inr hlately)⟩
  · rw [if_neg (mt hlate.mp hlately)]
    by_cases hbusy : key ∈ (s.sched.retain now).pending ∨ key ∈ (s.sched.retain now).inflight
    · rw [if_pos hbusy]
      exact .inl ⟨rfl, hbusy.imp (h.pending key).mpr .inl⟩
    · rw [if_neg hbusy]
      push Not at hbusy
      exact .inr ⟨rfl, fun hq => hbusy.1 ((h.pending key).mp hq), hbusy.2, hlately⟩

theorem accepts_iff (h : Valid s) (hnow : s.clock ≤ now) (key : HydrationKey) : (s.sched.enqueue now key).2 = false ↔
    key ∈ s.sched.queue ∨ key ∈ s.sched.inflight ∨ CompletedLately s now key := by
  rcases h.enqueue_cases hnow key with ⟨he, hbusy⟩ | ⟨he, h₁, h₂, h₃⟩
  · simp [he, hbusy]
  · simp [he, h₁, h₂, h₃]

/-- The purge forgets what is over. -/
theorem Valid.remembered_retain (h : Valid s) (hnow : s.clock ≤ now) : ∀ key t, (key, t) ∈ s.completed →
    t ≤ now ∧ ((∃ t' ≥ t, (key, t') ∈ (s.sched.retain now).recent) ∨ t + NEGATIVE_TTL ≤ now) := by
  intro key t ht
  obtain ⟨hle, hrem⟩ := h.remembered key t ht
  refine ⟨by omega, ?_⟩
  rcases hrem with ⟨t', ht', hmem⟩ | hover
  · by_cases hlate : now - t' < NEGATIVE_TTL
    · exact .inl ⟨t', ht', mem_retain.mpr ⟨hmem, h.ttl ▸ hlate⟩⟩
    · exact .inr (by omega)
  · exact .inr (by omega)

theorem Valid.enqueue (h : Valid s) (hnow : s.clock ≤ now) (key : HydrationKey) :
    Valid { s with
      sched := (s.sched.enqueue now key).1
      clock := now
      accepted := if (s.sched.enqueue now key).2 then s.accepted ++ [key] else s.accepted } := by
  have hrecent : ∀ r ∈ (s.sched.retain now).recent, r ∈ s.completed := fun r hr => h.recent r (mem_retain.mp hr).1
  rcases h.enqueue_cases hnow key with ⟨he, -⟩ | ⟨he, hqueue, hinflight, -⟩
  · rw [he]
    exact ⟨h.ttl, h.nodup, h.pending, h.disjoint, h.inflight, h.one, h.order, hrecent, h.remembered_retain hnow⟩
  · rw [he]
    refine ⟨h.ttl, ?_, ?_, ?_, h.inflight, h.one, ?_, hrecent, h.remembered_retain hnow⟩
    · exact List.nodup_append.mpr ⟨h.nodup, List.nodup_singleton key, fun a ha b hb hab =>
        hqueue (List.mem_singleton.mp hb ▸ hab ▸ ha)⟩
    · intro k
      rw [List.mem_append, List.mem_singleton, h.pending k, Finset.mem_insert]
      exact or_comm
    · intro k hk
      rcases Finset.mem_insert.mp hk with rfl | hk
      · exact hinflight
      · exact h.disjoint k hk
    · show s.accepted ++ [key] = s.claimed ++ (s.sched.queue ++ [key])
      rw [h.order, List.append_assoc]

/-- What a `claim_next` does: it finds nothing, or takes the first key. -/
theorem claimNext_cases (s : HydrationScheduler) : (s.queue = [] ∧ s.claimNext = (none, s)) ∨
    ∃ key queue, s.queue = key :: queue ∧ s.claimNext = (some key, { s with
      queue := queue, pending := s.pending.erase key, inflight := insert key s.inflight }) := by
  unfold HydrationScheduler.claimNext
  rcases hq : s.queue with _ | ⟨key, queue⟩
  · exact .inl ⟨rfl, rfl⟩
  · exact .inr ⟨key, queue, rfl, rfl⟩

theorem Valid.claim (h : Valid s) {queue : List HydrationKey} (hq : s.sched.queue = key :: queue) (worker : ℕ) :
    Valid { s with
      sched := { s.sched with
        queue := queue, pending := s.sched.pending.erase key, inflight := insert key s.sched.inflight }
      held := s.held ++ [(worker, key)]
      claimed := s.claimed ++ [key] } := by
  have hmem : key ∈ s.sched.pending := (h.pending key).mp (hq ▸ List.mem_cons_self)
  have hnodup := h.nodup
  rw [hq, List.nodup_cons] at hnodup
  refine ⟨h.ttl, hnodup.2, ?_, ?_, ?_, ?_, ?_, h.recent, h.remembered⟩
  · intro k
    have hk := h.pending k
    rw [hq, List.mem_cons] at hk
    rw [Finset.mem_erase, ← hk]
    constructor
    · exact fun hin => ⟨fun he => hnodup.1 (he ▸ hin), .inr hin⟩
    · exact fun hin => hin.2.resolve_left hin.1
  · intro k hk hin
    obtain ⟨hne, hpending⟩ := Finset.mem_erase.mp hk
    rcases Finset.mem_insert.mp hin with he | hin
    · exact hne he
    · exact h.disjoint k hpending hin
  · intro k
    rw [Finset.mem_insert, h.inflight k]
    simp only [List.mem_append, List.mem_singleton, Prod.mk.injEq]
    constructor
    · rintro (rfl | ⟨w, hw⟩)
      · exact ⟨worker, .inr ⟨rfl, rfl⟩⟩
      · exact ⟨w, .inl hw⟩
    · rintro ⟨w, hw | ⟨-, rfl⟩⟩
      · exact .inr ⟨w, hw⟩
      · exact .inl rfl
  · -- no worker has the key: it is pending
    rw [List.map_append, List.nodup_append]
    refine ⟨h.one, List.nodup_singleton key, fun a ha b hb hab => ?_⟩
    obtain ⟨⟨w, k⟩, hw, rfl⟩ := List.mem_map.mp ha
    obtain rfl : k = key := hab.trans (List.mem_singleton.mp hb)
    exact h.disjoint k hmem ((h.inflight k).mpr ⟨w, hw⟩)
  · show s.accepted = s.claimed ++ [key] ++ queue
    rw [h.order, hq, List.append_assoc]
    rfl

theorem Valid.complete (h : Valid s) (hnow : s.clock ≤ now) {worker : ℕ} (hheld : (worker, key) ∈ s.held) :
    Valid { s with
      sched := s.sched.complete now key
      clock := now
      held := s.held.erase (worker, key)
      completed := (key, now) :: s.completed } := by
  have hheldNodup : s.held.Nodup := h.one.of_map
  refine ⟨h.ttl, h.nodup, h.pending, ?_, ?_, ?_, h.order, ?_, ?_⟩
  · exact fun k hk hin => h.disjoint k hk (Finset.mem_of_mem_erase hin)
  · intro k
    show k ∈ s.sched.inflight.erase key ↔ _
    rw [Finset.mem_erase, h.inflight k]
    simp only [hheldNodup.mem_erase_iff, ne_eq, Prod.mk.injEq, not_and]
    constructor
    · rintro ⟨hne, w, hw⟩
      exact ⟨w, fun _ he => hne he, hw⟩
    · rintro ⟨w, hw, hin⟩
      refine ⟨?_, w, hin⟩
      -- the key has one worker, which has completed it
      rintro rfl
      have hsame : (w, k) = (worker, k) := List.inj_on_of_nodup_map h.one hin hheld rfl
      exact hw (congrArg Prod.fst hsame) rfl
  · exact h.one.sublist (List.erase_sublist.map Prod.snd)
  · intro r hr
    rcases List.mem_cons.mp hr with rfl | hr
    · exact List.mem_cons_self
    · exact List.mem_cons_of_mem _ (h.recent r (Table.mem_erase.mp hr).1)
  · intro k t ht
    rcases List.mem_cons.mp ht with he | ht
    · obtain ⟨rfl, rfl⟩ := Prod.mk.inj he
      exact ⟨Nat.le_refl _, .inl ⟨t, Nat.le_refl t, List.mem_cons_self⟩⟩
    · obtain ⟨hle, hrem⟩ := h.remembered k t ht
      refine ⟨hle.trans hnow, ?_⟩
      by_cases hk : k = key
      · exact .inl ⟨now, hle.trans hnow, by rw [hk]; exact List.mem_cons_self⟩
      · rcases hrem with ⟨t', ht', hmem⟩ | hover
        · exact .inl ⟨t', ht', List.mem_cons_of_mem _ (Table.mem_erase.mpr ⟨hmem, hk⟩)⟩
        · exact .inr (hover.trans hnow)

/-- One step keeps the invariant. -/
theorem Valid.step (h : Valid s) {a : Action} (hs : Hydration.step s a = some t) : Valid t := by
  cases a with
  | enqueue now key =>
    simp only [Hydration.step] at hs
    by_cases hnow : s.clock ≤ now
    · rw [if_pos hnow] at hs
      exact Option.some.inj hs ▸ h.enqueue hnow key
    · rw [if_neg hnow] at hs
      cases hs
  | claimNext worker =>
    simp only [Hydration.step] at hs
    rcases claimNext_cases s.sched with ⟨-, he⟩ | ⟨key, queue, hq, he⟩
    · rw [he] at hs
      exact Option.some.inj hs ▸ h
    · rw [he] at hs
      exact Option.some.inj hs ▸ h.claim hq worker
  | complete now worker key =>
    simp only [Hydration.step] at hs
    split_ifs at hs with hok
    exact Option.some.inj hs ▸ h.complete hok.1 hok.2

theorem valid_start : Valid start where
  ttl := rfl
  nodup := List.nodup_nil
  pending := by simp [start, HydrationScheduler.new]
  disjoint := by simp [start, HydrationScheduler.new]
  inflight := by simp [start, HydrationScheduler.new]
  one := List.nodup_nil
  order := rfl
  recent := by simp [start, HydrationScheduler.new]
  remembered := by simp [start]

theorem claimNext_head (s : HydrationScheduler) : s.claimNext.1 = s.queue.head? := by
  rcases claimNext_cases s with ⟨hq, he⟩ | ⟨key, queue, hq, he⟩
  · rw [he, hq]
    rfl
  · rw [he, hq]
    rfl

/-- A worker that goes on claiming takes the keys of the queue one after the other. -/
theorem drains (worker : ℕ) (queue : List HydrationKey) {s : State} (hq : s.sched.queue = queue) :
    ∃ t, Trans.run step Trans.anyStep s (List.replicate queue.length (.claimNext worker)) = some t ∧
      t.sched.queue = [] ∧ t.claimed = s.claimed ++ queue := by
  induction queue generalizing s with
  | nil => exact ⟨s, rfl, hq, by simp⟩
  | cons key queue ih =>
    rcases claimNext_cases s.sched with ⟨hnil, -⟩ | ⟨key', queue', hcons, he⟩
    · rw [hq] at hnil
      cases hnil
    obtain ⟨rfl, rfl⟩ : key' = key ∧ queue' = queue := List.cons.inj (hcons.symm.trans hq)
    obtain ⟨u, hu, huq, huc⟩ : ∃ u, step s (.claimNext worker) = some u ∧ u.sched.queue = queue' ∧
        u.claimed = s.claimed ++ [key'] := by
      simp only [step, he]
      exact ⟨_, rfl, rfl, rfl⟩
    obtain ⟨t, ht, hempty, hclaimed⟩ := ih huq
    refine ⟨t, ?_, hempty, by simpa [huc] using hclaimed⟩
    have hany : Trans.anyStep s (Action.claimNext worker) := trivial
    rw [List.length_cons, List.replicate_succ, Trans.run, if_pos hany, hu]
    exact ht

/-- **The books are kept**, in every state that is reached. -/
theorem bookkeeping (h : Trans.Reach step Trans.anyStep start s) : Bookkeeping s := by
  have hv : Valid s := h.inv valid_start fun _ _ _ hv _ hs => hv.step hs
  refine ⟨hv.nodup, hv.pending, Finset.disjoint_left.mpr hv.disjoint, hv.inflight, hv.one, hv.order,
    claimNext_head s.sched, fun worker => ?_, fun now hnow key => accepts_iff hv hnow key⟩
  obtain ⟨t, ht, hempty, hclaimed⟩ := drains worker s.sched.queue rfl
  exact ⟨t, ht, hempty, hclaimed.trans hv.order.symm⟩

/-- Two workers, a key that is asked for again while the other has it and
after it was completed, and one that is still queued. -/
theorem bookkeeping_two_workers : ∃ s, Trans.Reach step Trans.anyStep start s ∧ Bookkeeping s ∧
    s.claimed = [.exact "/a.md", .below "/b/"] ∧ s.accepted = [.exact "/a.md", .below "/b/", .exact "/c.md"] := by
  obtain ⟨s, h, hp⟩ := @Trans.Reach.exists_of_run _ _ step Trans.anyStep start _
    [.enqueue 1 (.exact "/a.md"), .enqueue 2 (.below "/b/"), .claimNext 0, .claimNext 1, .enqueue 3 (.exact "/a.md"),
      .complete 4 0 (.exact "/a.md"), .enqueue 5 (.exact "/a.md"), .enqueue 6 (.exact "/c.md")]
    (fun s => s.claimed = [.exact "/a.md", .below "/b/"] ∧
      s.accepted = [.exact "/a.md", .below "/b/", .exact "/c.md"])
    (by decide)
  exact ⟨s, h, bookkeeping h, (of_decide_eq_true hp).1, (of_decide_eq_true hp).2⟩

end Hydration

end Smfs
