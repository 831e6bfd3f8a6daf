/-
# Stuck detection

`stuck_tier` is to tell how long a row has been awaiting `done`, and an hour
of it gives the inode up. The poller takes the age from `last_status_at`, and
every answer that a document is not done writes that column. So the age is the
time since the tick before: in a run of ticks that all report the document as
not done, the inode is given up exactly where two ticks lie an hour apart
(`fires_iff`), and a poller that ticks every second never does (`never_fires`).

Key definitions: `Stuck.Tick`, `Stuck.tick`, `Stuck.NotDone`, `Stuck.Stops`, `Stuck.Fires`, `Stuck.Lags`.
Key theorems: `Stuck.tick_row`, `Stuck.stops_iff`, `Stuck.fires_iff`, `Stuck.never_fires`.
-/
import Smfs.Push

namespace Smfs
namespace Stuck

/-- A tick of the poller: the clock, the bulk answer, and the answers to the single requests. -/
structure Tick where
  nowMs : ℤ
  processing : Except ApiError (List (String × String))
  terminal : Ino → Except ApiError Document

/-- One round of the loop of `run_inflight_poller`. -/
def tick (db : Db) (k : Tick) : Db :=
  match k.processing with
  | .error _ => db
  | .ok processing =>
    db.inodesAwaitingDone.foldl (fun db row => pollRow db row processing (k.terminal row.ino) k.nowMs) db

/-- A document is not done: it is in the list, or the single request answers with another status or
an error. A 404 says that there is no document. -/
def Pending (processing : List (String × String)) (terminal : Except ApiError Document) (remoteId : String) : Prop :=
  match processing.reverse.find? fun d => d.1 = remoteId with
  | some d => d.2 ≠ "done"
  | none =>
    match terminal with
    | .ok doc => doc.status ≠ "done"
    | .error e => e ≠ .notFound

/-- The tick reports the document of an inode as not done. -/
def NotDone (i : Ino) (remoteId : String) (k : Tick) : Prop :=
  ∃ processing, k.processing = .ok processing ∧ Pending processing (k.terminal i) remoteId

def HOUR_MS : ℤ := 3600000

/-- The tick takes the branch that gives the inode up. -/
def StopTaken (db : Db) (i : Ino) (k : Tick) : Prop :=
  (∃ processing, k.processing = .ok processing) ∧ ∃ row ∈ db.inodesAwaitingDone, row.ino = i ∧
    stuckTier ((row.lastStatusAt.map (k.nowMs - ·)).getD 0) = .stop

/-- One of the ticks of a run does. -/
def Stops (i : Ino) : Db → List Tick → Prop
  | _, [] => False
  | db, k :: ks => StopTaken db i k ∨ Stops i (tick db k) ks

/-- The inode is given up no later than the first tick an hour after the run's first one. -/
def Fires (db : Db) (i : Ino) (ks : List Tick) : Prop :=
  ∀ first mid k, first :: mid ++ [k] <+: ks → HOUR_MS ≤ k.nowMs - first.nowMs → Stops i db (first :: mid ++ [k])

/-- A tick comes an hour or more after the one before it, or after the stamp of the row. -/
def Gap : Option ℤ → List Tick → Prop
  | _, [] => False
  | stamp, k :: ks => (∃ t, stamp = some t ∧ HOUR_MS ≤ k.nowMs - t) ∨ Gap (some k.nowMs) ks

/-- By the first tick an hour after the first one, two ticks have lain an hour apart. -/
def Lags (stamp : Option ℤ) (ks : List Tick) : Prop :=
  ∀ first mid k, first :: mid ++ [k] <+: ks → HOUR_MS ≤ k.nowMs - first.nowMs → Gap stamp (first :: mid ++ [k])

/-! ### What a tick does to one row -/

section Lemmas

variable {db : Db} {i : Ino} {row : Db.AwaitingDone} {processing : List (String × String)}
  {terminal : Except ApiError Document} {now : ℤ} {r : Remote} {k : Tick}

theorem setDirtySince_getRemote {j : Ino} {t : Option ℤ} : (db.setDirtySince j t).getRemote i = db.getRemote i := rfl

/-- A row of the table touches that of its inode only. -/
theorem pollRow_other (h : row.ino ≠ i) : (pollRow db row processing terminal now).getRemote i = db.getRemote i := by
  have hset : ∀ u st t, (db.setMirroredState row.ino u st t).getRemote i = db.getRemote i := fun u st t => by
    rw [Db.getRemote_setMirroredState, if_neg (Ne.symm h)]
  unfold pollRow
  dsimp only
  split_ifs
  · rw [setDirtySince_getRemote, hset]
  · split
    · exact hset _ _ _
    · split
      · split_ifs <;> exact hset _ _ _
      · exact (Table.get_erase _ _ _).trans (if_neg (Ne.symm h))
      · exact hset _ _ _

/-- The row of a document that is not done is stamped with the clock, whichever branch is taken. -/
theorem pollRow_pending (hr : db.getRemote row.ino = some r) (hd : r.lastStatus ≠ some "done")
    (h : Pending processing terminal row.remoteId) :
    ∃ r', (pollRow db row processing terminal now).getRemote row.ino = some r' ∧ r'.remoteId = r.remoteId ∧
      r'.lastStatus ≠ some "done" ∧ r'.lastStatusAt = some now := by
  have hset : ∀ st, st ≠ some "done" → ∃ r', (db.setMirroredState row.ino none st (some now)).getRemote row.ino = some r' ∧
      r'.remoteId = r.remoteId ∧ r'.lastStatus ≠ some "done" ∧ r'.lastStatusAt = some now := by
    intro st hst
    rw [Db.getRemote_setMirroredState, if_pos rfl, hr]
    refine ⟨_, rfl, rfl, ?_, rfl⟩
    cases st with
    | none => exact hd
    | some st => exact hst
  unfold Pending at h
  unfold pollRow
  dsimp only
  split_ifs
  · exact hset (some "stuck") (by decide)
  · split
    · rename_i d hd'
      rw [hd'] at h
      exact hset (some d.2) fun he => h (Option.some.inj he)
    · rename_i hd'
      rw [hd'] at h
      dsimp only at h
      split
      · rename_i doc
        rw [if_neg h]
        exact hset (some doc.status) fun he => h (Option.some.inj he)
      · exact absurd rfl h
      · exact hset none fun he => by cases he

theorem foldl_other {rows : List Db.AwaitingDone} (h : ∀ row ∈ rows, row.ino ≠ i)
    {f : Db.AwaitingDone → Except ApiError Document} :
    (rows.foldl (fun db row => pollRow db row processing (f row) now) db).getRemote i = db.getRemote i := by
  induction rows generalizing db with
  | nil => rfl
  | cons row rows ih =>
    obtain ⟨hrow, hrows⟩ := List.forall_mem_cons.mp h
    exact (ih hrows).trans (pollRow_other hrow)

/-- The rows that a tick goes over, with the one of an inode. -/
theorem awaiting_split (hk : (db.remotes.map Remote.ino).Nodup) (hr : db.getRemote i = some r)
    (hd : r.lastStatus ≠ some "done") : ∃ before after,
      db.inodesAwaitingDone = before ++ ⟨i, r.remoteId, r.lastStatus, r.lastStatusAt⟩ :: after ∧
      (∀ row ∈ before, row.ino ≠ i) ∧ ∀ row ∈ after, row.ino ≠ i := by
  obtain ⟨hmem, rfl⟩ := Table.get_some hr
  have hrow : r ∈ db.remotes.filter fun r => r.lastStatus ≠ some "done" := List.mem_filter.mpr ⟨hmem, by simpa using hd⟩
  obtain ⟨before, after, hsplit⟩ := List.append_of_mem hrow
  have hnodup : ((db.remotes.filter fun r => r.lastStatus ≠ some "done").map Remote.ino).Nodup :=
    hk.sublist (List.filter_sublist.map _)
  rw [hsplit, List.map_append, List.map_cons, List.nodup_middle, List.nodup_cons, List.mem_append, not_or] at hnodup
  obtain ⟨⟨hbefore, hafter⟩, -⟩ := hnodup
  refine ⟨before.map _, after.map _, by unfold Db.inodesAwaitingDone; rw [hsplit, List.map_append,
    List.map_cons], ?_, ?_⟩
  · intro row hrow he
    obtain ⟨x, hx, rfl⟩ := List.mem_map.mp hrow
    exact hbefore (List.mem_map.mpr ⟨x, hx, he⟩)
  · intro row hrow he
    obtain ⟨x, hx, rfl⟩ := List.mem_map.mp hrow
    exact hafter (List.mem_map.mpr ⟨x, hx, he⟩)

theorem pollRow_inos (hk : (db.remotes.map Remote.ino).Nodup) :
    ((pollRow db row processing terminal now).remotes.map Remote.ino).Nodup := by
  have hset : ∀ u st t, ((db.setMirroredState row.ino u st t).remotes.map Remote.ino).Nodup := fun u st t => by
    unfold Db.setMirroredState
    rw [Table.map_modify]
    · exact hk
    · exact fun _ _ => rfl
  unfold pollRow
  dsimp only
  split_ifs
  · exact hset _ _ _
  · split
    · exact hset _ _ _
    · split
      · split_ifs <;> exact hset _ _ _
      · exact hk.sublist ((Table.erase_sublist _ _).map _)
      · exact hset _ _ _

theorem tick_inos (hk : (db.remotes.map Remote.ino).Nodup) : ((tick db k).remotes.map Remote.ino).Nodup := by
  unfold tick
  split
  · exact hk
  · rename_i processing _
    generalize db.inodesAwaitingDone = rows
    induction rows generalizing db with
    | nil => exact hk
    | cons row rows ih => exact ih (pollRow_inos hk)

/-- After a tick that reports the document as not done, the row is stamped with its clock. -/
theorem tick_row (hk : (db.remotes.map Remote.ino).Nodup) (hr : db.getRemote i = some r)
    (hd : r.lastStatus ≠ some "done") (h : NotDone i r.remoteId k) :
    ∃ r', (tick db k).getRemote i = some r' ∧ r'.remoteId = r.remoteId ∧ r'.lastStatus ≠ some "done" ∧
      r'.lastStatusAt = some k.nowMs := by
  obtain ⟨processing, hp, hpend⟩ := h
  obtain ⟨before, after, hrows, hbefore, hafter⟩ := awaiting_split hk hr hd
  unfold tick
  rw [hp]
  dsimp only
  rw [hrows, List.foldl_append, List.foldl_cons]
  have hr' : (before.foldl (fun db row => pollRow db row processing (k.terminal row.ino) k.nowMs) db).getRemote i =
      some r := (foldl_other hbefore).trans hr
  obtain ⟨r', hr'', hrest⟩ : ∃ r', (pollRow _ ⟨i, r.remoteId, r.lastStatus, r.lastStatusAt⟩ processing (k.terminal i)
      k.nowMs).getRemote i = some r' ∧ _ := pollRow_pending hr' hd hpend
  exact ⟨r', (foldl_other hafter).trans hr'', hrest⟩

theorem stuckTier_stop {age : ℤ} : stuckTier age = .stop ↔ HOUR_MS ≤ age := by
  unfold stuckTier HOUR_MS
  split_ifs with h1 h2 h3
  · exact ⟨fun h => (nomatch h), fun h => by omega⟩
  · exact ⟨fun h => (nomatch h), fun h => by omega⟩
  · exact ⟨fun h => (nomatch h), fun h => by omega⟩
  · exact ⟨fun _ => by omega, fun _ => rfl⟩

/-- The branch is taken where the stamp of the row is an hour old. -/
theorem stopTaken_iff (hk : (db.remotes.map Remote.ino).Nodup) (hr : db.getRemote i = some r)
    (hd : r.lastStatus ≠ some "done") (h : NotDone i r.remoteId k) :
    StopTaken db i k ↔ ∃ t, r.lastStatusAt = some t ∧ HOUR_MS ≤ k.nowMs - t := by
  obtain ⟨processing, hp, -⟩ := h
  obtain ⟨before, after, hrows, hbefore, hafter⟩ := awaiting_split hk hr hd
  have hage : ∀ t : Option ℤ, stuckTier ((t.map (k.nowMs - ·)).getD 0) = .stop ↔ ∃ t', t = some t' ∧
    HOUR_MS ≤ k.nowMs - t' := by
    intro t
    rw [stuckTier_stop]
    cases t with
    | none =>
      have hzero : ¬ HOUR_MS ≤ 0 := by decide
      exact ⟨fun hh => absurd hh hzero, fun ⟨_, he, _⟩ => (nomatch he)⟩
    | some t => exact ⟨fun hh => ⟨t, rfl, hh⟩, fun ⟨_, he, hh⟩ => Option.some.inj he ▸ hh⟩
  unfold StopTaken
  rw [hrows]
  constructor
  · rintro ⟨-, row, hrow, hi, hstop⟩
    rcases List.mem_append.mp hrow with hrow | hrow
    · exact absurd hi (hbefore row hrow)
    · rcases List.mem_cons.mp hrow with rfl | hrow
      · exact (hage _).mp hstop
      · exact absurd hi (hafter row hrow)
  · intro hgap
    exact ⟨⟨processing, hp⟩, _, List.mem_append_right _ List.mem_cons_self, rfl, (hage _).mpr hgap⟩

/-- A run of ticks that report the document as not done gives the inode up where two of them lie an hour apart. -/
theorem stops_iff {ks : List Tick} (hk : (db.remotes.map Remote.ino).Nodup) (hr : db.getRemote i = some r)
    (hd : r.lastStatus ≠ some "done") (h : ∀ k ∈ ks, NotDone i r.remoteId k) :
    Stops i db ks ↔ Gap r.lastStatusAt ks := by
  induction ks generalizing db r with
  | nil => exact Iff.rfl
  | cons k ks ih =>
    obtain ⟨hk1, hks⟩ := List.forall_mem_cons.mp h
    obtain ⟨r', hr', hid, hd', hat⟩ := tick_row hk hr hd hk1
    have hrest : Stops i (tick db k) ks ↔ Gap r'.lastStatusAt ks :=
      ih (tick_inos hk) hr' hd' fun x hx => by rw [hid]; exact hks x hx
    unfold Stops Gap
    rw [stopTaken_iff hk hr hd hk1, hrest, hat]

/-- Inode 2 mirrors the document `A`, which the server goes on processing. -/
def waiting : Db := { Db.fresh with remotes := [⟨2, "A", none, none, none⟩] }

/-- A tick at a second. -/
def second (n : ℕ) : Tick := ⟨1000 * n, .ok [("A", "embedding")], fun _ => .error .notFound⟩

theorem notDone_second (n : ℕ) : NotDone 2 "A" (second n) := by
  refine ⟨_, rfl, ?_⟩
  show ("embedding" : String) ≠ "done"
  decide

/-- **Stuck detection fires in time exactly where two ticks lie an hour apart.** Every tick of the run reports
the document of the inode as not done. -/
theorem fires_iff {ks : List Tick} (hk : (db.remotes.map Remote.ino).Nodup) (hr : db.getRemote i = some r)
    (hd : r.lastStatus ≠ some "done") (h : ∀ k ∈ ks, NotDone i r.remoteId k) :
    Fires db i ks ↔ Lags r.lastStatusAt ks := by
  have hpre : ∀ ks', ks' <+: ks → (Stops i db ks' ↔ Gap r.lastStatusAt ks') := fun ks' hpre =>
    stops_iff hk hr hd fun k hk' => h k (hpre.subset hk')
  unfold Fires Lags
  constructor
  · intro hf first mid k hp ht
    exact (hpre _ hp).mp (hf first mid k hp ht)
  · intro hl first mid k hp ht
    exact (hpre _ hp).mpr (hl first mid k hp ht)

/-- A poller that was held up for an hour between two ticks does give the inode up. -/
theorem fires_iff_late : Fires waiting 2 [second 0, second 3600] := by
  have hticks : ∀ k ∈ [second 0, second 3600], NotDone 2 "A" k := fun k hk => by
    rcases List.mem_cons.mp hk with rfl | hk
    · exact notDone_second 0
    · obtain rfl := List.mem_singleton.mp hk
      exact notDone_second 3600
  refine (fires_iff (r := ⟨2, "A", none, none, none⟩) (by decide) rfl (by decide) hticks).mpr ?_
  intro first mid k hp _
  have heq : first :: mid ++ [k] = [second 0, second 3600] := by
    refine hp.eq_of_length_le ?_
    simp
  rw [heq]
  exact .inr (.inl ⟨_, rfl, by decide⟩)

/-- Ticks at every second from one on never lie an hour apart. -/
theorem gap_seconds (len start : ℕ) {stamp : ℤ} (h : 1000 * start < stamp + HOUR_MS) :
    ¬ Gap (some stamp) ((List.range' start len).map second) := by
  induction len generalizing start stamp with
  | zero => exact id
  | succ len ih =>
    rw [List.range'_succ, List.map_cons]
    rintro (⟨t, ht, hgap⟩ | hgap)
    · obtain rfl := Option.some.inj ht
      have hnow : (second start).nowMs = 1000 * start := rfl
      omega
    · refine ih (start + 1) ?_ hgap
      have hnow : (second start).nowMs = 1000 * start := rfl
      have hhour : HOUR_MS = 3600000 := rfl
      rw [hnow]
      push_cast
      omega

/-- An hour of ticks, one a second, and the inode is not given up. -/
theorem never_fires : ¬ ∀ db i r ks, (db.remotes.map Remote.ino).Nodup → db.getRemote i = some r →
    r.lastStatus ≠ some "done" → (∀ k ∈ ks, NotDone i r.remoteId k) → Fires db i ks := by
  intro hall
  have hticks : ∀ k ∈ (List.range' 0 3601).map second, NotDone 2 "A" k := fun k hk => by
    obtain ⟨n, -, rfl⟩ := List.mem_map.mp hk
    exact notDone_second n
  have hsplit : (List.range' 0 3601).map second = second 0 :: (List.range' 1 3599).map second ++ [second 3600] := by
    rw [List.range'_succ, List.range'_concat]
    simp
  have hfires := hall waiting 2 ⟨2, "A", none, none, none⟩ _ (by decide) rfl (by decide) hticks
  have hstops := hfires (second 0) ((List.range' 1 3599).map second) (second 3600) (hsplit ▸ List.prefix_refl _) (by decide)
  rw [← hsplit, stops_iff (r := ⟨2, "A", none, none, none⟩) (by decide) rfl (by decide) hticks, List.range'_succ,
    List.map_cons] at hstops
  rcases hstops with ⟨t, ht, -⟩ | hgap
  · cases ht
  · exact gap_seconds 3600 1 (by decide) hgap

end Lemmas

end Stuck
end Smfs
