/-
# What a burst of writes costs

The comments of `push.rs` promise that a burst of saves collapses to two
requests for a filepath. With upserts, claims and successes only, the row of a
filepath is a slot that coalesces (`slot`, `step_slot`), so that the laws of
`Smfs.Lib.Coalesce` hold of every run of the queue (`burst_bound`).

Key definitions: `Burst.Act`, `Burst.step`, `Burst.seen`, `Burst.Run`, `Burst.slot`, `Burst.Bound`.
Key theorems: `Burst.step_slot`, `Burst.Run.slot`, `Burst.comes`, `Burst.burst_bound`.
-/
import Smfs.Lib.Coalesce
import Smfs.Lib.Reach
import Smfs.Queue

namespace Smfs
namespace Burst

open PushQueue Coalesce Trans

/-- The calls. A success is that of the worker that holds the row. -/
inductive Act
  | upsert (filepath : String) (pl : Payload) (remoteId : Option String) (nowMs : ℤ)
  | claim (nowMs : ℤ)
  | success (filepath : String) (nowMs : ℤ)

def step (q : PushQueue) : Act → Option PushQueue
  | .upsert p pl rid now => some (q.upsert p pl rid now)
  | .claim now => (q.claimNext now).map Prod.snd
  | .success p now => if q.inflight p then some (q.finalizeSuccess p now) else none

/-- What a call is for a filepath. -/
def seen (p : String) (q : PushQueue) : Act → Option (Event Payload)
  | .upsert p' pl _ _ => if p' = p then some (.put (q.get p).isNone pl) else none
  | .claim now => (q.claimNext now).bind fun c => if c.1.filepath = p then some (.take c.1.payload) else none
  | .success p' _ => if p' = p then some .done else none

/-- A run of calls, with what it is for a filepath. -/
inductive Run (p : String) : PushQueue → List (Event Payload) → PushQueue → Prop
  | nil (q : PushQueue) : Run p q [] q
  | cons {q q' q'' : PushQueue} {a : Act} {es : List (Event Payload)} (ha : step q a = some q')
      (hr : Run p q' es q'') : Run p q ((seen p q a).toList ++ es) q''

/-- What the calls lead to for one filepath. -/
structure Bound (p : String) (es : List (Event Payload)) (q : PushQueue) : Prop where
  /-- The upserts between a claim and its success lead to one more claim. It has come, and no other
  comes before a further upsert; or its row waits, and claims alone lead to it. -/
  one_more : ∀ h x w rest, es = h ++ .take x :: w ++ .done :: rest → .done ∉ w → puts w ≠ [] →
    ∃ us y, OnlyPuts us ∧ (puts (w ++ us)).getLast? = some y ∧
      (rest = us ∧ (∃ q', Run p q [.take y] q') ∨ ∃ more, rest = us ++ .take y :: more ∧
        ∀ a b, more = a ++ b → puts a = [] → takes a = 0)
  /-- A job carries the last upsert before its claim. -/
  carries : ∀ h x rest, es = h ++ .take x :: rest → (puts h).getLast? = some x
  count : takes es ≤ fresh es + windows false es
  /-- When the row goes, the last job has carried the last upsert. -/
  gone : ∀ h, es = h ++ [.done] → q.get p = none →
    ∃ h' x, h = h' ++ [.take x] ∧ (puts h').getLast? = some x
  /-- A burst that ends before the first job does. -/
  burst : ∀ h rest, es = h ++ rest → .done ∉ h → puts rest = [] → takes es ≤ 2

/-! ### A row as a slot -/

/-- The row of a filepath as a slot. -/
def slot (q : PushQueue) (p : String) : Slot Payload :=
  match q.get p with
  | none => .absent
  | some r => if r.inflight then .busy r.main r.pending else .idle r.main

/-- A row that is not poisoned, with a write parked only behind a worker. -/
def PlainRow (r : PushRow) : Prop := r.poisoned = false ∧ (r.inflight = false → r.pending = none)

/-- What the queue is without failures. -/
structure Plain (q : PushQueue) : Prop where
  wf : q.WF
  rows : ∀ p r, q.get p = some r → PlainRow r

section Lemmas

variable {q q' : PushQueue} {p : String} {a : Act} {es : List (Event Payload)}

theorem slot_none (h : q.get p = none) : slot q p = .absent := by
  unfold slot
  rw [h]

theorem slot_idle {r : PushRow} (h : q.get p = some r) (hi : r.inflight = false) : slot q p = .idle r.main := by
  unfold slot
  simp [h, hi]

theorem slot_held {r : PushRow} (h : q.get p = some r) (hi : r.inflight = true) :
    slot q p = .busy r.main r.pending := by
  unfold slot
  simp [h, hi]

theorem slot_congr (h : q'.get p = q.get p) : slot q' p = slot q p := by
  unfold slot
  rw [h]

theorem empty_plain : Plain empty := ⟨empty_wf, fun _ _ h => by cases h⟩

theorem success_some {now : ℤ} (h : step q (.success p now) = some q') :
    q.inflight p = true ∧ q' = q.finalizeSuccess p now := by
  unfold step at h
  dsimp only at h
  split_ifs at h with hi
  exact ⟨hi, (Option.some.inj h).symm⟩

theorem seen_upsert {p' : String} {pl : Payload} {rid : Option String} {now : ℤ} :
    seen p q (.upsert p' pl rid now) = if p' = p then some (.put (q.get p).isNone pl) else none := rfl

theorem seen_claim {now : ℤ} {j : PushJob} (hc : q.claimNext now = some (j, q')) :
    seen p q (.claim now) = if j.filepath = p then some (.take j.payload) else none := by
  unfold seen
  dsimp only
  rw [hc]
  rfl

/-- The rows are plain once that of one filepath is. -/
theorem Plain.of_get {x : Option PushRow} (hq : Plain q) (hwf : q'.WF)
    (hget : ∀ p', q'.get p' = if p' = p then x else q.get p') (hx : ∀ r, x = some r → PlainRow r) : Plain q' := by
  refine ⟨hwf, fun p' r hr => ?_⟩
  rw [hget] at hr
  split_ifs at hr
  · exact hx r hr
  · exact hq.rows p' r hr

theorem upserted_plain (hq : Plain q) (pl : Payload) (rid : Option String) (now : ℤ) :
    PlainRow (q.upserted p pl rid now) := by
  cases hr : q.get p with
  | none =>
    rw [upserted_none hr]
    exact ⟨rfl, fun _ => rfl⟩
  | some r =>
    obtain ⟨hhealthy, hparked⟩ := hq.rows p r hr
    cases hi : r.inflight with
    | false =>
      rw [upserted_idle hr hi]
      exact ⟨hhealthy, fun _ => hparked hi⟩
    | true =>
      rw [upserted_held hr hi]
      refine ⟨hhealthy, fun hfree => ?_⟩
      -- a worker that holds the row still does
      have heq : true = false := hi.symm.trans hfree
      cases heq

/-- What an upsert is for the slot at its filepath. -/
theorem upsert_slot {pl : Payload} {rid : Option String} {now : ℤ} (hn : isMacosNoisePath p = false) :
    Step (slot q p) (.put (q.get p).isNone pl) (slot (q.upsert p pl rid now) p) := by
  have hg : (q.upsert p pl rid now).get p = some (q.upserted p pl rid now) := (get_upsert hn).trans (if_pos rfl)
  cases hr : q.get p with
  | none =>
    rw [upserted_none hr] at hg
    rw [slot_none hr, slot_idle hg rfl]
    exact .first pl
  | some r =>
    cases hi : r.inflight with
    | false =>
      rw [upserted_idle hr hi] at hg
      rw [slot_idle hr hi, slot_idle hg hi]
      exact .replace r.main pl
    | true =>
      rw [upserted_held hr hi] at hg
      rw [slot_held hr hi, slot_held hg hi]
      exact .park r.main r.pending pl

/-- What a success is for the slot of the row that is held. -/
theorem success_slot {now : ℤ} (hi : q.inflight p = true) :
    Step (slot q p) .done (slot (q.finalizeSuccess p now) p) := by
  obtain ⟨r, hr, hri⟩ := inflight_eq_true.mp hi
  have hg : (q.finalizeSuccess p now).get p = (q.get p).bind fun r => r.pending.map fun pl => promoted pl now r :=
    get_finalizeSuccess.trans (if_pos rfl)
  rw [slot_held hr hri]
  rw [hr, Option.bind_some] at hg
  cases hp : r.pending with
  | none =>
    rw [hp] at hg
    rw [slot_none hg]
    exact .finish r.main
  | some pl =>
    rw [hp] at hg
    rw [slot_idle hg rfl]
    exact .promote r.main pl

theorem step_plain (hq : Plain q) (h : step q a = some q') : Plain q' := by
  cases a with
  | upsert p pl rid now =>
    cases h
    cases hn : isMacosNoisePath p with
    | true =>
      rw [upsert_noise hn]
      exact hq
    | false =>
      refine hq.of_get (hq.wf.upsert _ _ _ _) (fun p' => get_upsert hn) fun r hr => ?_
      obtain rfl := Option.some.inj hr
      exact upserted_plain hq pl rid now
  | claim now =>
    obtain ⟨⟨j, q₁⟩, hc, rfl⟩ := Option.map_eq_some_iff.mp h
    have hwf : q₁.WF := hq.wf.claimNext hc
    obtain ⟨r, hr, -, -, -, rfl⟩ := claimNext_spec hc
    have hg := hq.wf.get_mem hr
    refine hq.of_get hwf (fun p' => get_claimed hg) fun r' hr' => ?_
    obtain rfl := Option.some.inj hr'
    exact ⟨(hq.rows _ r hg).1, fun hi => by cases hi⟩
  | success p now =>
    obtain ⟨-, rfl⟩ := success_some h
    refine hq.of_get (hq.wf.finalizeSuccess _ _) (fun p' => get_finalizeSuccess) fun r' hr' => ?_
    obtain ⟨r, hr, hr'⟩ := Option.bind_eq_some_iff.mp hr'
    obtain ⟨pl, -, rfl⟩ := Option.map_eq_some_iff.mp hr'
    exact ⟨(hq.rows p r hr).1, fun _ => rfl⟩

/-- A call is one step of the slot of a filepath, or none. -/
theorem step_slot (hq : Plain q) (hn : isMacosNoisePath p = false) (h : step q a = some q') :
    (∃ e, seen p q a = some e ∧ Step (slot q p) e (slot q' p)) ∨ seen p q a = none ∧ slot q' p = slot q p := by
  cases a with
  | upsert p' pl rid now =>
    cases h
    by_cases hp : p' = p
    · subst hp
      exact .inl ⟨_, if_pos rfl, upsert_slot hn⟩
    · refine .inr ⟨if_neg hp, ?_⟩
      cases hn' : isMacosNoisePath p' with
      | true => rw [upsert_noise hn']
      | false => exact slot_congr ((get_upsert hn').trans (if_neg (Ne.symm hp)))
  | claim now =>
    obtain ⟨⟨j, q₁⟩, hc, rfl⟩ := Option.map_eq_some_iff.mp h
    rw [seen_claim hc]
    obtain ⟨r, hr, hcl, rfl, -, rfl⟩ := claimNext_spec hc
    have hg := hq.wf.get_mem hr
    by_cases hp : r.filepath = p
    · subst hp
      have hidle : r.inflight = false := (claimable_iff.mp hcl).1
      have hheld : (q.modify r.filepath (held now)).get r.filepath = some (held now r) :=
        (get_claimed hg).trans (if_pos rfl)
      refine .inl ⟨_, if_pos rfl, ?_⟩
      have hpend : (held now r).pending = none := (hq.rows _ r hg).2 hidle
      rw [slot_idle hg hidle, slot_held hheld rfl, hpend]
      exact .take r.main
    · exact .inr ⟨if_neg hp, slot_congr ((get_claimed hg).trans (if_neg (Ne.symm hp)))⟩
  | success p' now =>
    obtain ⟨hi, rfl⟩ := success_some h
    by_cases hp : p' = p
    · subst hp
      exact .inl ⟨_, if_pos rfl, success_slot hi⟩
    · exact .inr ⟨if_neg hp, slot_congr (get_finalizeSuccess.trans (if_neg (Ne.symm hp)))⟩

theorem Run.slot (h : Run p q es q') (hn : isMacosNoisePath p = false) (hq : Plain q) :
    Plain q' ∧ Coalesce.Run (slot q p) es (slot q' p) := by
  induction h with
  | nil q => exact ⟨hq, .nil _⟩
  | cons ha _ ih =>
    obtain ⟨hplain, hrun⟩ := ih (step_plain hq ha)
    refine ⟨hplain, ?_⟩
    rcases step_slot hq hn ha with ⟨e, he, hstep⟩ | ⟨he, hsame⟩
    · rw [he]
      exact .cons hstep hrun
    · rw [he, ← hsame]
      exact hrun

/-- Claims alone lead to that of a row that waits: each one takes a row that is due. -/
theorem comes {r : PushRow} (hq : Plain q) (hr : q.get p = some r) (hi : r.inflight = false) :
    ∃ q', Run p q [.take r.main] q' := by
  obtain ⟨n, hn⟩ : ∃ n, q.rows.countP (claimable r.updatedAt) = n := ⟨_, rfl⟩
  induction n using Nat.strong_induction_on generalizing q with
  | _ n ih =>
    obtain ⟨hmem, rfl⟩ := get_some hr
    have hdue : claimable r.updatedAt r = true := claimable_iff.mpr ⟨hi, (hq.rows _ r hr).1, le_rfl⟩
    cases hc : q.claimNext r.updatedAt with
    | none => exact absurd ((claimNext_none hc r hmem).symm.trans hdue) Bool.false_ne_true
    | some c =>
      obtain ⟨j, q'⟩ := c
      have hstep : step q (.claim r.updatedAt) = some q' := by rw [step, hc]; rfl
      have hplain : Plain q' := step_plain hq hstep
      have hseen : seen r.filepath q (.claim r.updatedAt) =
          if j.filepath = r.filepath then some (.take j.payload) else none := seen_claim hc
      obtain ⟨y, hy, hcl, rfl, -, rfl⟩ := claimNext_spec hc
      have hgy := hq.wf.get_mem hy
      by_cases hp : y.filepath = r.filepath
      · obtain rfl : y = r := Option.some.inj (hgy.symm.trans (by rw [hp, hr]))
        have hrun : Run y.filepath q _ _ := .cons hstep (.nil _)
        rw [hseen, if_pos (show (jobOf y).filepath = y.filepath from rfl)] at hrun
        exact ⟨_, hrun⟩
      · -- another row goes first, and fewer are due
        have hget : (q.modify y.filepath (held r.updatedAt)).get r.filepath = some r :=
          (get_claimed hgy).trans ((if_neg (Ne.symm hp)).trans hr)
        have hgone : (q.modify y.filepath (held r.updatedAt)).rows.countP (claimable r.updatedAt) =
            (Table.erase PushRow.filepath q.rows y.filepath).countP (claimable r.updatedAt) :=
          Table.countP_modify fun _ => rfl
        have hcount := Table.countP_erase hq.wf.keys hgy (claimable r.updatedAt)
        rw [if_pos hcl] at hcount
        obtain ⟨q', hrun⟩ := ih _ (by omega) hplain hget rfl
        have hrun' : Run r.filepath q _ _ := .cons hstep hrun
        rw [hseen, if_neg (show (jobOf y).filepath ≠ r.filepath from hp)] at hrun'
        exact ⟨q', hrun'⟩

/-- Nothing comes of the writes at a path of noise. -/
theorem Run.noise (h : Run p q es q') (hn : isMacosNoisePath p = true) (hq : q.WF) (hg : q.get p = none) :
    ∀ e ∈ es, ∃ x, e = .put true x := by
  induction h with
  | nil q => exact fun e he => (List.not_mem_nil he).elim
  | @cons q q' q'' a es ha _ ih =>
    cases a with
    | upsert p' pl rid now =>
      cases ha
      have hnone : (q.upsert p' pl rid now).get p = none := by
        by_cases hp : p' = p
        · rw [hp, upsert_noise hn, hg]
        · cases hn' : isMacosNoisePath p' with
          | true => rw [upsert_noise hn', hg]
          | false => rw [get_upsert hn', if_neg (Ne.symm hp), hg]
      intro e he
      rcases List.mem_append.mp he with he | he
      · rw [seen_upsert, hg] at he
        split_ifs at he
        · exact ⟨pl, List.mem_singleton.mp he⟩
        · exact (List.not_mem_nil he).elim
      · exact ih (hq.upsert _ _ _ _) hnone e he
    | claim now =>
      obtain ⟨⟨j, q₁⟩, hc, rfl⟩ := Option.map_eq_some_iff.mp ha
      have hwf : q₁.WF := hq.claimNext hc
      have hseen : seen p q (.claim now) = if j.filepath = p then some (.take j.payload) else none := seen_claim hc
      obtain ⟨r, hr, -, rfl, -, rfl⟩ := claimNext_spec hc
      have hgr := hq.get_mem hr
      have hp : r.filepath ≠ p := by
        rintro rfl
        rw [hg] at hgr
        cases hgr
      rw [hseen, show (jobOf r).filepath = r.filepath from rfl, if_neg hp]
      exact ih hwf ((get_claimed hgr).trans ((if_neg (Ne.symm hp)).trans hg))
    | success p' now =>
      obtain ⟨hi, rfl⟩ := success_some ha
      have hp : p' ≠ p := by
        rintro rfl
        obtain ⟨r, hr, -⟩ := inflight_eq_true.mp hi
        rw [hg] at hr
        cases hr
      have hseen : seen p q (.success p' now) = none := if_neg hp
      rw [hseen]
      exact ih (hq.finalizeSuccess _ _) (get_finalizeSuccess.trans ((if_neg (Ne.symm hp)).trans hg))

/-- The row of a slot in which a value waits. -/
theorem idle_row {pl : Payload} (h : slot q p = .idle pl) :
    ∃ r, q.get p = some r ∧ r.inflight = false ∧ r.main = pl := by
  unfold slot at h
  split at h
  · cases h
  · rename_i r hr
    split_ifs at h with hi
    exact ⟨r, hr, by simpa using hi, Slot.idle.inj h⟩

theorem bound_noise (h : ∀ e ∈ es, ∃ x, e = Event.put true x) : Bound p es q where
  one_more := by
    rintro h' x w rest rfl - -
    obtain ⟨y, hy⟩ := h (.take x) (by simp)
    cases hy
  carries := by
    rintro h' x rest rfl
    obtain ⟨y, hy⟩ := h (.take x) (by simp)
    cases hy
  count := by
    have hnone : takes es = 0 := List.countP_eq_zero.mpr fun e he => by
      obtain ⟨x, rfl⟩ := h e he
      exact Bool.false_ne_true
    omega
  gone := by
    rintro h' rfl -
    obtain ⟨y, hy⟩ := h .done (by simp)
    cases hy
  burst := by
    rintro h' rest rfl - -
    have hnone : takes (h' ++ rest) = 0 := List.countP_eq_zero.mpr fun e he => by
      obtain ⟨x, rfl⟩ := h e he
      exact Bool.false_ne_true
    omega

/-- **A burst of writes costs two jobs at most.** Upserts, claims and successes are run on a queue that such
calls have made, from where a filepath has no row. -/
theorem burst_bound (hq : Reach step anyStep empty q) (hp : q.get p = none) (h : Run p q es q') : Bound p es q' := by
  have hplain : Plain q := hq.inv empty_plain fun _ _ _ hI _ hst => step_plain hI hst
  cases hn : isMacosNoisePath p with
  | true => exact bound_noise (h.noise hn hplain.wf hp)
  | false =>
    obtain ⟨hplain', hrun⟩ := h.slot hn hplain
    rw [slot_none hp] at hrun
    refine ⟨?_, ?_, hrun.takes_le, ?_, ?_⟩
    · rintro h' x w rest rfl hd hw
      obtain ⟨us, y, -, hus, hlast, hcase⟩ := hrun.window hd hw
      refine ⟨us, y, hus, hlast, hcase.imp_left fun ⟨hrest, hidle⟩ => ⟨hrest, ?_⟩⟩
      obtain ⟨r, hr, hi, rfl⟩ := idle_row hidle
      exact comes hplain' hr hi
    · rintro h' x rest rfl
      have hlast : lastPut none h' = some x := hrun.take_latest
      rwa [lastPut, Option.or_none] at hlast
    · rintro h' rfl hnone
      rw [slot_none hnone] at hrun
      obtain ⟨es', x, rfl, hlast⟩ := hrun.gone
      rw [lastPut, Option.or_none] at hlast
      exact ⟨es', x, rfl, hlast⟩
    · rintro h' rest rfl hd hrest
      exact hrun.takes_le_two hd hrest

/-- A create is being sent while two updates arrive, and the last one is sent after it. -/
theorem burst_bound_saved : ∃ es q, Run "/a.md" empty es q ∧ Bound "/a.md" es q ∧ takes es = 2 := by
  have hrun : Run "/a.md" empty _ _ :=
    .cons (a := .upsert "/a.md" ⟨.create, some 2, none⟩ none 0) rfl <|
    .cons (a := .claim 0) rfl <|
    .cons (a := .upsert "/a.md" ⟨.update, some 2, none⟩ none 1) rfl <|
    .cons (a := .upsert "/a.md" ⟨.update, some 2, none⟩ none 2) rfl <|
    .cons (a := .success "/a.md" 3) rfl <|
    .cons (a := .claim 3) rfl <| .nil _
  exact ⟨_, _, hrun, burst_bound .start rfl hrun, by decide⟩

end Lemmas

end Burst
end Smfs
