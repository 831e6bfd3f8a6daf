/-
# Programs of statements, any of which may fail

A connection has the tables, what the process holds beside them, and which of
the statements to come fail. A statement that fails leaves the tables as they
are, and the program goes on with nothing for an answer; whether it throws is
its own affair. A transaction that ends in an error, or that is dropped,
leaves the tables as they were at its begin; what the process holds is not
rolled back.

Of a program that throws, `Atomic` says that all is as before. It is so of a
program that only reads, of a transaction that touches nothing beside the
tables, of one such after the other if the first only reads, and of one
followed by what never throws.

Key definitions: `Sql.Conn`, `Sql.Prog`, `Sql.statement`, `Sql.transaction`, `Sql.Atomic`.
Key theorems: `Sql.Atomic.read`, `Sql.Atomic.andTotal`, `Sql.transaction_atomic`.
-/
import Mathlib.Tactic.Common

namespace Sql

/-- The tables, what the process holds beside them, and whether the next
statement fails, and the one after it, and so on. -/
structure Conn (δ γ : Type) where
  tables : δ
  memory : γ
  fails : ℕ → Bool

/-- A program on a connection, which may throw an `ε`. -/
structure Prog (ε δ γ α : Type) where
  run : Conn δ γ → Except ε α × Conn δ γ

variable {ε δ γ α β ρ : Type}

/-- One statement is issued. -/
def Conn.next (c : Conn δ γ) : Conn δ γ := { c with fails := fun n => c.fails (n + 1) }

/-- One statement is issued, and leaves the tables so. -/
def Conn.wrote (c : Conn δ γ) (t : δ) : Conn δ γ := { c.next with tables := t }

namespace Prog

protected def pure (a : α) : Prog ε δ γ α := ⟨fun c => (.ok a, c)⟩

protected def bind (p : Prog ε δ γ α) (f : α → Prog ε δ γ β) : Prog ε δ γ β where
  run c :=
    match p.run c with
    | (.ok a, c) => (f a).run c
    | (.error e, c) => (.error e, c)

instance : Monad (Prog ε δ γ) where
  pure := Prog.pure
  bind := Prog.bind

end Prog

/-- An answer that needs no statement. -/
def ofExcept (r : Except ε α) : Prog ε δ γ α := ⟨fun c => (r, c)⟩

def raise (e : ε) : Prog ε δ γ α := ofExcept (.error e)

/-- One statement: an answer and the tables after it, or nothing if it is refused. -/
def statement (f : δ → Option (ρ × δ)) : Prog ε δ γ (Option ρ) where
  run c :=
    if c.fails 0 then (.ok none, c.next)
    else
      match f c.tables with
      | none => (.ok none, c.next)
      | some (r, tables) => (.ok (some r), c.wrote tables)

/-- A statement that reads. -/
def query (f : δ → Option ρ) : Prog ε δ γ (Option ρ) := statement fun t => (f t).map fun r => (r, t)

/-- A statement that writes, unless a constraint refuses it. -/
def execute (f : δ → Option δ) : Prog ε δ γ (Option Unit) := statement fun t => (f t).map fun t => ((), t)

/-- The error if there is no answer. -/
def orRaise (e : ε) (p : Prog ε δ γ (Option ρ)) : Prog ε δ γ ρ := p >>= fun r => ofExcept (r.elim (.error e) .ok)

/-- The answer is not looked at. -/
def ignore (p : Prog ε δ γ (Option ρ)) : Prog ε δ γ Unit := p >>= fun _ => pure ()

/-- What it throws is not passed on. -/
def attempt (p : Prog ε δ γ α) : Prog ε δ γ Unit := ⟨fun c => (.ok (), (p.run c).2)⟩

/-- What the process holds changes. -/
def touch (f : γ → γ) : Prog ε δ γ Unit := ⟨fun c => (.ok (), { c with memory := f c.memory })⟩

/-- The tables, without a statement. -/
def peek : Prog ε δ γ δ := ⟨fun c => (.ok c.tables, c)⟩

/-- `BEGIN`, the body, and `COMMIT` if the body asks for it. A transaction that
is not committed is rolled back. -/
def transaction (e : ε) (commits : α → Bool) (body : Prog ε δ γ α) : Prog ε δ γ α where
  run c :=
    if c.fails 0 then (.error e, c.next)
    else
      match body.run c.next with
      | (.error e, c') => (.error e, { c' with tables := c.tables })
      | (.ok a, c') =>
        if commits a then
          if c'.fails 0 then (.error e, { c'.next with tables := c.tables }) else (.ok a, c'.next)
        else (.ok a, { c' with tables := c.tables })

/-- If the program throws here, all is as it was. -/
def AllOrNothing (p : Prog ε δ γ α) (c : Conn δ γ) : Prop :=
  ∀ e c', p.run c = (.error e, c') → c'.tables = c.tables ∧ c'.memory = c.memory

/-- A program that throws leaves all as it was. -/
def Atomic (p : Prog ε δ γ α) : Prop := ∀ c, AllOrNothing p c

/-- A program changes nothing. -/
def Reads (p : Prog ε δ γ α) : Prop := ∀ c, (p.run c).2.tables = c.tables ∧ (p.run c).2.memory = c.memory

/-- A program never throws. -/
def Total (p : Prog ε δ γ α) : Prop := ∀ c, ∃ a, (p.run c).1 = .ok a

/-- A program touches nothing beside the tables. -/
def InTables (p : Prog ε δ γ α) : Prop := ∀ c, (p.run c).2.memory = c.memory

section Lemmas

variable {p : Prog ε δ γ α} {f : α → Prog ε δ γ β} {c c' : Conn δ γ} {e : ε} {a : α}

/-! ### What a program does -/

theorem bind_apply (p : Prog ε δ γ α) (f : α → Prog ε δ γ β) (c : Conn δ γ) :
    (p >>= f).run c = match p.run c with
    | (.ok a, c) => (f a).run c
    | (.error e, c) => (.error e, c) := rfl

theorem statement_apply (s : δ → Option (ρ × δ)) (c : Conn δ γ) :
    (statement s : Prog ε δ γ (Option ρ)).run c = if c.fails 0 then (.ok none, c.next)
      else match s c.tables with
        | none => (.ok none, c.next)
        | some (r, t) => (.ok (some r), c.wrote t) := rfl

theorem transaction_apply (e : ε) (commits : α → Bool) (p : Prog ε δ γ α) (c : Conn δ γ) :
    (transaction e commits p).run c = if c.fails 0 then (.error e, c.next)
      else match p.run c.next with
        | (.error e, c') => (.error e, { c' with tables := c.tables })
        | (.ok a, c') =>
          if commits a then
            if c'.fails 0 then (.error e, { c'.next with tables := c.tables }) else (.ok a, c'.next)
          else (.ok a, { c' with tables := c.tables }) := rfl

theorem bind_ok (h : p.run c = (.ok a, c')) : (p >>= f).run c = (f a).run c' := by
  rw [bind_apply, h]

theorem bind_error (h : p.run c = (.error e, c')) : (p >>= f).run c = (.error e, c') := by
  rw [bind_apply, h]

/-- What follows an error is not run. -/
theorem bind_cases (p : Prog ε δ γ α) (f : α → Prog ε δ γ β) (c : Conn δ γ) :
    (∃ e c', p.run c = (.error e, c') ∧ (p >>= f).run c = (.error e, c')) ∨
      ∃ a c', p.run c = (.ok a, c') ∧ (p >>= f).run c = (f a).run c' := by
  rcases hp : p.run c with ⟨e | a, c'⟩
  · exact .inl ⟨e, c', rfl, bind_error hp⟩
  · exact .inr ⟨a, c', rfl, bind_ok hp⟩

/-- A statement fails, or is refused, or is done. -/
theorem statement_cases (ε : Type) (s : δ → Option (ρ × δ)) (c : Conn δ γ) :
    (statement s : Prog ε δ γ (Option ρ)).run c = (.ok none, c.next) ∨
      ∃ r t, c.fails 0 = false ∧ s c.tables = some (r, t) ∧
        (statement s : Prog ε δ γ (Option ρ)).run c = (.ok (some r), c.wrote t) := by
  rw [statement_apply]
  cases hf : c.fails 0 with
  | true => exact .inl (if_pos rfl)
  | false =>
    rw [if_neg Bool.false_ne_true]
    cases s c.tables with
    | none => exact .inl rfl
    | some r => exact .inr ⟨r.1, r.2, rfl, rfl, rfl⟩

/-! ### Programs that change nothing -/

theorem Reads.pure (a : α) : Reads (pure a : Prog ε δ γ α) := fun _ => ⟨rfl, rfl⟩

theorem Reads.ofExcept (r : Except ε α) : Reads (ofExcept r : Prog ε δ γ α) := fun _ => ⟨rfl, rfl⟩

theorem Reads.raise (e : ε) : Reads (raise e : Prog ε δ γ α) := .ofExcept _

theorem Reads.peek : Reads (peek : Prog ε δ γ δ) := fun _ => ⟨rfl, rfl⟩

theorem Reads.query (q : δ → Option ρ) : Reads (query q : Prog ε δ γ (Option ρ)) := by
  intro c
  unfold Sql.query
  rcases statement_cases ε (fun t => (q t).map fun r => (r, t)) c with h | ⟨r, t, -, ht, h⟩
  · rw [h]
    exact ⟨rfl, rfl⟩
  · obtain ⟨r', -, hr⟩ := Option.map_eq_some_iff.mp ht
    rw [h]
    exact ⟨(congrArg Prod.snd hr).symm, rfl⟩

theorem Reads.bind (hp : Reads p) (hf : ∀ a, Reads (f a)) : Reads (p >>= f) := by
  intro c
  have hc := hp c
  rcases bind_cases p f c with ⟨e, c', hpc, h⟩ | ⟨a, c', hpc, h⟩
  · rw [hpc] at hc
    rw [h]
    exact hc
  · rw [hpc] at hc
    rw [h]
    exact ⟨((hf a c').1).trans hc.1, ((hf a c').2).trans hc.2⟩

theorem Reads.orRaise {p : Prog ε δ γ (Option ρ)} (e : ε) (hp : Reads p) : Reads (orRaise e p) :=
  hp.bind fun _ => .ofExcept _

/-! ### Programs that never throw -/

theorem Total.pure (a : α) : Total (pure a : Prog ε δ γ α) := fun _ => ⟨a, rfl⟩

theorem Total.peek : Total (peek : Prog ε δ γ δ) := fun c => ⟨c.tables, rfl⟩

theorem Total.touch (g : γ → γ) : Total (touch g : Prog ε δ γ Unit) := fun _ => ⟨(), rfl⟩

theorem Total.statement (s : δ → Option (ρ × δ)) : Total (statement s : Prog ε δ γ (Option ρ)) := by
  intro c
  rcases statement_cases ε s c with h | ⟨r, t, -, -, h⟩
  · exact ⟨none, by rw [h]⟩
  · exact ⟨some r, by rw [h]⟩

theorem Total.query (q : δ → Option ρ) : Total (query q : Prog ε δ γ (Option ρ)) := .statement _

theorem Total.execute (g : δ → Option δ) : Total (execute g : Prog ε δ γ (Option Unit)) := .statement _

theorem Total.bind (hp : Total p) (hf : ∀ a, Total (f a)) : Total (p >>= f) := by
  intro c
  rcases bind_cases p f c with ⟨e, c', hpc, -⟩ | ⟨a, c', -, h⟩
  · obtain ⟨a, ha⟩ := hp c
    rw [hpc] at ha
    cases ha
  · rw [h]
    exact hf a c'

theorem Total.ignore {p : Prog ε δ γ (Option ρ)} (hp : Total p) : Total (ignore p) := hp.bind fun _ => .pure _

theorem Total.attempt (p : Prog ε δ γ α) : Total (attempt p) := fun _ => ⟨(), rfl⟩

/-! ### Programs that keep to the tables -/

theorem Reads.inTables (h : Reads p) : InTables p := fun c => (h c).2

theorem InTables.statement (s : δ → Option (ρ × δ)) : InTables (statement s : Prog ε δ γ (Option ρ)) := by
  intro c
  rcases statement_cases ε s c with h | ⟨r, t, -, -, h⟩ <;>
  · rw [h]
    rfl

theorem InTables.execute (g : δ → Option δ) : InTables (execute g : Prog ε δ γ (Option Unit)) := .statement _

theorem InTables.bind (hp : InTables p) (hf : ∀ a, InTables (f a)) : InTables (p >>= f) := by
  intro c
  have hc := hp c
  rcases bind_cases p f c with ⟨e, c', hpc, h⟩ | ⟨a, c', hpc, h⟩
  · rw [hpc] at hc
    rw [h]
    exact hc
  · rw [hpc] at hc
    rw [h]
    exact (hf a c').trans hc

theorem InTables.pure (a : α) : InTables (pure a : Prog ε δ γ α) := (Reads.pure a).inTables

theorem InTables.raise (e : ε) : InTables (raise e : Prog ε δ γ α) := (Reads.raise e).inTables

theorem InTables.query (q : δ → Option ρ) : InTables (query q : Prog ε δ γ (Option ρ)) := (Reads.query q).inTables

theorem InTables.orRaise {p : Prog ε δ γ (Option ρ)} (e : ε) (hp : InTables p) : InTables (orRaise e p) :=
  hp.bind fun _ => (Reads.ofExcept _).inTables

/-! ### All or nothing -/

theorem Reads.atomic (h : Reads p) : Atomic p := by
  intro c e c' hc
  have := h c
  rwa [hc] at this

theorem Atomic.raise (e : ε) : Atomic (raise e : Prog ε δ γ α) := (Reads.raise e).atomic

theorem Atomic.pure (a : α) : Atomic (pure a : Prog ε δ γ α) := (Reads.pure a).atomic

theorem allOrNothing_andTotal (hf : ∀ a, Total (f a)) : AllOrNothing p c → AllOrNothing (p >>= f) c := by
  intro hp e c' hc
  rcases bind_cases p f c with ⟨e', c₁, hpc, h⟩ | ⟨a, c₁, -, h⟩
  · rw [h] at hc
    cases hc
    exact hp _ _ hpc
  · rw [h] at hc
    obtain ⟨b, hb⟩ := hf a c₁
    rw [hc] at hb
    cases hb

theorem Total.atomic (h : Total p) : Atomic p := by
  intro c e c' hc
  obtain ⟨a, ha⟩ := h c
  rw [hc] at ha
  cases ha

/-- What only reads may come first. -/
theorem Atomic.read (hp : Reads p) (hf : ∀ a, Atomic (f a)) : Atomic (p >>= f) := by
  intro c e c' hc
  have hread := hp c
  rcases bind_cases p f c with ⟨e', c₁, hpc, h⟩ | ⟨a, c₁, hpc, h⟩
  · rw [h] at hc
    cases hc
    rwa [hpc] at hread
  · rw [h] at hc
    rw [hpc] at hread
    obtain ⟨ht, hm⟩ := hf a c₁ e c' hc
    exact ⟨ht.trans hread.1, hm.trans hread.2⟩

/-- What never throws may come last. -/
theorem Atomic.andTotal (hp : Atomic p) (hf : ∀ a, Total (f a)) : Atomic (p >>= f) := fun c =>
  allOrNothing_andTotal hf (hp c)

/-- A single change that is refused changes nothing. -/
theorem Atomic.execute (e : ε) (g : δ → Option δ) : Atomic (orRaise e (execute g) : Prog ε δ γ Unit) := by
  intro c e' c' hc
  rcases statement_cases ε (fun t => (g t).map fun t => ((), t)) c with h | ⟨r, t, -, -, h⟩
  · rw [orRaise, Sql.execute, bind_ok h] at hc
    cases hc
    exact ⟨rfl, rfl⟩
  · rw [orRaise, Sql.execute, bind_ok h] at hc
    cases hc

/-- **A transaction that keeps to the tables is done, or all is as it was.** -/
theorem transaction_atomic {commits : α → Bool} (e : ε) (hp : InTables p) : Atomic (transaction e commits p) := by
  intro c e' c' hc
  have hmem := hp c.next
  rw [transaction_apply] at hc
  cases hf : c.fails 0 with
  | true =>
    rw [hf, if_pos rfl] at hc
    cases hc
    exact ⟨rfl, rfl⟩
  | false =>
    rw [hf, if_neg Bool.false_ne_true] at hc
    generalize p.run c.next = r at hmem hc
    obtain ⟨r, c₁⟩ := r
    cases r with
    | error e₁ =>
      cases hc
      exact ⟨rfl, hmem⟩
    | ok a =>
      dsimp only at hc
      split_ifs at hc <;> cases hc
      exact ⟨rfl, hmem⟩

/-! ### Which runs come to an answer -/

theorem ofExcept_eq_ok {r : Except ε α} :
    (ofExcept r : Prog ε δ γ α).run c = (.ok a, c') ↔ r = .ok a ∧ c = c' := by
  simp [ofExcept]

theorem bind_eq_ok {b : β} :
    (p >>= f).run c = (.ok b, c') ↔ ∃ a c₁, p.run c = (.ok a, c₁) ∧ (f a).run c₁ = (.ok b, c') := by
  constructor
  · intro h
    rcases bind_cases p f c with ⟨e, c₁, -, h'⟩ | ⟨a, c₁, hpc, h'⟩
    · rw [h'] at h
      cases h
    · exact ⟨a, c₁, hpc, h' ▸ h⟩
  · rintro ⟨a, c₁, hpc, h⟩
    rw [bind_ok hpc, h]

theorem query_apply (q : δ → Option ρ) (c : Conn δ γ) :
    (query q : Prog ε δ γ (Option ρ)).run c = (.ok (if c.fails 0 then none else q c.tables), c.next) := by
  unfold query
  rw [statement_apply]
  split_ifs
  · rfl
  · cases q c.tables <;> rfl

theorem orRaise_query_apply (e : ε) (q : δ → Option ρ) (c : Conn δ γ) : (orRaise e (query q)).run c =
    ((if c.fails 0 then none else q c.tables).elim (.error e) .ok, c.next) :=
  bind_ok (query_apply q c)

/-- A change that no constraint refuses. -/
theorem orRaise_execute_apply (e : ε) (g : δ → δ) (c : Conn δ γ) :
    (orRaise e (execute fun t => some (g t)) : Prog ε δ γ Unit).run c =
      if c.fails 0 then (.error e, c.next) else (.ok (), c.wrote (g c.tables)) := by
  cases h : c.fails 0 <;> simp [orRaise, bind_apply, execute, statement_apply, ofExcept, h]

theorem orRaise_eq_ok {p : Prog ε δ γ (Option ρ)} {r : ρ} :
    (orRaise e p).run c = (.ok r, c') ↔ p.run c = (.ok (some r), c') := by
  unfold orRaise
  rw [bind_eq_ok]
  constructor
  · rintro ⟨o, c₁, hp, h⟩
    obtain ⟨ho, rfl⟩ := ofExcept_eq_ok.mp h
    cases o with
    | none => cases ho
    | some r' => cases ho; exact hp
  · exact fun h => ⟨some r, c', h, rfl⟩

theorem statement_eq_some {s : δ → Option (ρ × δ)} {r : ρ} :
    (statement s : Prog ε δ γ (Option ρ)).run c = (.ok (some r), c') ↔
      c.fails 0 = false ∧ ∃ t, s c.tables = some (r, t) ∧ c' = c.wrote t := by
  constructor
  · intro h
    rcases statement_cases ε s c with h' | ⟨r', t, hf, ht, h'⟩ <;> rw [h'] at h <;> cases h
    exact ⟨hf, t, ht, rfl⟩
  · rintro ⟨hf, t, ht, rfl⟩
    rw [statement_apply, hf, if_neg Bool.false_ne_true, ht]

theorem execute_eq_some {g : δ → Option δ} {u : Unit} :
    (execute g : Prog ε δ γ (Option Unit)).run c = (.ok (some u), c') ↔
      c.fails 0 = false ∧ ∃ t, g c.tables = some t ∧ c' = c.wrote t := by
  unfold execute
  rw [statement_eq_some]
  simp

theorem orRaise_query_eq_ok {q : δ → Option ρ} {r : ρ} : (orRaise e (query q)).run c = (.ok r, c') ↔
    c.fails 0 = false ∧ q c.tables = some r ∧ c' = c.next := by
  rw [orRaise_eq_ok, query_apply]
  cases c.fails 0 <;> simp [eq_comm]

theorem orRaise_execute_eq_ok {g : δ → Option δ} {u : Unit} : (orRaise e (execute g)).run c = (.ok u, c') ↔
    c.fails 0 = false ∧ ∃ t, g c.tables = some t ∧ c' = c.wrote t :=
  orRaise_eq_ok.trans execute_eq_some

/-- A transaction that always asks for its commit. -/
theorem transaction_eq_ok : (transaction e (fun _ => true) p).run c = (.ok a, c') ↔ c.fails 0 = false ∧
    ∃ c₁, p.run c.next = (.ok a, c₁) ∧ c₁.fails 0 = false ∧ c' = c₁.next := by
  rw [transaction_apply]
  cases c.fails 0 with
  | true => exact ⟨fun h => (nomatch h), fun h => (nomatch h.1)⟩
  | false =>
    rw [if_neg Bool.false_ne_true]
    rcases p.run c.next with ⟨e₁ | a₁, c₁⟩
    · exact ⟨fun h => (nomatch h), fun ⟨_, _, h, _⟩ => (nomatch h)⟩
    · dsimp only
      rw [if_pos rfl]
      constructor
      · intro h
        split_ifs at h with hf
        · cases h
        · obtain ⟨ha, hc⟩ := Prod.mk.inj h
          cases ha
          exact ⟨rfl, c₁, rfl, Bool.eq_false_iff.mpr hf, hc.symm⟩
      · rintro ⟨-, c₂, h, hf, rfl⟩
        cases h
        rw [hf, if_neg Bool.false_ne_true]

end Lemmas

/-! ### Runs with a script -/

/-- The first statements fail as the script says, and none after them. -/
def scripted (t : δ) (m : γ) (script : List Bool) : Conn δ γ := ⟨t, m, fun n => script.getD n false⟩

section Scripted

variable {p : Prog ε δ γ α} {f : α → Prog ε δ γ β} {t t' : δ} {m m' : γ} {a : α} {e : ε} {script : List Bool}

@[simp] theorem scripted_tables : (scripted t m script).tables = t := rfl

@[simp] theorem scripted_memory : (scripted t m script).memory = m := rfl

@[simp] theorem run_pure (c : Conn δ γ) : (pure a : Prog ε δ γ α).run c = (.ok a, c) := rfl

@[simp] theorem run_ofExcept (r : Except ε α) (c : Conn δ γ) : (ofExcept r : Prog ε δ γ α).run c = (r, c) := rfl

@[simp] theorem run_raise (c : Conn δ γ) : (raise e : Prog ε δ γ α).run c = (.error e, c) := rfl

@[simp] theorem run_touch (g : γ → γ) :
    (touch g : Prog ε δ γ Unit).run (scripted t m script) = (.ok (), scripted t (g m) script) := rfl

@[simp] theorem run_peek : (peek : Prog ε δ γ δ).run (scripted t m script) = (.ok t, scripted t m script) := rfl

@[simp] theorem statement_refused (s : δ → Option (ρ × δ)) :
    (statement s : Prog ε δ γ (Option ρ)).run (scripted t m (true :: script)) = (.ok none, scripted t m script) := rfl

@[simp] theorem statement_done (s : δ → Option (ρ × δ)) :
    (statement s : Prog ε δ γ (Option ρ)).run (scripted t m (false :: script)) =
      match s t with
      | none => (.ok none, scripted t m script)
      | some (r, t') => (.ok (some r), scripted t' m script) := rfl

@[simp] theorem statement_calm (s : δ → Option (ρ × δ)) :
    (statement s : Prog ε δ γ (Option ρ)).run (scripted t m []) =
      match s t with
      | none => (.ok none, scripted t m [])
      | some (r, t') => (.ok (some r), scripted t' m []) := rfl

@[simp] theorem query_refused (q : δ → Option ρ) :
    (query q : Prog ε δ γ (Option ρ)).run (scripted t m (true :: script)) = (.ok none, scripted t m script) := rfl

@[simp] theorem query_done (q : δ → Option ρ) :
    (query q : Prog ε δ γ (Option ρ)).run (scripted t m (false :: script)) = (.ok (q t), scripted t m script) :=
  query_apply q _

@[simp] theorem query_calm (q : δ → Option ρ) :
    (query q : Prog ε δ γ (Option ρ)).run (scripted t m []) = (.ok (q t), scripted t m []) :=
  query_apply q _

@[simp] theorem execute_calm (g : δ → Option δ) : (execute g : Prog ε δ γ (Option Unit)).run (scripted t m []) =
    match g t with
    | none => (.ok none, scripted t m [])
    | some t' => (.ok (some ()), scripted t' m []) := by
  unfold execute
  rw [statement_calm]
  cases g t <;> rfl

@[simp] theorem orRaise_query_calm (q : δ → Option ρ) :
    (orRaise e (query q) : Prog ε δ γ ρ).run (scripted t m []) = ((q t).elim (.error e) .ok, scripted t m []) :=
  orRaise_query_apply e q _

@[simp] theorem orRaise_execute_calm (g : δ → δ) :
    (orRaise e (execute fun t => some (g t)) : Prog ε δ γ Unit).run (scripted t m []) = (.ok (), scripted (g t) m []) :=
  rfl

@[simp] theorem ignore_execute_calm (g : δ → δ) :
    (ignore (execute fun t => some (g t)) : Prog ε δ γ Unit).run (scripted t m []) = (.ok (), scripted (g t) m []) :=
  rfl

/-- A transaction in which nothing fails. -/
@[simp] theorem transaction_calm {commits : α → Bool} : (transaction e commits p).run (scripted t m []) =
    match p.run (scripted t m []) with
    | (.error e, c') => (.error e, { c' with tables := t })
    | (.ok a, c') =>
      if commits a then
        if c'.fails 0 then (.error e, { c'.next with tables := t }) else (.ok a, c'.next)
      else (.ok a, { c' with tables := t }) := rfl

@[simp] theorem scripted_next : (scripted t m []).next = scripted t m [] := rfl

@[simp] theorem scripted_fails (k : ℕ) : (scripted t m []).fails k = false := rfl

end Scripted

/-! ### Calls that are made again -/

/-- If the first call throws, the tables are as before it, and a later call in
which nothing fails succeeds and leaves what it would have left without the
first. -/
def Recovers (first later : Prog ε δ γ α) (c : Conn δ γ) : Prop :=
  ∀ e c', first.run c = (.error e, c') → c'.tables = c.tables ∧
    (∃ a, (later.run (scripted c'.tables c'.memory [])).1 = .ok a) ∧
    later.run (scripted c'.tables c'.memory []) = later.run (scripted c.tables c.memory [])

section Recovers

variable {first later : Prog ε δ γ α} {c c' : Conn δ γ} {e : ε}

theorem Recovers.of_allOrNothing (h : AllOrNothing first c)
    (hlater : ∃ a, (later.run (scripted c.tables c.memory [])).1 = .ok a) : Recovers first later c := by
  intro e c' hc
  obtain ⟨ht, hm⟩ := h e c' hc
  rw [ht, hm]
  exact ⟨rfl, hlater, rfl⟩

/-- What has changed is not recovered. -/
theorem not_recovers (h : first.run c = (.error e, c')) (hne : c'.tables ≠ c.tables) : ¬ Recovers first later c :=
  fun hr => hne (hr e c' h).1

end Recovers

end Sql
