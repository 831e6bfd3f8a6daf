/-
# Timestamps

`parse_iso_to_ms` (`cache/fs.rs`) counts the days of a date in closed form, by
eras of 400 years that start in March; `delta_pull` (`sync/pull.rs`) compares
the timestamps as strings. On the form the API writes, the first is the count
by the calendar, and the two orders agree.

Key definitions: `Timestamp.DateTime`, `Timestamp.format`, `Timestamp.epochMs`.
Key theorems: `Timestamp.daysFromCivil_eq`, `Timestamp.parse_format`, `Timestamp.parses_in_order`.
-/
import Smfs.Text
import Smfs.Lib.Calendar
import Mathlib.Data.Char
import Mathlib.Data.String.Basic
import Mathlib.Tactic.IntervalCases

namespace Smfs
namespace Timestamp

open Calendar Decimal

/-- A second of a date with a year of four digits. -/
structure DateTime extends Date where
  hour : ℕ
  minute : ℕ
  second : ℕ
  year_lt : year < 10000
  hour_lt : hour < 24
  minute_lt : minute < 60
  second_lt : second < 60

def digitChar (d : Fin 10) : Char := Char.ofNat ('0'.toNat + d)

/-- A number with `w` digits. -/
def num (w n : ℕ) : List Char := (digits w n).map digitChar

/-- The fraction of a second, if one is written. -/
def fraction : Option (List (Fin 10)) → List Char
  | none => []
  | some ds => '.' :: ds.map digitChar

def dateChars (t : DateTime) : List Char := num 4 t.year ++ '-' :: (num 2 t.month ++ '-' :: num 2 t.day)

def timeChars (t : DateTime) (frac : Option (List (Fin 10))) : List Char :=
  num 2 t.hour ++ ':' :: (num 2 t.minute ++ ':' :: (num 2 t.second ++ fraction frac))

/-- `YYYY-MM-DDTHH:MM:SSZ`, or with a fraction before the `Z`. -/
def format (t : DateTime) (frac : Option (List (Fin 10))) : String :=
  String.ofList (dateChars t ++ 'T' :: (timeChars t frac ++ ['Z']))

/-- The whole milliseconds of a fraction. -/
def fractionMs (ds : List (Fin 10)) : ℕ := value ds * 1000 / 10 ^ ds.length

/-- Milliseconds since 1970-01-01T00:00:00Z, by the calendar. -/
def epochMs (t : DateTime) (frac : Option (List (Fin 10))) : ℤ :=
  (((t.toDate.days - daysBeforeYear 1970 : ℤ) * 24 + t.hour) * 60 + t.minute) * 60 * 1000 + t.second * 1000 +
    (frac.map fractionMs).getD 0

/-! ### Days -/

theorem epoch_days : daysBeforeYear 1970 = 719528 := by
  have h := daysBeforeYear_eq 1970
  omega

/-- The days of the first months, with the year starting in March. -/
theorem daysOfMonths_march {y m : ℕ} (h : 3 ≤ m) (hm : m ≤ 12) :
    daysOfMonths y (m - 1) = (153 * (m - 3) + 2) / 5 + 59 + if isLeap y then 1 else 0 := by
  cases hl : isLeap y <;> interval_cases m <;> simp [daysOfMonths, monthLength, hl]

theorem isLeap_iff (y : ℕ) : isLeap y = true ↔ (y % 4 = 0 ∧ y % 100 ≠ 0) ∨ y % 400 = 0 := by
  simp [isLeap]

/-- The years of an era, and the days before them, with the year starting in March. -/
theorem era_days (y : ℕ) : daysBeforeYear y + (if isLeap y then 1 else 0) + 59 =
    (y / 400) * 146097 + ((y - y / 400 * 400) * 365 + (y - y / 400 * 400) / 4 - (y - y / 400 * 400) / 100) + 60 := by
  have h := daysBeforeYear_eq y
  have h4 : (y + 3) / 4 + (if y % 4 = 0 then 1 else 0) = y / 4 + 1 := by split_ifs <;> omega
  have h100 : (y + 99) / 100 + (if y % 100 = 0 then 1 else 0) = y / 100 + 1 := by split_ifs <;> omega
  have h400 : (y + 399) / 400 + (if y % 400 = 0 then 1 else 0) = y / 400 + 1 := by split_ifs <;> omega
  have hleap : (if isLeap y then 1 else 0) + (if y % 100 = 0 then 1 else 0) =
      (if y % 4 = 0 then 1 else 0) + if y % 400 = 0 then 1 else 0 := by
    have hc : y % 400 = 0 → y % 100 = 0 := by omega
    have hq : y % 100 = 0 → y % 4 = 0 := by omega
    have hl := isLeap_iff y
    by_cases h1 : y % 4 = 0 <;> by_cases h2 : y % 100 = 0 <;> by_cases h3 : y % 400 = 0 <;> simp_all
  obtain ⟨e, r, hr, rfl⟩ : ∃ e r, r < 400 ∧ y = 400 * e + r :=
    ⟨y / 400, y % 400, Nat.mod_lt _ (by decide), (Nat.div_add_mod _ _).symm⟩
  have hd400 : (400 * e + r) / 400 = e := by omega
  have hd100 : (400 * e + r) / 100 = 4 * e + r / 100 := by omega
  have hd4 : (400 * e + r) / 4 = 100 * e + r / 4 := by omega
  have hsub : 400 * e + r - e * 400 = r := by omega
  rw [hd400, hsub]
  omega

/-- The closed form in a year that starts in March: month `mp` of the year `y`. -/
theorem daysFromCivil_march {y mp : ℕ} {y₀ m d : ℤ} (hy : y₀ - (if m ≤ 2 then 1 else 0) = y)
    (hmp : (if m > 2 then m - 3 else m + 9) = mp) : daysFromCivil y₀ m d =
      (y / 400) * 146097 + ((y - y / 400 * 400) * 365 + (y - y / 400 * 400) / 4 - (y - y / 400 * 400) / 100 +
        ((153 * mp + 2) / 5 + d - 1)) - 719468 := by
  have hy0 : (y : ℤ) ≥ 0 := by omega
  have hmp0 : (0 : ℤ) ≤ 153 * mp + 2 := by omega
  have hyoe : (0 : ℤ) ≤ y - y / 400 * 400 := by omega
  unfold daysFromCivil
  rw [hy, hmp]
  dsimp only
  rw [if_pos hy0, Int.tdiv_eq_ediv_of_nonneg hy0, Int.tdiv_eq_ediv_of_nonneg hyoe, Int.tdiv_eq_ediv_of_nonneg hyoe,
    Int.tdiv_eq_ediv_of_nonneg hmp0]

/-- `parse_iso_to_ms` counts the days of the calendar. -/
theorem daysFromCivil_eq (t : Date) : daysFromCivil t.year t.month t.day = (t.days : ℤ) - daysBeforeYear 1970 := by
  obtain ⟨y, m, d, hm1, hm12, hd1, -⟩ := t
  have hdays : ((daysBeforeYear y + (daysOfMonths y (m - 1) + (d - 1)) : ℕ) : ℤ) =
      daysBeforeYear y + daysOfMonths y (m - 1) + (d - 1) := by omega
  show daysFromCivil y m d = ((daysBeforeYear y + (daysOfMonths y (m - 1) + (d - 1)) : ℕ) : ℤ) - _
  rw [hdays, epoch_days]
  by_cases hm : 3 ≤ m
  · -- the year of the date has started in March
    have hy : (y : ℤ) - (if (m : ℤ) ≤ 2 then 1 else 0) = y := by
      rw [if_neg (by omega)]
      omega
    have hmp : (if (m : ℤ) > 2 then (m : ℤ) - 3 else m + 9) = (m - 3 : ℕ) := by
      rw [if_pos (by omega)]
      omega
    have hmarch := daysOfMonths_march (y := y) hm hm12
    have hera := era_days y
    rw [daysFromCivil_march hy hmp, hmarch]
    omega
  · have hfirst : daysOfMonths y (m - 1) = 31 * (m - 1) := by
      have hlt : m < 3 := by omega
      interval_cases m <;> simp [daysOfMonths, monthLength]
    rcases y with _ | y
    · -- January and February of the year 0 are in the era before
      have hlt : m < 3 := by omega
      rw [hfirst]
      interval_cases m <;> simp [daysFromCivil, daysBeforeYear] <;> omega
    · have hy : ((y + 1 : ℕ) : ℤ) - (if (m : ℤ) ≤ 2 then 1 else 0) = y := by
        rw [if_pos (by omega)]
        omega
      have hmp : (if (m : ℤ) > 2 then (m : ℤ) - 3 else m + 9) = (m + 9 : ℕ) := by
        rw [if_neg (by omega)]
        omega
      have hera := era_days y
      have hlen : yearLength y = 365 + if isLeap y then 1 else 0 := by
        unfold yearLength
        cases isLeap y <;> rfl
      rw [daysFromCivil_march hy hmp, hfirst, daysBeforeYear, hlen]
      omega

/-! ### Fields -/

theorem digitChar_toNat : ∀ d, (digitChar d).toNat - '0'.toNat = (d : ℕ) := by decide

theorem digitChar_isDigit : ∀ d, (digitChar d).isDigit = true := by decide

theorem digitChar_mono : StrictMono digitChar := by
  have h : ∀ d e : Fin 10, d < e → digitChar d < digitChar e := by decide
  exact h

/-- No digit is a separator. -/
theorem digitChar_ne {c : Char} (hc : c.isDigit = false) (d : Fin 10) : digitChar d ≠ c := by
  rintro rfl
  rw [digitChar_isDigit] at hc
  cases hc

theorem not_mem_digits {c : Char} (hc : c.isDigit = false) (ds : List (Fin 10)) : c ∉ ds.map digitChar := by
  intro h
  obtain ⟨d, -, hd⟩ := List.mem_map.mp h
  exact digitChar_ne hc d hd

theorem foldl_digits (ds : List (Fin 10)) (n : ℕ) :
    (ds.map digitChar).foldl (fun n c => n * 10 + (c.toNat - '0'.toNat)) n =
    ds.foldl (fun n (d : Fin 10) => n * 10 + d.val) n := by
  rw [List.foldl_map]
  simp only [digitChar_toNat]

theorem parseI64_unsigned {c : Char} {cs : List Char} (hm : c ≠ '-') (hp : c ≠ '+') : parseI64 (c :: cs) =
    if (c :: cs).all Char.isDigit then
      let n : ℕ := (c :: cs).foldl (fun n c => n * 10 + (c.toNat - '0'.toNat)) 0
      if (n : ℤ) < 2 ^ 63 then some (n : ℤ) else none
    else none := by
  unfold parseI64
  split
  rename_i neg ds he
  split at he
  · rename_i h
    exact absurd (List.cons.inj h).1 hm
  · rename_i h
    exact absurd (List.cons.inj h).1 hp
  · cases he
    cases hall : (c :: cs).all Char.isDigit <;> simp

theorem parseI64_digits {ds : List (Fin 10)} (h : ds ≠ []) (hlt : value ds < 2 ^ 63) :
    parseI64 (ds.map digitChar) = some (value ds : ℤ) := by
  obtain ⟨d, ds, rfl⟩ := List.exists_cons_of_ne_nil h
  have hall : ((d :: ds).map digitChar).all Char.isDigit = true := by
    simp [digitChar_isDigit]
  have hval : ((d :: ds).map digitChar).foldl (fun n c => n * 10 + (c.toNat - '0'.toNat)) 0 = value (d :: ds) :=
    foldl_digits (d :: ds) 0
  rw [List.map_cons] at hall hval ⊢
  rw [parseI64_unsigned (digitChar_ne (by decide) d) (digitChar_ne (by decide) d), if_pos hall, hval]
  dsimp only
  rw [if_pos (by omega)]

theorem parseI64_num {w n : ℕ} (hw : 1 ≤ w) (hw' : w ≤ 4) (h : n < 10 ^ w) : parseI64 (num w n) = some (n : ℤ) := by
  have hne : digits w n ≠ [] := by
    intro he
    have hlen := length_digits w n
    rw [he, List.length_nil] at hlen
    omega
  have hpow : (10 : ℕ) ^ w ≤ 10 ^ 4 := Nat.pow_le_pow_right (by decide) hw'
  have hval : value (digits w n) = n := value_digits h
  have hlt : value (digits w n) < 2 ^ 63 := by
    rw [hval]
    omega
  have hp := parseI64_digits hne hlt
  rwa [hval] at hp

theorem splitOnce_first {p : Char → Bool} {l r : List Char} {c : Char} (hl : ∀ x ∈ l, p x = false) (hc : p c = true) :
    splitOnce p (l ++ c :: r) = some (l, r) := by
  have hpos : ∀ x ∈ l, (!p x) = true := fun x hx => by rw [hl x hx]; rfl
  unfold splitOnce
  rw [if_pos (by simp [hc]), List.takeWhile_append_of_pos hpos, List.dropWhile_append_of_pos hpos,
    List.takeWhile_cons_of_neg (by simp [hc]), List.dropWhile_cons_of_neg (by simp [hc]), List.append_nil]
  rfl

theorem splitOnce_none {p : Char → Bool} {l : List Char} (hl : ∀ x ∈ l, p x = false) : splitOnce p l = none := by
  unfold splitOnce
  rw [if_neg]
  simpa using hl

theorem splitOn_field {c : Char} {l r : List Char} (h : c ∉ l) : (l ++ c :: r).splitOn c = l :: r.splitOn c := by
  have hone : l.splitOn c = [l] := List.splitOnP_eq_singleton fun x hx => by
    rw [beq_eq_false_iff_ne]
    rintro rfl
    exact h hx
  rw [List.splitOn_append_cons_self, hone]
  rfl

theorem splitOn_last {c : Char} {l : List Char} (h : c ∉ l) : l.splitOn c = [l] :=
  List.splitOnP_eq_singleton fun x hx => by
    rw [beq_eq_false_iff_ne]
    rintro rfl
    exact h hx

/-! ### Fractions -/

theorem value_zeros (n : ℕ) : value (List.replicate n 0) = 0 := by
  induction n with
  | zero => rfl
  | succ n ih => simp [List.replicate_succ, value_cons, ih]

/-- Three digits of a fraction, filled up with zeros, are its whole milliseconds. -/
theorem value_padded (ds : List (Fin 10)) :
    value (ds.take 3 ++ List.replicate (3 - (ds.take 3).length) 0) = fractionMs ds := by
  have hpos : 0 < 10 ^ ds.length := by positivity
  unfold fractionMs
  rw [value_append, value_zeros, List.length_replicate, List.length_take, add_zero]
  rcases Nat.le_total ds.length 3 with h | h
  · rw [min_eq_right h, List.take_of_length_le h]
    have hpow : (10 : ℕ) ^ (3 - ds.length) * 10 ^ ds.length = 1000 := by
      rw [← pow_add, Nat.sub_add_cancel h]
      rfl
    calc value ds * 10 ^ (3 - ds.length) = value ds * 10 ^ (3 - ds.length) * 10 ^ ds.length / 10 ^ ds.length :=
          (Nat.mul_div_cancel _ hpos).symm
      _ = value ds * 1000 / 10 ^ ds.length := by rw [mul_assoc, hpow]
  · rw [min_eq_left h]
    have hlast : value (ds.drop 3) < 10 ^ (ds.length - 3) := by
      have hlt := value_lt (ds.drop 3)
      rwa [List.length_drop] at hlt
    have hsplit : value ds = value (ds.take 3) * 10 ^ (ds.length - 3) + value (ds.drop 3) := by
      have happ := value_append (ds.take 3) (ds.drop 3)
      rwa [List.take_append_drop, List.length_drop] at happ
    have hpow : (10 : ℕ) ^ ds.length = 10 ^ (ds.length - 3) * 1000 := by
      rw [show (1000 : ℕ) = 10 ^ 3 by rfl, ← pow_add, Nat.sub_add_cancel h]
    have hq : 0 < 10 ^ (ds.length - 3) := by positivity
    rw [hpow, Nat.mul_div_mul_right _ _ (by decide), hsplit, Nat.add_comm, Nat.add_mul_div_right _ _ hq,
      Nat.div_eq_of_lt hlast]
    simp

theorem fractionMs_lt (ds : List (Fin 10)) : fractionMs ds < 1000 := by
  have hlt := value_lt (ds.take 3 ++ List.replicate (3 - (ds.take 3).length) 0)
  have hlen : (ds.take 3 ++ List.replicate (3 - (ds.take 3).length) (0 : Fin 10)).length = 3 := by
    simp only [List.length_append, List.length_replicate, List.length_take]
    omega
  rwa [value_padded, hlen] at hlt

theorem parseSeconds_fraction {n : ℕ} (h : n < 60) (frac : Option (List (Fin 10))) :
    parseSeconds (num 2 n ++ fraction frac) = some ((n : ℤ), (((frac.map fractionMs).getD 0 : ℕ) : ℤ)) := by
  have hn : parseI64 (num 2 n) = some (n : ℤ) := parseI64_num (by decide) (by decide) (by omega)
  have hdot : ∀ c ∈ num 2 n, decide (c = '.') = false := by
    intro c hc
    rw [decide_eq_false_iff_not]
    rintro rfl
    exact not_mem_digits (by decide) _ hc
  unfold parseSeconds
  cases frac with
  | none =>
    rw [fraction, List.append_nil, splitOnce_none hdot]
    dsimp only
    rw [hn]
    rfl
  | some ds =>
    have hfilter : (ds.map digitChar).filter Char.isDigit = ds.map digitChar := by
      rw [List.filter_eq_self]
      intro c hc
      obtain ⟨d, -, rfl⟩ := List.mem_map.mp hc
      exact digitChar_isDigit d
    have hpad : (ds.map digitChar).take 3 ++ List.replicate (3 - ((ds.map digitChar).take 3).length) '0' =
        (ds.take 3 ++ List.replicate (3 - (ds.take 3).length) 0).map digitChar := by
      rw [List.map_append, List.map_take, List.map_replicate, List.length_take, List.length_take, List.length_map]
      rfl
    have hlen : (ds.take 3 ++ List.replicate (3 - (ds.take 3).length) (0 : Fin 10)).length = 3 := by
      simp only [List.length_append, List.length_replicate, List.length_take]
      omega
    have hne : ds.take 3 ++ List.replicate (3 - (ds.take 3).length) (0 : Fin 10) ≠ [] := by
      intro he
      rw [he] at hlen
      cases hlen
    have hlt : value (ds.take 3 ++ List.replicate (3 - (ds.take 3).length) 0) < 2 ^ 63 := by
      rw [value_padded]
      exact lt_trans (fractionMs_lt ds) (by decide)
    have hms := parseI64_digits hne hlt
    rw [value_padded] at hms
    rw [fraction, splitOnce_first hdot (by decide)]
    dsimp only
    rw [hn, hfilter, hpad, hms]
    rfl

theorem day_lt (t : DateTime) : t.day < 10 ^ 2 := by
  have hle := t.day_le
  have hlen : monthLength t.year t.month ≤ 31 := by
    unfold monthLength
    split
    · split_ifs <;> decide
    all_goals decide
  omega

/-- **On a timestamp of the API `parse_iso_to_ms` is the count by the calendar.** -/
theorem parse_format (t : DateTime) (frac : Option (List (Fin 10))) :
    parseIsoToMs (format t frac) = some (epochMs t frac) := by
  have hnum {w n : ℕ} {c : Char} (hc : c.isDigit = false) : c ∉ num w n := not_mem_digits hc _
  have hdate : splitOnce (· = 'T') (dateChars t ++ 'T' :: (timeChars t frac ++ ['Z'])) =
      some (dateChars t, timeChars t frac ++ ['Z']) := by
    refine splitOnce_first (fun c hc => ?_) (by decide)
    rw [decide_eq_false_iff_not]
    rintro rfl
    simp [dateChars, hnum] at hc
  have htime : splitOnce (fun c => c = 'Z' || c = '+' || c = '-') (timeChars t frac ++ ['Z']) =
    some (timeChars t frac, []) := by
    refine splitOnce_first (fun c hc => ?_) (by decide)
    have hzone : c ≠ 'Z' ∧ c ≠ '+' ∧ c ≠ '-' := by
      refine ⟨?_, ?_, ?_⟩
      all_goals
        rintro rfl
        cases frac <;> simp [timeChars, fraction, hnum, digitChar_ne] at hc
    simp [hzone]
  have hymd : (dateChars t).splitOn '-' = [num 4 t.year, num 2 t.month, num 2 t.day] := by
    rw [dateChars, splitOn_field (hnum (by decide)), splitOn_field (hnum (by decide)), splitOn_last (hnum (by decide))]
  have hfrac : ':' ∉ num 2 t.second ++ fraction frac := by
    cases frac <;> simp [fraction, hnum, digitChar_ne]
  have hhms : (timeChars t frac).splitOn ':' = [num 2 t.hour, num 2 t.minute, num 2 t.second ++ fraction frac] := by
    rw [timeChars, splitOn_field (hnum (by decide)), splitOn_field (hnum (by decide)), splitOn_last hfrac]
  have hy : parseI64 (num 4 t.year) = some (t.year : ℤ) := parseI64_num (by decide) (by decide) t.year_lt
  have hm : parseI64 (num 2 t.month) = some (t.month : ℤ) :=
    parseI64_num (by decide) (by decide) (lt_of_le_of_lt t.month_le (by decide))
  have hd : parseI64 (num 2 t.day) = some (t.day : ℤ) := parseI64_num (by decide) (by decide) (day_lt t)
  have hh : parseI64 (num 2 t.hour) = some (t.hour : ℤ) :=
    parseI64_num (by decide) (by decide) (lt_trans t.hour_lt (by decide))
  have hmi : parseI64 (num 2 t.minute) = some (t.minute : ℤ) :=
    parseI64_num (by decide) (by decide) (lt_trans t.minute_lt (by decide))
  have hs := parseSeconds_fraction t.second_lt frac
  unfold parseIsoToMs format
  rw [String.toList_ofList, hdate]
  simp only [Option.bind_eq_bind, Option.bind_some, htime, hymd, hhms, List.getElem?_cons_zero, List.getElem?_cons_succ,
    hy, hm, hd, hh, hmi, hs, daysFromCivil_eq t.toDate]
  unfold epochMs
  rw [epoch_days]
  refine congrArg some ?_
  ring

/-! ### Order -/

/-- A timestamp with three digits of a fraction. -/
def fixed (t : DateTime) (a b c : Fin 10) : String := format t (some [a, b, c])

theorem count_lt_iff {k a b r s : ℕ} (hr : r < k) (hs : s < k) : a * k + r < b * k + s ↔ a < b ∨ a = b ∧ r < s := by
  have hmono : Monotone fun n => n * k := fun m n h => Nat.mul_le_mul_right k h
  refine add_lt_add_iff (f := fun n => n * k) hmono ?_ ?_
  · show a * k + r < (a + 1) * k
    rw [add_mul, one_mul]
    omega
  · show b * k + s < (b + 1) * k
    rw [add_mul, one_mul]
    omega

theorem field_lt_iff {w n m : ℕ} {c : Char} {l l' : List Char} (hn : n < 10 ^ w) (hm : m < 10 ^ w) :
    num w n ++ c :: l < num w m ++ c :: l' ↔ n < m ∨ n = m ∧ l < l' := by
  have hlen : (num w n).length = (num w m).length := by
    unfold num
    rw [List.length_map, List.length_map, length_digits, length_digits]
  have heq : num w n = num w m ↔ n = m := by
    unfold num
    rw [(List.map_injective_iff.mpr digitChar_mono.injective).eq_iff, digits_eq_iff hn hm]
  have hlt : num w n < num w m ↔ n < m := by
    unfold num
    rw [map_lt_map_iff digitChar_mono, digits_lt_iff hn hm]
  rw [append_lt_append_iff hlen, heq, hlt, cons_lt_cons_self]

theorem fixed_chars (t : DateTime) (a b c : Fin 10) : (fixed t a b c).toList =
    num 4 t.year ++ '-' :: (num 2 t.month ++ '-' :: (num 2 t.day ++ 'T' :: (num 2 t.hour ++ ':' :: (num 2 t.minute ++
      ':' :: (num 2 t.second ++ '.' :: ([a, b, c].map digitChar ++ ['Z'])))))) := by
  simp [fixed, format, dateChars, timeChars, fraction]

/-- The strings are in the order of the fields. -/
theorem fixed_lt_iff (t u : DateTime) (a b c a' b' c' : Fin 10) : fixed t a b c < fixed u a' b' c' ↔
    t.toDate.days < u.toDate.days ∨ t.toDate.days = u.toDate.days ∧ (t.hour < u.hour ∨ t.hour = u.hour ∧
      (t.minute < u.minute ∨ t.minute = u.minute ∧ (t.second < u.second ∨ t.second = u.second ∧
        value [a, b, c] < value [a', b', c']))) := by
  have hms : [a, b, c].map digitChar ++ ['Z'] < [a', b', c'].map digitChar ++ ['Z'] ↔
    value [a, b, c] < value [a', b', c'] := by
    have hval : [a, b, c] < [a', b', c'] ↔ value [a, b, c] < value [a', b', c'] := value_lt_iff rfl
    rw [append_lt_append_iff (by simp), map_lt_map_iff digitChar_mono, hval]
    simp
  have h2 {n k : ℕ} (hn : n < k) (hk : k ≤ 100) : n < 10 ^ 2 := by omega
  rw [String.lt_iff_toList_lt, fixed_chars, fixed_chars, field_lt_iff t.year_lt u.year_lt,
    field_lt_iff (h2 (Nat.lt_succ_of_le t.month_le) (by decide)) (h2 (Nat.lt_succ_of_le u.month_le) (by decide)),
    field_lt_iff (day_lt t) (day_lt u), field_lt_iff (h2 t.hour_lt (by decide)) (h2 u.hour_lt (by decide)),
    field_lt_iff (h2 t.minute_lt (by decide)) (h2 u.minute_lt (by decide)),
    field_lt_iff (h2 t.second_lt (by decide)) (h2 u.second_lt (by decide)), hms, Date.days_lt_iff, Date.days_inj]
  tauto

/-- The milliseconds of a timestamp are in the order of its fields. -/
theorem epochMs_lt_iff (t u : DateTime) (a b c a' b' c' : Fin 10) :
    epochMs t (some [a, b, c]) < epochMs u (some [a', b', c']) ↔
      t.toDate.days < u.toDate.days ∨ t.toDate.days = u.toDate.days ∧ (t.hour < u.hour ∨ t.hour = u.hour ∧
        (t.minute < u.minute ∨ t.minute = u.minute ∧ (t.second < u.second ∨ t.second = u.second ∧
          value [a, b, c] < value [a', b', c']))) := by
  have hms (ds : List (Fin 10)) (h : ds.length = 3) : fractionMs ds = value ds := by
    unfold fractionMs
    rw [h]
    exact Nat.mul_div_cancel _ (by decide)
  have hcount (t : DateTime) (ds : List (Fin 10)) (h : ds.length = 3) : epochMs t (some ds) =
      (((((t.toDate.days * 24 + t.hour) * 60 + t.minute) * 60 + t.second) * 1000 + value ds : ℕ) : ℤ) -
        719528 * 86400000 := by
    unfold epochMs
    rw [Option.map_some, Option.getD_some, hms ds h, epoch_days]
    push_cast
    ring
  have hsub (m n : ℕ) : (m : ℤ) - 719528 * 86400000 < n - 719528 * 86400000 ↔ m < n := by omega
  have hv : value [a, b, c] < 1000 := lt_of_lt_of_eq (value_lt [a, b, c]) (by simp)
  have hv' : value [a', b', c'] < 1000 := lt_of_lt_of_eq (value_lt [a', b', c']) (by simp)
  have hs := t.second_lt
  have hs' := u.second_lt
  have hmi := t.minute_lt
  have hmi' := u.minute_lt
  have hh := t.hour_lt
  have hh' := u.hour_lt
  rw [hcount t _ rfl, hcount u _ rfl, hsub, count_lt_iff hv hv', count_lt_iff hs hs', count_lt_iff hmi hmi',
    count_lt_iff hh hh']
  omega

/-- **The milliseconds are exact, and in the order of the strings.** Every
timestamp is parsed to its count by the calendar; with three digits of a
fraction the order of the counts is the order in which the strings are compared. -/
theorem parses_in_order : (∀ t frac, parseIsoToMs (format t frac) = some (epochMs t frac)) ∧
    ∀ t u a b c a' b' c', ∃ m n, parseIsoToMs (fixed t a b c) = some m ∧ parseIsoToMs (fixed u a' b' c') = some n ∧
      (m < n ↔ fixed t a b c < fixed u a' b' c') ∧ (m ≤ n ↔ fixed t a b c ≤ fixed u a' b' c') := by
  refine ⟨parse_format, fun t u a b c a' b' c' => ⟨_, _, parse_format t _, parse_format u _, ?_, ?_⟩⟩
  · rw [epochMs_lt_iff, fixed_lt_iff]
  · rw [← not_lt, ← not_lt, epochMs_lt_iff, fixed_lt_iff]

end Timestamp
end Smfs
