/-
# Bytes, paths and timestamps

File contents and the texts of documents are lists of bytes; names and paths
are strings. `validUtf8` is `std::str::from_utf8(…).is_ok()`; the path
functions are the splits that `cache/fs.rs` does in place, and names without
`/` can be read off the path they make; `parseIsoToMs` is `parse_iso_to_ms`,
over unbounded integers once the fields are parsed.

Key definitions: `Bytes`, `validUtf8`, `splitPath`, `joinPath`, `components`, `pathOf`, `Plain`, `parseIsoToMs`.
Key theorems: `components_pathOf`, `splitPath_pathOf`.
-/
import Mathlib.Data.List.Basic
import Mathlib.Algebra.Order.Ring.Int

namespace Smfs

abbrev Bytes := List UInt8

/-- `str::as_bytes`. -/
def bytesOf (s : String) : Bytes := s.toUTF8.data.toList

/-! ### UTF-8 -/

/-- A continuation byte. -/
def isCont (b : UInt8) : Bool := 0x80 ≤ b && b ≤ 0xBF

/-- The second byte that may follow the first byte of a character of three bytes. -/
def second3 (a b : UInt8) : Bool :=
  if a = 0xE0 then 0xA0 ≤ b && b ≤ 0xBF
  else if a = 0xED then 0x80 ≤ b && b ≤ 0x9F
  else 0xE1 ≤ a && a ≤ 0xEF && isCont b

/-- The second byte that may follow the first byte of a character of four bytes. -/
def second4 (a b : UInt8) : Bool :=
  if a = 0xF0 then 0x90 ≤ b && b ≤ 0xBF
  else if a = 0xF4 then 0x80 ≤ b && b ≤ 0x8F
  else 0xF1 ≤ a && a ≤ 0xF3 && isCont b

/-- The bytes are the UTF-8 encoding of a string. -/
def validUtf8 : Bytes → Bool
  | [] => true
  | a :: t =>
    if a ≤ 0x7F then validUtf8 t
    else match t with
      | [] => false
      | b :: t =>
        if 0xC2 ≤ a && a ≤ 0xDF then isCont b && validUtf8 t
        else match t with
          | [] => false
          | c :: t =>
            if second3 a b then isCont c && validUtf8 t
            else match t with
              | [] => false
              | d :: t => second4 a b && isCont c && isCont d && validUtf8 t

/-! ### Paths -/

/-- The part before the last `/` (`/` itself when that is the first character)
and the part after it. -/
def splitPath (filepath : String) : String × String :=
  let cs := filepath.toList
  let filename := (cs.reverse.takeWhile (· ≠ '/')).reverse
  let pos := cs.length - filename.length - 1
  (if pos = 0 then "/" else String.ofList (cs.take pos), String.ofList filename)

/-- A suffix without `/` goes to the name. -/
theorem splitPath_append {path suffix : String} (hp : '/' ∈ path.toList) (hs : '/' ∉ suffix.toList) :
    splitPath (path ++ suffix) = ((splitPath path).1, (splitPath path).2 ++ suffix) := by
  have hrev : ((path ++ suffix).toList.reverse.takeWhile (· ≠ '/')) =
      suffix.toList.reverse ++ path.toList.reverse.takeWhile (· ≠ '/') := by
    rw [String.toList_append, List.reverse_append, List.takeWhile_append_of_pos]
    intro c hc
    rw [List.mem_reverse] at hc
    have hne : c ≠ '/' := by
      rintro rfl
      exact hs hc
    simpa using hne
  have hlt : (path.toList.reverse.takeWhile (· ≠ '/')).length < path.toList.length := by
    have hle := (List.takeWhile_sublist (l := path.toList.reverse) (· ≠ '/')).length_le
    rw [List.length_reverse] at hle
    refine lt_of_le_of_ne hle fun he => ?_
    have heq := (List.takeWhile_sublist (l := path.toList.reverse) (· ≠ '/')).eq_of_length (by rw [List.length_reverse, he])
    have hmem : '/' ∈ path.toList.reverse.takeWhile (· ≠ '/') := by
      rw [heq]
      exact List.mem_reverse.mpr hp
    have hall := List.all_takeWhile (p := fun c => decide (c ≠ '/')) (l := path.toList.reverse)
    exact absurd (List.all_eq_true.mp hall '/' hmem) (by decide)
  unfold splitPath
  dsimp only
  rw [hrev]
  generalize path.toList.reverse.takeWhile (· ≠ '/') = file at hlt
  have hpos : (path ++ suffix).toList.length - (suffix.toList.reverse ++ file).reverse.length - 1 =
      path.toList.length - file.reverse.length - 1 := by
    simp only [String.toList_append, List.length_append, List.length_reverse]
    omega
  have htake : (path ++ suffix).toList.take (path.toList.length - file.reverse.length - 1) =
      path.toList.take (path.toList.length - file.reverse.length - 1) := by
    rw [String.toList_append, List.take_append_of_le_length (by omega)]
  have hname : String.ofList (suffix.toList.reverse ++ file).reverse = String.ofList file.reverse ++ suffix := by
    rw [List.reverse_append, List.reverse_reverse, String.ofList_append, String.ofList_toList]
  rw [hpos, htake, hname]

/-- `format!("{p}{sep}{name}")`, where `sep` is `/` unless `p` ends with one. -/
def joinPath (p name : String) : String :=
  if p.toList.getLast? = some '/' then p ++ name else p ++ "/" ++ name

/-- `path.split('/').filter(|s| !s.is_empty())`. -/
def components (path : String) : List String :=
  ((path.toList.splitOn '/').filter (· ≠ [])).map String.ofList

/-- The path with the names. -/
def pathOf (parts : List String) : String := "/" ++ "/".intercalate parts

/-- A name that is one component of a path. -/
def Plain (name : String) : Prop := '/' ∉ name.toList ∧ name.toList ≠ []

section Names

variable {name : String} {parts : List String}

theorem toList_pathOf : (pathOf parts).toList = '/' :: List.intercalate ['/'] (parts.map String.toList) := by
  unfold pathOf
  rw [String.toList_append, String.toList_intercalate]
  rfl

theorem components_pathOf (h : ∀ n ∈ parts, Plain n) : components (pathOf parts) = parts := by
  have hmap : (parts.map String.toList).map String.ofList = parts := by
    rw [List.map_map]
    exact List.map_id'' (fun n => String.ofList_toList) parts
  have hplain : ∀ l ∈ parts.map String.toList, '/' ∉ l ∧ l ≠ [] := by
    intro l hl
    obtain ⟨n, hn, rfl⟩ := List.mem_map.mp hl
    exact h n hn
  unfold components
  rw [toList_pathOf, List.splitOn_cons_eq_if_modifyHead, if_pos (beq_self_eq_true _)]
  generalize parts.map String.toList = ls at hmap hplain
  cases ls with
  | nil => simpa using hmap
  | cons l ls =>
    rw [List.splitOn_intercalate _ (fun l hl => (hplain l hl).1) (List.cons_ne_nil _ _), List.filter_cons]
    have hall : (l :: ls).filter (fun x => decide (x ≠ [])) = l :: ls :=
      List.filter_eq_self.mpr fun x hx => decide_eq_true (hplain x hx).2
    rw [if_neg (by simp), hall, hmap]

theorem pathOf_inj {parts' : List String} (h : ∀ n ∈ parts, Plain n) (h' : ∀ n ∈ parts', Plain n)
    (he : pathOf parts = pathOf parts') : parts = parts' := by
  rw [← components_pathOf h, ← components_pathOf h', he]

theorem splitPath_slash {path : String} {cs : List Char} (hn : '/' ∉ name.toList)
    (h : path.toList = cs ++ '/' :: name.toList) :
    splitPath path = (if cs.length = 0 then "/" else String.ofList cs, name) := by
  have hfile : path.toList.reverse.takeWhile (· ≠ '/') = name.toList.reverse := by
    have hrev : path.toList.reverse = name.toList.reverse ++ '/' :: cs.reverse := by simp [h]
    have hall : ∀ c ∈ name.toList.reverse, decide (c ≠ '/') = true := by
      intro c hc
      refine decide_eq_true fun he => hn ?_
      exact List.mem_reverse.mp (he ▸ hc)
    rw [hrev, List.takeWhile_append_of_pos hall, List.takeWhile_cons_of_neg (by decide), List.append_nil]
  have hpos : path.toList.length - name.toList.reverse.reverse.length - 1 = cs.length := by
    rw [h, List.length_append, List.length_cons, List.reverse_reverse]
    omega
  have htake : path.toList.take cs.length = cs := by
    rw [h]
    exact List.take_left
  unfold splitPath
  dsimp only
  rw [hfile, hpos, htake, List.reverse_reverse, String.ofList_toList]

theorem pathOf_append (h : parts ≠ []) : pathOf (parts ++ [name]) = pathOf parts ++ "/" ++ name := by
  unfold pathOf
  rw [String.intercalate_append_of_ne_nil h (List.cons_ne_nil _ _), String.intercalate_singleton]
  simp only [String.append_assoc]

theorem getLast_pathOf (hn : Plain name) : (pathOf (parts ++ [name])).toList.getLast? ≠ some '/' := by
  have hends : ∃ cs, (pathOf (parts ++ [name])).toList = cs ++ name.toList := by
    cases parts with
    | nil => exact ⟨['/'], by rw [toList_pathOf]; simp⟩
    | cons part parts => exact ⟨_, by rw [pathOf_append (List.cons_ne_nil _ _), String.toList_append]⟩
  obtain ⟨cs, hcs⟩ := hends
  rw [hcs, List.getLast?_append_of_ne_nil _ hn.2]
  exact fun he => hn.1 (List.mem_of_getLast? he)

/-- The last name of a path, and the path before it. -/
theorem splitPath_pathOf (hn : Plain name) : splitPath (pathOf (parts ++ [name])) = (pathOf parts, name) := by
  cases parts with
  | nil =>
    have h : (pathOf ([] ++ [name])).toList = [] ++ '/' :: name.toList := by
      rw [toList_pathOf]
      simp
    exact splitPath_slash hn.1 h
  | cons part parts =>
    have h : (pathOf (part :: parts ++ [name])).toList = (pathOf (part :: parts)).toList ++ '/' :: name.toList := by
      rw [pathOf_append (List.cons_ne_nil _ _), String.toList_append, String.toList_append, List.append_assoc]
      rfl
    rw [splitPath_slash hn.1 h, if_neg (by rw [toList_pathOf]; simp), String.ofList_toList]

theorem not_mem_of_mem_splitOn {c : Char} {cs l : List Char} (h : l ∈ cs.splitOn c) : c ∉ l := by
  induction cs generalizing l with
  | nil =>
    rw [List.splitOn_nil, List.mem_singleton] at h
    subst h
    exact List.not_mem_nil
  | cons x xs ih =>
    rw [List.splitOn_cons_eq_if_modifyHead] at h
    split_ifs at h with hx
    · rcases List.mem_cons.mp h with rfl | h
      · exact List.not_mem_nil
      · exact ih h
    · cases hs : xs.splitOn c with
      | nil => exact absurd hs (List.splitOn_ne_nil c xs)
      | cons y ys =>
        rw [hs, List.modifyHead_cons] at h
        rcases List.mem_cons.mp h with rfl | h
        · refine fun hm => ?_
          rcases List.mem_cons.mp hm with rfl | hm
          · simp at hx
          · exact ih (hs ▸ List.mem_cons_self) hm
        · exact ih (hs ▸ List.mem_cons_of_mem y h)

theorem plain_of_mem_components {path : String} (h : name ∈ components path) : Plain name := by
  obtain ⟨l, hl, rfl⟩ := List.mem_map.mp h
  obtain ⟨hmem, hne⟩ := List.mem_filter.mp hl
  unfold Plain
  rw [String.toList_ofList]
  exact ⟨not_mem_of_mem_splitOn hmem, by simpa using hne⟩

theorem components_append {path rest : String} {cs : List Char} (h : path.toList = cs ++ '/' :: rest.toList) :
    components path = components (String.ofList cs) ++ components rest := by
  unfold components
  rw [h, List.splitOn_append_cons_self, List.filter_append, List.map_append, String.toList_ofList]

theorem pathOf_append_names {rest : List String} (h : parts ≠ []) (hrest : rest ≠ []) :
    pathOf (parts ++ rest) = pathOf parts ++ "/" ++ "/".intercalate rest := by
  unfold pathOf
  rw [String.intercalate_append_of_ne_nil h hrest]
  simp only [String.append_assoc]

end Names

/-! ### Timestamps -/

/-- `str::parse::<i64>`. -/
def parseI64 (cs : List Char) : Option ℤ :=
  let (neg, ds) := match cs with
    | '-' :: ds => (true, ds)
    | '+' :: ds => (false, ds)
    | ds => (false, ds)
  if ds.isEmpty || !ds.all Char.isDigit then none
  else
    let n : ℕ := ds.foldl (fun n c => n * 10 + (c.toNat - '0'.toNat)) 0
    let z : ℤ := if neg then -n else n
    if -2 ^ 63 ≤ z ∧ z < 2 ^ 63 then some z else none

/-- The characters before and after the first one with the property. -/
def splitOnce (p : Char → Bool) (cs : List Char) : Option (List Char × List Char) :=
  if cs.any p then some (cs.takeWhile (!p ·), (cs.dropWhile (!p ·)).drop 1) else none

/-- Seconds and milliseconds of `SS` or `SS.fff…`. -/
def parseSeconds (cs : List Char) : Option (ℤ × ℤ) :=
  match splitOnce (· = '.') cs with
  | some (s, frac) => do
    let sec ← parseI64 s
    let fracs := (frac.filter Char.isDigit).take 3
    let ms ← parseI64 (fracs ++ List.replicate (3 - fracs.length) '0')
    some (sec, ms)
  | none => (parseI64 cs).map fun sec => (sec, 0)

/-- Days since 1970-01-01 of a date of the Gregorian calendar. -/
def daysFromCivil (y m d : ℤ) : ℤ :=
  let y := y - if m ≤ 2 then 1 else 0
  let era := (if y ≥ 0 then y else y - 399).tdiv 400
  let yoe := y - era * 400
  let mp := if m > 2 then m - 3 else m + 9
  let doy := (153 * mp + 2).tdiv 5 + d - 1
  let doe := yoe * 365 + yoe.tdiv 4 - yoe.tdiv 100 + doy
  era * 146097 + doe - 719468

/-- `parse_iso_to_ms`: milliseconds since the epoch of `2026-04-18T06:55:52.356Z`. -/
def parseIsoToMs (iso : String) : Option ℤ := do
  let (date, rest) ← splitOnce (· = 'T') iso.toList
  let (time, _) ← splitOnce (fun c => c = 'Z' || c = '+' || c = '-') rest
  let ymd := date.splitOn '-'
  let y ← parseI64 (← ymd[0]?)
  let m ← parseI64 (← ymd[1]?)
  let d ← parseI64 (← ymd[2]?)
  let hms := time.splitOn ':'
  let h ← parseI64 (← hms[0]?)
  let mi ← parseI64 (← hms[1]?)
  let (sec, ms) ← parseSeconds (← hms[2]?)
  some ((daysFromCivil y m d * 86400 + h * 3600 + mi * 60 + sec) * 1000 + ms)

end Smfs
