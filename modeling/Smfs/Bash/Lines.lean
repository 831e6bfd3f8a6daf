/-
# Commands on lines

`head`, `tail`, `grep` and `wc` of the Python shell. Each splits its text at
the newlines, and a text that ends in one has an empty part after it. `wc -l`
does not count that part; the others take it for a line. So `head` is right up
to the lines there are, and from a file only from one line on (`headLaw_iff`);
`tail` puts the empty part in the place of the first line it was to give, which
is right only of empty lines (`tailLaw_iff`); and the two counts of `grep -c`
have one line too many between them (`grepLaw_iff`).

Key definitions: `int`, `cmdHead`, `cmdTail`, `cmdGrep`, `cmdWc`, `HeadLaw`, `TailLaw`, `GrepLaw`, `JoinLaw`.
Key theorems: `headLaw_iff`, `tailLaw_iff`, `grepLaw_iff`, `joinLaw_iff`.
-/
import Smfs.Bash.Shell
import Smfs.Lib.Decimal
import Smfs.Lib.Lines

namespace Smfs.Bash.Shell

open Turns Lines
open Py (ExecResult)

/-! ### Numbers in texts -/

/-- Where the decimal digits of each script begin, in Unicode 14. -/
def decimalZeros : List ℕ :=
  [0x30, 0x660, 0x6F0, 0x7C0, 0x966, 0x9E6, 0xA66, 0xAE6, 0xB66, 0xBE6, 0xC66, 0xCE6, 0xD66, 0xDE6, 0xE50, 0xED0,
   0xF20, 0x1040, 0x1090, 0x17E0, 0x1810, 0x1946, 0x19D0, 0x1A80, 0x1A90, 0x1B50, 0x1BB0, 0x1C40, 0x1C50, 0xA620,
   0xA8D0, 0xA900, 0xA9D0, 0xA9F0, 0xAA50, 0xABF0, 0xFF10, 0x104A0, 0x10D30, 0x11066, 0x110F0, 0x11136, 0x111D0,
   0x112F0, 0x11450, 0x114D0, 0x11650, 0x116C0, 0x11730, 0x118E0, 0x11950, 0x11C50, 0x11D50, 0x11DA0, 0x16A60,
   0x16AC0, 0x16B50, 0x1D7CE, 0x1D7D8, 0x1D7E2, 0x1D7EC, 0x1D7F6, 0x1E140, 0x1E2F0, 0x1E950, 0x1FBF0]

/-- The digits that are not decimal ones: superscripts, circled digits and so on. -/
def otherDigits : List (ℕ × ℕ) :=
  [(0xB2, 0xB3), (0xB9, 0xB9), (0x1369, 0x1371), (0x19DA, 0x19DA), (0x2070, 0x2070), (0x2074, 0x2079),
   (0x2080, 0x2089), (0x2460, 0x2468), (0x2474, 0x247C), (0x2488, 0x2490), (0x24EA, 0x24EA), (0x24F5, 0x24FD),
   (0x24FF, 0x24FF), (0x2776, 0x277E), (0x2780, 0x2788), (0x278A, 0x2792), (0x10A40, 0x10A43), (0x10E60, 0x10E68),
   (0x11052, 0x1105A), (0x1F100, 0x1F10A)]

def digitOf (c : Char) : Option (Fin 10) :=
  (decimalZeros.find? fun z => decide (z ≤ c.toNat ∧ c.toNat < z + 10)).map fun z =>
    ⟨(c.toNat - z) % 10, Nat.mod_lt _ (Nat.succ_pos 9)⟩

/-- `str.isdigit`. -/
def isdigit (text : String) : Bool :=
  text ≠ "" && text.toList.all fun c =>
    (digitOf c).isSome || otherDigits.any fun r => decide (r.1 ≤ c.toNat ∧ c.toNat ≤ r.2)

/-- `str.isspace`, of one character. -/
def isSpace (c : Char) : Bool :=
  let n := c.toNat
  decide ((0x9 ≤ n ∧ n ≤ 0xD) ∨ (0x1C ≤ n ∧ n ≤ 0x20) ∨ (0x2000 ≤ n ∧ n ≤ 0x200A) ∨
    n ∈ [0x85, 0xA0, 0x1680, 0x2028, 0x2029, 0x202F, 0x205F, 0x3000])

def strip (cs : List Char) : List Char := ((cs.dropWhile isSpace).reverse.dropWhile isSpace).reverse

/-- Digits, with an underscore between two of them or none; `after` says that
the last character was a digit. -/
def readDigits (after : Bool) : List Char → Option (List (Fin 10))
  | [] => if after then some [] else none
  | c :: cs =>
    if c = '_' then (if after then readDigits false cs else none)
    else (digitOf c).bind fun d => (readDigits true cs).map (d :: ·)

/-- The longest numeral that is read. -/
def maxStrDigits : ℕ := 4300

def signed : List Char → ℤ × List Char
  | '-' :: cs => (-1, cs)
  | '+' :: cs => (1, cs)
  | cs => (1, cs)

/-- `int(text)`, and the text of its `ValueError`. -/
def int (text : String) : Except String ℤ :=
  match readDigits false (signed (strip text.toList)).2 with
  | none => .error ("invalid literal for int() with base 10: " ++ quoted text)
  | some ds =>
    if ds.length ≤ maxStrDigits then .ok ((signed (strip text.toList)).1 * Decimal.value ds)
    else .error ("Exceeds the limit (" ++ toString maxStrDigits ++
      " digits) for integer string conversion: value has " ++ toString ds.length ++
      " digits; use sys.set_int_max_str_digits() to increase the limit")

/-! ### Lists and lines -/

/-- `xs[:n]`. -/
def upTo {α : Type} (n : ℤ) (xs : List α) : List α := xs.take (if 0 ≤ n then n else xs.length + n).toNat

/-- `xs[n:]`. -/
def startingAt {α : Type} (n : ℤ) (xs : List α) : List α := xs.drop (if 0 ≤ n then n else xs.length + n).toNat

/-- `text.split("\n")`. -/
def splitLines (text : String) : List String := (text.toList.splitOn '\n').map String.ofList

/-- `"\n".join(lines)`. -/
def joinLines (lines : List String) : String := "\n".intercalate lines

/-- The lines that `tail` takes. -/
def lastLines (n : ℤ) (lines : List String) : List String :=
  if n ≤ lines.length then startingAt (-n) lines else lines

/-! ### Commands -/

section Commands

variable {σ : Type} (V : Volume σ)

/-- The number and the paths that `head` and `tail` are given. -/
def countArgs : List String → ℤ → List String → Except String (ℤ × List String)
  | [], n, paths => .ok (n, paths)
  | [a], n, paths => do
    if startsWith a "-" && isdigit (sliceAfter a "-") then return (← int (sliceAfter a "-"), paths)
    else return (n, if startsWith a "-" then paths else paths ++ [a])
  | a :: b :: rest, n, paths => do
    if a = "-n" then countArgs rest (← int b) paths
    else if startsWith a "-" && isdigit (sliceAfter a "-") then countArgs (b :: rest) (← int (sliceAfter a "-")) paths
    else countArgs (b :: rest) n (if startsWith a "-" then paths else paths ++ [a])

/-- What a command makes of each file; a file that is missing ends it. -/
def readParts (cmd : String) (part : String → String → String) :
    List String → Sh σ (Except ExecResult (List String))
  | [] => return .ok []
  | p :: rest => do
    let path ← resolve p
    match ← onVolume (V.getDoc path) with
    | none => return .error { stderr := cmd ++ ": " ++ p ++ ": No such file or directory\n", exitCode := 1 }
    | some content =>
      let text ← decode content
      match ← readParts cmd part rest with
      | .error result => return .error result
      | .ok parts => return .ok (part p text :: parts)

/-- The text of the parts of the files. -/
def partsResult : Except ExecResult (List String) → ExecResult
  | .error result => result
  | .ok parts => { stdout := joinLines parts ++ "\n" }

/-- `head` and `tail`, which differ in the lines they take. -/
def cmdTake (cmd : String) (take : ℤ → List String → List String) (args : List String) (stdin : String) :
    Sh σ ExecResult := do
  match countArgs args 10 [] with
  | .error message => throw (.other message)
  | .ok (n, []) =>
    let taken := take n (splitLines stdin)
    return { stdout := joinLines taken ++ if taken.isEmpty then "" else "\n" }
  | .ok (n, paths) =>
    return partsResult (← readParts V cmd (fun _ text => joinLines (take n (splitLines text))) paths)

/-- `_cmd_head`. -/
def cmdHead (args : List String) (stdin : String) : Sh σ ExecResult := cmdTake V "head" upTo args stdin

/-- `_cmd_tail`. -/
def cmdTail (args : List String) (stdin : String) : Sh σ ExecResult := cmdTake V "tail" lastLines args stdin

/-- The options of `grep` that are about a text. -/
structure GrepOptions where
  ignoreCase : Bool
  showNumbers : Bool
  countOnly : Bool
  filesOnly : Bool
  invert : Bool
  recursive : Bool
  deriving DecidableEq

def GrepOptions.ofArgs (args : List String) : GrepOptions where
  ignoreCase := args.contains "-i"
  showNumbers := args.contains "-n"
  countOnly := args.contains "-c"
  filesOnly := args.contains "-l"
  invert := args.contains "-v"
  recursive := args.contains "-r" || args.contains "-R"

/-- `grep_content`: the lines that are found, as they are shown, and their
number. -/
def grepContent (opts : GrepOptions) (found : String → Bool) (label : Option String) (content : String) :
    List String × ℕ :=
  let hits := (splitLines content).zipIdx.filter fun line => found line.1 != opts.invert
  (hits.map fun line => (match truthy label with | some l => l ++ ":" | none => "") ++
    (if opts.showNumbers then toString (line.2 + 1) ++ ":" else "") ++ line.1, hits.length)

/-- What one text adds to the matches and to the count. -/
def grepAdd (opts : GrepOptions) (path : String) (found : List String × ℕ) (sofar : List String × ℕ) :
    List String × ℕ :=
  if opts.filesOnly && decide (0 < found.2) then (sofar.1 ++ [path], sofar.2)
  else if opts.countOnly then (sofar.1, sofar.2 + found.2)
  else (sofar.1 ++ found.1, sofar.2)

/-- A listing with the contents. -/
def listing (pre : String) : Sh σ (List (String × Option String)) := do
  match ← sync fun s : State σ => ((V.listByPrefix pre s.volume).1,
      { s with volume := (V.listByPrefix pre s.volume).2 }) with
  | .ok entries => return entries
  | .error e => throw e

/-- What the files under a directory add. -/
def grepEntries (opts : GrepOptions) (found : String → Bool) (multi : Bool) (entries : List (String × Option String))
    (sofar : List String × ℕ) : List String × ℕ :=
  entries.foldl (fun sofar e => match e.2 with
    | none => sofar
    | some content => grepAdd opts e.1 (grepContent opts found (if multi then some e.1 else none) content) sofar) sofar

/-- The targets of `grep`, one after another. -/
def grepTargets (opts : GrepOptions) (found : String → Bool) (multi : Bool) :
    List String → List String × ℕ → Sh σ (Except ExecResult (List String × ℕ))
  | [], sofar => return .ok sofar
  | t :: rest, sofar => do
    let path ← resolve t
    if opts.recursive && (← looking fun s => V.isDirectory path s.volume) then
      let entries ← listing V (withSlash path)
      grepTargets opts found multi rest (grepEntries opts found multi entries sofar)
    else
      match ← onVolume (V.getDoc path) with
      | none => return .error { stderr := "grep: " ++ t ++ ": No such file or directory\n", exitCode := 2 }
      | some content =>
        let text ← decode content
        grepTargets opts found multi rest
          (grepAdd opts path (grepContent opts found (if multi then some path else none) text) sofar)

/-- What `grep` prints. -/
def grepResult (countOnly : Bool) (found : List String × ℕ) : ExecResult :=
  if countOnly then { stdout := toString found.2 ++ "\n", exitCode := if found.2 ≠ 0 then 0 else 1 }
  else { stdout := joinLines found.1 ++ (if found.1.isEmpty then "" else "\n"),
         exitCode := if found.1.isEmpty then 1 else 0 }

/-- `_cmd_grep`; `search` is what `re` finds: whether the pattern, or the text
of one that is none, stands in a line, with the case ignored or not. -/
def cmdGrep (search : String → Bool → String → Bool) (args : List String) (stdin : String) : Sh σ ExecResult := do
  let opts := GrepOptions.ofArgs args
  match args.filter (!startsWith · "-") with
  | [] => return { stderr := "grep: missing pattern\n", exitCode := 2 }
  | [pattern] => return grepResult opts.countOnly (grepContent opts (search pattern opts.ignoreCase) none stdin)
  | pattern :: targets =>
    let multi := decide (1 < targets.length) || opts.recursive
    match ← grepTargets V opts (search pattern opts.ignoreCase) multi targets ([], 0) with
    | .error result => return result
    | .ok found => return grepResult opts.countOnly found

/-- The lines, the words and the bytes of a text. -/
def lineCount (text : String) : ℕ := text.toList.count '\n'

def wordCount (text : String) : ℕ := ((text.toList.splitOnP isSpace).filter (· ≠ [])).length

/-- `_cmd_wc`. -/
def cmdWc (args : List String) (stdin : String) : Sh σ ExecResult := do
  let counts (text sep : String) : String :=
    if args.contains "-l" then sep ++ toString (lineCount text)
    else if args.contains "-w" then sep ++ toString (wordCount text)
    else if args.contains "-c" then sep ++ toString text.utf8ByteSize
    else "  " ++ toString (lineCount text) ++ "  " ++ toString (wordCount text) ++ "  " ++ toString text.utf8ByteSize
  match args.filter (!startsWith · "-") with
  | [] => return { stdout := counts stdin "" ++ "\n" }
  | paths => return partsResult (← readParts V "wc" (fun p text => counts text "  " ++ " " ++ p) paths)

end Commands

/-! ### Numerals -/

theorem digitOf_digitChar : ∀ d : Fin 10, digitOf (Nat.digitChar d) = some d := by decide

theorem digitChar_plain : ∀ d : Fin 10, Nat.digitChar d ≠ '_' ∧ Nat.digitChar d ≠ '-' ∧ Nat.digitChar d ≠ '+' ∧
    isSpace (Nat.digitChar d) = false := by decide

/-- The characters of digits. -/
def numeral (ds : List (Fin 10)) : List Char := ds.map fun d : Fin 10 => Nat.digitChar d

theorem readDigits_numeral (ds : List (Fin 10)) (after : Bool) (h : after = true ∨ ds ≠ []) :
    readDigits after (numeral ds) = some ds := by
  induction ds generalizing after with
  | nil => 
    rcases h with rfl | h
    · rfl
    · exact absurd rfl h
  | cons d ds ih =>
    have hd : Nat.digitChar d ≠ '_' := (digitChar_plain d).1
    have ih' : readDigits true (numeral ds) = some ds := ih true (.inl rfl)
    unfold numeral at ih' ⊢
    rw [List.map_cons, readDigits, if_neg hd, digitOf_digitChar, ih']
    rfl

theorem toDigits_eq (k : ℕ) : ∃ ds, ds ≠ [] ∧ Nat.toDigits 10 k = numeral ds ∧ Decimal.value ds = k := by
  induction k using Nat.strong_induction_on with
  | _ k ih =>
    rw [Nat.toDigits_eq_if (by decide)]
    split_ifs with hk
    · refine ⟨[⟨k, hk⟩], List.cons_ne_nil _ _, rfl, ?_⟩
      simp [Decimal.value]
    · obtain ⟨ds, hne, hds, hval⟩ : ∃ ds, _ := ih (k / 10) (by omega)
      refine ⟨ds ++ [⟨k % 10, by omega⟩], by simp, ?_, ?_⟩
      · rw [hds]
        simp [numeral]
      · rw [Decimal.value_append, hval]
        simp [Decimal.value]
        omega

theorem strip_numeral (ds : List (Fin 10)) : strip (numeral ds) = numeral ds := by
  have hdrop : ∀ cs : List Char, (∀ c ∈ cs, isSpace c = false) → cs.dropWhile isSpace = cs := by
    intro cs h
    cases cs with
    | nil => rfl
    | cons c cs => simp [h c List.mem_cons_self]
  have hplain : ∀ c ∈ numeral ds, isSpace c = false := by
    intro c hc
    obtain ⟨d, -, rfl⟩ := List.mem_map.mp hc
    exact (digitChar_plain d).2.2.2
  unfold strip
  rw [hdrop _ hplain, hdrop _ fun c hc => hplain c (List.mem_reverse.mp hc), List.reverse_reverse]

theorem signed_numeral {ds : List (Fin 10)} (h : ds ≠ []) : signed (numeral ds) = (1, numeral ds) := by
  obtain ⟨d, rest, rfl⟩ := List.exists_cons_of_ne_nil h
  have hplain := digitChar_plain d
  unfold numeral
  rw [List.map_cons]
  unfold signed
  split
  · rename_i he
    exact absurd (List.cons.inj he).1 hplain.2.1
  · rename_i he
    exact absurd (List.cons.inj he).1 hplain.2.2.1
  · rfl

/-- A numeral is read, if it is not too long. -/
def Readable (k : ℕ) : Prop := (toString k).length ≤ maxStrDigits

instance (k : ℕ) : Decidable (Readable k) := inferInstanceAs (Decidable (_ ≤ _))

theorem int_toString (k : ℕ) : (Readable k → int (toString k) = .ok k) ∧
    (¬ Readable k → ∃ message, int (toString k) = .error message) := by
  obtain ⟨ds, hne, hds, hval⟩ := toDigits_eq k
  have hlist : (toString k).toList = numeral ds := by
    rw [← hds]
    exact Nat.toList_repr
  have hlen : Readable k ↔ ds.length ≤ maxStrDigits := by
    unfold Readable
    rw [← String.length_toList, hlist]
    simp [numeral]
  have hread : readDigits false (signed (strip (toString k).toList)).2 = some ds := by
    rw [hlist, strip_numeral, signed_numeral hne]
    exact readDigits_numeral ds false (.inr hne)
  have hsign : (signed (strip (toString k).toList)).1 = 1 := by rw [hlist, strip_numeral, signed_numeral hne]
  unfold int
  rw [hread, hlen]
  constructor
  · intro h
    simp only
    rw [if_pos h, hsign, one_mul, hval]
  · intro h
    simp only
    rw [if_neg h]
    exact ⟨_, rfl⟩

/-! ### What the commands print -/

/-- A text that is empty or ends in a newline. -/
def Terminated (t : String) : Prop := t = "" ∨ t.toList.getLast? = some '\n'

/-- The lines of such a text. -/
def linesOf (t : String) : List String := (splitLines t).dropLast

/-- The text of these lines. -/
def linesText (ls : List String) : String := String.join (ls.map (· ++ "\n"))

def printed {σ : Type} (x : Sh σ ExecResult) (s : State σ) : Option String :=
  match eval x s with
  | (.ok r, _) => some r.stdout
  | _ => none

/-- The command reads the text: from its standard input, or from one file. -/
def Reads {σ : Type} (V : Volume σ) (s : State σ) (src : Option String) (stdin t : String) : Prop :=
  match src with
  | none => stdin = t
  | some f => startsWith f "-" = false ∧
    ∃ content v, V.getDoc (Py.resolve s.cwd f) s.volume = (.ok (some content), v) ∧ decoded content = .ok t

section Laws

variable {σ : Type} {V : Volume σ} {s s₁ : State σ} {src : Option String} {stdin t : String} {k : ℕ}

theorem eval_decode {content : Content} (h : decoded content = .ok t) (u : State σ) :
    eval (decode content) u = (.ok t, u) := by
  unfold decode
  rw [h]
  rfl

/-- The parts of one file. -/
theorem eval_readParts {f : String} (h : Reads V s (some f) stdin t) (cmd : String) (part : String → String → String) :
    ∃ s', eval (readParts V cmd part [f]) s = (.ok (.ok [part f t]), s') := by
  obtain ⟨-, content, v, hget, htext⟩ := h
  refine ⟨{ s with volume := v }, ?_⟩
  simp [readParts, eval_onVolume, hget, eval_decode htext]

/-- What `head` and `tail` print. -/
def takenText (src : Option String) (taken : List String) : String :=
  joinLines taken ++ if src = none ∧ taken = [] then "" else "\n"

theorem countArgs_option (h : Reads V s src stdin t) (a : String) :
    countArgs ("-n" :: a :: src.toList) 10 [] = (int a).map fun n => (n, src.toList) := by
  rw [countArgs, if_pos rfl]
  cases int a with
  | error message => rfl
  | ok n =>
    cases src with
    | none => rfl
    | some f =>
      have hf : startsWith f "-" = false := h.1
      change countArgs [f] n [] = _
      simp [countArgs, hf]
      rfl

theorem printed_take (h : Reads V s src stdin t) (cmd : String) (take : ℤ → List String → List String) :
    (Readable k → printed (cmdTake V cmd take (["-n", toString k] ++ src.toList) stdin) s =
      some (takenText src (take k (splitLines t)))) ∧
    (¬ Readable k → printed (cmdTake V cmd take (["-n", toString k] ++ src.toList) stdin) s = none) := by
  have hargs : countArgs (["-n", toString k] ++ src.toList) 10 [] = _ := countArgs_option h (toString k)
  unfold cmdTake
  rw [hargs]
  constructor
  · intro hk
    rw [(int_toString k).1 hk]
    cases src with
    | none =>
      obtain rfl : stdin = t := h
      simp [Except.map, printed, takenText]
    | some f =>
      obtain ⟨s', hs'⟩ := eval_readParts h cmd fun _ text => joinLines (take k (splitLines text))
      simp only [Except.map, Option.toList_some, printed, takenText, eval_bind, hs', andThen_ok, eval_pure, partsResult,
        reduceCtorEq, false_and, if_false]
      simp [joinLines]
  · intro hk
    obtain ⟨message, hint⟩ : ∃ message, int (toString k) = .error message := (int_toString k).2 hk
    rw [hint]
    rfl

/-! ### The lines of a text -/

/-- The lines, as lists of characters. -/
def HasLines (t : String) (ls : List (List Char)) : Prop := (∀ l ∈ ls, '\n' ∉ l) ∧ t.toList = ended '\n' ls

variable {ls : List (List Char)}

theorem Terminated.hasLines (h : Terminated t) : ∃ ls, HasLines t ls := by
  apply exists_ended
  rcases h with rfl | h
  · exact .inl rfl
  · exact .inr h

theorem HasLines.splitLines (h : HasLines t ls) : splitLines t = (ls ++ [[]]).map String.ofList := by
  unfold Shell.splitLines
  rw [h.2, splitOn_ended h.1]

theorem HasLines.linesOf (h : HasLines t ls) : linesOf t = ls.map String.ofList := by
  unfold Shell.linesOf
  rw [h.splitLines, List.map_append]
  exact List.dropLast_concat

theorem HasLines.lineCount (h : HasLines t ls) : lineCount t = ls.length := by
  unfold Shell.lineCount
  rw [h.2, count_ended h.1]

theorem toList_linesText (ms : List (List Char)) : (linesText (ms.map String.ofList)).toList = ended '\n' ms := by
  simp [linesText, ended, List.flatMap_map, Function.comp_def]

theorem toList_takenText (ms : List (List Char)) : (takenText src (ms.map String.ofList)).toList =
    if ms = [] then (if src = none then [] else ['\n']) else ended '\n' ms := by
  have hjoin : (joinLines (ms.map String.ofList)).toList = ['\n'].intercalate ms := by
    unfold joinLines
    rw [String.toList_intercalate, List.map_map]
    simp [Function.comp_def]
  unfold takenText
  rw [String.toList_append, hjoin]
  by_cases hms : ms = []
  · rw [if_pos hms]
    split_ifs <;> simp_all
  · rw [if_neg hms, if_neg fun h => hms (List.map_eq_nil_iff.mp h.2)]
    exact intercalate_append_self hms

theorem upTo_eq {α : Type} (xs : List α) (k : ℕ) : upTo k xs = xs.take k := by simp [upTo]

theorem lastLines_eq (xs : List String) (k : ℕ) :
    lastLines k xs = if k = 0 then xs else xs.drop (xs.length - k) := by
  unfold lastLines startingAt
  by_cases hk : k = 0
  · simp [hk]
  · rw [if_neg hk]
    by_cases hle : k ≤ xs.length
    · rw [if_pos (by omega), if_neg (by omega)]
      congr 1
      omega
    · rw [if_neg (by omega), Nat.sub_eq_zero_of_le (by omega), List.drop_zero]

/-! ### The laws -/

/-- `head -n k` prints the first lines. -/
def HeadLaw (V : Volume σ) (s : State σ) (src : Option String) (stdin t : String) (k : ℕ) : Prop :=
  printed (cmdHead V (["-n", toString k] ++ src.toList) stdin) s = some (linesText ((linesOf t).take k))

/-- `tail -n k` prints the last lines. -/
def TailLaw (V : Volume σ) (s : State σ) (src : Option String) (stdin t : String) (k : ℕ) : Prop :=
  printed (cmdTail V (["-n", toString k] ++ src.toList) stdin) s =
    some (linesText ((linesOf t).drop (lineCount t - k)))

theorem printed_eq_iff {x y : String} (p : Prop) {o : Option String} (h : p → o = some x) (hn : ¬ p → o = none) :
    o = some y ↔ p ∧ x.toList = y.toList := by
  by_cases hp : p
  · simp [h hp, hp, String.toList_inj]
  · simp [hn hp, hp]

/-- The first of the parts of a split, as they are printed. -/
theorem taken_first_iff : (takenText src (((ls ++ [[]]).take k).map String.ofList)).toList = ended '\n' (ls.take k) ↔
    k ≤ ls.length ∧ (src = none ∨ 1 ≤ k) := by
  rw [toList_takenText]
  by_cases hk : k = 0
  · subst hk
    by_cases hsrc : src = none
    · simp [hsrc]
    · simp [hsrc]
  · have hne : (ls ++ [[]]).take k ≠ [] := by simp [hk]
    rw [if_neg hne]
    by_cases hle : k ≤ ls.length
    · rw [List.take_append_of_le_length hle]
      simp [hle, Nat.one_le_iff_ne_zero.mpr hk]
    · rw [List.take_of_length_le (by simp; omega), List.take_of_length_le (by omega)]
      simp [hle]

/-- The last of the parts of a split: the empty one stands in the place of the
first line that was asked for. -/
theorem taken_last_iff (h : ∀ l ∈ ls, '\n' ∉ l) :
    (takenText src ((if k = 0 then ls ++ [[]] else (ls ++ [[]]).drop (ls.length + 1 - k)).map String.ofList)).toList =
      ended '\n' (ls.drop (ls.length - k)) ↔ 1 ≤ k ∧ k ≤ ls.length ∧ ∀ l ∈ ls.drop (ls.length - k), l = [] := by
  rw [toList_takenText]
  by_cases hk : k = 0
  · rw [if_pos hk, if_neg (by simp)]
    simp [hk]
  · rw [if_neg hk]
    by_cases hle : k ≤ ls.length
    · obtain ⟨n, hn⟩ : ∃ n, ls.length - k = n := ⟨_, rfl⟩
      have hlt : n < ls.length := by omega
      have hdrop : ls.drop n = ls[n] :: ls.drop (n + 1) := List.drop_eq_getElem_cons hlt
      have htail : ∀ l ∈ ls.drop (n + 1), '\n' ∉ l := fun l hl => h l (List.mem_of_mem_drop hl)
      have hsucc : ls.length + 1 - k = n + 1 := by omega
      rw [hn, hsucc, List.drop_append_of_le_length (by omega), if_neg (by simp), ended_append, hdrop]
      have hiff := ended_tail_iff (l := ls[n]) htail
      simp only [ended_cons, ended_nil, List.nil_append] at hiff ⊢
      rw [hiff]
      simp [hle, Nat.one_le_iff_ne_zero.mpr hk]
    · have hzero : ls.length + 1 - k = 0 := by omega
      have hzero' : ls.length - k = 0 := by omega
      rw [hzero, hzero', List.drop_zero, List.drop_zero, if_neg (by simp)]
      simp [hle]

/-- **`head` is right if there are so many lines, and one at least is asked of
a file.** -/
theorem headLaw_iff (ht : Terminated t) (h : Reads V s src stdin t) :
    HeadLaw V s src stdin t k ↔ Readable k ∧ k ≤ lineCount t ∧ (src = none ∨ 1 ≤ k) := by
  obtain ⟨ls, hls⟩ := ht.hasLines
  have hprint := printed_take (k := k) h "head" upTo
  unfold HeadLaw cmdHead
  rw [printed_eq_iff (Readable k) hprint.1 hprint.2, hls.splitLines, hls.linesOf, hls.lineCount, upTo_eq,
    ← List.map_take, ← List.map_take, toList_linesText, taken_first_iff]

/-- **`tail` is right if there are so many lines, and all it is to give are
empty.** -/
theorem tailLaw_iff (ht : Terminated t) (h : Reads V s src stdin t) : TailLaw V s src stdin t k ↔
    Readable k ∧ 1 ≤ k ∧ k ≤ lineCount t ∧ ∀ l ∈ (linesOf t).drop (lineCount t - k), l = "" := by
  obtain ⟨ls, hls⟩ := ht.hasLines
  have hprint := printed_take (k := k) h "tail" lastLines
  have htaken : lastLines k (splitLines t) =
      (if k = 0 then ls ++ [[]] else (ls ++ [[]]).drop (ls.length + 1 - k)).map String.ofList := by
    rw [lastLines_eq, hls.splitLines]
    split_ifs
    · rfl
    · simp
  unfold TailLaw cmdTail
  rw [printed_eq_iff (Readable k) hprint.1 hprint.2, htaken, hls.linesOf, hls.lineCount, ← List.map_drop,
    toList_linesText, taken_last_iff hls.1]
  have hempty : ∀ ms : List (List Char), (∀ l ∈ ms.map String.ofList, l = "") ↔ ∀ l ∈ ms, l = [] := by
    intro ms
    rw [List.forall_mem_map]
    refine forall₂_congr fun l _ => ?_
    rw [← String.toList_inj, String.toList_ofList]
    rfl
  rw [hempty]

/-- The counts of `grep -c p` and of `grep -v -c p` have these many lines
between them. -/
def GrepLaw (V : Volume σ) (search : String → Bool → String → Bool) (s s₁ : State σ) (src : Option String)
    (stdin p : String) (total : ℕ) : Prop :=
  ∃ a b : ℕ, printed (cmdGrep V search (["-c", p] ++ src.toList) stdin) s = some (toString a ++ "\n") ∧
    printed (cmdGrep V search (["-v", "-c", p] ++ src.toList) stdin) s₁ = some (toString b ++ "\n") ∧ a + b = total

/-- What is no option. -/
theorem ne_option {a : String} (h : startsWith a "-" = false) {o : String} (ho : startsWith o "-" = true) : a ≠ o := by
  rintro rfl
  exact Bool.false_ne_true (h.symm.trans ho)

/-- The options of a count. -/
def counting (invert : Bool) : GrepOptions := ⟨false, false, true, false, invert, false⟩

/-- The words of a count, without and with `-v`. -/
def countFlags (invert : Bool) : List String := if invert then ["-v", "-c"] else ["-c"]

theorem Reads.plain (h : Reads V s src stdin t) : ∀ f ∈ src.toList, startsWith f "-" = false := by
  cases src with
  | none => simp
  | some f => simpa using h.1

theorem options_count {p : String} (hp : startsWith p "-" = false) (h : ∀ f ∈ src.toList, startsWith f "-" = false)
    (invert : Bool) : GrepOptions.ofArgs (countFlags invert ++ p :: src.toList) = counting invert := by
  have hflags : ∀ o, startsWith o "-" = true →
      (countFlags invert ++ p :: src.toList).contains o = (countFlags invert).contains o := by
    intro o ho
    have hout : o ∉ p :: src.toList := by
      rw [List.mem_cons, not_or]
      exact ⟨(ne_option hp ho).symm, fun hmem => ne_option (h o hmem) ho rfl⟩
    rw [List.contains_eq_mem, List.contains_eq_mem, decide_eq_decide, List.mem_append, or_iff_left hout]
  unfold GrepOptions.ofArgs counting
  rw [hflags "-i" (by decide), hflags "-n" (by decide), hflags "-c" (by decide), hflags "-l" (by decide),
    hflags "-v" (by decide), hflags "-r" (by decide), hflags "-R" (by decide)]
  cases invert <;> decide

theorem positional_count {p : String} (hp : startsWith p "-" = false) (h : ∀ f ∈ src.toList, startsWith f "-" = false)
    (invert : Bool) : (countFlags invert ++ p :: src.toList).filter (!startsWith · "-") = p :: src.toList := by
  have hflags : (countFlags invert).filter (!startsWith · "-") = [] := by cases invert <;> decide
  have hsrc : src.toList.filter (!startsWith · "-") = src.toList := by
    rw [List.filter_eq_self]
    intro f hf
    simp [h f hf]
  rw [List.filter_append, hflags, List.filter_cons, hsrc]
  simp [hp]

/-- The parts of a split that are found, or that are not. -/
def hits (search : String → Bool → String → Bool) (p : String) (invert : Bool) (t : String) : List String :=
  (splitLines t).filter fun l => search p false l != invert

theorem grepContent_count (search : String → Bool → String → Bool) (p : String) (invert : Bool)
    (label : Option String) : (grepContent (counting invert) (search p false) label t).2 =
      (hits search p invert t).length := by
  unfold hits
  rw [← List.zipIdx_map_fst 0 (splitLines t), List.filter_map, List.length_map]
  rfl

/-- `grep -c` prints their number. -/
theorem printed_count {p : String} (hp : startsWith p "-" = false) (h : Reads V s src stdin t)
    (search : String → Bool → String → Bool) (invert : Bool) :
    printed (cmdGrep V search (countFlags invert ++ p :: src.toList) stdin) s =
      some (toString (hits search p invert t).length ++ "\n") := by
  have hcount := grepContent_count (t := t) search p invert
  unfold cmdGrep
  rw [positional_count hp h.plain, options_count hp h.plain]
  cases src with
  | none =>
    obtain rfl : stdin = t := h
    change some (toString (grepContent (counting invert) (search p false) none stdin).2 ++ "\n") = _
    rw [hcount]
  | some f =>
    obtain ⟨-, content, v, hget, htext⟩ := h
    have htargets : ∃ s', eval (grepTargets V (counting invert) (search p false) false [f] ([], 0)) s =
        (.ok (.ok ([], 0 + (hits search p invert t).length)), s') := by
      refine ⟨{ s with volume := v }, ?_⟩
      have hadd : ∀ label, grepAdd (counting invert) (Py.resolve s.cwd f)
          (grepContent (counting invert) (search p false) label t) ([], 0) =
            ([], 0 + (hits search p invert t).length) := by
        intro label
        rw [← hcount label]
        rfl
      have hrec : (counting invert).recursive = false := rfl
      simp [grepTargets, eval_onVolume, hget, eval_decode htext, hrec, hadd]
    obtain ⟨s', hs'⟩ := htargets
    have hmulti : (decide (1 < [f].length) || (counting invert).recursive) = false := rfl
    have hcase : (counting invert).ignoreCase = false ∧ (counting invert).countOnly = true := ⟨rfl, rfl⟩
    simp only [Option.toList_some, printed, hmulti, hcase, eval_bind, hs', andThen_ok, eval_pure, grepResult,
      Nat.zero_add, if_true]

/-- What `head -n k` prints and then `tail -n` of the other lines is the text. -/
def JoinLaw (V : Volume σ) (s s₁ : State σ) (src : Option String) (stdin t : String) (k : ℕ) : Prop :=
  ∃ a b, printed (cmdHead V (["-n", toString k] ++ src.toList) stdin) s = some a ∧
    printed (cmdTail V (["-n", toString (lineCount t - k)] ++ src.toList) stdin) s₁ = some b ∧ a ++ b = t

theorem newline_inj {a b : ℕ} (h : toString a ++ "\n" = toString b ++ "\n") : a = b := by
  have hlist := congrArg String.toList h
  rw [String.toList_append, String.toList_append, List.append_left_inj] at hlist
  obtain ⟨ds, -, hds, rfl⟩ : ∃ ds, ds ≠ [] ∧ Nat.toDigits 10 a = numeral ds ∧ _ := toDigits_eq a
  obtain ⟨es, -, hes, rfl⟩ : ∃ es, es ≠ [] ∧ Nat.toDigits 10 b = numeral es ∧ _ := toDigits_eq b
  have he : numeral ds = numeral es := by
    rw [← hds, ← hes, ← Nat.toList_repr, ← Nat.toList_repr]
    exact hlist
  have hread := readDigits_numeral ds true (.inl rfl)
  rw [he, readDigits_numeral es true (.inl rfl)] at hread
  exact congrArg _ (Option.some.inj hread).symm

/-- **The two counts have one line more between them than there are.** -/
theorem grepLaw_iff {p : String} (ht : Terminated t) (h : Reads V s src stdin t) (h₁ : Reads V s₁ src stdin t)
    (hp : startsWith p "-" = false) (search : String → Bool → String → Bool) (total : ℕ) :
    GrepLaw V search s s₁ src stdin p total ↔ total = lineCount t + 1 := by
  obtain ⟨ls, hls⟩ := ht.hasLines
  have hfound := printed_count hp h search false
  have hother := printed_count hp h₁ search true
  have hsum : (hits search p false t).length + (hits search p true t).length = lineCount t + 1 := by
    have hnot : hits search p true t = (splitLines t).filter (!(fun l => search p false l != false) ·) := by
      unfold hits
      congr 1
      funext l
      simp
    rw [hnot]
    unfold hits
    rw [← List.length_eq_length_filter_add, hls.splitLines, hls.lineCount]
    simp
  constructor
  · rintro ⟨a, b, ha, hb, rfl⟩
    have ha' : a = _ := newline_inj (Option.some.inj (ha.symm.trans hfound))
    have hb' : b = _ := newline_inj (Option.some.inj (hb.symm.trans hother))
    rw [ha', hb', hsum]
  · rintro rfl
    exact ⟨_, _, hfound, hother, hsum⟩

theorem linesText_take_drop (ht : Terminated t) (k : ℕ) :
    linesText ((linesOf t).take k) ++ linesText ((linesOf t).drop k) = t := by
  obtain ⟨ls, hls⟩ := ht.hasLines
  apply String.toList_inj.mp
  rw [String.toList_append, hls.linesOf, ← List.map_take, ← List.map_drop, toList_linesText, toList_linesText,
    ended_take_drop, hls.2]

/-- Of no line of a file `head` prints one that is empty. -/
theorem join_none_ne (hls : HasLines t ls) :
    "\n" ++ takenText src (lastLines ls.length (splitLines t)) ≠ t := by
  intro he
  have hlist := congrArg String.toList he
  rw [String.toList_append, hls.2] at hlist
  change '\n' :: _ = _ at hlist
  rw [lastLines_eq, hls.splitLines] at hlist
  cases hcase : ls with
  | nil =>
    rw [hcase] at hlist
    simp at hlist
  | cons l rest =>
    have hl : '\n' ∉ l := hls.1 l (hcase ▸ List.mem_cons_self)
    rw [hcase, if_neg (by simp), List.length_map, ← List.map_drop, toList_takenText] at hlist
    have hdrop : (l :: rest ++ [[]]).drop ((l :: rest ++ [[]]).length - (l :: rest).length) = rest ++ [[]] := by simp
    rw [hdrop, if_neg (by simp), ended_append, ended_cons] at hlist
    cases l with
    | nil =>
      have hlen := congrArg List.length hlist
      simp at hlen
    | cons c l =>
      rw [ended_cons, List.cons_append, List.cons.injEq] at hlist
      exact hl (hlist.1 ▸ List.mem_cons_self)

/-- **The first lines and then the others are the text if the others are right.** -/
theorem joinLaw_iff (ht : Terminated t) (h : Reads V s src stdin t) (h₁ : Reads V s₁ src stdin t)
    (hk : k ≤ lineCount t) : JoinLaw V s s₁ src stdin t k ↔
      Readable k ∧ Readable (lineCount t - k) ∧ (src = none ∨ 1 ≤ k) ∧ k < lineCount t ∧
        ∀ l ∈ (linesOf t).drop k, l = "" := by
  have hsub : lineCount t - (lineCount t - k) = k := by omega
  have htail := tailLaw_iff (k := lineCount t - k) ht h₁
  unfold TailLaw at htail
  rw [hsub] at htail
  have htext := linesText_take_drop ht k
  constructor
  · rintro ⟨a, b, ha, hb, hab⟩
    have hhead := printed_take (k := k) h "head" upTo
    have hlast := printed_take (k := lineCount t - k) h₁ "tail" lastLines
    have hread : Readable k := by
      by_contra hnot
      exact Option.some_ne_none _ (ha.symm.trans (hhead.2 hnot))
    have hread' : Readable (lineCount t - k) := by
      by_contra hnot
      exact Option.some_ne_none _ (hb.symm.trans (hlast.2 hnot))
    by_cases hsrc : src = none ∨ 1 ≤ k
    · have hfirst : HeadLaw V s src stdin t k := (headLaw_iff ht h).mpr ⟨hread, hk, hsrc⟩
      have ha' : a = linesText ((linesOf t).take k) := Option.some.inj (ha.symm.trans hfirst)
      have hb' : b = linesText ((linesOf t).drop k) := by
        have hboth : linesText ((linesOf t).take k) ++ b = _ := (ha' ▸ hab).trans htext.symm
        have hlist := congrArg String.toList hboth
        rw [String.toList_append, String.toList_append] at hlist
        exact String.toList_inj.mp (List.append_cancel_left hlist)
      obtain ⟨-, hpos, -, hempty⟩ := htail.mp (hb' ▸ hb)
      exact ⟨hread, hread', hsrc, by omega, hempty⟩
    · exfalso
      obtain ⟨hsome, hzero⟩ := not_or.mp hsrc
      obtain rfl : k = 0 := by omega
      obtain ⟨ls, hls⟩ := ht.hasLines
      have ha' : a = "\n" := by
        have hnone := Option.some.inj (ha.symm.trans (hhead.1 hread))
        rw [upTo_eq, List.take_zero, takenText, if_neg fun h => hsome h.1] at hnone
        simpa [joinLines] using hnone
      have hb' := Option.some.inj (hb.symm.trans (hlast.1 hread'))
      rw [Nat.sub_zero, hls.lineCount] at hb'
      exact join_none_ne hls (hb' ▸ ha' ▸ hab)
  · rintro ⟨hread, hread', hsrc, hlt, hempty⟩
    have hfirst : HeadLaw V s src stdin t k := (headLaw_iff ht h).mpr ⟨hread, hk, hsrc⟩
    exact ⟨_, _, hfirst, htail.mpr ⟨hread', by omega, by omega, hempty⟩, htext⟩

/-- What `wc -l` prints of so many lines. -/
def countText (src : Option String) (n : ℕ) : String :=
  match src with
  | none => toString n ++ "\n"
  | some f => "  " ++ toString n ++ " " ++ f ++ "\n"

theorem printed_wc (h : Reads V s src stdin t) :
    printed (cmdWc V ("-l" :: src.toList) stdin) s = some (countText src (lineCount t)) := by
  have hargs : ("-l" :: src.toList).contains "-l" = true := by simp
  unfold cmdWc
  cases src with
  | none =>
    obtain rfl : stdin = t := h
    rfl
  | some f =>
    have hfilter : ["-l", f].filter (!startsWith · "-") = [f] := by
      have hl : startsWith "-l" "-" = true := by decide
      simp [h.1, hl]
    obtain ⟨s', hs'⟩ := eval_readParts h "wc" fun p text => "  " ++ toString (lineCount text) ++ " " ++ p
    simp only [Option.toList_some] at hargs
    simp only [Option.toList_some, printed, hfilter, hargs, if_true, eval_bind, hs', andThen_ok, eval_pure, partsResult]
    simp [joinLines, countText]

/-- **What the line commands agree on.** -/
theorem line_commands_iff (ht : Terminated t) (h : Reads V s src stdin t) (h₁ : Reads V s₁ src stdin t) :
    printed (cmdWc V ("-l" :: src.toList) stdin) s = some (countText src (lineCount t)) ∧
    (∀ k, HeadLaw V s src stdin t k ↔ Readable k ∧ k ≤ lineCount t ∧ (src = none ∨ 1 ≤ k)) ∧
    (∀ k, TailLaw V s src stdin t k ↔
      Readable k ∧ 1 ≤ k ∧ k ≤ lineCount t ∧ ∀ l ∈ (linesOf t).drop (lineCount t - k), l = "") ∧
    (∀ search p, startsWith p "-" = false → ∀ total,
      GrepLaw V search s s₁ src stdin p total ↔ total = lineCount t + 1) ∧
    (∀ k ≤ lineCount t, JoinLaw V s s₁ src stdin t k ↔ Readable k ∧ Readable (lineCount t - k) ∧
      (src = none ∨ 1 ≤ k) ∧ k < lineCount t ∧ ∀ l ∈ (linesOf t).drop k, l = "") :=
  ⟨printed_wc h, fun _ => headLaw_iff ht h, fun _ => tailLaw_iff ht h,
    fun search _ hp total => grepLaw_iff ht h h₁ hp search total, fun _ hk => joinLaw_iff ht h h₁ hk⟩

end Laws

/-! ### One line -/

/-- A client that has read nothing yet, of a server with one file of one line. -/
def oneLine : State World :=
  ⟨⟨⟨[⟨"d1", some "/a.md", some "a\n", some "done", none, none, none, none, none⟩], [], ([], [])⟩, .new,
    .new none none fun _ => 0, []⟩, "/", fun _ => none, 0⟩

theorem oneLine_reads : Reads (client 0) oneLine (some "/a.md") "" "a\n" := ⟨by decide, .text "a\n", _, rfl, rfl⟩

theorem line_commands_file :
    HeadLaw (client 0) oneLine (some "/a.md") "" "a\n" 1 ∧ ¬ TailLaw (client 0) oneLine (some "/a.md") "" "a\n" 1 := by
  have ht : Terminated "a\n" := .inr (by decide)
  obtain ⟨-, hhead, htail, -⟩ := line_commands_iff ht oneLine_reads oneLine_reads
  refine ⟨(hhead 1).mpr ⟨by decide, by decide, .inr (le_refl 1)⟩, fun h => ?_⟩
  obtain ⟨-, -, -, hempty⟩ := (htail 1).mp h
  exact absurd (hempty "a" (by decide)) (by decide)

/-- **The counterexample.** Of one line `tail -n 1` prints a newline only. -/
theorem last_line_lost : printed (cmdTail (client 0) ["-n", "1"] "a\n") oneLine = some "\n" ∧
    ¬ TailLaw (client 0) oneLine none "a\n" "a\n" 1 := by
  unfold TailLaw
  decide +kernel

end Smfs.Bash.Shell
