/-
# The marker file

Each mount writes a block of three lines into the file `.smfs` beside its
mount point (`cmd/marker.rs`), and the blocks are joined by a newline. A block
ends with one, so what separates two blocks is a blank line, and no other line
is blank, whatever the fields are: each line begins with its key. So the file is
read back as it was written (`parse_render`). A daemon that starts takes the
entry of its tag out of the file and puts its own at the end, and one that ends
takes it out (`cmd/daemon_runtime.rs`); the file then has the latest entry of
each tag that is mounted, once, and a step changes no other tag's.

Key definitions: `SmfsMarker`, `parseAllMarkers`, `formatMarker`, `Marker.register`, `Marker.unregister`, `Marker.latest`.
Key theorems: `Marker.parse_render`, `Marker.file_run`, `Marker.markers_kept`.
-/
import Smfs.Hint.Sheet
import Smfs.Wrapper

namespace Smfs

structure SmfsMarker where
  tag : String
  apiUrl : String
  mountPath : Option String
  deriving DecidableEq, Repr

namespace Marker

open Wrapper (lines stripNewline)

/-! ### Reading and writing -/

/-- `split("\n\n")`. -/
def splitBlank : List Char → List (List Char)
  | [] => [[]]
  | '\n' :: '\n' :: cs => [] :: splitBlank cs
  | c :: cs =>
    match splitBlank cs with
    | [] => [[c]]
    | block :: rest => (c :: block) :: rest

def tagKey : List Char := "container_tag=".toList

def urlKey : List Char := "api_url=".toList

def pathKey : List Char := "mount_path=".toList

/-- The value of a line with the key. -/
def valueOf (key line : List Char) : Option String :=
  if key <+: line then some (String.ofList (line.drop key.length)) else none

/-- The values found so far: the tag, the URL and the mount path. -/
structure Found where
  tag : Option String := none
  url : Option String := none
  mountPath : Option String := none

/-- A later line with the same key counts. -/
def Found.read (f : Found) (line : List Char) : Found :=
  ⟨(valueOf tagKey line).or f.tag, (valueOf urlKey line).or f.url, (valueOf pathKey line).or f.mountPath⟩

def defaultUrl : String := "https://api.supermemory.ai"

def parseOneMarker (block : List Char) : Option SmfsMarker :=
  let found := (lines block).foldl Found.read {}
  found.tag.map fun tag => ⟨tag, found.url.getD defaultUrl, found.mountPath⟩

def parseAllMarkers (content : List Char) : List SmfsMarker := (splitBlank content).filterMap parseOneMarker

def formatMarker (m : SmfsMarker) : List Char :=
  tagKey ++ m.tag.toList ++ '\n' :: (urlKey ++ m.apiUrl.toList ++ '\n' :: (pathKey ++ (m.mountPath.getD "").toList ++ ['\n']))

/-- The blocks, joined by one newline. -/
def render (ms : List SmfsMarker) : List Char := ['\n'].intercalate (ms.map formatMarker)

/-! ### Mounts -/

/-- What `run` writes when it starts. -/
def register (file : Option (List Char)) (m : SmfsMarker) : List Char :=
  match file with
  | some existing => render ((parseAllMarkers existing).filter (·.tag ≠ m.tag) ++ [m])
  | none => formatMarker m

/-- What it leaves when it ends: without an entry the file goes. -/
def unregister (file : Option (List Char)) (tag : String) : Option (List Char) :=
  match file with
  | some existing =>
    let remaining := (parseAllMarkers existing).filter (·.tag ≠ tag)
    if remaining = [] then none else some (render remaining)
  | none => none

inductive Event
  | mount (tag apiUrl mountPath : String)
  | unmount (tag : String)
  deriving DecidableEq, Repr

def Event.tag : Event → String
  | .mount tag _ _ => tag
  | .unmount tag => tag

def apply (file : Option (List Char)) : Event → Option (List Char)
  | .mount tag apiUrl mountPath => some (register file ⟨tag, apiUrl, some mountPath⟩)
  | .unmount tag => unregister file tag

/-- The file after the events, none at first. -/
def fileAfter (events : List Event) : Option (List Char) := events.foldl apply none

/-- The markers of a file. -/
def markersOf (file : Option (List Char)) : List SmfsMarker := parseAllMarkers (file.getD [])

/-- What the latest mount of a tag said, unless it was unmounted since. -/
def latest (events : List Event) (tag : String) : Option SmfsMarker :=
  events.foldl (fun found e =>
    if e.tag = tag then
      match e with
      | .mount tag apiUrl mountPath => some ⟨tag, apiUrl, some mountPath⟩
      | .unmount _ => none
    else found) none

/-- A text without line breaks. -/
def OneLine (s : String) : Prop := '\n' ∉ s.toList ∧ '\r' ∉ s.toList

instance (s : String) : Decidable (OneLine s) := inferInstanceAs (Decidable (_ ∧ _))

/-- The fields have no line breaks. -/
def Clean (m : SmfsMarker) : Prop := OneLine m.tag ∧ OneLine m.apiUrl ∧ ∀ p ∈ m.mountPath, OneLine p

def Event.Clean : Event → Prop
  | .mount tag apiUrl mountPath => OneLine tag ∧ OneLine apiUrl ∧ OneLine mountPath
  | .unmount _ => True

/-! ### Blocks -/

section Blocks

variable {x y rest : List Char} {c : Char}

theorem splitBlank_ne_nil (cs : List Char) : splitBlank cs ≠ [] := by
  unfold splitBlank
  split
  · exact List.cons_ne_nil _ _
  · exact List.cons_ne_nil _ _
  · split <;> exact List.cons_ne_nil _ _

/-- The text put before the first block. -/
def putBefore (x : List Char) : List (List Char) → List (List Char)
  | [] => [x]
  | block :: rest => (x ++ block) :: rest

theorem splitBlank_cons (hc : c ≠ '\n' ∨ rest.head? ≠ some '\n') : splitBlank (c :: rest) = putBefore [c] (splitBlank rest) := by
  rw [splitBlank.eq_def]
  split
  · rename_i he
    cases he
  · rename_i cs he
    obtain ⟨rfl, rfl⟩ := List.cons.inj he
    simp at hc
  · rename_i d cs hno he
    obtain ⟨rfl, rfl⟩ := List.cons.inj he
    cases splitBlank rest <;> rfl

/-- A line goes to the block of what follows it. -/
theorem splitBlank_line (hx : '\n' ∉ x) (rest : List Char) : splitBlank (x ++ rest) = putBefore x (splitBlank rest) := by
  induction x with
  | nil =>
    obtain ⟨block, blocks, he⟩ := List.exists_cons_of_ne_nil (splitBlank_ne_nil rest)
    rw [List.nil_append, he]
    rfl
  | cons c x ih =>
    rw [List.mem_cons, not_or] at hx
    rw [List.cons_append, splitBlank_cons (.inl (Ne.symm hx.1)), ih hx.2]
    obtain ⟨block, blocks, he⟩ := List.exists_cons_of_ne_nil (splitBlank_ne_nil rest)
    rw [he]
    rfl

theorem splitBlank_newline (hrest : rest.head? ≠ some '\n') :
    splitBlank ('\n' :: rest) = putBefore ['\n'] (splitBlank rest) := splitBlank_cons (.inr hrest)

theorem splitBlank_blank (rest : List Char) : splitBlank ('\n' :: '\n' :: rest) = [] :: splitBlank rest := rfl

end Blocks

/-! ### The lines of a block -/

section Fields

variable {x y : List Char} {m : SmfsMarker} {ms : List SmfsMarker}

def tagLine (m : SmfsMarker) : List Char := tagKey ++ m.tag.toList

def urlLine (m : SmfsMarker) : List Char := urlKey ++ m.apiUrl.toList

def pathLine (m : SmfsMarker) : List Char := pathKey ++ (m.mountPath.getD "").toList

/-- The block without the newline at its end. -/
def blockOf (m : SmfsMarker) : List Char := tagLine m ++ '\n' :: (urlLine m ++ '\n' :: pathLine m)

theorem formatMarker_eq (m : SmfsMarker) : formatMarker m = blockOf m ++ ['\n'] := by
  simp [formatMarker, blockOf, tagLine, urlLine, pathLine]

theorem Clean.path (h : Clean m) : OneLine (m.mountPath.getD "") := by
  rcases hm : m.mountPath with _ | p
  · exact ⟨by simp, by simp⟩
  · exact h.2.2 p hm

/-- No line of the block has a line break in it. -/
theorem Clean.lines (h : Clean m) : ∀ l ∈ [tagLine m, urlLine m, pathLine m], '\n' ∉ l ∧ '\r' ∉ l := by
  have hkeys : ∀ key ∈ [tagKey, urlKey, pathKey], '\n' ∉ key ∧ '\r' ∉ key := by decide
  have hline : ∀ key ∈ [tagKey, urlKey, pathKey], ∀ s, OneLine s → '\n' ∉ key ++ s.toList ∧ '\r' ∉ key ++ s.toList := by
    intro key hkey s hs
    simp only [List.mem_append, not_or]
    exact ⟨⟨(hkeys key hkey).1, hs.1⟩, (hkeys key hkey).2, hs.2⟩
  intro l hl
  simp only [List.mem_cons, List.not_mem_nil, or_false] at hl
  rcases hl with rfl | rfl | rfl
  · exact hline tagKey (by simp) m.tag h.1
  · exact hline urlKey (by simp) m.apiUrl h.2.1
  · exact hline pathKey (by simp) (m.mountPath.getD "") h.path

theorem head_urlLine (m : SmfsMarker) (rest : List Char) : (urlLine m ++ rest).head? = some 'a' := by
  have hkey : urlKey = 'a' :: urlKey.tail := by decide
  rw [urlLine, hkey]
  rfl

theorem head_pathLine (m : SmfsMarker) (rest : List Char) : (pathLine m ++ rest).head? = some 'm' := by
  have hkey : pathKey = 'm' :: pathKey.tail := by decide
  rw [pathLine, hkey]
  rfl

/-- The lines of a block go to one block. -/
theorem splitBlank_block (h : Clean m) (rest : List Char) :
    splitBlank (blockOf m ++ rest) = putBefore (blockOf m) (splitBlank rest) := by
  have hlines := h.lines
  obtain ⟨block, blocks, he⟩ := List.exists_cons_of_ne_nil (splitBlank_ne_nil rest)
  have hpath : splitBlank (pathLine m ++ rest) = putBefore (pathLine m) (splitBlank rest) :=
    splitBlank_line (hlines _ (by simp)).1 rest
  have hurl : splitBlank (urlLine m ++ '\n' :: (pathLine m ++ rest)) =
      putBefore (urlLine m ++ '\n' :: pathLine m) (splitBlank rest) := by
    rw [splitBlank_line (hlines _ (by simp)).1, splitBlank_newline (by rw [head_pathLine]; decide), hpath, he]
    simp [putBefore]
  have hblock : blockOf m ++ rest = tagLine m ++ '\n' :: (urlLine m ++ '\n' :: (pathLine m ++ rest)) := by
    simp [blockOf]
  rw [hblock, splitBlank_line (hlines _ (by simp)).1, splitBlank_newline (by rw [head_urlLine]; decide), hurl, he]
  simp [putBefore, blockOf]

/-- The blocks of a file: each but the last without the newline at its end. -/
theorem splitBlank_render (h : ∀ m ∈ ms, Clean m) (hne : ms ≠ []) :
    ∃ last, ms.getLast? = some last ∧ splitBlank (render ms) = ms.dropLast.map blockOf ++ [blockOf last ++ ['\n']] := by
  induction ms with
  | nil => exact absurd rfl hne
  | cons m ms ih =>
    have hm := h m List.mem_cons_self
    rcases List.eq_nil_or_concat ms with rfl | ⟨init, last, hms⟩
    · refine ⟨m, rfl, ?_⟩
      rw [render, List.map_singleton, List.intercalate_singleton, formatMarker_eq, splitBlank_block hm]
      rfl
    · have hnil : ms ≠ [] := by rw [hms, List.concat_eq_append]; simp
      obtain ⟨last, hlast, hsplit⟩ := ih (fun m' hm' => h m' (List.mem_cons_of_mem m hm')) hnil
      have hrender : render (m :: ms) = blockOf m ++ '\n' :: '\n' :: render ms := by
        obtain ⟨m', rest, rfl⟩ := List.exists_cons_of_ne_nil hnil
        simp [render, formatMarker_eq]
      refine ⟨last, by rw [List.getLast?_cons_of_ne_nil hnil, hlast], ?_⟩
      rw [hrender, splitBlank_block hm, splitBlank_blank, hsplit, List.dropLast_cons_of_ne_nil hnil]
      simp [putBefore]

/-! ### Reading back -/

theorem stripNewline_line (hx : '\r' ∉ x) : stripNewline (x ++ ['\n']) = x := by
  unfold stripNewline
  rw [List.getLast?_concat, if_pos rfl, List.dropLast_concat, if_neg fun hr => hx (List.mem_of_getLast? hr)]

theorem lines_cons (hx : '\n' ∉ x ∧ '\r' ∉ x) (y : List Char) : lines (x ++ '\n' :: y) = x :: lines y := by
  unfold Wrapper.lines
  rw [Wrapper.splitInclusive_append, Wrapper.splitInclusive_line hx.1, List.map_append, List.map_singleton,
    stripNewline_line hx.2]
  rfl

theorem lines_last (hne : x ≠ []) (hx : '\n' ∉ x) : lines x = [x] := by
  have hsplit : Wrapper.splitInclusive x = [x] := by
    induction x with
    | nil => exact absurd rfl hne
    | cons c x ih =>
      rw [List.mem_cons, not_or] at hx
      rw [Wrapper.splitInclusive, if_neg (Ne.symm hx.1)]
      rcases x with _ | ⟨d, x⟩
      · rfl
      · rw [ih (List.cons_ne_nil _ _) hx.2]
  unfold Wrapper.lines
  rw [hsplit, List.map_singleton, stripNewline, if_neg fun hn => hx (List.mem_of_getLast? hn)]

/-- The last line of a block may have its newline or not. -/
theorem lines_block (h : Clean m) : lines (blockOf m) = [tagLine m, urlLine m, pathLine m] ∧
    lines (blockOf m ++ ['\n']) = [tagLine m, urlLine m, pathLine m] := by
  have hlines := h.lines
  have hpath : pathLine m ≠ [] := List.append_ne_nil_of_left_ne_nil (by decide) _
  have htag := hlines (tagLine m) (by simp)
  have hurl := hlines (urlLine m) (by simp)
  have hlast := hlines (pathLine m) (by simp)
  constructor
  · rw [blockOf, lines_cons htag, lines_cons hurl, lines_last hpath hlast.1]
  · have hblock : blockOf m ++ ['\n'] = tagLine m ++ '\n' :: (urlLine m ++ '\n' :: (pathLine m ++ '\n' :: [])) := by
      simp [blockOf]
    rw [hblock, lines_cons htag, lines_cons hurl, lines_cons hlast]
    rfl

/-- A line gives its value to its own key. -/
theorem valueOf_append (key : List Char) (s : String) : valueOf key (key ++ s.toList) = some s := by
  unfold valueOf
  rw [if_pos (List.prefix_append _ _), List.drop_left, String.ofList_toList]

theorem valueOf_other {key other : List Char} (hk : key.head? ≠ other.head?) (hne : key ≠ []) (ho : other ≠ []) (s : String) :
    valueOf key (other ++ s.toList) = none := by
  unfold valueOf
  rw [if_neg]
  rintro ⟨rest, he⟩
  apply hk
  have hhead := congrArg List.head? he
  rwa [List.head?_append_of_ne_nil _ hne, List.head?_append_of_ne_nil _ ho] at hhead

/-- The marker with an absent mount path as an empty one. -/
def filled (m : SmfsMarker) : SmfsMarker := { m with mountPath := some (m.mountPath.getD "") }

theorem parseOneMarker_of_lines {block : List Char} (h : lines block = [tagLine m, urlLine m, pathLine m]) :
    parseOneMarker block = some (filled m) := by
  have hne : tagKey ≠ [] ∧ urlKey ≠ [] ∧ pathKey ≠ [] := by decide
  have hkeys : tagKey.head? ≠ urlKey.head? ∧ tagKey.head? ≠ pathKey.head? ∧ urlKey.head? ≠ pathKey.head? := by decide
  obtain ⟨h₁, h₂, h₃⟩ := hkeys
  unfold parseOneMarker
  rw [h]
  simp only [List.foldl_cons, List.foldl_nil, Found.read, tagLine, urlLine, pathLine, valueOf_append,
    valueOf_other h₁ hne.1 hne.2.1, valueOf_other h₂ hne.1 hne.2.2, valueOf_other h₁.symm hne.2.1 hne.1,
    valueOf_other h₃ hne.2.1 hne.2.2, valueOf_other h₂.symm hne.2.2 hne.1, valueOf_other h₃.symm hne.2.2 hne.2.1]
  rfl

/-- **The file is read back as it was written.** -/
theorem parse_render (h : ∀ m ∈ ms, Clean m) : parseAllMarkers (render ms) = ms.map filled := by
  rcases List.eq_nil_or_concat ms with rfl | ⟨init, last, rfl⟩
  · decide
  · rw [List.concat_eq_append] at h ⊢
    obtain ⟨l, hlast, hsplit⟩ := splitBlank_render h (by simp)
    obtain rfl : last = l := by simpa using hlast
    have hinit : (init.map blockOf).filterMap parseOneMarker = init.map filled := by
      rw [List.filterMap_map, ← List.filterMap_eq_map]
      apply List.filterMap_congr
      intro m hm
      exact parseOneMarker_of_lines (lines_block (h m (List.mem_append_left _ hm))).1
    have hl : parseOneMarker (blockOf last ++ ['\n']) = some (filled last) :=
      parseOneMarker_of_lines (lines_block (h last (by simp))).2
    rw [parseAllMarkers, hsplit, List.dropLast_concat, List.filterMap_append, hinit, List.map_append]
    simp [hl]

end Fields

/-! ### Mounts and unmounts -/

section Runs

variable {events : List Event} {e : Event} {file : Option (List Char)} {ms : List SmfsMarker} {m : SmfsMarker} {tag : String}

/-- What an event makes of the entries. -/
def entriesStep (ms : List SmfsMarker) : Event → List SmfsMarker
  | .mount tag apiUrl mountPath => ms.filter (·.tag ≠ tag) ++ [⟨tag, apiUrl, some mountPath⟩]
  | .unmount tag => ms.filter (·.tag ≠ tag)

/-- The entries after the events. -/
def entries (events : List Event) : List SmfsMarker := events.foldl entriesStep []

/-- The file has these entries, and without entries there is none. -/
structure Written (file : Option (List Char)) (ms : List SmfsMarker) : Prop where
  text : file = if ms = [] then none else some (render ms)
  clean : ∀ m ∈ ms, Clean m
  filled : ∀ m ∈ ms, filled m = m

theorem Written.markers (h : Written file ms) : markersOf file = ms := by
  have hmap : ms.map Marker.filled = ms := by
    rw [List.map_congr_left h.filled, List.map_id']
  rw [markersOf, h.text]
  split_ifs with hnil
  · rw [hnil]
    decide
  · rw [Option.getD_some, parse_render h.clean, hmap]

theorem Written.filter (h : Written file ms) (p : SmfsMarker → Bool) :
    (∀ m ∈ ms.filter p, Clean m) ∧ ∀ m ∈ ms.filter p, Marker.filled m = m :=
  ⟨fun m hm => h.clean m (List.mem_filter.mp hm).1, fun m hm => h.filled m (List.mem_filter.mp hm).1⟩

/-- One event does to the file what it does to the entries. -/
theorem Written.step (h : Written file ms) (he : e.Clean) : Written (apply file e) (entriesStep ms e) := by
  have hmarkers := h.markers
  cases e with
  | mount tag apiUrl mountPath =>
    obtain ⟨hclean, hfilled⟩ := h.filter (·.tag ≠ tag)
    have hne : entriesStep ms (.mount tag apiUrl mountPath) ≠ [] := by simp [entriesStep]
    refine ⟨?_, ?_, ?_⟩
    · rw [if_neg hne]
      rcases file with _ | existing
      · have hnil : ms = [] := by
          by_contra hms
          have := h.text
          rw [if_neg hms] at this
          cases this
        rw [hnil]
        simp [apply, register, entriesStep, render]
      · rw [markersOf, Option.getD_some] at hmarkers
        rw [apply, register, hmarkers]
        rfl
    · intro m hm
      rcases List.mem_append.mp hm with hm | hm
      · exact hclean m hm
      · obtain rfl := List.mem_singleton.mp hm
        exact ⟨he.1, he.2.1, fun p hp => Option.some.inj hp ▸ he.2.2⟩
    · intro m hm
      rcases List.mem_append.mp hm with hm | hm
      · exact hfilled m hm
      · rw [List.mem_singleton.mp hm]
        rfl
  | unmount tag =>
    obtain ⟨hclean, hfilled⟩ := h.filter (·.tag ≠ tag)
    refine ⟨?_, hclean, hfilled⟩
    rcases file with _ | existing
    · have hnil : ms = [] := by
        by_contra hms
        have := h.text
        rw [if_neg hms] at this
        cases this
      rw [hnil]
      rfl
    · rw [markersOf, Option.getD_some] at hmarkers
      rw [apply, unregister, hmarkers]
      rfl

/-- **The file has the entries**, after any events. -/
theorem file_run (h : ∀ e ∈ events, e.Clean) : Written (fileAfter events) (entries events) := by
  unfold fileAfter entries
  have hstart : Written none [] := ⟨rfl, fun _ hm => absurd hm List.not_mem_nil, fun _ hm => absurd hm List.not_mem_nil⟩
  generalize (none : Option (List Char)) = file, ([] : List SmfsMarker) = ms at hstart
  induction events generalizing file ms with
  | nil => exact hstart
  | cons e events ih =>
    exact ih (fun e' he' => h e' (List.mem_cons_of_mem e he')) _ _ (hstart.step (h e List.mem_cons_self))

theorem filter_entriesStep_ne (ms : List SmfsMarker) (e : Event) (ht : tag ≠ e.tag) :
    (entriesStep ms e).filter (·.tag = tag) = ms.filter (·.tag = tag) := by
  have hkeep : (ms.filter (·.tag ≠ e.tag)).filter (·.tag = tag) = ms.filter (·.tag = tag) := by
    rw [List.filter_filter]
    apply List.filter_congr
    intro m _
    by_cases hm : m.tag = tag
    · simp [hm, ht]
    · simp [hm]
  cases e with
  | mount t apiUrl mountPath =>
    have hnew : [(⟨t, apiUrl, some mountPath⟩ : SmfsMarker)].filter (·.tag = tag) = [] := by
      simpa [Event.tag] using Ne.symm ht
    rw [entriesStep, List.filter_append, hnew, List.append_nil]
    exact hkeep
  | unmount t => exact hkeep

/-- Of each tag the entries have what its latest mount said. -/
theorem entries_latest (events : List Event) (tag : String) :
    (entries events).filter (·.tag = tag) = (latest events tag).toList := by
  induction events using List.reverseRecOn with
  | nil => rfl
  | append_singleton events e ih =>
    unfold entries latest at ih ⊢
    rw [List.foldl_append, List.foldl_append, List.foldl_cons, List.foldl_cons, List.foldl_nil, List.foldl_nil]
    by_cases ht : e.tag = tag
    · rw [if_pos ht]
      have hgone : ∀ ms : List SmfsMarker, (ms.filter (·.tag ≠ tag)).filter (·.tag = tag) = [] := by
        intro ms
        rw [List.filter_filter, List.filter_eq_nil_iff]
        simp
      cases e with
      | mount t apiUrl mountPath =>
        obtain rfl : t = tag := ht
        rw [entriesStep, List.filter_append, hgone]
        simp
      | unmount t =>
        obtain rfl : t = tag := ht
        exact hgone _
    · rw [if_neg ht, filter_entriesStep_ne _ e (Ne.symm ht), ih]

/-- **The marker file keeps its markers.** What is written is read back; of
each tag that is mounted the file has its latest entry once, and of any other
tag none; and a step leaves the entries of the other tags. -/
theorem markers_kept :
    (∀ ms : List SmfsMarker, (∀ m ∈ ms, Clean m) → parseAllMarkers (render ms) = ms.map filled) ∧
      (∀ events : List Event, (∀ e ∈ events, e.Clean) →
        ∀ tag, (markersOf (fileAfter events)).filter (·.tag = tag) = (latest events tag).toList) ∧
      ∀ (events : List Event) (e : Event), (∀ e' ∈ events ++ [e], e'.Clean) → ∀ tag ≠ e.tag,
        (markersOf (fileAfter (events ++ [e]))).filter (·.tag = tag) =
          (markersOf (fileAfter events)).filter (·.tag = tag) := by
  refine ⟨fun ms h => parse_render h, fun events h tag => ?_, fun events e h tag ht => ?_⟩
  · rw [(file_run h).markers, entries_latest]
  · rw [(file_run h).markers, (file_run fun e' he' => h e' (List.mem_append_left _ he')).markers]
    have hsnoc : entries (events ++ [e]) = entriesStep (entries events) e := by
      simp [entries, List.foldl_append]
    rw [hsnoc, filter_entriesStep_ne _ e ht]

/-- A tag that looks like another key, two mounts that share the file, and one
of them again. -/
theorem markers_kept_two_tags :
    parseAllMarkers (render [⟨"api_url=x", "u", none⟩, ⟨"b", "u", some "/b"⟩]) =
        [⟨"api_url=x", "u", some ""⟩, ⟨"b", "u", some "/b"⟩] ∧
      (markersOf (fileAfter [.mount "a" "u" "/a", .mount "b" "u" "/b", .mount "a" "u" "/c"])).filter (·.tag = "a") =
        [⟨"a", "u", some "/c"⟩] ∧
      (markersOf (fileAfter ([.mount "a" "u" "/a", .mount "b" "u" "/b"] ++ [.unmount "a"]))).filter (·.tag = "b") =
        (markersOf (fileAfter [.mount "a" "u" "/a", .mount "b" "u" "/b"])).filter (·.tag = "b") := by
  have hshort : ∀ s ∈ ["a", "b", "u", "/a", "/b", "/c", "api_url=x"], OneLine s := by decide
  have hmount : ∀ t ∈ ["a", "b"], ∀ p ∈ ["/a", "/b", "/c"], (Event.mount t "u" p).Clean := fun t ht p hp =>
    ⟨hshort t (by revert t; decide), hshort "u" (by decide), hshort p (by revert p; decide)⟩
  refine ⟨markers_kept.1 _ ?_, markers_kept.2.1 _ ?_ "a", markers_kept.2.2 _ (.unmount "a") ?_ "b" (by decide)⟩
  · intro m hm
    simp only [List.mem_cons, List.not_mem_nil, or_false] at hm
    rcases hm with rfl | rfl
    · exact ⟨hshort _ (by decide), hshort _ (by decide), fun p hp => (nomatch hp)⟩
    · exact ⟨hshort _ (by decide), hshort _ (by decide), fun p hp => Option.some.inj hp ▸ hshort _ (by decide)⟩
  · intro e he
    simp only [List.mem_cons, List.not_mem_nil, or_false] at he
    rcases he with rfl | rfl | rfl
    · exact hmount _ (by decide) _ (by decide)
    · exact hmount _ (by decide) _ (by decide)
    · exact hmount _ (by decide) _ (by decide)
  · intro e he
    simp only [List.cons_append, List.nil_append, List.mem_cons, List.not_mem_nil, or_false] at he
    rcases he with rfl | rfl | rfl
    · exact hmount _ (by decide) _ (by decide)
    · exact hmount _ (by decide) _ (by decide)
    · trivial

end Runs

end Marker

end Smfs
