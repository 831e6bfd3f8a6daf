/-
# Files as texts and blocks

A file that the hints are in is a text, and blocks each with the text after
it; the user's texts and the inside of the blocks have no markers (`Unmarked`),
and each block begins a line (`Laid`). The markers of tags are found where
the blocks are and nowhere else, so that `strip_block` removes the first block
with the tag's delimiter (`stripBlock_render`).

Key definitions: `Hint.TagChars`, `Hint.Unmarked`, `Hint.Block`, `Hint.render`, `Hint.Plain`, `Hint.Laid`, `Hint.erase`,
`Hint.closeWith`.
Key theorems: `Hint.stripBlock_render`, `Hint.infix_stripBlock`, `Hint.render_closeWith`.
-/
import Smfs.Hint.Strip

namespace Smfs
namespace Hint

open Search

/-! ### Tags and their markers -/

def TagChars (tag : String) : Prop := ∀ c ∈ tag.toList, isTagChar c = true

instance (tag : String) : Decidable (TagChars tag) := List.decidableBAll _ _

theorem tagChars_of_validateTag {tag : String} (h : validateTag tag = .ok ()) : TagChars tag := by
  unfold validateTag at h
  split_ifs at h
  intro c hc
  cases hf : tag.toList.find? fun c => !isTagChar c with
  | some bad =>
    rw [hf] at h
    cases h
  | none => simpa using List.find?_eq_none.mp hf c hc

theorem mem_replaceHyphens {c : Char} : ∀ {cs : List Char}, c ∈ replaceHyphens cs → c ∈ cs ∨ c = '_' := by
  intro cs
  induction cs using replaceHyphens.induct with
  | case1 cs ih =>
    rw [replaceHyphens]
    intro h
    simp only [List.mem_cons] at h ⊢
    rcases h with h | h | h
    · exact .inr h
    · exact .inr h
    · rcases ih h with h | h
      · exact .inl (.inr (.inr h))
      · exact .inr h
  | case2 d cs hne ih =>
    rw [replaceHyphens]
    · intro h
      simp only [List.mem_cons] at h ⊢
      rcases h with h | h
      · exact .inl (.inl h)
      · rcases ih h with h | h
        · exact .inl (.inr h)
        · exact .inr h
    · exact hne
  | case3 => exact fun h => .inl h

theorem replaceHyphens_head {cs : List Char} (h : (replaceHyphens cs).head? = some '-') : cs.head? = some '-' := by
  induction cs using replaceHyphens.induct with
  | case1 cs => rfl
  | case2 c cs hne =>
    rw [replaceHyphens] at h
    · exact h
    · exact hne
  | case3 => cases h

/-- Nothing is left to replace. -/
theorem replaceHyphens_idem (cs : List Char) : replaceHyphens (replaceHyphens cs) = replaceHyphens cs := by
  induction cs using replaceHyphens.induct with
  | case1 cs ih =>
    have hskip (ds : List Char) : replaceHyphens ('_' :: ds) = '_' :: replaceHyphens ds := by
      rw [replaceHyphens]
      rintro _ hc
      exact absurd hc (by decide)
    rw [replaceHyphens, hskip, hskip, ih]
  | case2 c cs hne ih =>
    have hc : replaceHyphens (c :: cs) = c :: replaceHyphens cs := by
      rw [replaceHyphens]
      exact hne
    rw [hc, replaceHyphens, ih]
    rintro ds rfl hds
    have hhead : cs.head? = some '-' := replaceHyphens_head (by rw [hds]; rfl)
    obtain ⟨es, rfl⟩ : ∃ es, cs = '-' :: es := by
      cases cs with
      | nil => cases hhead
      | cons d es => exact ⟨es, by cases hhead; rfl⟩
    exact hne es rfl rfl
  | case3 => rfl

theorem sanitizeForDelim_idem (tag : String) : sanitizeForDelim (sanitizeForDelim tag) = sanitizeForDelim tag := by
  simp only [sanitizeForDelim, String.toList_ofList, replaceHyphens_idem]

section Tags

variable {tag tag' : String} {c : Char}

theorem TagChars.delim (h : TagChars tag) : TagChars (sanitizeForDelim tag) := by
  intro c hc
  rw [sanitizeForDelim, String.toList_ofList] at hc
  rcases mem_replaceHyphens hc with hc | rfl
  · exact h c hc
  · decide

/-- A character that no tag has is not in the sanitized one. -/
theorem TagChars.not_mem (h : TagChars tag) (hc : isTagChar c = false) : c ∉ (sanitizeForDelim tag).toList := by
  intro hm
  rw [h.delim c hm] at hc
  cases hc

theorem marker_sharp {r suffix : List Char} (h : TagChars tag) (hr : '!' ∉ r) (hsuf : '!' ∉ suffix)
    (hlast : suffix.getLast? = some '>') : Sharp '<' '!' ('<' :: '!' :: r ++
    (sanitizeForDelim tag).toList ++ suffix) := by
  refine ⟨r ++ (sanitizeForDelim tag).toList ++ suffix, rfl, ?_, ?_, by decide⟩
  · simp only [List.mem_append, not_or]
    exact ⟨⟨hr, h.not_mem (by decide)⟩, hsuf⟩
  · rw [List.getLast?_append, hlast]
    simp

theorem beginMarker_sharp (h : TagChars tag) : Sharp '<' '!' (beginMarker tag) := by
  have hpre : beginPrefix = '<' :: '!' :: "-- >>> smfs:".toList := by decide
  rw [beginMarker, hpre]
  exact marker_sharp h (by decide) (by decide) (by decide)

theorem endMarker_sharp (h : TagChars tag) : Sharp '<' '!' (endMarker tag) := by
  have hpre : endPrefix = '<' :: '!' :: "-- <<< smfs:".toList := by decide
  rw [endMarker, hpre]
  exact marker_sharp h (by decide) (by decide) (by decide)

theorem beginPrefix_sharp : Sharp '<' '!' beginPrefix :=
  ⟨"-- >>> smfs:".toList, rfl, by decide, by decide, by decide⟩

theorem beginPrefix_starts (tag : String) : beginPrefix <+: beginMarker tag := by
  rw [beginMarker, List.append_assoc]
  exact List.prefix_append _ _

theorem not_beginPrefix_endMarker {pat : List Char} (h : beginPrefix <+: pat)
    (hend : pat <+: endMarker tag) : False := by
  have hpre : endPrefix <+: endMarker tag := by
    rw [endMarker, List.append_assoc]
    exact List.prefix_append _ _
  have := (List.prefix_of_prefix_length_le (h.trans hend) hpre (by decide)).eq_of_length (by decide)
  exact absurd this (by decide)

theorem not_endMarker_starts {pat : List Char} (h : beginPrefix <+: pat) (hend : endMarker tag <+: pat) : False := by
  have hpre : endPrefix <+: endMarker tag := by
    rw [endMarker, List.append_assoc]
    exact List.prefix_append _ _
  have := (List.prefix_of_prefix_length_le h (hpre.trans hend) (by decide)).eq_of_length (by decide)
  exact absurd this (by decide)

/-- The marker says what the sanitized tag is. -/
theorem beginMarker_starts {y z : List Char} (h : TagChars tag) (h' : TagChars tag')
    (he : beginMarker tag ++ y = beginMarker tag' ++ z) : sanitizeForDelim tag = sanitizeForDelim tag' := by
  simp only [beginMarker, List.append_assoc] at he
  have hrest := List.append_cancel_left he
  -- a tag ends before the first space
  have hsplit (t : String) (w : List Char) (ht : TagChars t) :
      ((sanitizeForDelim t).toList ++ (beginSuffix ++ w)).takeWhile (· ≠ ' ') =
        (sanitizeForDelim t).toList ++ ":begin".toList := by
    rw [List.takeWhile_append_of_pos]
    · rfl
    · intro c hc
      have : c ≠ ' ' := by
        rintro rfl
        exact ht.not_mem (by decide) hc
      simpa using this
  have := hsplit tag y h
  rw [hrest, hsplit tag' z h'] at this
  exact String.toList_injective (List.append_cancel_right this.symm)

end Tags

/-- The text has no marker of a tag. -/
def Unmarked (text : List Char) : Prop :=
  ∀ tag, TagChars tag → ¬ Occurs (beginMarker tag) text ∧ ¬ Occurs (endMarker tag) text

/-- A block: a tag and what stands between its markers. -/
structure Block where
  tag : String
  body : List Char
  tag_ok : TagChars tag
  body_ok : Unmarked body

namespace Block

variable (b : Block)

def delim : String := sanitizeForDelim b.tag

/-- The block from the begin marker to the end marker. -/
def text : List Char := beginMarker b.tag ++ (b.body ++ endMarker b.tag)

end Block

/-- A text, and blocks each with the text after it. -/
def render : List Char → List (Block × List Char) → List Char
  | before, [] => before
  | before, (b, after) :: parts => before ++ (b.text ++ render after parts)

/-- The texts have no markers. -/
def Plain (before : List Char) (parts : List (Block × List Char)) : Prop :=
  Unmarked before ∧ ∀ p ∈ parts, Unmarked p.2

/-- The texts have no markers, and each block begins a line; the first one may
be at the beginning of the file. -/
def Laid : Bool → List Char → List (Block × List Char) → Prop
  | _, before, [] => Unmarked before
  | start, before, (_, after) :: parts =>
    Unmarked before ∧ (before.getLast? = some '\n' ∨ start = true ∧ before = []) ∧ Laid false after parts

section Render

variable {tag : String} {before after x y : List Char} {parts parts' : List (Block × List Char)} {b : Block} {start : Bool}
  {pat : List Char}

theorem render_append (before : List Char) (parts : List (Block × List Char)) (b : Block) (after : List Char)
    (parts' : List (Block × List Char)) :
    render before (parts ++ (b, after) :: parts') = render before parts ++ (b.text ++ render after parts') := by
  induction parts generalizing before with
  | nil => rfl
  | cons p parts ih =>
    show before ++ (p.1.text ++ render p.2 (parts ++ (b, after) :: parts')) = _
    rw [ih]
    simp only [render, List.append_assoc]

/-! ### Where markers are -/

theorem text_head (b : Block) (y : List Char) : ['<', '!'] <+: b.text ++ y := ⟨_, rfl⟩

/-- Of a pattern that begins as a begin marker does nothing is in the rest of a block. -/
theorem not_occurs_tail (hpat : Sharp '<' '!' pat) (hpre : beginPrefix <+: pat) (hbody : ¬ Occurs pat b.body)
    (hy : ¬ Occurs pat y) : ¬ Occurs pat (b.body ++ (endMarker b.tag ++ y)) := by
  refine not_occurs_append hbody (not_occurs_append ?_ hy ?_) (hpat.not_straddles_right ⟨_, rfl⟩)
  · exact hpat.not_occurs (endMarker_sharp b.tag_ok) (not_beginPrefix_endMarker hpre)
  · exact hpat.not_straddles_left (endMarker_sharp b.tag_ok) (not_endMarker_starts hpre)

/-- A begin marker of another tag is not in a block. -/
theorem not_occurs_block (htag : TagChars tag) (hne : b.delim ≠ sanitizeForDelim tag)
    (hy : ¬ Occurs (beginMarker tag) y) :
    ¬ Occurs (beginMarker tag) (b.text ++ y) := by
  have hsharp := beginMarker_sharp htag
  have htail := not_occurs_tail hsharp (beginPrefix_starts tag) (b.body_ok tag htag).1 hy
  rw [Block.text, List.append_assoc, List.append_assoc]
  refine not_occurs_append ?_ htail ?_
  · refine hsharp.not_occurs (beginMarker_sharp b.tag_ok) fun ⟨z, hz⟩ => ?_
    exact hne (beginMarker_starts b.tag_ok htag (y := []) (by rw [List.append_nil, hz]))
  · refine hsharp.not_straddles_left (beginMarker_sharp b.tag_ok) fun ⟨z, hz⟩ => ?_
    exact hne (beginMarker_starts b.tag_ok htag (y := z) (z := []) (by rw [hz, List.append_nil]))

theorem Laid.unmarked (h : Laid start before parts) : Unmarked before := by
  cases parts with
  | nil => exact h
  | cons p parts => exact h.1

theorem Laid.plain (h : Laid start before parts) : Plain before parts := by
  induction parts generalizing before start with
  | nil => exact ⟨h, fun _ hp => by cases hp⟩
  | cons p parts ih =>
    obtain ⟨hafter, hparts⟩ := ih h.2.2
    refine ⟨h.1, fun q hq => ?_⟩
    rcases List.mem_cons.mp hq with rfl | hq
    · exact hafter
    · exact hparts q hq

/-- What comes after a block. -/
theorem Plain.tail {p : Block × List Char} (h : Plain before (p :: parts)) : Plain p.2 parts :=
  ⟨h.2 p List.mem_cons_self, fun q hq => h.2 q (List.mem_cons_of_mem _ hq)⟩

theorem Plain.left {ps qs : List (Block × List Char)} (h : Plain before (ps ++ qs)) : Plain before ps :=
  ⟨h.1, fun p hp => h.2 p (List.mem_append_left _ hp)⟩

/-- A begin marker is only at the blocks of its tag. -/
theorem not_occurs_render (h : Plain before parts) (htag : TagChars tag)
    (hne : ∀ p ∈ parts, p.1.delim ≠ sanitizeForDelim tag) : ¬ Occurs (beginMarker tag) (render before parts) := by
  induction parts generalizing before with
  | nil => exact (h.1 tag htag).1
  | cons p parts ih =>
    have hrest := ih h.tail fun q hq => hne q (List.mem_cons_of_mem _ hq)
    refine not_occurs_append (h.1 tag htag).1 (not_occurs_block htag (hne p List.mem_cons_self) hrest) ?_
    exact (beginMarker_sharp htag).not_straddles_right (text_head p.1 _)

/-- The first block with a delimiter. -/
theorem exists_first {d : String} (h : ∃ p ∈ parts, p.1.delim = d) :
    ∃ ps b after qs, parts = ps ++ (b, after) :: qs ∧ b.delim = d ∧ ∀ p ∈ ps, p.1.delim ≠ d := by
  induction parts with
  | nil => obtain ⟨p, hp, -⟩ := h; cases hp
  | cons p parts ih =>
    by_cases hd : p.1.delim = d
    · exact ⟨[], p.1, p.2, parts, rfl, hd, fun _ hq => by cases hq⟩
    · obtain ⟨q, hq, hqd⟩ := h
      have hq' : q ∈ parts := by
        rcases List.mem_cons.mp hq with rfl | hq
        · exact absurd hqd hd
        · exact hq
      obtain ⟨ps, b, after, qs, rfl, hb, hps⟩ := ih ⟨q, hq', hqd⟩
      refine ⟨p :: ps, b, after, qs, rfl, hb, fun r hr => ?_⟩
      rcases List.mem_cons.mp hr with rfl | hr
      · exact hd
      · exact hps r hr

/-! ### Without a block -/

/-- The text with other newlines at its end, or nothing where a file is blank. -/
def close (sep : List Char) (start : Bool) (before : List Char) : List Char :=
  if start = true ∧ trimEnd before = [] then [] else trimEnd before ++ sep

/-- The file with other newlines at its end. -/
def closeWith (sep : List Char) : Bool → List Char → List (Block × List Char) → List Char × List (Block × List Char)
  | start, before, [] => (close sep start before, [])
  | _, before, (b, after) :: parts =>
    (before, (b, (closeWith sep false after parts).1) :: (closeWith sep false after parts).2)

/-- The file without the first block of a delimiter. -/
def erase (d : String) : Bool → List Char → List (Block × List Char) → List Char × List (Block × List Char)
  | _, before, [] => (before, [])
  | start, before, (b, after) :: parts =>
    if b.delim = d then (close ['\n'] start before ++ trimStart after, parts)
    else (before, (b, (erase d false after parts).1) :: (erase d false after parts).2)

theorem text_last (b : Block) (y : List Char) : (y ++ b.text).getLast? ≠ some '\n' := by
  have hlast : endSuffix.getLast? = some '>' := by decide
  rw [Block.text, endMarker, ← List.append_assoc, ← List.append_assoc, ← List.append_assoc, List.getLast?_append, hlast]
  simp

/-- Trimming goes no further than a block. -/
theorem trimEnd_block (b : Block) (y z : List Char) : trimEnd (y ++ (b.text ++ z)) = y ++ (b.text ++ trimEnd z) := by
  rw [← List.append_assoc, ← List.append_assoc]
  by_cases hz : trimEnd z = []
  · rw [trimEnd_append_blank _ (trimEnd_eq_nil.mp hz), trimEnd_of_last (text_last b y), hz, List.append_nil]
  · rw [trimEnd_append _ hz]

theorem trimStart_block (b : Block) (y z : List Char) :
    trimStart (y ++ (b.text ++ z)) = trimStart y ++ (b.text ++ z) := by
  have hhead : trimStart (b.text ++ z) = b.text ++ z := trimStart_of_head (by
    obtain ⟨w, hw⟩ := text_head b z
    rw [← hw]
    simp)
  by_cases hy : trimStart y = []
  · have hblank : Blank y := fun c hc => by simpa using List.dropWhile_eq_nil_iff.mp hy c hc
    rw [trimStart_append_blank _ hblank, hhead, hy, List.nil_append]
  · simp only [trimStart, List.dropWhile_append, List.isEmpty_iff]
    exact if_neg hy

theorem close_block (b : Block) (sep y z : List Char) (start : Bool) :
    close sep start (y ++ (b.text ++ z)) = y ++ (b.text ++ close sep false z) := by
  have hne : b.text ≠ [] := by
    intro h
    obtain ⟨w, hw⟩ := text_head b []
    rw [h] at hw
    cases hw
  unfold close
  rw [trimEnd_block, if_neg (by simp [hne]), if_neg (by simp)]
  simp only [List.append_assoc]

theorem render_closeWith (sep : List Char) (start : Bool) (before : List Char) (parts : List (Block × List Char)) :
    render (closeWith sep start before parts).1 (closeWith sep start before parts).2 =
      close sep start (render before parts) := by
  induction parts generalizing before start with
  | nil => rfl
  | cons p parts ih =>
    show before ++ (p.1.text ++ render (closeWith sep false p.2 parts).1 (closeWith sep false p.2 parts).2) = _
    rw [ih]
    exact (close_block p.1 sep before _ start).symm

/-- Where the first block with the delimiter is. -/
theorem render_erase {d : String} (start : Bool) (before : List Char) (ps : List (Block × List Char)) (b : Block)
    (after : List Char) (qs : List (Block × List Char)) (hb : b.delim = d) (hps : ∀ p ∈ ps, p.1.delim ≠ d) :
    render (erase d start before (ps ++ (b, after) :: qs)).1 (erase d start before (ps ++ (b, after) :: qs)).2 =
      close ['\n'] start (render before ps) ++ trimStart (render after qs) := by
  induction ps generalizing before start with
  | nil =>
    rw [List.nil_append, erase, if_pos hb]
    cases qs with
    | nil => rfl
    | cons q qs =>
      show close _ _ _ ++ trimStart after ++ (q.1.text ++ render q.2 qs) = _
      rw [List.append_assoc]
      exact congrArg _ (trimStart_block q.1 after _).symm
  | cons p ps ih =>
    rw [List.cons_append, erase, if_neg (hps p List.mem_cons_self)]
    show before ++ (p.1.text ++ render _ _) = _
    rw [ih _ _ fun q hq => hps q (List.mem_cons_of_mem _ hq)]
    show _ = close _ _ (before ++ (p.1.text ++ render p.2 ps)) ++ _
    rw [close_block]
    simp only [List.append_assoc]

/-- A file up to one of its blocks: it is laid out, and it ends with a line. -/
theorem Laid.left {ps qs : List (Block × List Char)} (h : Laid start before (ps ++ (b, after) :: qs)) :
    Laid start before ps ∧ ((render before ps).getLast? = some '\n' ∨ start = true ∧ render before ps = []) := by
  induction ps generalizing before start with
  | nil => exact ⟨h.1, h.2.1⟩
  | cons p ps ih =>
    obtain ⟨hlaid, hline⟩ := ih h.2.2
    refine ⟨⟨h.1, h.2.1, hlaid⟩, .inl ?_⟩
    rcases hline with hline | ⟨hfalse, -⟩
    · show (before ++ (p.1.text ++ render p.2 ps)).getLast? = _
      rw [List.getLast?_append, List.getLast?_append, hline]
      rfl
    · cases hfalse

theorem beginMarker_congr {tag' : String} (h : sanitizeForDelim tag = sanitizeForDelim tag') :
    beginMarker tag = beginMarker tag' ∧ endMarker tag = endMarker tag' := by
  simp only [beginMarker, endMarker, h, and_self]

/-- In a file with a block of the tag, its markers lead. -/
theorem leading_render {ps qs : List (Block × List Char)} (h : Plain before (ps ++ (b, after) :: qs))
    (htag : TagChars tag) (hb : b.delim = sanitizeForDelim tag) (hps : ∀ p ∈ ps, p.1.delim ≠ sanitizeForDelim tag) :
    Leading tag (render before (ps ++ (b, after) :: qs)) (render before ps) b.body (render after qs) := by
  obtain ⟨hbegin, hend⟩ := beginMarker_congr hb
  have hmarked : Marked tag (render before (ps ++ (b, after) :: qs)) (render before ps) b.body (render after qs) := by
    rw [Marked, render_append, Block.text, hbegin, hend]
    simp only [List.append_assoc]
  refine ⟨hmarked, ?_, ?_⟩
  · rw [hmarked]
    exact find_eq_some_iff.mp (find_eq_length (not_occurs_render h.left htag hps)
      ((beginMarker_sharp htag).not_straddles_right ⟨_, rfl⟩))
  · exact find_eq_some_iff.mp (find_eq_length (b.body_ok tag htag).2
      ((endMarker_sharp htag).not_straddles_right ⟨_, rfl⟩))

theorem kept_eq_close {x : List Char} (h : x.getLast? = some '\n' ∨ x = []) : kept x = close ['\n'] true x := by
  unfold kept close
  by_cases hnil : trimEnd x = []
  · rw [if_pos hnil, if_pos ⟨rfl, hnil⟩]
  · have hne : trimEnd x ≠ x := by
      intro he
      rcases h with h | rfl
      · exact trimEnd_last x (he.symm ▸ h)
      · exact hnil rfl
    rw [if_neg hnil, if_neg hne, if_neg fun hh => hnil hh.2]

theorem erase_of_not_mem {d : String} (h : ∀ p ∈ parts, p.1.delim ≠ d) (start : Bool) (before : List Char) :
    erase d start before parts = (before, parts) := by
  induction parts generalizing before start with
  | nil => rfl
  | cons p parts ih =>
    rw [erase, if_neg (h p List.mem_cons_self), ih fun q hq => h q (List.mem_cons_of_mem _ hq)]

theorem stripBlock_of_not_mem (h : Plain before parts) (htag : TagChars tag)
    (hne : ∀ p ∈ parts, p.1.delim ≠ sanitizeForDelim tag) : stripBlock (render before parts) tag = render before parts :=
  (strip_cases tag (render before parts)).elim (fun hn => hn.2) fun ⟨_, _, _, hlead⟩ =>
    absurd ⟨_, hlead.1.occursAt⟩ (not_occurs_render h htag hne)

/-- **Stripping a tag removes the first block with its delimiter.** -/
theorem stripBlock_render (h : Laid true before parts) (htag : TagChars tag) : stripBlock (render before parts) tag =
    render (erase (sanitizeForDelim tag) true before parts).1 (erase (sanitizeForDelim tag) true before parts).2 := by
  by_cases hd : ∃ p ∈ parts, p.1.delim = sanitizeForDelim tag
  · obtain ⟨ps, b, after, qs, rfl, hb, hps⟩ := exists_first hd
    have hline : (render before ps).getLast? = some '\n' ∨ render before ps = [] := h.left.2.imp_right fun hs => hs.2
    rw [stripBlock_leading (leading_render h.plain htag hb hps), render_erase true before ps b after qs hb hps,
      kept_eq_close hline]
  · push Not at hd
    rw [erase_of_not_mem hd, stripBlock_of_not_mem h.plain htag hd]

/-! ### The text of another block -/

theorem infix_render {b : Block} (h : b ∈ parts.map Prod.fst) (before : List Char) : b.text <:+: render before parts := by
  obtain ⟨⟨b, after⟩, hp, rfl⟩ := List.mem_map.mp h
  obtain ⟨ps, qs, he⟩ := List.append_of_mem hp
  rw [he, render_append]
  exact ⟨render before ps, render after qs, List.append_assoc _ _ _⟩

theorem infix_trimEnd (h : b.text <:+: x) : b.text <:+: trimEnd x := by
  obtain ⟨y, z, rfl⟩ := h
  rw [List.append_assoc, trimEnd_block]
  exact ⟨y, trimEnd z, List.append_assoc _ _ _⟩

theorem infix_trimStart (h : b.text <:+: x) : b.text <:+: trimStart x := by
  obtain ⟨y, z, rfl⟩ := h
  rw [List.append_assoc, trimStart_block]
  exact ⟨trimStart y, z, List.append_assoc _ _ _⟩

theorem infix_kept (h : b.text <:+: x) : b.text <:+: kept x := by
  have htrim := infix_trimEnd h
  have hne : trimEnd x ≠ [] := by
    intro hnil
    rw [hnil] at htrim
    exact absurd (List.eq_nil_of_infix_nil htrim) (List.cons_ne_nil _ _)
  unfold kept
  rw [if_neg hne]
  split_ifs
  · exact h.trans (List.prefix_append _ _).isInfix
  · exact htrim.trans (List.prefix_append _ _).isInfix

/-- **Stripping a tag leaves the text of every block with another delimiter**,
also where the stripped block does not begin a line. -/
theorem infix_stripBlock {b : Block} (h : Plain before parts) (htag : TagChars tag) (hb : b ∈ parts.map Prod.fst)
    (hne : b.delim ≠ sanitizeForDelim tag) : b.text <:+: stripBlock (render before parts) tag := by
  by_cases hd : ∃ p ∈ parts, p.1.delim = sanitizeForDelim tag
  · obtain ⟨ps, b', after, qs, rfl, hb', hps⟩ := exists_first hd
    rw [stripBlock_leading (leading_render h htag hb' hps)]
    rw [List.map_append, List.map_cons, List.mem_append, List.mem_cons] at hb
    rcases hb with hb | rfl | hb
    · exact (infix_kept (infix_render hb before)).trans (List.prefix_append _ _).isInfix
    · exact absurd hb' hne
    · exact (infix_trimStart (infix_render hb after)).trans (List.suffix_append _ _).isInfix
  · push Not at hd
    rw [stripBlock_of_not_mem h htag hd]
    exact infix_render hb before

/-! ### The layout is kept -/

theorem Unmarked.infix (h : Unmarked x) (hy : y <:+: x) : Unmarked y := fun tag htag =>
  ⟨fun ho => (h tag htag).1 (occurs_iff_within.mpr ((occurs_iff_within.mp ho).trans hy)),
    fun ho => (h tag htag).2 (occurs_iff_within.mpr ((occurs_iff_within.mp ho).trans hy))⟩

theorem Unmarked.trimEnd (h : Unmarked x) : Unmarked (trimEnd x) := h.infix (List.rdropWhile_prefix _ x).isInfix

theorem Unmarked.trimStart (h : Unmarked x) : Unmarked (trimStart x) := h.infix (List.dropWhile_suffix _).isInfix

theorem TagChars.not_mem_markers {c : Char} (h : TagChars tag) (hc : isTagChar c = false)
    (hconst : c ∉ beginPrefix ∧ c ∉ beginSuffix ∧ c ∉ endPrefix ∧ c ∉ endSuffix) :
    c ∉ beginMarker tag ∧ c ∉ endMarker tag := by
  have hmem := h.not_mem hc
  simp only [beginMarker, endMarker, List.mem_append, not_or]
  exact ⟨⟨⟨hconst.1, hmem⟩, hconst.2.1⟩, ⟨hconst.2.2.1, hmem⟩, hconst.2.2.2⟩

theorem not_newline_marker (h : TagChars tag) : '\n' ∉ beginMarker tag ∧ '\n' ∉ endMarker tag :=
  h.not_mem_markers (by decide) (by decide)

/-- Texts that a newline parts. -/
theorem Unmarked.append (hx : Unmarked x) (hy : Unmarked y) (h : x.getLast? = some '\n' ∨ x = []) :
    Unmarked (x ++ y) := by
  rcases h with h | rfl
  · intro tag htag
    obtain ⟨hbegin, hend⟩ := not_newline_marker htag
    exact ⟨not_occurs_append (hx tag htag).1 (hy tag htag).1 (not_straddles_of_last h hbegin),
      not_occurs_append (hx tag htag).2 (hy tag htag).2 (not_straddles_of_last h hend)⟩
  · exact hy

theorem unmarked_of_not_mem (h : '<' ∉ x) : Unmarked x :=
  fun _ _ => ⟨not_occurs_of_not_mem List.mem_cons_self h, not_occurs_of_not_mem List.mem_cons_self h⟩

theorem unmarked_of_blank (h : Blank x) : Unmarked x := unmarked_of_not_mem fun hc => absurd (h _ hc) (by decide)

theorem unmarked_close {sep : List Char} (hsep : Blank sep) (hne : sep ≠ []) (h : Unmarked before) (start : Bool) :
    Unmarked (close sep start before) ∧
      ((close sep start before).getLast? = some '\n' ∨ start = true ∧ close sep start before = []) := by
  obtain ⟨c, sep, rfl⟩ := List.exists_cons_of_ne_nil hne
  have hc : c = '\n' := hsep c List.mem_cons_self
  have hlast : (c :: sep).getLast? = some '\n' := by
    rw [List.getLast?_eq_some_getLast hne, hsep _ (List.getLast_mem hne)]
  unfold close
  split_ifs with hnil
  · exact ⟨unmarked_of_blank (by simp [Blank]), .inr ⟨hnil.1, rfl⟩⟩
  · refine ⟨fun tag htag => ?_, .inl ?_⟩
    · obtain ⟨hbegin, hend⟩ := not_newline_marker htag
      have hfirst : (c :: sep).head? = some '\n' := by rw [hc]; rfl
      exact ⟨not_occurs_append (h.trimEnd tag htag).1 (unmarked_of_blank hsep tag htag).1 (not_straddles_of_first hfirst hbegin),
        not_occurs_append (h.trimEnd tag htag).2 (unmarked_of_blank hsep tag htag).2 (not_straddles_of_first hfirst hend)⟩
    · rw [List.getLast?_append, hlast]
      rfl

theorem Laid.closeWith {sep : List Char} (hsep : Blank sep) (hne : sep ≠ []) (h : Laid start before parts) :
    Laid start (closeWith sep start before parts).1 (closeWith sep start before parts).2 := by
  induction parts generalizing before start with
  | nil => exact (unmarked_close hsep hne h start).1
  | cons p parts ih => exact ⟨h.1, h.2.1, ih h.2.2⟩

/-- A block may be added at the end. -/
theorem Laid.push {sep : List Char} (hsep : Blank sep) (hne : sep ≠ []) (h : Laid start before parts) (b : Block) :
    Laid start (Hint.closeWith sep start before parts).1 ((Hint.closeWith sep start before parts).2 ++
      [(b, ['\n'])]) := by
  induction parts generalizing before start with
  | nil =>
    obtain ⟨hclose, hline⟩ := unmarked_close hsep hne h start
    exact ⟨hclose, hline, unmarked_of_blank (by simp [Blank])⟩
  | cons p parts ih => exact ⟨h.1, h.2.1, ih h.2.2⟩

theorem Laid.erase {d : String} (h : Laid start before parts) :
    Laid start (erase d start before parts).1 (erase d start before parts).2 := by
  induction parts generalizing before start with
  | nil => exact h
  | cons p parts ih =>
    obtain ⟨b, after⟩ := p
    unfold Hint.erase
    split_ifs with hd
    · obtain ⟨hclose, hline⟩ := unmarked_close blank_line (List.cons_ne_nil _ _) h.1 start
      have hline' : (close ['\n'] start before).getLast? = some '\n' ∨ close ['\n'] start before = [] :=
        hline.imp_right fun hs => hs.2
      have hjoin := hclose.append h.2.2.unmarked.trimStart hline'
      cases parts with
      | nil => exact hjoin
      | cons q parts =>
        refine ⟨hjoin, ?_, h.2.2.2.2⟩
        have hafter : after.getLast? = some '\n' := h.2.2.2.1.resolve_right fun hs => by cases hs.1
        obtain ⟨y, hy, hsplit⟩ := trimStart_split after
        by_cases hnil : trimStart after = []
        · rw [hnil, List.append_nil]
          exact hline
        · rw [hsplit, List.getLast?_append_of_ne_nil _ hnil] at hafter
          rw [List.getLast?_append_of_ne_nil _ hnil]
          exact .inl hafter
    · exact ⟨h.1, h.2.1, ih h.2.2⟩

/-! ### The blocks that are left -/

theorem map_closeWith (sep : List Char) (start : Bool) (before : List Char) (parts : List (Block × List Char)) :
    (closeWith sep start before parts).2.map Prod.fst = parts.map Prod.fst := by
  induction parts generalizing before start with
  | nil => rfl
  | cons p parts ih => exact congrArg (p.1 :: ·) (ih false p.2)

theorem map_erase (d : String) (start : Bool) (before : List Char) (parts : List (Block × List Char)) :
    (erase d start before parts).2.map Prod.fst = (parts.map Prod.fst).eraseP fun b => b.delim = d := by
  induction parts generalizing before start with
  | nil => rfl
  | cons p parts ih =>
    rw [erase]
    split_ifs with hd
    · exact (List.eraseP_cons_of_pos (by simpa using hd)).symm
    · rw [List.map_cons, List.map_cons, List.eraseP_cons_of_neg (by simpa using hd), ih]

end Render

end Hint
end Smfs
