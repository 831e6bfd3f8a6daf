/-
# What the operations do to a file

`write_block`, `remove_block` and `sweep_one` on a file laid out as texts and
blocks (`Sheet`): the first moves the tag's block to the end, or adds it
there, the others take blocks out, and what comes out is laid out again.

Key definitions: `Hint.Sheet`, `Hint.Sheet.install`, `Hint.Sheet.uninstall`, `Hint.Sheet.sweep`, `Hint.hint`.
Key theorems: `Hint.writeBlock_text`, `Hint.removeBlock_text`, `Hint.sweepOne_text`.
-/
import Smfs.Hint.Sheet

namespace Smfs
namespace Hint

open Search

/-- A file that is laid out as texts and blocks. -/
structure Sheet where
  front : List Char
  parts : List (Block × List Char)
  laid : Laid true front parts

namespace Sheet

variable (s : Sheet) (b : Block) (d : String)

def text : List Char := render s.front s.parts

def blocks : List Block := s.parts.map Prod.fst

/-- Without the first block of a delimiter. -/
def erase : Sheet := ⟨_, _, s.laid.erase (d := d)⟩

/-- With one newline at the end. -/
def closed : Sheet := ⟨_, _, s.laid.closeWith blank_line (List.cons_ne_nil _ _)⟩

/-- With the block at the end, after a blank line. -/
def push : Sheet := ⟨_, _, s.laid.push blank_lines (List.cons_ne_nil _ _) b⟩

/-- `write_block`. -/
def install : Sheet := (s.erase b.delim).push b

/-- `remove_block`. -/
def uninstall : Sheet := (s.erase d).closed

/-- `sweep_one`, of these delimiters. -/
def sweep (ds : List String) : Sheet := (ds.foldl erase s).closed

/-- The file without text in it. -/
def empty : Sheet := ⟨[], [], unmarked_of_blank (by simp [Blank])⟩

theorem blocks_erase : (s.erase d).blocks = s.blocks.eraseP fun b => b.delim = d := map_erase d true s.front s.parts

theorem blocks_closed : s.closed.blocks = s.blocks := map_closeWith _ true s.front s.parts

theorem blocks_push : (s.push b).blocks = s.blocks ++ [b] := by
  show List.map Prod.fst (_ ++ _) = _
  rw [List.map_append, map_closeWith]
  rfl

theorem blocks_install : (s.install b).blocks = (s.blocks.eraseP fun b' => b'.delim = b.delim) ++ [b] := by
  rw [install, blocks_push, blocks_erase]

theorem blocks_uninstall : (s.uninstall d).blocks = s.blocks.eraseP fun b => b.delim = d := by
  rw [uninstall, blocks_closed, blocks_erase]

theorem text_closed : s.closed.text = close ['\n'] true s.text := render_closeWith _ true s.front s.parts

theorem text_push : (s.push b).text = close ['\n', '\n'] true s.text ++ (b.text ++ ['\n']) := by
  show render (closeWith _ true s.front s.parts).1 (_ ++ [_]) = _
  rw [render_append, render_closeWith]
  rfl

end Sheet

/-! ### What is found in a file -/

/-- The file after its first text. -/
def tailText : List (Block × List Char) → List Char
  | [] => []
  | (b, after) :: parts => b.text ++ render after parts

theorem render_eq (before : List Char) (parts : List (Block × List Char)) :
    render before parts = before ++ tailText parts := by
  cases parts with
  | nil => exact (List.append_nil _).symm
  | cons p parts => rfl

/-- The texts and the insides of the blocks have not even the beginning of a begin marker. -/
def Sheet.Quiet (s : Sheet) : Prop :=
  ¬ Occurs beginPrefix s.front ∧ ∀ p ∈ s.parts, ¬ Occurs beginPrefix p.1.body ∧ ¬ Occurs beginPrefix p.2

section Found

variable {d : String} {x y : List Char} {parts : List (Block × List Char)} {s : Sheet}

/-- A begin suffix comes right after a tag. -/
theorem find_beginSuffix (hd : TagChars d) : find beginSuffix (d.toList ++ (beginSuffix ++ y)) =
    some d.toList.length := by
  refine find_eq_length (not_occurs_of_not_mem (a := ' ') (by decide) fun h => ?_) ?_
  · exact absurd (hd ' ' h) (by decide)
  · -- no end of the suffix is its beginning
    rintro ⟨p, q, hp, hq, hpq, -, hpre⟩
    have hlen : p.length + q.length = beginSuffix.length := by rw [hpq, List.length_append]
    have hdrop : q = beginSuffix.drop p.length := by rw [hpq, List.drop_left' rfl]
    have hq' : q <+: beginSuffix := List.prefix_of_prefix_length_le hpre (List.prefix_append _ _) (by omega)
    have hborder : ∀ k ∈ List.range beginSuffix.length, 0 < k → ¬ beginSuffix.drop k <+: beginSuffix := by decide
    have hpos := List.length_pos_of_ne_nil hp
    have hpos' := List.length_pos_of_ne_nil hq
    exact hborder p.length (List.mem_range.mpr (by omega)) hpos (hdrop ▸ hq')

theorem length_le_tailText : parts.length ≤ (tailText parts).length := by
  induction parts with
  | nil => exact Nat.zero_le _
  | cons p parts ih =>
    have hone : 1 ≤ p.1.text.length := by
      obtain ⟨w, hw⟩ := text_head p.1 []
      rw [List.append_nil] at hw
      rw [← hw]
      simp
    show _ ≤ (p.1.text ++ render p.2 parts).length
    rw [render_eq, List.length_append, List.length_append, List.length_cons]
    omega

/-- Each round finds a block. -/
theorem findBlocks_tailText {fuel : ℕ} (hfuel : parts.length ≤ fuel) (hx : ¬ Occurs beginPrefix x)
    (hquiet : ∀ p ∈ parts, ¬ Occurs beginPrefix p.1.body ∧ ¬ Occurs beginPrefix p.2) :
    findBlocks fuel (x ++ tailText parts) = parts.map fun p => p.1.delim := by
  induction parts generalizing fuel x with
  | nil =>
    cases fuel with
    | zero => rfl
    | succ fuel =>
      rw [tailText, List.append_nil, findBlocks, find_eq_none_iff.mpr hx]
      rfl
  | cons p parts ih =>
    obtain ⟨b, after⟩ := p
    obtain ⟨fuel, rfl⟩ := Nat.exists_eq_succ_of_ne_zero (Nat.ne_of_gt (lt_of_lt_of_le (Nat.succ_pos _) hfuel))
    obtain ⟨hbody, hafter⟩ := hquiet (b, after) List.mem_cons_self
    have hrest : ¬ Occurs beginPrefix (b.body ++ (endMarker b.tag ++ after)) :=
      not_occurs_tail beginPrefix_sharp (List.prefix_rfl) hbody hafter
    have hsplit : x ++ tailText ((b, after) :: parts) =
        x ++ (beginPrefix ++ (b.delim.toList ++ (beginSuffix ++
          (b.body ++ (endMarker b.tag ++ after) ++ tailText parts)))) := by
      rw [tailText, render_eq after]
      simp only [Block.text, beginMarker, Block.delim, List.append_assoc]
    have hfind := find_eq_length (y := b.delim.toList ++ (beginSuffix ++
      (b.body ++ (endMarker b.tag ++ after) ++ tailText parts)))
      hx (beginPrefix_sharp.not_straddles_right (y := beginPrefix ++ _) ⟨_, rfl⟩)
    have hdelim : TagChars b.delim := b.tag_ok.delim
    rw [hsplit, findBlocks, hfind]
    dsimp only
    rw [← List.append_assoc, List.drop_left' (List.length_append), find_beginSuffix hdelim]
    dsimp only
    rw [List.take_left' rfl, String.ofList_toList, ← List.append_assoc, List.drop_left' (List.length_append),
      ih (Nat.le_of_succ_le_succ hfuel) hrest fun q hq => hquiet q (List.mem_cons_of_mem _ hq)]
    rfl

/-- **The tags found in a file are the delimiters of its blocks.** -/
theorem findAllBlocks_text (h : s.Quiet) : findAllBlocks s.text = s.parts.map fun p => p.1.delim := by
  unfold findAllBlocks
  rw [Sheet.text, render_eq]
  refine findBlocks_tailText ?_ h.1 h.2
  rw [List.length_append]
  exact length_le_tailText.trans (Nat.le_add_left _ _)

end Found

section Operations

variable {s : Sheet} {b : Block} {tag : String}

theorem stripBlock_text (htag : TagChars tag) : stripBlock s.text tag = (s.erase (sanitizeForDelim tag)).text :=
  stripBlock_render s.laid htag

theorem trimTrailingBlankLines_eq (x : List Char) : trimTrailingBlankLines x = close ['\n'] true x := by
  simp [trimTrailingBlankLines, close]

/-- **Writing a block puts it at the end.** -/
theorem writeBlock_text : (writeBlock s.text b.tag (b.text ++ ['\n'])).getD s.text = (s.install b).text := by
  have hclose (x : List Char) : (if trimEnd x ≠ [] then trimEnd x ++ ['\n', '\n'] else trimEnd x) =
      close ['\n', '\n'] true x := by
    unfold close
    by_cases hx : trimEnd x = [] <;> simp [hx]
  unfold writeBlock
  rw [stripBlock_text b.tag_ok]
  dsimp only
  rw [hclose, Sheet.install, Sheet.text_push]
  split_ifs with h
  · exact h.symm
  · rfl

/-- **Removing a block takes out the first one of its delimiter.** -/
theorem removeBlock_text (htag : TagChars tag) :
    (removeBlock s.text tag).getD s.text = (s.uninstall (sanitizeForDelim tag)).text := by
  unfold removeBlock
  rw [stripBlock_text htag, trimTrailingBlankLines_eq, Sheet.uninstall, Sheet.text_closed]
  dsimp only
  split_ifs with h
  · exact h.symm
  · rfl

/-- The delimiters that a sweep takes out. -/
def Sheet.orphans (s : Sheet) (alive : String → Bool) (keepTag : Option String) : List String :=
  (s.parts.map fun p => p.1.delim).filter (orphan alive keepTag)

theorem foldl_stripBlock {ds : List String} (h : ∀ d ∈ ds, TagChars d ∧ sanitizeForDelim d = d) :
    ds.foldl stripBlock s.text = (ds.foldl Sheet.erase s).text := by
  induction ds generalizing s with
  | nil => rfl
  | cons d ds ih =>
    obtain ⟨hd, hsan⟩ := h d List.mem_cons_self
    rw [List.foldl_cons, List.foldl_cons, stripBlock_text hd, hsan, ih fun e he => h e (List.mem_cons_of_mem _ he)]

/-- **A sweep takes out the blocks whose delimiter is neither alive nor kept.** -/
theorem sweepOne_text (alive : String → Bool) (keepTag : Option String) (h : s.Quiet) :
    (sweepOne alive keepTag s.text).getD s.text =
      if s.orphans alive keepTag = [] then s.text else (s.sweep (s.orphans alive keepTag)).text := by
  have hdelim : ∀ d ∈ s.orphans alive keepTag, TagChars d ∧ sanitizeForDelim d = d := by
    intro d hd
    obtain ⟨p, -, rfl⟩ := List.mem_map.mp (List.mem_of_mem_filter hd)
    exact ⟨p.1.tag_ok.delim, sanitizeForDelim_idem _⟩
  unfold sweepOne
  rw [findAllBlocks_text h]
  show (if s.orphans alive keepTag = [] then none else some _).getD _ = _
  split_ifs with hnil
  · rfl
  · rw [Option.getD_some, trimTrailingBlankLines_eq, Sheet.sweep, Sheet.text_closed]
    exact congrArg _ (foldl_stripBlock hdelim)

end Operations

/-! ### The block of a mount -/

section Mount

variable {pat : List Char} {tag path : String}

/-- No marker begins in the text. -/
def Markless (x : List Char) : Prop := find beginPrefix x = none ∧ find endPrefix x = none

instance (x : List Char) : Decidable (Markless x) := inferInstanceAs (Decidable (_ ∧ _))

theorem introText_facts : Markless introText ∧ introText.getLast? = some '`' :=
  @of_ofList (fun l => Markless l ∧ l.getLast? = some '`') _ (by decide +kernel)

/-- Before the path stands a blank, and before that a quotation mark. -/
theorem usageText_facts : usageText = usageText.dropLast ++ [' '] ∧ Markless usageText.dropLast ∧
    usageText.dropLast.getLast? = some '"' ∧ usageText.head? = some '/' :=
  @of_ofList_append (fun l => l = l.dropLast ++ [' '] ∧ Markless l.dropLast ∧ l.dropLast.getLast? = some '"' ∧
    l.head? = some '/') _ _ (by decide +kernel)

theorem adviceText_facts : Markless adviceText ∧ adviceText.getLast? = some '`' ∧ adviceText.head? = some '/' :=
  @of_ofList_append (fun l => Markless l ∧ l.getLast? = some '`' ∧ l.head? = some '/') _ _ (by decide +kernel)

theorem scopeText_facts : Markless scopeText ∧ scopeText.head? = some '/' :=
  @of_ofList_append (fun l => Markless l ∧ l.head? = some '/') _ _ (by decide +kernel)

/-- What begins as a marker does is not in a text in which none begins. -/
theorem not_occurs_of_markless {x : List Char} (hpat : beginPrefix <+: pat ∨ endPrefix <+: pat) (hx : Markless x) :
    ¬ Occurs pat x := by
  rcases hpat with ⟨r, rfl⟩ | ⟨r, rfl⟩
  · exact fun h => find_eq_none_iff.mp hx.1 h.of_append
  · exact fun h => find_eq_none_iff.mp hx.2 h.of_append

/-- A marker is in the block only if it is in the path. -/
theorem not_occurs_blockBody (hpat : beginPrefix <+: pat ∨ endPrefix <+: pat)
    (hchars : '/' ∉ pat ∧ '`' ∉ pat ∧ '"' ∉ pat) (h : ¬ Occurs pat path.toList) : ¬ Occurs pat (blockBody path) := by
  obtain ⟨hslash, htick, hquote⟩ := hchars
  obtain ⟨hblank, husageLess, husageLast, husageHead⟩ := usageText_facts
  have hhead : pat.head? = some '<' := by
    rcases hpat with ⟨r, rfl⟩ | ⟨r, rfl⟩ <;> rfl
  have hintro : ¬ Occurs pat (introText ++ path.toList) :=
    not_occurs_append (not_occurs_of_markless hpat introText_facts.1) h (not_straddles_of_last introText_facts.2 htick)
  have husage : ¬ Occurs pat (usageText ++ path.toList) := by
    have hspace : ¬ Occurs pat ([' '] ++ path.toList) :=
      not_occurs_append (not_occurs_of_markless hpat (by decide)) h (not_straddles_of_head hhead (by decide))
    rw [hblank, List.append_assoc]
    exact not_occurs_append (not_occurs_of_markless hpat husageLess) hspace (not_straddles_of_last husageLast hquote)
  have hadvice : ¬ Occurs pat (adviceText ++ path.toList) :=
    not_occurs_append (not_occurs_of_markless hpat adviceText_facts.1) h
      (not_straddles_of_last adviceText_facts.2.1 htick)
  have hscope : ¬ Occurs pat scopeText := not_occurs_of_markless hpat scopeText_facts.1
  have hnext {x y z : List Char} (hx : ¬ Occurs pat x) (hy : ¬ Occurs pat (y ++ z)) (hy' : y.head? = some '/') :
      ¬ Occurs pat (x ++ (y ++ z)) :=
    not_occurs_append hx hy (not_straddles_of_first (by rw [List.head?_append, hy']; rfl) hslash)
  have hrest := hnext (hnext hintro husage husageHead) hadvice adviceText_facts.2.2
  exact not_occurs_append hrest hscope (not_straddles_of_first scopeText_facts.2 hslash)

theorem blockBody_unmarked (h : Unmarked path.toList) : Unmarked (blockBody path) := by
  intro tag htag
  have hslash := htag.not_mem_markers (c := '/') (by decide) (by decide)
  have htick := htag.not_mem_markers (c := '`') (by decide) (by decide)
  have hquote := htag.not_mem_markers (c := '"') (by decide) (by decide)
  have hend : endPrefix <+: endMarker tag := by
    rw [endMarker, List.append_assoc]
    exact List.prefix_append _ _
  exact ⟨not_occurs_blockBody (.inl (beginPrefix_starts tag)) ⟨hslash.1, htick.1, hquote.1⟩ (h tag htag).1,
    not_occurs_blockBody (.inr hend) ⟨hslash.2, htick.2, hquote.2⟩ (h tag htag).2⟩

end Mount

/-- The block of a mount. -/
def hint (tag path : String) (htag : TagChars tag) (hpath : Unmarked path.toList) : Block :=
  ⟨tag, blockBody path, htag, blockBody_unmarked hpath⟩

theorem renderBlock_eq {tag path : String} (htag : TagChars tag) (hpath : Unmarked path.toList) :
    renderBlock tag path = (hint tag path htag hpath).text ++ ['\n'] := by
  simp only [renderBlock, Block.text, hint, List.append_assoc]

theorem writeBlock_hint {s : Sheet} {tag path : String} (htag : TagChars tag) (hpath : Unmarked path.toList) :
    (writeBlock s.text tag (renderBlock tag path)).getD s.text = (s.install (hint tag path htag hpath)).text := by
  rw [renderBlock_eq htag hpath]
  exact writeBlock_text (b := hint tag path htag hpath)

end Hint
end Smfs
