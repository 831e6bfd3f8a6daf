/-
# Operations on one tag leave the blocks of others

A block is known by its delimiter, the tag with `__` for `--`. Where the text
around the blocks has no markers, an operation on a tag leaves every block with
another delimiter as it is; and where each block begins a line, and no marker
begins but those of the blocks, a sweep leaves every block whose delimiter is
alive or kept (`tags_do_not_interfere`). Tags with `--` share their delimiter
with others, a sweep asks for a daemon under the delimiter, and it takes what
is left of a mid-line block, or the marker of no tag, for one it knows
(`tags_collide`).

Key definitions: `Hint.Plain`, `Hint.Laid`, `Hint.Sheet.Quiet`.
Key theorems: `Hint.infix_stripBlock`, `Hint.mem_sweep`, `Hint.tags_do_not_interfere`, `Hint.tags_collide`.
-/
import Smfs.Hint.Edits

namespace Smfs
namespace Hint

open Search

section Lemmas

variable {s : Sheet} {b b' : Block} {d tag : String}

theorem mem_erase (h : b ∈ s.blocks) (hne : d ≠ b.delim) : b ∈ (s.erase d).blocks := by
  rw [Sheet.blocks_erase]
  exact (List.mem_eraseP_of_neg (by simpa using hne.symm)).mpr h

theorem mem_install (h : b ∈ s.blocks) (hne : b'.delim ≠ b.delim) : b ∈ (s.install b').blocks := by
  rw [Sheet.install, Sheet.blocks_push]
  exact List.mem_append_left _ (mem_erase h hne)

theorem mem_uninstall (h : b ∈ s.blocks) (hne : d ≠ b.delim) : b ∈ (s.uninstall d).blocks := by
  rw [Sheet.uninstall, Sheet.blocks_closed]
  exact mem_erase h hne

theorem mem_sweep {ds : List String} (h : b ∈ s.blocks) (hne : b.delim ∉ ds) : b ∈ (s.sweep ds).blocks := by
  rw [Sheet.sweep, Sheet.blocks_closed]
  induction ds generalizing s with
  | nil => exact h
  | cons d ds ih =>
    refine ih (mem_erase h fun he => ?_) fun hm => hne (List.mem_cons_of_mem _ hm)
    exact hne (he ▸ List.mem_cons_self)

theorem infix_writeBlock {text block : List Char} (h : b.text <:+: text) (hstrip : b.text <:+: stripBlock text tag) :
    b.text <:+: (writeBlock text tag block).getD text := by
  unfold writeBlock
  dsimp only
  split_ifs
  · exact h
  · refine List.IsInfix.trans ?_ (List.prefix_append _ _).isInfix
    exact (infix_trimEnd hstrip).trans (List.prefix_append _ _).isInfix
  · exact h
  · exact (infix_trimEnd hstrip).trans (List.prefix_append _ _).isInfix

theorem infix_removeBlock {text : List Char} (h : b.text <:+: text) (hstrip : b.text <:+: stripBlock text tag) :
    b.text <:+: (removeBlock text tag).getD text := by
  have htrim := infix_trimEnd hstrip
  unfold removeBlock trimTrailingBlankLines
  dsimp only
  split_ifs with hnil hsame
  · exact h
  · rw [hnil] at htrim
    exact htrim
  · exact h
  · exact htrim.trans (List.prefix_append _ _).isInfix

theorem not_mem_orphans {alive : String → Bool} {keepTag : Option String}
    (h : alive b.delim = true ∨ keepTag = some b.delim) : b.delim ∉ s.orphans alive keepTag := by
  intro hm
  have horphan := (List.mem_filter.mp hm).2
  rcases h with h | h <;> simp [orphan, h] at horphan

end Lemmas

/-- **Operations on one tag leave the block of another**, if their delimiters
differ; and a sweep leaves it if its delimiter is alive or kept. -/
theorem tags_do_not_interfere {before : List Char} {parts : List (Block × List Char)} {b : Block}
    (hplain : Plain before parts) (hb : b ∈ parts.map Prod.fst) :
    (∀ tag, validateTag tag = .ok () → sanitizeForDelim tag ≠ sanitizeForDelim b.tag →
      (∀ pathStr, b.text <:+: (writeBlock (render before parts) tag (renderBlock tag pathStr)).getD
        (render before parts)) ∧
      b.text <:+: (removeBlock (render before parts) tag).getD (render before parts) ∧
      b.text <:+: stripBlock (render before parts) tag) ∧
    ∀ alive keepTag, ∀ hlaid : Laid true before parts, Sheet.Quiet ⟨before, parts, hlaid⟩ →
      alive (sanitizeForDelim b.tag) = true ∨ keepTag = some (sanitizeForDelim b.tag) →
      b.text <:+: (sweepOne alive keepTag (render before parts)).getD (render before parts) := by
  refine ⟨fun tag htag hne => ?_, fun alive keepTag hlaid hquiet hsafe => ?_⟩
  · have hfile : b.text <:+: render before parts := infix_render hb before
    have hstrip := infix_stripBlock hplain (tagChars_of_validateTag htag) hb hne.symm
    exact ⟨fun pathStr => infix_writeBlock hfile hstrip, infix_removeBlock hfile hstrip, hstrip⟩
  · have hsheet := sweepOne_text alive keepTag hquiet
    rw [Sheet.text] at hsheet
    rw [hsheet]
    split_ifs
    · exact infix_render hb before
    · exact infix_render (mem_sweep hb (not_mem_orphans hsafe)) _

/-- A block of a tag with one line in it. -/
private def note (tag line : String) (htag : TagChars tag) (hline : '<' ∉ ("\n" ++ line ++ "\n").toList) : Block :=
  ⟨tag, ("\n" ++ line ++ "\n").toList, htag, unmarked_of_not_mem hline⟩

private def noteA : Block := note "a" "of a" (by decide) (by decide)

private def noteB : Block := note "b--c" "of b" (by decide) (by decide)

/-- A heading, and the blocks of two tags. -/
private def twoNotes : List (Block × List Char) := [(noteA, "\n\n".toList), (noteB, "\nmore\n".toList)]

/-- The first tag's block is removed, replaced and swept, and the other one is still there. -/
theorem tags_do_not_interfere_pair :
    let text := render "# notes\n".toList twoNotes
    let rest := "# notes\n".toList ++ (noteB.text ++ "\nmore\n".toList)
    (removeBlock text "a" = some rest ∧ (writeBlock text "a" (renderBlock "a" "/mnt")).isSome = true ∧
      sweepOne (· = "b__c") none text = some rest ∧ sweepOne (fun _ => false) (some "b__c") text = some rest) ∧
    (∀ pathStr, noteB.text <:+: (writeBlock text "a" (renderBlock "a" pathStr)).getD text) ∧
      noteB.text <:+: (removeBlock text "a").getD text ∧
      noteB.text <:+: (sweepOne (· = "b__c") none text).getD text ∧
      noteB.text <:+: (sweepOne (fun _ => false) (some "b__c") text).getD text := by
  have hplain : Plain "# notes\n".toList twoNotes := by
    refine ⟨unmarked_of_not_mem (by decide), fun p hp => unmarked_of_not_mem ?_⟩
    revert p
    decide
  have hlaid : Laid true "# notes\n".toList twoNotes :=
    ⟨hplain.1, .inl (by decide), hplain.tail.1, .inl (by decide), hplain.tail.tail.1⟩
  have hfront : find beginPrefix "# notes\n".toList = none := by decide
  have hparts : ∀ p ∈ twoNotes, find beginPrefix p.1.body = none ∧ find beginPrefix p.2 = none := by decide
  have hquiet : Sheet.Quiet ⟨_, twoNotes, hlaid⟩ :=
    ⟨find_eq_none_iff.mp hfront, fun p hp => (hparts p hp).imp find_eq_none_iff.mp find_eq_none_iff.mp⟩
  have hb : noteB ∈ twoNotes.map Prod.fst := List.mem_cons_of_mem _ List.mem_cons_self
  obtain ⟨hops, hsweep⟩ := tags_do_not_interfere hplain hb
  obtain ⟨hinstall, hremove, -⟩ := hops "a" (by decide) (by decide)
  exact ⟨by decide +kernel, hinstall, hremove, hsweep _ _ hlaid hquiet (.inl (by decide)),
    hsweep _ _ hlaid hquiet (.inr (by decide))⟩

/-- A property of a block, from the characters of its four texts. -/
theorem of_texts {p : List Char → List Char → List Char → List Char → Prop} {i u u' a a' s s' : List Char}
    (h : p i (u ++ u') (a ++ a') (s ++ s')) :
    p (String.ofList i).toList (String.ofList u ++ String.ofList u').toList (String.ofList a ++ String.ofList a').toList
      (String.ofList s ++ String.ofList s').toList := by
  simpa only [String.toList_append, String.toList_ofList] using h

private def noteX : Block := note "x" "of x" (by decide) (by decide)

private def noteL : Block := note "b" "of b" (by decide) (by decide)

/-- A block that does not begin a line, and after it what a `<` makes a begin marker. -/
private def glued : List Char :=
  render "see ".toList [(noteX, "!-- >>> smfs:a:begin >>> -->\n".toList), (noteL, ['\n']), (noteA, ['\n'])]

/-- A block between markers of what is no tag. -/
private def foreign : List Char :=
  render "<!-- >>> smfs:my notes:begin >>> -->\n".toList [(noteL, "\n<!-- <<< smfs:my notes:end <<< -->\n".toList)]

/-- The block of `a--b` is taken for that of `a__b`, and for an orphan while
its daemon is alive and it is the one to keep. A sweep takes the block of the
live `b` with the orphans before and after it, whose first marker the removal
of another orphan completes, and with the markers around it. -/
theorem tags_collide : (validateTag "a--b" = .ok () ∧ validateTag "a__b" = .ok () ∧ "a--b" ≠ "a__b" ∧
      removeBlock (renderBlock "a--b" "/mnt") "a__b" = some [] ∧
      sweepOne (· = "a--b") (some "a--b") (renderBlock "a--b" "/mnt") = some []) ∧
    noteL.text <:+: glued ∧ sweepOne (· = "b") none glued = some "see <\n".toList ∧
    noteL.text <:+: foreign ∧ sweepOne (· = "b") none foreign = some [] := by
  refine ⟨⟨by decide, by decide, by decide, ?_⟩, infix_render ?_ _, by decide +kernel, infix_render ?_ _,
    by decide +kernel⟩
  · exact @of_texts (fun intro usage advice scope =>
      let block := beginMarker "a--b" ++ (intro ++ "/mnt".toList ++ (usage ++ "/mnt".toList) ++
        (advice ++ "/mnt".toList) ++ scope ++ (endMarker "a--b" ++ ['\n']))
      removeBlock block "a__b" = some [] ∧ sweepOne (· = "a--b") (some "a--b") block = some [])
      _ _ _ _ _ _ _ (by decide +kernel)
  · exact List.mem_cons_of_mem _ List.mem_cons_self
  · exact List.mem_cons_self

end Hint
end Smfs
