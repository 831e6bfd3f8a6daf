/-
# Hints that come and go

After any sequence of writes and removals the file is the user's text up to
its last newlines, and then the blocks that were written last for each
delimiter and not removed since, with nothing but newlines between them
(`hints_come_and_go`). What carries this from one operation to the next is
that every text after a block is a run of newlines (`Trailing`).

Key definitions: `Hint.HintOp`, `Hint.play`, `Hint.installed`, `Hint.Followed`, `Hint.Consists`, `Hint.AllRemoved`.
Key theorems: `Hint.reached`, `Hint.hints_come_and_go`.
-/
import Smfs.Hint.Edits

namespace Smfs
namespace Hint

open Search

/-- A mount writes a block, an unmount removes it. -/
inductive HintOp
  | write (tag pathStr : String)
  | remove (tag : String)
  deriving DecidableEq

/-- The tag is one that `mount` accepts, and there is no marker in the path. -/
def HintOp.Ok : HintOp → Prop
  | .write tag pathStr => validateTag tag = .ok () ∧ Unmarked pathStr.toList
  | .remove tag => validateTag tag = .ok ()

/-- The text of the file after the operation. -/
def HintOp.apply : HintOp → List Char → List Char
  | .write tag pathStr, file => (writeBlock file tag (renderBlock tag pathStr)).getD file
  | .remove tag, file => (removeBlock file tag).getD file

def play (u : List Char) (ops : List HintOp) : List Char := ops.foldl (fun file op => op.apply file) u

/-- The tags without those of a delimiter. -/
def without (tag : String) (hints : List (String × String)) : List (String × String) :=
  hints.filter fun h => sanitizeForDelim h.1 ≠ sanitizeForDelim tag

/-- The tags that are installed after one more operation, each with the path of its mount. -/
def HintOp.record (hints : List (String × String)) : HintOp → List (String × String)
  | .write tag pathStr => without tag hints ++ [(tag, pathStr)]
  | .remove tag => without tag hints

def installed (ops : List HintOp) : List (String × String) := ops.foldl HintOp.record []

/-- The blocks one after the other, with newlines before, between and after them. -/
inductive Followed : List (String × String) → List Char → Prop
  | nil {newlines : List Char} : Blank newlines → Followed [] newlines
  | cons {newlines rest : List Char} {tag pathStr : String} {hints : List (String × String)} :
    Blank newlines → Followed hints rest → Followed ((tag, pathStr) :: hints) (newlines ++
      (renderBlock tag pathStr ++ rest))

/-- The file is the text up to its last newlines, and then the blocks, on lines
of their own, and no two with one delimiter. -/
def Consists (u : List Char) (hints : List (String × String)) (file : List Char) : Prop :=
  (hints.map fun h => sanitizeForDelim h.1).Nodup ∧
    ∃ rest, file = trimEnd u ++ rest ∧ Followed hints rest ∧ (hints = [] ∨ trimEnd u = [] ∨ rest.head? = some '\n')

/-- Every write of a tag is followed by a removal of it. -/
def AllRemoved (ops : List HintOp) : Prop :=
  ∀ earlier tag pathStr later, ops = earlier ++ .write tag pathStr :: later → .remove tag ∈ later

/-! ### Newlines after the blocks -/

/-- What stands after a block is a run of newlines. -/
def Trailing (parts : List (Block × List Char)) : Prop := ∀ p ∈ parts, trimEnd p.2 = [] ∧ p.2 ≠ []

section Trailing

variable {before after : List Char} {parts : List (Block × List Char)} {b : Block} {start : Bool}

theorem trimEnd_close {sep : List Char} (hsep : Blank sep) (start : Bool) (x : List Char) :
    trimEnd (close sep start x) = trimEnd x := by
  unfold close
  split_ifs with h
  · exact h.2.symm
  · rw [trimEnd_append_blank _ hsep, trimEnd_trimEnd]

theorem close_ne_nil {sep : List Char} (hne : sep ≠ []) (x : List Char) : close sep false x ≠ [] := by
  simp [close, hne]

theorem trimStart_of_blank {x : List Char} (h : trimEnd x = []) : trimStart x = [] :=
  (List.append_nil x ▸ trimStart_append_blank [] (trimEnd_eq_nil.mp h) :)

theorem trailing_erase (d : String) (start : Bool) (before : List Char) (h : Trailing parts) :
    trimEnd (erase d start before parts).1 = trimEnd before ∧
      (start = false → before ≠ [] → (erase d start before parts).1 ≠ []) ∧
        Trailing (erase d start before parts).2 := by
  induction parts generalizing before start with
  | nil => exact ⟨rfl, fun _ hne => hne, h⟩
  | cons p parts ih =>
    obtain ⟨b, after⟩ := p
    obtain ⟨hafter, hne⟩ := h (b, after) List.mem_cons_self
    have hparts : Trailing parts := fun q hq => h q (List.mem_cons_of_mem _ hq)
    unfold erase
    split_ifs with hd
    · rw [trimStart_of_blank hafter, List.append_nil]
      refine ⟨trimEnd_close blank_line start before, ?_, hparts⟩
      rintro rfl -
      exact close_ne_nil (List.cons_ne_nil _ _) before
    · obtain ⟨htrim, hne', hrest⟩ := ih false after hparts
      refine ⟨rfl, fun _ hb => hb, fun q hq => ?_⟩
      rcases List.mem_cons.mp hq with rfl | hq
      · exact ⟨htrim.trans hafter, hne' rfl hne⟩
      · exact hrest q hq

theorem trailing_closeWith {sep : List Char} (hsep : Blank sep) (hne : sep ≠ []) (start : Bool) (before : List Char)
    (h : Trailing parts) : trimEnd (closeWith sep start before parts).1 = trimEnd before ∧
      (start = false → before ≠ [] → (closeWith sep start before parts).1 ≠ []) ∧
      Trailing (closeWith sep start before parts).2 := by
  induction parts generalizing before start with
  | nil =>
    refine ⟨trimEnd_close hsep start before, ?_, h⟩
    rintro rfl -
    exact close_ne_nil hne before
  | cons p parts ih =>
    obtain ⟨hafter, hne'⟩ := h p List.mem_cons_self
    obtain ⟨htrim, hne'', hrest⟩ := ih false p.2 fun q hq => h q (List.mem_cons_of_mem _ hq)
    refine ⟨rfl, fun _ hb => hb, fun q hq => ?_⟩
    rcases List.mem_cons.mp hq with rfl | hq
    · exact ⟨htrim.trans hafter, hne'' rfl hne'⟩
    · exact hrest q hq

end Trailing

/-! ### One operation after the other -/

/-- The file is laid out so: the text, and blocks of these tags. -/
structure Reached (u : List Char) (hints : List (String × String)) (s : Sheet) : Prop where
  front : trimEnd s.front = trimEnd u
  trailing : Trailing s.parts
  blocks : s.blocks.map (fun b => (b.tag, b.body)) = hints.map fun h => (h.1, blockBody h.2)
  nodup : (hints.map fun h => sanitizeForDelim h.1).Nodup

section Reached

variable {u : List Char} {hints : List (String × String)} {s : Sheet} {tag pathStr : String}

theorem delims_eq (h : Reached u hints s) : s.blocks.map Block.delim = hints.map fun h => sanitizeForDelim h.1 := by
  have hmap := congrArg (List.map fun p : String × List Char => sanitizeForDelim p.1) h.blocks
  rw [List.map_map, List.map_map] at hmap
  exact hmap

/-- Of values that differ in pairs only one is erased. -/
theorem eraseP_eq_filter {α β : Type} [DecidableEq β] {f : α → β} {d : β} {l : List α} (h : (l.map f).Nodup) :
    l.eraseP (fun a => f a = d) = l.filter fun a => f a ≠ d := by
  induction l with
  | nil => rfl
  | cons a l ih =>
    obtain ⟨ha, hl⟩ := List.nodup_cons.mp h
    by_cases hd : f a = d
    · rw [List.eraseP_cons_of_pos (by simpa using hd), List.filter_cons_of_neg (by simpa using hd), eq_comm,
        List.filter_eq_self]
      intro b hb
      have : f b ≠ d := fun hbd => ha (hd ▸ hbd ▸ List.mem_map_of_mem hb)
      simpa using this
    · rw [List.eraseP_cons_of_neg (by simpa using hd), List.filter_cons_of_pos (by simpa using hd), ih hl]

theorem without_nodup (h : (hints.map fun h => sanitizeForDelim h.1).Nodup) (tag : String) :
    ((without tag hints).map fun h => sanitizeForDelim h.1).Nodup :=
  h.sublist (List.filter_sublist.map _)

/-- Taking a delimiter out of the file takes it out of the record. -/
theorem Reached.erase (h : Reached u hints s) (tag : String) :
    (s.erase (sanitizeForDelim tag)).blocks.map (fun b => (b.tag, b.body)) =
      (without tag hints).map fun h => (h.1, blockBody h.2) := by
  have hmap : ∀ (l : List Block) (hs : List (String × String)), l.map (fun b => (b.tag, b.body)) =
    hs.map (fun h => (h.1, blockBody h.2)) →
      (l.eraseP fun b => b.delim = sanitizeForDelim tag).map (fun b => (b.tag, b.body)) =
        (hs.eraseP fun h => sanitizeForDelim h.1 = sanitizeForDelim tag).map fun h => (h.1, blockBody h.2) := by
    intro l hs hl
    have hboth := congrArg (List.eraseP fun p : String × List Char => sanitizeForDelim p.1 = sanitizeForDelim tag) hl
    rw [List.eraseP_map, List.eraseP_map] at hboth
    exact hboth
  rw [Sheet.blocks_erase, hmap _ _ h.blocks]
  exact congrArg _ (eraseP_eq_filter (f := fun h : String × String => sanitizeForDelim h.1) h.nodup)

theorem Reached.install (h : Reached u hints s) (htag : TagChars tag) (hpath : Unmarked pathStr.toList) :
    Reached u (without tag hints ++ [(tag, pathStr)]) (s.install (hint tag pathStr htag hpath)) := by
  obtain ⟨hfront, -, hparts⟩ := trailing_erase (sanitizeForDelim tag) true s.front h.trailing
  have hclose := trailing_closeWith blank_lines (List.cons_ne_nil _ _) true
    (s.erase (sanitizeForDelim tag)).front hparts
  refine ⟨hclose.1.trans (hfront.trans h.front), fun p hp => ?_, ?_, ?_⟩
  · rcases List.mem_append.mp hp with hp | hp
    · exact hclose.2.2 p hp
    · rw [List.mem_singleton.mp hp]
      exact ⟨trimEnd_eq_nil.mpr blank_line, List.cons_ne_nil _ _⟩
  · rw [Sheet.install, Sheet.blocks_push, List.map_append, List.map_append]
    exact congrArg (· ++ _) (h.erase tag)
  · rw [List.map_append]
    refine List.nodup_append.mpr ⟨without_nodup h.nodup tag, by simp, ?_⟩
    rintro d hd e he rfl
    obtain ⟨h', hh', rfl⟩ := List.mem_map.mp hd
    have hne := (List.mem_filter.mp hh').2
    rw [List.map_singleton, List.mem_singleton] at he
    exact absurd he (by simpa using hne)

theorem Reached.uninstall (h : Reached u hints s) (tag : String) :
    Reached u (without tag hints) (s.uninstall (sanitizeForDelim tag)) := by
  obtain ⟨hfront, -, hparts⟩ := trailing_erase (sanitizeForDelim tag) true s.front h.trailing
  have hclose := trailing_closeWith blank_line (List.cons_ne_nil _ _) true (s.erase (sanitizeForDelim tag)).front hparts
  refine ⟨hclose.1.trans (hfront.trans h.front), hclose.2.2, ?_, without_nodup h.nodup tag⟩
  rw [Sheet.uninstall, Sheet.blocks_closed, h.erase tag]

/-- **What an operation leaves is laid out, with the blocks on record.** -/
theorem Reached.apply {op : HintOp} (h : Reached u hints s) (hop : op.Ok) :
    ∃ t, op.apply s.text = t.text ∧ Reached u (op.record hints) t := by
  cases op with
  | write tag pathStr =>
    have htag := tagChars_of_validateTag hop.1
    refine ⟨s.install (hint tag pathStr htag hop.2), ?_, h.install htag hop.2⟩
    exact writeBlock_hint htag hop.2
  | remove tag =>
    exact ⟨_, removeBlock_text (tagChars_of_validateTag hop), h.uninstall tag⟩

theorem play_concat (u : List Char) (ops : List HintOp) (op : HintOp) :
    play u (ops ++ [op]) = op.apply (play u ops) := by
  rw [play, List.foldl_append]
  rfl

theorem installed_concat (ops : List HintOp) (op : HintOp) : installed (ops ++ [op]) = op.record (installed ops) := by
  rw [installed, List.foldl_append]
  rfl

/-- **After any operations the file is laid out, with the blocks on record.** -/
theorem reached {ops : List HintOp} (hu : Unmarked u) (hops : ∀ op ∈ ops, op.Ok) :
    ∃ s : Sheet, play u ops = s.text ∧ Reached u (installed ops) s := by
  induction ops using List.reverseRecOn with
  | nil => exact ⟨⟨u, [], hu⟩, rfl, rfl, (fun _ hp => by cases hp), rfl, List.nodup_nil⟩
  | append_singleton ops op ih =>
    obtain ⟨s, hs, hreached⟩ := ih fun o ho => hops o (List.mem_append_left _ ho)
    obtain ⟨t, ht, hreached'⟩ := hreached.apply (hops op (by simp))
    exact ⟨t, by rw [play_concat, hs, ht], by rw [installed_concat]; exact hreached'⟩

/-! ### What the file consists of -/

theorem followed_tailText {parts : List (Block × List Char)} {newlines : List Char} (hn : Blank newlines)
    (h : Trailing parts)
    (hblocks : parts.map (fun p => (p.1.tag, p.1.body)) = hints.map fun h => (h.1, blockBody h.2)) :
    Followed hints (newlines ++ tailText parts) := by
  induction parts generalizing hints newlines with
  | nil =>
    obtain rfl := List.map_eq_nil_iff.mp hblocks.symm
    rw [tailText, List.append_nil]
    exact .nil hn
  | cons p parts ih =>
    obtain ⟨b, after⟩ := p
    obtain ⟨⟨tag, pathStr⟩, hints, rfl⟩ := List.exists_cons_of_ne_nil (l := hints) (by rintro rfl; cases hblocks)
    obtain ⟨hb, hrest⟩ := List.cons.inj hblocks
    obtain ⟨htag, hbody⟩ := Prod.mk.inj hb
    obtain ⟨hafter, hne⟩ := h (b, after) List.mem_cons_self
    obtain ⟨c, after, rfl⟩ := List.exists_cons_of_ne_nil hne
    have hblank := trimEnd_eq_nil.mp hafter
    have hc : c = '\n' := hblank c List.mem_cons_self
    have hsplit : tailText ((b, c :: after) :: parts) = renderBlock tag pathStr ++ (after ++ tailText parts) := by
      show b.text ++ render (c :: after) parts = _
      rw [render_eq, hc, renderBlock, Block.text, htag, hbody]
      simp only [List.append_assoc, List.cons_append, List.nil_append]
    rw [hsplit]
    exact .cons hn (ih (fun d hd => hblank d (List.mem_cons_of_mem _ hd)) (fun q hq =>
      h q (List.mem_cons_of_mem _ hq)) hrest)

theorem Reached.consists (h : Reached u hints s) : Consists u hints s.text := by
  obtain ⟨newlines, hn, hfront⟩ := trimEnd_split s.front
  have hblocks : s.parts.map (fun p => (p.1.tag, p.1.body)) = hints.map fun h => (h.1, blockBody h.2) := by
    rw [← h.blocks, Sheet.blocks, List.map_map]
    rfl
  refine ⟨h.nodup, newlines ++ tailText s.parts, ?_, followed_tailText hn h.trailing hblocks, ?_⟩
  · rw [Sheet.text, render_eq, ← h.front, ← List.append_assoc, ← hfront]
  · by_contra hline
    push Not at hline
    obtain ⟨hne, hu, hhead⟩ := hline
    have hparts : s.parts ≠ [] := by
      intro he
      rw [he] at hblocks
      exact hne (List.map_eq_nil_iff.mp hblocks.symm)
    obtain ⟨p, parts, hp⟩ := List.exists_cons_of_ne_nil hparts
    have hlaid := s.laid
    rw [hp] at hlaid
    cases newlines with
    | nil =>
      rw [List.append_nil] at hfront
      rcases hlaid.2.1 with hlast | ⟨-, hnil⟩
      · exact trimEnd_last s.front (hfront ▸ hlast)
      · refine hu (h.front ▸ ?_)
        rw [hnil]
        rfl
    | cons c newlines => exact hhead (by rw [hn c List.mem_cons_self]; rfl)

/-! ### Writing again -/

theorem close_congr {sep x y : List Char} {start : Bool} (h : trimEnd x = trimEnd y) :
    close sep start x = close sep start y := by
  unfold close
  rw [h]

/-- Writing a block once more changes nothing. -/
theorem install_install (s : Sheet) (b : Block) (h : (s.blocks.map Block.delim).Nodup) :
    ((s.install b).install b).text = (s.install b).text := by
  have hgone : ∀ b' ∈ (s.erase b.delim).blocks, b'.delim ≠ b.delim := by
    rw [Sheet.blocks_erase, eraseP_eq_filter h]
    exact fun b' hb' => by simpa using (List.mem_filter.mp hb').2
  have hparts : ∀ p ∈ (closeWith ['\n', '\n'] true (s.erase b.delim).front (s.erase b.delim).parts).2,
    p.1.delim ≠ b.delim := by
    intro p hp
    refine hgone p.1 ?_
    rw [Sheet.blocks, ← map_closeWith ['\n', '\n'] true (s.erase b.delim).front]
    exact List.mem_map_of_mem hp
  have herase : ((s.install b).erase b.delim).text = close ['\n'] true (close ['\n',
    '\n'] true (s.erase b.delim).text) := by
    have := render_erase true (closeWith ['\n', '\n'] true (s.erase b.delim).front (s.erase b.delim).parts).1 _ b ['\n'] []
      rfl hparts
    rw [render_closeWith] at this
    exact this.trans (List.append_nil _)
  have hclose : close ['\n', '\n'] true (close ['\n'] true (close ['\n', '\n'] true (s.erase b.delim).text)) =
      close ['\n', '\n'] true (s.erase b.delim).text :=
    close_congr (by rw [trimEnd_close blank_line, trimEnd_close blank_lines])
  calc ((s.install b).install b).text
      = close ['\n', '\n'] true ((s.install b).erase b.delim).text ++ (b.text ++ ['\n']) := Sheet.text_push _ _
    _ = close ['\n', '\n'] true (s.erase b.delim).text ++ (b.text ++ ['\n']) := by rw [herase, hclose]
    _ = (s.install b).text := (Sheet.text_push _ _).symm

/-! ### Removing all -/

/-- What is on record was written, and its delimiter was not removed since. -/
theorem mem_installed {ops : List HintOp} (h : (tag, pathStr) ∈ installed ops) :
    ∃ earlier later, ops = earlier ++ .write tag pathStr :: later ∧ .remove tag ∉ later := by
  induction ops using List.reverseRecOn with
  | nil => cases h
  | append_singleton ops op ih =>
    rw [installed_concat] at h
    have hold (hm : (tag, pathStr) ∈ installed ops) (hop : op ≠ .remove tag) :
        ∃ earlier later, ops ++ [op] = earlier ++ .write tag pathStr :: later ∧ .remove tag ∉ later := by
      obtain ⟨earlier, later, rfl, hlater⟩ := ih hm
      refine ⟨earlier, later ++ [op], by rw [List.append_assoc]; rfl, ?_⟩
      rw [List.mem_append, List.mem_singleton]
      rintro (hr | hr)
      · exact hlater hr
      · exact hop hr.symm
    cases op with
    | write tag' pathStr' =>
      rcases List.mem_append.mp h with h | h
      · exact hold (List.mem_of_mem_filter h) nofun
      · cases List.mem_singleton.mp h
        exact ⟨ops, [], rfl, List.not_mem_nil⟩
    | remove tag' =>
      obtain ⟨hm, hne⟩ := List.mem_filter.mp h
      refine hold hm fun he => ?_
      cases he
      simp at hne

theorem installed_of_allRemoved {ops : List HintOp} (h : AllRemoved ops) : installed ops = [] := by
  refine List.eq_nil_iff_forall_not_mem.mpr fun ⟨tag, pathStr⟩ hm => ?_
  obtain ⟨earlier, later, he, hlater⟩ := mem_installed hm
  exact hlater (h earlier tag pathStr later he)

end Reached

/-- **Hints come and go without touching the user's text.** Writing a block
twice is writing it once; after any operations the file is the user's text and
then the blocks on record; and once every written tag has been removed it is
the user's text. -/
theorem hints_come_and_go {u : List Char} {ops : List HintOp} (hu : Unmarked u) (hops : ∀ op ∈ ops, op.Ok) :
    (∀ tag pathStr, (HintOp.write tag pathStr).Ok →
      play u (ops ++ [.write tag pathStr, .write tag pathStr]) = play u (ops ++ [.write tag pathStr])) ∧
    Consists u (installed ops) (play u ops) ∧
    (AllRemoved ops → trimEnd (play u ops) = trimEnd u) := by
  obtain ⟨s, hs, hreached⟩ := reached hu hops
  refine ⟨fun tag pathStr hok => ?_, hs ▸ hreached.consists, fun hall => ?_⟩
  · have htag := tagChars_of_validateTag hok.1
    have hwrite (t : Sheet) : (HintOp.write tag pathStr).apply t.text =
      (t.install (hint tag pathStr htag hok.2)).text :=
      writeBlock_hint htag hok.2
    have htwice : ops ++ [HintOp.write tag pathStr, .write tag pathStr] = (ops ++ [.write tag pathStr]) ++
      [.write tag pathStr] := by
      simp
    have hnodup : (s.blocks.map Block.delim).Nodup := delims_eq hreached ▸ hreached.nodup
    rw [htwice, play_concat, play_concat, hs, hwrite, hwrite]
    exact install_install s _ hnodup
  · have hnone := installed_of_allRemoved hall
    have hparts : s.parts = [] := by
      have hblocks := hreached.blocks
      rw [hnone] at hblocks
      exact List.map_eq_nil_iff.mp (List.map_eq_nil_iff.mp hblocks)
    rw [hs, Sheet.text, hparts]
    exact hreached.front

/-- A hint that is written and removed. -/
theorem hints_come_and_go_once :
    Consists "notes\n".toList [] (play "notes\n".toList [.write "a" "/mnt", .remove "a"]) ∧
      trimEnd (play "notes\n".toList [.write "a" "/mnt", .remove "a"]) = "notes".toList := by
  have hops : ∀ op ∈ [HintOp.write "a" "/mnt", .remove "a"], op.Ok := by
    intro op hop
    rcases List.mem_cons.mp hop with rfl | hop
    · exact ⟨by decide, unmarked_of_not_mem (by decide)⟩
    · rw [List.mem_singleton.mp hop]
      show validateTag "a" = .ok ()
      decide
  have hall : AllRemoved [HintOp.write "a" "/mnt", .remove "a"] := by
    rintro (- | ⟨op, - | ⟨op', earlier⟩⟩) tag pathStr later he
    · cases he
      exact List.mem_cons_self
    · cases he
    · cases earlier <;> cases he
  have h := hints_come_and_go (u := "notes\n".toList) (unmarked_of_not_mem (by decide)) hops
  exact ⟨h.2.1, (h.2.2 hall).trans (by decide)⟩

end Hint
end Smfs
