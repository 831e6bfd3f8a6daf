/-
# What stripping a block removes

`strip_block` goes from the first begin marker of the tag to the first end
marker after it. Where that is a block, and it begins a line, nothing goes
but the block and newlines next to it (`strips_only_block`). Where a second
begin marker comes before the end marker, the first one is taken for the
beginning of the block; and where the block does not begin a line, the
character that is kept after the text before it is not the newline it is
meant to be, but the first one of the marker.

Key definitions: `Hint.Marked`, `Hint.IsBlock`, `Hint.FirstBlock`, `Hint.StripsOnlyBlock`, `Hint.Whole`.
Key theorems: `Hint.stripBlock_leading`, `Hint.strips_only_block`.
-/
import Smfs.Hint

namespace Smfs
namespace Hint

open Search

/-- The text is `before`, a begin marker, `body`, an end marker and `after`. -/
def Marked (tag : String) (text before body after : List Char) : Prop :=
  text = before ++ (beginMarker tag ++ (body ++ (endMarker tag ++ after)))

/-- The markers belong together: the end marker is the first one after the
begin marker, and no other begin marker is between them. -/
def IsBlock (tag : String) (text before body after : List Char) : Prop :=
  Marked tag text before body after ∧ ¬ Occurs (beginMarker tag) body ∧
    FirstAt (endMarker tag) (body ++ (endMarker tag ++ after)) body.length

/-- No block begins before it. -/
def FirstBlock (tag : String) (text before body after : List Char) : Prop :=
  IsBlock tag text before body after ∧
    ∀ before' body' after', IsBlock tag text before' body' after' → before.length ≤ before'.length

/-- The text without a block of it, and without newlines next to that. -/
def Without (before after out : List Char) : Prop :=
  ∃ p s newlines newlines', before = p ++ newlines ∧ after = newlines' ++ s ∧ Blank newlines ∧
    Blank newlines' ∧ out = p ++ s

/-- Stripping leaves a text in which no end marker follows a begin marker, and
removes nothing but the first block and newlines next to it from any other. -/
def StripsOnlyBlock (tag : String) (text : List Char) : Prop :=
  ((¬ ∃ before body after, Marked tag text before body after) → stripBlock text tag = text) ∧
  ((∃ before body after, Marked tag text before body after) →
    ∃ before body after, FirstBlock tag text before body after ∧ Without before after (stripBlock text tag))

/-- The first begin marker, and the first end marker after it. -/
def Leading (tag : String) (text before body after : List Char) : Prop :=
  Marked tag text before body after ∧ FirstAt (beginMarker tag) text before.length ∧
    FirstAt (endMarker tag) (body ++ (endMarker tag ++ after)) body.length

/-- If an end marker follows the first begin marker, then no other begin marker
comes before it, and the begin marker is at the beginning of a line. -/
def Whole (tag : String) (text : List Char) : Prop :=
  ∀ before body after, Leading tag text before body after →
    (before = [] ∨ before.getLast? = some '\n') ∧ ¬ Occurs (beginMarker tag) body

/-- What is kept of the text before a block. -/
def kept (before : List Char) : List Char :=
  if trimEnd before = [] then [] else if trimEnd before = before then before ++ ['<'] else trimEnd before ++ ['\n']

section Lemmas

variable {tag : String} {text before body after before' body' after' : List Char}

/-! ### The markers -/

theorem beginMarker_eq (tag : String) : ∃ r, beginMarker tag = '<' :: '!' :: r := ⟨_, rfl⟩

theorem beginMarker_ne_nil (tag : String) : beginMarker tag ≠ [] := List.cons_ne_nil _ _

theorem endMarker_ne_nil (tag : String) : endMarker tag ≠ [] := List.cons_ne_nil _ _

/-! ### The block that is stripped -/

theorem headEnd_marked (h : Marked tag text before body after) :
    text.take (headEnd text before.length) = kept before := by
  obtain ⟨newlines, hblank, hbefore⟩ := trimEnd_split before
  obtain ⟨r, hr⟩ := beginMarker_eq tag
  have htake : text.take before.length = before := by rw [h, List.take_left']; rfl
  unfold headEnd kept
  rw [htake]
  by_cases hnil : trimEnd before = []
  · simp [hnil]
  · have hpos : 0 < (trimEnd before).length := List.length_pos_of_ne_nil hnil
    simp only [hnil, hpos, ite_true, ite_false]
    by_cases heq : trimEnd before = before
    · rw [if_pos heq, heq, h, hr, List.take_append]
      simp
    · rw [if_neg heq]
      cases newlines with
      | nil => exact absurd (hbefore.trans (List.append_nil _)).symm heq
      | cons c newlines =>
        have hc : c = '\n' := hblank c List.mem_cons_self
        have hsplit : text = trimEnd before ++ ('\n' :: (newlines ++
          (beginMarker tag ++ (body ++ (endMarker tag ++ after))))) := by
          rw [h, ← hc]
          conv_lhs => rw [hbefore]
          simp only [List.append_assoc, List.cons_append]
        rw [hsplit, List.take_append]
        simp

/-- What `strip_block` removes. -/
theorem stripBlock_leading (h : Leading tag text before body after) :
    stripBlock text tag = kept before ++ trimStart after := by
  obtain ⟨hmarked, hbegin, hend⟩ := h
  have hdrop : text.drop (before.length + (beginMarker tag).length) = body ++ (endMarker tag ++ after) := by
    rw [hmarked, ← List.append_assoc, List.drop_left' (List.length_append)]
  have hrest : text.drop (before.length + (beginMarker tag).length + body.length + (endMarker tag).length) = after := by
    have hassoc : text = (before ++ beginMarker tag ++ body ++ endMarker tag) ++ after := by
      rw [hmarked]
      simp only [List.append_assoc]
    rw [hassoc, List.drop_left']
    simp only [List.length_append]
  unfold stripBlock
  rw [find_eq_some_iff.mpr hbegin]
  dsimp only
  rw [hdrop, find_eq_some_iff.mpr hend]
  dsimp only
  rw [headEnd_marked hmarked, hrest]

/-- Stripping does nothing where no end marker follows the first begin marker. -/
theorem strip_cases (tag : String) (text : List Char) :
    (¬ ∃ before body after, Marked tag text before body after) ∧ stripBlock text tag = text ∨
      ∃ before body after, Leading tag text before body after := by
  cases hb : find (beginMarker tag) text with
  | none =>
    refine .inl ⟨?_, by unfold stripBlock; rw [hb]⟩
    rintro ⟨before, body, after, rfl⟩
    exact find_eq_none_iff.mp hb ((occurs_self _ _).append_right _)
  | some i =>
    obtain ⟨before, rest, rfl, rfl, hfree⟩ := find_split (beginMarker_ne_nil tag) hb
    cases he : find (endMarker tag) rest with
    | none =>
      refine .inl ⟨?_, ?_⟩
      · rintro ⟨before', body, after, h⟩
        -- the begin marker of `before'` is not before the first one
        have hle : before.length ≤ before'.length := by
          by_contra hlt
          exact (find_eq_some_iff.mp hb).2 _ (not_le.mp hlt) ⟨before', _, by rw [h, List.append_assoc], rfl⟩
        obtain ⟨k, hk⟩ : ∃ k, rest = k ++ (endMarker tag ++ after) := by
          have hlen : (before ++ beginMarker tag).length ≤ (before' ++ (beginMarker tag ++ body)).length := by
            simp only [List.length_append]
            omega
          have hpre : before ++ beginMarker tag <+: before' ++ (beginMarker tag ++ body) := by
            have hfirst : before ++ beginMarker tag <+: before ++ (beginMarker tag ++ rest) := ⟨rest, by simp⟩
            refine List.prefix_of_prefix_length_le hfirst ⟨endMarker tag ++ after, ?_⟩ hlen
            rw [h]
            simp only [List.append_assoc]
          obtain ⟨k, hk⟩ := hpre
          refine ⟨k, ?_⟩
          have : (before ++ beginMarker tag) ++ rest = (before ++ beginMarker tag) ++
            (k ++ (endMarker tag ++ after)) := by
            rw [← List.append_assoc _ k, hk]
            simp only [List.append_assoc]
            exact h
          exact List.append_cancel_left this
        exact find_eq_none_iff.mp he (hk ▸ (occurs_self _ _).append_right _)
      · have hdrop : (before ++ (beginMarker tag ++ rest)).drop (before.length + (beginMarker tag).length) = rest := by
          rw [← List.append_assoc, List.drop_left' (List.length_append)]
        unfold stripBlock
        rw [hb]
        dsimp only
        rw [hdrop, he]
    | some j =>
      obtain ⟨body, after, rfl, rfl, -⟩ := find_split (endMarker_ne_nil tag) he
      exact .inr ⟨before, body, after, rfl, find_eq_some_iff.mp hb, find_eq_some_iff.mp he⟩

/-! ### The first block -/

theorem FirstAt.unique {pat text : List Char} {i j : ℕ} (hi : FirstAt pat text i) (hj : FirstAt pat text j) : i = j :=
  Nat.le_antisymm (not_lt.mp fun h => hi.2 j h hj.1) (not_lt.mp fun h => hj.2 i h hi.1)

theorem Marked.occursAt (h : Marked tag text before body after) : OccursAt (beginMarker tag) text before.length :=
  ⟨before, body ++ (endMarker tag ++ after), by rw [h, List.append_assoc], rfl⟩

/-- Blocks that begin at one place are one block. -/
theorem IsBlock.unique (h : IsBlock tag text before body after) (h' : IsBlock tag text before' body' after')
    (hlen : before.length = before'.length) : before = before' ∧ body = body' ∧ after = after' := by
  have heq := h.1.symm.trans h'.1
  obtain ⟨rfl, hrest⟩ := List.append_inj heq hlen
  have hinner := List.append_cancel_left hrest
  have hfirst : FirstAt (endMarker tag) (body ++ (endMarker tag ++ after)) body'.length := hinner ▸ h'.2.2
  obtain ⟨rfl, hend⟩ := List.append_inj hinner (FirstAt.unique h.2.2 hfirst)
  exact ⟨rfl, rfl, List.append_cancel_left hend⟩

/-- A block at the first begin marker is the first block. -/
theorem Leading.firstBlock (h : Leading tag text before body after) (hbody : ¬ Occurs (beginMarker tag) body) :
    FirstBlock tag text before body after :=
  ⟨⟨h.1, hbody, h.2.2⟩, fun _ _ _ h' => not_lt.mp fun hlt => h.2.1.2 _ hlt h'.1.occursAt⟩

/-- If a begin marker stands before the end marker, the last such one begins a block. -/
theorem Leading.inner (h : Leading tag text before body after) (hbody : Occurs (beginMarker tag) body) :
    ∃ x y, body = x ++ beginMarker tag ++ y ∧ IsBlock tag text (before ++ (beginMarker tag ++ x)) y after := by
  obtain ⟨x, y, rfl, hlast⟩ := exists_last (beginMarker_ne_nil tag) hbody
  obtain ⟨hmarked, -, hend⟩ := h
  refine ⟨x, y, rfl, ?_, hlast, ⟨y, after, (List.append_assoc _ _ _).symm, rfl⟩, fun j hj => ?_⟩
  · rw [Marked, hmarked]
    simp only [List.append_assoc]
  · rintro ⟨pre, post, he, rfl⟩
    refine hend.2 (x.length + (beginMarker tag).length + pre.length) ?_ ⟨x ++ beginMarker tag ++ pre, post, ?_, ?_⟩
    · simp only [List.length_append]
      omega
    · rw [List.append_assoc (x ++ beginMarker tag), he]
      simp only [List.append_assoc]
    · simp only [List.length_append]

/-- How many characters are no newlines. -/
def weight (x : List Char) : ℕ := x.countP (· ≠ '\n')

theorem weight_append (x y : List Char) : weight (x ++ y) = weight x + weight y := List.countP_append

theorem weight_blank {x : List Char} (h : Blank x) : weight x = 0 := by
  refine List.countP_eq_zero.mpr fun c hc => ?_
  simpa using h c hc

theorem weight_trimEnd (x : List Char) : weight (trimEnd x) = weight x := by
  obtain ⟨y, hy, hx⟩ := trimEnd_split x
  conv_rhs => rw [hx, weight_append, weight_blank hy, Nat.add_zero]

theorem weight_trimStart (x : List Char) : weight (trimStart x) = weight x := by
  obtain ⟨y, hy, hx⟩ := trimStart_split x
  conv_rhs => rw [hx, weight_append, weight_blank hy, Nat.zero_add]

theorem weight_kept_le (x : List Char) : weight (kept x) ≤ weight x + 1 := by
  unfold kept
  split_ifs with h₁ h₂
  · exact Nat.zero_le _
  · rw [weight_append]
    rfl
  · rw [weight_append, weight_trimEnd]
    exact Nat.le_succ _

theorem Without.weight {out : List Char} (h : Without before after out) :
    weight out = weight before + weight after := by
  obtain ⟨p, s, newlines, newlines', rfl, rfl, hn, hn', rfl⟩ := h
  rw [weight_append, weight_append, weight_append, weight_blank hn, weight_blank hn', Nat.add_zero, Nat.zero_add]

/-- Of two beginnings of a text the shorter is the beginning of the longer. -/
theorem append_of_le {x y z w : List Char} (h : x ++ y = z ++ w) (hle : x.length ≤ z.length) :
    ∃ k, z = x ++ k ∧ y = k ++ w := by
  rcases List.append_eq_append_iff.mp h with ⟨k, hz, hy⟩ | ⟨k, hx, hw⟩
  · exact ⟨k, hz, hy⟩
  · have hk : k = [] := by
      have := congrArg List.length hx
      rw [List.length_append] at this
      exact List.eq_nil_of_length_eq_zero (by omega)
    subst hk
    exact ⟨[], by simpa using hx.symm, by simpa using hw.symm⟩

/-- The first block begins two characters or more after the first begin marker,
if there is another begin marker before the end marker. -/
theorem weight_before (h : Leading tag text before body after) (hbody : Occurs (beginMarker tag) body)
    (h' : IsBlock tag text before' body' after') : weight before + 2 ≤ weight before' := by
  have hle : before.length ≤ before'.length := not_lt.mp fun hlt => h.2.1.2 _ hlt h'.1.occursAt
  obtain ⟨w, rfl, hw⟩ := append_of_le (h.1.symm.trans h'.1) hle
  obtain ⟨r, hr⟩ := beginMarker_eq tag
  rcases w with - | ⟨c, - | ⟨d, w⟩⟩
  · -- the block would be the one that has the other begin marker in it
    have hinner : body ++ (endMarker tag ++ after) = body' ++ (endMarker tag ++ after') := List.append_cancel_left hw
    have hfirst : FirstAt (endMarker tag) (body ++ (endMarker tag ++ after)) body'.length := hinner ▸ h'.2.2
    obtain ⟨rfl, -⟩ := List.append_inj hinner (FirstAt.unique h.2.2 hfirst)
    exact absurd hbody h'.2.1
  · rw [hr] at hw
    have hsecond := (List.cons.inj (List.cons.inj hw).2).1
    exact absurd hsecond (by decide)
  · rw [hr] at hw
    obtain ⟨hc, hw⟩ := List.cons.inj hw
    obtain ⟨hd, -⟩ := List.cons.inj hw
    have hw : weight ('<' :: '!' :: w) = 2 + weight w := weight_append ['<', '!'] w
    rw [weight_append, ← hc, ← hd, hw]
    omega

/-- The first block ends no later than the first end marker after the first begin marker. -/
theorem weight_after (h : Leading tag text before body after) (hbody : Occurs (beginMarker tag) body)
    (h' : FirstBlock tag text before' body' after') : weight after ≤ weight after' := by
  obtain ⟨x, y, rfl, hinner⟩ := h.inner hbody
  have hle := h'.2 _ _ _ hinner
  have heq : (before' ++ beginMarker tag) ++ (body' ++ (endMarker tag ++ after')) =
      (before ++ (beginMarker tag ++ (x ++ beginMarker tag ++ y))) ++ (endMarker tag ++ after) := by
    rw [List.append_assoc, ← h'.1.1, h.1]
    simp only [List.append_assoc]
  obtain ⟨k, -, hk⟩ := append_of_le heq (by simp only [List.length_append] at hle ⊢; omega)
  have hend : body'.length ≤ k.length :=
    not_lt.mp fun hlt => h'.1.2.2.2 _ hlt ⟨k, after, by rw [hk, List.append_assoc], rfl⟩
  obtain ⟨k', -, hk'⟩ := append_of_le hk hend
  have hweight := congrArg weight hk'
  simp only [weight_append] at hweight
  omega

/-! ### What is left of the text -/

theorem kept_of_line (h : before = [] ∨ before.getLast? = some '\n') :
    ∃ p newlines, before = p ++ newlines ∧ Blank newlines ∧ kept before = p := by
  obtain ⟨newlines, hblank, hbefore⟩ := trimEnd_split before
  unfold kept
  by_cases hnil : trimEnd before = []
  · rw [hnil] at hbefore
    exact ⟨[], newlines, hbefore, hblank, if_pos hnil⟩
  · have hne : trimEnd before ≠ before := by
      intro heq
      rcases h with rfl | h
      · exact hnil rfl
      · exact trimEnd_last before (heq.symm ▸ h)
    rw [if_neg hnil, if_neg hne]
    cases newlines with
    | nil => exact absurd (hbefore.trans (List.append_nil _)).symm hne
    | cons c newlines =>
      have hc : c = '\n' := hblank c List.mem_cons_self
      refine ⟨trimEnd before ++ ['\n'], newlines, ?_, fun d hd => hblank d (List.mem_cons_of_mem _ hd), rfl⟩
      rw [List.append_assoc, ← hc]
      exact hbefore

/-- Where the block is not at the beginning of a line, a character of its marker is kept. -/
theorem not_without_of_inline (hne : before ≠ []) (hlast : before.getLast? ≠ some '\n') :
    ¬ Without before after (kept before ++ trimStart after) := by
  have htrim : trimEnd before = before := trimEnd_of_last hlast
  have hkept : kept before = before ++ ['<'] := by
    unfold kept
    rw [htrim, if_neg hne, if_pos rfl]
  rintro ⟨p, s, newlines, newlines', hbefore, hafter, hn, hn', hout⟩
  have hp : p = before := by
    cases newlines using List.reverseRecOn with
    | nil => rw [hbefore, List.append_nil]
    | append_singleton newlines c =>
      have hc : c = '\n' := hn c (by simp)
      exact absurd (by rw [hbefore, hc, ← List.append_assoc, List.getLast?_concat]) hlast
  rw [hkept, hp, List.append_assoc] at hout
  have hs : s = '<' :: trimStart after := (List.append_cancel_left hout).symm
  have htail : trimStart after = '<' :: trimStart after := by
    conv_lhs => rw [hafter, trimStart_append_blank _ hn', trimStart_of_head (by rw [hs]; simp), hs]
  have := congrArg List.length htail
  simp at this

/-- If nothing but a block goes, the first begin marker begins it, and a line. -/
theorem StripsOnlyBlock.whole (h : StripsOnlyBlock tag text) : Whole tag text := by
  intro before body after hlead
  obtain ⟨before', body', after', hfirst, hwithout⟩ := h.2 ⟨before, body, after, hlead.1⟩
  rw [stripBlock_leading hlead] at hwithout
  by_cases hbody : Occurs (beginMarker tag) body
  · exfalso
    have hbefore := weight_before hlead hbody hfirst.1
    have hafter := weight_after hlead hbody hfirst
    have hweight := hwithout.weight
    rw [weight_append, weight_trimStart] at hweight
    have hkept := weight_kept_le before
    omega
  · have hsame := hlead.firstBlock hbody
    have hlen := Nat.le_antisymm (hsame.2 _ _ _ hfirst.1) (hfirst.2 _ _ _ hsame.1)
    obtain ⟨rfl, rfl, rfl⟩ := hsame.1.unique hfirst.1 hlen
    refine ⟨?_, hbody⟩
    by_contra hline
    push Not at hline
    exact not_without_of_inline hline.1 hline.2 hwithout

theorem Whole.strips (h : Whole tag text) : StripsOnlyBlock tag text := by
  rcases strip_cases tag text with ⟨hnone, hstrip⟩ | ⟨before, body, after, hlead⟩
  · exact ⟨fun _ => hstrip, fun hm => absurd hm hnone⟩
  · refine ⟨fun hm => absurd ⟨_, _, _, hlead.1⟩ hm, fun _ => ⟨before, body, after, ?_, ?_⟩⟩
    · exact hlead.firstBlock (h _ _ _ hlead).2
    · obtain ⟨p, newlines, hbefore, hblank, hkept⟩ := kept_of_line (h _ _ _ hlead).1
      obtain ⟨newlines', hblank', hafter⟩ := trimStart_split after
      exact ⟨p, _, newlines, newlines', hbefore, hafter, hblank, hblank', by rw [stripBlock_leading hlead, hkept]⟩

end Lemmas

/-- **Stripping removes only a block, if and only if the first begin marker is
that of a block and begins a line.** -/
theorem strips_only_block (tag : String) (text : List Char) : StripsOnlyBlock tag text ↔ Whole tag text :=
  ⟨StripsOnlyBlock.whole, Whole.strips⟩

/-- A begin marker that has lost its end marker, a line of the user's, and a block. -/
private def cutShort : List Char :=
  beginMarker "a" ++ ("\nmy notes\n".toList ++ beginMarker "a" ++ "\n".toList ++ (endMarker "a" ++ "\n".toList))

/-- A block that begins in the middle of a line. -/
private def midLine : List Char := "see ".toList ++ (beginMarker "a" ++ ("\n".toList ++ (endMarker "a" ++ "\n".toList)))

/-- The user's line is removed from the one, and a `<` is left in the other. -/
theorem strip_takes_and_leaves : ¬ StripsOnlyBlock "a" cutShort ∧ ¬ StripsOnlyBlock "a" midLine := by
  constructor
  · intro h
    have hlead : Leading "a" cutShort [] ("\nmy notes\n".toList ++ beginMarker "a" ++ "\n".toList) "\n".toList :=
      ⟨rfl, find_eq_some_iff.mp (by decide +kernel), find_eq_some_iff.mp (by decide +kernel)⟩
    exact (h.whole _ _ _ hlead).2 ⟨_, "\nmy notes\n".toList, "\n".toList, rfl, rfl⟩
  · intro h
    have hlead : Leading "a" midLine "see ".toList "\n".toList "\n".toList :=
      ⟨rfl, find_eq_some_iff.mp (by decide +kernel), find_eq_some_iff.mp (by decide +kernel)⟩
    exact absurd (h.whole _ _ _ hlead).1 (by decide)

end Hint
end Smfs
