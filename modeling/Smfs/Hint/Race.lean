/-
# Mounts, unmounts and sweeps at once

Any number of processes edit one instruction file: each reads it, computes the
new text, takes the lock, writes the temporary file, renames it over the file
and lets go of the lock. The file is read before the lock is taken, a sweep
takes no lock, and all share one temporary file, so an edit may undo another
(`hint_lost`). Where each rename puts a process's own edit over the text that
it read, no hint is lost (`mounts_keep_hints`).

Key definitions: `Hint.Job`, `Hint.World`, `Hint.World.step`, `Hint.Undisturbed`, `Hint.HintsKept`.
Key theorems: `Hint.exists_edit`, `Hint.World.inv_step`, `Hint.mounts_keep_hints`, `Hint.ends_alone`, `Hint.hint_lost`.
-/
import Smfs.Hint.Tags
import Smfs.Hint.Texts
import Smfs.Lib.Reach
import Mathlib.Logic.Function.Basic

namespace Smfs
namespace Hint

open Search

/-! ### Processes -/

/-- What a process does with the file. -/
inductive Job
  | install (tag pathStr : String)
  | uninstall (tag : String)
  | sweep (alive : String → Bool) (keepTag : Option String)

/-- The text that the process is to write, `none` where the file is to stay. -/
def Job.compute : Job → List Char → Option (List Char)
  | .install tag pathStr, original => writeBlock original tag (renderBlock tag pathStr)
  | .uninstall tag, original => removeBlock original tag
  | .sweep alive keepTag, original => sweepOne alive keepTag original

/-- `sweep_one` writes without `with_file_lock`. -/
def Job.locks : Job → Bool
  | .sweep _ _ => false
  | _ => true

/-- Where a process is, with the text it read and the text it computed. -/
inductive Phase
  | start
  | read (original : List Char)
  | waiting (original content : List Char)
  | ready (original content : List Char)
  | written (original content : List Char)
  | leaving
  | done
  deriving DecidableEq

/-- The instruction file, the temporary file, the holder of the lock, and where each process is. -/
structure World (ι : Type) where
  file : Option (List Char)
  tmp : Option (List Char)
  lock : Option ι
  phase : ι → Phase

variable {ι : Type}

namespace World

def start (file : Option (List Char)) : World ι := ⟨file, none, none, fun _ => .start⟩

/-- The text of the file; a file that does not exist has none. -/
def text (w : World ι) : List Char := w.file.getD []

def goTo [DecidableEq ι] (w : World ι) (i : ι) (p : Phase) : World ι := { w with phase := Function.update w.phase i p }

/-- The next step of a process. -/
def step [DecidableEq ι] (jobs : ι → Job) (w : World ι) (i : ι) : Option (World ι) :=
  match w.phase i with
  | .start =>
    match jobs i, w.file with
    | .install _ _, file => some (w.goTo i (.read (file.getD [])))
    | _, some original => some (w.goTo i (.read original))
    | _, none => some (w.goTo i .done)
  | .read original =>
    match (jobs i).compute original with
    | none => some (w.goTo i .done)
    | some content =>
      if (jobs i).locks then some (w.goTo i (.waiting original content)) else some (w.goTo i (.ready original content))
  | .waiting original content =>
    if w.lock.isNone then some { w.goTo i (.ready original content) with lock := some i } else none
  | .ready original content => some { w.goTo i (.written original content) with tmp := some content }
  | .written _ _ =>
    match w.tmp with
    -- there is nothing to rename
    | none => some (w.goTo i .leaving)
    | some content => some { w.goTo i .leaving with file := some content, tmp := none }
  | .leaving => some { w.goTo i .done with lock := if w.lock = some i then none else w.lock }
  | .done => none

end World

/-- The tags are accepted, the paths have no marker text, the installed tags
have distinct delimiters, and none of these is uninstalled. -/
structure Compatible (jobs : ι → Job) : Prop where
  install_ok : ∀ {i tag pathStr}, jobs i = .install tag pathStr → validateTag tag = .ok () ∧ PathOk pathStr
  uninstall_ok : ∀ {i tag}, jobs i = .uninstall tag → validateTag tag = .ok ()
  distinct : ∀ {i j tag pathStr tag' pathStr'}, jobs i = .install tag pathStr →
    jobs j = .install tag' pathStr' → i ≠ j →
    sanitizeForDelim tag ≠ sanitizeForDelim tag'
  others : ∀ {i j tag pathStr tag'}, jobs i = .install tag pathStr → jobs j = .uninstall tag' →
    sanitizeForDelim tag ≠ sanitizeForDelim tag'

/-- A sweep takes no installed tag for an orphan, and a process that renames
puts the text it computed over the text it read. -/
def Undisturbed (jobs : ι → Job) (w : World ι) (i : ι) : Prop :=
  (∀ alive keepTag, jobs i = .sweep alive keepTag → ∀ j tag pathStr, jobs j = .install tag pathStr →
    orphan alive keepTag (sanitizeForDelim tag) = false) ∧
  ∀ original content, w.phase i = .written original content → w.text = original ∧ w.tmp = some content

/-- The file is the user's text and blocks, each installed tag's block is in it
and no uninstalled tag's, and the other blocks were in it at the start. -/
def HintsKept (jobs : ι → Job) (s₀ : Sheet) (text : List Char) : Prop :=
  ∃ s : Sheet, text = s.text ∧ s.userText = s₀.userText ∧
    (∀ i tag pathStr, jobs i = .install tag pathStr → beginMarker tag ++
      (blockBody pathStr ++ endMarker tag) <:+: text) ∧
    (∀ i tag, jobs i = .uninstall tag → ¬ Occurs (beginMarker tag) text) ∧
    ∀ b ∈ s.blocks, b ∈ s₀.blocks ∨ ∃ i pathStr, jobs i = .install b.tag pathStr ∧ b.body = blockBody pathStr

/-! ### One edit -/

/-- What a job is for. -/
def Job.Fulfilled : Job → Sheet → Prop
  | .install tag pathStr, s => ∃ b ∈ s.blocks, b.tag = tag ∧ b.body = blockBody pathStr
  | .uninstall tag, s => ∀ b ∈ s.blocks, b.delim ≠ sanitizeForDelim tag
  | .sweep _ _, _ => True

/-- What no edit changes. -/
structure Kept (jobs : ι → Job) (s₀ s : Sheet) : Prop where
  quiet : s.Quiet
  nodup : (s.blocks.map Block.delim).Nodup
  userText : s.userText = s₀.userText
  origin : ∀ b ∈ s.blocks, b ∈ s₀.blocks ∨ ∃ i pathStr, jobs i = .install b.tag pathStr ∧ b.body = blockBody pathStr

section Edit

variable {jobs : ι → Job} {s₀ s t : Sheet} {b : Block} {d : String}

/-- A file with some of the blocks, and with those that the jobs want. -/
theorem Kept.sublist (hk : Kept jobs s₀ s) (hquiet : t.Quiet) (huser : t.userText = s.userText)
    (hsub : t.blocks.Sublist s.blocks) : Kept jobs s₀ t :=
  ⟨hquiet, hk.nodup.sublist (hsub.map _), huser.trans hk.userText, fun b hb => hk.origin b (hsub.subset hb)⟩

theorem not_mem_blocks_erase (h : (s.blocks.map Block.delim).Nodup) : ∀ b ∈ (s.erase d).blocks, b.delim ≠ d := by
  rw [Sheet.blocks_erase, eraseP_eq_filter h]
  exact fun b hb => by simpa using (List.mem_filter.mp hb).2

theorem blocks_sweep_sublist (s : Sheet) (ds : List String) : (s.sweep ds).blocks.Sublist s.blocks := by
  rw [Sheet.sweep, Sheet.blocks_closed]
  induction ds generalizing s with
  | nil => exact List.Sublist.refl _
  | cons d ds ih => exact (ih (s.erase d)).trans (by rw [Sheet.blocks_erase]; exact List.eraseP_sublist)

/-- Fewer blocks, but all that are installed. -/
theorem Job.Fulfilled.of_sublist {j : Job} (h : j.Fulfilled s) (hsub : t.blocks.Sublist s.blocks)
    (hleft : ∀ tag pathStr, j = .install tag pathStr → ∀ b ∈ s.blocks, b.tag = tag → b ∈ t.blocks) : j.Fulfilled t := by
  cases j with
  | install tag pathStr =>
    obtain ⟨b, hb, htag, hbody⟩ := h
    exact ⟨b, hleft tag pathStr rfl b hb htag, htag, hbody⟩
  | uninstall tag => exact fun b hb => h b (hsub.subset hb)
  | sweep alive keepTag => trivial

variable (hc : Compatible jobs) {i : ι}
  (hspare : ∀ alive keepTag, jobs i = .sweep alive keepTag → ∀ j tag pathStr, jobs j = .install tag pathStr →
    orphan alive keepTag (sanitizeForDelim tag) = false)
include hc hspare

omit hspare in
theorem edit_install {tag pathStr : String} (hi : jobs i = .install tag pathStr) (hk : Kept jobs s₀ s) :
    ∃ t : Sheet, (writeBlock s.text tag (renderBlock tag pathStr)).getD s.text = t.text ∧ Kept jobs s₀ t ∧
      (Job.install tag pathStr).Fulfilled t ∧ ∀ k, (jobs k).Fulfilled s → (jobs k).Fulfilled t := by
  obtain ⟨hvalid, hpath⟩ := hc.install_ok hi
  have htag := tagChars_of_validateTag hvalid
  have hblocks := s.blocks_install (hint tag pathStr htag hpath.unmarked)
  have hmem : hint tag pathStr htag hpath.unmarked ∈ (s.install (hint tag pathStr htag hpath.unmarked)).blocks := by
    rw [hblocks]
    exact List.mem_append_right _ List.mem_cons_self
  refine ⟨_, writeBlock_hint htag hpath.unmarked, ⟨hk.quiet.install hpath.body, ?_,
    userText_install.trans hk.userText, ?_⟩,
    ⟨_, hmem, rfl, rfl⟩, fun k hfull => ?_⟩
  · rw [hblocks, List.map_append]
    refine List.nodup_append.mpr ⟨hk.nodup.sublist (List.eraseP_sublist.map _), by simp, ?_⟩
    rintro e he d hd rfl
    obtain ⟨b, hb, rfl⟩ := List.mem_map.mp he
    rw [List.map_singleton, List.mem_singleton] at hd
    rw [← Sheet.blocks_erase] at hb
    exact not_mem_blocks_erase hk.nodup b hb hd
  · intro b hb
    rw [hblocks] at hb
    rcases List.mem_append.mp hb with hb | hb
    · exact hk.origin b (List.mem_of_mem_eraseP hb)
    · rw [List.mem_singleton.mp hb]
      exact .inr ⟨i, pathStr, hi, rfl⟩
  · generalize hj : jobs k = j at hfull ⊢
    cases j with
    | install tag' pathStr' =>
      by_cases hki : k = i
      · rw [hki, hi] at hj
        cases hj
        exact ⟨_, hmem, rfl, rfl⟩
      · obtain ⟨b, hb, rfl, hbody⟩ := hfull
        exact ⟨b, mem_install hb (hc.distinct hi hj (Ne.symm hki)), rfl, hbody⟩
    | uninstall tag' =>
      intro b hb
      rw [hblocks] at hb
      rcases List.mem_append.mp hb with hb | hb
      · exact hfull b (List.mem_of_mem_eraseP hb)
      · rw [List.mem_singleton.mp hb]
        exact hc.others hi hj
    | sweep alive keepTag => trivial

omit hspare in
theorem edit_uninstall {tag : String} (hi : jobs i = .uninstall tag) (hk : Kept jobs s₀ s) :
    ∃ t : Sheet, (removeBlock s.text tag).getD s.text = t.text ∧ Kept jobs s₀ t ∧ (Job.uninstall tag).Fulfilled t ∧
      ∀ k, (jobs k).Fulfilled s → (jobs k).Fulfilled t := by
  have hsub : (s.uninstall (sanitizeForDelim tag)).blocks.Sublist s.blocks := by
    rw [Sheet.blocks_uninstall]
    exact List.eraseP_sublist
  refine ⟨_, removeBlock_text (tagChars_of_validateTag (hc.uninstall_ok hi)),
    hk.sublist hk.quiet.uninstall userText_uninstall hsub, ?_, fun k hfull => hfull.of_sublist hsub ?_⟩
  · show ∀ b ∈ (s.uninstall (sanitizeForDelim tag)).blocks, b.delim ≠ sanitizeForDelim tag
    rw [Sheet.uninstall, Sheet.blocks_closed]
    exact not_mem_blocks_erase hk.nodup
  · rintro tag' pathStr hj b hb rfl
    exact mem_uninstall hb (hc.others hj hi).symm

omit hc in
theorem edit_sweep {alive : String → Bool} {keepTag : Option String} (hi : jobs i = .sweep alive keepTag)
    (hk : Kept jobs s₀ s) : ∃ t : Sheet, (sweepOne alive keepTag s.text).getD s.text = t.text ∧ Kept jobs s₀ t ∧
      ∀ k, (jobs k).Fulfilled s → (jobs k).Fulfilled t := by
  rw [sweepOne_text alive keepTag hk.quiet]
  split_ifs
  · exact ⟨s, rfl, hk, fun _ h => h⟩
  · have hsub := blocks_sweep_sublist s (s.orphans alive keepTag)
    refine ⟨_, rfl, hk.sublist (hk.quiet.sweep _) (userText_sweep _) hsub, fun k hfull => hfull.of_sublist hsub ?_⟩
    rintro tag pathStr hj b hb rfl
    refine mem_sweep hb fun hm => ?_
    have horphan := (List.mem_filter.mp hm).2
    rw [Block.delim, hspare alive keepTag hi k b.tag pathStr hj] at horphan
    cases horphan

/-- **An edit does its job and undoes no other's.** -/
theorem exists_edit (hk : Kept jobs s₀ s) :
    ∃ t : Sheet, ((jobs i).compute s.text).getD s.text = t.text ∧ Kept jobs s₀ t ∧ (jobs i).Fulfilled t ∧
      ∀ k, (jobs k).Fulfilled s → (jobs k).Fulfilled t := by
  generalize hj : jobs i = j
  cases j with
  | install tag pathStr => exact edit_install hc hj hk
  | uninstall tag => exact edit_uninstall hc hj hk
  | sweep alive keepTag =>
    obtain ⟨t, ht, hkept, hfull⟩ := edit_sweep hspare hj hk
    exact ⟨t, ht, hkept, trivial, hfull⟩

end Edit

/-! ### Runs -/

/-- What a process knows: that the text it computed is that of its job, or, where nothing is to be written, that its
job is done. -/
def Phase.Ok (j : Job) (s : Sheet) : Phase → Prop
  | .start => True
  | .read original => j.compute original = none → j.Fulfilled s
  | .waiting original content | .ready original content | .written original content => j.compute original = some content
  | .leaving | .done => j.Fulfilled s

namespace World

variable [DecidableEq ι] {jobs : ι → Job} {s₀ : Sheet} {w w' : World ι} {i : ι}

/-- The file is laid out, and each process is right about it. -/
def Inv (jobs : ι → Job) (s₀ : Sheet) (w : World ι) : Prop :=
  ∃ s : Sheet, w.text = s.text ∧ Kept jobs s₀ s ∧ ∀ i, (w.phase i).Ok (jobs i) s

theorem ok_update {s t : Sheet} {p : Phase} (hall : ∀ k, (jobs k).Fulfilled s → (jobs k).Fulfilled t)
    (h : ∀ k, (w.phase k).Ok (jobs k) s) (hp : p.Ok (jobs i) t) :
    ∀ k, (Function.update w.phase i p k).Ok (jobs k) t := by
  intro k
  by_cases hk : k = i
  · subst hk
    rwa [Function.update_self]
  · rw [Function.update_of_ne hk]
    have hold := h k
    cases hphase : w.phase k with rw [hphase] at hold
    | start => trivial
    | read original => exact fun hn => hall k (hold hn)
    | waiting original content => exact hold
    | ready original content => exact hold
    | written original content => exact hold
    | leaving => exact hall k hold
    | done => exact hall k hold

/-- A step that leaves the file as it is. -/
theorem Inv.goTo {p : Phase} (hinv : Inv jobs s₀ w) (hfile : w'.text = w.text)
    (hphase : w'.phase = Function.update w.phase i p)
    (hp : ∀ s : Sheet, w.text = s.text → Kept jobs s₀ s → (w.phase i).Ok (jobs i) s → p.Ok (jobs i) s) :
    Inv jobs s₀ w' := by
  obtain ⟨s, hs, hk, hok⟩ := hinv
  refine ⟨s, hfile.trans hs, hk, ?_⟩
  rw [hphase]
  exact ok_update (fun _ h => h) hok (hp s hs hk (hok i))

/-- A rename of the job's own text over the text that it read. -/
theorem Inv.rename {original content : List Char} (hc : Compatible jobs) (hok : Undisturbed jobs w i)
    (hinv : Inv jobs s₀ w) (hphase : w.phase i = .written original content) :
    Inv jobs s₀ { w.goTo i .leaving with file := some content, tmp := none } := by
  obtain ⟨s, hs, hk, hall⟩ := hinv
  obtain ⟨hread, -⟩ := hok.2 original content hphase
  have hcompute : (jobs i).compute s.text = some content := by
    have := hall i
    rw [hphase] at this
    rw [← hs, hread]
    exact this
  obtain ⟨t, ht, hkept, hdone, hothers⟩ := exists_edit hc hok.1 hk
  rw [hcompute] at ht
  exact ⟨t, ht, hkept, ok_update hothers hall hdone⟩

/-- A process that reads the file. If its edit changes nothing, the job is done
by the blocks that the edit finds there. -/
theorem Inv.read (hc : Compatible jobs) (hok : Undisturbed jobs w i) (hinv : Inv jobs s₀ w) :
    Inv jobs s₀ (w.goTo i (.read w.text)) := by
  obtain ⟨s, hs, hk, hall⟩ := hinv
  obtain ⟨t, ht, hkept, hdone, hothers⟩ := exists_edit hc hok.1 hk
  cases hcompute : (jobs i).compute s.text with
  | none =>
    rw [hcompute] at ht
    exact ⟨t, hs.trans ht, hkept, ok_update hothers hall fun _ => hdone⟩
  | some content =>
    refine ⟨s, hs, hk, ok_update (fun _ h => h) hall fun hnone => ?_⟩
    rw [hs, hcompute] at hnone
    cases hnone

/-- No file, no block. -/
theorem blocks_eq_nil {s : Sheet} (h : s.text = []) : s.blocks = [] := by
  cases hparts : s.parts with
  | nil => rw [Sheet.blocks, hparts, List.map_nil]
  | cons p parts =>
    rw [Sheet.text, hparts] at h
    obtain ⟨y, hy⟩ := text_head p.1 (render p.2 parts)
    have hnil := (List.append_eq_nil_iff.mp h).2
    rw [← hy] at hnil
    cases hnil

/-- **A step keeps the file laid out and the processes right about it.** -/
theorem inv_step (hc : Compatible jobs) (hok : Undisturbed jobs w i) (hinv : Inv jobs s₀ w)
    (h : step jobs w i = some w') : Inv jobs s₀ w' := by
  unfold step at h
  cases hphase : w.phase i with rw [hphase] at h
  | start =>
    have hgone (hfile : w.file = none) (hjob : ∀ s : Sheet, s.blocks = [] → (jobs i).Fulfilled s) :
        Inv jobs s₀ (w.goTo i .done) := by
      refine hinv.goTo rfl rfl fun s hs _ _ => hjob s (blocks_eq_nil ?_)
      rw [← hs, text, hfile]
      rfl
    cases hj : jobs i with
    | install tag pathStr =>
      rw [hj] at h
      cases h
      exact hinv.read hc hok
    | uninstall tag =>
      cases hfile : w.file with rw [hj, hfile] at h
      | none =>
        cases h
        exact hgone hfile fun s hs => by rw [hj, Job.Fulfilled, hs]; exact fun b hb => (List.not_mem_nil hb).elim
      | some original =>
        cases h
        have := hinv.read hc hok
        rwa [text, hfile] at this
    | sweep alive keepTag =>
      cases hfile : w.file with rw [hj, hfile] at h
      | none =>
        cases h
        exact hgone hfile fun s hs => by rw [hj]; trivial
      | some original =>
        cases h
        have := hinv.read hc hok
        rwa [text, hfile] at this
  | read original =>
    dsimp only at h
    cases hcompute : (jobs i).compute original with rw [hcompute] at h
    | none =>
      cases h
      exact hinv.goTo rfl rfl fun s _ _ hread => (hphase ▸ hread : Phase.Ok (jobs i) s (.read original)) hcompute
    | some content =>
      dsimp only at h
      split_ifs at h with hlocks <;> cases h
      · exact hinv.goTo rfl rfl fun _ _ _ _ => hcompute
      · exact hinv.goTo rfl rfl fun _ _ _ _ => hcompute
  | waiting original content =>
    dsimp only at h
    split_ifs at h with hlock
    cases h
    exact hinv.goTo rfl rfl fun s _ _ hwait => (hphase ▸ hwait : Phase.Ok (jobs i) s (.waiting original content))
  | ready original content =>
    cases h
    exact hinv.goTo rfl rfl fun s _ _ hready => (hphase ▸ hready : Phase.Ok (jobs i) s (.ready original content))
  | written original content =>
    rw [(hok.2 original content hphase).2] at h
    cases h
    exact hinv.rename hc hok hphase
  | leaving =>
    cases h
    exact hinv.goTo rfl rfl fun s _ _ hleave => (hphase ▸ hleave : Phase.Ok (jobs i) s .leaving)
  | done => cases h

omit [DecidableEq ι] in
theorem inv_start {file : Option (List Char)} (hfile : file.getD [] = s₀.text) (hquiet : s₀.Quiet)
    (hnodup : (s₀.blocks.map Block.delim).Nodup) : Inv jobs s₀ (start file) :=
  ⟨s₀, hfile, ⟨hquiet, hnodup, rfl, fun _ hb => .inl hb⟩, fun _ => trivial⟩

end World

/-- A block that is not there has no begin marker in the file. -/
theorem not_occurs_of_fulfilled {s : Sheet} {tag : String} (htag : TagChars tag) (h : (Job.uninstall tag).Fulfilled s) :
    ¬ Occurs (beginMarker tag) s.text :=
  not_occurs_render s.laid.plain htag fun _ hp => h _ (List.mem_map_of_mem hp)

variable [DecidableEq ι]

/-- **No hint is lost** in a run each of whose renames puts a process's own edit
over the text that it read, and whose sweeps spare the installed tags: once
all processes are done the hints are as they were asked for. -/
theorem mounts_keep_hints {jobs : ι → Job} {s₀ : Sheet} {file : Option (List Char)} {w : World ι} (hc : Compatible jobs)
    (hfile : file.getD [] = s₀.text) (hquiet : s₀.Quiet) (hnodup : (s₀.blocks.map Block.delim).Nodup)
    (hrun : Trans.Reach (World.step jobs) (Undisturbed jobs) (World.start file) w) (hdone : ∀ i, w.phase i = .done) :
    HintsKept jobs s₀ w.text := by
  have hinv : World.Inv jobs s₀ w := hrun.inv (World.inv_start hfile hquiet hnodup)
    fun _ _ _ hs ha hst => World.inv_step hc ha hs hst
  obtain ⟨s, hs, hk, hall⟩ := hinv
  have hfull (i : ι) : (jobs i).Fulfilled s := by
    have := hall i
    rwa [hdone i] at this
  refine ⟨s, hs, hk.userText, fun i tag pathStr hi => ?_, fun i tag hi => ?_, hk.origin⟩
  · have := hfull i
    rw [hi] at this
    obtain ⟨b, hb, rfl, hbody⟩ := this
    rw [hs, ← hbody]
    exact infix_render hb _
  · have := hfull i
    rw [hi] at this
    rw [hs]
    exact not_occurs_of_fulfilled (tagChars_of_validateTag (hc.uninstall_ok hi)) this

/-! ### A mount that is let alone -/

section Alone

variable {jobs : ι → Job} {ok : World ι → ι → Prop} {w : World ι} {i : ι} {tag pathStr : String}
  {original content : List Char}

/-- It reads the file and comes to wait for the lock. -/
theorem reads_alone (hjob : jobs i = .install tag pathStr) (hstart : w.phase i = .start)
    (hcontent : (jobs i).compute w.text = some content) (hok : ∀ v, (∀ o c, v.phase i ≠ .written o c) → ok v i) :
    Trans.Reach (World.step jobs) ok w (w.goTo i (.waiting w.text content)) := by
  have hread : World.step jobs w i = some (w.goTo i (.read w.text)) := by
    rw [World.step, hstart, hjob]
    rfl
  have hwaits : World.step jobs (w.goTo i (.read w.text)) i = some (w.goTo i (.waiting w.text content)) := by
    rw [World.step]
    simp only [World.goTo, Function.update_self, hcontent]
    rw [hjob]
    simp [Job.locks]
  refine (Trans.Reach.start.next (hok w fun o c h => ?_) hread).next (hok _ fun o c h => ?_) hwaits
  · rw [hstart] at h
    cases h
  · simp [World.goTo] at h

/-- With the lock free it puts its text over the file. -/
theorem puts_alone (hwaits : w.phase i = .waiting original content) (hlock : w.lock = none)
    (hok : ∀ v, (∀ o c, v.phase i = .written o c → v.file = w.file ∧ o = original ∧ v.tmp = some c) → ok v i) :
    Trans.Reach (World.step jobs) ok w ⟨some content, none, none, Function.update w.phase i .done⟩ := by
  let ready : World ι := { w.goTo i (.ready original content) with lock := some i }
  let written : World ι := { ready.goTo i (.written original content) with tmp := some content }
  let leaving : World ι := { written.goTo i .leaving with file := some content, tmp := none }
  have h1 : World.step jobs w i = some ready := by
    rw [World.step, hwaits]
    simp [hlock, ready]
  have h2 : World.step jobs ready i = some written := by
    simp [World.step, World.goTo, ready, written]
  have h3 : World.step jobs written i = some leaving := by
    simp [World.step, World.goTo, written, leaving]
  have h4 : World.step jobs leaving i = some ⟨some content, none, none, Function.update w.phase i .done⟩ := by
    simp [World.step, World.goTo, ready, written, leaving, Function.update_idem]
  have quiet {v : World ι} (h : ∀ o c, v.phase i ≠ .written o c) : ok v i := hok v fun o c he => absurd he (h o c)
  refine (((Trans.Reach.start.next (quiet fun o c => ?_) h1).next (quiet fun o c => ?_) h2).next
    (hok written fun o c h => ?_) h3).next (quiet fun o c => ?_) h4
  · rw [hwaits]
    simp
  · simp [ready, World.goTo]
  · simp only [written, ready, World.goTo, Function.update_self, Phase.written.injEq] at h
    obtain ⟨rfl, rfl⟩ := h
    exact ⟨rfl, rfl, rfl⟩
  · simp [leaving, World.goTo]

/-- It ends, whether there is something to write or not. -/
theorem ends_alone (hjob : jobs i = .install tag pathStr) (hstart : w.phase i = .start) (hlock : w.lock = none)
    (hok : ∀ v, (∀ o c, v.phase i = .written o c → v.text = o ∧ v.tmp = some c) → ok v i) :
    ∃ v, Trans.Reach (World.step jobs) ok w v ∧ v.phase = Function.update w.phase i .done ∧ v.lock = none := by
  cases hcontent : (jobs i).compute w.text with
  | none =>
    have hread : World.step jobs w i = some (w.goTo i (.read w.text)) := by
      rw [World.step, hstart, hjob]
      rfl
    have hdone : World.step jobs (w.goTo i (.read w.text)) i = some ((w.goTo i (.read w.text)).goTo i .done) := by
      rw [World.step]
      simp only [World.goTo, Function.update_self, hcontent]
    refine ⟨_, (Trans.Reach.start.next (hok w fun o c h => ?_) hread).next (hok _ fun o c h => ?_) hdone, ?_, hlock⟩
    · rw [hstart] at h
      cases h
    · simp [World.goTo] at h
    · exact Function.update_idem _ _ _
  | some content =>
    have hreads : Trans.Reach (World.step jobs) ok w (w.goTo i (.waiting w.text content)) :=
      reads_alone hjob hstart hcontent fun v h => hok v fun o c he => absurd he (h o c)
    have hwaits : (w.goTo i (.waiting w.text content)).phase i = .waiting w.text content := Function.update_self ..
    refine ⟨_, hreads.trans (puts_alone hwaits hlock fun v h => hok v fun o c he => ?_), Function.update_idem _ _ _, rfl⟩
    obtain ⟨hfile, rfl, htmp⟩ := h o c he
    exact ⟨congrArg (·.getD []) hfile, htmp⟩

/-- Into a text that is empty the block is written as it is. -/
theorem compute_nothing (tag pathStr : String) :
    (Job.install tag pathStr).compute [] = some (renderBlock tag pathStr) := by
  have hmarker : beginMarker tag ≠ [] := by
    intro h
    exact absurd (List.append_eq_nil_iff.mp (List.append_eq_nil_iff.mp h).1).1 (by decide)
  have hfind : find (beginMarker tag) [] = none := find_eq_none_iff.mpr (not_occurs_nil hmarker)
  have hstrip : stripBlock [] tag = [] := by
    unfold stripBlock
    rw [hfind]
  have hne : renderBlock tag pathStr ≠ [] := by simp [renderBlock]
  rw [Job.compute, writeBlock, hstrip]
  simp [trimEnd, hne]

end Alone

/-- Two mounts at once. -/
private def twoMounts : Bool → Job
  | true => .install "a" "/a"
  | false => .install "b" "/b"

theorem twoMounts_compatible : Compatible twoMounts := by
  refine ⟨?_, ?_, ?_, ?_⟩
  · rintro (_ | _) tag pathStr ⟨⟩ <;> exact ⟨by decide, by decide⟩
  · rintro (_ | _) tag ⟨⟩
  · rintro (_ | _) (_ | _) tag pathStr tag' pathStr' ⟨⟩ ⟨⟩ hne
    · exact absurd rfl hne
    · decide
    · decide
    · exact absurd rfl hne
  · rintro i (_ | _) tag pathStr tag' - ⟨⟩

/-- One mount after the other. -/
theorem mounts_keep_hints_serial : ∃ w, Trans.Reach (World.step twoMounts) (Undisturbed twoMounts) (World.start none) w ∧
    HintsKept twoMounts Sheet.empty w.text := by
  have hturn : ∀ i (v : World Bool), (∀ o c, v.phase i = .written o c → v.text = o ∧ v.tmp = some c) →
      Undisturbed twoMounts v i := by
    intro i v h
    refine ⟨fun alive keepTag hi => ?_, fun o c => h o c⟩
    cases i <;> cases hi
  obtain ⟨v, hv, hvphase, hvlock⟩ : ∃ v, Trans.Reach (World.step twoMounts) (Undisturbed twoMounts) (World.start none) v ∧
      v.phase = Function.update (fun _ => .start) true .done ∧ v.lock = none :=
    ends_alone (i := true) rfl rfl rfl (hturn true)
  obtain ⟨w, hw, hwphase, -⟩ := ends_alone (show twoMounts false = .install "b" "/b" from rfl) (by rw [hvphase]; rfl) hvlock (hturn false)
  refine ⟨w, hv.trans hw, mounts_keep_hints twoMounts_compatible rfl ?_ List.nodup_nil (hv.trans hw) ?_⟩
  · exact ⟨not_occurs_nil (by decide), fun p hp => by cases hp⟩
  · rintro (_ | _) <;> rw [hwphase, hvphase] <;> rfl

/-- Both mounts read the file before either renames, and the hint of the first is lost. -/
theorem hint_lost : Compatible twoMounts ∧ ∃ w, Trans.Reach (World.step twoMounts) Trans.anyStep (World.start none) w ∧
    (∀ i, w.phase i = .done) ∧ ¬ HintsKept twoMounts Sheet.empty w.text := by
  refine ⟨twoMounts_compatible, ?_⟩
  have hok : ∀ (v : World Bool) (i : Bool), Trans.anyStep v i := fun _ _ => trivial
  obtain ⟨w₁, hw₁, hrun₁⟩ : ∃ w, w = (World.start none).goTo true (.waiting [] (renderBlock "a" "/a")) ∧
      Trans.Reach (World.step twoMounts) Trans.anyStep (World.start none) w :=
    ⟨_, rfl, reads_alone (show twoMounts true = .install "a" "/a" from rfl) rfl (compute_nothing "a" "/a")
      fun v _ => hok v true⟩
  obtain ⟨w₂, hw₂, hrun₂⟩ : ∃ w, w = w₁.goTo false (.waiting [] (renderBlock "b" "/b")) ∧
      Trans.Reach (World.step twoMounts) Trans.anyStep w₁ w := by
    subst hw₁
    exact ⟨_, rfl, reads_alone (show twoMounts false = .install "b" "/b" from rfl) rfl (compute_nothing "b" "/b")
      fun v _ => hok v false⟩
  subst hw₁ hw₂
  have hrun₃ := (hrun₁.trans hrun₂).trans (puts_alone (i := true) rfl rfl fun v _ => hok v true)
  have hrun₄ := hrun₃.trans (puts_alone (i := false) rfl rfl fun v _ => hok v false)
  refine ⟨_, hrun₄, fun i => by cases i <;> rfl, ?_⟩
  rintro ⟨s, -, -, hthere, -⟩
  have hinfix := occurs_iff_within.mpr (hthere true "a" "/a" rfl)
  have hfind : find (beginMarker "a") (renderBlock "b" "/b") = none :=
    @of_texts (fun intro usage advice scope => find (beginMarker "a") (beginMarker "b" ++
      (intro ++ "/b".toList ++ (usage ++ "/b".toList) ++ (advice ++ "/b".toList) ++ scope ++
        (endMarker "b" ++ ['\n']))) = none) _ _ _ _ _ _ _ (by decide +kernel)
  exact find_eq_none_iff.mp hfind hinfix.of_append

end Hint
end Smfs
