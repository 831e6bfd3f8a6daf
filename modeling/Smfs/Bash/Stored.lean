/-
# The client's volume keeps what is written

On paths that may be written, none of them below another, and as long as the
requests are answered, the documents of the client's volume are files: a read
gives what the document holds, and a write leaves the text and nothing else
changed. What carries it is that the index has the document of each such path
and that the cache holds no other text of it (`Serves`).

Key definitions: `fileText`, `Writable`, `Serves`.
Key theorems: `Serves.read`, `Serves.write`, `client_stores`.
-/
import Smfs.Bash.Authority
import Smfs.Bash.Held
import Smfs.Bash.Image
import Smfs.Bash.Redirects

namespace Smfs.Bash.Shell

open Turns Authority Shape

/-- What the document of a path holds. -/
def fileText (w : World) : Files := fun p =>
  (w.server.docs.find? fun d => d.filepath = some p).map fun d => d.content.getD ""

/-- Paths that may be written, none below another. -/
structure Writable (P : String → Prop) : Prop where
  shape : ∀ p, P p → python.checkFilepath p = none ∧ isReservedFilepath p = false
  apart : ∀ p q, P p → P q → ¬ Below p q

/-- The documents at these paths are indexed, they are processed, and the cache
holds no other text of them. -/
structure Serves (P : String → Prop) (w : World) : Prop where
  fates : w.fates = []
  known : Known w
  indexed : ∀ d ∈ w.server.docs, ∀ p, P p → d.filepath = some p → w.index.resolve p = some d.id
  stands : ∀ p, P p → w.index.isFile p = true → Stands w.server p
  whole : ∀ d ∈ w.server.docs, ∀ p, P p → d.filepath = some p → d.docStatus ≠ .failed
  cached : ∀ x ∈ w.cache.entries, P x.1 → ∀ d ∈ w.server.docs, d.filepath = some x.1 →
    x.2.content = .text (d.content.getD "")
  apart : ∀ p, P p → ∀ q, w.index.isFile q = true → ¬ Below q p ∧ ¬ Below p q

variable {P : String → Prop} {w t : World} {d : Memory} {p c : String}

theorem fileText_some (h : Distinct w.server) (hd : d ∈ w.server.docs) (hp : d.filepath = some p) :
    fileText w p = some (d.content.getD "") := by
  unfold fileText
  cases hf : w.server.docs.find? fun d => d.filepath = some p with
  | none => exact absurd hp (by simpa using List.find?_eq_none.mp hf d hd)
  | some e =>
    have hmem : e ∈ w.server.docs := List.mem_of_find?_eq_some hf
    have he : e.filepath = some p := by simpa using List.find?_some hf
    rw [h.same hmem hd he hp]
    rfl

theorem fileText_none (h : ¬ Stands w.server p) : fileText w p = none := by
  unfold fileText
  rw [Option.map_eq_none_iff, List.find?_eq_none]
  intro d hd hp
  exact h ⟨d, hd, by simpa using hp⟩

theorem Writable.rooted (h : Writable P) (hp : P p) : Rooted p := strict_python p (h.shape p hp).1

theorem found_none (hslash : endsWithSlash p = false) (h : found p (w.server.list (exactly p true)) = none) :
    ¬ Stands w.server p := by
  rintro ⟨d, hd, hp⟩
  have hmem : d ∈ w.server.docs.filter (Container.listed (some p)) :=
    List.mem_filter.mpr ⟨hd, (listed_exactly hslash).mpr hp⟩
  unfold found at h
  rw [memories_head] at h
  cases hl : w.server.docs.filter (Container.listed (some p)) with
  | nil =>
    rw [hl] at hmem
    exact (List.not_mem_nil hmem).elim
  | cons x rest =>
    have hx : x ∈ w.server.docs.filter (Container.listed (some p)) := hl ▸ List.mem_cons_self
    have hfp : x.filepath = some p := (listed_exactly hslash).mp (List.mem_filter.mp hx).2
    rw [hl] at h
    simp [hfp] at h

theorem fileText_congr (h : t.server = w.server) : fileText t = fileText w := by
  unfold fileText
  rw [h]

namespace Serves

/-- A read changes no more than what is held of the path, as the server has it. -/
theorem kept (h : Serves P w) (hserver : t.server = w.server) (hfates : t.fates = [])
    (hindex : ∀ q, t.index.resolve q = w.index.resolve q ∨ t.index.resolve q = none ∧ ¬ Stands w.server q)
    (hcache : ∀ x ∈ t.cache.entries, x ∈ w.cache.entries ∨
      ∀ d ∈ w.server.docs, d.filepath = some x.1 → x.2.content = .text (d.content.getD "")) : Serves P t := by
  have hfile : ∀ q, t.index.isFile q = true → w.index.isFile q = true := by
    intro q hq
    unfold PathIndex.isFile at hq ⊢
    rcases hindex q with he | ⟨he, -⟩
    · rwa [← he]
    · rw [he] at hq
      cases hq
  refine ⟨hfates, h.known.fewer (hserver ▸ List.Sublist.refl _) fun q id hq => ?_, fun d hd q hP hq => ?_,
    fun q hP hq => hserver ▸ h.stands q hP (hfile q hq), hserver ▸ h.whole, fun x hx hP d hd hq => ?_,
    fun q hP q' hq' => h.apart q hP q' (hfile q' hq')⟩
  · rcases hindex q with he | ⟨he, -⟩
    · rwa [← he]
    · rw [he] at hq
      cases hq
  · rw [hserver] at hd
    rcases hindex q with he | ⟨-, hnone⟩
    · rw [he]
      exact h.indexed d hd q hP hq
    · exact absurd ⟨d, hd, hq⟩ hnone
  · rw [hserver] at hd
    rcases hcache x hx with hx | hx
    · exact h.cached x hx hP d hd hq
    · exact hx d hd hq

/-- **A read gives what the document holds.** -/
theorem read (hP : Writable P) (h : Serves P w) (hp : P p) (time : ℤ) :
    ∃ found v, (client time).getDoc p w = (.ok found, v) ∧
      (match found with
        | none => fileText w p = none
        | some content => ∃ c, decoded content = .ok c ∧ fileText w p = some c) ∧ Serves P v ∧
        fileText v = fileText w := by
  have hslash : endsWithSlash p = false := (hP.rooted hp).named
  have hget : Py.getDoc p = python.getDoc p := Py.getDoc_unreserved (hP.shape p hp).2
  unfold client readContent
  simp only [hget, eval_bind]
  cases hh : hit w p with
  | some e =>
    obtain ⟨id, entry⟩ := e
    rw [Dialect.eval_getDoc_hit hh]
    obtain ⟨e', hentry, hmap⟩ := Option.bind_eq_some_iff.mp hh
    obtain ⟨i, hi, he⟩ := Option.map_eq_some_iff.mp hmap
    obtain ⟨rfl, rfl⟩ : i = id ∧ e' = entry := Prod.mk.inj he
    have hfile : w.index.isFile p = true := by
      rw [PathIndex.isFile, (resolve_of_truthy hi).1]
      rfl
    obtain ⟨d, hd, hdp⟩ := h.stands p hp hfile
    obtain ⟨x, hx, hxp, hxe⟩ := SessionCache.get_mem hentry
    have hcontent : x.2.content = .text (d.content.getD "") := h.cached x hx (hxp ▸ hp) d hd (hxp ▸ hdp)
    have htext : e'.content = .text (d.content.getD "") := by rw [← hcontent, ← hxe]
    refine ⟨some e'.content, w.looked p, rfl, ?_, ?_, fileText_congr rfl⟩
    · rw [htext]
      exact ⟨_, rfl, fileText_some h.known.distinct hd hdp⟩
    · exact h.kept rfl h.fates (fun _ => .inl rfl) fun y hy => .inl (SessionCache.mem_get hy)
  | none =>
    have hsent : (w.looked p).send (listCall (exactly p true)) =
        (.ok (w.server.list (exactly p true)), { w.looked p with fates := [] }) := send_nil (w := w.looked p) h.fates _
    rw [Dialect.eval_getDoc_miss hh, hsent]
    simp only
    cases hf : found p (w.server.list (exactly p true)) with
    | none =>
      have hnone : ¬ Stands w.server p := found_none hslash hf
      refine ⟨none, _, rfl, fileText_none hnone, ?_, fileText_congr rfl⟩
      refine h.kept rfl rfl (fun q => ?_) fun x hx => .inl (SessionCache.mem_get (SessionCache.mem_delete hx).2)
      change (w.index.remove p).resolve q = _ ∨ (w.index.remove p).resolve q = _ ∧ _
      rw [PathIndex.resolve_remove]
      split_ifs with hq
      · exact .inr ⟨rfl, hq ▸ hnone⟩
      · exact .inl rfl
    | some m =>
      obtain ⟨hm, hmp⟩ := found_some hf
      have hwhole : m.docStatus ≠ .failed := h.whole m hm p hp hmp
      have hresult : m.result.content = .text (m.content.getD "") := by
        unfold Memory.result
        split
        · exact absurd ‹_› hwhole
        · rfl
      refine ⟨some m.result.content, _, rfl, ?_, ?_, fileText_congr rfl⟩
      · rw [hresult]
        exact ⟨_, rfl, fileText_some h.known.distinct hm hmp⟩
      · refine h.kept rfl rfl (fun q => .inl ?_) fun x hx => ?_
        · change (if m.id = "" then w.index else w.index.insert p m.id).resolve q = _
          rw [if_neg (h.known.named m hm), PathIndex.resolve_insert]
          split_ifs with hq
          · rw [hq, h.indexed m hm p hp hmp]
          · rfl
        · rcases SessionCache.mem_set hx with ⟨hxp, hentry⟩ | ⟨-, hx⟩
          · refine .inr fun d hd hdp => ?_
            have hcontent : x.2.content = m.result.content := congrArg CachedEntry.content hentry
            rw [hcontent, hresult, h.known.distinct.same hd hm hdp (hxp ▸ hmp)]
          · exact .inl (SessionCache.mem_get hx)

/-- The server after a write at the path: its document holds the text, and the
others are as before. -/
structure Wrote (s s' : Container) (p id c : String) : Prop where
  docs : ∀ d ∈ s'.docs, (d.filepath = some p ∧ d.id = id ∧ d.content = some c ∧ d.status = some queued) ∨
    d ∈ s.docs ∧ d.filepath ≠ some p
  written : Stands s' p
  others : ∀ d ∈ s.docs, d.filepath ≠ some p → d ∈ s'.docs

/-- The client after a write. -/
theorem wrote (status : DocStatus) (hP : Writable P) (h : Serves P w) (hp : P p) {s : Container} {id : String}
    (hs : Wrote w.server s p id c) (hknown : Known { w with server := s }) :
    let t : World := { w with server := s }.keep p id (.text c) status
    Serves P t ∧ fileText t = Function.update (fileText w) p (some c) := by
  have hat : ∀ d ∈ s.docs, d.filepath = some p → d.id = id ∧ d.content = some c ∧ d.status = some queued := by
    intro d hd hdp
    rcases hs.docs d hd with ⟨-, hrest⟩ | ⟨-, hne⟩
    · exact hrest
    · exact absurd hdp hne
  have hold : ∀ d ∈ s.docs, ∀ q, q ≠ p → d.filepath = some q → d ∈ w.server.docs := by
    intro d hd q hq hdq
    rcases hs.docs d hd with ⟨hdp, -⟩ | ⟨hd, -⟩
    · exact absurd (Option.some.inj (hdq.symm.trans hdp)) hq
    · exact hd
  have hnew : ∀ q, q ≠ p → Stands w.server q → Stands s q := by
    rintro q hq ⟨d, hd, hdq⟩
    exact ⟨d, hs.others d hd fun hdp => hq (Option.some.inj (hdq.symm.trans hdp)), hdq⟩
  have hresolve : ∀ q, (w.index.insert p id).resolve q = if q = p then some id else w.index.resolve q :=
    fun q => PathIndex.resolve_insert
  intro t
  have hindexed : Known t := hknown.insert (t := t) (fun d hd hdp => (hat d hd hdp).1) rfl rfl
  refine ⟨⟨h.fates, hindexed, fun d hd q hPq hdq => ?_, fun q hPq hq => ?_, fun d hd q hPq hdq => ?_,
    fun x hx hPx d hd hdx => ?_, fun q hPq q' hq' => ?_⟩, ?_⟩
  · rw [show t.index.resolve q = _ from hresolve q]
    split_ifs with hq
    · rw [(hat d hd (hq ▸ hdq)).1]
    · exact h.indexed d (hold d hd q hq hdq) q hPq hdq
  · by_cases he : q = p
    · exact he ▸ hs.written
    · exact hnew q he (h.stands q hPq ((isFile_insert.mp hq).resolve_left he))
  · by_cases he : q = p
    · unfold Memory.docStatus
      rw [(hat d hd (he ▸ hdq)).2.2]
      decide
    · exact h.whole d (hold d hd q he hdq) q hPq hdq
  · rcases SessionCache.mem_set hx with ⟨hxp, hentry⟩ | ⟨hxp, hx⟩
    · rw [(hat d hd (hxp ▸ hdx)).2.1]
      exact congrArg CachedEntry.content hentry
    · exact h.cached x hx hPx d (hold d hd x.1 hxp hdx) hdx
  · rcases isFile_insert.mp hq' with rfl | hq'
    · exact ⟨hP.apart q' q hp hPq, hP.apart q q' hPq hp⟩
    · exact h.apart q hPq q' hq'
  · funext q
    rw [Function.update_apply]
    split_ifs with hq
    · obtain ⟨d, hd, hdp⟩ := hs.written
      rw [hq, fileText_some (w := t) hindexed.distinct hd hdp, (hat d hd hdp).2.1]
      rfl
    · by_cases hst : Stands w.server q
      · obtain ⟨d, hd, hdq⟩ := hst
        have hd' : d ∈ t.server.docs := hs.others d hd fun hdp => hq (Option.some.inj (hdq.symm.trans hdp))
        rw [fileText_some h.known.distinct hd hdq, fileText_some (w := t) hindexed.distinct hd' hdq]
      · have hst' : ¬ Stands t.server q := fun ⟨d, hd, hdq⟩ => hst ⟨d, hold d hd q hq hdq, hdq⟩
        rw [fileText_none hst, fileText_none hst']

/-- The request of a write. -/
theorem call_wrote (h : Serves P w) (hp : P p) (c : String) :
    ∃ m s, writeCall (truthy (w.index.resolve p)) p c [] w.server = (.ok m, s) ∧ Wrote w.server s p m.id c ∧
      Known { w with server := s } := by
  cases hr : truthy (w.index.resolve p) with
  | some id =>
    have hfile : w.index.isFile p = true := by
      rw [PathIndex.isFile, (resolve_of_truthy hr).1]
      rfl
    obtain ⟨d, hd, hdp⟩ := h.stands p hp hfile
    have hid : d.id = id := h.known.agree p id hr d hd hdp
    have hone : ∀ e ∈ w.server.docs, e.id = id → e = d := by
      intro e he hei
      exact Option.some.inj ((Table.get_of_mem h.known.ids he).symm.trans
        ((congrArg w.server.get (hei.trans hid.symm)).trans (Table.get_of_mem h.known.ids hd)))
    rcases Container.update_cases w.server id (some c) p with ⟨-, -, hnone⟩ | ⟨m, hok, hmid, hdocs⟩
    · have hsome : (w.server.get id).isSome = true := hid ▸ Table.get_isSome_of_mem hd
      rw [hnone] at hsome
      cases hsome
    · refine ⟨m, (w.server.update id (some c) p).2, Prod.ext hok rfl, ⟨fun e he => ?_, ?_, fun e he hep => ?_⟩, ?_⟩
      · rw [hdocs] at he
        obtain ⟨e', he', rfl⟩ := mem_modify he
        by_cases hei : e'.id = id
        · rw [if_pos hei, hmid]
          exact .inl ⟨hone e' he' hei ▸ hdp, hei, rfl, rfl⟩
        · rw [if_neg hei]
          exact .inr ⟨he', fun hep => hei (h.known.agree p id hr e' he' hep)⟩
      · refine ⟨{ d with content := some c, status := some queued }, ?_, hdp⟩
        rw [hdocs]
        exact List.mem_map.mpr ⟨d, hd, if_pos hid⟩
      · rw [hdocs]
        have hei : e.id ≠ id := fun hei => hep (hone e he hei ▸ hdp)
        exact List.mem_map.mpr ⟨e, he, if_neg hei⟩
      · exact h.known.rewritten (f := fun d => { d with content := some c, status := some queued }) (fun _ => rfl)
          (fun _ => rfl) hdocs rfl
  | none =>
    have hfree : ¬ Stands w.server p := by
      rintro ⟨d, hd, hdp⟩
      rw [h.indexed d hd p hp hdp, truthy_some.mpr (h.known.named d hd)] at hr
      cases hr
    refine ⟨(w.server.add p c).1, (w.server.add p c).2, rfl, ⟨fun e he => ?_, ?_, fun e he _ => ?_⟩, ?_⟩
    · rcases List.mem_append.mp he with he | he
      · exact .inr ⟨he, fun hep => hfree ⟨e, he, hep⟩⟩
      · rw [List.mem_singleton.mp he]
        exact .inl ⟨rfl, rfl, rfl, rfl⟩
    · exact ⟨_, List.mem_append_right _ (List.mem_singleton_self _), rfl⟩
    · exact List.mem_append_left _ he
    · exact h.known.added hfree hr rfl rfl

/-- **A write leaves the text, and nothing else changes.** -/
theorem write (hP : Writable P) (h : Serves P w) (hp : P p) (time : ℤ) (c : String) :
    ∃ v, (client time).addDoc p c w = (.ok (), v) ∧ Serves P v ∧
      fileText v = Function.update (fileText w) p (some c) := by
  obtain ⟨hshape, hreserved⟩ := hP.shape p hp
  have hallowed : python.assertWritable w.index p .addDoc = none :=
    Dialect.assertWritable_none hshape hreserved (hP.rooted hp) (h.apart p hp)
  obtain ⟨m, s, hcall, hs, hknown⟩ := h.call_wrote hp c
  have hsent : w.send (writeCall (truthy (w.index.resolve p)) p c) = (.ok m, { w with server := s, fates := [] }) := by
    rw [send_nil w h.fates, hcall]
  have hafter := wrote (normalizeStatus (m.status.getD "unknown")) hP h hp hs hknown
  refine ⟨_, ?_, hafter⟩
  unfold client writeText Dialect.addDoc
  simp only [eval_bind, eval_look, andThen_ok, hallowed, eval_request, hsent, eval_sync, eval_pure, fsPart]
  rw [h.fates]

end Serves

/-- **The client's volume is one of files.** -/
theorem client_stores (hP : Writable P) (time : ℤ) : Stores (client time) P fileText (Serves P) :=
  ⟨fun _ _ h hp => h.read hP hp time, fun _ _ c h hp => h.write hP hp time c⟩

/-! ### Two targets -/

def literal (value : String) : WordNode := .mk [.literal value]

/-- `echo hi`, with its output written to these files. -/
def echoTo (paths : List String) : SimpleCommandNode :=
  ⟨[], some (literal "echo"), [literal "hi"], paths.map fun p => ⟨none, .output, .word (literal p)⟩⟩

/-- A client of an empty server. -/
def emptyShell : State World := ⟨⟨.empty, .new, .new none none fun _ => 0, []⟩, "/", fun _ => none, 0⟩

theorem emptyShell_serves (P : String → Prop) : Serves P emptyShell.volume where
  fates := rfl
  known := ⟨List.Pairwise.nil, by simp [emptyShell, Container.empty], by simp [emptyShell, Container.empty],
    fun _ _ h => (nomatch h)⟩
  indexed := by simp [emptyShell, Container.empty]
  stands := fun _ _ h => (nomatch h)
  whole := by simp [emptyShell, Container.empty]
  cached := fun _ h => (nomatch h)
  apart := fun _ _ _ h => (nomatch h)

theorem redirections_one : ∃ result t,
    eval (execCommand (client 0) plainBuiltins (.simple (echoTo ["/a.md"])) "") emptyShell = (.ok result, t) ∧
    ShellRule [⟨false, true, "/a.md"⟩] { stdout := "hi\n" } result (fileText emptyShell.volume)
      (fileText t.volume) := by
  have hwritable : Writable (· = "/a.md") := by
    refine ⟨fun p hp => hp ▸ by decide, fun p q hp hq hb => ?_⟩
    rw [hp, hq] at hb
    unfold Below at hb
    exact absurd hb (by decide)
  have hran : Ran plainBuiltins (echoTo ["/a.md"]) "" emptyShell [{ op := .write, path := "/a.md" }]
      { stdout := "hi\n" } true emptyShell :=
    .returned (t := emptyShell) ⟨[], _, rfl, rfl⟩ rfl rfl rfl rfl (.inl rfl)
  refine (redirections_iff (client_stores hwritable 0) hran (emptyShell_serves _) ?_ ?_ ?_ ?_).mpr ?_
  · intro r hr
    rw [List.mem_singleton.mp hr]
    exact ⟨by decide, rfl, .inl rfl, "/a.md", rfl, by decide⟩
  · intro r hr
    rw [List.mem_singleton.mp hr]
    decide
  · intro r hr
    rw [List.mem_singleton.mp hr]
    decide
  · decide
  · intro out
    rw [if_pos rfl]
    cases out
    · rw [Poured, if_pos (show streamsOf { stdout := "hi\n" } false = "" from rfl)]
      intro t ht hout
      rw [List.mem_singleton.mp ht] at hout
      cases hout
    · rw [Poured, if_neg (by decide)]
      decide

/-- **The counterexample.** Of two files the first gets what the last was to get. -/
theorem first_target_taken : ¬ ∃ result t,
    eval (execCommand (client 0) plainBuiltins (.simple (echoTo ["/a.md", "/b.md"])) "") emptyShell = (.ok result, t) ∧
    ShellRule [⟨false, true, "/a.md"⟩, ⟨false, true, "/b.md"⟩] { stdout := "hi\n" } result (fileText emptyShell.volume)
      (fileText t.volume) := by
  rintro ⟨result, t, he, hrule⟩
  have hlast : fileText t.volume "/b.md" = some "hi\n" :=
    (hrule true).1 [⟨false, true, "/a.md"⟩] ⟨false, true, "/b.md"⟩ [] rfl rfl
  have hnone : fileText (eval (execCommand (client 0) plainBuiltins (.simple (echoTo ["/a.md", "/b.md"])) "")
      emptyShell).2.volume "/b.md" = none := by decide +kernel
  rw [he, hlast] at hnone
  cases hnone

end Smfs.Bash.Shell
