/-
# The index is a cache of the server's paths

`updateDoc`, `moveDoc` and `removeDoc` ask the server when the index does not
know a path; `addDoc` and `rm` decide from the index alone. So a write at a
path whose document the index does not know adds a second one, and a forced
`rm` of it reports success and removes nothing. As long as no such call is made
(`Sees`) no two documents have the same path, and what `rm` says it removed is
gone (`authority`); where one is made and the server answers, the law is broken.

Key definitions: `Authority.Start`, `Authority.Act`, `Authority.Known`, `Authority.Sees`, `Authority.Kept`.
Key theorems: `Authority.step_inv`, `Authority.authority`, `Authority.added_twice`.
-/
import Smfs.Lib.Reach
import Smfs.Bash.Fs

namespace Smfs.Bash.Authority

open Turns Trans

/-- No two documents have the same path. -/
def Distinct (s : Container) : Prop := s.docs.Pairwise fun d e => ∀ p, d.filepath = some p → e.filepath ≠ some p

/-- A server with distinct documents at distinct paths, and an index of some of
them. -/
structure Start (w : World) : Prop where
  ids : (w.server.docs.map Memory.id).Nodup
  named : ∀ d ∈ w.server.docs, d.id ≠ ""
  distinct : Distinct w.server
  index : ∀ p id, w.index.resolve p = some id → ∃ d ∈ w.server.docs, d.id = id ∧ d.filepath = some p

/-- The calls. -/
inductive Act
  | addDoc (path : String) (content : Content)
  | writeFile (path : String) (content : Content)
  | updateDoc (path : String) (content : Content)
  | moveDoc (src dest : String)
  | rm (path : String) (options : RmOptions)

def call : Act → Vol Unit
  | .addDoc path content => do let _ ← Bash.addDoc path content
  | .writeFile path content => Bash.writeFile path content
  | .updateDoc path content => do let _ ← Bash.updateDoc path content
  | .moveDoc src dest => Bash.moveDoc src dest
  | .rm path options => Bash.rm path options

/-- A call, whatever it answers. -/
def step (w : World) (a : Act) : Option World := some (eval (call a) w).2

/-- A write at the path would add a document where there is one. -/
def AddsTwice (w : World) (p : String) : Prop :=
  assertWritable w.index p .addDoc = none ∧ truthy (w.index.resolve p) = none ∧ Stands w.server p

/-- An `rm` of the path would pass over its document: it is forced and the path
not indexed, or it takes the path for a directory. -/
def PassesOver (w : World) (p : String) (options : RmOptions) : Prop :=
  isReservedFilepath p = false ∧ Stands w.server p ∧
    if w.index.isDirOnly p then options.recursive = true else options.force = true ∧ truthy (w.index.resolve p) = none

/-- The index knows what the call has to know. -/
def Sees (w : World) : Act → Prop
  | .addDoc path (.text _) => ¬ AddsTwice w path
  | .addDoc _ (.bytes _) => True
  | .writeFile path _ => w.index.isDirOnly (normalizePath path) = false → ¬ AddsTwice w (normalizePath path)
  | .updateDoc _ _ => True
  | .moveDoc _ _ => True
  | .rm path options => ¬ PassesOver w (normalizePath path) options

/-- The call leaves no two documents at one path, and what it says it removed
is gone. -/
def Kept (w : World) (a : Act) : Prop :=
  Distinct (eval (call a) w).2.server ∧
    ∀ path options, a = .rm path options → (eval (call a) w).1 = .ok () →
      ¬ Stands (eval (call a) w).2.server (normalizePath path)

/-! ### What the index may be trusted for -/

/-- Documents at one path are one document, and where the index has an id for
the path, it is that document's. -/
structure Known (w : World) : Prop where
  ids : (w.server.docs.map Memory.id).Nodup
  named : ∀ d ∈ w.server.docs, d.id ≠ ""
  same : ∀ d ∈ w.server.docs, ∀ e ∈ w.server.docs, ∀ p, d.filepath = some p → e.filepath = some p → d.id = e.id
  agree : ∀ p id, truthy (w.index.resolve p) = some id → ∀ d ∈ w.server.docs, d.filepath = some p → d.id = id

variable {w t : World} {s : Container} {d e : Memory} {p q id : String}

theorem resolve_of_truthy (h : truthy (w.index.resolve p) = some id) : w.index.resolve p = some id ∧ id ≠ "" := by
  obtain ⟨hr, hne⟩ := Option.filter_eq_some_iff.mp h
  exact ⟨hr, by simpa using hne⟩

theorem Known.distinct (h : Known w) : Distinct w.server := by
  have hids : w.server.docs.Pairwise fun d e => d.id ≠ e.id := List.pairwise_map.mp h.ids
  exact hids.imp_of_mem fun hd he hne p hp hp' => hne (h.same _ hd _ he p hp hp')

theorem Distinct.same (h : Distinct s) (hd : d ∈ s.docs) (he : e ∈ s.docs) (hp : d.filepath = some p)
    (hp' : e.filepath = some p) : d = e := by
  have hone : s.docs.Pairwise fun d e => ∀ p, d.filepath = some p → e.filepath = some p → d = e :=
    h.imp fun hne p hp hp' => absurd hp' (hne p hp)
  have hflip : s.docs.Pairwise (flip fun d e => ∀ p, d.filepath = some p → e.filepath = some p → d = e) :=
    h.imp fun hne p hp hp' => absurd hp (hne p hp')
  exact List.Pairwise.forall_of_forall_of_flip (fun _ _ _ _ _ => rfl) hone hflip hd he p hp hp'

theorem Start.known (h : Start w) : Known w := by
  refine ⟨h.ids, h.named, fun d hd e he p hp hp' => congrArg Memory.id (h.distinct.same hd he hp hp'),
    fun p id hr d hd hp => ?_⟩
  obtain ⟨e, he, rfl, hfp⟩ := h.index p id (resolve_of_truthy hr).1
  exact congrArg Memory.id (h.distinct.same hd he hp hfp)

/-- Fewer documents, fewer entries. -/
theorem Known.fewer (h : Known w) (hdocs : t.server.docs.Sublist w.server.docs)
    (hindex : ∀ p id, t.index.resolve p = some id → w.index.resolve p = some id) : Known t := by
  refine ⟨h.ids.sublist (hdocs.map _), fun d hd => h.named d (hdocs.subset hd),
    fun d hd e he p => h.same d (hdocs.subset hd) e (hdocs.subset he) p, fun p id hr d hd hp => ?_⟩
  obtain ⟨hres, hne⟩ := resolve_of_truthy hr
  refine h.agree p id ?_ d (hdocs.subset hd) hp
  rw [hindex p id hres]
  exact truthy_some.mpr hne

/-- The document of a path is indexed. -/
theorem Known.insert (h : Known w) (hd : ∀ d ∈ w.server.docs, d.filepath = some p → d.id = id)
    (hserver : t.server = w.server) (hindex : t.index = w.index.insert p id) : Known t := by
  refine ⟨hserver ▸ h.ids, hserver ▸ h.named, hserver ▸ h.same, fun q i hr d hmem hp => ?_⟩
  rw [hserver] at hmem
  rw [hindex, PathIndex.resolve_insert] at hr
  split_ifs at hr with hq
  · obtain ⟨-, hi⟩ := Option.filter_eq_some_iff.mp hr
    have hid : id = i := Option.some.inj (Option.filter_eq_some_iff.mp hr).1
    exact (hd d hmem (hq ▸ hp)).trans hid
  · exact h.agree q i hr d hmem hp

theorem Known.kept (h : Known w) (hserver : t.server = w.server) (hindex : t.index = w.index) : Known t :=
  h.fewer (hserver ▸ List.Sublist.refl _) (hindex ▸ fun _ _ hr => hr)

/-! ### Asking for a path -/

/-- What a lookup of a path leaves and tells. -/
structure LookedUp (w : World) (p : String) (r : Except Thrown (Option String) × World) : Prop where
  known : Known r.2
  server : r.2.server = w.server
  others : ∀ q, q ≠ p → r.2.index.resolve q = w.index.resolve q
  found : ∀ o id, r.1 = .ok o → truthy o = some id → truthy (r.2.index.resolve p) = some id
  absent : ∀ o, r.1 = .ok o → truthy o = none →
    truthy (r.2.index.resolve p) = none ∧ (endsWithSlash p = false → ¬ Stands w.server p)

theorem lookup_spec (h : Known w) (p : String) : LookedUp w p (eval (lookupDocId p) w) := by
  cases hr : truthy (w.index.resolve p) with
  | some id =>
    rw [eval_lookupDocId_known hr]
    refine ⟨h, rfl, fun _ _ => rfl, fun o i ho hi => ?_, fun o ho hnone => ?_⟩
    · cases ho
      obtain rfl := Option.some.inj (Option.filter_eq_some_iff.mp hi).1
      exact hr
    · cases ho
      exact absurd hnone (by rw [truthy_some.mpr (resolve_of_truthy hr).2]; exact Option.some_ne_none _)
  | none =>
    rw [eval_lookupDocId_unknown hr]
    obtain ⟨hindex, -, -⟩ := send_kept w (listCall (exactly p false))
    have hserver := listCall_server w (exactly p false)
    have hanswer := listCall_answer w (exactly p false)
    generalize w.send (listCall (exactly p false)) = r at hindex hserver hanswer
    obtain ⟨answer, t⟩ := r
    have hknown : Known t := h.kept hserver hindex
    cases answer with
    | error e =>
      refine ⟨hknown, hserver, fun q _ => by rw [hindex], fun _ _ ho => ?_, fun _ ho => ?_⟩
      · cases ho
      · cases ho
    | ok resp =>
      obtain rfl := hanswer resp rfl
      dsimp only
      cases hm : named p (w.server.list (exactly p false)) with
      | none =>
        refine ⟨hknown, hserver, fun q _ => by rw [hindex], fun o i ho hi => ?_, fun o ho _ => ?_⟩
        · cases ho
          cases hi
        · exact ⟨by rw [hindex]; exact hr, fun hslash => named_none hslash hm⟩
      | some m =>
        obtain ⟨d, hd, hid, hfp⟩ := named_some hm
        have hdocs : ∀ e ∈ t.server.docs, e.filepath = some p → e.id = m.id := by
          intro e he hp
          rw [hserver] at he
          exact (h.same e he d hd p hp hfp).trans hid
        refine ⟨hknown.insert hdocs rfl rfl, hserver, fun q hq => ?_, fun o i ho hi => ?_, fun o ho hnone => ?_⟩
        · rw [PathIndex.resolve_insert, if_neg hq, hindex]
        · cases ho
          rw [PathIndex.resolve_insert, if_pos rfl]
          exact hi
        · cases ho
          exact absurd hnone (by
            rw [truthy_some.mpr (hid ▸ h.named d hd)]
            exact Option.some_ne_none _)

/-! ### The writes -/

theorem mem_modify {f : Memory → Memory} (h : e ∈ Table.modify Memory.id s.docs id f) :
    ∃ d ∈ s.docs, e = if d.id = id then f d else d := by
  obtain ⟨d, hd, rfl⟩ := List.mem_map.mp h
  exact ⟨d, hd, rfl⟩

/-- A change of content leaves ids and paths. -/
theorem Known.rewritten (h : Known w) {f : Memory → Memory} (hid : ∀ d, (f d).id = d.id)
    (hfp : ∀ d, (f d).filepath = d.filepath) (hdocs : t.server.docs = Table.modify Memory.id w.server.docs id f)
    (hindex : t.index = w.index) : Known t := by
  have hsame : ∀ e ∈ t.server.docs, ∃ d ∈ w.server.docs, d.id = e.id ∧ d.filepath = e.filepath := by
    intro e he
    obtain ⟨d, hd, rfl⟩ := mem_modify (hdocs ▸ he)
    refine ⟨d, hd, ?_⟩
    split_ifs
    · exact ⟨(hid d).symm, (hfp d).symm⟩
    · exact ⟨rfl, rfl⟩
  refine ⟨?_, fun e he => ?_, fun x hx y hy p hp hp' => ?_, fun p i hr e he hp => ?_⟩
  · rw [hdocs, Table.map_modify _ _ _ _ fun r _ => hid r]
    exact h.ids
  · obtain ⟨d, hd, hde, -⟩ := hsame e he
    exact hde ▸ h.named d hd
  · obtain ⟨d, hd, hdx, hdp⟩ := hsame x hx
    obtain ⟨e, he, hey, hep⟩ := hsame y hy
    rw [← hdx, ← hey]
    exact h.same d hd e he p (hdp.trans hp) (hep.trans hp')
  · obtain ⟨d, hd, hde, hdp⟩ := hsame e he
    rw [← hde]
    exact h.agree p i (hindex ▸ hr) d hd (hdp.trans hp)

/-- A document with a new id, at a path where there is none. -/
theorem Known.added (h : Known w) {content : String} (hfree : ¬ Stands w.server p)
    (hr : truthy (w.index.resolve p) = none)
    (hserver : t.server = (w.server.add p content).2) (hindex : t.index = w.index) : Known t := by
  have hdocs : t.server.docs = w.server.docs ++ [(w.server.add p content).1] := congrArg Container.docs hserver
  have hmem : ∀ e ∈ t.server.docs, e ∈ w.server.docs ∨ e.id = w.server.newId ∧ e.filepath = some p := by
    intro e he
    rcases List.mem_append.mp (hdocs ▸ he) with he | he
    · exact .inl he
    · exact .inr (List.mem_singleton.mp he ▸ ⟨rfl, rfl⟩)
  refine ⟨?_, fun e he => ?_, fun x hx y hy q hq hq' => ?_, fun q i hri e he hq => ?_⟩
  · rw [hserver]
    exact Container.nodup_add h.ids
  · rcases hmem e he with he | ⟨he, -⟩
    · exact h.named e he
    · rw [he]
      exact Container.newId_ne w.server
  · rcases hmem x hx with hx | ⟨hx, hxp⟩
    · rcases hmem y hy with hy | ⟨hy, hyp⟩
      · exact h.same x hx y hy q hq hq'
      · exact absurd ⟨x, hx, hq.trans (hq'.symm.trans hyp)⟩ hfree
    · rcases hmem y hy with hy | ⟨hy, hyp⟩
      · exact absurd ⟨y, hy, hq'.trans (hq.symm.trans hxp)⟩ hfree
      · rw [hx, hy]
  · rw [hindex] at hri
    rcases hmem e he with he | ⟨-, hep⟩
    · exact h.agree q i hri e he hq
    · rw [hq] at hep
      cases hep
      rw [hr] at hri
      cases hri

/-- A document goes to a path where there is none. -/
theorem Known.moved (h : Known w) (hfree : ¬ Stands w.server q) (hr : truthy (w.index.resolve q) = none)
    (hdocs : t.server.docs = Table.modify Memory.id w.server.docs id fun d => { d with filepath := some q })
    (hindex : t.index = w.index) : Known t := by
  have hmem : ∀ e ∈ t.server.docs, e ∈ w.server.docs ∨ e.id = id ∧ e.filepath = some q ∧
    ∃ d ∈ w.server.docs, d.id = id := by
    intro e he
    obtain ⟨d, hd, rfl⟩ := mem_modify (hdocs ▸ he)
    split_ifs with hi
    · exact .inr ⟨hi, rfl, d, hd, hi⟩
    · exact .inl hd
  refine ⟨?_, fun e he => ?_, fun x hx y hy p hp hp' => ?_, fun p i hri e he hp => ?_⟩
  · have hids : (Table.modify Memory.id w.server.docs id fun d => { d with filepath := some q }).map Memory.id =
        w.server.docs.map Memory.id := Table.map_modify _ _ _ _ fun _ _ => rfl
    rw [hdocs, hids]
    exact h.ids
  · rcases hmem e he with he | ⟨he, -, d, hd, hid⟩
    · exact h.named e he
    · rw [he, ← hid]
      exact h.named d hd
  · rcases hmem x hx with hx | ⟨hx, hxq, -⟩
    · rcases hmem y hy with hy | ⟨hy, hyq, -⟩
      · exact h.same x hx y hy p hp hp'
      · exact absurd ⟨x, hx, hp.trans (hp'.symm.trans hyq)⟩ hfree
    · rcases hmem y hy with hy | ⟨hy, hyq, -⟩
      · exact absurd ⟨y, hy, hp'.trans (hp.symm.trans hxq)⟩ hfree
      · rw [hx, hy]
  · rw [hindex] at hri
    rcases hmem e he with he | ⟨-, heq, -⟩
    · exact h.agree p i hri e he hp
    · rw [hp] at heq
      cases heq
      rw [hr] at hri
      cases hri

/-- Where a document goes, the other documents do not stand. -/
theorem moved_docs (hfree : ¬ Stands s q)
    (h : e ∈ Table.modify Memory.id s.docs id fun d => { d with filepath := some q })
    (hp : e.filepath = some q) : e.id = id := by
  obtain ⟨d, hd, rfl⟩ := mem_modify h
  split_ifs at hp ⊢ with hi
  · exact hi
  · exact absurd ⟨d, hd, hp⟩ hfree

theorem addDoc_inv (h : Known w) {content : Content} (hs : ∀ data, content = .text data → ¬ AddsTwice w p) :
    Known (eval (addDoc p content) w).2 := by
  cases content with
  | bytes b => exact h
  | text data =>
    rw [eval_addDoc_text]
    cases ha : assertWritable w.index p .addDoc with
    | some e => exact h
    | none =>
      dsimp only
      obtain ⟨hindex, -, -⟩ := send_kept w (writeCall (truthy (w.index.resolve p)) p data)
      have hserver := send_server w (writeCall (truthy (w.index.resolve p)) p data)
      have hanswer := fun a => send_answer w (writeCall (truthy (w.index.resolve p)) p data) a
      generalize w.send (writeCall (truthy (w.index.resolve p)) p data) = r at hindex hserver hanswer
      obtain ⟨answer, t⟩ := r
      dsimp only at hindex hserver hanswer
      -- after the request, and the id that an answer gives
      obtain ⟨hknown, hid⟩ : Known t ∧ ∀ m, answer = .ok m → ∀ d ∈ t.server.docs, d.filepath = some p →
        d.id = m.id := by
        cases hr : truthy (w.index.resolve p) with
        | some id =>
          rw [hr] at hserver hanswer
          have hknown : Known t := by
            rcases hserver with hserver | ⟨stay, hserver⟩
            · exact h.kept hserver hindex
            · rcases Container.update_cases w.server id (some data) p with ⟨-, hsame, -⟩ | ⟨m, -, -, hdocs⟩
              · exact h.kept (hserver.trans hsame) hindex
              · exact h.rewritten (f := fun d => { d with content := some data, status := some queued }) (fun _ => rfl)
                  (fun _ => rfl) ((congrArg Container.docs hserver).trans hdocs) hindex
          refine ⟨hknown, fun m hm d hd hp => ?_⟩
          obtain ⟨stay, hcall⟩ := hanswer m hm
          rcases Container.update_cases w.server id (some data) p with ⟨herr, -, -⟩ | ⟨m', hok, hid, -⟩
          · exact absurd ((congrArg Prod.fst hcall).symm.trans herr) (by simp)
          · have hmm : m = m' := Except.ok.inj ((congrArg Prod.fst hcall).symm.trans hok)
            rw [hmm, hid]
            exact hknown.agree p id (hindex ▸ hr) d hd hp
        | none =>
          rw [hr] at hserver hanswer
          have hfree : ¬ Stands w.server p := fun hst => hs data rfl ⟨ha, hr, hst⟩
          have hknown : Known t := by
            rcases hserver with hserver | ⟨stay, hserver⟩
            · exact h.kept hserver hindex
            · exact h.added hfree hr hserver hindex
          refine ⟨hknown, fun m hm d hd hp => ?_⟩
          obtain ⟨stay, hcall⟩ := hanswer m hm
          have hm : m = (w.server.add p data).1 := (Except.ok.inj (congrArg Prod.fst hcall)).symm
          have hserver' : t.server = (w.server.add p data).2 := (congrArg Prod.snd hcall).symm
          have hmem : m ∈ t.server.docs := by
            rw [hserver', hm]
            exact List.mem_append_right _ (List.mem_singleton_self _)
          exact hknown.same d hd m hmem p hp (hm ▸ rfl)
      cases answer with
      | error e => exact hknown
      | ok m => exact hknown.insert (hid m rfl) rfl rfl

theorem updateDoc_inv (h : Known w) (content : Content) : Known (eval (updateDoc p content) w).2 := by
  unfold updateDoc
  rw [eval_bind]
  have hlook := lookup_spec h p
  generalize eval (lookupDocId p) w = r at hlook
  obtain ⟨answer, t⟩ := r
  cases answer with
  | error e => exact hlook.known
  | ok o =>
    rw [andThen_ok]
    cases ho : truthy o with
    | none => exact hlook.known
    | some id =>
      -- the lookup has put the document into the index
      refine addDoc_inv hlook.known fun data _ hadd => ?_
      have hfound := hlook.found o id rfl ho
      rw [hadd.2.1] at hfound
      cases hfound

theorem Known.drop (h : Known w) (p : String) : Known (w.drop p) := by
  refine h.fewer (List.Sublist.refl _) fun q id hr => ?_
  change (w.index.remove p).resolve q = some id at hr
  rw [PathIndex.resolve_remove] at hr
  split_ifs at hr
  exact hr

theorem Known.relocated (h : Known w) (hdest : ∀ d ∈ w.server.docs, d.filepath = some q → d.id = id) :
    Known (w.relocate p q id) := by
  have hremoved : Known { w with index := w.index.remove p } :=
    (h.drop p).kept rfl rfl
  exact hremoved.insert hdest rfl rfl

/-- The last request of a move, to a path where there is no document. -/
theorem renameDoc_inv {docId src dest : String} (h : Known w) (hfree : ¬ Stands w.server dest)
    (hr : truthy (w.index.resolve dest) = none) : Known (eval (renameDoc docId src dest) w).2 := by
  unfold renameDoc
  rw [eval_bind, eval_request, andThen_ok]
  obtain ⟨hindex, -, -⟩ := send_kept w (renameCall docId dest)
  have hserver := send_server w (renameCall docId dest)
  have hanswer := fun a => send_answer w (renameCall docId dest) a
  generalize w.send (renameCall docId dest) = r at hindex hserver hanswer
  obtain ⟨answer, t⟩ := r
  dsimp only at hindex hserver hanswer
  have hknown : Known t := by
    rcases hserver with hserver | ⟨stay, hserver⟩
    · exact h.kept hserver hindex
    · rcases Container.update_cases w.server docId none dest with ⟨-, hsame, -⟩ | ⟨m, -, -, hdocs⟩
      · exact h.kept (hserver.trans hsame) hindex
      · exact h.moved hfree hr ((congrArg Container.docs hserver).trans hdocs) hindex
  cases answer with
  | error e =>
    dsimp only
    split_ifs
    · exact hknown.drop src
    · exact hknown
    · exact hknown
  | ok m =>
    refine hknown.relocated fun d hd hp => ?_
    obtain ⟨stay, hcall⟩ := hanswer m rfl
    rcases Container.update_cases w.server docId none dest with ⟨herr, -, -⟩ | ⟨-, -, -, hdocs⟩
    · exact absurd ((congrArg Prod.fst hcall).symm.trans herr) (by simp)
    · have hserver : t.server = (w.server.update docId none dest).2 := (congrArg Prod.snd hcall).symm
      rw [hserver, hdocs] at hd
      exact moved_docs hfree hd hp

theorem moveDoc_inv (h : Known w) (src dest : String) : Known (eval (moveDoc src dest) w).2 := by
  unfold moveDoc
  rw [eval_bind, eval_look, andThen_ok]
  cases ha : assertWritable w.index dest .moveDoc with
  | some e => exact h
  | none =>
    dsimp only
    rw [eval_bind]
    have hsrc := lookup_spec h src
    generalize eval (lookupDocId src) w = r₁ at hsrc
    obtain ⟨a₁, w₁⟩ := r₁
    cases a₁ with
    | error e => exact hsrc.known
    | ok o₁ =>
      rw [andThen_ok]
      cases truthy o₁ with
      | none => exact hsrc.known
      | some docId =>
        dsimp only
        rw [eval_bind]
        have hdest := lookup_spec hsrc.known dest
        generalize eval (lookupDocId dest) w₁ = r₂ at hdest
        obtain ⟨a₂, w₂⟩ := r₂
        cases a₂ with
        | error e => exact hdest.known
        | ok o₂ =>
          rw [andThen_ok]
          cases ho : truthy o₂ with
          | some _ => exact hdest.known
          | none =>
            obtain ⟨hr, hfree⟩ := hdest.absent o₂ rfl ho
            have hfree : ¬ Stands w₂.server dest := by
              have hslash := endsWithSlash_of_check (assertWritable_none.mp ha).1
              exact hdest.server.symm ▸ hfree hslash
            exact renameDoc_inv hdest.known hfree hr

/-! ### The removals -/

theorem stands_sublist (h : Stands t.server p) (hdocs : t.server.docs.Sublist w.server.docs) : Stands w.server p := by
  obtain ⟨d, hd, hp⟩ := h
  exact ⟨d, hdocs.subset hd, hp⟩

/-- Of an indexed path: the document goes, or the call fails. -/
theorem removeDoc_inv (h : Known w) (hr : truthy (w.index.resolve p) = some id) :
    Known (eval (removeDoc p) w).2 ∧ ((eval (removeDoc p) w).1 = .ok () → ¬ Stands (eval (removeDoc p) w).2.server p) ∧
      ∀ e, (eval (removeDoc p) w).1 = .error e → isEnoent e = false := by
  rw [eval_removeDoc_known hr]
  obtain ⟨hindex, -, -⟩ := send_kept w (deleteCall id)
  have hserver := send_server w (deleteCall id)
  have hanswer := send_answer w (deleteCall id)
  have hmissing := send_notFound w (deleteCall id)
  generalize w.send (deleteCall id) = r at hindex hserver hanswer hmissing
  obtain ⟨answer, t⟩ := r
  dsimp only at hindex hserver hanswer hmissing
  have hgone : ∀ d ∈ w.server.docs, d.id ≠ id → d.filepath ≠ some p := fun d hd hne hp => hne (h.agree p id hr d hd hp)
  -- a delete either finds the document, or there is none with the id
  have hdelete : ((w.server.delete id).1 = .error notFound ∧ (w.server.delete id).2.docs = w.server.docs ∧
    w.server.get id = none) ∨
      ((w.server.delete id).1 = .ok () ∧ (w.server.delete id).2.docs = Table.erase Memory.id w.server.docs id) := by
    unfold Container.delete
    cases hg : w.server.get id with
    | none => exact .inl ⟨rfl, rfl, rfl⟩
    | some d => exact .inr ⟨rfl, rfl⟩
  have hsub : (w.server.delete id).2.docs.Sublist w.server.docs := by
    rcases hdelete with ⟨-, hd, -⟩ | ⟨-, hd⟩
    · rw [hd]
    · rw [hd]
      exact Table.erase_sublist _ _
  have hknown : Known t := by
    rcases hserver with hserver | ⟨stay, hserver⟩
    · exact h.kept hserver hindex
    · exact h.fewer (hserver ▸ hsub) (hindex ▸ fun _ _ hres => hres)
  cases answer with
  | ok u =>
    refine ⟨hknown.drop p, fun _ => ?_, fun e he => (nomatch he)⟩
    obtain ⟨stay, hcall⟩ := hanswer u rfl
    have hserver : t.server = (w.server.delete id).2 := (congrArg Prod.snd hcall).symm
    rintro ⟨d, hd, hp⟩
    change d ∈ t.server.docs at hd
    rcases hdelete with ⟨herr, -, -⟩ | ⟨-, hdocs⟩
    · exact absurd ((congrArg Prod.fst hcall).symm.trans herr) (by simp)
    · rw [hserver, hdocs] at hd
      obtain ⟨hmem, hne⟩ := Table.mem_erase.mp hd
      exact hgone d hmem hne hp
  | error e =>
    dsimp only
    by_cases h409 : e.status = some 409
    · rw [if_pos h409]
      refine ⟨hknown, fun he => (nomatch he), fun e he => ?_⟩
      cases he
      rfl
    rw [if_neg h409]
    by_cases h404 : e.status = some 404
    · rw [if_pos h404]
      refine ⟨hknown.drop p, fun _ => ?_, fun e he => (nomatch he)⟩
      obtain ⟨stay, hcall⟩ := hmissing e rfl h404
      have hserver : t.server = (w.server.delete id).2 := (congrArg Prod.snd hcall).symm
      rintro ⟨d, hd, hp⟩
      change d ∈ t.server.docs at hd
      rcases hdelete with ⟨-, hdocs, hnone⟩ | ⟨hok, -⟩
      · rw [hserver, hdocs] at hd
        exact hgone d hd (Table.get_none.mp hnone d hd) hp
      · exact absurd ((congrArg Prod.fst hcall).symm.trans hok) (by simp)
    · rw [if_neg h404]
      refine ⟨hknown, fun he => (nomatch he), fun e he => ?_⟩
      cases he
      rfl

theorem deleteBulk_sublist (which : Memory → Bool) (stay : List (String × String)) :
    (s.deleteBulk which stay).2.docs.Sublist s.docs := List.filter_sublist

/-- A prefix loses documents, and the index entries. -/
theorem removeByPrefix_inv (h : Known w) {pre : String} (hpre : pre ≠ "") : Known (eval (removeByPrefix pre) w).2 ∧
    (eval (removeByPrefix pre) w).2.server.docs.Sublist w.server.docs := by
  rw [eval_removeByPrefix hpre]
  obtain ⟨hindex, -, -⟩ := send_kept w (bulkCall (Container.listed (some (withSlash pre))))
  have hserver := send_server w (bulkCall (Container.listed (some (withSlash pre))))
  generalize w.send (bulkCall (Container.listed (some (withSlash pre)))) = r at hindex hserver
  obtain ⟨answer, t⟩ := r
  have hdocs : t.server.docs.Sublist w.server.docs := by
    rcases hserver with hserver | ⟨stay, hserver⟩
    · exact hserver ▸ List.Sublist.refl _
    · exact hserver ▸ deleteBulk_sublist _ _
  have hknown : Known t := h.fewer hdocs (hindex ▸ fun _ _ hres => hres)
  cases answer with
  | error e => exact ⟨hknown, hdocs⟩
  | ok resp =>
    have hsame : (t.withoutPrefix pre).server = t.server := forgetUnder_server.1
    refine ⟨hknown.fewer (hsame ▸ List.Sublist.refl _) fun p id hres => ?_, hsame ▸ hdocs⟩
    rw [withoutPrefix_resolve] at hres
    split_ifs at hres
    exact hres

theorem rm_inv (h : Known w) (path : String) (options : RmOptions) : Known (eval (rm path options) w).2 ∧
    (¬ PassesOver w (normalizePath path) options → (eval (rm path options) w).1 = .ok () →
      ¬ Stands (eval (rm path options) w).2.server (normalizePath path)) := by
  unfold rm
  dsimp only
  generalize normalizePath path = p
  by_cases hres : isReservedFilepath p = true
  · rw [if_pos hres]
    exact ⟨h, fun _ hok => (nomatch hok)⟩
  rw [if_neg hres, eval_bind, eval_look, andThen_ok]
  rw [Bool.not_eq_true] at hres
  by_cases hdir : w.index.isDirOnly p = true
  · rw [if_pos hdir]
    by_cases hrec : options.recursive = true
    · rw [hrec, Bool.not_true, if_neg Bool.false_ne_true, eval_bind]
      obtain ⟨hknown, hdocs⟩ := removeByPrefix_inv h (withSlash_ne p)
      generalize eval (removeByPrefix (withSlash p)) w = r at hknown hdocs
      obtain ⟨answer, t⟩ := r
      cases answer with
      | error e => exact ⟨hknown, fun _ hok => (nomatch hok)⟩
      | ok res =>
        rw [andThen_ok]
        by_cases herr : res.errors.length > 0 ∧ (!options.force) = true
        · rw [if_pos herr]
          exact ⟨hknown, fun _ hok => (nomatch hok)⟩
        · rw [if_neg herr]
          exact ⟨hknown, fun hpass _ hst => hpass ⟨hres, stands_sublist hst hdocs, by rw [if_pos hdir]; exact hrec⟩⟩
    · rw [if_pos (by rw [Bool.not_eq_true] at hrec; rw [hrec]; rfl)]
      exact ⟨h, fun _ hok => (nomatch hok)⟩
  · rw [if_neg hdir, eval_tryCatch, eval_bind, eval_look, andThen_ok]
    cases hr : truthy (w.index.resolve p) with
    | none =>
      dsimp only
      by_cases hforce : options.force = true
      · rw [if_pos hforce]
        exact ⟨h, fun hpass _ hst => hpass ⟨hres, hst, by rw [if_neg hdir]; exact ⟨hforce, hr⟩⟩⟩
      · rw [if_neg hforce, eval_throwFs]
        rw [Bool.not_eq_true] at hforce
        dsimp only
        rw [hforce, Bool.false_and, if_neg Bool.false_ne_true]
        exact ⟨h, fun _ hok => (nomatch hok)⟩
    | some id =>
      dsimp only
      obtain ⟨hknown, hgone, herr⟩ := removeDoc_inv h hr
      generalize eval (removeDoc p) w = r at hknown hgone herr
      obtain ⟨answer, t⟩ := r
      cases answer with
      | ok u => exact ⟨hknown, fun _ _ => hgone rfl⟩
      | error e =>
        dsimp only
        rw [herr e rfl, Bool.and_false, if_neg Bool.false_ne_true]
        exact ⟨hknown, fun _ hok => (nomatch hok)⟩

/-! ### Every run -/

theorem call_inv (h : Known w) {a : Act} (hs : Sees w a) : Known (eval (call a) w).2 := by
  cases a with
  | addDoc path content =>
    rw [call, eval_forget]
    refine addDoc_inv h fun data he => ?_
    subst he
    exact hs
  | writeFile path content =>
    rw [call, eval_writeFile]
    split_ifs with hno
    · exact h
    · push Not at hno
      exact addDoc_inv h fun _ _ => hs (by simpa using hno.2)
  | updateDoc path content =>
    rw [call, eval_forget]
    exact updateDoc_inv h content
  | moveDoc src dest => exact moveDoc_inv h src dest
  | rm path options => exact (rm_inv h path options).1

theorem step_inv (h : Known w) {a : Act} (hs : Sees w a) (hst : step w a = some t) : Known t := by
  cases hst
  exact call_inv h hs

theorem call_kept (h : Known w) {a : Act} (hs : Sees w a) : Kept w a := by
  refine ⟨(call_inv h hs).distinct, fun path options ha hok => ?_⟩
  subst ha
  exact (rm_inv h path options).2 hs hok

/-! ### Where the index does not know enough -/

/-- A document that is added at a path makes two of one that stands there. -/
theorem addsTwice_breaks (hf : w.fates = []) {data : String} (hadd : AddsTwice w p) :
    ¬ Distinct (eval (addDoc p (.text data)) w).2.server := by
  obtain ⟨hwritable, hr, d, hd, hp⟩ := hadd
  rw [eval_addDoc_text, hwritable, hr, send_nil w hf]
  intro hdistinct
  have hcross := (List.pairwise_append.mp hdistinct).2.2 d hd _ (List.mem_singleton_self _)
  exact hcross p hp rfl

theorem passesOver_breaks (hf : w.fates = []) {path : String} {options : RmOptions} (hroot : normalizePath path ≠ "/")
    (hpass : PassesOver w (normalizePath path) options) : ¬ Kept w (.rm path options) := by
  obtain ⟨hres, hst, hdecide⟩ := hpass
  rintro ⟨-, hgone⟩
  have hslash : endsWithSlash (normalizePath path) = false := by
    obtain ⟨names, hplain, he⟩ := canonical_normalizePath path
    rw [he] at hroot ⊢
    exact endsWithSlash_pathOf (plain_of_clean hplain) fun hnil => hroot (by rw [hnil]; rfl)
  have hgone := hgone path options rfl
  unfold call rm at hgone
  dsimp only at hgone
  generalize normalizePath path = p at *
  rw [hres, if_neg Bool.false_ne_true, eval_bind, eval_look, andThen_ok] at hgone
  by_cases hdir : w.index.isDirOnly p = true
  · rw [if_pos hdir] at hdecide
    rw [if_pos hdir, hdecide, Bool.not_true, if_neg Bool.false_ne_true, eval_bind, eval_removeByPrefix (withSlash_ne p),
      send_nil w hf] at hgone
    refine hgone rfl ?_
    obtain ⟨d, hd, hp⟩ := hst
    refine ⟨d, ?_, hp⟩
    have hout : Container.listed (some (withSlash (withSlash p))) d = false := by
      unfold Container.listed
      rw [hp]
      dsimp only
      rw [withSlash_idem, if_pos (endsWithSlash_withSlash p)]
      exact not_below_self hslash
    show d ∈ (World.withoutPrefix _ _).server.docs
    rw [World.withoutPrefix, forgetUnder_server.1]
    refine List.mem_filter.mpr ⟨hd, ?_⟩
    show (!(Container.listed (some (withSlash (withSlash p))) d && _)) = true
    rw [hout]
    rfl
  · rw [if_neg hdir] at hdecide
    rw [if_neg hdir, eval_tryCatch, eval_bind, eval_look, andThen_ok, hdecide.2] at hgone
    dsimp only at hgone
    rw [hdecide.1, if_pos rfl] at hgone
    exact hgone rfl hst

/-- **No call leaves two documents at one path, and what `rm` says it removed
is gone**, in every run whose calls the index knows enough for; and where the
server answers, a call it does not know enough for breaks that. A document at
the root itself cannot be removed in any other way, and is left out. -/
theorem authority {w₀ : World} (h : Start w₀) (hr : Reach step Sees w₀ w) :
    (∀ a, Sees w a → Kept w a) ∧
    ∀ a, w.fates = [] → ¬ Sees w a → (∀ path options, a = .rm path options → normalizePath path ≠ "/") →
      ¬ Kept w a := by
  have hknown : Known w := hr.inv h.known fun _ _ _ hI hs hst => step_inv hI hs hst
  refine ⟨fun a hs => call_kept hknown hs, fun a hf hs hroot hkept => ?_⟩
  cases a with
  | addDoc path content =>
    cases content with
    | bytes b => exact hs trivial
    | text data =>
      have hdistinct := hkept.1
      rw [call, eval_forget] at hdistinct
      exact addsTwice_breaks hf (not_not.mp hs) hdistinct
  | writeFile path content =>
    unfold Sees at hs
    push Not at hs
    obtain ⟨hdir, hadd⟩ := hs
    have hdistinct := hkept.1
    have hwritable := (assertWritable_none.mp hadd.1).2.1
    rw [call, eval_writeFile, if_neg (by rw [hwritable, hdir]; simp)] at hdistinct
    exact addsTwice_breaks hf hadd hdistinct
  | updateDoc path content => exact hs trivial
  | moveDoc src dest => exact hs trivial
  | rm path options => exact passesOver_breaks hf (hroot path options rfl) (not_not.mp hs) hkept

/-! ### A cold index -/

/-- A server with one document, and an index that knows it or not. -/
def holding (ix : PathIndex) : World :=
  ⟨⟨[⟨"d1", some "/a.md", some "old", some "done", none, none, none, none, none⟩], [], ([], [])⟩, ix,
    .new none none fun _ => 0, []⟩

def warm : PathIndex := ⟨[("/a.md", "d1")], [("d1", "/a.md")], []⟩

theorem holding_start {ix : PathIndex} (h : ∀ p id, ix.resolve p = some id → p = "/a.md" ∧ id = "d1") :
    Start (holding ix) := by
  refine ⟨List.pairwise_singleton _ _, fun d hd => ?_, List.pairwise_singleton _ _, fun p id hr => ?_⟩
  · rw [List.mem_singleton.mp hd]
    decide
  · obtain ⟨rfl, rfl⟩ := h p id hr
    exact ⟨_, List.mem_singleton_self _, rfl, rfl⟩

/-- A warm index: after a write over the document, a forced `rm` removes it. -/
theorem authority_warm : Kept (eval (call (.writeFile "/a.md" (.text "new"))) (holding warm)).2 (.rm "/a.md" { force := true }) := by
  have hstart : Start (holding warm) := holding_start fun p id hr => by
    unfold PathIndex.resolve warm at hr
    rw [Table.get_cons, Table.get_nil] at hr
    by_cases hp : "/a.md" = p
    · rw [if_pos hp] at hr
      exact ⟨hp.symm, (Option.some.inj hr).symm⟩
    · rw [if_neg hp] at hr
      cases hr
  have hrun : Reach step Sees (holding warm) (eval (call (.writeFile "/a.md" (.text "new"))) (holding warm)).2 :=
    .next .start (a := .writeFile "/a.md" (.text "new")) (fun _ hadd => absurd hadd.2.1 (by decide +kernel)) rfl
  exact (authority hstart hrun).1 _ fun hpass => absurd hpass.2.2 (by decide +kernel)

/-- A cold index: the write leaves two documents, and the `rm` says it removed
the one that is still there. -/
theorem added_twice : Start (holding .new) ∧ ¬ Kept (holding .new) (.writeFile "/a.md" (.text "new")) ∧
    ¬ Kept (holding .new) (.rm "/a.md" { force := true }) := by
  refine ⟨holding_start fun p id hr => (nomatch hr), fun hkept => ?_, fun hkept => ?_⟩
  · have hdistinct := hkept.1
    rw [call, eval_writeFile, if_neg (by decide +kernel)] at hdistinct
    have hadd : AddsTwice (holding .new) (normalizePath "/a.md") :=
      ⟨by decide +kernel, by decide +kernel, _, List.mem_singleton_self _, by decide +kernel⟩
    exact addsTwice_breaks rfl hadd hdistinct
  · exact hkept.2 _ _ rfl (by decide +kernel) ⟨_, List.mem_singleton_self _, by decide +kernel⟩

end Smfs.Bash.Authority
