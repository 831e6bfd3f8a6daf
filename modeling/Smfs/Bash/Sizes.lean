/-
# The size that `stat_doc` gives

`stat_doc` counts characters where it asks the server and bytes where it finds
the text in the cache; what the cache holds is the document's content, from a
`stat_doc` or a listing, or what `get_doc` made of it. So the size is one number
whatever was read before, and the bytes of the text of `get_doc`, exactly if
all of these lengths are that number (`oneSize_iff`).

Key definitions: `Sizes.Act`, `Sizes.Steady`, `Sizes.OneSize`.
Key theorems: `Sizes.step_inv`, `Sizes.steady_of_oneSize`, `Sizes.oneSize_iff`.
-/
import Smfs.Lib.Reach
import Smfs.Bash.Listing
import Smfs.Bash.PyVolume
import Smfs.Bash.Reads

namespace Smfs.Bash.Sizes

open Turns Trans

/-- The reads. -/
inductive Act
  | getDoc (path : String)
  | statDoc (time : ℤ) (path : String)
  | listByPrefix (time : ℤ) (pre : String) (opts : ListByPrefixOpts)

/-- A call, whatever it answers. -/
def step (w : World) : Act → Option World
  | .getDoc path => some (eval (Py.getDoc path) w).2
  | .statDoc time path => some (eval (Py.statDoc time path) w).2
  | .listByPrefix time pre opts => some (eval (Py.listByPrefix time pre opts) w).2

/-- A client that has read nothing. -/
def fresh (s : Container) (cache : SessionCache) (fates : List Fate) : World := ⟨s, .new, cache, fates⟩

/-- After any reads the size is this number, and the bytes of the text too. -/
def Steady (s : Container) (p : String) (n : ℕ) : Prop :=
  ∀ (ttlMs : Option (Option ℤ)) (maxBytes : Option ℤ) (now : ℕ → ℤ) (fates : List Fate) (w : World),
    Reach step anyStep (fresh s (.new ttlMs maxBytes now) fates) w →
    (∀ time st, (eval (Py.statDoc time p) w).1 = .ok (some st) → st.size = n) ∧
      ∀ r, (eval (Py.getDoc p) w).1 = .ok (some r) → r.content.byteLength = n

/-- A document lies below the path. -/
def HasBelow (s : Container) (p : String) : Prop :=
  ∃ d ∈ s.docs, ∃ q, q ≠ p ∧ d.filepath = some q ∧ startsWith q (withSlash p) = true

/-- All lengths that come up for the path are one number. -/
structure OneSize (s : Container) (p : String) (n : ℕ) : Prop where
  /-- The profile is made of the server's items. -/
  profile : p = profilePath → (formatProfile s.profile).utf8ByteSize = n
  /-- The characters of the document that is found, and the bytes of what `get_doc` makes of it. -/
  found : p ≠ profilePath → ∀ m, Bash.found p (s.list (exactly p true)) = some m →
    (m.content.getD "").length = n ∧ m.result.content.byteLength = n
  /-- The bytes of what a listing caches. -/
  listed : ∀ d ∈ s.docs, d.filepath = some p → ∀ text, d.content = some text → text.utf8ByteSize = n
  /-- What may be taken for a directory has no size. -/
  dir : p ≠ profilePath → p = "/" ∨ p = "" ∨ HasBelow s p → n = 0

variable {s : Container} {w t : World} {p q : String} {n : ℕ} {m d : Memory}

/-! ### What the client holds -/

/-- What is indexed is a document's, and what is cached of the path has the size. -/
structure Sized (s : Container) (p : String) (n : ℕ) (w : World) : Prop where
  server : w.server = s
  synthetic : w.index.syntheticDirs = []
  indexed : ∀ q, w.index.isFile q = true → ∃ d ∈ s.docs, d.filepath = some q
  cached : ∀ x ∈ w.cache.entries, x.1 = p → x.2.content.byteLength = n

theorem Sized.looked (h : Sized s p n w) (q : String) : Sized s p n (w.looked q) :=
  ⟨h.server, h.synthetic, h.indexed, fun x hx => h.cached x (SessionCache.mem_get hx)⟩

/-- A request that leaves the server. -/
theorem Sized.sent {α : Type} (h : Sized s p n w)
    {call : List (String × String) → Container → Except ApiError α × Container}
    (hserver : (w.send call).2.server = w.server) : Sized s p n (w.send call).2 := by
  obtain ⟨hindex, hcache, -⟩ := send_kept w call
  refine ⟨hserver.trans h.server, ?_, ?_, ?_⟩
  · rw [hindex]
    exact h.synthetic
  · rw [hindex]
    exact h.indexed
  · rw [hcache]
    exact h.cached

theorem Sized.drop (h : Sized s p n w) (q : String) : Sized s p n (w.drop q) :=
  ⟨h.server, h.synthetic, fun q' hq => h.indexed q' (isFile_remove.mp hq).2,
    fun x hx => h.cached x (SessionCache.mem_delete hx).2⟩

theorem Sized.insert (h : Sized s p n w) (hd : d ∈ s.docs) (hp : d.filepath = some q) (id : String) :
    Sized s p n { w with index := w.index.insert q id } := by
  refine ⟨h.server, h.synthetic, fun q' hq => ?_, h.cached⟩
  rcases isFile_insert.mp hq with rfl | hq
  · exact ⟨d, hd, hp⟩
  · exact h.indexed q' hq

theorem Sized.set (h : Sized s p n w) {content : Content} (hc : q = p → content.byteLength = n) (status : DocStatus) :
    Sized s p n { w with cache := w.cache.set q content status } := by
  refine ⟨h.server, h.synthetic, h.indexed, fun x hx hxp => ?_⟩
  rcases SessionCache.mem_set hx with ⟨hq, hentry⟩ | ⟨-, hx⟩
  · rw [congrArg CachedEntry.content hentry]
    exact hc (hq.symm.trans hxp)
  · exact h.cached x hx hxp

theorem Sized.fetched (h : Sized s p n w) (hd : d ∈ s.docs) (hp : d.filepath = some q) {content : Content}
    (hc : q = p → content.byteLength = n) (id : String) (status : DocStatus) :
    Sized s p n (w.fetched q id content status) := by
  unfold World.fetched
  split_ifs
  · exact h.set hc status
  · exact (h.insert hd hp id).set hc status

theorem Sized.note (h : Sized s p n w) (ho : OneSize s p n) (hd : d ∈ s.docs) (hp : d.filepath = some q)
    {withContent : Bool}
    (hm : withContent = true → m = d) : Sized s p n (note withContent w q m) := by
  unfold Bash.note
  have hindex := h.insert hd hp m.id
  split
  · rename_i text htext
    obtain rfl := hm rfl
    have hsize : q = p → (Content.text text).byteLength = n := fun hq => ho.listed m hd (hq ▸ hp) text htext
    exact hindex.set hsize m.docStatus
  · exact hindex

/-- What is found is as long as the size, raw or made up. -/
theorem OneSize.raw (ho : OneSize s p n) (hp : p ≠ profilePath) (hm : Bash.found p (s.list (exactly p true)) = some m) :
    (m.content.getD "").utf8ByteSize = n := by
  obtain ⟨hmem, hpath⟩ := found_some hm
  cases hc : m.content with
  | some text => exact ho.listed m hmem hpath text hc
  | none =>
    have hlen := (ho.found hp m hm).1
    rw [hc] at hlen
    exact hlen

/-! ### One call -/

theorem fetchProfile_inv (ho : OneSize s p n) (h : Sized s p n w) : Sized s p n (eval fetchProfile w).2 := by
  have hserver : ((w.looked profilePath).send (fun _ s => (.ok s.profile, s))).2.server = w.server := by
    rcases send_server (w.looked profilePath) (fun _ s => (.ok s.profile, s)) with h | ⟨_, h⟩ <;> exact h
  have hsent := (h.looked profilePath).sent hserver
  have hanswer := send_answer (w.looked profilePath) (fun _ s => (.ok s.profile, s))
  rw [eval_fetchProfile]
  split
  · exact h.looked profilePath
  · generalize (w.looked profilePath).send (fun _ s => (.ok s.profile, s)) = r at hsent hanswer
    obtain ⟨answer, t⟩ := r
    cases answer with
    | error e => exact hsent
    | ok profile =>
      obtain ⟨_, hcall⟩ := hanswer profile rfl
      have hprofile : s.profile = profile := h.server ▸ Except.ok.inj (congrArg Prod.fst hcall)
      exact hsent.set (fun hq => hprofile ▸ ho.profile hq.symm) .done

/-- A question for one path that is not in the cache. -/
theorem fetch_inv {α : Type} (h : Sized s p n w) {answer : Memory → α} {none' : α} {failed : ApiError → α}
    {content : Memory → Content}
    (hc : q = p → ∀ m, found p (s.list (exactly p true)) = some m → (content m).byteLength = n) :
    Sized s p n (match (w.looked q).send (listCall (exactly q true)) with
      | (.error e, t) => (failed e, t)
      | (.ok resp, t) => match found q resp with
        | none => (none', t.drop q)
        | some m => (answer m, t.fetched q m.id (content m) m.docStatus)).2 := by
  have hsent := (h.looked q).sent (listCall_server (w.looked q) (exactly q true))
  have hanswer := listCall_answer (w.looked q) (exactly q true)
  generalize (w.looked q).send (listCall (exactly q true)) = r at hsent hanswer
  obtain ⟨a, t⟩ := r
  cases a with
  | error e => exact hsent
  | ok resp =>
    have hresp : resp = s.list (exactly q true) := (hanswer resp rfl).trans (congrArg (Container.list · _) h.server)
    dsimp only
    cases hm : found q resp with
    | none => exact hsent.drop q
    | some m =>
      rw [hresp] at hm
      obtain ⟨hmem, hpath⟩ := found_some hm
      exact hsent.fetched hmem hpath (fun hqp => hc hqp m (hqp ▸ hm)) m.id m.docStatus

theorem getDoc_inv (ho : OneSize s p n) (h : Sized s p n w) (q : String) : Sized s p n (eval (Py.getDoc q) w).2 := by
  by_cases hq : q = profilePath
  · have hfetch := fetchProfile_inv ho h
    rw [hq, Py.eval_getDoc_profile]
    generalize eval fetchProfile w = r at hfetch
    obtain ⟨_ | body, t⟩ := r
    · exact hfetch
    · exact hfetch
  · rw [Py.getDoc_unreserved (decide_eq_false hq)]
    cases hh : hit w q with
    | some c =>
      rw [Dialect.eval_getDoc_hit hh]
      exact h.looked q
    | none =>
      rw [Dialect.eval_getDoc_miss hh]
      exact fetch_inv h fun hqp m hm => (ho.found (hqp ▸ hq) m hm).2

theorem statDoc_inv (ho : OneSize s p n) (h : Sized s p n w) (time : ℤ) (q : String) :
    Sized s p n (eval (Py.statDoc time q) w).2 := by
  by_cases hq : q = profilePath
  · have hfetch := fetchProfile_inv ho h
    rw [hq, Py.eval_statDoc_profile]
    generalize eval fetchProfile w = r at hfetch
    obtain ⟨_ | body, t⟩ := r
    · exact hfetch
    · exact hfetch
  · rw [Py.statDoc_unreserved (decide_eq_false hq)]
    cases hdir : w.index.isDirOnly q with
    | true =>
      rw [Dialect.eval_statDoc_dir hdir]
      exact h
    | false =>
      cases hh : hit w q with
      | some c =>
        rw [Dialect.eval_statDoc_hit hdir hh]
        exact h.looked q
      | none =>
        rw [Dialect.eval_statDoc_miss hdir hh]
        exact fetch_inv h fun hqp m hm => ho.raw (hqp ▸ hq) hm

theorem visit_inv (ho : OneSize s p n) {pre : String} {opts : ListByPrefixOpts} {ms : List Memory}
    (hms : ∀ m ∈ ms, ∃ d ∈ s.docs, d.filepath = m.filepath ∧ (opts.withContent = true → m = d))
    (out : List DocSummary) (h : Sized s p n w) : Sized s p n (visit pre opts ms out w).2 := by
  induction ms generalizing out w with
  | nil => exact h
  | cons m ms ih =>
    have hrest := fun x hx => hms x (List.mem_cons_of_mem m hx)
    cases ht : taken pre opts.exact m with
    | none =>
      rw [visit_skip ht]
      exact ih hrest out h
    | some q =>
      obtain ⟨d, hd, hfp, hm⟩ := hms m List.mem_cons_self
      have hnote := h.note ho hd (hfp.trans (Option.filter_eq_some_iff.mp ht).1) hm
      rw [visit_take ht]
      split_ifs
      · exact hnote
      · exact ih hrest _ hnote

theorem listPages_inv (ho : OneSize s p n) {pre : String} {opts : ListByPrefixOpts} (fuel page : ℕ)
    (out : List DocSummary)
    (h : Sized s p n w) : Sized s p n (eval (listPages pre opts fuel page out) w).2 := by
  induction fuel generalizing page out w with
  | zero => exact h
  | succ fuel ih =>
    unfold listPages
    rw [eval_bind, eval_listRequest, andThen_ok]
    generalize hq : ListParams.mk (filterArgFor pre opts.exact) 100 page opts.withContent = params
    have hcontent : params.includeContent = opts.withContent := by rw [← hq]
    have hsent := h.sent (listCall_server w params)
    have hanswer := listCall_answer w params
    generalize w.send (listCall params) = r at hsent hanswer
    obtain ⟨answer, t⟩ := r
    cases answer with
    | error e => exact hsent
    | ok resp =>
      have hresp : resp = s.list params := (hanswer resp rfl).trans (congrArg (Container.list · _) h.server)
      subst hresp
      have hvisit : Sized s p n (visit pre opts (s.list params).memories out t).2 :=
        visit_inv ho (fun m hm => hcontent ▸ Reads.memories_mem hm) out hsent
      dsimp only
      rw [eval_bind, eval_sync, andThen_ok]
      generalize visit pre opts (s.list params).memories out t = v at hvisit
      obtain ⟨⟨out', enough⟩, t'⟩ := v
      dsimp only
      split_ifs
      · exact hvisit
      · exact ih _ _ hvisit

theorem step_inv (ho : OneSize s p n) (h : Sized s p n w) {a : Act} (hst : step w a = some t) : Sized s p n t := by
  cases a with
  | getDoc q =>
    cases hst
    exact getDoc_inv ho h q
  | statDoc time q =>
    cases hst
    exact statDoc_inv ho h time q
  | listByPrefix time pre opts =>
    cases hst
    have hpages : Sized s p n (eval (Bash.listByPrefix pre { opts with limit := opts.limit.filter (· ≠ 0) }) w).2 :=
      listPages_inv ho _ 1 [] h
    rw [Py.eval_listByPrefix]
    generalize eval (Bash.listByPrefix pre { opts with limit := opts.limit.filter (· ≠ 0) }) w = r at hpages
    obtain ⟨_ | out, t⟩ := r
    · exact hpages
    · exact hpages

/-! ### What the calls answer -/

theorem Sized.hit (h : Sized s p n w) {id : String} {c : CachedEntry} (hh : hit w p = some (id, c)) :
    c.content.byteLength = n := by
  obtain ⟨c', hc, hid⟩ := Option.bind_eq_some_iff.mp hh
  obtain ⟨x, hx, hxp, rfl⟩ := SessionCache.get_mem hc
  obtain ⟨i, -, he⟩ := Option.map_eq_some_iff.mp hid
  cases he
  exact h.cached x hx hxp

theorem Sized.profile (h : Sized s profilePath n w) (ho : OneSize s profilePath n) {body : String}
    (hb : (eval fetchProfile w).1 = .ok body) : body.utf8ByteSize = n := by
  have hanswer := send_answer (w.looked profilePath) (fun _ s => (.ok s.profile, s))
  have hfetched : ∀ r, eval fetchProfile w = r → r.1 = .ok body →
      (∃ status, (w.cache.get profilePath).1 = some ⟨.text body, status⟩) ∨ body = formatProfile s.profile := by
    intro r hr hbody
    rw [eval_fetchProfile] at hr
    generalize (w.looked profilePath).send (fun _ s => (.ok s.profile, s)) = sent at hr hanswer
    obtain ⟨answer, t⟩ := sent
    split at hr
    · rename_i body' status hc
      subst hr
      cases hbody
      exact .inl ⟨status, hc⟩
    · cases answer with
      | error e =>
        subst hr
        cases hbody
      | ok profile =>
        subst hr
        obtain ⟨_, hcall⟩ := hanswer profile rfl
        have hprofile : s.profile = profile := h.server ▸ Except.ok.inj (congrArg Prod.fst hcall)
        exact .inr (hprofile ▸ (Except.ok.inj hbody).symm)
  rcases hfetched _ rfl hb with ⟨status, hc⟩ | rfl
  · obtain ⟨x, hx, hxp, he⟩ := SessionCache.get_mem hc
    have hsize := h.cached x hx hxp
    rw [congrArg CachedEntry.content he] at hsize
    exact hsize
  · exact ho.profile rfl

theorem Sized.getDoc (h : Sized s p n w) (ho : OneSize s p n) {r : DocResult}
    (hr : (eval (Py.getDoc p) w).1 = .ok (some r)) :
    r.content.byteLength = n := by
  by_cases hp : p = profilePath
  · subst hp
    rw [Py.eval_getDoc_profile] at hr
    have hbody : ∀ body, (eval fetchProfile w).1 = .ok body → body.utf8ByteSize = n := fun _ => h.profile ho
    generalize eval fetchProfile w = f at hr hbody
    obtain ⟨_ | body, t⟩ := f
    · cases hr
    · cases hr
      exact hbody body rfl
  · rw [Py.getDoc_unreserved (decide_eq_false hp)] at hr
    cases hh : Bash.hit w p with
    | some c =>
      rw [Dialect.eval_getDoc_hit hh] at hr
      cases hr
      exact h.hit hh
    | none =>
      rw [Dialect.eval_getDoc_miss hh] at hr
      have hanswer := listCall_answer (w.looked p) (exactly p true)
      generalize (w.looked p).send (listCall (exactly p true)) = sent at hr hanswer
      obtain ⟨answer, t⟩ := sent
      cases answer with
      | error e => cases hr
      | ok resp =>
        have hresp : resp = s.list (exactly p true) := (hanswer resp rfl).trans (congrArg (Container.list · _) h.server)
        subst hresp
        dsimp only at hr
        cases hm : found p (s.list (exactly p true)) with
        | none =>
          rw [hm] at hr
          cases hr
        | some m =>
          rw [hm] at hr
          cases hr
          exact (ho.found hp m hm).2

/-- What is taken for a directory is the root or has a document below. -/
theorem Sized.dir (h : Sized s p n w) (hdir : w.index.isDirOnly p = true) : p = "/" ∨ p = "" ∨ HasBelow s p := by
  unfold PathIndex.isDirOnly PathIndex.isDirectory at hdir
  rw [Bool.and_eq_true, Bool.or_eq_true, Bool.or_eq_true, Bool.or_eq_true] at hdir
  obtain ⟨((hroot | hnil) | hsynth) | hbelow, hfile⟩ := hdir
  · exact .inl (of_decide_eq_true hroot)
  · exact .inr (.inl (of_decide_eq_true hnil))
  · have hmem : p ∈ w.index.syntheticDirs := of_decide_eq_true hsynth
    rw [h.synthetic] at hmem
    exact absurd hmem List.not_mem_nil
  · obtain ⟨q, hq, hpre⟩ := PathIndex.hasBelow_iff.mp hbelow
    obtain ⟨d, hd, hfp⟩ := h.indexed q hq
    refine .inr (.inr ⟨d, hd, q, ?_, hfp, hpre⟩)
    rintro rfl
    rw [hq] at hfile
    cases hfile

theorem Sized.statDoc (h : Sized s p n w) (ho : OneSize s p n) {time : ℤ} {st : DocStat}
    (hr : (eval (Py.statDoc time p) w).1 = .ok (some st)) : st.size = n := by
  by_cases hp : p = profilePath
  · subst hp
    rw [Py.eval_statDoc_profile] at hr
    have hbody : ∀ body, (eval fetchProfile w).1 = .ok body → body.utf8ByteSize = n := fun _ => h.profile ho
    generalize eval fetchProfile w = f at hr hbody
    obtain ⟨_ | body, t⟩ := f
    · cases hr
    · cases hr
      exact hbody body rfl
  · rw [Py.statDoc_unreserved (decide_eq_false hp)] at hr
    cases hdir : w.index.isDirOnly p with
    | true =>
      rw [Dialect.eval_statDoc_dir hdir] at hr
      cases hr
      exact (ho.dir hp (h.dir hdir)).symm
    | false =>
      cases hh : Bash.hit w p with
      | some c =>
        rw [Dialect.eval_statDoc_hit hdir hh] at hr
        cases hr
        exact h.hit hh
      | none =>
        rw [Dialect.eval_statDoc_miss hdir hh] at hr
        have hanswer := listCall_answer (w.looked p) (exactly p true)
        generalize (w.looked p).send (listCall (exactly p true)) = sent at hr hanswer
        obtain ⟨answer, t⟩ := sent
        cases answer with
        | error e => cases hr
        | ok resp =>
          have hresp : resp = s.list (exactly p true) :=
            (hanswer resp rfl).trans (congrArg (Container.list · _) h.server)
          subst hresp
          dsimp only at hr
          cases hm : found p (s.list (exactly p true)) with
          | none =>
            rw [hm] at hr
            cases hr
          | some m =>
            rw [hm] at hr
            cases hr
            exact (ho.found hp m hm).1

/-- Lengths that agree give a steady size. -/
theorem steady_of_oneSize (ho : OneSize s p n) : Steady s p n := by
  intro ttlMs maxBytes now fates w hr
  have hstart : Sized s p n (fresh s (.new ttlMs maxBytes now) fates) :=
    ⟨rfl, rfl, fun q hq => (nomatch hq), fun x hx => absurd hx List.not_mem_nil⟩
  have hw : Sized s p n w := hr.inv hstart fun _ _ _ h _ hst => step_inv ho h hst
  exact ⟨fun time st hst => hw.statDoc ho hst, fun r hr => hw.getDoc ho hr⟩

/-! ### Reads that show each length -/

/-- A client with this lifetime for what it caches, whose clock stands still. -/
def client (s : Container) (ttlMs : Option ℤ) : World := fresh s (.new (some ttlMs) none fun _ => 0) []

theorem hit_client (s : Container) (ttlMs : Option ℤ) (p : String) : hit (client s ttlMs) p = none := rfl

theorem send_exactly (hf : w.fates = []) (hs : w.server = s) (p : String) :
    (w.looked p).send (listCall (exactly p true)) = (.ok (s.list (exactly p true)), w.looked p) := by
  rw [send_listCall (w := w.looked p) hf]
  exact congrArg (fun s : Container => (Except.ok (s.list (exactly p true)), w.looked p)) hs

/-- The first `get_doc` asks the server. -/
theorem eval_getDoc_client (hp : p ≠ profilePath) (hm : found p (s.list (exactly p true)) = some m) (ttlMs : Option ℤ) :
    eval (Py.getDoc p) (client s ttlMs) =
      (.ok (some m.result), ((client s ttlMs).looked p).fetched p m.id m.result.content m.docStatus) := by
  rw [Py.getDoc_unreserved (decide_eq_false hp), Dialect.eval_getDoc_miss (hit_client s ttlMs p),
    send_exactly (s := s) rfl rfl]
  dsimp only
  rw [hm]

/-- Where nothing is kept a `stat_doc` after it asks again. -/
theorem eval_statDoc_again (hp : p ≠ profilePath) (hm : found p (s.list (exactly p true)) = some m)
    (hid : m.id ≠ "") (time : ℤ) :
    ∃ st, (eval (Py.statDoc time p) (eval (Py.getDoc p) (client s (some 0))).2).1 = .ok (some st) ∧
      st.size = (m.content.getD "").length := by
  rw [eval_getDoc_client hp hm]
  dsimp only
  generalize ht : ((client s (some 0)).looked p).fetched p m.id m.result.content m.docStatus = t
  have hserver : t.server = s := by rw [← ht]; rfl
  have hfates : t.fates = [] := by rw [← ht]; rfl
  have hfile : t.index.isFile p = true := by
    rw [← ht, World.fetched, if_neg hid]
    exact isFile_insert.mpr (.inl rfl)
  have hdir : t.index.isDirOnly p = false := by
    rw [PathIndex.isDirOnly, hfile, Bool.not_true, Bool.and_false]
  have hhit : hit t p = none := by
    rw [← ht]
    unfold hit World.fetched
    dsimp only
    rw [SessionCache.get_set_expired rfl le_rfl]
    rfl
  rw [Py.statDoc_unreserved (decide_eq_false hp), Dialect.eval_statDoc_miss hdir hhit, send_exactly hfates hserver]
  dsimp only
  rw [hm]
  exact ⟨_, rfl, rfl⟩

theorem taken_exact : taken q true d = some p ↔ d.filepath = some p ∧ p = q := by
  unfold taken
  rw [Option.filter_eq_some_iff]
  simp

/-- A listing of just its path goes through the document. -/
theorem mem_asked (hd : d ∈ s.docs) (hp : d.filepath = some p) (opts : ListByPrefixOpts) (hexact : opts.exact = true) :
    shown opts.withContent d ∈ asked s p opts := by
  refine List.mem_map_of_mem (List.mem_filter.mpr ⟨hd, ?_⟩)
  unfold filterArgFor
  by_cases hnil : p = ""
  · rw [if_pos hnil]
    rfl
  · rw [if_neg hnil, if_pos hexact]
    unfold Container.listed
    rw [hp]
    dsimp only
    split_ifs
    · exact List.isPrefixOf_iff_prefix.mpr (List.prefix_refl _)
    · exact decide_eq_true rfl

/-- The options of a listing of just one path, up to some number. -/
def upTo (withContent : Bool) (k : ℕ) : ListByPrefixOpts := ⟨withContent, true, some (k + 1)⟩

/-- What such a listing leaves. -/
theorem eval_listed (ttlMs : Option ℤ) (withContent : Bool) (k : ℕ) :
    (eval (Py.listByPrefix 0 q (upTo withContent k)) (client s ttlMs)).2 =
      (visit q (upTo withContent k) (asked s q (upTo withContent k)) [] (client s ttlMs)).2 := by
  have hopts : { upTo withContent k with limit := (upTo withContent k).limit.filter (· ≠ 0) } = upTo withContent k := by
    simp [upTo]
  rw [Py.eval_listByPrefix, hopts, eval_listByPrefix rfl]
  rfl

/-- Some listing ends with the document, and its content in the cache. -/
theorem reach_listed (hd : d ∈ s.docs) (hp : d.filepath = some p) {text : String} (htext : d.content = some text) :
    ∃ w, Reach step anyStep (client s none) w ∧ (w.cache.get p).1 = some ⟨.text text, d.docStatus⟩ ∧
      w.index.resolve p = some d.id := by
  have hshown : shown true d = d := rfl
  obtain ⟨xs, ys, hsplit⟩ := List.append_of_mem (mem_asked hd hp (upTo true 0) rfl)
  rw [upTo, hshown] at hsplit
  have ht : taken p true d = some p := taken_exact.mpr ⟨hp, rfl⟩
  generalize hk : (xs.filterMap (taken p true)).length = k
  obtain ⟨v, hv, hend⟩ : ∃ v, v.cache.ttlMs = (client s none).cache.ttlMs ∧
      (visit p (upTo true k) (xs ++ d :: ys) [] (client s none)).2 = note true v p d :=
    visit_upto ht [] (by simp [upTo, hk]) (client s none)
  refine ⟨_, .next .start (a := .listByPrefix 0 p (upTo true k)) trivial rfl, ?_⟩
  have hstate : (eval (Py.listByPrefix 0 p (upTo true k)) (client s none)).2 = note true v p d := by
    rw [eval_listed, ← hend]
    exact congrArg (fun ms => (visit p (upTo true k) ms [] (client s none)).2) hsplit
  rw [hstate]
  unfold note
  rw [htext]
  exact ⟨SessionCache.get_set_self hv _ _, by simp⟩

/-- Some listing leaves a document below indexed, and nothing at the path. -/
theorem reach_below (h : HasBelow s p) : ∃ w, Reach step anyStep (client s none) w ∧ w.index.isDirOnly p = true := by
  obtain ⟨d, hd, q, hne, hq, hpre⟩ := h
  have hmem := mem_asked hd hq (upTo false 0) rfl
  have htaken : (taken q true (shown false d)).isSome = true :=
    Option.isSome_iff_exists.mpr ⟨q, taken_exact.mpr ⟨hq, rfl⟩⟩
  obtain ⟨m, q', -, ht, hend⟩ := @visit_first (client s none) q (upTo false 0) _ rfl ⟨_, hmem, htaken⟩
  obtain ⟨-, rfl⟩ := taken_exact.mp ht
  refine ⟨_, .next .start (a := .listByPrefix 0 q' (upTo false 0)) trivial rfl, ?_⟩
  rw [eval_listed, hend]
  show (note false (client s none) q' m).index.isDirOnly p = true
  have hfile : ∀ r, (note false (client s none) q' m).index.isFile r = true ↔ r = q' := by
    intro r
    refine isFile_insert.trans ⟨fun h => h.resolve_right fun hnone => ?_, .inl⟩
    cases hnone
  have hbelow : (note false (client s none) q' m).index.hasBelow p = true :=
    PathIndex.hasBelow_iff.mpr ⟨q', (hfile q').mpr rfl, hpre⟩
  have hnot : (note false (client s none) q' m).index.isFile p = false :=
    eq_false_of_ne_true fun hp => hne ((hfile p).mp hp).symm
  rw [PathIndex.isDirOnly, PathIndex.isDirectory, hbelow, hnot, Bool.or_true]
  rfl

/-- A steady size is each of the lengths. -/
theorem oneSize_of_steady (hids : ∀ d ∈ s.docs, d.id ≠ "") (h : Steady s p n) : OneSize s p n where
  profile hp := by
    subst hp
    refine (h (some none) none (fun _ => 0) [] _ .start).2 ⟨Py.virtualId, .text (formatProfile s.profile),
      .done, none⟩ ?_
    rw [Py.eval_getDoc_profile, eval_fetchProfile]
    rfl
  found hp m hm := by
    obtain ⟨hmem, -⟩ := found_some hm
    constructor
    · obtain ⟨st, hst, hsize⟩ := eval_statDoc_again hp hm (hids m hmem) 0
      rw [← hsize]
      exact (h (some (some 0)) none (fun _ => 0) [] _ (.next .start (a := .getDoc p) trivial rfl)).1 0 st hst
    · refine (h (some none) none (fun _ => 0) [] _ .start).2 m.result ?_
      exact congrArg Prod.fst (eval_getDoc_client hp hm none)
  listed d hd hp text htext := by
    obtain ⟨w, hw, hcache, hindex⟩ := reach_listed hd hp htext
    have hget := (h (some none) none (fun _ => 0) [] w hw).2
    by_cases hprofile : p = profilePath
    · subst hprofile
      refine hget ⟨Py.virtualId, .text text, .done, none⟩ ?_
      rw [Py.eval_getDoc_profile, eval_fetchProfile, hcache]
      rfl
    · refine hget ⟨d.id, .text text, d.docStatus, none⟩ ?_
      have hhit : hit w p = some (d.id, ⟨.text text, d.docStatus⟩) := by
        rw [hit, hcache, hindex, truthy_some.mpr (hids d hd)]
        rfl
      rw [Py.getDoc_unreserved (decide_eq_false hprofile), Dialect.eval_getDoc_hit hhit]
  dir hp hdir := by
    have hreach : ∃ w, Reach step anyStep (client s none) w ∧ w.index.isDirOnly p = true := by
      rcases hdir with rfl | rfl | hbelow
      · exact ⟨_, .start, rfl⟩
      · exact ⟨_, .start, rfl⟩
      · exact reach_below hbelow
    obtain ⟨w, hw, hdironly⟩ := hreach
    have hstat := (h (some none) none (fun _ => 0) [] w hw).1 0 ⟨none, false, true, 0, 0, none⟩
    rw [Py.statDoc_unreserved (decide_eq_false hp), Dialect.eval_statDoc_dir hdironly] at hstat
    exact (hstat rfl).symm

/-- **The size is one number, and the bytes of the text, whatever was read
before, exactly if all the lengths that come up for the path are one number.** -/
theorem oneSize_iff (hids : ∀ d ∈ s.docs, d.id ≠ "") (p : String) : (∃ n, Steady s p n) ↔ ∃ n, OneSize s p n :=
  ⟨fun ⟨n, h⟩ => ⟨n, oneSize_of_steady hids h⟩, fun ⟨n, h⟩ => ⟨n, steady_of_oneSize h⟩⟩

/-! ### One document -/

/-- A container of one done document with this content. -/
def holding (content : String) : Container :=
  ⟨[⟨"d1", some "/a.md", some content, some "done", none, none, none, none, none⟩], [], ([], [])⟩

theorem holding_ids (content : String) : ∀ d ∈ (holding content).docs, d.id ≠ "" := by
  intro d hd
  rw [List.mem_singleton.mp hd]
  exact (by decide : "d1" ≠ "")

theorem oneSize_ascii : ∃ n, Steady (holding "note") "/a.md" n := by
  refine (oneSize_iff (holding_ids "note") "/a.md").mpr ⟨4, fun h => ?_, fun _ m hm => ?_, fun d hd _ text htext => ?_,
    fun _ hdir => ?_⟩
  · exact absurd h (by decide)
  · obtain rfl : m = _ := List.mem_singleton.mp (found_some hm).1
    decide
  · obtain rfl : d = _ := List.mem_singleton.mp hd
    obtain rfl : "note" = text := Option.some.inj htext
    decide
  · rcases hdir with h | h | ⟨d, hd, q, hne, hq, -⟩
    · exact absurd h (by decide)
    · exact absurd h (by decide)
    · obtain rfl : d = _ := List.mem_singleton.mp hd
      exact absurd (Option.some.inj hq).symm hne

/-- **The counterexample.** One character of two bytes: a first `stat_doc` gives
1, and a second one 2. -/
theorem accent_sizes : (eval (Py.statDoc 0 "/a.md") (client (holding "é") none)).1 =
      .ok (some ⟨some "d1", true, false, 1, 0, some .done⟩) ∧
    (eval (Py.statDoc 0 "/a.md") (eval (Py.statDoc 0 "/a.md") (client (holding "é") none)).2).1 =
      .ok (some ⟨some "d1", true, false, 2, 0, some .done⟩) ∧
    ¬ ∃ n, Steady (holding "é") "/a.md" n := by
  have hfirst : (eval (Py.statDoc 0 "/a.md") (client (holding "é") none)).1 =
      .ok (some ⟨some "d1", true, false, 1, 0, some .done⟩) := by decide +kernel
  have hsecond : (eval (Py.statDoc 0 "/a.md") (eval (Py.statDoc 0 "/a.md") (client (holding "é") none)).2).1 =
      .ok (some ⟨some "d1", true, false, 2, 0, some .done⟩) := by decide +kernel
  refine ⟨hfirst, hsecond, ?_⟩
  rintro ⟨n, h⟩
  have h1 := (h (some none) none (fun _ => 0) [] _ .start).1 0 _ hfirst
  have h2 := (h (some none) none (fun _ => 0) [] _ (.next .start (a := .statDoc 0 "/a.md") trivial rfl)).1 0 _ hsecond
  exact absurd (h1.trans h2.symm) (by decide)

end Smfs.Bash.Sizes
