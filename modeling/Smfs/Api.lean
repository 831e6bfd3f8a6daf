/-
# Requests with retries

`send_with_retry` sends a request up to five times: again after an error of
the network, a 429 or an error of the server, with a pause that doubles. An
upload is sent once. A request may get lost on its way to the server or on its
way back, so a request that is sent again may be handled again. Of all calls
but those that create a document that makes no difference: with the retries
they are what the server makes of one request (`perform_once`). A document may
be created up to five times (`perform_create`). `update_document` does not read
the body of a success, so it takes one that is not the server's for an answer
(`perform_feigned`); the other calls read it, and do not.

Key definitions: `Api.sendWithRetry`, `Api.Fate`, `Api.perform`, `Api.listDocuments`.
Key theorems: `Api.sendWithRetry_spec`, `Api.perform_once`, `Api.perform_step`, `Api.perform_feigned`,
`Api.perform_create`, `Api.listDocuments_all`.
-/
import Smfs.Lib.Paging
import Smfs.Lib.Retry
import Smfs.Sync.Delivery

namespace Smfs.Api

/-! ### One request -/

def MAX_RETRIES : ℕ := 5

def INITIAL_BACKOFF_MS : ℕ := 100

/-- A response, with what the caller reads in its body. -/
structure Response where
  status : ℕ
  body : String
  json : Option Answer

inductive Outcome
  | network (message : String)
  | response (r : Response)

def isSuccess (status : ℕ) : Bool := decide (200 ≤ status ∧ status < 300)

def isServerError (status : ℕ) : Bool := decide (500 ≤ status ∧ status < 600)

/-- `reqwest` cannot read the body. -/
def unreadable : ApiError := .network "error decoding response body"

def parseJson (r : Response) : Except ApiError Answer :=
  match r.json with
  | some a => .ok a
  | none => .error unreadable

/-- The request is sent again if it may. -/
def Outcome.transient : Outcome → Bool
  | .network _ => true
  | .response r => r.status = 429 || isServerError r.status

/-- What `send_with_retry` returns for an outcome after which it sends no more. -/
def Outcome.result : Outcome → Except ApiError Response
  | .network message => .error (.network message)
  | .response r =>
    if isSuccess r.status then .ok r
    else if r.status = 401 then .error .auth
    else if r.status = 404 then .error .notFound
    else if r.status = 409 then .error (.conflict r.body)
    else if r.status = 429 then .error .rateLimited
    else if isServerError r.status then .error (.server r.status r.body)
    else .error (.rejected r.status r.body)

/-- What `create_document_multipart` returns. -/
def Outcome.uploaded : Outcome → Except ApiError Answer
  | .network message => .error (.network message)
  | .response r =>
    if isSuccess r.status then parseJson r
    else if r.status = 401 then .error .auth
    else if r.status = 429 then .error .rateLimited
    else if isServerError r.status then .error (.server r.status r.body)
    else .error (.rejected r.status r.body)

variable {σ : Type}

def sendWithRetry (attempt : ℕ → σ → Outcome × σ) (s : σ) : Retry.Run σ Outcome :=
  Retry.run Outcome.transient attempt (MAX_RETRIES - 1) 0 INITIAL_BACKOFF_MS s

/-- The errors that a further attempt might have avoided. -/
def Exhausted : ApiError → Prop
  | .rateLimited => True
  | .server _ _ => True
  | _ => False

theorem transient_of_exhausted {o : Outcome} {e : ApiError} (he : o.result = .error e) (hex : Exhausted e) :
    o.transient = true := by
  cases o with
  | network message => rfl
  | response r =>
    simp only [Outcome.result] at he
    simp only [Outcome.transient, Bool.or_eq_true, decide_eq_true_eq]
    split_ifs at he with h1 h2 h3 h4 h5 h6
    · cases he
      exact hex.elim
    · cases he
      exact hex.elim
    · cases he
      exact hex.elim
    · exact .inl h5
    · exact .inr h6
    · cases he
      exact hex.elim

/-- **`send_with_retry` returns what the first attempt that is not transient
gives, or the fifth**, after at most a second and a half of pauses, which are
those before each of its further attempts. -/
theorem sendWithRetry_spec (attempt : ℕ → σ → Outcome × σ) (s : σ) :
    ∃ k < MAX_RETRIES, (∀ j < k, (attempt j (Retry.after attempt 0 s j)).1.transient = true) ∧
      ((attempt k (Retry.after attempt 0 s k)).1.transient = true → k + 1 = MAX_RETRIES) ∧
      (sendWithRetry attempt s).outcome = (attempt k (Retry.after attempt 0 s k)).1 ∧
      (sendWithRetry attempt s).state = Retry.after attempt 0 s (k + 1) ∧
      (sendWithRetry attempt s).pauses = (List.range k).map (fun j => INITIAL_BACKOFF_MS * 2 ^ j) ∧
      (sendWithRetry attempt s).pauses.sum + INITIAL_BACKOFF_MS = INITIAL_BACKOFF_MS * 2 ^ k ∧
      (sendWithRetry attempt s).pauses.sum ≤ 1500 ∧
      ∀ e, (sendWithRetry attempt s).outcome.result = .error e → Exhausted e → k + 1 = MAX_RETRIES := by
  obtain ⟨k, hk⟩ := Retry.run_decided Outcome.transient attempt (MAX_RETRIES - 1) 0 INITIAL_BACKOFF_MS s
  have hle : k ≤ 4 := hk.le
  have hsum : (sendWithRetry attempt s).pauses.sum + INITIAL_BACKOFF_MS = INITIAL_BACKOFF_MS * 2 ^ k := by
    unfold sendWithRetry
    rw [hk.pauses]
    exact Retry.sum_pauses _ _
  have hpow : 2 ^ k ≤ 2 ^ 4 := Nat.pow_le_pow_right (by omega) hle
  have houtcome : (sendWithRetry attempt s).outcome = (attempt k (Retry.after attempt 0 s k)).1 := by
    have ho := hk.outcome
    rwa [Nat.zero_add] at ho
  have hlast : (sendWithRetry attempt s).outcome.transient = true → k + 1 = MAX_RETRIES := fun ht =>
    congrArg Nat.succ (hk.last ht)
  refine ⟨k, Nat.lt_succ_of_le hle, fun j hj => ?_, houtcome ▸ hlast, houtcome, hk.state, hk.pauses, hsum, ?_,
    fun e he hex => hlast (transient_of_exhausted he hex)⟩
  · have hb := hk.before j hj
    rwa [Nat.zero_add] at hb
  · simp only [INITIAL_BACKOFF_MS] at hsum
    omega

/-! ### Calls -/

/-- What becomes of one attempt. -/
inductive Fate
  | answered
  /-- It does not reach the server. -/
  | unsent (message : String)
  /-- The server handles it, and its answer does not come back. -/
  | lost (message : String)
  /-- It is refused before it is handled. -/
  | refused (status : ℕ) (body : String)
  /-- The server handles it, and something between answers for it. -/
  | late (status : ℕ) (body : String)

/-- The server handles the attempt. -/
def Fate.delivered : Fate → Bool
  | .answered => true
  | .lost _ => true
  | .late _ _ => true
  | _ => false

/-- A success that is not the server's answer. -/
def Fate.feigned : Fate → Bool
  | .refused status _ => isSuccess status
  | .late status _ => isSuccess status
  | _ => false

/-- The response to a request that the server has handled. -/
def respond : Answer → Response
  | .err _ => ⟨404, "", none⟩
  | a => ⟨200, "", some a⟩

/-- Attempt `i` of a call; `newId i` is the id of a document it creates. -/
def attempt (c : Call) (newId : ℕ → String) (fate : ℕ → Fate) (i : ℕ) (s : Server) : Outcome × Server :=
  let handled := s.handle (newId i) c
  match fate i with
  | .answered => (.response (respond handled.1), handled.2)
  | .unsent message => (.network message, s)
  | .lost message => (.network message, handled.2)
  | .refused status body => (.response ⟨status, body, none⟩, s)
  | .late status body => (.response ⟨status, body, none⟩, handled.2)

/-- The call parses the body of a success; `update_document` does not. -/
def readsBody : Call → Bool
  | .updateDocument _ _ _ => false
  | _ => true

/-- What a call makes of what `send_with_retry` returns. -/
def returned (c : Call) (r : Except ApiError Response) : Except ApiError Answer :=
  r.bind fun resp => if readsBody c then parseJson resp else .ok .ok

/-- A call of the client: what it returns, and the server then. -/
def perform (c : Call) (newId : ℕ → String) (fate : ℕ → Fate) (s : Server) : Except ApiError Answer × Server :=
  match c with
  | .createDocumentMultipart _ _ => ((attempt c newId fate 0 s).1.uploaded, (attempt c newId fate 0 s).2)
  | _ => (returned c (sendWithRetry (attempt c newId fate) s).outcome.result,
      (sendWithRetry (attempt c newId fate) s).state)

def creates : Call → Bool
  | .createDocument _ _ => true
  | .createDocumentMultipart _ _ => true
  | _ => false

/-- A success that the call takes for an answer is the server's. -/
def Genuine (c : Call) (fate : ℕ → Fate) : Prop := readsBody c = true ∨ ∀ i, (fate i).feigned = false

variable {c : Call} {newId : ℕ → String} {fate : ℕ → Fate} {s : Server}

/-- What an attempt leaves. -/
theorem attempt_server (i : ℕ) (s : Server) : (attempt c newId fate i s).2 =
    if (fate i).delivered then (s.handle (newId i) c).2 else s := by
  unfold attempt
  cases fate i <;> rfl

/-- A success comes back from the server, or is feigned. -/
theorem result_ok {i : ℕ} {r : Response} (h : (attempt c newId fate i s).1.result = .ok r) :
    fate i = .answered ∧ r = respond (s.handle (newId i) c).1 ∨ (fate i).feigned = true ∧ r.json = none := by
  have hsuccess : ∀ x : Response, Outcome.result (.response x) = .ok r → isSuccess x.status = true ∧ x = r := by
    intro x hx
    simp only [Outcome.result] at hx
    split_ifs at hx with hs
    exact ⟨hs, Except.ok.inj hx⟩
  unfold attempt at h
  cases hf : fate i with
  | answered =>
    rw [hf] at h
    exact .inl ⟨rfl, (hsuccess _ h).2.symm⟩
  | unsent message | lost message =>
    rw [hf] at h
    cases h
  | refused status body | late status body =>
    rw [hf] at h
    obtain ⟨hs, rfl⟩ := hsuccess _ h
    exact .inr ⟨hs, rfl⟩

/-- The server's success is its answer, as the call returns it. -/
theorem respond_ok {n : String} (hs : isSuccess (respond (s.handle n c).1).status = true) :
    returned c (.ok (respond (s.handle n c).1)) = .ok (s.handle n c).1 := by
  cases c with
  | updateDocument id fp b =>
    rw [Server.handle_updateDocument] at hs ⊢
    split_ifs at hs ⊢
    · rfl
    · exact absurd hs Bool.false_ne_true
  | getDocument id =>
    unfold Server.handle at hs ⊢
    dsimp only at hs ⊢
    cases hd : s.get id with
    | none =>
      rw [hd] at hs
      exact absurd hs Bool.false_ne_true
    | some d => rfl
  | listDocuments | createDocument | createDocumentMultipart | deleteDocumentsByIds | deleteDocuments => rfl

/-- A call returns an answer only if an attempt was answered, and then that answer. -/
theorem returned_ok {i : ℕ} {a : Answer} (hg : Genuine c fate)
    (h : returned c (attempt c newId fate i s).1.result = .ok a) :
    fate i = .answered ∧ (s.handle (newId i) c).1 = a := by
  cases hr : (attempt c newId fate i s).1.result with
  | error e =>
    rw [hr] at h
    cases h
  | ok r =>
    rw [hr] at h
    rcases result_ok hr with ⟨hf, rfl⟩ | ⟨hf, hjson⟩
    · refine ⟨hf, ?_⟩
      have hs : isSuccess (respond (s.handle (newId i) c).1).status = true := by
        have hres : Outcome.result (.response (respond (s.handle (newId i) c).1)) =
            .ok (respond (s.handle (newId i) c).1) := by
          unfold attempt at hr
          rw [hf] at hr
          exact hr
        simp only [Outcome.result] at hres
        split_ifs at hres with hs
        exact hs
      rw [respond_ok hs] at h
      exact Except.ok.inj h
    · -- no body, so the call that reads it gives an error
      rcases hg with hreads | hnone
      · have hparse : returned c (.ok r) = .error unreadable := by
          unfold returned
          simp only [Except.bind, hreads, if_true, parseJson, hjson]
        rw [hparse] at h
        cases h
      · rw [hnone i] at hf
        cases hf

/-! ### Calls that create nothing -/

/-- A success of something between, before any answer of the server: `update_document` returns it, and the server has not
heard of the update. -/
theorem perform_feigned {id fp body : String} {b : Option Bytes} {status : ℕ} (hs : isSuccess status = true)
    (hf : fate 0 = .refused status body) : perform (.updateDocument id fp b) newId fate s = (.ok .ok, s) := by
  have hattempt : attempt (.updateDocument id fp b) newId fate 0 s = (.response ⟨status, body, none⟩, s) := by
    unfold attempt
    rw [hf]
  have htransient : Outcome.transient (.response ⟨status, body, none⟩) = false := by
    unfold isSuccess at hs
    simp only [Outcome.transient, isServerError, Bool.or_eq_false_iff, decide_eq_false_iff_not]
    rw [decide_eq_true_eq] at hs
    omega
  have hrun : sendWithRetry (attempt (.updateDocument id fp b) newId fate) s =
      ⟨.response ⟨status, body, none⟩, s, []⟩ := by
    simp [sendWithRetry, MAX_RETRIES, Retry.run, hattempt, htransient]
  simp only [perform, hrun, Outcome.result, hs, if_true]
  rfl

/-- The documents that the first `n` attempts create. -/
def copies (content : Bytes) (filepath : String) (newId : ℕ → String) (fate : ℕ → Fate) (n : ℕ) : List ServerDoc :=
  ((List.range n).filter fun i => (fate i).delivered).map fun i => ⟨newId i, filepath, content, false⟩

variable {content : Bytes} {filepath : String}

theorem copies_succ (n : ℕ) : copies content filepath newId fate (n + 1) = copies content filepath newId fate n ++
    if (fate n).delivered then [⟨newId n, filepath, content, false⟩] else [] := by
  unfold copies
  rw [List.range_succ, List.filter_append, List.map_append]
  congr 1
  by_cases hd : (fate n).delivered = true <;> simp [hd]

theorem length_copies (n : ℕ) : (copies content filepath newId fate n).length ≤ n := by
  unfold copies
  rw [List.length_map]
  exact (List.length_filter_le _ _).trans_eq (List.length_range)

theorem after_create (k : ℕ) : Retry.after (attempt (.createDocument content filepath) newId fate) 0 s k =
    s ++ copies content filepath newId fate k := by
  induction k with
  | zero => simp [Retry.after, copies]
  | succ k ih =>
    unfold Retry.after
    rw [Nat.zero_add, attempt_server, ih, copies_succ]
    by_cases hd : (fate k).delivered = true
    · rw [if_pos hd, if_pos hd, ← List.append_assoc]
      rfl
    · rw [if_neg hd, if_neg hd, List.append_nil]

/-- **A document is created once for each attempt that reaches the server**,
five times at most; the id that is returned is the one of the last. -/
theorem perform_create (content : Bytes) (filepath : String) (newId : ℕ → String) (fate : ℕ → Fate) (s : Server) :
    ∃ k < MAX_RETRIES, (perform (.createDocument content filepath) newId fate s).2 =
        s ++ copies content filepath newId fate (k + 1) ∧
      (copies content filepath newId fate (k + 1)).length ≤ MAX_RETRIES ∧
      ∀ a, (perform (.createDocument content filepath) newId fate s).1 = .ok a → a = .created (newId k) ∧
        (copies content filepath newId fate (k + 1)).getLast? = some ⟨newId k, filepath, content, false⟩ := by
  obtain ⟨k, hd⟩ := Retry.run_decided Outcome.transient (attempt (.createDocument content filepath) newId fate)
    (MAX_RETRIES - 1) 0 INITIAL_BACKOFF_MS s
  have hk : k < MAX_RETRIES := Nat.lt_succ_of_le hd.le
  refine ⟨k, hk, hd.state.trans (after_create (k + 1)), (length_copies (k + 1)).trans hk, fun a ha => ?_⟩
  have hresult : returned (.createDocument content filepath) (attempt (.createDocument content filepath) newId fate k
      (Retry.after (attempt (.createDocument content filepath) newId fate) 0 s k)).1.result = .ok a := by
    have ho := hd.outcome
    rw [Nat.zero_add] at ho
    rw [← ho]
    exact ha
  obtain ⟨hfate, hanswer⟩ := returned_ok (.inl rfl) hresult
  refine ⟨hanswer.symm, ?_⟩
  rw [copies_succ, hfate]
  simp [Fate.delivered]

/-- An upload is not sent again, so it creates one document at most. -/
theorem perform_upload : (perform (.createDocumentMultipart content filepath) newId fate s).2 =
    s ++ copies content filepath newId fate 1 := by
  have hserver : (perform (.createDocumentMultipart content filepath) newId fate s).2 =
      if (fate 0).delivered then s ++ [⟨newId 0, filepath, content, false⟩] else s := attempt_server 0 s
  have hone : copies content filepath newId fate (0 + 1) = _ := copies_succ 0
  rw [hserver, hone]
  split_ifs <;> simp [copies]

/-! ### Listings -/

/-- The loop of `list_documents` over a list that does not change, from this
page on; it runs out after `fuel` pages. -/
def listFrom {α : Type} (docs : List α) : ℕ → ℕ → List α → Option (List α)
  | 0, _, _ => none
  | fuel + 1, page, all =>
    let memories := Paging.page 100 docs page
    if Paging.totalPages 100 docs ≤ page ∨ memories.length = 0 then some (all ++ memories)
    else listFrom docs fuel (page + 1) (all ++ memories)

def listDocuments {α : Type} (docs : List α) : Option (List α) := listFrom docs (Paging.totalPages 100 docs + 1) 1 []

theorem listFrom_all {α : Type} (docs : List α) (fuel page : ℕ) (hfuel : Paging.totalPages 100 docs ≤ fuel + page) :
    listFrom docs (fuel + 1) (page + 1) (docs.take (page * 100)) = some docs := by
  induction fuel generalizing page with
  | zero =>
    have hlast : Paging.totalPages 100 docs ≤ page := by omega
    have hahead : Paging.ahead 100 docs page = [] := Paging.ahead_of_last (by omega) hlast
    unfold listFrom
    rw [if_pos (.inl (hlast.trans (Nat.le_succ _))), Paging.page_succ, hahead]
    simpa [Paging.ahead, List.take_eq_self_iff] using hahead
  | succ fuel ih =>
    have hnext : docs.take (page * 100) ++ Paging.page 100 docs (page + 1) = docs.take ((page + 1) * 100) := by
      rw [Paging.page_succ, Nat.succ_mul, List.take_add]
      rfl
    unfold listFrom
    dsimp only
    split_ifs with hstop
    · have hahead : Paging.ahead 100 docs (page + 1) = [] := by
        rcases hstop with hlast | hnone
        · exact Paging.ahead_of_last (by omega) hlast
        · have hnil := Paging.ahead_of_page_nil (by omega) (List.length_eq_zero_iff.mp hnone)
          rw [Paging.ahead_succ, hnil]
          rfl
      rw [hnext]
      simpa [Paging.ahead, List.take_eq_self_iff] using hahead
    · rw [hnext]
      exact ih (page + 1) (by omega)

/-- **All the documents are listed**, in their order. -/
theorem listDocuments_all {α : Type} (docs : List α) : listDocuments docs = some docs := by
  have h := listFrom_all docs (Paging.totalPages 100 docs) 0 (by omega)
  simpa [listDocuments] using h

end Smfs.Api
