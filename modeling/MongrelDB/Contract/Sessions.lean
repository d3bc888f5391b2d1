import MongrelDB.Contract.Errors
import MongrelDB.Contract.Operations

/-!
# Sessions of clients with a daemon

Whatever the daemon answers, and however the calls of several clients are interleaved, the requests
that reach it are those of the calls, in their order and each at most once; and the request of a
call that reports success has reached it and was accepted.
-/

namespace MongrelDB

open Text Traced Json

/-! ### Accepted transfers -/

/-- The transfer is complete, with a status of success and a body within the limit. -/
structure Accepted (t : Transfer) (body : Bytes) : Prop where
  transfer : ∃ code : Int, t = .performed .ok code body ∧ 200 ≤ code ∧ code < 300
  length_le : body.length ≤ kMaxResponseBytes

variable {plat : Platform} {t : Transfer} {body : Bytes}

/-- What `request` makes of a transfer: the response, or an exception that says what went wrong. -/
inductive Outcome : Transfer → Except Stop Bytes → Prop where
  | noHandle :
    Outcome .initFailed (.error (.thrown (.query (ascii "mongreldb: curl_easy_init failed"))))
  | tooLong {rc : CurlCode} {code : Int} {body : Bytes}
      (h : rc = .filesizeExceeded ∨ rc = .writeError ∨ body.length > kMaxResponseBytes) :
    Outcome (.performed rc code body) (.error (.thrown (.query
      (ascii "mongreldb: response body exceeds " ++ decimal kMaxResponseBytes ++ ascii " bytes"))))
  | network {strerror : Bytes} {code : Int} {body : Bytes}
      (hlen : body.length ≤ kMaxResponseBytes) :
    Outcome (.performed (.other strerror) code body)
      (.error (.thrown (.query (ascii "mongreldb: network error: " ++ strerror))))
  /-- the status is none of success, and the exception describes the body -/
  | refused {code : Int} {body : Bytes} {e : MongrelDBException}
      (hlen : body.length ≤ kMaxResponseBytes) (hcode : ¬(200 ≤ code ∧ code < 300))
      (h : Describes code body e)
      (hobj : ∀ d : ObjDoc, d.render = body → DescribesObj code d.obj body e) :
    Outcome (.performed .ok code body) (.error (.thrown e))
  | accepted {code : Int} {body : Bytes} (hlen : body.length ≤ kMaxResponseBytes)
      (hcode : 200 ≤ code ∧ code < 300) :
    Outcome (.performed .ok code body) (.ok body)

lemma outcome_responseOf (plat : Platform) (t : Transfer) : Outcome t (responseOf plat t) := by
  cases t with
  | initFailed => exact .noHandle
  | performed rc code body =>
    change Outcome _ (afterTransfer plat rc code body)
    unfold afterTransfer
    by_cases hlong : rc = .filesizeExceeded ∨ rc = .writeError ∨ body.length > kMaxResponseBytes
    · rw [if_pos hlong]
      exact .tooLong hlong
    rw [if_neg hlong]
    simp only [not_or, not_lt] at hlong
    obtain ⟨hsize, hwrite, hlen⟩ := hlong
    cases rc with
    | filesizeExceeded => exact absurd rfl hsize
    | writeError => exact absurd rfl hwrite
    | other strerror => exact .network hlen
    | ok =>
      by_cases hcode : 200 ≤ code ∧ code < 300
      · simp only
        rw [if_neg (by omega)]
        exact .accepted hlen hcode
      · obtain ⟨e, he, hdescribes, hobject⟩ := exists_throwEnvelope plat code body
        simp only
        rw [if_pos (by omega), he]
        exact .refused hlen hcode hdescribes hobject

/-- A response is returned exactly if the transfer was accepted. -/
lemma responseOf_eq_ok : responseOf plat t = .ok body ↔ Accepted t body := by
  have houtcome := outcome_responseOf plat t
  constructor
  · intro h
    rw [h] at houtcome
    cases houtcome with
    | accepted hlen hcode => exact ⟨⟨_, rfl, hcode⟩, hlen⟩
  · rintro ⟨⟨code, rfl, hcode⟩, hlen⟩
    generalize responseOf plat (.performed .ok code body) = r at houtcome
    cases houtcome with
    | tooLong h => simp [Nat.not_lt.mpr hlen] at h
    | refused _ hcode' => exact absurd hcode hcode'
    | accepted => rfl

lemma answer_eq_ok {β : Type} {decode : Bytes → Call β} {a : β} :
    Plan.answer plat decode t = .ok a ↔ ∃ body, Accepted t body ∧ (decode body).out = .ok a := by
  unfold Plan.answer
  constructor
  · intro h
    cases hr : responseOf plat t with
    | error e =>
      rw [hr] at h
      cases h
    | ok body =>
      rw [hr] at h
      exact ⟨body, responseOf_eq_ok.mp hr, h⟩
  · rintro ⟨body, hbody, ha⟩
    rw [responseOf_eq_ok.mpr hbody]
    exact ha

lemma Accepted.delivered (h : Accepted t body) : t.delivered = true := by
  obtain ⟨⟨code, rfl, -⟩, -⟩ := h
  rfl

/-! ### Calls that report success -/

namespace Operation

/-- The request of the call, if it makes one. -/
def request (plat : Platform) (baseUrl : Bytes) (o : Operation) : Option Request :=
  (o.plan plat).message.map (Message.request baseUrl)

def exchange (plat : Platform) (baseUrl : Bytes) (o : Operation) :
    Exchange Request Transfer (Except Stop o.Answer) :=
  ((o.plan plat).exchange plat baseUrl).map o.caught

/-- The call returns, and if it is `health`, it returns true. -/
def succeeds : (o : Operation) → Except Stop o.Answer → Bool
  | health, .ok b => b
  | _, .ok _ => true
  | _, .error _ => false

variable {plat : Platform} {baseUrl : Bytes} {o : Operation}

lemma request_exchange : (o.exchange plat baseUrl).request = o.request plat baseUrl := by
  unfold exchange request
  rw [Exchange.request_map]
  cases o.plan plat <;> rfl

/-- A call is its exchange, whatever the daemon answers. -/
lemma refines : Refines Event.request? Transfer.delivered
    (fun curl => o.run ⟨plat, baseUrl, curl⟩) (o.exchange plat baseUrl) := by
  have h := (Plan.refines (quiet_plan plat o) plat baseUrl).mapOut o.caught
  intro curl
  have hrun : o.run ⟨plat, baseUrl, curl⟩ =
      ((o.plan plat).run ⟨plat, baseUrl, curl⟩).mapOut o.caught := run_eq _ o
  simp only [hrun]
  exact h curl

lemma exists_ok_of_succeeds {r : Except Stop o.Answer} (h : o.succeeds (o.caught r) = true) :
    ∃ a, r = .ok a ∧ o.caught r = .ok a := by
  cases o with
  | health =>
    rcases r with (_ | _ | e) | a
    · cases h
    · cases h
    · cases e <;> cases h
    · exact ⟨a, rfl, rfl⟩
  | _ =>
    rcases r with e | a
    · cases h
    · exact ⟨a, rfl, rfl⟩

/-- What is decoded from an accepted body is a success. -/
lemma succeeds_decoded {m : Message} {decode : Bytes → Call o.Answer} {a : o.Answer}
    (hplan : o.plan plat = .sends m decode) (h : (decode body).out = .ok a) :
    o.succeeds (o.caught (.ok a)) = true := by
  cases o with
  | health =>
    cases hplan
    cases h
    rfl
  | _ => rfl

/-- The request of a call that reports success has got through. -/
lemma received_of_succeeds {curl : Request → Transfer}
    (h : o.succeeds ((o.exchange plat baseUrl).out curl) = true) :
    (o.exchange plat baseUrl).received Transfer.delivered curl =
      (o.exchange plat baseUrl).request.toList := by
  unfold exchange at h ⊢
  cases hplan : o.plan plat with
  | closed r => rfl
  | sends m decode =>
    rw [hplan] at h
    obtain ⟨a, ha, -⟩ := exists_ok_of_succeeds h
    obtain ⟨body, hbody, -⟩ := answer_eq_ok.mp ha
    exact if_pos hbody.delivered

lemma caught_ok (a : o.Answer) : o.caught (.ok a) = .ok a := by
  cases o <;> rfl

lemma caught_closed {r r' : Except Stop o.Answer} (h : o.plan plat = .closed r) :
    o.caught r' = r' := by
  cases o with
  | health => cases h
  | _ => rfl

/-- Only `health` catches, and what it catches is a `QueryException`. -/
lemma error_of_caught {r : Except Stop o.Answer} {e : Stop} (h : o.caught r = .error e) :
    r = .error e := by
  cases o with
  | health =>
    rcases r with (_ | _ | x) | a
    · exact h
    · exact h
    · cases x with
      | query w => cases h
      | _ => exact h
    · cases h
  | _ => exact h

end Operation

/-! ### What a call ends with -/

/-- The class of the exception that a call ends with after this transfer, if `what` is its text. -/
def Transfer.kind (what : Bytes) : Transfer → ExceptionKind
  | .performed .ok code body =>
    if body.length ≤ kMaxResponseBytes ∧ ¬(200 ≤ code ∧ code < 300) then
      if SaysNotFound what then .notFound else statusKind code
    else .query
  | _ => .query

lemma Accepted.kind (h : Accepted t body) (what : Bytes) : t.kind what = .query := by
  obtain ⟨⟨code, rfl, hcode⟩, -⟩ := h
  exact if_neg fun h => h.2 hcode

lemma Outcome.kind {e : Stop} (h : Outcome t (.error e)) :
    ∃ x, e = .thrown x ∧ x.kind = t.kind x.what := by
  cases h with
  | noHandle => exact ⟨_, rfl, rfl⟩
  | network hlen => exact ⟨_, rfl, rfl⟩
  | refused hlen hcode hdescribes =>
    exact ⟨_, rfl, hdescribes.kind.trans (if_pos ⟨hlen, hcode⟩).symm⟩
  | @tooLong rc code body h =>
    refine ⟨_, rfl, ?_⟩
    cases rc with
    | ok =>
      have hlong : body.length > kMaxResponseBytes := by simpa using h
      exact (if_neg fun h => Nat.not_lt.mpr h.1 hlong).symm
    | filesizeExceeded | writeError | other => rfl

lemma kind_of_answer {β : Type} {decode : Bytes → Call β} {e : Stop}
    (hdecode : ∀ body e, (decode body).out = .error e → e.IsQueryException)
    (h : Plan.answer plat decode t = .error e) : ∃ x, e = .thrown x ∧ x.kind = t.kind x.what := by
  have houtcome := outcome_responseOf plat t
  unfold Plan.answer at h
  cases hr : responseOf plat t with
  | error e' =>
    rw [hr] at h houtcome
    cases h
    exact houtcome.kind
  | ok body =>
    rw [hr] at h
    have hquery := hdecode body e h
    obtain ⟨text, rfl⟩ := hquery.eq_thrown
    exact ⟨_, rfl, ((responseOf_eq_ok.mp hr).kind _).symm⟩

/-- A call that needs no request makes none. Any other makes exactly one, unless libcurl cannot be
set up, and ends with what is made of the transfer: the response is decoded, which succeeds or
throws a `QueryException`, and any other transfer is thrown as what went wrong, with the class that
belongs to it. So the call reports success exactly if the transfer was accepted and the body can be
decoded. -/
theorem call_outcome (c : Client) (o : Operation) :
    match o.plan c.plat with
    | .closed r =>
      (o.run c).log = [] ∧ (o.run c).out = r ∧ ∀ e, r = .error e → e.IsQueryException
    | .sends m decode =>
      (o.run c).sent Event.request? = (if (c.curl (m.request c.baseUrl)).delivered then
        [m.request c.baseUrl] else []) ∧
      (∃ r, Outcome (c.curl (m.request c.baseUrl)) r ∧
        (o.run c).out = o.caught (r >>= fun body => (decode body).out)) ∧
      (∀ body e, (decode body).out = .error e → e.IsQueryException) ∧
      (o.succeeds (o.run c).out = true ↔
        ∃ body a, Accepted (c.curl (m.request c.baseUrl)) body ∧ (decode body).out = .ok a) ∧
      (∀ body a, Accepted (c.curl (m.request c.baseUrl)) body → (decode body).out = .ok a →
        (o.run c).out = .ok a) ∧
      ∀ e, (o.run c).out = .error e →
        ∃ x, e = .thrown x ∧ x.kind = (c.curl (m.request c.baseUrl)).kind x.what := by
  have hrun := o.run_eq c
  have hquiet := o.quiet_plan c.plat
  cases hplan : o.plan c.plat with
  | closed r =>
    rw [hplan] at hrun hquiet
    rw [hrun]
    exact ⟨rfl, Operation.caught_closed hplan, hquiet⟩
  | sends m decode =>
    rw [hplan] at hrun hquiet
    have hsent : (o.run c).sent Event.request? =
        ((Plan.sends m decode).exchange c.plat c.baseUrl).received Transfer.delivered c.curl := by
      rw [hrun]
      exact (Plan.refines hquiet c.plat c.baseUrl c.curl).2
    have hout : (o.run c).out =
        o.caught (Plan.answer c.plat decode (c.curl (m.request c.baseUrl))) := by
      rw [hrun]
      exact congrArg o.caught Plan.out_run_sends
    have hdecode : ∀ body e, (decode body).out = .error e → e.IsQueryException :=
      fun body e he => (hquiet body).error e he
    refine ⟨hsent, ⟨_, outcome_responseOf c.plat _, hout⟩, hdecode, ⟨fun h => ?_, ?_⟩,
      fun body a hbody ha => ?_, fun e he => ?_⟩
    · rw [hout] at h
      obtain ⟨a, ha, -⟩ := Operation.exists_ok_of_succeeds h
      obtain ⟨body, hbody, ha⟩ := answer_eq_ok.mp ha
      exact ⟨body, a, hbody, ha⟩
    · rintro ⟨body, a, hbody, ha⟩
      rw [hout, answer_eq_ok.mpr ⟨body, hbody, ha⟩]
      exact Operation.succeeds_decoded hplan ha
    · rw [hout, answer_eq_ok.mpr ⟨body, hbody, ha⟩]
      exact Operation.caught_ok a
    · rw [hout] at he
      exact kind_of_answer hdecode (Operation.error_of_caught he)

/-! ### Sessions -/

/-- A client of a session: what it runs on and the daemon it talks to. -/
structure Party where
  plat : Platform
  baseUrl : Bytes

variable {σ κ : Type}

/-- The calls of several clients, in the order in which they are made, against one daemon. -/
def session (sv : Server σ Request Transfer) (party : κ → Party) (s : σ)
    (calls : List (κ × Operation)) :
    Session σ Request (κ × Operation) fun i => Except Stop i.2.Answer :=
  play Event.request? sv
    (fun i curl => i.2.run ⟨(party i.1).plat, (party i.1).baseUrl, curl⟩) s calls

/-- The request that a call of a session makes. -/
def requestIn (party : κ → Party) (i : κ × Operation) : Option Request :=
  i.2.request (party i.1).plat (party i.1).baseUrl

/-- The request of a call of a session, if it reported success. -/
def acknowledged (party : κ → Party)
    (r : (i : κ × Operation) × Except Stop i.2.Answer) : Option Request :=
  if r.1.2.succeeds r.2 then requestIn party r.1 else none

def exchangeIn (party : κ → Party) (i : κ × Operation) :
    Exchange Request Transfer (Except Stop i.2.Answer) :=
  i.2.exchange (party i.1).plat (party i.1).baseUrl

lemma requestIn_eq (party : κ → Party) :
    requestIn party = fun i => (exchangeIn party i).request :=
  funext fun _ => Operation.request_exchange.symm

lemma session_eq (sv : Server σ Request Transfer) (party : κ → Party) (s : σ)
    (calls : List (κ × Operation)) : session sv party s calls =
      playExchanges Transfer.delivered sv (exchangeIn party) s calls := by
  apply play_eq
  intro i
  exact Operation.refines

/-- In every session of any number of clients, whatever the daemon answers and whichever requests do
not get through: every call has its turn, and no other request is received than those of the calls,
each at most once and in the order of the calls. The requests of the calls that report success are
received, the state of the daemon is what the received requests make of it, and if all requests
get through, exactly the requests of the calls are received. -/
theorem session_requests (sv : Server σ Request Transfer) (party : κ → Party) (s : σ)
    (calls : List (κ × Operation)) :
    (session sv party s calls).results.map Sigma.fst = calls ∧
      ((session sv party s calls).results.filterMap (acknowledged party)).Sublist
        (session sv party s calls).received ∧
      (session sv party s calls).received.Sublist (calls.filterMap (requestIn party)) ∧
      (session sv party s calls).state = sv.after s (session sv party s calls).received ∧
      ((∀ s r, (sv.answer s r).delivered = true) →
        (session sv party s calls).received = calls.filterMap (requestIn party)) := by
  rw [session_eq, requestIn_eq]
  refine ⟨map_results_playExchanges _ sv s calls, ?_, received_playExchanges_sublist _ sv s calls,
    state_playExchanges _ sv s calls, received_playExchanges_eq _ sv s calls⟩
  have hgood : ∀ (i : κ × Operation) curl, i.2.succeeds ((exchangeIn party i).out curl) = true →
      (exchangeIn party i).received Transfer.delivered curl =
        (exchangeIn party i).request.toList :=
    fun _ _ h => Operation.received_of_succeeds h
  unfold acknowledged
  rw [requestIn_eq]
  exact sublist_received_playExchanges _ sv s calls (fun i r => i.2.succeeds r) hgood

end MongrelDB
