import MongrelDB.Client.Http
import MongrelDB.Walker.RowSafety

/-!
# Transfers and what `request` makes of them
-/

namespace MongrelDB

open Text Traced

/-- The request that a call makes. -/
def Client.requestOf (c : Client) (method : String) (path : Bytes) (body : Option Bytes) :
    Request :=
  ⟨ascii method, c.baseUrl ++ (if path.head? = some slash then [] else [slash]) ++ path, body⟩

/-- Every transfer of the client is completed with this status and this body. -/
def Client.Answers (c : Client) (code : Int) (body : Bytes) : Prop :=
  ∀ r, c.curl r = .performed .ok code body

variable {c : Client} {code : Int} {body : Bytes} {method : String} {path : Bytes}
  {content : Option Bytes}

lemma out_request_of_success
    (h : c.curl (c.requestOf method path content) = .performed .ok code body)
    (hlen : body.length ≤ kMaxResponseBytes) (hlo : 200 ≤ code) (hhi : code < 300) :
    (c.request method path content).out = .ok body := by
  rw [Client.request, ← Client.requestOf]
  simp only [h]
  rw [Run.out_bind_ok (Run.out_emit _), if_neg (by simp; omega)]
  rw [if_neg (by omega)]
  rfl

lemma out_request_of_failure
    (h : c.curl (c.requestOf method path content) = .performed .ok code body)
    (hlen : body.length ≤ kMaxResponseBytes) (hcode : ¬(200 ≤ code ∧ code < 300)) :
    (c.request method path content).out = (throwEnvelope c.plat code body).out := by
  rw [Client.request, ← Client.requestOf]
  simp only [h]
  rw [Run.out_bind_ok (Run.out_emit _), if_neg (by simp; omega)]
  rw [if_pos (by omega)]

/-! ### What is sent -/

lemma not_sent_of_safeCall {α : Type} {bad : Stop → Prop} {x : Call α} (h : SafeCall bad x)
    (r : Request) : Event.sent r ∉ x.log := fun hr => h.log _ hr

lemma safeCall_throwEnvelope (plat : Platform) (code : Int) (body : Bytes) :
    SafeCall (fun _ => True) (throwEnvelope plat code body) := by
  have hstop : ∀ {α : Type} (e : Stop), SafeCall (α := α) (fun _ => True) (Run.stop e) :=
    fun _ => Run.meets_stop trivial
  refine safeCall_getString.bind fun _ => safeCall_getString.bind fun _ => ?_
  exact SafeCall.ite (hstop _) (safeCall_getNumber.bind fun _ => hstop _)

/-- What `request` makes of a completed transfer sends nothing more. -/
lemma safeCall_response (c : Client) (rc : CurlCode) (code : Int) (body : Bytes) :
    SafeCall (fun _ => True) (
      if rc = .filesizeExceeded ∨ rc = .writeError ∨ body.length > kMaxResponseBytes then
        Run.stop (.thrown (.query (ascii "mongreldb: response body exceeds " ++
          decimal kMaxResponseBytes ++ ascii " bytes")))
      else match rc with
        | .other strerror =>
          Run.stop (.thrown (.query (ascii "mongreldb: network error: " ++ strerror)))
        | _ =>
          if code < 200 ∨ code ≥ 300 then throwEnvelope c.plat code body
          else return body) := by
  refine SafeCall.ite (Run.meets_stop trivial) ?_
  split
  · exact Run.meets_stop trivial
  · exact SafeCall.ite (safeCall_throwEnvelope _ _ _) safeCall_pure

/-- A call sends the one request it makes, unless libcurl cannot be set up. -/
lemma sent_mem_request {r : Request} : Event.sent r ∈ (c.request method path content).log ↔
    r = c.requestOf method path content ∧ c.curl r ≠ .initFailed := by
  rw [Client.request, ← Client.requestOf]
  cases hc : c.curl (c.requestOf method path content) with
  | initFailed =>
    constructor
    · intro h
      cases h
    · rintro ⟨rfl, h⟩
      exact absurd hc h
  | performed rc code body =>
    simp only [Run.mem_log_bind]
    constructor
    · rintro (h | ⟨_, -, h⟩)
      · obtain rfl := Event.sent.inj (List.mem_singleton.mp h)
        exact ⟨rfl, by simp [hc]⟩
      · exact absurd h (not_sent_of_safeCall (safeCall_response c rc code body) r)
    · rintro ⟨rfl, -⟩
      exact .inl (List.mem_singleton.mpr rfl)

end MongrelDB
