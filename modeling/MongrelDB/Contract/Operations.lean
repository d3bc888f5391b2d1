import MongrelDB.Client.Calls
import MongrelDB.Client.Easy
import MongrelDB.Contract.Requests
import MongrelDB.Traced.Session

/-!
# The calls of the client as exchanges

Every public call either ends without a request or makes exactly one, and what it ends with is a
function of the answer to that one. `Operation.plan` says so in one table, and `Operation.run_eq`
that the calls do as the table says.
-/

namespace MongrelDB

open Text Traced

/-! ### Requests and transfers -/

/-- The request that an event hands to libcurl. -/
def Event.request? : Event → Option Request
  | .sent r => some r
  | _ => none

/-- The request has reached libcurl. -/
def Transfer.delivered : Transfer → Bool
  | .initFailed => false
  | .performed .. => true

/-- What `request` returns or throws for a transfer. -/
def responseOf (plat : Platform) : Transfer → Except Stop Bytes
  | .initFailed => .error (.thrown (.query (ascii "mongreldb: curl_easy_init failed")))
  | .performed rc httpCode response => afterTransfer plat rc httpCode response

lemma Run.sent_eq_nil_of_safeCall {α : Type} {bad : Stop → Prop} {x : Call α}
    (h : SafeCall bad x) : x.sent Event.request? = [] := by
  apply Run.sent_eq_nil
  intro e he
  cases e with
  | sent r => exact absurd he (not_sent_of_safeCall h r)
  | _ => rfl

section Request

variable (c : Client) (method : String) (path : Bytes) (content : Option Bytes)

lemma out_request : (c.request method path content).out =
    responseOf c.plat (c.curl (c.requestOf method path content)) := by
  rw [Client.request, ← Client.requestOf]
  cases c.curl (c.requestOf method path content) with
  | initFailed => rfl
  | performed rc code body =>
    simp only [responseOf, afterTransfer]
    rw [Run.out_bind_ok (Run.out_emit _)]
    by_cases hrefused : rc = .filesizeExceeded ∨ rc = .writeError ∨ body.length > kMaxResponseBytes
    · rw [if_pos hrefused, if_pos hrefused]
      rfl
    rw [if_neg hrefused, if_neg hrefused]
    cases rc with
    | other strerror => rfl
    | _ =>
      simp only
      split <;> rfl

lemma sent_request : (c.request method path content).sent Event.request? =
    if (c.curl (c.requestOf method path content)).delivered then
      [c.requestOf method path content] else [] := by
  rw [Client.request, ← Client.requestOf]
  cases hc : c.curl (c.requestOf method path content) with
  | initFailed => rfl
  | performed rc code body =>
    rw [Run.sent_bind]
    · rfl
    · intro _
      exact Run.sent_eq_nil_of_safeCall (safeCall_response c rc code body)

end Request

/-! ### Plans -/

structure Message where
  method : String
  path : Bytes
  content : Option Bytes

/-- The request that carries the message to the daemon at this URL. -/
def Message.request (baseUrl : Bytes) (m : Message) : Request :=
  ⟨ascii m.method, baseUrl ++ (if m.path.head? = some slash then [] else [slash]) ++ m.path,
    m.content⟩

/-- What a call does: it ends at once, or it sends a message and decodes the body that is
returned. -/
inductive Plan (β : Type) where
  | closed (r : Except Stop β)
  | sends (m : Message) (decode : Bytes → Call β)

namespace Plan

variable {β : Type}

def message : Plan β → Option Message
  | closed _ => none
  | sends m _ => some m

def run (c : Client) : Plan β → Call β
  | closed r => ⟨[], r⟩
  | sends m decode => c.request m.method m.path m.content >>= decode

/-- The call is closed in some case. -/
def closedIf (p : Prop) [Decidable p] (r : Except Stop β) (plan : Plan β) : Plan β :=
  if p then closed r else plan

/-- What the call ends with when the transfer of its request is this one. -/
def answer (plat : Platform) (decode : Bytes → Call β) (t : Transfer) : Except Stop β :=
  responseOf plat t >>= fun body => (decode body).out

def exchange (plat : Platform) (baseUrl : Bytes) :
    Plan β → Exchange Request Transfer (Except Stop β)
  | closed r => .closed r
  | sends m decode => .ask (m.request baseUrl) (answer plat decode)

/-- A call that ends at once, or its decoding, ends with a value or with a `QueryException`, and it
sends nothing. -/
def Quiet : Plan β → Prop
  | closed r => ∀ e, r = .error e → e.IsQueryException
  | sends _ decode => ∀ body, SafeCall Stop.IsQueryException (decode body)

lemma out_run_sends {c : Client} {m : Message} {decode : Bytes → Call β} :
    ((sends m decode).run c).out = answer c.plat decode (c.curl (m.request c.baseUrl)) := by
  have hout : (c.request m.method m.path m.content).out =
      responseOf c.plat (c.curl (m.request c.baseUrl)) := out_request ..
  rw [run, answer, ← hout]
  cases hr : (c.request m.method m.path m.content).out with
  | error e => exact Run.out_bind_error hr decode
  | ok body => exact Run.out_bind_ok hr decode

/-- The run of a plan is its exchange, whatever the server answers. -/
lemma refines {plan : Plan β} (h : plan.Quiet) (plat : Platform) (baseUrl : Bytes) :
    Refines Event.request? Transfer.delivered (fun curl => plan.run ⟨plat, baseUrl, curl⟩)
      (plan.exchange plat baseUrl) := by
  intro curl
  cases plan with
  | closed r => exact ⟨rfl, rfl⟩
  | sends m decode =>
    constructor
    · exact out_run_sends
    · exact (Run.sent_bind fun body => Run.sent_eq_nil_of_safeCall (h body)).trans
        (sent_request ..)

end Plan

/-! ### Operations -/

/-- The ops are posted in one transaction, if there are any. -/
def commitPlan (plat : Platform) (ops : List Op) (idempotencyKey : Bytes) : Plan Unit :=
  .closedIf ops.isEmpty (.ok ()) (.sends
    ⟨"POST", ascii "/kit/txn", some (commitBody plat ops idempotencyKey)⟩ fun _ => pure ())

/-- A query has a name that is not empty. -/
def queryPlan {β : Type} (queryId : Bytes) (plan : Plan β) : Plan β :=
  .closedIf queryId.isEmpty
    (.error (.thrown (.query (ascii "mongreldb: query_id is required")))) plan

/-- The public calls of the client with their arguments. -/
inductive Operation where
  | health
  | tableNames
  | historyRetention
  | setHistoryRetentionEpochs (epochs : UInt64)
  | historyRetentionEpochs
  | earliestRetainedEpoch
  | createTable (name : Bytes) (columns : List Column) (constraintsJson : Bytes)
    (indexes : List Index)
  | dropTable (name : Bytes)
  | count (table : Bytes)
  | put (table : Bytes) (cells : List Cell) (idempotencyKey : Bytes)
  | upsert (table : Bytes) (cells updateCells : List Cell) (idempotencyKey : Bytes)
  | del (table : Bytes) (rowId : Int64)
  | deleteByPk (table : Bytes) (pk : Value)
  | commit (ops : List Op) (idempotencyKey : Bytes)
  | query (table : Bytes) (conditions : List Condition) (projection : List Int64)
    (limit offset : Int64)
  | sql (statement : Bytes)
  | queryStatus (queryId : Bytes)
  | cancelQuery (queryId : Bytes)
  | retrieveText (table : Bytes) (embeddingColumn : Int64) (text : Bytes) (k : Int64)
  | schema
  | schemaFor (table : Bytes)

namespace Operation

/-- What the call returns. -/
def Answer : Operation → Type
  | health => Bool
  | tableNames => List Bytes
  | historyRetention | setHistoryRetentionEpochs _ => HistoryRetention
  | historyRetentionEpochs | earliestRetainedEpoch => UInt64
  | createTable .. | count _ => Int64
  | dropTable _ | put .. | upsert .. | del .. | deleteByPk .. | commit .. => Unit
  | query .. => Result
  | sql _ | cancelQuery _ | schema | schemaFor _ => Bytes
  | queryStatus _ => QueryStatus
  | retrieveText .. => TextRetrieveResult

def run (c : Client) : (o : Operation) → Call o.Answer
  | health => c.health
  | tableNames => c.tableNames
  | historyRetention => c.historyRetention
  | setHistoryRetentionEpochs epochs => c.setHistoryRetentionEpochs epochs
  | historyRetentionEpochs => c.historyRetentionEpochs
  | earliestRetainedEpoch => c.earliestRetainedEpoch
  | createTable name columns constraintsJson indexes =>
    c.createTable name columns constraintsJson indexes
  | dropTable name => c.dropTable name
  | count table => c.count table
  | put table cells idempotencyKey => c.put table cells idempotencyKey
  | upsert table cells updateCells idempotencyKey => c.upsert table cells updateCells idempotencyKey
  | del table rowId => c.del table rowId
  | deleteByPk table pk => c.deleteByPk table pk
  | commit ops idempotencyKey => c.commit ops idempotencyKey
  | query table conditions projection limit offset =>
    c.query table conditions projection limit offset
  | sql statement => c.sql statement
  | queryStatus queryId => c.queryStatus queryId
  | cancelQuery queryId => c.cancelQuery queryId
  | retrieveText table embeddingColumn text k => c.retrieveText table embeddingColumn text k
  | schema => c.schema
  | schemaFor table => c.schemaFor table

/-- `health` catches a `QueryException`. -/
def caught : (o : Operation) → Except Stop o.Answer → Except Stop o.Answer
  | health => catchQuery false
  | _ => id

/-- What the call does, exceptions that it catches aside. -/
def plan (plat : Platform) : (o : Operation) → Plan o.Answer
  | health => .sends ⟨"GET", ascii "/health", none⟩ fun _ => pure true
  | tableNames => .sends ⟨"GET", ascii "/tables", none⟩ fun body =>
    walk body decodeNames
  | historyRetention =>
    .sends ⟨"GET", ascii "/history/retention", none⟩ decodeHistoryRetention
  | setHistoryRetentionEpochs epochs =>
    .sends ⟨"PUT", ascii "/history/retention", some (retentionBody epochs)⟩
      decodeHistoryRetention
  | historyRetentionEpochs => .sends ⟨"GET", ascii "/history/retention", none⟩ fun body => do
    return (← decodeHistoryRetention body).historyRetentionEpochs
  | earliestRetainedEpoch => .sends ⟨"GET", ascii "/history/retention", none⟩ fun body => do
    return (← decodeHistoryRetention body).earliestRetainedEpoch
  | createTable name columns constraintsJson indexes =>
    .sends ⟨"POST", ascii "/kit/create_table",
      some (serializeCreateTableJson name columns constraintsJson indexes)⟩ fun body => do
        return (← getInt plat body (ascii "table_id") 0).2
  | dropTable name =>
    .sends ⟨"DELETE", ascii "/tables/" ++ urlEncodeSegment name, none⟩ fun _ => pure ()
  | count table =>
    .sends ⟨"GET", ascii "/tables/" ++ urlEncodeSegment table ++ ascii "/count", none⟩
      fun body => do return (← getInt plat body (ascii "count") 0).2
  | put table cells idempotencyKey => commitPlan plat [putOp table cells] idempotencyKey
  | upsert table cells updateCells idempotencyKey =>
    commitPlan plat [upsertOp table cells updateCells] idempotencyKey
  | del table rowId => commitPlan plat [deleteOp table rowId] []
  | deleteByPk table pk => commitPlan plat [deleteByPkOp table pk] []
  | commit ops idempotencyKey => commitPlan plat ops idempotencyKey
  | query table conditions projection limit offset =>
    .sends ⟨"POST", ascii "/kit/query",
      some (queryBody plat table conditions projection limit offset)⟩ decodeQuery
  | sql statement => .sends ⟨"POST", ascii "/sql", some (sqlBody statement)⟩ pure
  | queryStatus queryId =>
    queryPlan queryId (.sends ⟨"GET", ascii "/queries/" ++ urlEncodeSegment queryId, none⟩
      (parseQueryStatusJson plat))
  | cancelQuery queryId =>
    queryPlan queryId (.sends ⟨"POST", ascii "/queries/" ++ urlEncodeSegment queryId ++
      ascii "/cancel", some (ascii "\x7b\x7d")⟩ pure)
  | retrieveText table embeddingColumn text k =>
    .closedIf (table.isEmpty ∨ text.isEmpty)
      (.error (.thrown (.query (ascii "mongreldb: table and text are required"))))
      (.sends ⟨"POST", ascii "/kit/retrieve_text",
        some (buildRetrieveTextBody table embeddingColumn text k)⟩ parseTextRetrieveResult)
  | schema => .sends ⟨"GET", ascii "/kit/schema", none⟩ pure
  | schemaFor table =>
    .sends ⟨"GET", ascii "/kit/schema/" ++ urlEncodeSegment table, none⟩ pure

end Operation

/-! ### The calls follow their plans -/

section Plans

variable {c : Client} {β : Type}

lemma run_sends (m : Message) (decode : Bytes → Call β) :
    (Plan.sends m decode).run c = c.request m.method m.path m.content >>= decode := rfl

lemma run_sends_pure (m : Message) :
    (Plan.sends m pure).run c = c.request m.method m.path m.content := by
  rw [run_sends, Run.bind_pure]

lemma run_closedIf {p : Prop} [Decidable p] {r : Except Stop β} {plan : Plan β} {x : Call β}
    (h : x = plan.run c) : (if p then ⟨[], r⟩ else x) = (Plan.closedIf p r plan).run c := by
  unfold Plan.closedIf
  split
  · rfl
  · exact h

lemma run_historyField (field : HistoryRetention → UInt64) :
    (do return field (← c.historyRetention)) =
      (Plan.sends ⟨"GET", ascii "/history/retention", none⟩ fun body => do
        return field (← decodeHistoryRetention body)).run c := by
  rw [run_sends, Client.historyRetention, Run.bind_assoc]
  rfl

lemma run_commitPlan (ops : List Op) (idempotencyKey : Bytes) :
    c.commit ops idempotencyKey = (commitPlan c.plat ops idempotencyKey).run c := run_closedIf rfl

end Plans

/-! ### Decoding sends nothing -/

lemma safeCall_decodeHistoryRetention {body : Bytes} :
    SafeCall Stop.IsQueryException (decodeHistoryRetention body) := by
  have hstop : SafeCall (α := HistoryRetention) Stop.IsQueryException
      (Run.stop (.thrown (.query (ascii "mongreldb: malformed history retention response")))) :=
    Run.meets_stop trivial
  apply safeCall_getUint64.bind
  intro _
  apply hstop.ite
  apply safeCall_getUint64.bind
  intro _
  exact hstop.ite safeCall_pure

lemma safeCall_parseTextRetrieveResult {body : Bytes} {bad : Stop → Prop} :
    SafeCall bad (parseTextRetrieveResult body) :=
  safeCall_getArrayRaw.bind fun _ => safeCall_getObjectRaw.bind fun _ => safeCall_pure

lemma Plan.Quiet.closedIf {β : Type} {p : Prop} [Decidable p] {r : Except Stop β} {plan : Plan β}
    (hr : ∀ e, r = .error e → e.IsQueryException) (h : plan.Quiet) :
    (Plan.closedIf p r plan).Quiet := by
  unfold Plan.closedIf
  split
  · exact hr
  · exact h

/-- A refused argument. -/
lemma isQueryException_of_eq {β : Type} {text : Bytes} {e : Stop}
    (h : (.error (.thrown (.query text)) : Except Stop β) = .error e) : e.IsQueryException := by
  cases h
  trivial

lemma quiet_commitPlan {plat : Platform} {ops : List Op} {idempotencyKey : Bytes} :
    (commitPlan plat ops idempotencyKey).Quiet := by
  apply Plan.Quiet.closedIf
  · rintro _ ⟨⟩
  · intro _
    exact safeCall_pure

namespace Operation

/-- The calls do what their plans say. -/
lemma run_eq (c : Client) (o : Operation) :
    o.run c = ((o.plan c.plat).run c).mapOut o.caught := by
  cases o with
  | put table cells => exact run_commitPlan [putOp table cells] _
  | upsert table cells updateCells => exact run_commitPlan [upsertOp table cells updateCells] _
  | del table rowId => exact run_commitPlan [deleteOp table rowId] _
  | deleteByPk table pk => exact run_commitPlan [deleteByPkOp table pk] _
  | commit => exact run_commitPlan _ _
  | historyRetentionEpochs => exact run_historyField _
  | earliestRetainedEpoch => exact run_historyField _
  | queryStatus queryId =>
    change c.queryStatus queryId = (Plan.closedIf _ _ (.sends _ _)).run c
    unfold Client.queryStatus
    apply run_closedIf
    rw [run_sends, Client.get]
  | cancelQuery queryId =>
    change c.cancelQuery queryId = (Plan.closedIf _ _ (.sends _ pure)).run c
    unfold Client.cancelQuery
    apply run_closedIf
    rw [run_sends_pure, Client.post]
  | retrieveText table embeddingColumn text k =>
    change c.retrieveText table embeddingColumn text k =
      (Plan.closedIf _ _ (.sends _ _)).run c
    unfold Client.retrieveText
    apply run_closedIf
    rw [run_sends, Client.post]
  | sql statement =>
    exact (run_sends_pure ⟨"POST", ascii "/sql", some (sqlBody statement)⟩).symm
  | schema => exact (run_sends_pure ⟨"GET", ascii "/kit/schema", none⟩).symm
  | schemaFor table =>
    exact (run_sends_pure ⟨"GET", ascii "/kit/schema/" ++ urlEncodeSegment table, none⟩).symm
  | _ => rfl

lemma quiet_plan (plat : Platform) (o : Operation) : (o.plan plat).Quiet := by
  cases o with
  | health => exact fun _ => safeCall_pure
  | tableNames => exact fun _ => safeCall_decodeNames
  | historyRetention => exact fun _ => safeCall_decodeHistoryRetention
  | setHistoryRetentionEpochs epochs => exact fun _ => safeCall_decodeHistoryRetention
  | historyRetentionEpochs =>
    exact fun _ => safeCall_decodeHistoryRetention.bind fun _ => safeCall_pure
  | earliestRetainedEpoch =>
    exact fun _ => safeCall_decodeHistoryRetention.bind fun _ => safeCall_pure
  | createTable => exact fun _ => safeCall_getInt.bind fun _ => safeCall_pure
  | dropTable => exact fun _ => safeCall_pure
  | count => exact fun _ => safeCall_getInt.bind fun _ => safeCall_pure
  | put => exact quiet_commitPlan
  | upsert => exact quiet_commitPlan
  | del => exact quiet_commitPlan
  | deleteByPk => exact quiet_commitPlan
  | commit => exact quiet_commitPlan
  | query => exact fun _ => safeCall_decodeQuery
  | sql => exact fun _ => safeCall_pure
  | queryStatus =>
    exact Plan.Quiet.closedIf (fun _ => isQueryException_of_eq)
      fun _ => safeCall_parseQueryStatusJson
  | cancelQuery =>
    exact Plan.Quiet.closedIf (fun _ => isQueryException_of_eq) fun _ => safeCall_pure
  | retrieveText =>
    exact Plan.Quiet.closedIf (fun _ => isQueryException_of_eq)
      fun _ => safeCall_parseTextRetrieveResult
  | schema => exact fun _ => safeCall_pure
  | schemaFor => exact fun _ => safeCall_pure

end Operation

end MongrelDB
