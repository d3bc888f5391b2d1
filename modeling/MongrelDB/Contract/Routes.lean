import MongrelDB.Contract.Handles
import MongrelDB.Contract.Paths
import MongrelDB.Contract.Sessions

/-!
# Where the calls go

The method and the path of a request tell which call it was made for and for which name: there is a
router that reads them back. Calls for different routes never land at one path with one method, as
long as no name is a dot segment.
-/

namespace MongrelDB

open Text Traced Uri

/-! ### Routes -/

/-- What a daemon has to tell apart before it looks at a body. -/
inductive Route where
  | health
  | tables
  | retention
  | setRetention
  | createTable
  | dropTable (name : Bytes)
  | count (name : Bytes)
  | txn
  | query
  | sql
  | queryStatus (queryId : Bytes)
  | cancelQuery (queryId : Bytes)
  | retrieveText
  | schema
  | schemaFor (name : Bytes)
  deriving DecidableEq

namespace Route

def method : Route → String
  | health | tables | retention | count _ | queryStatus _ | schema | schemaFor _ => "GET"
  | setRetention => "PUT"
  | dropTable _ => "DELETE"
  | createTable | txn | query | sql | cancelQuery _ | retrieveText => "POST"

def segments : Route → List Bytes
  | health => [ascii "health"]
  | tables => [ascii "tables"]
  | retention | setRetention => [ascii "history", ascii "retention"]
  | createTable => [ascii "kit", ascii "create_table"]
  | dropTable name => [ascii "tables", urlEncodeSegment name]
  | count name => [ascii "tables", urlEncodeSegment name, ascii "count"]
  | txn => [ascii "kit", ascii "txn"]
  | query => [ascii "kit", ascii "query"]
  | sql => [ascii "sql"]
  | queryStatus queryId => [ascii "queries", urlEncodeSegment queryId]
  | cancelQuery queryId => [ascii "queries", urlEncodeSegment queryId, ascii "cancel"]
  | retrieveText => [ascii "kit", ascii "retrieve_text"]
  | schema => [ascii "kit", ascii "schema"]
  | schemaFor name => [ascii "kit", ascii "schema", urlEncodeSegment name]

/-- The name in the path is no dot segment. -/
def Ordinary : Route → Prop
  | dropTable name | count name | queryStatus name | cancelQuery name | schemaFor name =>
    Uri.Ordinary name
  | _ => True

/-- The router. -/
def read (method : Bytes) (segs : List Bytes) : Option Route :=
  match segs with
  | [a] =>
    if a = ascii "health" then some health
    else if a = ascii "tables" then some tables
    else some sql
  | [a, b] =>
    if a = ascii "history" then some (if method = ascii "GET" then retention else setRetention)
    else if a = ascii "tables" then (percentDecode b).map dropTable
    else if a = ascii "queries" then (percentDecode b).map queryStatus
    else if b = ascii "create_table" then some createTable
    else if b = ascii "txn" then some txn
    else if b = ascii "query" then some query
    else if b = ascii "retrieve_text" then some retrieveText
    else some schema
  | [a, b, c] =>
    if a = ascii "tables" then (percentDecode b).map count
    else if a = ascii "queries" then (percentDecode b).map cancelQuery
    else (percentDecode c).map schemaFor
  | _ => none

/-- The router reads every route back. -/
lemma read_segments (r : Route) : read (ascii r.method) r.segments = some r := by
  have hdecode := percentDecode_urlEncodeSegment
  cases r with
  | dropTable | count | queryStatus | cancelQuery | schemaFor =>
    simp only [read, segments, hdecode]
    rfl
  | _ => rfl

lemma eq_of_segments {r r' : Route} (hmethod : ascii r.method = ascii r'.method)
    (hsegs : r.segments = r'.segments) : r = r' := by
  have h := read_segments r
  rw [hmethod, hsegs, read_segments] at h
  exact (Option.some.inj h).symm

lemma isSegment (r : Route) : ∀ s ∈ r.segments, IsSegment s := by
  have henc := fun name => (encoded_urlEncodeSegment name).isSegment
  cases r with
  | dropTable | count | queryStatus | cancelQuery | schemaFor =>
    simp only [segments, List.forall_mem_cons, henc, true_and]
    decide
  | _ => decide

lemma segments_ne_nil (r : Route) : r.segments ≠ [] := by
  cases r <;> simp [segments]

end Route

/-! ### The routes of the calls -/

/-- The route of a call. -/
def Operation.route : Operation → Route
  | health => .health
  | tableNames => .tables
  | historyRetention | historyRetentionEpochs | earliestRetainedEpoch => .retention
  | setHistoryRetentionEpochs _ => .setRetention
  | createTable .. => .createTable
  | dropTable name => .dropTable name
  | count table => .count table
  | put .. | upsert .. | del .. | deleteByPk .. | commit .. => .txn
  | query .. => .query
  | sql _ => .sql
  | queryStatus queryId => .queryStatus queryId
  | cancelQuery queryId => .cancelQuery queryId
  | retrieveText .. => .retrieveText
  | schema => .schema
  | schemaFor table => .schemaFor table

lemma message_closedIf {β : Type} {p : Prop} [Decidable p] {r : Except Stop β} {plan : Plan β}
    {m : Message} (h : (Plan.closedIf p r plan).message = some m) : plan.message = some m := by
  unfold Plan.closedIf at h
  split at h
  · cases h
  · exact h

lemma message_commitPlan {plat : Platform} {ops : List Op} {idempotencyKey : Bytes} {m : Message}
    (h : (commitPlan plat ops idempotencyKey).message = some m) :
    m = ⟨"POST", ascii "/kit/txn", some (commitBody plat ops idempotencyKey)⟩ :=
  (Option.some.inj (message_closedIf h)).symm

/-- A message has the method and the path of its route. -/
lemma Operation.route_of_message {plat : Platform} {o : Operation} {m : Message}
    (h : (o.plan plat).message = some m) :
    m.method = o.route.method ∧ m.path = pathOf o.route.segments := by
  cases o with
  | put | upsert | del | deleteByPk | commit =>
    rw [message_commitPlan h]
    exact ⟨rfl, rfl⟩
  | queryStatus | cancelQuery | retrieveText =>
    cases message_closedIf h
    exact ⟨rfl, by simp [ascii, route, Route.segments]⟩
  | _ =>
    cases h
    exact ⟨rfl, by simp [ascii, route, Route.segments]⟩

lemma Operation.request_eq_some {plat : Platform} {baseUrl : Bytes} {o : Operation} {r : Request}
    (h : o.request plat baseUrl = some r) :
    r.method = ascii o.route.method ∧ r.url = baseUrl ++ pathOf o.route.segments := by
  obtain ⟨m, hm, rfl⟩ := Option.map_eq_some_iff.mp h
  obtain ⟨hmethod, hpath⟩ := route_of_message hm
  have hslash : m.path.head? = some slash := by
    rw [hpath]
    obtain ⟨s, segs, hsegs⟩ := List.exists_cons_of_ne_nil o.route.segments_ne_nil
    rw [hsegs]
    rfl
  refine ⟨congrArg ascii hmethod, ?_⟩
  rw [Message.request, if_pos hslash, List.append_nil, hpath]

/-! ### Where the requests land -/

end MongrelDB
