import MongrelDB.Contract.Alike
import MongrelDB.Contract.Routes

/-!
# Requests tell what is asked for

Calls that send the same request ask for the same, and calls that ask for the same send the same
request. The method and the URL tell the kind of call and its names, the JSON value of the body
tells the rest.
-/

namespace MongrelDB

open Text Traced Json Uri

/-! ### What a call asks for -/

/-- What the daemon is asked for. -/
inductive Ask where
  | health
  | tables
  | retention
  | setRetention (epochs : UInt64)
  | createTable (name : Bytes) (columns : List Column) (constraintsJson : Bytes)
    (indexes : List Index)
  | dropTable (name : Bytes)
  | count (table : Bytes)
  | txn (ops : List Op) (idempotencyKey : Bytes)
  | query (table : Bytes) (conditions : List Condition) (projection : List Int64)
    (limit offset : Int64)
  | sql (statement : Bytes)
  | queryStatus (queryId : Bytes)
  | cancelQuery (queryId : Bytes)
  | retrieveText (table : Bytes) (embeddingColumn : Int64) (text : Bytes) (k : Int64)
  | schema
  | schemaFor (table : Bytes)

def Operation.ask : Operation → Ask
  | health => .health
  | tableNames => .tables
  | historyRetention | historyRetentionEpochs | earliestRetainedEpoch => .retention
  | setHistoryRetentionEpochs epochs => .setRetention epochs
  | createTable name columns constraintsJson indexes =>
    .createTable name columns constraintsJson indexes
  | dropTable name => .dropTable name
  | count table => .count table
  | put table cells idempotencyKey => .txn [putOp table cells] idempotencyKey
  | upsert table cells updateCells idempotencyKey =>
    .txn [upsertOp table cells updateCells] idempotencyKey
  | del table rowId => .txn [deleteOp table rowId] []
  | deleteByPk table pk => .txn [deleteByPkOp table pk] []
  | commit ops idempotencyKey => .txn ops idempotencyKey
  | query table conditions projection limit offset =>
    .query table conditions projection limit offset
  | sql statement => .sql statement
  | queryStatus queryId => .queryStatus queryId
  | cancelQuery queryId => .cancelQuery queryId
  | retrieveText table embeddingColumn text k => .retrieveText table embeddingColumn text k
  | schema => .schema
  | schemaFor table => .schemaFor table

namespace Ask

def route : Ask → Route
  | health => .health
  | tables => .tables
  | retention => .retention
  | setRetention _ => .setRetention
  | createTable .. => .createTable
  | dropTable name => .dropTable name
  | count table => .count table
  | txn .. => .txn
  | query .. => .query
  | sql _ => .sql
  | queryStatus queryId => .queryStatus queryId
  | cancelQuery queryId => .cancelQuery queryId
  | retrieveText .. => .retrieveText
  | schema => .schema
  | schemaFor table => .schemaFor table

/-- The body of the request, if it has one. -/
def body (plat : Platform) : Ask → Option Bytes
  | setRetention epochs => some (retentionBody epochs)
  | createTable name columns constraintsJson indexes =>
    some (serializeCreateTableJson name columns constraintsJson indexes)
  | txn ops idempotencyKey => some (commitBody plat ops idempotencyKey)
  | query table conditions projection limit offset =>
    some (queryBody plat table conditions projection limit offset)
  | sql statement => some (sqlBody statement)
  | cancelQuery _ => some (ascii "\x7b\x7d")
  | retrieveText table embeddingColumn text k =>
    some (buildRetrieveTextBody table embeddingColumn text k)
  | _ => none

/-- The members of the object that the body stands for. -/
def members (plat : Platform) : Ask → Option (List (Bytes × Tree))
  | setRetention epochs => some (retentionMembers epochs)
  | createTable name columns constraintsJson indexes =>
    some (tableMembers name columns constraintsJson indexes)
  | txn ops idempotencyKey => some (txnMembers plat ops idempotencyKey)
  | query table conditions projection limit offset =>
    some (queryMembers plat table conditions projection limit offset)
  | sql statement => some (sqlMembers statement)
  | cancelQuery _ => some []
  | retrieveText table embeddingColumn text k =>
    some (retrieveTextMembers table embeddingColumn text k)
  | _ => none

/-- Raw JSON is the text of a value, bounds are finite and indexes are written in full. -/
def Valid : Ask → Prop
  | createTable _ columns constraintsJson indexes => TableValid columns constraintsJson indexes
  | txn ops _ => ∀ op ∈ ops, op.Valid
  | query _ conditions _ _ _ => ∀ c ∈ conditions, c.Valid ∧ c.FiniteBounds
  | _ => True

/-- The asks agree on everything that a daemon is told. -/
inductive Alike (plat : Platform) : Ask → Ask → Prop
  | same (a : Ask) : Alike plat a a
  | createTable {name : Bytes} {columns columns' : List Column} {constraintsJson : Bytes}
      {constraintsJson' : Bytes} {indexes indexes' : List Index}
      (hcolumns : List.Forall₂ Column.Alike columns columns')
      (hconstraints : constraintsTree constraintsJson = constraintsTree constraintsJson')
      (hindexes : List.Forall₂ Index.WrittenAlike indexes indexes') :
      Alike plat (createTable name columns constraintsJson indexes)
        (createTable name columns' constraintsJson' indexes')
  | txn {ops ops' : List Op} {idempotencyKey : Bytes}
      (hops : List.Forall₂ (Op.Alike plat) ops ops') :
      Alike plat (txn ops idempotencyKey) (txn ops' idempotencyKey)
  | query {table : Bytes} {conditions conditions' : List Condition} {projection : List Int64}
      {limit limit' offset : Int64}
      (hconditions : List.Forall₂ (Condition.ReadAlike plat) conditions conditions')
      (hlimit : positive limit = positive limit') :
      Alike plat (query table conditions projection limit offset)
        (query table conditions' projection limit' offset)
  | retrieveText {table : Bytes} {embeddingColumn : Int64} {text : Bytes} {k k' : Int64}
      (hk : positive k = positive k') :
      Alike plat (retrieveText table embeddingColumn text k)
        (retrieveText table embeddingColumn text k')

variable {plat : Platform} {a b : Ask}

lemma denotesObj_body (hp : plat.PrintsNumbers) (h : a.Valid) :
    Option.Rel DenotesObj (a.body plat) (a.members plat) := by
  cases a with
  | setRetention epochs => exact .some (denotesObj_retentionBody epochs)
  | createTable =>
    refine .some (denotesObj_serializeCreateTableJson h.columns h.constraints fun i hi => ?_)
    obtain ⟨d, hd, -⟩ := denotesObj_serializeIndexJson (h.indexes i hi)
    exact ⟨d.toDoc, hd⟩
  | txn => exact .some (denotesObj_commitBody hp h _)
  | query =>
    exact .some (denotesObj_queryBody hp (fun c hc => (h c hc).1) fun c hc => (h c hc).2)
  | sql statement => exact .some (denotesObj_sqlBody statement)
  | cancelQuery => exact .some (denotesObj_objectText .nil)
  | retrieveText => exact .some (denotesObj_buildRetrieveTextBody ..)
  | _ => exact .none

lemma map_parse_body (hp : plat.PrintsNumbers) (h : a.Valid) :
    (a.body plat).map parse = (a.members plat).map fun ms => some (.obj ms) := by
  have hrel := denotesObj_body hp h
  revert hrel
  generalize a.body plat = x
  generalize a.members plat = y
  rintro (h | _)
  · exact congrArg some h.denotes.parse
  · rfl

/-- The same route and the same object say the same. -/
lemma alike_iff (hp : plat.PrintsNumbers) (hi : plat.PrintsApart) (ha : a.Valid) (hb : b.Valid) :
    a.route = b.route ∧ a.members plat = b.members plat ↔ a.Alike plat b := by
  constructor
  · rintro ⟨hroute, hmembers⟩
    -- operations of different kinds have different routes
    cases a with
    | setRetention epochs =>
      cases b with
      | setRetention epochs' =>
        simp only [members, retentionMembers, Option.some.injEq, List.cons.injEq, Prod.mk.injEq,
          uint64Tree_inj, true_and, and_true] at hmembers
        rw [hmembers]
        exact .same _
      | _ => cases hroute
    | createTable name columns constraintsJson indexes =>
      cases b with
      | createTable name' columns' constraintsJson' indexes' =>
        obtain ⟨rfl, hcolumns, hconstraints, hindexes⟩ :=
          (tableMembers_inj ha hb).mp (Option.some.inj hmembers)
        exact .createTable hcolumns hconstraints hindexes
      | _ => cases hroute
    | txn ops key =>
      cases b with
      | txn ops' key' =>
        obtain ⟨hops, rfl⟩ := txnMembers_inj.mp (Option.some.inj hmembers)
        exact .txn hops
      | _ => cases hroute
    | query table conditions projection limit offset =>
      cases b with
      | query table' conditions' projection' limit' offset' =>
        obtain ⟨rfl, hconditions, rfl, hlimit, rfl⟩ := (queryMembers_inj hp hi
          (fun c hc => (ha c hc).2) fun c hc => (hb c hc).2).mp (Option.some.inj hmembers)
        exact .query hconditions hlimit
      | _ => cases hroute
    | sql statement =>
      cases b with
      | sql statement' =>
        simp only [members, sqlMembers, Option.some.injEq, List.cons.injEq, Prod.mk.injEq,
          Tree.str.injEq, true_and, and_true] at hmembers
        rw [hmembers]
        exact .same _
      | _ => cases hroute
    | retrieveText table embeddingColumn text k =>
      cases b with
      | retrieveText table' embeddingColumn' text' k' =>
        obtain ⟨rfl, rfl, rfl, hk⟩ := retrieveTextMembers_inj.mp (Option.some.inj hmembers)
        exact .retrieveText hk
      | _ => cases hroute
    -- the others have no body, and the route tells all their arguments
    | _ =>
      cases b <;> cases hroute
      exact .same _
  · intro h
    cases h with
    | same => exact ⟨rfl, rfl⟩
    | createTable hcolumns hconstraints hindexes =>
      exact ⟨rfl, congrArg some
        ((tableMembers_inj ha hb).mpr ⟨rfl, hcolumns, hconstraints, hindexes⟩)⟩
    | txn hops => exact ⟨rfl, congrArg some (txnMembers_inj.mpr ⟨hops, rfl⟩)⟩
    | query hconditions hlimit =>
      exact ⟨rfl, congrArg some ((queryMembers_inj hp hi (fun c hc => (ha c hc).2)
        fun c hc => (hb c hc).2).mpr ⟨rfl, hconditions, rfl, hlimit, rfl⟩)⟩
    | retrieveText hk =>
      exact ⟨rfl, congrArg some (retrieveTextMembers_inj.mpr ⟨rfl, rfl, rfl, hk⟩)⟩

end Ask

/-! ### Requests -/

namespace Operation

variable {plat : Platform} {baseUrl : Bytes} {o : Operation} {r : Request}

lemma route_ask (o : Operation) : o.ask.route = o.route := by cases o <;> rfl

lemma content_of_message {m : Message} (h : (o.plan plat).message = some m) :
    m.content = o.ask.body plat := by
  cases o with
  | put | upsert | del | deleteByPk | commit =>
    rw [message_commitPlan h]
    rfl
  | queryStatus | cancelQuery | retrieveText =>
    cases message_closedIf h
    rfl
  | _ =>
    cases h
    rfl

lemma content_of_request (h : o.request plat baseUrl = some r) :
    r.body = o.ask.body plat := by
  obtain ⟨m, hm, rfl⟩ := Option.map_eq_some_iff.mp h
  exact content_of_message hm

end Operation

/-- Two calls to one daemon send the same method to the same URL with bodies that stand for the same
JSON value if and only if they ask for the same, and every body is one JSON object. -/
theorem requests_tell {plat : Platform} (hp : plat.PrintsNumbers) (hi : plat.PrintsApart)
    (baseUrl : Bytes) (o o' : Operation) (hv : o.ask.Valid) (hv' : o'.ask.Valid) {r r' : Request}
    (hr : o.request plat baseUrl = some r) (hr' : o'.request plat baseUrl = some r') :
    (∀ body, r.body = some body → ∃ d : ObjDoc, d.render = body) ∧
    (r.method = r'.method ∧ r.url = r'.url ∧ r.body.map parse = r'.body.map parse ↔
      o.ask.Alike plat o'.ask) := by
  obtain ⟨hmethod, hurl⟩ := Operation.request_eq_some hr
  obtain ⟨hmethod', hurl'⟩ := Operation.request_eq_some hr'
  have hcontent := Operation.content_of_request hr
  have hcontent' := Operation.content_of_request hr'
  constructor
  · intro body hbody
    have hrel := Ask.denotesObj_body hp hv
    rw [← hcontent, hbody] at hrel
    revert hrel
    generalize o.ask.members plat = x
    rintro ⟨d, hd, -⟩
    exact ⟨d, hd⟩
  · rw [← Ask.alike_iff hp hi hv hv', o.route_ask, o'.route_ask, hmethod, hmethod', hurl, hurl',
      hcontent, hcontent', Ask.map_parse_body hp hv, Ask.map_parse_body hp hv']
    constructor
    · rintro ⟨hm, hpath, hbody⟩
      have hsegs := pathOf_inj (slashless_of_isSegment o.route.isSegment)
        (slashless_of_isSegment o'.route.isSegment) (List.append_cancel_left hpath)
      refine ⟨Route.eq_of_segments hm hsegs, ?_⟩
      exact Option.map_injective (fun _ _ h => Tree.obj.inj (Option.some.inj h)) hbody
    · rintro ⟨hroute, hmembers⟩
      rw [hroute, hmembers]
      exact ⟨rfl, rfl, rfl⟩

/-- A bound that is not set and a limit that is not positive are as good as none. -/
theorem requests_tell_unset :
    (Ask.query (ascii "t") [shortRange] [1] 0 5).Alike apartPlatform
      (.query (ascii "t") [openRange] [1] (-7) 5) := by
  have hvalid : ∀ c : Condition, c.conditionJson = none → c.lo.isFinite = true →
      c.hi.isFinite = true → ∀ c' ∈ [c], c'.Valid ∧ c'.FiniteBounds := by
    intro c hc hlo hhi c' hc'
    obtain rfl := List.mem_singleton.mp hc'
    refine ⟨fun json hj => ?_, fun _ _ => ⟨fun _ => hlo, fun _ => hhi⟩⟩
    rw [hc] at hj
    cases hj
  refine (requests_tell printsNumbers_apartPlatform printsApart_apartPlatform
    (ascii "http://127.0.0.1:8453") (.query (ascii "t") [shortRange] [1] 0 5)
    (.query (ascii "t") [openRange] [1] (-7) 5) (hvalid _ rfl (by decide) (by decide))
    (hvalid _ rfl (by decide) (by decide)) rfl rfl).2.mp ⟨rfl, rfl, congrArg (Option.map parse) ?_⟩
  decide

end MongrelDB
