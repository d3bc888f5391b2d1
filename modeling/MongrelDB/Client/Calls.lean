import MongrelDB.Client.Http

/-!
# The other calls of the client

The public calls that are thin over `Impl::request` and over `commit`: health, retention, single-op
transactions, SQL, text retrieval and schemas.
-/

namespace MongrelDB

open Text Traced

/-! ### Requests -/

/-- `Impl::put` -/
def Client.putBody (c : Client) (path body : Bytes) : Call Bytes := c.request "PUT" path (some body)

/-! ### Health and history -/

/-- `catch (const QueryException &)` -/
def catchQuery {α : Type} (a : α) : Except Stop α → Except Stop α
  | .error (.thrown (.query _)) => .ok a
  | r => r

def Client.health (c : Client) : Call Bool :=
  (c.get (ascii "/health") >>= fun _ => return true).mapOut (catchQuery false)

def Client.historyRetention (c : Client) : Call HistoryRetention := do
  decodeHistoryRetention (← c.get (ascii "/history/retention"))

/-- The body that `set_history_retention_epochs` puts to `/history/retention`. -/
def retentionBody (epochs : UInt64) : Bytes :=
  ascii "\x7b\"history_retention_epochs\":" ++ uint64Text epochs ++ ascii "\x7d"

def Client.setHistoryRetentionEpochs (c : Client) (epochs : UInt64) : Call HistoryRetention := do
  decodeHistoryRetention (← c.putBody (ascii "/history/retention") (retentionBody epochs))

def Client.historyRetentionEpochs (c : Client) : Call UInt64 := do
  return (← c.historyRetention).historyRetentionEpochs

def Client.earliestRetainedEpoch (c : Client) : Call UInt64 := do
  return (← c.historyRetention).earliestRetainedEpoch

/-! ### Single-op transactions -/

def putOp (table : Bytes) (cells : List Cell) : Op :=
  { type := .put, table := table, cells := cells }

def upsertOp (table : Bytes) (cells updateCells : List Cell) : Op :=
  { type := .upsert, table := table, cells := cells, updateCells := updateCells }

def deleteOp (table : Bytes) (rowId : Int64) : Op :=
  { type := .delete, table := table, rowId := rowId }

def deleteByPkOp (table : Bytes) (pk : Value) : Op :=
  { type := .deleteByPk, table := table, pkValue := pk }

def Client.put (c : Client) (table : Bytes) (cells : List Cell) (idempotencyKey : Bytes) :
    Call Unit :=
  c.commit [putOp table cells] idempotencyKey

def Client.upsert (c : Client) (table : Bytes) (cells updateCells : List Cell)
    (idempotencyKey : Bytes) : Call Unit :=
  c.commit [upsertOp table cells updateCells] idempotencyKey

def Client.del (c : Client) (table : Bytes) (rowId : Int64) : Call Unit :=
  c.commit [deleteOp table rowId] []

def Client.deleteByPk (c : Client) (table : Bytes) (pk : Value) : Call Unit :=
  c.commit [deleteByPkOp table pk] []

/-! ### SQL, retrieval and schemas -/

/-- The body that `sql` posts to `/sql`. -/
def sqlBody (statement : Bytes) : Bytes :=
  ascii "\x7b\"sql\":" ++ jsonEscape statement ++ ascii ",\"format\":\"json\"\x7d"

def Client.sql (c : Client) (statement : Bytes) : Call Bytes :=
  c.post (ascii "/sql") (sqlBody statement)

/-- `build_retrieve_text_body` -/
def buildRetrieveTextBody (table : Bytes) (embeddingColumn : Int64) (text : Bytes) (k : Int64) :
    Bytes :=
  ascii "\x7b\"table\":" ++ jsonEscape table ++
    ascii ",\"embedding_column\":" ++ int64Text embeddingColumn ++
    ascii ",\"text\":" ++ jsonEscape text ++
    (if k > 0 then ascii ",\"k\":" ++ int64Text k else []) ++ [rbrace]

def Client.retrieveText (c : Client) (table : Bytes) (embeddingColumn : Int64) (text : Bytes)
    (k : Int64) : Call TextRetrieveResult :=
  if table.isEmpty ∨ text.isEmpty then
    Run.stop (.thrown (.query (ascii "mongreldb: table and text are required")))
  else do
    let resp ← c.post (ascii "/kit/retrieve_text")
      (buildRetrieveTextBody table embeddingColumn text k)
    parseTextRetrieveResult resp

def Client.schema (c : Client) : Call Bytes := c.get (ascii "/kit/schema")

/-! ### Statuses -/

/-- Nested durable or outcome `serialization_state`, then `serialization`. -/
def QueryStatus.serializationState (st : QueryStatus) : Bytes :=
  let fromOutcome : Bytes :=
    match st.outcome.serializationState with
    | some s => if s.isEmpty then st.outcome.serialization else s
    | none => st.outcome.serialization
  match st.durable with
  | none => fromOutcome
  | some durable =>
    let fromDurable : Bytes :=
      if durable.serialization.isEmpty then fromOutcome else durable.serialization
    match durable.serializationState with
    | some s => if s.isEmpty then fromDurable else s
    | none => fromDurable

end MongrelDB
