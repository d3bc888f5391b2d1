import MongrelDB.Client.Extract
import MongrelDB.Client.Serialize
import MongrelDB.Client.Status

/-!
# The calls of the client

`Impl::request` and the calls that decode what it returns. What libcurl makes of a request is a
parameter of the client (`curl`).
-/

namespace MongrelDB

open Text Traced Prog JsonParser

/-! ### Requests -/

inductive CurlCode where
  | ok
  | filesizeExceeded
  | writeError
  /-- any other code, with the text of `curl_easy_strerror` -/
  | other (strerror : Bytes)
  deriving DecidableEq

inductive Transfer where
  /-- `curl_easy_init` returned null -/
  | initFailed
  | performed (rc : CurlCode) (httpCode : Int) (response : Bytes)

structure Client where
  plat : Platform
  baseUrl : Bytes
  curl : Request → Transfer

def kMaxResponseBytes : Nat := 268435456

/-- The count that the callback returns, and the buffer. The append throws if it cannot get memory,
and then leaves the buffer as it is. -/
def writeCb (ptr : Bytes) (size nmemb : UInt64) (throws : Bool) (out : Bytes) : UInt64 × Bytes :=
  let n := size * nmemb
  if out.length.toUInt64 > kMaxResponseBytes.toUInt64 ∨
      n > kMaxResponseBytes.toUInt64 - out.length.toUInt64 then (0, out)
  else if throws then (0, out)
  else (n, out ++ ptr.take n.toNat)

/-- `static_cast<std::size_t>(d)` -/
def castSize (plat : Platform) (d : Binary64) : UInt64 :=
  if d.isFinite && 0 ≤ d.trunc && d.trunc < 2 ^ 64 then UInt64.ofNat d.trunc.toNat
  else plat.wildSize d

def orDefault (message : Bytes) (text : String) : Bytes :=
  if message.isEmpty then ascii text else message

/-- The exception for the status of a response. -/
def statusException (httpCode : Int) (message code : Bytes) (opIndex : Option UInt64) :
    MongrelDBException :=
  if httpCode = 401 ∨ httpCode = 403 then .auth (orDefault message "authentication failed")
  else if httpCode = 404 then .notFound (orDefault message "resource not found")
  else if httpCode = 409 then .conflict (orDefault message "constraint violation") code opIndex
  else .query (orDefault message "mongreldb: server error")

/-- The decoding of an error envelope, and the exception it is thrown as. -/
def throwEnvelope (plat : Platform) (httpCode : Int) (response : Bytes) : Call Bytes := do
  let (found, message) ← getString response (ascii "message") []
  let message := if found then message else response
  let (_, code) ← getString response (ascii "code") []
  if (ascii "not found:").isPrefixOf message then
    Run.stop (.thrown (.notFound message))
  else do
    let (found, oi) ← getNumber response (ascii "op_index") (Binary64.ofDecimal true 1 0)
    let opIndex := if found && oi.nonneg then some (castSize plat oi) else none
    Run.stop (.thrown (statusException httpCode message code opIndex))

def Client.request (c : Client) (method : String) (path : Bytes) (body : Option Bytes) :
    Call Bytes := do
  let url := c.baseUrl ++ (if path.head? = some slash then [] else [slash]) ++ path
  let r : Request := ⟨ascii method, url, body⟩
  match c.curl r with
  | .initFailed => Run.stop (.thrown (.query (ascii "mongreldb: curl_easy_init failed")))
  | .performed rc httpCode response =>
    Run.emit (.sent r)
    if rc = .filesizeExceeded ∨ rc = .writeError ∨ response.length > kMaxResponseBytes then
      Run.stop (.thrown (.query (ascii "mongreldb: response body exceeds " ++
        decimal kMaxResponseBytes ++ ascii " bytes")))
    else match rc with
      | .other strerror =>
        Run.stop (.thrown (.query (ascii "mongreldb: network error: " ++ strerror)))
      | _ =>
        if httpCode < 200 ∨ httpCode ≥ 300 then throwEnvelope c.plat httpCode response
        else return response

def Client.get (c : Client) (path : Bytes) : Call Bytes := c.request "GET" path none

def Client.post (c : Client) (path body : Bytes) : Call Bytes := c.request "POST" path (some body)

/-! ### Tables -/

/-- One round of the loop over the names. -/
def namesRound (names : List Bytes) : Walk (Round (List Bytes) (List Bytes)) := do
  if (← peek) != some quote then throwQuery "mongreldb: malformed table list"
  else do
    let names := names ++ [← readStringRaw]
    if !(← isOk) then throwQuery "mongreldb: malformed table list"
    else do
      let ch ← peek
      if ch == some comma then
        expect comma
        return .again names
      else if ch == some rbracket then
        expect rbracket
        return .done names
      else throwQuery "mongreldb: malformed table list"

def decodeNames : Walk (List Bytes) := do
  if (← peek) != some lbracket then return []
  expect lbracket
  if (← peek) == some rbracket then return []
  iterate namesRound []

def Client.tableNames (c : Client) : Call (List Bytes) := do
  walk (← c.get (ascii "/tables")) decodeNames

def Client.createTable (c : Client) (name : Bytes) (columns : List Column) (constraintsJson : Bytes)
    (indexes : List Index) : Call Int64 := do
  let resp ← c.post (ascii "/kit/create_table")
    (serializeCreateTableJson name columns constraintsJson indexes)
  return (← getInt c.plat resp (ascii "table_id") 0).2

def Client.dropTable (c : Client) (name : Bytes) : Call Unit := do
  let _ ← c.request "DELETE" (ascii "/tables/" ++ urlEncodeSegment name) none
  return ()

def Client.count (c : Client) (table : Bytes) : Call Int64 := do
  let resp ← c.get (ascii "/tables/" ++ urlEncodeSegment table ++ ascii "/count")
  return (← getInt c.plat resp (ascii "count") 0).2

/-! ### Transactions -/

def Client.commit (c : Client) (ops : List Op) (idempotencyKey : Bytes) : Call Unit := do
  if ops.isEmpty then return ()
  let _ ← c.post (ascii "/kit/txn") (commitBody c.plat ops idempotencyKey)
  return ()

/-! ### Queries -/

/-- One round of the loop over the cells: a column id and a value. -/
def cellRound (row : Row) : Walk (Round Row Row) := do
  let ch0 ← peek
  if !startsNumber ch0 then throwQuery "mongreldb: malformed cells"
  else do
    let colid := strtoll (← readNumberRaw)
    if (← peek) == some comma then expect comma
    let v ← readValue
    if !(← isOk) then throwQuery "mongreldb: malformed cell value"
    else do
      let row := row ++ [⟨colid, v⟩]
      let ch ← peek
      if ch == some comma then
        expect comma
        return .again row
      else if ch == some rbracket then
        expect rbracket
        return .done row
      else throwQuery "mongreldb: malformed cells"

/-- The `cells` array of a row. -/
def readCells (row : Row) : Walk Row := do
  expect lbracket
  if (← peek) == some rbracket then
    expect rbracket
    return row
  else iterate cellRound row

/-- One round of the loop over the members of a row. -/
def rowMemberRound (row : Row) : Walk (Round Row Row) := do
  if (← peek) != some quote then throwQuery "mongreldb: malformed row"
  else do
    let k ← readStringRaw
    if !(← isOk) then throwQuery "mongreldb: malformed row"
    else do
      expect colon
      if !(← isOk) then throwQuery "mongreldb: malformed row"
      else if ← keyIs k (ascii "cells") lbracket then
        let row ← readCells row
        let ch ← peek
        if ch == some rbrace then
          expect rbrace
          return .done row
        else if ch == some comma then
          expect comma
          return .again row
        else throwQuery "mongreldb: malformed row"
      else do
        skipValue
        if !(← isOk) then throwQuery "mongreldb: malformed row"
        else do
          let ch ← peek
          if ch == some comma then
            expect comma
            return .again row
          else if ch == some rbrace then
            expect rbrace
            return .done row
          else throwQuery "mongreldb: malformed row"

def readRow : Walk Row := do
  expect lbrace
  if (← peek) != some rbrace then iterate rowMemberRound []
  else do
    expect rbrace
    return []

/-- One round of the loop over the rows. -/
def rowRound (rows : List Row) : Walk (Round (List Row) (List Row)) := do
  if (← peek) != some lbrace then throwQuery "mongreldb: malformed query response"
  else do
    let rows := rows ++ [← readRow]
    let ch ← peek
    if ch == some comma then
      expect comma
      return .again rows
    else if ch == some rbracket then
      expect rbracket
      return .done rows
    else throwQuery "mongreldb: malformed query response"

/-- One round of the search for the `rows` array, which ends in front of it. -/
def findRowsRound : Walk (Round Unit Bool) :=
  memberRound (fun k => keyIs k (ascii "rows") lbracket) (return true) false fun _ => false

def decodeRows : Walk (List Row) := do
  if (← peek) != some lbrace then return []
  expect lbrace
  if (← peek) == some rbrace then return []
  if !(← iterate (fun _ => findRowsRound) ()) then return []
  expect lbracket
  if (← peek) == some rbracket then return []
  iterate rowRound []

def decodeQuery (resp : Bytes) : Call Result := do
  let (_, trunc) ← getBool resp (ascii "truncated") false
  let rows ← walk resp decodeRows
  return ⟨rows, trunc⟩

def Client.query (c : Client) (table : Bytes) (conditions : List Condition)
    (projection : List Int64) (limit offset : Int64) : Call Result := do
  let resp ← c.post (ascii "/kit/query")
    (queryBody c.plat table conditions projection limit offset)
  decodeQuery resp

/-! ### History and retrieval -/

def decodeHistoryRetention (json : Bytes) : Call HistoryRetention := do
  let malformed : Call HistoryRetention :=
    Run.stop (.thrown (.query (ascii "mongreldb: malformed history retention response")))
  let (found, epochs) ← getUint64 json (ascii "history_retention_epochs") 0
  if !found then malformed
  else do
    let (found, earliest) ← getUint64 json (ascii "earliest_retained_epoch") 0
    if !found then malformed
    else return ⟨epochs, earliest⟩

def parseTextRetrieveResult (json : Bytes) : Call TextRetrieveResult := do
  let r : TextRetrieveResult := { rawJson := json }
  let (found, hits) ← getArrayRaw json (ascii "hits") []
  let r := if found then { r with hitsJson := hits } else r
  let (found, prov) ← getObjectRaw json (ascii "provenance") []
  let r := if found then { r with provenanceJson := prov } else r
  return r

/-! ### Statements -/

def Client.queryStatus (c : Client) (queryId : Bytes) : Call QueryStatus := do
  if queryId.isEmpty then Run.stop (.thrown (.query (ascii "mongreldb: query_id is required")))
  else do
    let body ← c.get (ascii "/queries/" ++ urlEncodeSegment queryId)
    parseQueryStatusJson c.plat body

def Client.cancelQuery (c : Client) (queryId : Bytes) : Call Bytes :=
  if queryId.isEmpty then Run.stop (.thrown (.query (ascii "mongreldb: query_id is required")))
  else c.post (ascii "/queries/" ++ urlEncodeSegment queryId ++ ascii "/cancel") (ascii "\x7b\x7d")

def Client.schemaFor (c : Client) (table : Bytes) : Call Bytes :=
  c.get (ascii "/kit/schema/" ++ urlEncodeSegment table)

end MongrelDB
