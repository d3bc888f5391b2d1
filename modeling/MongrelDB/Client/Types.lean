import MongrelDB.Text.Bytes
import MongrelDB.Binary64.Basic
import MongrelDB.Traced.Basic

/-!
# The public types of the client

Values, rows, staged operations, query conditions, the decoded status records and the exception
hierarchy of `mongreldb.hpp`. Strings are byte strings and machine integers have the width that the
header gives them.
-/

namespace MongrelDB

open Text Traced

/-- What the client takes from the C library and the compiler beyond the language standard:
`printf` of a double, and the results of casts that the standard leaves undefined. -/
structure Platform where
  /-- `snprintf` with `%.17g` -/
  fmtG17 : Binary64 → Bytes
  /-- `static_cast<std::int64_t>` of a double outside the range of the type -/
  wildInt64 : Binary64 → Int64
  /-- `static_cast<std::size_t>` of a double outside the range of the type -/
  wildSize : Binary64 → UInt64

/-! ### Exceptions -/

/-- The exception hierarchy; every exception carries the text that it was built from. -/
inductive MongrelDBException where
  | auth (what : Bytes)
  | notFound (what : Bytes)
  | conflict (what : Bytes) (code : Bytes) (opIndex : Option UInt64)
  | query (what : Bytes)
  deriving DecidableEq

/-- `what()`, which returns a pointer. -/
def MongrelDBException.what : MongrelDBException → Bytes
  | .auth w | .notFound w | .conflict w _ _ | .query w => cstr w

/-! ### HTTP -/

structure Request where
  method : Bytes
  url : Bytes
  body : Option Bytes
  deriving DecidableEq

/-! ### What the client does -/

/-- The steps of a run that safety is about. -/
inductive Event where
  /-- the read `s_[k]` in a string of `size` bytes -/
  | read (k size : Nat)
  /-- the cursor is moved from `i` to `j` -/
  | move (i j size : Nat)
  /-- the flag `ok_` is assigned -/
  | verdict (before after : Bool)
  /-- `substr` of at most `len` characters from `start` -/
  | substr (start len size : Nat)
  /-- a loop goes into another round: the cursor at the beginning of this one and of the next -/
  | again (i j : Nat)
  /-- `skip_value` calls itself: the cursor when it was entered and now -/
  | nested (i j : Nat)
  /-- a request is handed to libcurl -/
  | sent (r : Request)

/-- How a run stops early. -/
inductive Stop where
  /-- a read or a `substr` outside the string -/
  | outOfRange
  /-- a loop went on for longer than its bound -/
  | spent
  | thrown (e : MongrelDBException)
  deriving DecidableEq

abbrev Call := Run Event Stop

def throwQuery {σ α : Type} (msg : String) : Prog σ Event Stop α :=
  Prog.stop (.thrown (.query (ascii msg)))

/-! ### Values, rows and results -/

inductive Value where
  | null
  | bool (b : Bool)
  | int64 (i : Int64)
  | double (d : Binary64)
  | string (s : Bytes)
  | json (s : Bytes)
  deriving DecidableEq

structure Cell where
  columnId : Int64
  value : Value
  deriving DecidableEq

abbrev Row := List Cell

structure Result where
  rows : List Row := []
  truncated : Bool := false
  deriving DecidableEq

structure HistoryRetention where
  historyRetentionEpochs : UInt64
  earliestRetainedEpoch : UInt64
  deriving DecidableEq

structure TextRetrieveResult where
  hitsJson : Bytes := ascii "[]"
  provenanceJson : Bytes := ascii "\x7b\x7d"
  rawJson : Bytes := []
  deriving DecidableEq

/-! ### Status records -/

structure CommitHlc where
  physicalMicros : UInt64 := 0
  logical : UInt32 := 0
  nodeTiebreaker : UInt32 := 0
  deriving DecidableEq

structure DurableOutcome where
  committed : Option Bool := none
  committedStatements : Option Int64 := none
  lastCommitEpoch : Option UInt64 := none
  lastCommitEpochText : Option Bytes := none
  lastCommitHlc : Option CommitHlc := none
  firstCommitStatementIndex : Option Int64 := none
  lastCommitStatementIndex : Option Int64 := none
  completedStatements : Option Int64 := none
  statementIndex : Option Int64 := none
  serialization : Bytes := []
  serializationState : Option Bytes := none
  terminalState : Option Bytes := none
  deriving DecidableEq

structure QueryStatus where
  queryId : Bytes := []
  status : Bytes := []
  state : Bytes := []
  serverState : Bytes := []
  terminalState : Option Bytes := none
  committed : Option Bool := none
  committedStatements : Option Int64 := none
  lastCommitEpoch : Option UInt64 := none
  lastCommitEpochText : Option Bytes := none
  lastCommitHlc : Option CommitHlc := none
  firstCommitStatementIndex : Option Int64 := none
  lastCommitStatementIndex : Option Int64 := none
  completedStatements : Option Int64 := none
  statementIndex : Option Int64 := none
  cancelOutcome : Option Bytes := none
  cancellationReason : Bytes := []
  retryable : Bool := false
  outcome : DurableOutcome := {}
  durable : Option DurableOutcome := none
  rawJson : Bytes := []
  deriving DecidableEq

/-- The authoritative clock: nested durable, then outcome, then top level. -/
def QueryStatus.commitHlc (st : QueryStatus) : Option CommitHlc :=
  match st.durable.bind (·.lastCommitHlc) with
  | some hlc => some hlc
  | none => if st.outcome.lastCommitHlc.isSome then st.outcome.lastCommitHlc else st.lastCommitHlc

/-! ### Columns and indexes -/

/-- A column definition of `create_table`. -/
structure Column where
  id : Int64 := 0
  name : Bytes := []
  ty : Bytes := []
  primaryKey : Bool := false
  nullable : Bool := false
  enumVariants : List Bytes := []
  defaultValue : Option Bytes := none
  defaultValueJson : Option Bytes := none
  defaultExpr : Option Bytes := none
  embeddingSourceJson : Option Bytes := none

inductive IndexKind where
  | bitmap
  | fm
  | ann
  | learnedRange
  | minHash
  | sparse
  deriving DecidableEq

inductive AnnQuantization where
  | binarySign
  | dense
  | product
  deriving DecidableEq

inductive AnnAlgorithm where
  | hnsw
  | diskann
  | ivf
  deriving DecidableEq

/-- An index definition; a tuning field of zero selects the engine's default. -/
structure Index where
  name : Bytes := []
  columnId : Int64 := 0
  kind : IndexKind := .bitmap
  predicate : Option Bytes := none
  annM : UInt64 := 16
  annEfConstruction : UInt64 := 64
  annEfSearch : UInt64 := 64
  annQuantization : AnnQuantization := .binarySign
  annAlgorithm : AnnAlgorithm := .hnsw
  diskannR : UInt64 := 0
  diskannL : UInt64 := 0
  diskannBeamWidth : UInt64 := 0
  diskannAlpha : UInt32 := 0
  ivfNlist : UInt64 := 0
  ivfNprobe : UInt64 := 0
  pqNumSubvectors : UInt16 := 0
  pqBits : UInt8 := 0
  pqTrainingSamples : UInt64 := 0
  pqSeed : UInt64 := 0
  pqRerankFactor : UInt64 := 0
  minhashPermutations : UInt64 := 128
  minhashBands : UInt64 := 32
  learnedRangeEpsilon : UInt64 := 16

/-! ### Operations and conditions -/

inductive OpType where
  | put
  | upsert
  | delete
  | deleteByPk
  deriving DecidableEq

/-- A staged operation of a transaction. -/
structure Op where
  type : OpType := .put
  table : Bytes := []
  cells : List Cell := []
  updateCells : List Cell := []
  rowId : Int64 := 0
  pkValue : Value := .null

inductive CondKind where
  | pk
  | bitmapEq
  | range
  | fmContains
  | isNull
  | isNotNull
  deriving DecidableEq

/-- A query condition; fields that its kind does not use are ignored. -/
structure Condition where
  kind : CondKind := .pk
  columnId : Int64 := 0
  lo : Binary64 := ⟨0⟩
  hi : Binary64 := ⟨0⟩
  loSet : Bool := false
  hiSet : Bool := false
  loInclusive : Bool := true
  hiInclusive : Bool := true
  strValue : Bytes := []
  intValue : Int64 := 0
  conditionJson : Option Bytes := none

end MongrelDB
