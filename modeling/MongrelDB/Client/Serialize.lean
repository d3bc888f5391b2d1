import MongrelDB.Client.Types
import MongrelDB.Text.Decimal

/-!
# Building request bodies

The serializer of `mongreldb_impl.hpp`. A function that appends to an output string is modelled by
the bytes it appends.
-/

namespace MongrelDB

open Text

/-- The digit that `%x` prints. -/
def hexLower (n : Nat) : UInt8 := if n < 10 then (n + 0x30).toUInt8 else (n - 10 + 0x61).toUInt8

/-- `%04x` -/
def hex4 (n : Nat) : Bytes :=
  [hexLower (n / 4096 % 16), hexLower (n / 256 % 16), hexLower (n / 16 % 16), hexLower (n % 16)]

def jsonEscapeChar (c : UInt8) : Bytes :=
  if c = quote then [backslash, quote]
  else if c = backslash then [backslash, backslash]
  else if c = 0x08 then [backslash, 0x62]
  else if c = 0x0C then [backslash, 0x66]
  else if c = 0x0A then [backslash, 0x6E]
  else if c = 0x0D then [backslash, 0x72]
  else if c = 0x09 then [backslash, 0x74]
  else if c < 0x20 then backslash :: 0x75 :: hex4 c.toNat
  else [c]

def jsonEscape (s : Bytes) : Bytes := quote :: (s.flatMap jsonEscapeChar ++ [quote])

/-- `%lld` -/
def int64Text (i : Int64) : Bytes := decimalInt i.toInt

def jsonValue (plat : Platform) : Value → Bytes
  | .null => ascii "null"
  | .bool b => if b then ascii "true" else ascii "false"
  | .int64 i => int64Text i
  | .double d => if d.isNan || d.isInf then ascii "null" else plat.fmtG17 d
  | .string s => jsonEscape s
  | .json s => s

/-- The loop body for every cell but the first, which has no comma before it. -/
def jsonCell (plat : Platform) (c : Cell) : Bytes :=
  int64Text c.columnId ++ comma :: jsonValue plat c.value

/-- What a loop appends that puts a comma before every item but the first. -/
def commaSeparated {α : Type} (text : α → Bytes) : List α → Bytes
  | [] => []
  | [a] => text a
  | a :: b :: l => text a ++ comma :: commaSeparated text (b :: l)

def jsonCells (plat : Platform) (cells : List Cell) : Bytes :=
  lbracket :: (commaSeparated (jsonCell plat) cells ++ [rbracket])

/-! ### Paths -/

/-- The digit that `%X` prints. -/
def hexUpper (n : Nat) : UInt8 := if n < 10 then (n + 0x30).toUInt8 else (n - 10 + 0x41).toUInt8

/-- The characters that pass through a path segment as they are. -/
def isUnreserved (c : UInt8) : Bool :=
  isUpper c || isLower c || isDigit c || c == minus || c == 0x5F || c == dot || c == 0x7E

def urlEncodeSegment (seg : Bytes) : Bytes :=
  seg.flatMap fun c =>
    if isUnreserved c then [c]
    else [0x25, hexUpper (c.toNat / 16), hexUpper (c.toNat % 16)]

/-! ### Tables -/

def serializeColumnJson (col : Column) : Bytes :=
  ascii "\x7b\"id\":" ++ int64Text col.id ++
    ascii ",\"name\":" ++ jsonEscape col.name ++
    ascii ",\"ty\":" ++ jsonEscape col.ty ++
    ascii ",\"primary_key\":" ++ (if col.primaryKey then ascii "true" else ascii "false") ++
    ascii ",\"nullable\":" ++ (if col.nullable then ascii "true" else ascii "false") ++
    (if col.enumVariants.isEmpty then []
      else ascii ",\"enum_variants\":[" ++ commaSeparated jsonEscape col.enumVariants ++
        ascii "]") ++
    (match col.defaultExpr, col.defaultValueJson, col.defaultValue with
      | some expr, _, _ => ascii ",\"default_expr\":" ++ jsonEscape expr
      | none, some json, _ => ascii ",\"default_value\":" ++ json
      | none, none, some value => ascii ",\"default_value\":" ++ jsonEscape value
      | none, none, none => []) ++
    (match col.embeddingSourceJson with
      | some json => ascii ",\"embedding_source\":" ++ json
      | none => []) ++ [rbrace]

/-- What `snprintf` leaves in a buffer of `size` bytes, the terminator aside. -/
def inBuffer (size : Nat) (text : Bytes) : Bytes := text.take (size - 1)

/-- `std::to_string`, `%zu` and `%llu` -/
def uint64Text (n : UInt64) : Bytes := decimal n.toNat

def IndexKind.wire : IndexKind → Bytes
  | .bitmap => ascii "bitmap"
  | .fm => ascii "fm_index"
  | .ann => ascii "ann"
  | .learnedRange => ascii "learned_range"
  | .minHash => ascii "minhash"
  | .sparse => ascii "sparse"

def AnnQuantization.wire : AnnQuantization → Bytes
  | .dense => ascii "dense"
  | .product => ascii "product"
  | .binarySign => ascii "binary_sign"

def AnnAlgorithm.wire : AnnAlgorithm → Bytes
  | .diskann => ascii "diskann"
  | .ivf => ascii "ivf"
  | .hnsw => ascii "hnsw"

def diskannText (index : Index) : Bytes :=
  let r := if index.diskannR ≠ 0 then index.diskannR else 64
  let l := if index.diskannL ≠ 0 then index.diskannL else 128
  let beam := if index.diskannBeamWidth ≠ 0 then index.diskannBeamWidth else 8
  let alpha := if index.diskannAlpha ≠ 0 then index.diskannAlpha else 120
  inBuffer 96 (ascii ",\"diskann\":\x7b\"r\":" ++ uint64Text r ++ ascii ",\"l\":" ++ uint64Text l ++
    ascii ",\"beam_width\":" ++ uint64Text beam ++ ascii ",\"alpha\":" ++ decimal alpha.toNat ++
    ascii "\x7d")

def ivfText (index : Index) : Bytes :=
  let nlist := if index.ivfNlist ≠ 0 then index.ivfNlist else 256
  let nprobe := if index.ivfNprobe ≠ 0 then index.ivfNprobe else 8
  inBuffer 64 (ascii ",\"ivf\":\x7b\"nlist\":" ++ uint64Text nlist ++ ascii ",\"nprobe\":" ++
    uint64Text nprobe ++ ascii "\x7d")

def productText (index : Index) : Bytes :=
  let training := if index.pqTrainingSamples ≠ 0 then index.pqTrainingSamples else 256000
  let seed := if index.pqSeed ≠ 0 then index.pqSeed else 0x9E3779B97F4A7C15
  let rerank := if index.pqRerankFactor ≠ 0 then index.pqRerankFactor else 5
  inBuffer 96 (ascii ",\"product\":\x7b\"training_samples\":" ++ uint64Text training ++
    ascii ",\"seed\":" ++ uint64Text seed ++ ascii ",\"rerank_factor\":" ++ uint64Text rerank ++
    ascii "\x7d")

/-- The `options` member of an index, if its kind has one. -/
def indexOptionsText (index : Index) : Bytes :=
  match index.kind with
  | .ann =>
    ascii ",\"options\":\x7b\"ann\":\x7b\"m\":" ++ uint64Text index.annM ++
      ascii ",\"ef_construction\":" ++ uint64Text index.annEfConstruction ++
      ascii ",\"ef_search\":" ++ uint64Text index.annEfSearch ++
      ascii ",\"quantization\":\"" ++ index.annQuantization.wire ++ ascii "\"" ++
      (if index.annAlgorithm ≠ .hnsw then
        ascii ",\"algorithm\":\"" ++ index.annAlgorithm.wire ++ ascii "\"" ++
          (match index.annAlgorithm with
            | .diskann => diskannText index
            | .ivf => ivfText index
            | .hnsw => [])
        else []) ++
      (if index.annQuantization = .product then productText index else []) ++ ascii "\x7d\x7d"
  | .minHash =>
    ascii ",\"options\":\x7b\"minhash\":\x7b\"permutations\":" ++
      uint64Text index.minhashPermutations ++ ascii ",\"bands\":" ++
      uint64Text index.minhashBands ++ ascii "\x7d\x7d"
  | .learnedRange =>
    ascii ",\"options\":\x7b\"learned_range\":\x7b\"epsilon\":" ++
      uint64Text index.learnedRangeEpsilon ++ ascii "\x7d\x7d"
  | _ => []

def serializeIndexJson (index : Index) : Bytes :=
  ascii "\x7b\"name\":" ++ jsonEscape index.name ++
    ascii ",\"column_id\":" ++ int64Text index.columnId ++
    ascii ",\"kind\":" ++ jsonEscape index.kind.wire ++
    (match index.predicate with
      | some predicate => ascii ",\"predicate\":" ++ jsonEscape predicate
      | none => []) ++
    indexOptionsText index ++ [rbrace]

def serializeCreateTableJson (name : Bytes) (columns : List Column) (constraintsJson : Bytes)
    (indexes : List Index) : Bytes :=
  ascii "\x7b\"name\":" ++ jsonEscape name ++
    ascii ",\"columns\":[" ++ commaSeparated serializeColumnJson columns ++ [rbracket] ++
    (if constraintsJson.isEmpty then [] else ascii ",\"constraints\":" ++ constraintsJson) ++
    (if indexes.isEmpty then []
      else ascii ",\"indexes\":[" ++ commaSeparated serializeIndexJson indexes ++ [rbracket]) ++
    [rbrace]

/-! ### Transactions -/

/-- One op of `commit`. -/
def opText (plat : Platform) (op : Op) : Bytes :=
  lbrace :: ((match op.type with
    | .put =>
      ascii "\"put\":\x7b\"table\":" ++ jsonEscape op.table ++
        ascii ",\"cells\":" ++ jsonCells plat op.cells ++ ascii ",\"returning\":false\x7d"
    | .upsert =>
      ascii "\"upsert\":\x7b\"table\":" ++ jsonEscape op.table ++
        ascii ",\"cells\":" ++ jsonCells plat op.cells ++
        (if op.updateCells.isEmpty then []
          else ascii ",\"update_cells\":" ++ jsonCells plat op.updateCells) ++
        ascii ",\"returning\":false\x7d"
    | .delete =>
      ascii "\"delete\":\x7b\"table\":" ++ jsonEscape op.table ++
        ascii ",\"row_id\":" ++ int64Text op.rowId ++ [rbrace]
    | .deleteByPk =>
      ascii "\"delete_by_pk\":\x7b\"table\":" ++ jsonEscape op.table ++
        ascii ",\"pk\":" ++ jsonValue plat op.pkValue ++ [rbrace]) ++ [rbrace])

/-- The body that `commit` posts to `/kit/txn`. -/
def commitBody (plat : Platform) (ops : List Op) (idempotencyKey : Bytes) : Bytes :=
  ascii "\x7b\"ops\":[" ++ commaSeparated (opText plat) ops ++ ascii "]" ++
    (if idempotencyKey.isEmpty then []
      else ascii ",\"idempotency_key\":" ++ jsonEscape idempotencyKey) ++ [rbrace]

/-! ### Queries -/

/-- One entry of the `conditions` array of `query`. -/
def conditionText (plat : Platform) (c : Condition) : Bytes :=
  match c.conditionJson with
  | some json => json
  | none =>
    let id := int64Text c.columnId
    lbrace :: ((match c.kind with
      | .pk =>
        ascii "\"pk\":\x7b\"value\":" ++
          (if c.strValue.isEmpty then int64Text c.intValue else jsonEscape c.strValue) ++ [rbrace]
      | .bitmapEq =>
        ascii "\"bitmap_eq\":\x7b\"column_id\":" ++ id ++ ascii ",\"value\":" ++
          jsonEscape c.strValue ++ [rbrace]
      | .range =>
        ascii "\"range\":\x7b\"column_id\":" ++ id ++
          (if c.loSet then ascii ",\"lo\":" ++ plat.fmtG17 c.lo else []) ++
          (if c.hiSet then ascii ",\"hi\":" ++ plat.fmtG17 c.hi else []) ++ [rbrace]
      | .fmContains =>
        ascii "\"fm_contains\":\x7b\"column_id\":" ++ id ++ ascii ",\"pattern\":" ++
          jsonEscape c.strValue ++ [rbrace]
      | .isNull => ascii "\"is_null\":\x7b\"column_id\":" ++ id ++ [rbrace]
      | .isNotNull => ascii "\"is_not_null\":\x7b\"column_id\":" ++ id ++ [rbrace]) ++ [rbrace])

/-- The body that `query` posts to `/kit/query`. -/
def queryBody (plat : Platform) (table : Bytes) (conditions : List Condition)
    (projection : List Int64) (limit offset : Int64) : Bytes :=
  ascii "\x7b\"table\":" ++ jsonEscape table ++
    (if conditions.isEmpty then []
      else ascii ",\"conditions\":[" ++ commaSeparated (conditionText plat) conditions ++
        [rbracket]) ++
    (if projection.isEmpty then []
      else ascii ",\"projection\":[" ++ commaSeparated int64Text projection ++ [rbracket]) ++
    (if limit > 0 then ascii ",\"limit\":" ++ int64Text limit else []) ++
    (if offset ≠ 0 then ascii ",\"offset\":" ++ int64Text offset else []) ++ [rbrace]

end MongrelDB
