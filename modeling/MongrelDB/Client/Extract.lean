import MongrelDB.Client.JsonParser

/-!
# Extracting one member of an object

The six `get_*` functions scan the members of the object a text begins with and stop at the first
one that has the wanted name and looks like the wanted type. They share the scan and differ in the
test (`here`) and in what they take at that place (`take`). The parameter `out` is what the output
argument holds before the call; the result carries what it holds afterwards. The search for the
`rows` of a query response is such a scan as well.
-/

namespace MongrelDB

open Text Traced Prog JsonParser

/-- `k == key && j.peek() == c` -/
def keyIs (k key : Bytes) (c : UInt8) : Walk Bool := do
  if k == key then return (← peek) == some c
  else return false

/-- One round of a scan over members: it is over with `take` at the member that is wanted, with
`stuck` where the text is not as expected, and with `ended` where no comma follows the value, which
is told whether a brace does. -/
def memberRound {β : Type} (here : Bytes → Walk Bool) (take : Walk β) (stuck : β)
    (ended : Bool → β) : Walk (Round Unit β) := do
  if (← peek) != some quote then return .done stuck
  let k ← readStringRaw
  if !(← isOk) then return .done stuck
  expect colon
  if !(← isOk) then return .done stuck
  if ← here k then return .done (← take)
  skipValue
  if !(← isOk) then return .done stuck
  let ch ← peek
  if ch == some comma then
    expect comma
    return .again ()
  return .done (ended (ch == some rbrace))

def scanMembers {α : Type} (here : Bytes → Walk Bool) (take : Walk (Bool × α)) (out : α) :
    Walk (Bool × α) := do
  if (← peek) != some lbrace then return (false, out)
  expect lbrace
  if (← peek) == some rbrace then return (false, out)
  iterate (fun _ => memberRound here take (false, out) fun closed => (closed, out)) ()

/-! ### Strings, numbers and booleans -/

def takeString : Walk (Bool × Bytes) := do
  let s ← readStringRaw
  return (← isOk, s)

def getString (body key : Bytes) (out : Bytes) : Call (Bool × Bytes) :=
  walk body (scanMembers (fun k => keyIs k key quote) takeString out)

/-- `k == key && (ch == '-' || (ch >= '0' && ch <= '9'))` -/
def numberHere (key k : Bytes) : Walk Bool := do
  let ch ← peek
  return k == key && startsNumber ch

def takeNumber : Walk (Bool × Binary64) := do
  let num ← readNumberRaw
  return (← isOk, Binary64.strtod num)

def getNumber (body key : Bytes) (out : Binary64) : Call (Bool × Binary64) :=
  walk body (scanMembers (numberHere key) takeNumber out)

/-- `static_cast<std::int64_t>(d)` -/
def castInt64 (plat : Platform) (d : Binary64) : Int64 :=
  if d.isFinite && -2 ^ 63 ≤ d.trunc && d.trunc < 2 ^ 63 then Int64.ofInt d.trunc
  else plat.wildInt64 d

def getInt (plat : Platform) (body key : Bytes) (out : Int64) : Call (Bool × Int64) := do
  let (found, d) ← getNumber body key ⟨0⟩
  if !found then return (false, out)
  return (true, castInt64 plat d)

/-- `k == key && (ch >= '0' && ch <= '9')` -/
def digitHere (key k : Bytes) : Walk Bool := do
  let ch ← peek
  return k == key && ch.elim false isDigit

def takeUint64 (out : UInt64) : Walk (Bool × UInt64) := do
  let raw ← readNumberRaw
  if !(← isOk) then return (false, out)
  let (v, rest) := strtoull raw
  if !rest.isEmpty then return (false, out)
  return (true, v)

def getUint64 (body key : Bytes) (out : UInt64) : Call (Bool × UInt64) :=
  walk body (scanMembers (digitHere key) (takeUint64 out) out)

/-- `k == key && (ch == 't' || ch == 'f')` -/
def boolHere (key k : Bytes) : Walk Bool := do
  let ch ← peek
  return k == key && (ch == some 0x74 || ch == some 0x66)

/-- `as_bool` -/
def asBool (v : Value) : Walk Bool :=
  match v with
  | .bool b => return b
  | _ => throwQuery "mongreldb: value type mismatch"

def takeBool : Walk (Bool × Bool) := do
  let v ← readValue
  let b ← asBool v
  return (← isOk, b)

def getBool (body key : Bytes) (out : Bool) : Call (Bool × Bool) :=
  walk body (scanMembers (boolHere key) takeBool out)

/-! ### Raw objects and arrays -/

def takeRaw (out : Bytes) : Walk (Bool × Bytes) := do
  let start ← cursor
  skipValue
  if !(← isOk) then return (false, out)
  return (true, ← substr start ((← cursor) - start))

def getObjectRaw (body key : Bytes) (out : Bytes) : Call (Bool × Bytes) :=
  walk body (scanMembers (fun k => keyIs k key lbrace) (takeRaw out) out)

def getArrayRaw (body key : Bytes) (out : Bytes) : Call (Bool × Bytes) :=
  walk body (scanMembers (fun k => keyIs k key lbracket) (takeRaw out) out)

end MongrelDB
