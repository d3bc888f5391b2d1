import MongrelDB.Client.Types
import MongrelDB.Text.Decimal

/-!
# The JSON walker

`JsonParser` of `mongreldb_impl.hpp`, statement by statement: a cursor into the response body and a
flag that the first error clears. Reads go through `charAt`, which logs the index and stops outside
the string; the cursor moves by `setCursor`; every loop is an `iterate`, which logs each further
round. `skip_value` recurses on an explicit depth.
-/

namespace MongrelDB

open Text Traced

structure JsonParser where
  s : Bytes
  i : Nat
  ok : Bool
  deriving DecidableEq

abbrev Walk := Prog JsonParser Event Stop

namespace JsonParser

open Prog

/-! ### Access to the string and the cursor -/

def cursor : Walk Nat := do return (← get).i

def isOk : Walk Bool := do return (← get).ok

/-- `i_ < s_.size()` -/
def inside : Walk Bool := do
  let p ← get
  return decide (p.i < p.s.length)

/-- `s_[k]` -/
def charAt (k : Nat) : Walk UInt8 := do
  let p ← get
  emit (.read k p.s.length)
  match p.s[k]? with
  | some c => return c
  | none => stop .outOfRange

/-- `s_[i_]` -/
def current : Walk UInt8 := do charAt (← cursor)

/-- `i_ = j` -/
def setCursor (j : Nat) : Walk Unit := do
  let p ← get
  emit (.move p.i j p.s.length)
  set { p with i := j }

/-- `++i_` -/
def advance : Walk Unit := do setCursor ((← cursor) + 1)

/-- `s_[i_++]` -/
def next : Walk UInt8 := do
  let c ← current
  advance
  return c

/-- `ok_ = false` -/
def fail : Walk Unit := do
  let p ← get
  emit (.verdict p.ok false)
  set { p with ok := false }

/-- `s_.substr(start, len)` -/
def substr (start len : Nat) : Walk Bytes := do
  let p ← get
  emit (.substr start len p.s.length)
  if start ≤ p.s.length then return (p.s.drop start).take len
  else stop .outOfRange

/-- A loop over the text. -/
def iterate {γ β : Type} (body : γ → Walk (Round γ β)) (g : γ) : Walk β := do
  let p ← get
  loop .spent (fun p p' => .again p.i p'.i) body (p.s.length + 1) g

/-- `while (i_ < s_.size() && p(s_[i_])) ++i_` -/
def advanceWhile (p : UInt8 → Bool) : Walk Unit :=
  iterate (fun _ => do
    if !(← inside) then return .done ()
    if p (← current) then
      advance
      return .again ()
    else return .done ()) ()

/-! ### Tokens -/

def skipWs : Walk Unit := advanceWhile isSpace

/-- The next character that is not white space; `none` stands for -1. -/
def peek : Walk (Option UInt8) := do
  skipWs
  if ← inside then return some (← current)
  else return none

def expect (ch : UInt8) : Walk Unit := do
  skipWs
  if !(← inside) then fail
  else if (← current) == ch then advance
  else fail

/-- The character that a backslash and `n` are replaced by, `\u` aside. -/
def unescape (n : UInt8) : UInt8 :=
  if n == quote then quote
  else if n == backslash then backslash
  else if n == slash then slash
  else if n == 0x62 then 0x08
  else if n == 0x66 then 0x0C
  else if n == 0x6E then 0x0A
  else if n == 0x72 then 0x0D
  else if n == 0x74 then 0x09
  else n

/-- `cp <<= 4; cp |= ...`: a character that is no hexadecimal digit counts as zero. -/
def pushHex (cp : Nat) (h : UInt8) : Nat := cp <<< 4 ||| (hexVal h).getD 0

/-- The four characters after `\u`, taken as they come. -/
def hexRun : Walk Nat :=
  iterate (fun (k, cp) => do
    if k < 4 then return .again (k + 1, pushHex cp (← next))
    else return .done cp) (0, 0)

/-- The look-ahead for the second half of a surrogate pair: `k` more hexadecimal digits from `j`. -/
def lookHex : Nat → Nat → Nat → Walk (Option (Nat × Nat))
  | 0, j, lo => return some (j, lo)
  | k + 1, j, lo => do
    let h ← charAt j
    match hexVal h with
    | some d =>
      emit (.again j (j + 1))
      lookHex k (j + 1) (lo <<< 4 ||| d)
    | none => return none

/-- A high surrogate is combined with the low one that an escape right after it gives. -/
def lowSurrogate (cp : Nat) : Walk Nat := do
  let p ← get
  if p.i + 6 ≤ p.s.length then
    if (← charAt p.i) == backslash then
      if (← charAt (p.i + 1)) == 0x75 then
        match ← lookHex 4 (p.i + 2) 0 with
        | some (j, lo) =>
          if 0xDC00 ≤ lo && lo ≤ 0xDFFF then
            setCursor j
            return 0x10000 + ((cp - 0xD800) <<< 10) + (lo - 0xDC00)
          else return 0xFFFD
        | none => return 0xFFFD
      else return 0xFFFD
    else return 0xFFFD
  else return 0xFFFD

/-- The UTF-8 encoding of a code point. -/
def pushCodePoint (out : Bytes) (cp : Nat) : Bytes :=
  if cp < 0x80 then out ++ [UInt8.ofNat cp]
  else if cp < 0x800 then
    out ++ [UInt8.ofNat (0xC0 ||| cp >>> 6), UInt8.ofNat (0x80 ||| cp &&& 0x3F)]
  else if cp < 0x10000 then
    out ++ [UInt8.ofNat (0xE0 ||| cp >>> 12), UInt8.ofNat (0x80 ||| cp >>> 6 &&& 0x3F),
      UInt8.ofNat (0x80 ||| cp &&& 0x3F)]
  else
    out ++ [UInt8.ofNat (0xF0 ||| cp >>> 18), UInt8.ofNat (0x80 ||| cp >>> 12 &&& 0x3F),
      UInt8.ofNat (0x80 ||| cp >>> 6 &&& 0x3F), UInt8.ofNat (0x80 ||| cp &&& 0x3F)]

/-- What follows `\u`. With fewer than four characters left the escape stands for nothing. -/
def readUnicode (out : Bytes) : Walk Bytes := do
  let p ← get
  if p.i + 4 ≤ p.s.length then
    let cp ← hexRun
    if 0xD800 ≤ cp && cp ≤ 0xDBFF then return pushCodePoint out (← lowSurrogate cp)
    else if 0xDC00 ≤ cp && cp ≤ 0xDFFF then return pushCodePoint out 0xFFFD
    else return pushCodePoint out cp
  else return out

/-- One round of the loop of `readStringRaw`. -/
def stringRound (out : Bytes) : Walk (Round Bytes Bytes) := do
  if !(← inside) then
    fail
    return .done out
  let c ← next
  if c == quote then return .done out
  if c == backslash then
    if ← inside then
      let n ← next
      if n == 0x75 then return .again (← readUnicode out)
      else return .again (out ++ [unescape n])
    else return .again (out ++ [c])
  else return .again (out ++ [c])

/-- The contents of a string, unescaped; `peek` has seen its opening quote. -/
def readStringRaw : Walk Bytes := do
  advance
  iterate stringRound []

def isNumberChar (c : UInt8) : Bool :=
  isDigit c || c == minus || c == plus || c == dot || c == 0x65 || c == 0x45

def readNumberRaw : Walk Bytes := do
  let start ← cursor
  advanceWhile isNumberChar
  substr start ((← cursor) - start)

/-- `ch == '-' || (ch >= '0' && ch <= '9')` -/
def startsNumber (ch : Option UInt8) : Bool := ch.elim false fun c => c == minus || isDigit c

/-! ### Values -/

/-- What both loops of `skipValue` do after a value: `close` is the bracket that ends the loop. -/
def skipEnd (close : UInt8) : Walk (Round Unit Unit) := do
  if !(← isOk) then return .done ()
  let n ← peek
  if n == some comma then
    advance
    return .again ()
  if n == some close then
    advance
    return .done ()
  fail
  return .done ()

/-- One round of the object loop of `skipValue`, where `skip` is the recursive call. -/
def skipMember (skip : Walk Unit) : Walk (Round Unit Unit) := do
  if (← peek) != some quote then
    fail
    return .done ()
  let _ ← readStringRaw
  expect colon
  skip
  skipEnd rbrace

/-- One round of the array loop of `skipValue`. -/
def skipElement (skip : Walk Unit) : Walk (Round Unit Unit) := do
  skip
  skipEnd rbracket

/-- `skip_value` nested at most `n` deep. -/
def skipValueN : Nat → Walk Unit
  | 0 => stop .spent
  | n + 1 => do
    let entry ← cursor
    let skip : Walk Unit := do
      emit (.nested entry (← cursor))
      skipValueN n
    let ch ← peek
    if ch == some quote then
      let _ ← readStringRaw
      return ()
    else if ch == some lbrace then
      advance
      skipWs
      if (← peek) == some rbrace then advance
      else iterate (fun _ => skipMember skip) ()
    else if ch == some lbracket then
      advance
      skipWs
      if (← peek) == some rbracket then advance
      else iterate (fun _ => skipElement skip) ()
    else if ch == some 0x74 || ch == some 0x66 || ch == some 0x6E then
      advanceWhile fun c => isLetter c || c == 0x5F
    else if startsNumber ch then
      let _ ← readNumberRaw
      return ()
    else fail

/-- Skip a whole value: an object, an array, a string, a number or a literal. -/
def skipValue : Walk Unit := do
  let p ← get
  skipValueN (p.s.length + 1)

/-- Whether the text of a number has none of `.`, `e` and `E`. -/
def isIntegerText (num : Bytes) : Bool := num.all fun c => c != dot && c != 0x65 && c != 0x45

/-- The value at the cursor. -/
def readValue : Walk Value := do
  let ch ← peek
  if ch == some quote then return .string (← readStringRaw)
  else if ch == some lbrace || ch == some lbracket then
    let start ← cursor
    skipValue
    return .json (← substr start ((← cursor) - start))
  else if ch == some 0x74 || ch == some 0x66 then
    let start ← cursor
    advanceWhile isLetter
    let lit ← substr start ((← cursor) - start)
    return .bool (lit == ascii "true")
  else if ch == some 0x6E then
    advanceWhile isLower
    return .null
  else if startsNumber ch then
    let num ← readNumberRaw
    if isIntegerText num then return .int64 (strtoll num)
    else return .double (Binary64.strtod num)
  else
    fail
    return .null

end JsonParser

/-- Run a walker over a text, from its beginning. -/
def walk {α : Type} (s : Bytes) (w : Walk α) : Call α := do
  let r ← w ⟨s, 0, true⟩
  return r.1

end MongrelDB
