import MongrelDB.Text.Decimal

/-!
# Concrete syntax of JSON texts

The grammar of RFC 8259, byte by byte, as a type of concrete syntax trees: a tree records every
choice the grammar leaves open (white space between tokens, the spelling of a string, the form of a
number), its fields carry the side conditions of the grammar, and `render` writes the text down.
A byte string is a JSON text exactly when it is the rendering of a `Doc`.
-/

namespace Json

open Text

/-! ### Tokens -/

/-- White space between tokens. -/
structure Ws where
  text : Bytes
  isSpace : ∀ c ∈ text, Text.isSpace c = true

def Ws.none : Ws := ⟨[], by simp⟩

/-- A non-empty run of digits. -/
structure Digits where
  text : Bytes
  ne_nil : text ≠ []
  isDigit : ∀ c ∈ text, Text.isDigit c = true

inductive Sign where
  | none
  | plus
  | minus

def Sign.render : Sign → Bytes
  | .none => []
  | .plus => [Text.plus]
  | .minus => [Text.minus]

structure Exponent where
  upper : Bool
  sign : Sign
  digits : Digits

def Exponent.render (e : Exponent) : Bytes :=
  (if e.upper then 0x45 else 0x65) :: (e.sign.render ++ e.digits.text)

/-- A number literal; its integer part has no superfluous leading zero. -/
structure NumLit where
  neg : Bool
  int : Digits
  noLeadingZero : ∀ t, int.text = zero :: t → t = []
  frac : Option Digits
  exp : Option Exponent

def NumLit.renderFrac (n : NumLit) : Bytes := n.frac.elim [] fun ds => dot :: ds.text

def NumLit.renderExp (n : NumLit) : Bytes := n.exp.elim [] Exponent.render

def NumLit.render (n : NumLit) : Bytes :=
  (if n.neg then [minus] else []) ++ n.int.text ++ n.renderFrac ++ n.renderExp

/-- The two-character escapes: the value of the escape that a backslash and `c` form. -/
def shortEscape (c : UInt8) : Option UInt8 :=
  if c = quote then some quote
  else if c = backslash then some backslash
  else if c = slash then some slash
  else if c = 0x62 then some 0x08
  else if c = 0x66 then some 0x0C
  else if c = 0x6E then some 0x0A
  else if c = 0x72 then some 0x0D
  else if c = 0x74 then some 0x09
  else none

structure HexDigit where
  char : UInt8
  val : Nat
  isHex : hexVal char = some val

/-- The four hexadecimal digits of a `\u` escape. -/
structure Hex4 where
  a : HexDigit
  b : HexDigit
  c : HexDigit
  d : HexDigit

def Hex4.text (h : Hex4) : Bytes := [h.a.char, h.b.char, h.c.char, h.d.char]

def Hex4.unit (h : Hex4) : Nat := ((h.a.val * 16 + h.b.val) * 16 + h.c.val) * 16 + h.d.val

/-- A byte that stands for itself in a string: no quote, no backslash, no control byte. -/
def isUnescaped (c : UInt8) : Bool := 0x20 ≤ c && c != quote && c != backslash

inductive StrItem where
  | raw (c : UInt8) (h : isUnescaped c = true)
  | short (c v : UInt8) (h : shortEscape c = some v)
  | unicode (h : Hex4)

def StrItem.render : StrItem → Bytes
  | .raw c _ => [c]
  | .short c _ _ => [backslash, c]
  | .unicode h => backslash :: 0x75 :: h.text

abbrev StrLit := List StrItem

/-- The text of the items, without the quotes. -/
def StrLit.body (s : StrLit) : Bytes := s.flatMap StrItem.render

def StrLit.render (s : StrLit) : Bytes := quote :: (s.body ++ [quote])

@[simp] lemma StrLit.body_nil : StrLit.body [] = [] := rfl

@[simp] lemma StrLit.body_cons (i : StrItem) (s : StrLit) :
    StrLit.body (i :: s) = i.render ++ StrLit.body s := rfl

/-- The name of a member, with the white space around it; the colon is part of its text. -/
structure Key where
  before : Ws
  name : StrLit
  after : Ws

def Key.render (k : Key) : Bytes := k.before.text ++ k.name.render ++ k.after.text ++ [colon]

/-! ### Values -/

mutual
/-- A value without the white space around it. -/
inductive Cst where
  | null
  | bool (b : Bool)
  | num (n : NumLit)
  | str (s : StrLit)
  | emptyArr (w : Ws)
  | arr (es : Elems)
  | emptyObj (w : Ws)
  | obj (ms : Members)

/-- The elements of a non-empty array. -/
inductive Elems where
  | last (pre : Ws) (v : Cst) (post : Ws)
  | cons (pre : Ws) (v : Cst) (post : Ws) (es : Elems)

/-- The members of a non-empty object. -/
inductive Members where
  | last (k : Key) (pre : Ws) (v : Cst) (post : Ws)
  | cons (k : Key) (pre : Ws) (v : Cst) (post : Ws) (ms : Members)
end

mutual
def Cst.render : Cst → Bytes
  | .null => ascii "null"
  | .bool b => if b then ascii "true" else ascii "false"
  | .num n => n.render
  | .str s => s.render
  | .emptyArr w => lbracket :: (w.text ++ [rbracket])
  | .arr es => lbracket :: (es.render ++ [rbracket])
  | .emptyObj w => lbrace :: (w.text ++ [rbrace])
  | .obj ms => lbrace :: (ms.render ++ [rbrace])

def Elems.render : Elems → Bytes
  | .last pre v post => pre.text ++ v.render ++ post.text
  | .cons pre v post es => pre.text ++ v.render ++ post.text ++ comma :: es.render

def Members.render : Members → Bytes
  | .last k pre v post => k.render ++ pre.text ++ v.render ++ post.text
  | .cons k pre v post ms => k.render ++ pre.text ++ v.render ++ post.text ++ comma :: ms.render
end

/-- A JSON text: one value with white space around it. -/
structure Doc where
  pre : Ws
  val : Cst
  post : Ws

def Doc.render (d : Doc) : Bytes := d.pre.text ++ d.val.render ++ d.post.text

/-- An object, empty or not. -/
inductive Obj where
  | empty (w : Ws)
  | members (ms : Members)

def Obj.toCst : Obj → Cst
  | .empty w => .emptyObj w
  | .members ms => .obj ms

def Obj.render (o : Obj) : Bytes := o.toCst.render

def Cst.asObj : Cst → Option Obj
  | .emptyObj w => some (.empty w)
  | .obj ms => some (.members ms)
  | _ => none

lemma Cst.asObj_eq_some {v : Cst} {o : Obj} (h : v.asObj = some o) : v = o.toCst := by
  cases v <;> simp only [Cst.asObj, Option.some.injEq, reduceCtorEq] at h <;> subst h <;> rfl

/-- A JSON text whose value is an object. -/
structure ObjDoc where
  pre : Ws
  obj : Obj
  post : Ws

def ObjDoc.toDoc (d : ObjDoc) : Doc := ⟨d.pre, d.obj.toCst, d.post⟩

def ObjDoc.render (d : ObjDoc) : Bytes := d.toDoc.render

/-! ### First and last characters -/

lemma NumLit.render_head (n : NumLit) :
    ∃ c t, n.render = c :: t ∧ (c = minus ∨ isDigit c = true) := by
  unfold NumLit.render
  obtain ⟨c, t, hct⟩ := List.exists_cons_of_ne_nil n.int.ne_nil
  by_cases hn : n.neg
  · exact ⟨minus, n.int.text ++ n.renderFrac ++ n.renderExp, by simp [hn], .inl rfl⟩
  · exact ⟨c, t ++ n.renderFrac ++ n.renderExp, by simp [hn, hct],
      .inr (n.int.isDigit c (by simp [hct]))⟩

lemma NumLit.stops_renderExp (n : NumLit) : Stops Text.isDigit n.renderExp := by
  unfold NumLit.renderExp
  cases n.exp with
  | none => exact stops_nil _
  | some e => simp only [Option.elim_some, Exponent.render, stops_cons]; split_ifs <;> decide

lemma NumLit.stops_isDigit (n : NumLit) : Stops Text.isDigit (n.renderFrac ++ n.renderExp) := by
  cases hf : n.frac with
  | none => simpa [NumLit.renderFrac, hf] using n.stops_renderExp
  | some ds =>
    simp only [NumLit.renderFrac, hf, Option.elim_some, List.cons_append, stops_cons]
    decide

/-- The bytes a number may consist of. -/
def isNumberByte (c : UInt8) : Bool :=
  isDigit c || c == minus || c == plus || c == dot || c == 0x65 || c == 0x45

lemma isNumberByte_of_isDigit {c : UInt8} (h : isDigit c = true) : isNumberByte c = true := by
  simp [isNumberByte, h]

lemma Digits.isNumberByte (ds : Digits) : ∀ c ∈ ds.text, isNumberByte c = true :=
  fun c hc => isNumberByte_of_isDigit (ds.isDigit c hc)

lemma NumLit.isNumberByte (n : NumLit) : ∀ c ∈ n.render, isNumberByte c = true := by
  intro c hc
  simp only [NumLit.render, NumLit.renderFrac, NumLit.renderExp, List.mem_append] at hc
  rcases hc with ((hc | hc) | hc) | hc
  · split_ifs at hc <;> simp at hc
    subst hc
    decide
  · exact n.int.isNumberByte c hc
  · cases hf : n.frac with
    | none => simp [hf] at hc
    | some ds =>
      simp only [hf, Option.elim_some, List.mem_cons] at hc
      rcases hc with rfl | hc
      · decide
      · exact ds.isNumberByte c hc
  · cases he : n.exp with
    | none => simp [he] at hc
    | some e =>
      simp only [he, Option.elim_some, Exponent.render, List.mem_cons, List.mem_append] at hc
      rcases hc with rfl | hc | hc
      · split_ifs <;> decide
      · cases hs : e.sign <;>
          simp only [hs, Sign.render, List.mem_singleton, List.not_mem_nil] at hc
        all_goals subst hc; decide
      · exact e.digits.isNumberByte c hc

/-- The first characters of a value. -/
def isValueHead (c : UInt8) : Bool :=
  c == quote || c == lbrace || c == lbracket || c == 0x74 || c == 0x66 || c == 0x6E ||
    c == minus || isDigit c

lemma Cst.render_head (v : Cst) : ∃ c t, v.render = c :: t ∧ isValueHead c = true := by
  match v with
  | .null => exact ⟨0x6E, ascii "ull", rfl, by decide⟩
  | .bool true => exact ⟨0x74, ascii "rue", rfl, by decide⟩
  | .bool false => exact ⟨0x66, ascii "alse", rfl, by decide⟩
  | .num n =>
    obtain ⟨c, t, hct, hc⟩ := n.render_head
    exact ⟨c, t, by rw [Cst.render, hct], by rcases hc with rfl | hc <;> simp [isValueHead, *]⟩
  | .str s => exact ⟨quote, _, rfl, by decide⟩
  | .emptyArr w => exact ⟨lbracket, _, rfl, by decide⟩
  | .arr es => exact ⟨lbracket, _, rfl, by decide⟩
  | .emptyObj w => exact ⟨lbrace, _, rfl, by decide⟩
  | .obj ms => exact ⟨lbrace, _, rfl, by decide⟩

lemma not_isSpace_of_isValueHead {c : UInt8} (h : isValueHead c = true) : isSpace c = false := by
  by_contra hs
  simp only [Bool.not_eq_false, isSpace, Bool.or_eq_true, beq_iff_eq] at hs
  rcases hs with ((rfl | rfl) | rfl) | rfl <;> exact absurd h (by decide)

lemma Cst.stops_isSpace (v : Cst) (r : Bytes) : Stops isSpace (v.render ++ r) := by
  obtain ⟨c, t, hct, hc⟩ := v.render_head
  rw [hct, List.cons_append, stops_cons]
  exact not_isSpace_of_isValueHead hc

lemma Cst.render_length_pos (v : Cst) : 0 < v.render.length := by
  obtain ⟨c, t, hct, -⟩ := v.render_head
  simp [hct]

end Json
