import MongrelDB.Json.Syntax

/-!
# What JSON texts mean

The value of a string literal is the byte string its items stand for, an escaped surrogate pair
counting as one code point and a surrogate without its partner as U+FFFD. The value of a text is a
`Tree`, which forgets white space and the spelling of strings but keeps number literals as they are
written. Members of an object are looked up by the value of their name.
-/

namespace Json

open Text

/-! ### Strings -/

def isHighSurrogate (u : Nat) : Bool := 0xD800 ≤ u && u ≤ 0xDBFF

def isLowSurrogate (u : Nat) : Bool := 0xDC00 ≤ u && u ≤ 0xDFFF

/-- The code point of a surrogate pair. -/
def surrogatePair (hi lo : Nat) : Nat := 0x10000 + (hi - 0xD800) * 0x400 + (lo - 0xDC00)

def utf8 (cp : Nat) : Bytes := String.utf8EncodeChar (Char.ofNat cp)

/-- The bytes a string literal stands for. -/
def StrLit.decode : StrLit → Bytes
  | [] => []
  | .raw c _ :: s => c :: StrLit.decode s
  | .short _ v _ :: s => v :: StrLit.decode s
  | .unicode h :: s =>
    let rest := StrLit.decode s
    if isHighSurrogate h.unit then
      match s with
      | .unicode h' :: s' =>
        if isLowSurrogate h'.unit then utf8 (surrogatePair h.unit h'.unit) ++ StrLit.decode s'
        else utf8 0xFFFD ++ rest
      | _ => utf8 0xFFFD ++ rest
    else if isLowSurrogate h.unit then utf8 0xFFFD ++ rest
    else utf8 h.unit ++ rest

@[simp] lemma StrLit.decode_nil : StrLit.decode [] = [] := by simp [StrLit.decode]

@[simp] lemma StrLit.decode_raw (c : UInt8) (h : isUnescaped c = true) (s : StrLit) :
    StrLit.decode (.raw c h :: s) = c :: StrLit.decode s := by simp [StrLit.decode]

@[simp] lemma StrLit.decode_short (c v : UInt8) (h : shortEscape c = some v) (s : StrLit) :
    StrLit.decode (.short c v h :: s) = v :: StrLit.decode s := by simp [StrLit.decode]

lemma StrLit.decode_unicode {h : Hex4} (hh : isHighSurrogate h.unit = false)
    (hl : isLowSurrogate h.unit = false) (s : StrLit) :
    StrLit.decode (.unicode h :: s) = utf8 h.unit ++ StrLit.decode s := by
  rw [StrLit.decode.eq_def]
  simp only [hh, hl, Bool.false_eq_true, if_false]

/-! ### Numbers -/

/-- A literal without fraction and exponent. -/
def NumLit.isInt (n : NumLit) : Bool := n.frac.isNone && n.exp.isNone

/-- The value of an integer literal. -/
def NumLit.intValue (n : NumLit) : Int :=
  if n.neg then -(readNat n.int.text) else readNat n.int.text

lemma NumLit.isEmpty_renderTail (n : NumLit) :
    (n.renderFrac ++ n.renderExp).isEmpty = n.isInt := by
  unfold NumLit.renderFrac NumLit.renderExp NumLit.isInt
  cases n.frac with
  | some ds => rfl
  | none =>
    cases n.exp with
    | none => rfl
    | some e => rfl

lemma NumLit.render_of_isInt {n : NumLit} (h : n.isInt = true) :
    n.render = (if n.neg then [minus] else []) ++ n.int.text := by
  simp only [NumLit.isInt, Bool.and_eq_true, Option.isNone_iff_eq_none] at h
  simp [NumLit.render, NumLit.renderFrac, NumLit.renderExp, h]

lemma NumLit.scanInt_render {n : NumLit} (h : n.isInt = true) : scanInt n.render = n.intValue := by
  rw [NumLit.render_of_isInt h]
  by_cases hn : n.neg
  · simpa [hn, NumLit.intValue] using scanInt_minus n.int.isDigit (stops_nil isDigit)
  · simpa [hn, NumLit.intValue] using
      scanInt_digits n.int.ne_nil n.int.isDigit (stops_nil isDigit)

/-! ### Trees -/

/-- The value of a JSON text. -/
inductive Tree where
  | null
  | bool (b : Bool)
  | num (text : Bytes)
  | str (s : Bytes)
  | arr (es : List Tree)
  | obj (ms : List (Bytes × Tree))

/-- Values in which no object has two members of the same name. -/
inductive Tree.Distinct : Tree → Prop
  | null : Distinct .null
  | bool (b : Bool) : Distinct (.bool b)
  | num (text : Bytes) : Distinct (.num text)
  | str (s : Bytes) : Distinct (.str s)
  | arr {es : List Tree} (h : ∀ t ∈ es, Distinct t) : Distinct (.arr es)
  | obj {ms : List (Bytes × Tree)} (names : (ms.map (·.1)).Nodup)
      (h : ∀ m ∈ ms, Distinct m.2) : Distinct (.obj ms)

mutual
def Cst.tree : Cst → Tree
  | .null => .null
  | .bool b => .bool b
  | .num n => .num n.render
  | .str s => .str s.decode
  | .emptyArr _ => .arr []
  | .arr es => .arr es.trees
  | .emptyObj _ => .obj []
  | .obj ms => .obj ms.trees

def Elems.trees : Elems → List Tree
  | .last _ v _ => [v.tree]
  | .cons _ v _ es => v.tree :: es.trees

def Members.trees : Members → List (Bytes × Tree)
  | .last k _ v _ => [(k.name.decode, v.tree)]
  | .cons k _ v _ ms => (k.name.decode, v.tree) :: ms.trees
end

/-! ### Members -/

def Elems.toList : Elems → List Cst
  | .last _ v _ => [v]
  | .cons _ v _ es => v :: es.toList

/-- The elements of an array. -/
def Cst.elems : Cst → Option (List Cst)
  | .emptyArr _ => some []
  | .arr es => some es.toList
  | _ => none

/-- The members of a non-empty object, each name with its value. -/
def Members.toList : Members → List (Bytes × Cst)
  | .last k _ v _ => [(k.name.decode, v)]
  | .cons k _ v _ ms => (k.name.decode, v) :: ms.toList

def Members.keys (ms : Members) : List Bytes := ms.toList.map (·.1)

def Obj.toList : Obj → List (Bytes × Cst)
  | .empty _ => []
  | .members ms => ms.toList

def Obj.isEmpty : Obj → Bool
  | .empty _ => true
  | .members _ => false

/-- The value of the first member of that name. -/
def Obj.lookup (o : Obj) (key : Bytes) : Option Cst := o.toList.lookup key

lemma Obj.lookup_of_isEmpty {o : Obj} (h : o.isEmpty = true) (key : Bytes) :
    o.lookup key = none := by
  cases o with
  | empty w => rfl
  | members ms => cases h

def Cst.asStr : Cst → Option StrLit
  | .str s => some s
  | _ => none

def Cst.asNum : Cst → Option NumLit
  | .num n => some n
  | _ => none

/-- A number literal without a minus sign. -/
def Cst.asUnsigned (v : Cst) : Option NumLit := v.asNum.filter fun n => !n.neg

def Cst.asBool : Cst → Option Bool
  | .bool b => some b
  | _ => none

/-- The value itself, if it is an array. -/
def Cst.asArr : Cst → Option Cst
  | .emptyArr w => some (.emptyArr w)
  | .arr es => some (.arr es)
  | _ => none

lemma Cst.asArr_eq_some {v w : Cst} (h : v.asArr = some w) : v = w := by
  cases v <;> cases h <;> rfl

/-- The value of the member of that name, if it is a string. -/
def Obj.strAt (o : Obj) (key : Bytes) : Option Bytes :=
  ((o.lookup key).bind Cst.asStr).map StrLit.decode

def Obj.numAt (o : Obj) (key : Bytes) : Option NumLit := (o.lookup key).bind Cst.asNum

lemma Obj.lookup_bind_asUnsigned (o : Obj) (key : Bytes) :
    (o.lookup key).bind Cst.asUnsigned = (o.numAt key).filter fun n => !n.neg := by
  rw [Obj.numAt]
  cases o.lookup key <;> rfl

/-- The member of that name, if it is a non-negative integer literal. -/
def Obj.uintAt (o : Obj) (key : Bytes) : Option Nat :=
  (((o.lookup key).bind Cst.asUnsigned).filter NumLit.isInt).map fun n => readNat n.int.text

def Obj.boolAt (o : Obj) (key : Bytes) : Option Bool := (o.lookup key).bind Cst.asBool

def Obj.objAt (o : Obj) (key : Bytes) : Option Obj := (o.lookup key).bind Cst.asObj

/-- The first value of that name and type. -/
def Obj.first {γ : Type} (sel : Cst → Option γ) (o : Obj) (key : Bytes) : Option γ :=
  o.toList.findSome? fun m => if m.1 == key then sel m.2 else none

/-- The member of that name, if it is an array. -/
def Obj.arrAt (o : Obj) (key : Bytes) : Option Cst := (o.lookup key).bind Cst.asArr

mutual
/-- No object in the value has two members of the same name. -/
def Cst.distinct : Cst → Bool
  | .arr es => es.distinct
  | .obj ms => decide (ms.keys.Nodup) && ms.distinct
  | _ => true

def Elems.distinct : Elems → Bool
  | .last _ v _ => v.distinct
  | .cons _ v _ es => v.distinct && es.distinct

def Members.distinct : Members → Bool
  | .last _ _ v _ => v.distinct
  | .cons _ _ v _ ms => v.distinct && ms.distinct
end

def Obj.distinct (o : Obj) : Bool := o.toCst.distinct

lemma Members.distinct_of_mem {ms : Members} (h : ms.distinct = true) {k : Bytes} {v : Cst}
    (hv : (k, v) ∈ ms.toList) : v.distinct = true := by
  match ms with
  | .last k' pre v' post =>
    simp only [Members.toList, List.mem_singleton, Prod.mk.injEq] at hv
    simpa [Members.distinct, hv.2] using h
  | .cons k' pre v' post ms =>
    simp only [Members.distinct, Bool.and_eq_true] at h
    simp only [Members.toList, List.mem_cons, Prod.mk.injEq] at hv
    rcases hv with ⟨-, rfl⟩ | hv
    · exact h.1
    · exact Members.distinct_of_mem h.2 hv

lemma Elems.distinct_of_mem {es : Elems} (h : es.distinct = true) {v : Cst} (hv : v ∈ es.toList) :
    v.distinct = true := by
  match es with
  | .last pre v' post =>
    simp only [Elems.toList, List.mem_singleton] at hv
    simpa [Elems.distinct, hv] using h
  | .cons pre v' post es =>
    simp only [Elems.distinct, Bool.and_eq_true] at h
    simp only [Elems.toList, List.mem_cons] at hv
    rcases hv with rfl | hv
    · exact h.1
    · exact Elems.distinct_of_mem h.2 hv

lemma mem_of_lookup {α β : Type*} [BEq α] [LawfulBEq α] {l : List (α × β)} {k : α} {v : β}
    (h : l.lookup k = some v) : (k, v) ∈ l := by
  induction l with
  | nil => simp at h
  | cons p l ih =>
    obtain ⟨k', v'⟩ := p
    by_cases hk : k = k'
    · subst hk
      simp only [List.lookup_cons_self, Option.some.injEq] at h
      simp [h]
    · have hb : (k == k') = false := by simpa using hk
      simp only [List.lookup_cons, hb] at h
      exact List.mem_cons_of_mem _ (ih h)

lemma lookup_of_mem {α β : Type*} [BEq α] [LawfulBEq α] {l : List (α × β)} {k : α} {v : β}
    (hn : (l.map (·.1)).Nodup) (h : (k, v) ∈ l) : l.lookup k = some v := by
  induction l with
  | nil => cases h
  | cons p l ih =>
    obtain ⟨hp, hn⟩ := List.nodup_cons.mp hn
    rcases List.mem_cons.mp h with rfl | h
    · exact List.lookup_cons_self
    · have hne : k ≠ p.1 := by
        rintro rfl
        exact hp (List.mem_map_of_mem (f := (·.1)) h)
      have hb : (k == p.1) = false := by simpa using hne
      rw [List.lookup_cons, hb]
      exact ih hn h

/-- The members of an object without repeated names have none either. -/
lemma Obj.distinct_of_lookup {o : Obj} (h : o.distinct = true) {key : Bytes} {v : Cst}
    (hv : o.lookup key = some v) : v.distinct = true := by
  cases o with
  | empty w => simp [Obj.lookup, Obj.toList] at hv
  | members ms =>
    simp only [Obj.distinct, Obj.toCst, Cst.distinct, Bool.and_eq_true] at h
    exact Members.distinct_of_mem h.2 (mem_of_lookup hv)

lemma Obj.nodup_keys {o : Obj} (h : o.distinct = true) : (o.toList.map (·.1)).Nodup := by
  cases o with
  | empty w => simp [Obj.toList]
  | members ms =>
    simp only [Obj.distinct, Obj.toCst, Cst.distinct, Bool.and_eq_true, decide_eq_true_eq] at h
    exact h.1

/-- Where names are not repeated, a member is found by its name. -/
lemma Obj.lookup_of_mem {o : Obj} (h : o.distinct = true) {key : Bytes} {v : Cst}
    (hv : (key, v) ∈ o.toList) : o.lookup key = some v :=
  Json.lookup_of_mem (Obj.nodup_keys h) hv

lemma Obj.distinct_of_objAt {o p : Obj} (h : o.distinct = true) {key : Bytes}
    (hp : o.objAt key = some p) : p.distinct = true := by
  obtain ⟨v, hv, hvp⟩ := Option.bind_eq_some_iff.mp hp
  rw [Obj.distinct, ← Cst.asObj_eq_some hvp]
  exact Obj.distinct_of_lookup h hv

end Json
