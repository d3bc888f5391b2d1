import MongrelDB.Json.Value

/-!
# A reference parser

A strict recursive-descent parser for RFC 8259, written for its meaning and not for speed. It
accepts every rendering of a concrete syntax tree and returns its value (`parse_render`), so a text
has at most one value, and a text it refuses is no JSON text.
-/

namespace Json

open Text

/-! ### Tokens -/

/-- The four hexadecimal digits of a `\u` escape. -/
def parseHex4 (a b c d : UInt8) : Option Hex4 :=
  match ha : hexVal a, hb : hexVal b, hc : hexVal c, hd : hexVal d with
  | some va, some vb, some vc, some vd => some ⟨⟨a, va, ha⟩, ⟨b, vb, hb⟩, ⟨c, vc, hc⟩, ⟨d, vd, hd⟩⟩
  | _, _, _, _ => none

/-- The items of a string up to its closing quote, and what follows the quote. -/
def parseItems : Bytes → Option (StrLit × Bytes)
  | [] => none
  | c :: r =>
    if c = quote then some ([], r)
    else if c = backslash then
      match r with
      | [] => none
      | e :: r' =>
        if e = 0x75 then
          match r' with
          | a :: b :: c :: d :: r'' => do
            let h ← parseHex4 a b c d
            let (s, rest) ← parseItems r''
            return (.unicode h :: s, rest)
          | _ => none
        else
          match h : shortEscape e with
          | some v => do
            let (s, rest) ← parseItems r'
            return (.short e v h :: s, rest)
          | none => none
    else if h : isUnescaped c = true then do
      let (s, rest) ← parseItems r
      return (.raw c h :: s, rest)
    else none

lemma parseHex4_text (h : Hex4) : parseHex4 h.a.char h.b.char h.c.char h.d.char = some h := by
  obtain ⟨⟨a, va, ha⟩, ⟨b, vb, hb⟩, ⟨c, vc, hc⟩, ⟨d, vd, hd⟩⟩ := h
  unfold parseHex4
  split
  · next h₁ h₂ h₃ h₄ =>
    simp only at h₁ h₂ h₃ h₄
    simp only [Option.some.injEq, Hex4.mk.injEq, HexDigit.mk.injEq, true_and]
    simp_all
  · next h => exact absurd hd (h va vb vc vd ha hb hc)

lemma shortEscape_ne_unicode {c v : UInt8} (h : shortEscape c = some v) : c ≠ 0x75 := by
  rintro rfl
  have hn : shortEscape 0x75 = none := by decide
  simp [hn] at h

lemma isUnescaped_ne {c : UInt8} (h : isUnescaped c = true) : c ≠ quote ∧ c ≠ backslash := by
  simp only [isUnescaped, Bool.and_eq_true, bne_iff_ne] at h
  exact ⟨h.1.2, h.2⟩

lemma parseItems_body (s : StrLit) (r : Bytes) :
    parseItems (s.body ++ quote :: r) = some (s, r) := by
  induction s with
  | nil => rw [StrLit.body_nil, List.nil_append, parseItems.eq_def]; rfl
  | cons i s ih =>
    have hb : backslash ≠ quote := by decide
    rw [StrLit.body_cons, parseItems.eq_def]
    cases i with
    | raw c h =>
      obtain ⟨hq, hs⟩ := isUnescaped_ne h
      simp only [StrItem.render, List.cons_append, List.nil_append, if_neg hq, if_neg hs,
        dif_pos h, ih]
      rfl
    | short c v h =>
      simp only [StrItem.render, List.cons_append, List.nil_append, if_neg hb, if_true,
        if_neg (shortEscape_ne_unicode h), ih]
      split
      · next v' h' =>
        obtain rfl : v = v' := Option.some.inj (h.symm.trans h')
        rfl
      · next h' => rw [h] at h'; cases h'
    | unicode h =>
      simp only [StrItem.render, Hex4.text, List.cons_append, List.nil_append, if_neg hb, if_true,
        parseHex4_text, ih]
      rfl

/-- What follows an exponent's or a number's sign. -/
def dropSign (t : Bytes) : Bytes := (splitSign t).2

def isExponent : Bytes → Bool
  | [] => true
  | c :: t => (c == 0x65 || c == 0x45) && !(dropSign t).isEmpty && (dropSign t).all isDigit

def isFraction : Bytes → Bool
  | [] => true
  | c :: t =>
    if c = dot then !(t.takeWhile isDigit).isEmpty && isExponent (t.dropWhile isDigit)
    else isExponent (c :: t)

def isUnsigned (t : Bytes) : Bool :=
  !(t.takeWhile isDigit).isEmpty &&
    (t.takeWhile isDigit == [zero] || (t.takeWhile isDigit).head? != some zero) &&
    isFraction (t.dropWhile isDigit)

/-- Whether a text is a number literal. -/
def isNumber : Bytes → Bool
  | [] => false
  | c :: t => if c = minus then isUnsigned t else isUnsigned (c :: t)

lemma Exponent.isExponent_render (e : Exponent) : isExponent e.render = true := by
  have hd : dropSign (e.sign.render ++ e.digits.text) = e.digits.text := by
    obtain ⟨c, t, hct⟩ := List.exists_cons_of_ne_nil e.digits.ne_nil
    cases hs : e.sign with
    | none =>
      rw [Sign.render, List.nil_append, hct, dropSign,
        splitSign_digit (e.digits.isDigit c (by simp [hct]))]
    | plus => simp [Sign.render, dropSign, splitSign]
    | minus => simp [Sign.render, dropSign, splitSign]
  have hall : e.digits.text.all isDigit = true := by simpa using e.digits.isDigit
  have hne : e.digits.text.isEmpty = false := by simpa using e.digits.ne_nil
  rw [Exponent.render, isExponent, hd, hall, hne]
  split_ifs <;> decide

lemma NumLit.isExponent_renderExp (n : NumLit) : isExponent n.renderExp = true := by
  unfold NumLit.renderExp
  cases n.exp with
  | none => rfl
  | some e => exact e.isExponent_render

lemma NumLit.isFraction_render (n : NumLit) :
    isFraction (n.renderFrac ++ n.renderExp) = true := by
  cases hf : n.frac with
  | none =>
    have he := n.isExponent_renderExp
    simp only [NumLit.renderFrac, hf, Option.elim_none, List.nil_append]
    cases h : n.renderExp with
    | nil => rfl
    | cons c t =>
      have hc : c ≠ dot := by
        rintro rfl
        rw [h] at he
        exact absurd he (by simp [isExponent])
      rw [isFraction, if_neg hc, ← h, he]
  | some ds =>
    have hne : ds.text.isEmpty = false := by simpa using ds.ne_nil
    simp only [NumLit.renderFrac, hf, Option.elim_some, List.cons_append]
    rw [isFraction, if_pos rfl, takeWhile_run ds.isDigit n.stops_renderExp,
      dropWhile_run ds.isDigit n.stops_renderExp, n.isExponent_renderExp, hne]
    rfl

lemma NumLit.isNumber_render (n : NumLit) : isNumber n.render = true := by
  have hu : isUnsigned (n.int.text ++ (n.renderFrac ++ n.renderExp)) = true := by
    have hne : n.int.text.isEmpty = false := by simpa using n.int.ne_nil
    have hz : (n.int.text == [zero] || n.int.text.head? != some zero) = true := by
      obtain ⟨c, t, hct⟩ := List.exists_cons_of_ne_nil n.int.ne_nil
      by_cases hc : c = zero
      · subst hc
        simp [hct, n.noLeadingZero t hct]
      · simpa [hct] using Or.inr hc
    rw [isUnsigned, takeWhile_run n.int.isDigit n.stops_isDigit,
      dropWhile_run n.int.isDigit n.stops_isDigit, hne, hz, n.isFraction_render]
    rfl
  by_cases hn : n.neg
  · simpa [NumLit.render, hn, isNumber, List.append_assoc] using hu
  · obtain ⟨c, t, hct⟩ := List.exists_cons_of_ne_nil n.int.ne_nil
    have hc : c ≠ minus := by
      rintro rfl
      exact absurd (n.int.isDigit minus (by simp [hct])) (by decide)
    simp only [NumLit.render, hn, Bool.false_eq_true, if_false, List.nil_append, List.append_assoc]
    rw [hct, List.cons_append, isNumber, if_neg hc, ← List.cons_append, ← hct, hu]

/-! ### Values -/

/-- The literal `t` at the start of `b`, with its value. -/
def parseLit (t : Bytes) (v : Tree) (b : Bytes) : Option (Tree × Bytes) :=
  if b.take t.length = t then some (v, b.drop t.length) else none

lemma parseLit_append (t : Bytes) (v : Tree) (r : Bytes) : parseLit t v (t ++ r) = some (v, r) := by
  simp [parseLit]

mutual
/-- The value at the start of a text, and what follows it. -/
def parseValue : Nat → Bytes → Option (Tree × Bytes)
  | 0, _ => none
  | n + 1, b =>
    match b with
    | [] => none
    | c :: r =>
      if c = quote then do
        let (s, r) ← parseItems r
        return (.str s.decode, r)
      else if c = lbracket then
        if (r.dropWhile isSpace).head? = some rbracket then
          some (.arr [], (r.dropWhile isSpace).tail)
        else do
          let (es, r) ← parseElems n r
          return (.arr es, r)
      else if c = lbrace then
        if (r.dropWhile isSpace).head? = some rbrace then
          some (.obj [], (r.dropWhile isSpace).tail)
        else do
          let (ms, r) ← parseMembers n r
          return (.obj ms, r)
      else if c = 0x6E then parseLit (ascii "null") .null (c :: r)
      else if c = 0x74 then parseLit (ascii "true") (.bool true) (c :: r)
      else if c = 0x66 then parseLit (ascii "false") (.bool false) (c :: r)
      else if isNumber ((c :: r).takeWhile isNumberByte) then
        some (.num ((c :: r).takeWhile isNumberByte), (c :: r).dropWhile isNumberByte)
      else none

def parseElems : Nat → Bytes → Option (List Tree × Bytes)
  | 0, _ => none
  | n + 1, b => do
    let (v, r) ← parseValue n (b.dropWhile isSpace)
    match r.dropWhile isSpace with
    | [] => none
    | c :: r' =>
      if c = comma then do
        let (es, r'') ← parseElems n r'
        return (v :: es, r'')
      else if c = rbracket then some ([v], r')
      else none

def parseMembers : Nat → Bytes → Option (List (Bytes × Tree) × Bytes)
  | 0, _ => none
  | n + 1, b =>
    match b.dropWhile isSpace with
    | [] => none
    | q :: r =>
      if q = quote then do
        let (k, r) ← parseItems r
        match r.dropWhile isSpace with
        | [] => none
        | c :: r =>
          if c = colon then do
            let (v, r) ← parseValue n (r.dropWhile isSpace)
            match r.dropWhile isSpace with
            | [] => none
            | c :: r' =>
              if c = comma then do
                let (ms, r'') ← parseMembers n r'
                return ((k.decode, v) :: ms, r'')
              else if c = rbrace then some ([(k.decode, v)], r')
              else none
          else none
      else none
end

/-- The value of a JSON text. -/
def parse (b : Bytes) : Option Tree :=
  match parseValue (b.length + 1) (b.dropWhile isSpace) with
  | some (v, r) => if r.dropWhile isSpace = [] then some v else none
  | none => none

/-! ### Completeness -/

lemma isNumberByte_of_isSpace {c : UInt8} (h : isSpace c = true) : isNumberByte c = false := by
  simp only [isSpace, Bool.or_eq_true, beq_iff_eq] at h
  rcases h with ((rfl | rfl) | rfl) | rfl <;> decide

/-- White space does not continue a class of characters without white space. -/
lemma Ws.stops {p : UInt8 → Bool} (hp : ∀ c, Text.isSpace c = true → p c = false) (w : Ws)
    {r : Bytes} (hr : Stops p r) : Stops p (w.text ++ r) := by
  cases hw : w.text with
  | nil => exact hr
  | cons c t => rw [List.cons_append, stops_cons]; exact hp c (w.isSpace c (by simp [hw]))

lemma Ws.dropWhile_append (w : Ws) {r : Bytes} (hr : Stops Text.isSpace r) :
    (w.text ++ r).dropWhile Text.isSpace = r := dropWhile_run w.isSpace hr

lemma Elems.head?_dropWhile (es : Elems) (r : Bytes) :
    ∃ c, ((es.render ++ r).dropWhile Text.isSpace).head? = some c ∧ isValueHead c = true := by
  have hfirst : ∃ (pre : Ws) (v : Cst) (t : Bytes), es.render = pre.text ++ v.render ++ t := by
    cases es with
    | last pre v post => exact ⟨pre, v, post.text, rfl⟩
    | cons pre v post es => exact ⟨pre, v, _, by rw [Elems.render, List.append_assoc]⟩
  obtain ⟨pre, v, t, ht⟩ := hfirst
  obtain ⟨c, u, hcu, hc⟩ := v.render_head
  refine ⟨c, ?_, hc⟩
  rw [ht, List.append_assoc, List.append_assoc, pre.dropWhile_append (v.stops_isSpace _), hcu]
  rfl

lemma Key.dropWhile_render (k : Key) (r : Bytes) :
    (k.render ++ r).dropWhile Text.isSpace = k.name.render ++ (k.after.text ++ colon :: r) := by
  simp only [Key.render, List.append_assoc, List.singleton_append]
  exact k.before.dropWhile_append (stops_cons.mpr (by decide))

lemma Members.head?_dropWhile (ms : Members) (r : Bytes) :
    ((ms.render ++ r).dropWhile Text.isSpace).head? = some quote := by
  have hfirst : ∃ (k : Key) (t : Bytes), ms.render = k.render ++ t := by
    cases ms with
    | last k pre v post =>
      exact ⟨k, _, by rw [Members.render, List.append_assoc, List.append_assoc]⟩
    | cons k pre v post ms =>
      exact ⟨k, _, by rw [Members.render, List.append_assoc, List.append_assoc, List.append_assoc]⟩
  obtain ⟨k, t, ht⟩ := hfirst
  rw [ht, List.append_assoc, k.dropWhile_render]
  rfl

lemma parseValue_num (n : NumLit) {r : Bytes} (hr : Stops isNumberByte r) (k : Nat) :
    parseValue (k + 1) (n.render ++ r) = some (.num n.render, r) := by
  have ht : (n.render ++ r).takeWhile Json.isNumberByte = n.render :=
    takeWhile_run n.isNumberByte hr
  have hd : (n.render ++ r).dropWhile Json.isNumberByte = r := dropWhile_run n.isNumberByte hr
  obtain ⟨c, t, hct, hc⟩ := n.render_head
  have hne : c ≠ quote ∧ c ≠ lbracket ∧ c ≠ lbrace ∧ c ≠ 0x6E ∧ c ≠ 0x74 ∧ c ≠ 0x66 := by
    refine ⟨?_, ?_, ?_, ?_, ?_, ?_⟩ <;> rintro rfl <;> revert hc <;> decide
  obtain ⟨h₁, h₂, h₃, h₄, h₅, h₆⟩ := hne
  have hnum := n.isNumber_render
  rw [hct, List.cons_append] at ht hd ⊢
  rw [parseValue.eq_def]
  simp only [if_neg h₁, if_neg h₂, if_neg h₃, if_neg h₄, if_neg h₅, if_neg h₆, ht, hd, ← hct,
    hnum, if_true]

/-- Behind a name, the members go on with a value. -/
lemma parseMembers_key (k : Key) (r : Bytes) (n : Nat) :
    parseMembers (n + 1) (k.render ++ r) = (do
      let (v, r) ← parseValue n (r.dropWhile isSpace)
      match r.dropWhile isSpace with
      | [] => none
      | c :: r' =>
        if c = comma then do
          let (ms, r'') ← parseMembers n r'
          return ((k.name.decode, v) :: ms, r'')
        else if c = rbrace then some ([(k.name.decode, v)], r')
        else none) := by
  have hc : ∀ t, (k.after.text ++ colon :: t).dropWhile isSpace = colon :: t := fun t =>
    k.after.dropWhile_append (stops_cons.mpr (by decide))
  rw [parseMembers.eq_def]
  simp only [k.dropWhile_render, StrLit.render, List.cons_append, List.append_assoc,
    List.nil_append, if_true, parseItems_body, Option.bind_eq_bind, Option.bind_some, hc]

mutual
lemma parseValue_render (v : Cst) {r : Bytes} (hr : Stops isNumberByte r) {n : Nat}
    (hn : v.render.length < n) : parseValue n (v.render ++ r) = some (v.tree, r) := by
  obtain ⟨n, rfl⟩ : ∃ k, n = k + 1 := ⟨n - 1, by omega⟩
  match v with
  | .null =>
    change parseValue (n + 1) (0x6E :: (ascii "ull" ++ r)) = _
    rw [parseValue.eq_def]
    exact parseLit_append (ascii "null") _ r
  | .bool true =>
    change parseValue (n + 1) (0x74 :: (ascii "rue" ++ r)) = _
    rw [parseValue.eq_def]
    exact parseLit_append (ascii "true") _ r
  | .bool false =>
    change parseValue (n + 1) (0x66 :: (ascii "alse" ++ r)) = _
    rw [parseValue.eq_def]
    exact parseLit_append (ascii "false") _ r
  | .num m => exact parseValue_num m hr n
  | .str s =>
    rw [Cst.render, StrLit.render, List.cons_append, List.append_assoc, List.singleton_append,
      parseValue.eq_def]
    simp only [if_true, parseItems_body]
    rfl
  | .emptyArr w =>
    have hd : (w.text ++ rbracket :: r).dropWhile isSpace = rbracket :: r :=
      w.dropWhile_append (stops_cons.mpr (by decide))
    rw [Cst.render, List.cons_append, List.append_assoc, List.singleton_append, parseValue.eq_def]
    simp [hd, Cst.tree]
  | .arr es =>
    have hes : es.render.length + 1 < n := by
      simp only [Cst.render, List.length_cons, List.length_append] at hn
      omega
    have hd : ((es.render ++ rbracket :: r).dropWhile isSpace).head? ≠ some rbracket := by
      obtain ⟨c, hc, hv⟩ := es.head?_dropWhile (rbracket :: r)
      rw [hc]
      rintro ⟨⟩
      exact absurd hv (by decide)
    rw [Cst.render, List.cons_append, List.append_assoc, List.singleton_append, parseValue.eq_def]
    simp only [if_neg (show lbracket ≠ quote by decide), if_true, if_neg hd,
      parseElems_render es hes]
    rfl
  | .emptyObj w =>
    have hd : (w.text ++ rbrace :: r).dropWhile isSpace = rbrace :: r :=
      w.dropWhile_append (stops_cons.mpr (by decide))
    rw [Cst.render, List.cons_append, List.append_assoc, List.singleton_append, parseValue.eq_def]
    simp [hd, Cst.tree]
  | .obj ms =>
    have hms : ms.render.length + 1 < n := by
      simp only [Cst.render, List.length_cons, List.length_append] at hn
      omega
    have hd : ((ms.render ++ rbrace :: r).dropWhile isSpace).head? ≠ some rbrace := by
      rw [ms.head?_dropWhile]
      decide
    rw [Cst.render, List.cons_append, List.append_assoc, List.singleton_append, parseValue.eq_def]
    simp only [if_neg (show lbrace ≠ quote by decide), if_neg (show lbrace ≠ lbracket by decide),
      if_true, if_neg hd, parseMembers_render ms hms]
    rfl

lemma parseElems_render (es : Elems) {r : Bytes} {n : Nat} (hn : es.render.length + 1 < n) :
    parseElems n (es.render ++ rbracket :: r) = some (es.trees, r) := by
  obtain ⟨n, rfl⟩ : ∃ k, n = k + 1 := ⟨n - 1, by omega⟩
  match es with
  | .last pre v post =>
    have hv : v.render.length < n := by
      simp only [Elems.render, List.length_append] at hn
      omega
    have hd : (post.text ++ rbracket :: r).dropWhile isSpace = rbracket :: r :=
      post.dropWhile_append (stops_cons.mpr (by decide))
    have hs : Stops isNumberByte (post.text ++ rbracket :: r) :=
      post.stops (fun c => isNumberByte_of_isSpace) (stops_cons.mpr (by decide))
    rw [Elems.render, List.append_assoc, List.append_assoc, parseElems.eq_def]
    simp only [pre.dropWhile_append (v.stops_isSpace _), parseValue_render v hs hv,
      Option.bind_eq_bind, Option.bind_some, hd]
    rfl
  | .cons pre v post es =>
    have hv : v.render.length < n ∧ es.render.length + 1 < n := by
      simp only [Elems.render, List.length_append, List.length_cons] at hn
      omega
    have hd : (post.text ++ comma :: (es.render ++ rbracket :: r)).dropWhile isSpace
        = comma :: (es.render ++ rbracket :: r) :=
      post.dropWhile_append (stops_cons.mpr (by decide))
    have hs : Stops isNumberByte (post.text ++ comma :: (es.render ++ rbracket :: r)) :=
      post.stops (fun c => isNumberByte_of_isSpace) (stops_cons.mpr (by decide))
    rw [Elems.render, List.append_assoc, List.append_assoc, List.append_assoc, List.cons_append,
      parseElems.eq_def]
    simp only [pre.dropWhile_append (v.stops_isSpace _), parseValue_render v hs hv.1, hd,
      Option.bind_eq_bind, Option.bind_some, if_true, parseElems_render es hv.2]
    rfl

lemma parseMembers_render (ms : Members) {r : Bytes} {n : Nat} (hn : ms.render.length + 1 < n) :
    parseMembers n (ms.render ++ rbrace :: r) = some (ms.trees, r) := by
  obtain ⟨n, rfl⟩ : ∃ k, n = k + 1 := ⟨n - 1, by omega⟩
  match ms with
  | .last k pre v post =>
    have hv : v.render.length < n := by
      simp only [Members.render, List.length_append] at hn
      omega
    have hd : (post.text ++ rbrace :: r).dropWhile isSpace = rbrace :: r :=
      post.dropWhile_append (stops_cons.mpr (by decide))
    have hs : Stops isNumberByte (post.text ++ rbrace :: r) :=
      post.stops (fun c => isNumberByte_of_isSpace) (stops_cons.mpr (by decide))
    rw [Members.render, List.append_assoc, List.append_assoc, List.append_assoc,
      parseMembers_key, pre.dropWhile_append (v.stops_isSpace _), parseValue_render v hs hv]
    simp only [Option.bind_eq_bind, Option.bind_some, hd]
    rfl
  | .cons k pre v post ms =>
    have hv : v.render.length < n ∧ ms.render.length + 1 < n := by
      simp only [Members.render, List.length_append, List.length_cons] at hn
      omega
    have hd : (post.text ++ comma :: (ms.render ++ rbrace :: r)).dropWhile isSpace
        = comma :: (ms.render ++ rbrace :: r) :=
      post.dropWhile_append (stops_cons.mpr (by decide))
    have hs : Stops isNumberByte (post.text ++ comma :: (ms.render ++ rbrace :: r)) :=
      post.stops (fun c => isNumberByte_of_isSpace) (stops_cons.mpr (by decide))
    rw [Members.render, List.append_assoc, List.append_assoc, List.append_assoc,
      List.append_assoc, List.cons_append, parseMembers_key,
      pre.dropWhile_append (v.stops_isSpace _), parseValue_render v hs hv.1]
    simp only [Option.bind_eq_bind, Option.bind_some, hd, if_true, parseMembers_render ms hv.2]
    rfl
end

/-- The reference parser accepts every JSON text and returns its value. -/
theorem parse_render (d : Doc) : parse d.render = some d.val.tree := by
  have hd : d.render.dropWhile isSpace = d.val.render ++ d.post.text := by
    rw [Doc.render, List.append_assoc]
    exact d.pre.dropWhile_append (d.val.stops_isSpace _)
  have hs : Stops isNumberByte d.post.text := by
    simpa using d.post.stops (fun c => isNumberByte_of_isSpace) (stops_nil isNumberByte)
  have hp : d.post.text.dropWhile isSpace = [] := by
    simpa using d.post.dropWhile_append (stops_nil isSpace)
  have hn : d.val.render.length < d.render.length + 1 := by
    simp only [Doc.render, List.length_append]
    omega
  simp only [parse, hd, parseValue_render d.val hs hn, hp, if_true]

/-- A text that the parser refuses is no JSON text. -/
lemma render_ne_of_parse {b : Bytes} (h : (parse b).isNone = true) (d : Doc) : d.render ≠ b := by
  rintro rfl
  rw [parse_render] at h
  cases h

end Json
