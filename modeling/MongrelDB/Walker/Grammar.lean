import MongrelDB.Json.Number
import MongrelDB.Json.Parse
import MongrelDB.Walker.Values

/-!
# Texts of the grammar under the walker

A value of the grammar is skipped as a whole, with the white space before it and not a byte further,
and it is read as the value it stands for (`Cst.value`).
-/

namespace MongrelDB

open Text Traced Prog Json JsonParser

/-! ### Tokens -/

/-- What may follow a value: no character that continues a word or a number. -/
def Delimited (r : Bytes) : Prop := Stops (fun c => isWordChar c || isNumberChar c) r

lemma delimited_cons {c : UInt8} {r : Bytes} :
    Delimited (c :: r) ↔ (isWordChar c || isNumberChar c) = false := stops_cons

lemma delimited_ws (w : Ws) {r : Bytes} (hr : Delimited r) : Delimited (w.text ++ r) := by
  refine w.stops (fun c hc => ?_) hr
  simp only [isSpace, Bool.or_eq_true, beq_iff_eq] at hc
  rcases hc with ((rfl | rfl) | rfl) | rfl <;> decide

lemma Delimited.word {r : Bytes} (h : Delimited r) : Stops isWordChar r :=
  fun c hc => (Bool.or_eq_false_iff.mp (h c hc)).1

lemma Delimited.letter {r : Bytes} (h : Delimited r) : Stops isLetter r :=
  fun c hc => (Bool.or_eq_false_iff.mp (h.word c hc)).1

lemma Delimited.lower {r : Bytes} (h : Delimited r) : Stops isLower r :=
  fun c hc => (Bool.or_eq_false_iff.mp (h.letter c hc)).1

lemma Delimited.number {r : Bytes} (h : Delimited r) : Stops isNumberChar r :=
  fun c hc => (Bool.or_eq_false_iff.mp (h c hc)).2

lemma next_ws (w : Ws) {c : UInt8} (hc : isSpace c = false) (t : Bytes) :
    Next c (w.text ++ c :: t) t := w.dropWhile_append (stops_cons.mpr hc)

lemma next_cons {c : UInt8} (hc : isSpace c = false) (t : Bytes) : Next c (c :: t) t :=
  dropWhile_eq_self (stops_cons.mpr hc)

/-- A key of the grammar is read up to its colon. -/
lemma named_render (k : Key) (t : Bytes) : Named (k.render ++ t) k.name.decode t := by
  refine ⟨_, _, ?_, quoted_body k.name (k.after.text ++ colon :: t), next_ws k.after (by decide) t⟩
  simpa [Key.render, StrLit.render] using next_ws k.before (c := quote) (by decide)
    (k.name.body ++ quote :: (k.after.text ++ colon :: t))

lemma dropWhile_number (n : NumLit) {r : Bytes} (hr : Delimited r) :
    (n.render ++ r).dropWhile isNumberChar = r := dropWhile_run n.isNumberByte hr.number

lemma takeWhile_number (n : NumLit) {r : Bytes} (hr : Delimited r) :
    (n.render ++ r).takeWhile isNumberChar = n.render := takeWhile_run n.isNumberByte hr.number

/-- A number literal begins with a character that only a number begins with. -/
lemma exists_number_head (n : NumLit) : ∃ c t, n.render = c :: t ∧ startsNumber (some c) = true ∧
    isNumberChar c = true ∧ isSpace c = false := by
  obtain ⟨c, t, hct, hc⟩ := n.render_head
  have hs : startsNumber (some c) = true := by
    rcases hc with rfl | hc <;> simp [startsNumber, *]
  refine ⟨c, t, hct, hs, n.isNumberByte c (by simp [hct]), ?_⟩
  have hv := (Cst.num n).stops_isSpace []
  rw [Cst.render, hct] at hv
  exact stops_cons.mp hv

/-! ### Skipping -/

mutual
/-- Every JSON value in front of a delimiter is passed, with nothing behind it. -/
lemma skips_render (v : Cst) (pre : Ws) {r : Bytes} (hr : Delimited r) :
    Skips .value (pre.text ++ (v.render ++ r)) r := by
  match v with
  | .null =>
    have h := Skips.word (next_ws pre (c := 0x6E) (by decide) (ascii "ull" ++ r)) (by decide)
    rwa [dropWhile_run (List.all_eq_true.mp (by decide)) hr.word] at h
  | .bool true =>
    have h := Skips.word (next_ws pre (c := 0x74) (by decide) (ascii "rue" ++ r)) (by decide)
    rwa [dropWhile_run (List.all_eq_true.mp (by decide)) hr.word] at h
  | .bool false =>
    have h := Skips.word (next_ws pre (c := 0x66) (by decide) (ascii "alse" ++ r)) (by decide)
    rwa [dropWhile_run (List.all_eq_true.mp (by decide)) hr.word] at h
  | .num n =>
    obtain ⟨c, t, hct, hs, hn, hsp⟩ := exists_number_head n
    have h := Skips.number (next_ws pre hsp (t ++ r)) hs
    have hd := dropWhile_number n hr
    rw [hct, List.cons_append, List.dropWhile_cons_of_pos hn] at hd
    rwa [hd, ← List.cons_append, ← hct] at h
  | .str s =>
    have h := Skips.string (next_ws pre (by decide) (s.body ++ quote :: r)) (quoted_body s r)
    simpa [Cst.render, StrLit.render] using h
  | .emptyArr w =>
    have h := Skips.emptyArr (next_ws pre (by decide) (w.text ++ rbracket :: r))
      (next_ws w (by decide) r)
    simpa [Cst.render] using h
  | .arr es =>
    have h := Skips.arr (next_ws pre (by decide) (es.render ++ rbracket :: r))
      (skips_elems es r)
    simpa [Cst.render] using h
  | .emptyObj w =>
    have h := Skips.emptyObj (next_ws pre (by decide) (w.text ++ rbrace :: r))
      (next_ws w (by decide) r)
    simpa [Cst.render] using h
  | .obj ms =>
    have h := Skips.obj (next_ws pre (by decide) (ms.render ++ rbrace :: r))
      (skips_members ms r)
    simpa [Cst.render] using h

lemma skips_elems (es : Elems) (r : Bytes) : Skips .elems (es.render ++ rbracket :: r) r := by
  match es with
  | .last pre v post =>
    have h := Skips.lastElem (skips_render v pre (delimited_ws post
      (delimited_cons.mpr (by decide)))) (next_ws post (c := rbracket) (by decide) r)
    simpa [Elems.render] using h
  | .cons pre v post es =>
    have h := Skips.elem (skips_render v pre (delimited_ws post
      (delimited_cons.mpr (by decide)))) (next_ws post (c := comma) (by decide) _)
      (skips_elems es r)
    simpa [Elems.render] using h

lemma skips_members (ms : Members) (r : Bytes) : Skips .members (ms.render ++ rbrace :: r) r := by
  match ms with
  | .last k pre v post =>
    have h := Skips.lastMember (named_render k _) (skips_render v pre (delimited_ws post
      (delimited_cons.mpr (by decide)))) (next_ws post (c := rbrace) (by decide) r)
    simpa [Members.render] using h
  | .cons k pre v post ms =>
    have h := Skips.member (named_render k _) (skips_render v pre (delimited_ws post
      (delimited_cons.mpr (by decide)))) (next_ws post (c := comma) (by decide) _)
      (skips_members ms r)
    simpa [Members.render] using h
end

/-! ### Reading -/

/-- What a value is read as: an integer literal as an integer, any other number as the nearest
double, an array or an object as its own text. -/
def cellValue : Cst → Value
  | .null => .null
  | .bool b => .bool b
  | .num n => if n.isInt then .int64 (Int64.ofInt n.intValue) else .double n.toBinary64
  | .str s => .string s.decode
  | v => .json v.render

/-- An integer literal is one of the type. -/
def InInt64 (v : Cst) : Prop :=
  ∀ n, v = .num n → n.isInt = true → -2 ^ 63 ≤ n.intValue ∧ n.intValue < 2 ^ 63

/-- An integer literal of the type is read exactly. -/
lemma strtoll_render {n : NumLit} (h : n.isInt = true) (hlo : -2 ^ 63 ≤ n.intValue)
    (hhi : n.intValue < 2 ^ 63) : strtoll n.render = Int64.ofInt n.intValue := by
  have hc := ofIntClamp_toInt (Int64.ofInt n.intValue)
  rw [Int64.toInt_ofInt_of_le hlo hhi] at hc
  rw [strtoll, n.scanInt_render h, hc]

/-- The search for a point or an exponent tells the integer literals. -/
lemma isIntegerText_render (n : NumLit) : isIntegerText n.render = n.isInt := by
  have hdigits : ∀ ds : Digits,
      ds.text.all (fun c => c != dot && c != 0x65 && c != 0x45) = true := by
    intro ds
    rw [List.all_eq_true]
    intro c hc
    have hd := ds.isDigit c hc
    simp only [Bool.and_eq_true, bne_iff_ne]
    refine ⟨⟨?_, ?_⟩, ?_⟩ <;> rintro rfl <;> exact absurd hd (by decide)
  have hneg : (if n.neg then [minus] else []).all (fun c => c != dot && c != 0x65 && c != 0x45)
      = true := by
    split_ifs <;> decide
  simp only [isIntegerText, NumLit.render, List.all_append, hneg, hdigits, Bool.true_and,
    NumLit.renderFrac, NumLit.renderExp, NumLit.isInt]
  cases n.frac with
  | some ds => simp
  | none =>
    cases n.exp with
    | none => rfl
    | some e => cases hu : e.upper <;> simp [Exponent.render, hu]

lemma strtoll_of_isInt {n : NumLit} (h : n.isInt = true) :
    strtoll n.render = Int64.ofIntClamp n.intValue := by rw [strtoll, n.scanInt_render h]

/-- What any value is read as: an integer literal out of the range of the type saturates. -/
def clampedValue : Cst → Value
  | .num n => if n.isInt then .int64 (Int64.ofIntClamp n.intValue) else .double n.toBinary64
  | v => cellValue v

lemma clampedValue_of_inInt64 {v : Cst} (hv : InInt64 v) : clampedValue v = cellValue v := by
  cases v with
  | num n =>
    rw [clampedValue, cellValue]
    split_ifs with hi
    · rw [← strtoll_of_isInt hi, strtoll_render hi (hv n rfl hi).1 (hv n rfl hi).2]
    · rfl
  | null | bool | str | emptyArr | arr | emptyObj | obj => rfl

/-- Every JSON value in front of a delimiter is read: strings are decoded, and integers are brought
into the range of the type. -/
theorem readsValue_clamped (v : Cst) (pre : Ws) {r : Bytes} (hr : Delimited r) :
    ReadsValue (pre.text ++ (v.render ++ r)) (clampedValue v) r := by
  have hskip := skips_render v pre hr
  match v with
  | .null =>
    refine ⟨0x6E, ascii "ull" ++ r, next_ws pre (by decide) _,
      .inr (.inr (.inr (.inl ⟨rfl, rfl, ?_⟩)))⟩
    exact (dropWhile_run (List.all_eq_true.mp (by decide)) hr.lower).symm
  | .bool true =>
    refine ⟨0x74, ascii "rue" ++ r, next_ws pre (by decide) _,
      .inr (.inr (.inl ⟨.inl rfl, ?_, ?_⟩))⟩
    · rw [takeWhile_run (List.all_eq_true.mp (by decide)) hr.letter]
      rfl
    · exact (dropWhile_run (List.all_eq_true.mp (by decide)) hr.letter).symm
  | .bool false =>
    refine ⟨0x66, ascii "alse" ++ r, next_ws pre (by decide) _,
      .inr (.inr (.inl ⟨.inr rfl, ?_, ?_⟩))⟩
    · rw [takeWhile_run (List.all_eq_true.mp (by decide)) hr.letter]
      rfl
    · exact (dropWhile_run (List.all_eq_true.mp (by decide)) hr.letter).symm
  | .num n =>
    obtain ⟨c, t, hct, hs, hn, hsp⟩ := exists_number_head n
    have hd := dropWhile_number n hr
    have ht := takeWhile_number n hr
    rw [hct, List.cons_append, List.dropWhile_cons_of_pos hn] at hd
    rw [hct, List.cons_append, List.takeWhile_cons_of_pos hn] at ht
    refine ⟨c, t ++ r, ?_, .inr (.inr (.inr (.inr ⟨hs, ?_, hd.symm⟩)))⟩
    · rw [Cst.render, hct, List.cons_append]
      exact next_ws pre hsp _
    · rw [ht, ← hct, numberValue, isIntegerText_render, clampedValue]
      split_ifs with hi
      · rw [strtoll_of_isInt hi]
      · rw [n.strtod_render]
  | .str s =>
    refine ⟨quote, s.body ++ quote :: r, ?_, .inl ⟨rfl, s.decode, quoted_body s r, rfl⟩⟩
    simpa [Cst.render, StrLit.render] using next_ws pre (c := quote) (by decide) _
  -- arrays and objects are kept as text, whatever is in them
  | .emptyArr w =>
    refine ⟨lbracket, w.text ++ rbracket :: r, ?_, .inr (.inl ⟨.inr rfl, hskip, _, ?_, rfl⟩)⟩
    · simpa [Cst.render] using next_ws pre (c := lbracket) (by decide) _
    · simp [Cst.render]
  | .arr es =>
    refine ⟨lbracket, es.render ++ rbracket :: r, ?_, .inr (.inl ⟨.inr rfl, hskip, _, ?_, rfl⟩)⟩
    · simpa [Cst.render] using next_ws pre (c := lbracket) (by decide) _
    · simp [Cst.render]
  | .emptyObj w =>
    refine ⟨lbrace, w.text ++ rbrace :: r, ?_, .inr (.inl ⟨.inl rfl, hskip, _, ?_, rfl⟩)⟩
    · simpa [Cst.render] using next_ws pre (c := lbrace) (by decide) _
    · simp [Cst.render]
  | .obj ms =>
    refine ⟨lbrace, ms.render ++ rbrace :: r, ?_, .inr (.inl ⟨.inl rfl, hskip, _, ?_, rfl⟩)⟩
    · simpa [Cst.render] using next_ws pre (c := lbrace) (by decide) _
    · simp [Cst.render]

/-- A value whose integers fit is read as what it stands for. -/
theorem readsValue_render {v : Cst} (pre : Ws) {r : Bytes} (hr : Delimited r) (hv : InInt64 v) :
    ReadsValue (pre.text ++ (v.render ++ r)) (cellValue v) r := by
  rw [← clampedValue_of_inInt64 hv]
  exact readsValue_clamped v pre hr

end MongrelDB
