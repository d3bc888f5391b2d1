import MongrelDB.Json.Refused
import MongrelDB.Walker.Tokens

/-!
# What `skip_value` and `read_value` accept

From any position of any text, `skip_value` succeeds exactly on white space and one value of the
relaxed grammar. Every JSON value is one, and is passed to its last byte. What is accepted is a JSON
value, and is read as this value, exactly if its tokens are those of one.
-/

namespace MongrelDB

open Text Traced Prog Json JsonParser

variable {s : Bytes} {i : Nat}

/-! ### Positions -/

lemma out_inside_of_length_le (h : s.length ≤ i) :
    inside.out ⟨s, i, true⟩ = .ok (false, ⟨s, i, true⟩) := by
  have hi : decide (i < s.length) = false := by simpa using h
  rw [← hi]
  rfl

lemma out_peek_of_length_le (h : s.length ≤ i) :
    peek.out ⟨s, i, true⟩ = .ok (none, ⟨s, i, true⟩) := by
  have hws : skipWs.out ⟨s, i, true⟩ = .ok ((), ⟨s, i, true⟩) := by
    rw [skipWs, advanceWhile, iterate, out_bind_ok (out_get _)]
    apply out_loop_done
    rw [out_bind_ok (out_inside_of_length_le h)]
    rfl
  rw [peek, out_bind_ok hws, out_bind_ok (out_inside_of_length_le h)]
  rfl

/-- Behind the end of the text there is no value. -/
lemma out_skipValue_of_length_le (h : s.length ≤ i) :
    skipValue.out ⟨s, i, true⟩ = .ok ((), ⟨s, i, false⟩) := by
  rw [skipValue, out_bind_ok (out_get _), skipValueN]
  have hcursor : cursor.out ⟨s, i, true⟩ = .ok (i, ⟨s, i, true⟩) := rfl
  rw [out_bind_ok hcursor, out_bind_ok (out_peek_of_length_le h)]
  rfl

/-- `skip_value` succeeds where the relaxed grammar has a value, and ends behind it. -/
lemma skipValue_out_iff {q : Nat} :
    (∃ p, skipValue.out ⟨s, i, true⟩ = .ok ((), p) ∧ p.ok = true ∧ p.i = q) ↔
      ∃ (pre : Ws) (t r : Bytes), s.drop i = pre.text ++ (t ++ r) ∧ Relaxed .value t r ∧
        q = i + pre.text.length + t.length := by
  rcases Nat.lt_or_ge s.length i with h | h
  · rw [out_skipValue_of_length_le h.le, List.drop_of_length_le h.le]
    constructor
    · rintro ⟨p, hp, hok, -⟩
      cases hp
      cases hok
    · rintro ⟨pre, t, r, ht, hr, -⟩
      have hnil := List.append_eq_nil_iff.mp (List.append_eq_nil_iff.mp ht.symm).2
      exact absurd hnil.1 hr.ne_nil
  · constructor
    · rintro ⟨p, hp, hok, rfl⟩
      obtain ⟨t, r, ht, hr, rfl⟩ := (out_iff_of_reads reads_skipValue h).mp ⟨hp, hok⟩
      obtain ⟨pre, t', hv, hrel⟩ := skips_value_iff.mp hr
      have htt : t = pre.text ++ t' := by
        rw [ht, ← List.append_assoc] at hv
        exact List.append_cancel_right hv
      refine ⟨pre, t', r, by rw [ht, htt, List.append_assoc], hrel, ?_⟩
      simp only [htt, List.length_append, Nat.add_assoc]
    · rintro ⟨pre, t, r, hv, hrel, rfl⟩
      have hout := (out_iff_of_reads reads_skipValue h (a := ())).mpr
        ⟨pre.text ++ t, r, by rw [hv, List.append_assoc],
          skips_value_iff.mpr ⟨pre, t, hv, hrel⟩, rfl⟩
      refine ⟨_, hout.1, rfl, ?_⟩
      simp only [List.length_append, Nat.add_assoc]

/-! ### The grammar of `skip_value` -/

/-- What may follow a value in a JSON text. -/
def Follows (r : Bytes) : Prop :=
  ∀ c ∈ r.head?, isSpace c = true ∨ c = comma ∨ c = rbracket ∨ c = rbrace

lemma Follows.delimited {r : Bytes} (h : Follows r) : Delimited r := by
  intro c hc
  rcases h c hc with hs | rfl | rfl | rfl
  · simp only [isSpace, Bool.or_eq_true, beq_iff_eq] at hs
    rcases hs with ((rfl | rfl) | rfl) | rfl <;> decide
  · decide
  · decide
  · decide

/-- From any position, `skip_value` succeeds exactly on white space and one value of the relaxed
grammar, and passes them. Every JSON value is in this grammar and is passed to its last byte. -/
theorem skipValue_grammar (s : Bytes) (i : Nat) :
    (∀ q, (∃ p, skipValue.out ⟨s, i, true⟩ = .ok ((), p) ∧ p.ok = true ∧ p.i = q) ↔
      ∃ (pre : Ws) (t r : Bytes), s.drop i = pre.text ++ (t ++ r) ∧ Relaxed .value t r ∧
        q = i + pre.text.length + t.length) ∧
    ∀ (v : Cst) (r : Bytes), Follows r → Relaxed .value v.render r ∧
      (s.drop i = v.render ++ r →
        skipValue.out ⟨s, i, true⟩ = .ok ((), ⟨s, i + v.render.length, true⟩)) := by
  refine ⟨fun q => skipValue_out_iff, fun v r hr => ⟨relaxed_render v hr.delimited, fun hs => ?_⟩⟩
  have hlt : i < s.length := by
    by_contra hi
    rw [List.drop_of_length_le (Nat.le_of_not_lt hi)] at hs
    have hnil := (List.append_eq_nil_iff.mp hs.symm).1
    exact absurd v.render_length_pos (by simp [hnil])
  have hskip : Skips .value (s.drop i) r := by
    rw [hs]
    simpa [Ws.none] using skips_render v Ws.none hr.delimited
  exact ((out_iff_of_reads reads_skipValue hlt.le).mpr ⟨v.render, r, hs, hskip, rfl⟩).1

/-! ### Legal tokens -/

/-- `read_value` tells what the value is: an integer literal as this integer, any other number as
the nearest double, an array or an object by its text. -/
def Means : Cst → Value → Prop
  | .null, a => a = .null
  | .bool b, a => a = .bool b
  | .num n, a =>
    if n.isInt then ∃ j : Int64, a = .int64 j ∧ j.toInt = n.intValue else a = .double n.toBinary64
  | .str s, a => a = .string s.decode
  | v, a => a = .json v.render

/-- If there is a value of the relaxed grammar, its tokens are legal. -/
def SkipLegal (v : Bytes) : Prop :=
  ∀ l r, Skips .value v r → Lexed v l r → ∀ x ∈ l, x.Legal

/-- The tokens are legal as `read_value` takes them: it has its own idea of where a word ends, and
it wants an integer to be one of the type. -/
structure ReadLegal (v : Bytes) : Prop where
  skipped : ∀ c w, Next c v w → c = quote ∨ c = lbrace ∨ c = lbracket → SkipLegal v
  bool : ∀ c w, Next c v w → c = 0x74 ∨ c = 0x66 →
    c :: w.takeWhile isLetter = ascii "true" ∨ c :: w.takeWhile isLetter = ascii "false"
  null : ∀ w, Next 0x6E v w → 0x6E :: w.takeWhile isLower = ascii "null"
  number : ∀ c w, Next c v w → startsNumber (some c) = true → ∃ n : NumLit,
    n.render = c :: w.takeWhile isNumberChar ∧
      (n.isInt = true → -2 ^ 63 ≤ n.intValue ∧ n.intValue < 2 ^ 63)

/-- What `p` ends at is the end of a JSON value that begins at `i`, after white space. -/
def EndsValue (s : Bytes) (i : Nat) (p : JsonParser) (v : Cst) : Prop :=
  ∃ (pre : Ws) (r : Bytes), s.drop i = pre.text ++ (v.render ++ r) ∧
    p.i = i + pre.text.length + v.render.length

/-- The end of what was read determines what is left. -/
lemma endsValue_iff {t r : Bytes} (ht : s.drop i = t ++ r) {p : JsonParser}
    (hp : p.i = i + t.length) {v : Cst} :
    EndsValue s i p v ↔ ∃ pre : Ws, s.drop i = pre.text ++ (v.render ++ r) := by
  constructor
  · rintro ⟨pre, r', hr', hi⟩
    refine ⟨pre, ?_⟩
    have hlength : t.length = (pre.text ++ v.render).length := by
      rw [List.length_append]
      omega
    rw [ht, ← List.append_assoc] at hr'
    obtain ⟨-, rfl⟩ := List.append_inj hr' hlength
    rw [ht, hr', List.append_assoc]
  · rintro ⟨pre, hr⟩
    refine ⟨pre, r, hr, ?_⟩
    rw [ht, ← List.append_assoc] at hr
    rw [hp, List.append_cancel_right hr, List.length_append, Nat.add_assoc]

lemma skipLegal_iff (hi : i ≤ s.length) :
    (∀ p, skipValue.out ⟨s, i, true⟩ = .ok ((), p) → p.ok = true → ∃ v, EndsValue s i p v) ↔
      SkipLegal (s.drop i) := by
  constructor
  · intro h l r hs hl
    obtain ⟨t, ht, -⟩ := reads_skipValue.complete () r hs
    obtain ⟨hout, hok⟩ := (out_iff_of_reads reads_skipValue hi (a := ())).mpr ⟨t, r, ht, hs, rfl⟩
    obtain ⟨v, hv⟩ := h _ hout hok
    obtain ⟨pre, hpre⟩ := (endsValue_iff ht rfl).mp hv
    exact (hs.legal_iff hl).mpr ⟨pre, v, hpre⟩
  · intro h p hp hok
    obtain ⟨t, r, ht, hs, rfl⟩ := (out_iff_of_reads reads_skipValue hi).mp ⟨hp, hok⟩
    obtain ⟨l, hl, -⟩ := hs.lexed
    obtain ⟨pre, v, hv⟩ := (hs.legal_iff hl).mp (h l r hs hl)
    exact ⟨v, (endsValue_iff ht rfl).mpr ⟨pre, hv⟩⟩

lemma render_eq_of_next {c : UInt8} {v w r : Bytes} (h : Next c v w) {pre : Ws} {x : Cst}
    (hv : v = pre.text ++ (x.render ++ r)) : x.render ++ r = c :: w := by
  rw [← h, hv, pre.dropWhile_append (x.stops_isSpace r)]

/-- The characters that a value begins with. -/
def startsWith : Cst → UInt8 → Bool
  | .null, c => c == 0x6E
  | .bool _, c => c == 0x74 || c == 0x66
  | .num _, c => startsNumber (some c)
  | .str _, c => c == quote
  | .emptyArr _, c => c == lbracket
  | .arr _, c => c == lbracket
  | .emptyObj _, c => c == lbrace
  | .obj _, c => c == lbrace

lemma startsWith_of_render {x : Cst} {c : UInt8} {r w : Bytes} (h : x.render ++ r = c :: w) :
    startsWith x c = true := by
  match x with
  | .num n =>
    obtain ⟨d, t, hdt, hs, -, -⟩ := exists_number_head n
    rw [Cst.render, hdt] at h
    obtain rfl := (List.cons.inj h).1
    exact hs
  | .null | .bool true | .bool false | .str _ | .emptyArr _ | .arr _ | .emptyObj _ | .obj _ =>
    obtain rfl := (List.cons.inj h).1
    rfl

lemma eq_bool_of_startsWith {x : Cst} {c : UInt8} (h : startsWith x c = true)
    (hc : c = 0x74 ∨ c = 0x66) : ∃ b, x = .bool b := by
  cases x with
  | bool b => exact ⟨b, rfl⟩
  | _ => rcases hc with rfl | rfl <;> simp [startsWith, startsNumber, isDigit] at h

lemma eq_null_of_startsWith {x : Cst} (h : startsWith x 0x6E = true) : x = .null := by
  cases x with
  | null => rfl
  | _ => simp [startsWith, startsNumber, isDigit] at h

lemma eq_num_of_startsWith {x : Cst} {c : UInt8} (h : startsWith x c = true)
    (hc : startsNumber (some c) = true) : ∃ n, x = .num n := by
  cases x with
  | num n => exact ⟨n, rfl⟩
  | _ =>
    simp only [startsWith, Bool.or_eq_true, beq_iff_eq] at h
    rcases h with rfl | rfl <;> exact absurd hc (by decide)

lemma eq_str_of_startsWith {x : Cst} (h : startsWith x quote = true) : ∃ t, x = .str t := by
  cases x with
  | str t => exact ⟨t, rfl⟩
  | _ => simp [startsWith, startsNumber, isDigit] at h

/-- What is read from a legal text is the value that stands there. -/
lemma exists_means {v r : Bytes} {a : Value} (hl : ReadLegal v) (h : ReadsValue v a r) :
    ∃ (pre : Ws) (x : Cst), v = pre.text ++ (x.render ++ r) ∧ Means x a := by
  obtain ⟨c, w, hn, h⟩ := h
  obtain ⟨pre, rfl⟩ := hn.exists_ws
  have htoken : ∀ (q : UInt8 → Bool) {t : Bytes}, t = c :: w.takeWhile q →
      pre.text ++ c :: w = pre.text ++ (t ++ w.dropWhile q) := by
    rintro q t rfl
    rw [List.cons_append, List.takeWhile_append_dropWhile]
  -- a string, an object or an array, `true` or `false`, `null`, a number
  rcases h with ⟨rfl, s, hq, rfl⟩ | ⟨hc, hs, t, ht, rfl⟩ | ⟨hc, rfl, rfl⟩ | ⟨rfl, rfl, rfl⟩ |
    ⟨hc, rfl, rfl⟩
  · have hs : Skips .value (pre.text ++ quote :: w) r := .string hn hq
    obtain ⟨l, hl', -⟩ := hs.lexed
    have hlegal := hl.skipped _ _ hn (.inl rfl) l r hs hl'
    obtain ⟨pre', x, hx⟩ := (hs.legal_iff hl').mp hlegal
    have hrender := render_eq_of_next hn hx
    obtain ⟨t, rfl⟩ := eq_str_of_startsWith (startsWith_of_render hrender)
    refine ⟨pre', .str t, hx, ?_⟩
    have hw : w = t.body ++ quote :: r := by
      simpa [Cst.render, StrLit.render] using (List.cons.inj hrender).2.symm
    rw [hw] at hq
    rw [Means, (hq.unique (quoted_body t r)).1]
  · obtain ⟨l, hl', -⟩ := hs.lexed
    have hlegal := hl.skipped _ _ hn (.inr hc) l r hs hl'
    obtain ⟨pre', x, hx⟩ := (hs.legal_iff hl').mp hlegal
    have hrender := render_eq_of_next hn hx
    refine ⟨pre', x, hx, ?_⟩
    have hstarts := startsWith_of_render hrender
    rw [ht] at hrender
    rw [← List.append_cancel_right hrender]
    cases x with
    | emptyArr _ | arr _ | emptyObj _ | obj _ => rfl
    | _ => rcases hc with rfl | rfl <;> simp [startsWith, startsNumber, isDigit] at hstarts
  · refine ⟨pre, .bool (c :: w.takeWhile isLetter == ascii "true"), htoken isLetter ?_, rfl⟩
    rcases hl.bool c w hn hc with h | h <;> rw [h] <;> rfl
  · refine ⟨pre, .null, htoken isLower (hl.null w hn).symm, rfl⟩
  · obtain ⟨n, hn', hrange⟩ := hl.number c w hn hc
    refine ⟨pre, .num n, htoken isNumberChar hn', ?_⟩
    rw [← hn', numberValue, isIntegerText_render, Means]
    split_ifs with hi
    · obtain ⟨hlo, hhi⟩ := hrange hi
      refine ⟨_, rfl, ?_⟩
      rw [strtoll_render hi hlo hhi, Int64.toInt_ofInt_of_le hlo hhi]
    · rw [n.strtod_render]

/-- Where every value that is read is the value that stands there, the text is legal. -/
lemma readLegal_of_means {v : Bytes} (h : ∀ a r, ReadsValue v a r →
    ∃ (pre : Ws) (x : Cst), v = pre.text ++ (x.render ++ r) ∧ Means x a) : ReadLegal v where
  skipped c w hn hc := by
    intro l r hs hl
    obtain ⟨a, ha⟩ : ∃ a, ReadsValue v a r := by
      rcases hc with rfl | hc
      · have hq := hn.skips_iff.mp hs
        obtain ⟨s, hq⟩ : ∃ s, Quoted w s r := by simpa [startsNumber, isDigit] using hq
        exact ⟨.string s, quote, w, hn, .inl ⟨rfl, s, hq, rfl⟩⟩
      · obtain ⟨pre, t, ht, -⟩ := skips_value_iff.mp (skips_dropWhile.mpr hs)
        rw [hn] at ht
        exact ⟨.json (pre.text ++ t), c, w, hn,
          .inr (.inl ⟨hc, hs, pre.text ++ t, by rw [ht, List.append_assoc], rfl⟩)⟩
    obtain ⟨pre, x, hx, -⟩ := h a r ha
    exact (hs.legal_iff hl).mpr ⟨pre, x, hx⟩
  bool c w hn hc := by
    obtain ⟨pre, x, hx, -⟩ := h _ _ ⟨c, w, hn, .inr (.inr (.inl ⟨hc, rfl, rfl⟩))⟩
    have hrender := render_eq_of_next hn hx
    obtain ⟨b, rfl⟩ := eq_bool_of_startsWith (startsWith_of_render hrender) hc
    rw [← cons_eq_append_dropWhile.mp hrender.symm]
    cases b with
    | true => exact .inl rfl
    | false => exact .inr rfl
  null w hn := by
    obtain ⟨pre, x, hx, -⟩ := h _ _ ⟨0x6E, w, hn, .inr (.inr (.inr (.inl ⟨rfl, rfl, rfl⟩)))⟩
    have hrender := render_eq_of_next hn hx
    obtain rfl := eq_null_of_startsWith (startsWith_of_render hrender)
    exact (cons_eq_append_dropWhile.mp hrender.symm).symm
  number c w hn hc := by
    obtain ⟨pre, x, hx, hm⟩ := h _ _ ⟨c, w, hn, .inr (.inr (.inr (.inr ⟨hc, rfl, rfl⟩)))⟩
    have hrender := render_eq_of_next hn hx
    obtain ⟨n, rfl⟩ := eq_num_of_startsWith (startsWith_of_render hrender) hc
    have hnum : n.render = c :: w.takeWhile isNumberChar :=
      cons_eq_append_dropWhile.mp hrender.symm
    refine ⟨n, hnum, fun hi => ?_⟩
    rw [Means, if_pos hi] at hm
    obtain ⟨j, -, hj⟩ := hm
    rw [← hj]
    exact ⟨j.minValue_le_toInt, j.toInt_lt⟩

lemma out_readValue_of_length_le (h : s.length ≤ i) :
    readValue.out ⟨s, i, true⟩ = .ok (.null, ⟨s, i, false⟩) := by
  rw [readValue, out_bind_ok (out_peek_of_length_le h)]
  rfl

lemma readLegal_iff (hi : i ≤ s.length) :
    (∀ a p, readValue.out ⟨s, i, true⟩ = .ok (a, p) → p.ok = true →
      ∃ v, EndsValue s i p v ∧ Means v a) ↔ ReadLegal (s.drop i) := by
  constructor
  · intro h
    apply readLegal_of_means
    intro a r hr
    obtain ⟨t, ht, -⟩ := reads_readValue.complete a r hr
    obtain ⟨hout, hok⟩ := (out_iff_of_reads reads_readValue hi).mpr ⟨t, r, ht, hr, rfl⟩
    obtain ⟨v, hv, hm⟩ := h _ _ hout hok
    obtain ⟨pre, hpre⟩ := (endsValue_iff ht rfl).mp hv
    exact ⟨pre, v, hpre, hm⟩
  · intro h a p hp hok
    obtain ⟨t, r, ht, hr, rfl⟩ := (out_iff_of_reads reads_readValue hi).mp ⟨hp, hok⟩
    obtain ⟨pre, v, hv, hm⟩ := exists_means h hr
    exact ⟨v, (endsValue_iff ht rfl).mpr ⟨pre, hv⟩, hm⟩

/-- Whatever `skip_value` and `read_value` accept is a JSON value, and is read as this value, if and
only if the tokens that they move over are legal. -/
theorem walker_strict_iff (s : Bytes) (i : Nat) :
    ((∀ p, skipValue.out ⟨s, i, true⟩ = .ok ((), p) → p.ok = true → ∃ v, EndsValue s i p v) ↔
      SkipLegal (s.drop i)) ∧
    ((∀ a p, readValue.out ⟨s, i, true⟩ = .ok (a, p) → p.ok = true →
      ∃ v, EndsValue s i p v ∧ Means v a) ↔ ReadLegal (s.drop i)) := by
  rcases Nat.lt_or_ge s.length i with h | h
  · -- there is nothing behind the end
    have hnext : ∀ c w, ¬Next c [] w := fun c w hn => by cases hn
    rw [out_skipValue_of_length_le h.le, out_readValue_of_length_le h.le,
      List.drop_of_length_le h.le]
    refine ⟨iff_of_true ?_ ?_, iff_of_true ?_ ⟨?_, ?_, ?_, ?_⟩⟩
    · rintro p ⟨⟩ ⟨⟩
    · intro l r hs
      exact absurd hs (not_skips_nil rfl)
    · rintro a p ⟨⟩ ⟨⟩
    · exact fun c w hn => absurd hn (hnext c w)
    · exact fun c w hn => absurd hn (hnext c w)
    · exact fun w hn => absurd hn (hnext _ w)
    · exact fun c w hn => absurd hn (hnext c w)
  · exact ⟨skipLegal_iff h, readLegal_iff h⟩

/-- Malformed tokens that are skipped, and one that is read as a value it does not mean. -/
theorem walker_lax :
    skipValue.out ⟨ascii "01", 0, true⟩ = .ok ((), ⟨ascii "01", 2, true⟩) ∧
    skipValue.out ⟨ascii "nul", 0, true⟩ = .ok ((), ⟨ascii "nul", 3, true⟩) ∧
    skipValue.out ⟨ascii "\"\\q\"", 0, true⟩ = .ok ((), ⟨ascii "\"\\q\"", 4, true⟩) ∧
    readValue.out ⟨ascii "tru", 0, true⟩ = .ok (.bool false, ⟨ascii "tru", 3, true⟩) ∧
    ∀ d : Doc, d.render ≠ ascii "01" ∧ d.render ≠ ascii "nul" ∧ d.render ≠ ascii "\"\\q\"" ∧
      d.render ≠ ascii "tru" :=
  ⟨by decide +kernel, by decide +kernel, by decide +kernel, by decide +kernel, fun d =>
    ⟨render_ne_of_parse (by decide +kernel) d, render_ne_of_parse (by decide +kernel) d,
      render_ne_of_parse (by decide +kernel) d, render_ne_of_parse (by decide +kernel) d⟩⟩

end MongrelDB
