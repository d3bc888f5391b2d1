import MongrelDB.Json.Value
import MongrelDB.Binary64.Nearest

/-!
# Number literals as doubles

The double nearest to a number literal, which is what `strtod` makes of its text. An integer
literal whose value is representable goes through a double unchanged.
-/

namespace Json

open Text

def Exponent.value (e : Exponent) : Int :=
  match e.sign with
  | .minus => -(readNat e.digits.text)
  | _ => readNat e.digits.text

def NumLit.fracDigits (n : NumLit) : Bytes := n.frac.elim [] Digits.text

def NumLit.expValue (n : NumLit) : Int := n.exp.elim 0 Exponent.value

/-- The double nearest to the literal. -/
def NumLit.toBinary64 (n : NumLit) : Binary64 :=
  Binary64.ofDecimal n.neg (readNat (n.int.text ++ n.fracDigits))
    (n.expValue - n.fracDigits.length)

lemma Exponent.scanInt_render (e : Exponent) :
    scanInt (e.sign.render ++ e.digits.text) = e.value := by
  have hs := stops_nil Text.isDigit
  cases h : e.sign with
  | none =>
    simpa [Exponent.value, h, Sign.render] using scanInt_digits e.digits.ne_nil e.digits.isDigit hs
  | plus =>
    have ht : e.digits.text.takeWhile Text.isDigit = e.digits.text := by
      simpa using takeWhile_isDigit e.digits.isDigit hs
    simp [Exponent.value, h, Sign.render, scanInt, splitSign, ht]
  | minus => simpa [Exponent.value, h, Sign.render] using scanInt_minus e.digits.isDigit hs

lemma NumLit.splitSign_render (n : NumLit) :
    splitSign n.render = (n.neg, n.int.text ++ (n.renderFrac ++ n.renderExp)) := by
  obtain ⟨c, t, hct⟩ := List.exists_cons_of_ne_nil n.int.ne_nil
  by_cases hn : n.neg
  · simp [NumLit.render, hn, splitSign]
  · have hc : Text.isDigit c = true := n.int.isDigit c (by simp [hct])
    simp only [NumLit.render, hn, Bool.false_eq_true, if_false, List.nil_append, List.append_assoc]
    rw [hct, List.cons_append, splitSign_digit hc]

/-- The mark that `strtod` looks for after the digits, and the exponent behind it. -/
lemma NumLit.scanExponent (n : NumLit) :
    (if n.renderExp.head? = some 0x65 ∨ n.renderExp.head? = some 0x45 then
      scanInt n.renderExp.tail else 0) = n.expValue := by
  cases h : n.exp with
  | none => simp [NumLit.renderExp, NumLit.expValue, h]
  | some e =>
    have he := e.scanInt_render
    cases hu : e.upper <;>
      simp [NumLit.renderExp, NumLit.expValue, h, Exponent.render, hu, he]

lemma NumLit.renderExp_head?_ne_dot (n : NumLit) : n.renderExp.head? ≠ some dot := by
  cases h : n.exp with
  | none => simp [NumLit.renderExp, h]
  | some e => cases hu : e.upper <;> simp [NumLit.renderExp, h, Exponent.render, hu]

theorem NumLit.strtod_render (n : NumLit) : Binary64.strtod n.render = n.toBinary64 := by
  have ht := takeWhile_run n.int.isDigit n.stops_isDigit
  have hd := dropWhile_run n.int.isDigit n.stops_isDigit
  simp only [Binary64.strtod, n.splitSign_render, ht, hd]
  cases h : n.frac with
  | none =>
    have hf : n.renderFrac = [] := by simp [NumLit.renderFrac, h]
    have hg : n.fracDigits = [] := by simp [NumLit.fracDigits, h]
    simp only [hf, List.nil_append, if_neg n.renderExp_head?_ne_dot, n.scanExponent]
    rw [if_neg (fun h => n.int.ne_nil h.1), NumLit.toBinary64, hg]
  | some ds =>
    have hf : n.renderFrac = dot :: ds.text := by simp [NumLit.renderFrac, h]
    have hg : n.fracDigits = ds.text := by simp [NumLit.fracDigits, h]
    simp only [hf, List.cons_append, List.head?_cons, if_true, List.tail_cons,
      takeWhile_run ds.isDigit n.stops_renderExp, dropWhile_run ds.isDigit n.stops_renderExp,
      n.scanExponent]
    rw [if_neg (fun h => n.int.ne_nil h.1), NumLit.toBinary64, hg]

/-! ### Exact values -/

/-- The number that the literal stands for. -/
def NumLit.value (n : NumLit) : ℚ :=
  (if n.neg then -1 else 1) * (readNat (n.int.text ++ n.fracDigits) *
    10 ^ (n.expValue - n.fracDigits.length))

lemma NumLit.value_of_isInt {n : NumLit} (h : n.isInt = true) : n.value = n.intValue := by
  simp only [NumLit.isInt, Bool.and_eq_true, Option.isNone_iff_eq_none] at h
  cases hn : n.neg <;>
    simp [NumLit.value, NumLit.intValue, NumLit.fracDigits, NumLit.expValue, h, hn]

/-- The number that the literal stands for but for its sign. -/
def NumLit.magnitude (n : NumLit) : ℚ :=
  readNat (n.int.text ++ n.fracDigits) * 10 ^ (n.expValue - n.fracDigits.length)

lemma NumLit.value_eq_magnitude (n : NumLit) :
    n.value = (if n.neg then -1 else 1) * n.magnitude := rfl

/-- The magnitude is a fraction of which the double is the nearest. -/
lemma NumLit.exists_fraction (n : NumLit) : ∃ a b : Nat, 0 < b ∧
    n.magnitude = (a : ℚ) / b ∧ n.toBinary64 = Binary64.nearest n.neg a b := by
  obtain ⟨e, he⟩ : ∃ e : Int, e = n.expValue - n.fracDigits.length := ⟨_, rfl⟩
  have hpow : (10 : ℚ) ^ e = (10 ^ e.toNat : Nat) / (10 ^ (-e).toNat : Nat) := by
    exact_mod_cast Binary64.zpow_eq_div (β := 10) (by norm_num) e
  refine ⟨readNat (n.int.text ++ n.fracDigits) * 10 ^ e.toNat, 10 ^ (-e).toNat, by positivity, ?_,
    ?_⟩
  · rw [NumLit.magnitude, ← he, hpow]
    push_cast
    ring
  · rw [NumLit.toBinary64, Binary64.ofDecimal, ← he]

/-- A literal with an integer value is rounded as that integer is, and has its sign. -/
lemma NumLit.toBinary64_of_value {n : NumLit} {i : Int} (hv : n.value = i) :
    n.toBinary64 = Binary64.nearest n.neg i.natAbs 1 ∧
      i = if n.neg then -(i.natAbs : Int) else i.natAbs := by
  obtain ⟨a, b, hb, hmag, hround⟩ := n.exists_fraction
  have hb' : (b : ℚ) ≠ 0 := by exact_mod_cast hb.ne'
  rw [NumLit.value_eq_magnitude, hmag] at hv
  -- the numerator is the value times the denominator, and the sign is that of the value
  have hint : (if n.neg then -1 else 1) * (a : Int) = i * b := by
    have hv : (if n.neg then -1 else 1) * (a : ℚ) = i * b := by
      rw [← hv]
      field_simp
    split_ifs at hv ⊢ <;> exact_mod_cast hv
  have hnum : a = i.natAbs * b := by
    have habs := congrArg Int.natAbs hint
    rw [Int.natAbs_mul, Int.natAbs_mul, Int.natAbs_natCast, Int.natAbs_natCast] at habs
    split_ifs at habs <;> simpa using habs
  have hpos : (0 : Int) < b := by exact_mod_cast hb
  refine ⟨?_, ?_⟩
  · rw [hround, hnum, Binary64.nearest_mul _ _ hb]
  · split_ifs at hint ⊢
    · have : i ≤ 0 := by
        by_contra hi
        have := mul_pos (not_le.mp hi) hpos
        omega
      omega
    · have : 0 ≤ i := by
        by_contra hi
        have := mul_neg_of_neg_of_pos (not_le.mp hi) hpos
        omega
      omega

/-- A literal with a representable integer value goes through a double unchanged. -/
theorem NumLit.trunc_toBinary64 {n : NumLit} {i : Int} (hv : n.value = i)
    (hr : Binary64.Representable i.natAbs) (hlt : i.natAbs.log2 < 1024) :
    n.toBinary64.isFinite = true ∧ n.toBinary64.trunc = i := by
  obtain ⟨hround, hsign⟩ := NumLit.toBinary64_of_value hv
  obtain ⟨ht, hf, hn⟩ := Binary64.nearest_int n.neg hr hlt
  rw [hround, Binary64.trunc, ht, hn]
  exact ⟨hf, hsign.symm⟩

/-- Every representable integer of 64 bits goes through a double unchanged. -/
lemma NumLit.trunc_toBinary64_of_lt {n : NumLit} {i : Int} (hv : n.value = i)
    (hr : Binary64.Representable i.natAbs) (hlt : i.natAbs < 2 ^ 64) :
    n.toBinary64.isFinite = true ∧ n.toBinary64.trunc = i := by
  refine NumLit.trunc_toBinary64 hv hr ?_
  rcases Nat.eq_zero_or_pos i.natAbs with h | h
  · rw [h]
    decide
  · have : i.natAbs.log2 < 64 := (Nat.log2_lt (by omega)).mpr hlt
    omega

/-- A literal with an integer value is read as a negative double only if it is negative. -/
lemma NumLit.nonneg_toBinary64 {n : NumLit} {i : Int} (hv : n.value = i) :
    n.toBinary64.nonneg = decide (0 ≤ i) := by
  obtain ⟨hround, hsign⟩ := NumLit.toBinary64_of_value hv
  rw [hround, Binary64.nonneg_nearest]
  cases hn : n.neg with
  | false =>
    rw [hn, if_neg (by simp)] at hsign
    exact (decide_eq_true (by omega)).symm
  | true =>
    rw [hn, if_pos rfl] at hsign
    exact decide_eq_decide.mpr (by omega)

end Json
