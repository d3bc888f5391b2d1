import MongrelDB.Contract.Conditions
import MongrelDB.Json.Printed
import MongrelDB.Walker.Grammar

/-!
# Doubles that come back as integers

A double is written with `%.17g`, and whether a number is read as a double or as an integer depends
on whether its text has a point or an exponent. Integers of at most seventeen digits are printed
without either, and so those doubles come back as integers.
-/

namespace MongrelDB

open Text Traced Json JsonParser Binary64

/-! ### What is printed -/

/-- `printf` does what the language standard says of `%.17g`. -/
def Platform.PrintsG17 (plat : Platform) : Prop :=
  ∀ d : Binary64, d.isFinite = true → plat.fmtG17 d = printG17 d

variable {plat : Platform} (hp : plat.PrintsG17)
include hp

lemma Platform.PrintsG17.printsNumbers : plat.PrintsNumbers := by
  intro d hd
  obtain ⟨n, -, hn, -⟩ := exists_literal_printG17 d
  exact ⟨n, hn.trans (hp d hd).symm⟩

lemma Platform.PrintsG17.printsApart : plat.PrintsApart := by
  intro d e hd he h
  rw [hp d hd, hp e he] at h
  rw [← strtod_printG17 hd, h, strtod_printG17 he]

variable {d : Binary64} (hd : d.isFinite = true)
include hd

lemma jsonValue_double : jsonValue plat (.double d) = printG17 d := by
  rw [jsonValue, isNan_or_isInf, hd, hp d hd]
  rfl

omit hp hd

/-! ### What is read back -/

/-- The text of the double is read as that double. -/
def KeepsDouble (plat : Platform) (d : Binary64) : Prop :=
  ∃ p, readValue.out ⟨jsonValue plat (.double d), 0, true⟩ = .ok (.double d, p)

/-- No integer has the text of the double. -/
def ApartFromIntegers (plat : Platform) (d : Binary64) : Prop :=
  ∀ i : Int64, jsonValue plat (.double d) ≠ jsonValue plat (.int64 i)

lemma readValue_number {t : Bytes} {n : NumLit} (ht : n.render = t) :
    readValue.out ⟨t, 0, true⟩ = .ok (clampedValue (.num n), ⟨t, t.length, true⟩) := by
  have hread : ReadsValue t (clampedValue (.num n)) [] := by
    simpa [Ws.none, Cst.render, ht] using readsValue_clamped (.num n) Ws.none (stops_nil _)
  refine ((out_iff_of_reads reads_readValue (Nat.zero_le _)).mpr ⟨t, [], ?_, hread, ?_⟩).1
  · rw [List.drop_zero, List.append_nil]
  · rw [Nat.zero_add]

/-- The text of an integer with a sign, which a zero does not have. -/
lemma int64Text_signed {neg : Bool} {v : Nat} (hv : v < 10 ^ 17) (hneg : neg = true → v ≠ 0) :
    ∃ i : Int64, int64Text i = (if neg then [minus] else []) ++ decimal v := by
  cases neg with
  | false =>
    have hint : (Int64.ofInt v).toInt = v := Int64.toInt_ofInt_of_le (by omega) (by omega)
    refine ⟨Int64.ofInt v, ?_⟩
    rw [int64Text, hint, decimalInt, if_neg (by omega)]
    rfl
  | true =>
    have hint : (Int64.ofInt (-v)).toInt = -v := Int64.toInt_ofInt_of_le (by omega) (by omega)
    have hpos := hneg rfl
    refine ⟨Int64.ofInt (-v), ?_⟩
    rw [int64Text, hint, decimalInt, if_pos (by omega), Int.natAbs_neg]
    rfl

lemma decimalInt_ne_minus_zero (i : Int) : decimalInt i ≠ minus :: decimal 0 := by
  intro h
  rw [decimalInt] at h
  split_ifs at h with hi
  · have := decimal_inj.mp (List.cons.inj h).2
    omega
  · have hdigit : isDigit minus = true :=
      isDigit_of_mem_decimal (n := i.natAbs) (h ▸ List.mem_cons_self)
    exact absurd hdigit (by decide)

section Kept

include hp hd

/-- What the text of a double is read as, and where the reader stops. -/
theorem readValue_double : ∃ v, readValue.out ⟨jsonValue plat (.double d), 0, true⟩ =
      .ok (v, ⟨printG17 d, (printG17 d).length, true⟩) ∧
    (d.ShortInteger → ∃ i, v = .int64 i) ∧ (¬d.ShortInteger → v = .double d) := by
  obtain ⟨n, hneg, hn, hclose, hint⟩ := exists_literal_printG17 d
  rw [jsonValue_double hp hd]
  refine ⟨_, readValue_number hn, fun hs => ?_, fun hs => ?_⟩
  · rw [clampedValue, if_pos (hint.mpr hs)]
    exact ⟨_, rfl⟩
  · rw [clampedValue, if_neg fun h => hs (hint.mp h), n.toBinary64_of_close hd hneg hclose]

lemma keepsDouble_iff : KeepsDouble plat d ↔ ¬d.ShortInteger := by
  obtain ⟨v, hout, hint, hdouble⟩ := readValue_double hp hd
  constructor
  · rintro ⟨p, hkept⟩ hs
    obtain ⟨i, rfl⟩ := hint hs
    rw [hout] at hkept
    cases hkept
  · intro hs
    exact ⟨_, hdouble hs ▸ hout⟩

/-- A negative zero is written with its sign, and an integer that is zero has none. -/
lemma apartFromIntegers_iff :
    ApartFromIntegers plat d ↔ (d.ShortInteger → d.negative = true ∧ d.magnitude = 0) := by
  rw [ApartFromIntegers, jsonValue_double hp hd]
  constructor
  · rintro h ⟨v, hlt, hv⟩
    by_contra hne
    have hpos : d.negative = true → v ≠ 0 := fun hneg hzero =>
      hne ⟨hneg, by rw [hv, hzero, Nat.cast_zero]⟩
    obtain ⟨i, hi⟩ := int64Text_signed hlt hpos
    exact h i ((printG17_int hv hlt).trans hi.symm)
  · intro h i hi
    obtain ⟨n, -, hn, -, hint⟩ := exists_literal_printG17 d
    have hshort : d.ShortInteger := by
      -- the text of an integer is that of an integer literal
      rw [← hint, ← isIntegerText_render, hn, hi, jsonValue, int64Text, ← intLit_render,
        isIntegerText_render]
      rfl
    obtain ⟨hneg, hzero⟩ := h hshort
    rw [printG17_int (v := 0) (by rw [hzero, Nat.cast_zero]) (by norm_num), hneg] at hi
    exact decimalInt_ne_minus_zero _ hi.symm

/-- A double keeps its type exactly where it is no integer of at most seventeen digits; the text of
such an integer is that of a value of the other type, unless it is a negative zero. -/
theorem floats_kept_iff : (KeepsDouble plat d ↔ ¬d.ShortInteger) ∧
    (ApartFromIntegers plat d ↔ (d.ShortInteger → d.negative = true ∧ d.magnitude = 0)) ∧
    (KeepsDouble plat d ∧ ApartFromIntegers plat d ↔ ¬d.ShortInteger) := by
  rw [apartFromIntegers_iff hp hd, keepsDouble_iff hp hd]
  exact ⟨Iff.rfl, Iff.rfl, and_iff_left_of_imp fun hs h => absurd h hs⟩

end Kept

/-- A platform that prints doubles as the standard has it. -/
def standardPlatform : Platform := ⟨printG17, fun _ => 0, fun _ => 0⟩

/-- Half a unit is kept. -/
theorem floats_kept_half : KeepsDouble standardPlatform ⟨0x4058E00000000000⟩ ∧
    ApartFromIntegers standardPlatform ⟨0x4058E00000000000⟩ := by
  refine (floats_kept_iff (fun _ _ => rfl) (by decide +kernel)).2.2.mpr ?_
  rintro ⟨v, -, hv⟩
  have hnum : numerator ⟨0x4058E00000000000⟩ = 199 * 2 ^ 45 := by decide +kernel
  have hden : denominator ⟨0x4058E00000000000⟩ = 2 ^ 46 := by decide +kernel
  rw [magnitude_eq_div, hnum, hden, div_eq_iff (by norm_num)] at hv
  have hnat : 199 * 2 ^ 45 = v * 2 ^ 46 := by exact_mod_cast hv
  omega

/-- The double twenty is written as the integer is, and read as the integer. -/
theorem floats_kept_fails :
    let d : Binary64 := ⟨0x4034000000000000⟩
    standardPlatform.PrintsG17 ∧ d.isFinite = true ∧
    jsonValue standardPlatform (.double d) = ascii "20" ∧
    readValue.out ⟨ascii "20", 0, true⟩ = .ok (.int64 20, ⟨ascii "20", 2, true⟩) ∧
    ¬KeepsDouble standardPlatform d ∧ ¬ApartFromIntegers standardPlatform d := by
  intro d
  have htext : jsonValue standardPlatform (.double d) = ascii "20" := by decide +kernel
  have hread : readValue.out ⟨ascii "20", 0, true⟩ = .ok (.int64 20, ⟨ascii "20", 2, true⟩) := by
    decide +kernel
  refine ⟨fun _ _ => rfl, by decide +kernel, htext, hread, ?_, fun h => h 20 (htext.trans ?_)⟩
  · rintro ⟨p, h⟩
    rw [htext, hread] at h
    cases h
  · decide +kernel

end MongrelDB
