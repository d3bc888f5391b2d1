import MongrelDB.Text.Decimal
import Mathlib.Algebra.Order.Group.Nat
import Mathlib.Data.Nat.Log

/-!
# Binary64 numbers

A double as its 64 bits, the integer part of a finite one, and the rounding of a decimal numeral to
the nearest double, ties to even, which is what `strtod` returns. An integer goes through a double
unchanged exactly when it has a significand of at most 53 bits (`Representable`).
-/

open Text

structure Binary64 where
  bits : BitVec 64
  deriving DecidableEq

namespace Binary64

def negative (d : Binary64) : Bool := d.bits.msb

def biasedExponent (d : Binary64) : Nat := d.bits.toNat / 2 ^ 52 % 2 ^ 11

def fraction (d : Binary64) : Nat := d.bits.toNat % 2 ^ 52

def isFinite (d : Binary64) : Bool := d.biasedExponent != 2047

def isInf (d : Binary64) : Bool := d.biasedExponent == 2047 && d.fraction == 0

def isNan (d : Binary64) : Bool := d.biasedExponent == 2047 && d.fraction != 0

/-- A finite double has the magnitude `significand * 2 ^ exponent`. -/
def significand (d : Binary64) : Nat :=
  if d.biasedExponent = 0 then d.fraction else d.fraction + 2 ^ 52

def exponent (d : Binary64) : Int :=
  if d.biasedExponent = 0 then -1074 else (d.biasedExponent : Int) - 1075

/-- The integer part of the magnitude of a finite double. -/
def truncNat (d : Binary64) : Nat :=
  d.significand * 2 ^ d.exponent.toNat / 2 ^ (-d.exponent).toNat

/-- A finite double rounded towards zero. -/
def trunc (d : Binary64) : Int := if d.negative then -d.truncNat else d.truncNat

/-- `0 <= d`, which is false of a NaN and true of a negative zero. -/
def nonneg (d : Binary64) : Bool := !d.isNan && (!d.negative || d.bits.toNat == 2 ^ 63)

/-! ### Rounding -/

/-- The double of significand `m` and exponent `e`; what is too large becomes an infinity. -/
def pack (neg : Bool) (m : Nat) (e : Int) : Binary64 :=
  ⟨BitVec.ofNat 64 (min ((e + 1074).toNat * 2 ^ 52 + m) (2047 * 2 ^ 52) +
    if neg then 2 ^ 63 else 0)⟩

/-- The integer nearest to `a / b`, the even one of two. -/
def divNearestEven (a b : Nat) : Nat :=
  if 2 * (a % b) < b then a / b
  else if b < 2 * (a % b) then a / b + 1
  else if a / b % 2 = 0 then a / b else a / b + 1

/-- The exponent at which `a / b` has a significand of 53 bits. -/
def exponentOf (a b : Nat) : Int :=
  let e : Int := (a.log2 : Int) - b.log2 - 52
  if a * 2 ^ (-e).toNat < 2 ^ 52 * (b * 2 ^ e.toNat) then e - 1 else e

/-- The double nearest to `± a / b`. -/
def nearest (neg : Bool) (a b : Nat) : Binary64 :=
  if a = 0 then pack neg 0 (-1074)
  else
    let e := max (-1074) (exponentOf a b)
    pack neg (divNearestEven (a * 2 ^ (-e).toNat) (b * 2 ^ e.toNat)) e

/-- The double nearest to `± m * 10 ^ e`. -/
def ofDecimal (neg : Bool) (m : Nat) (e : Int) : Binary64 :=
  nearest neg (m * 10 ^ e.toNat) (10 ^ (-e).toNat)

/-- `strtod` on a text of digits, signs, points and exponent marks: the longest numeral at its
start, or zero if there is none. -/
def strtod (t : Bytes) : Binary64 :=
  let (neg, u) := splitSign t
  let ip := u.takeWhile isDigit
  let r := u.dropWhile isDigit
  let fp := if r.head? = some dot then r.tail.takeWhile isDigit else []
  let r' := if r.head? = some dot then r.tail.dropWhile isDigit else r
  let e := if r'.head? = some 0x65 ∨ r'.head? = some 0x45 then scanInt r'.tail else 0
  if ip = [] ∧ fp = [] then pack false 0 (-1074)
  else ofDecimal neg (readNat (ip ++ fp)) (e - fp.length)

/-! ### Exact integers -/

/-- An integer magnitude with a significand of at most 53 bits. -/
def Representable (v : Nat) : Prop := ∃ m k, m < 2 ^ 53 ∧ v = m * 2 ^ k

lemma representable_of_lt {v : Nat} (h : v < 2 ^ 53) : Representable v := ⟨v, 0, h, by simp⟩

lemma significand_lt (d : Binary64) : d.significand < 2 ^ 53 := by
  have : d.fraction < 2 ^ 52 := Nat.mod_lt _ (by positivity)
  unfold significand
  split_ifs <;> omega

/-- The integer part of a double is representable. -/
lemma representable_truncNat (d : Binary64) : Representable d.truncNat := by
  have hs := d.significand_lt
  rcases le_total 0 d.exponent with he | he
  · refine ⟨d.significand, d.exponent.toNat, hs, ?_⟩
    rw [truncNat, show (-d.exponent).toNat = 0 by omega, pow_zero, Nat.div_one]
  · refine representable_of_lt (lt_of_le_of_lt ?_ hs)
    rw [truncNat, show d.exponent.toNat = 0 by omega, pow_zero, Nat.mul_one]
    exact Nat.div_le_self _ _

lemma toNat_pack (neg : Bool) (m : Nat) (e : Int) : (pack neg m e).bits.toNat =
    min ((e + 1074).toNat * 2 ^ 52 + m) (2047 * 2 ^ 52) + if neg then 2 ^ 63 else 0 := by
  rw [pack, BitVec.toNat_ofNat]
  split_ifs <;> omega

lemma pack_toNat (neg : Bool) {m : Nat} {e : Int}
    (h : (e + 1074).toNat * 2 ^ 52 + m ≤ 2047 * 2 ^ 52) :
    (pack neg m e).bits.toNat =
      (e + 1074).toNat * 2 ^ 52 + m + if neg then 2 ^ 63 else 0 := by
  rw [toNat_pack, min_eq_left h]

lemma pack_negative (neg : Bool) (m : Nat) (e : Int) : (pack neg m e).negative = neg := by
  rw [negative, BitVec.msb_eq_decide, toNat_pack]
  cases neg <;> simp

/-- A packed double is a number, and negative as it was asked for unless it is a zero. -/
lemma nonneg_pack (neg : Bool) (m : Nat) (e : Int) :
    (pack neg m e).nonneg = (!neg || decide ((e + 1074).toNat * 2 ^ 52 + m = 0)) := by
  have hnan : (pack neg m e).isNan = false := by
    rw [isNan, biasedExponent, fraction, toNat_pack]
    simp only [Bool.and_eq_false_iff, beq_eq_false_iff_ne, bne_eq_false_iff_eq]
    split_ifs <;> omega
  rw [nonneg, hnan, pack_negative, toNat_pack]
  cases neg with
  | false => rfl
  | true =>
    simp only [Bool.not_false, Bool.not_true, Bool.false_or, Bool.true_and, if_true]
    rw [beq_eq_decide]
    exact decide_eq_decide.mpr (by omega)

/-- A normal double unpacks to what it was packed from. -/
lemma pack_normal (neg : Bool) {m : Nat} {e : Int} (hm : 2 ^ 52 ≤ m) (hm' : m < 2 ^ 53)
    (he : -1074 ≤ e) (he' : e ≤ 971) :
    (pack neg m e).significand = m ∧ (pack neg m e).exponent = e ∧
      (pack neg m e).isFinite = true ∧ (pack neg m e).negative = neg := by
  have hle : (e + 1074).toNat * 2 ^ 52 + m ≤ 2047 * 2 ^ 52 := by omega
  have hb : (pack neg m e).biasedExponent = (e + 1074).toNat + 1 := by
    rw [biasedExponent, pack_toNat neg hle]
    split_ifs <;> omega
  have hf : (pack neg m e).fraction = m - 2 ^ 52 := by
    rw [fraction, pack_toNat neg hle]
    split_ifs <;> omega
  refine ⟨?_, ?_, ?_, pack_negative neg m e⟩
  · rw [significand, hb, hf, if_neg (by omega)]
    omega
  · rw [exponent, hb, if_neg (by omega)]
    omega
  · rw [isFinite, hb, bne_iff_ne]
    omega

end Binary64
