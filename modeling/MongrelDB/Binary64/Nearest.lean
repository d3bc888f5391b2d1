import MongrelDB.Binary64.Basic
import Mathlib.Algebra.Order.Field.Power
import Mathlib.Algebra.Order.Field.Rat
import Mathlib.Tactic.FieldSimp
import Mathlib.Tactic.Linarith
import Mathlib.Tactic.NormNum
import Mathlib.Tactic.Positivity

/-!
# The double that is nearest

A number that is off a double by at most one part in `2 * 10 ^ 16` is rounded to that double, since
`2 ^ 53 < 10 ^ 16` and the neighbours of a double are at least one part in `2 ^ 53` away. In
particular an integer with a significand of 53 bits is rounded to itself.
-/

namespace Binary64

/-! ### Fractions scaled by powers -/

lemma zpow_eq_div {β : Nat} (hβ : 0 < β) (e : Int) :
    (β : ℚ) ^ e = (β ^ e.toNat : Nat) / (β ^ (-e).toNat : Nat) := by
  have hβ' : (β : ℚ) ≠ 0 := by exact_mod_cast hβ.ne'
  rcases le_total 0 e with he | he
  · obtain ⟨k, rfl⟩ := Int.eq_ofNat_of_zero_le he
    simp
  · obtain ⟨k, hk⟩ := Int.eq_ofNat_of_zero_le (Int.neg_nonneg.mpr he)
    obtain rfl : e = -(k : Int) := by omega
    simp

section Scale

variable {β a b c : Nat} (hβ : 0 < β) (hb : 0 < b) (e : Int)
include hβ hb

lemma scaled_div : ((a * β ^ (-e).toNat : Nat) : ℚ) / (b * β ^ e.toNat : Nat) =
    (a : ℚ) / b / (β : ℚ) ^ e := by
  have h₁ : ((β ^ (-e).toNat : Nat) : ℚ) ≠ 0 := by positivity
  have h₂ : ((β ^ e.toNat : Nat) : ℚ) ≠ 0 := by positivity
  rw [zpow_eq_div hβ]
  push_cast at h₁ h₂ ⊢
  field_simp

lemma scaled_lt_iff : a * β ^ (-e).toNat < c * (b * β ^ e.toNat) ↔
    (a : ℚ) / b < c * (β : ℚ) ^ e := by
  have hpos : (0 : ℚ) < (b * β ^ e.toNat : Nat) := by
    have : 0 < b * β ^ e.toNat := by positivity
    exact_mod_cast this
  have hpow : (0 : ℚ) < (β : ℚ) ^ e := by positivity
  rw [← div_lt_iff₀ hpow, ← scaled_div hβ hb, div_lt_iff₀ hpos]
  norm_cast

end Scale

/-! ### The nearest integer -/

/-- A quotient is off an integer by as much as the remainder says. -/
lemma div_sub_mul {a b : Nat} (hb : 0 < b) (k : Nat) :
    ((a : ℚ) / b - k) * (2 * b) = 2 * a - 2 * (b * k) := by
  have hb' : (b : ℚ) ≠ 0 := by exact_mod_cast hb.ne'
  field_simp

lemma divNearestEven_mul (q : Nat) {b : Nat} (hb : 0 < b) : divNearestEven (q * b) b = q := by
  simp [divNearestEven, hb]

lemma divNearestEven_mul_right (a b : Nat) {c : Nat} (hc : 0 < c) :
    divNearestEven (a * c) (b * c) = divNearestEven a b := by
  have h₁ : 2 * (a % b * c) < b * c ↔ 2 * (a % b) < b := by
    rw [← Nat.mul_assoc, Nat.mul_lt_mul_right hc]
  have h₂ : b * c < 2 * (a % b * c) ↔ b < 2 * (a % b) := by
    rw [← Nat.mul_assoc, Nat.mul_lt_mul_right hc]
  simp only [divNearestEven, Nat.mul_mod_mul_right, Nat.mul_div_mul_right _ _ hc, h₁, h₂]

lemma divNearestEven_eq {a b k : Nat} (hb : 0 < b) (h : |(a : ℚ) / b - k| < 1 / 2) :
    divNearestEven a b = k := by
  obtain ⟨hlow, hhigh⟩ := abs_lt.mp h
  have hb' : (0 : ℚ) < 2 * b := by positivity
  have hlow' := mul_lt_mul_of_pos_right hlow hb'
  have hhigh' := mul_lt_mul_of_pos_right hhigh hb'
  rw [div_sub_mul hb] at hlow' hhigh'
  have hlow : 2 * (b * k) < 2 * a + b := by
    have : (2 * (b * k) : ℚ) < 2 * a + b := by linarith
    exact_mod_cast this
  have hhigh : 2 * a < 2 * (b * k) + b := by
    have : (2 * a : ℚ) < 2 * (b * k) + b := by linarith
    exact_mod_cast this
  have hdiv := Nat.div_add_mod a b
  have hmod := Nat.mod_lt a hb
  obtain ⟨q, hq⟩ : ∃ q, q = a / b := ⟨_, rfl⟩
  rw [← hq] at hdiv
  have hqk : q = k ∨ q + 1 = k := by
    have h₁ : q < k + 1 := by
      by_contra hn
      have := Nat.mul_le_mul_left b (not_lt.mp hn)
      rw [Nat.mul_add] at this
      omega
    have h₂ : k < q + 2 := by
      by_contra hn
      have := Nat.mul_le_mul_left b (not_lt.mp hn)
      rw [Nat.mul_add] at this
      omega
    omega
  rw [divNearestEven, ← hq]
  rcases hqk with rfl | rfl
  · rw [if_pos (by omega)]
  · rw [Nat.mul_add] at hlow hhigh
    rw [if_neg (by omega), if_pos (by omega)]

lemma abs_divNearestEven_le {a b : Nat} (hb : 0 < b) :
    |(a : ℚ) / b - divNearestEven a b| ≤ 1 / 2 := by
  have hdiv := Nat.div_add_mod a b
  have hmod := Nat.mod_lt a hb
  obtain ⟨k, hk⟩ : ∃ k, k = divNearestEven a b := ⟨_, rfl⟩
  have hnat : 2 * (b * k) ≤ 2 * a + b ∧ 2 * a ≤ 2 * (b * k) + b := by
    have hsucc : b * (a / b + 1) = b * (a / b) + b := by ring
    rw [hk, divNearestEven]
    split_ifs <;> constructor <;> omega
  have hb' : (0 : ℚ) < 2 * b := by positivity
  have hlow : (2 * (b * k) : ℚ) ≤ 2 * a + b := by exact_mod_cast hnat.1
  have hhigh : (2 * a : ℚ) ≤ 2 * (b * k) + b := by exact_mod_cast hnat.2
  rw [← hk, abs_le]
  constructor
  · refine le_of_mul_le_mul_right ?_ hb'
    rw [div_sub_mul hb]
    linarith
  · refine le_of_mul_le_mul_right ?_ hb'
    rw [div_sub_mul hb]
    linarith

/-! ### The exponent -/

/-- The logarithms of two numbers give the place of the first digit of their quotient, or the place
behind it. -/
lemma quotient_bounds {β a b : Nat} (hβ : 1 < β) (ha : 0 < a) (hb : 0 < b) :
    (β : ℚ) ^ ((Nat.log β a : Int) - Nat.log β b - 1) < a / b ∧
      (a : ℚ) / b < (β : ℚ) ^ ((Nat.log β a : Int) - Nat.log β b + 1) := by
  have hβ' : (β : ℚ) ≠ 0 := by
    have : β ≠ 0 := by omega
    exact_mod_cast this
  have hb' : (0 : ℚ) < b := by exact_mod_cast hb
  have hal : (β : ℚ) ^ Nat.log β a ≤ a := by exact_mod_cast Nat.pow_log_le_self β ha.ne'
  have hau : (a : ℚ) < β ^ (Nat.log β a + 1) := by exact_mod_cast Nat.lt_pow_succ_log_self hβ a
  have hbl : (β : ℚ) ^ Nat.log β b ≤ b := by exact_mod_cast Nat.pow_log_le_self β hb.ne'
  have hbu : (b : ℚ) < β ^ (Nat.log β b + 1) := by exact_mod_cast Nat.lt_pow_succ_log_self hβ b
  constructor
  · rw [sub_sub, ← Nat.cast_succ, zpow_sub₀ hβ', zpow_natCast, zpow_natCast]
    exact div_lt_div₀' hal hbu (by exact_mod_cast ha) hb'
  · rw [sub_add_eq_add_sub, ← Nat.cast_succ, zpow_sub₀ hβ', zpow_natCast, zpow_natCast]
    exact div_lt_div₀ hau hbl (by positivity) (by positivity)

/-- At its exponent a fraction has a significand of 53 bits. -/
lemma exponentOf_bounds {a b : Nat} (ha : 0 < a) (hb : 0 < b) :
    2 ^ 52 * (2 : ℚ) ^ exponentOf a b ≤ a / b ∧
      (a : ℚ) / b < 2 ^ 53 * (2 : ℚ) ^ exponentOf a b := by
  obtain ⟨e, he⟩ : ∃ e : Int, e = (a.log2 : Int) - b.log2 - 52 := ⟨_, rfl⟩
  obtain ⟨hlow, hhigh⟩ := quotient_bounds one_lt_two ha hb
  rw [← Nat.log2_eq_log_two, ← Nat.log2_eq_log_two, Nat.cast_two,
    show (a.log2 : Int) - b.log2 - 1 = e + 51 by omega, zpow_add₀ two_ne_zero] at hlow
  rw [← Nat.log2_eq_log_two, ← Nat.log2_eq_log_two, Nat.cast_two,
    show (a.log2 : Int) - b.log2 + 1 = e + 53 by omega, zpow_add₀ two_ne_zero] at hhigh
  have htest : a * 2 ^ (-e).toNat < 2 ^ 52 * (b * 2 ^ e.toNat) ↔
      (a : ℚ) / b < 2 ^ 52 * (2 : ℚ) ^ e := by
    have := scaled_lt_iff (a := a) (c := 2 ^ 52) two_pos hb e
    exact_mod_cast this
  rw [exponentOf]
  simp only [← he, htest]
  split_ifs with h
  · rw [zpow_sub_one₀ two_ne_zero]
    constructor <;> linarith
  · exact ⟨not_lt.mp h, by linarith⟩

/-- No other exponent does. -/
lemma exponentOf_unique {a b : Nat} (ha : 0 < a) (hb : 0 < b) {e : Int}
    (hlow : 2 ^ 52 * (2 : ℚ) ^ e ≤ a / b) (hhigh : (a : ℚ) / b < 2 ^ 53 * (2 : ℚ) ^ e) :
    exponentOf a b = e := by
  obtain ⟨hlow', hhigh'⟩ := exponentOf_bounds ha hb
  have hlt : (2 : ℚ) ^ exponentOf a b < (2 : ℚ) ^ (e + 1) := by
    rw [zpow_add_one₀ two_ne_zero]
    linarith
  have hgt : (2 : ℚ) ^ e < (2 : ℚ) ^ (exponentOf a b + 1) := by
    rw [zpow_add_one₀ two_ne_zero]
    linarith
  have hlt := (zpow_lt_zpow_iff_right₀ one_lt_two).mp hlt
  have hgt := (zpow_lt_zpow_iff_right₀ one_lt_two).mp hgt
  omega

lemma exponentOf_mul {v b : Nat} (hv : 0 < v) (hb : 0 < b) :
    exponentOf (v * b) b = exponentOf v 1 := by
  obtain ⟨hlow, hhigh⟩ := exponentOf_bounds hv one_pos
  have hb' : (b : ℚ) ≠ 0 := by exact_mod_cast hb.ne'
  have hdiv : ((v * b : Nat) : ℚ) / b = v / (1 : Nat) := by
    rw [Nat.cast_mul, mul_div_cancel_right₀ _ hb', Nat.cast_one, div_one]
  exact exponentOf_unique (Nat.mul_pos hv hb) hb (hdiv ▸ hlow) (hdiv ▸ hhigh)

/-- The exponents of integers are far above the smallest one. -/
lemma neg_lt_exponentOf {v : Nat} (hv : 0 < v) : -53 < exponentOf v 1 := by
  obtain ⟨-, hhigh⟩ := exponentOf_bounds hv one_pos
  rw [Nat.cast_one, div_one] at hhigh
  have hv' : (1 : ℚ) ≤ v := by exact_mod_cast hv
  have hpow : (2 : ℚ) ^ (-53 : Int) < (2 : ℚ) ^ exponentOf v 1 := by
    rw [zpow_neg, inv_lt_iff_one_lt_mul₀' (by positivity)]
    exact_mod_cast hv'.trans_lt hhigh
  exact (zpow_lt_zpow_iff_right₀ one_lt_two).mp hpow

lemma exponentOf_lt_of_log2 {v k : Nat} (hv : 0 < v) (h : v.log2 < k) :
    52 + exponentOf v 1 < k := by
  obtain ⟨hlow, -⟩ := exponentOf_bounds hv one_pos
  have hv' : (v : ℚ) < (2 : ℚ) ^ (k : Int) := by exact_mod_cast (Nat.log2_lt hv.ne').mp h
  rw [Nat.cast_one, div_one, ← zpow_natCast, ← zpow_add₀ two_ne_zero] at hlow
  exact (zpow_lt_zpow_iff_right₀ one_lt_two).mp (hlow.trans_lt hv')

/-! ### The nearest double -/

/-- A double that an integer is rounded to has the sign that was asked for unless it is a zero. -/
lemma nonneg_nearest (neg : Bool) (v : Nat) :
    (nearest neg v 1).nonneg = (!neg || decide (v = 0)) := by
  rw [nearest]
  split_ifs with hv
  · rw [nonneg_pack, hv]
    rfl
  · have he := neg_lt_exponentOf (Nat.pos_of_ne_zero hv)
    simp only [nonneg_pack]
    congr 1
    exact decide_eq_decide.mpr ⟨fun h => by omega, fun h => absurd h hv⟩

/-- A fraction with an integer value is rounded as that integer is. -/
lemma nearest_mul (neg : Bool) (v : Nat) {b : Nat} (hb : 0 < b) :
    nearest neg (v * b) b = nearest neg v 1 := by
  rcases Nat.eq_zero_or_pos v with rfl | hv
  · simp [nearest]
  · have h : v * b ≠ 0 := Nat.mul_ne_zero (by omega) (by omega)
    rw [nearest, nearest, if_neg h, if_neg (by omega), exponentOf_mul hv hb]
    simp only
    congr 1
    have := divNearestEven_mul_right (v * 2 ^ (-max (-1074) (exponentOf v 1)).toNat)
      (1 * 2 ^ (max (-1074) (exponentOf v 1)).toNat) hb
    rw [← this]
    congr 1 <;> ring

/-- The number `x` is off `y` by at most one part in `2 * 10 ^ 16`. -/
def Close (x y : ℚ) : Prop := |x - y| * (2 * 10 ^ 16) ≤ y

lemma close_self {x : ℚ} (h : 0 ≤ x) : Close x x := by
  rw [Close, sub_self, abs_zero, zero_mul]
  exact h

/-- A significand with one bit too many is one of the next exponent. -/
lemma pack_carry (neg : Bool) {e : Int} (he : -1074 < e) :
    pack neg (2 ^ 53) (e - 1) = pack neg (2 ^ 52) e := by
  have h : (e - 1 + 1074).toNat * 2 ^ 52 + 2 ^ 53 = (e + 1074).toNat * 2 ^ 52 + 2 ^ 52 := by omega
  rw [pack, pack, h]

/-- The rounding at an exponent, of a number that is close to a multiple of its power. -/
lemma divNearestEven_scaled {a b k : Nat} {e : Int} (hb : 0 < b)
    (h : |(a : ℚ) / b - k * (2 : ℚ) ^ e| < 1 / 2 * (2 : ℚ) ^ e) :
    divNearestEven (a * 2 ^ (-e).toNat) (b * 2 ^ e.toNat) = k := by
  have hpow : (0 : ℚ) < (2 : ℚ) ^ e := by positivity
  have hscaled : ((a * 2 ^ (-e).toNat : Nat) : ℚ) / (b * 2 ^ e.toNat : Nat) =
      (a : ℚ) / b / (2 : ℚ) ^ e := by
    have := scaled_div (a := a) two_pos hb e
    exact_mod_cast this
  refine divNearestEven_eq (by positivity) ?_
  rw [hscaled, ← mul_lt_mul_iff_of_pos_right hpow]
  calc |(a : ℚ) / b / (2 : ℚ) ^ e - k| * (2 : ℚ) ^ e
      = |((a : ℚ) / b / (2 : ℚ) ^ e - k) * (2 : ℚ) ^ e| := by rw [abs_mul, abs_of_pos hpow]
    _ = |(a : ℚ) / b - k * (2 : ℚ) ^ e| := by rw [sub_mul, div_mul_cancel₀ _ hpow.ne']
    _ < 1 / 2 * (2 : ℚ) ^ e := h

/-- A fraction that is close to a double is rounded to it. -/
theorem nearest_of_close (neg : Bool) {a b m : Nat} {e : Int} (ha : 0 < a) (hb : 0 < b)
    (hm : m < 2 ^ 53) (he : -1074 ≤ e) (hnormal : m < 2 ^ 52 → e = -1074)
    (h : Close ((a : ℚ) / b) (m * (2 : ℚ) ^ e)) : nearest neg a b = pack neg m e := by
  obtain ⟨hlow, hhigh⟩ := exponentOf_bounds ha hb
  obtain ⟨E, hE⟩ : ∃ E, E = exponentOf a b := ⟨_, rfl⟩
  rw [← hE] at hlow hhigh
  obtain ⟨x, hx⟩ : ∃ x, x = (a : ℚ) / b := ⟨_, rfl⟩
  have hu : (0 : ℚ) < (2 : ℚ) ^ e := by positivity
  have hm' : (m : ℚ) ≤ 2 ^ 53 - 1 := by
    have : m + 1 ≤ 2 ^ 53 := hm
    have : (m : ℚ) + 1 ≤ 2 ^ 53 := by exact_mod_cast this
    linarith
  rw [Close, ← hx] at h
  have hmu : m * (2 : ℚ) ^ e ≤ (2 ^ 53 - 1) * (2 : ℚ) ^ e := mul_le_mul_of_nonneg_right hm' hu.le
  have hhalf : |x - m * (2 : ℚ) ^ e| < 1 / 2 * (2 : ℚ) ^ e := by linarith
  obtain ⟨hxlow, hxhigh⟩ := abs_lt.mp hhalf
  rw [← hx] at hlow hhigh
  rw [nearest, if_neg ha.ne', ← hE]
  have hup : E ≤ e := by
    have : (2 : ℚ) ^ E < (2 : ℚ) ^ (e + 1) := by
      rw [zpow_add_one₀ two_ne_zero]
      linarith
    exact Int.lt_add_one_iff.mp ((zpow_lt_zpow_iff_right₀ one_lt_two).mp this)
  by_cases hsame : max (-1074) E = e
  · simp only [hsame]
    rw [divNearestEven_scaled hb (hx ▸ hhalf)]
  -- the number is below a power of two, and the double is that power
  have hnorm : 2 ^ 52 ≤ m := by
    by_contra hlt
    have := hnormal (not_le.mp hlt)
    omega
  have hmu' : 2 ^ 52 * (2 : ℚ) ^ e ≤ m * (2 : ℚ) ^ e :=
    mul_le_mul_of_nonneg_right (by exact_mod_cast hnorm) hu.le
  have hdown : e < E + 2 := by
    have : (2 : ℚ) ^ e < (2 : ℚ) ^ (E + 2) := by
      rw [zpow_add₀ two_ne_zero]
      linarith
    exact (zpow_lt_zpow_iff_right₀ one_lt_two).mp this
  obtain rfl : E = e - 1 := by omega
  rw [zpow_sub_one₀ two_ne_zero] at hhigh
  obtain rfl : m = 2 ^ 52 := by
    by_contra hne
    have hlt : 2 ^ 52 + 1 ≤ m := by omega
    have hlt' : (2 ^ 52 + 1) * (2 : ℚ) ^ e ≤ m * (2 : ℚ) ^ e :=
      mul_le_mul_of_nonneg_right (by exact_mod_cast hlt) hu.le
    have habs := neg_abs_le (x - m * (2 : ℚ) ^ e)
    linarith
  have hmax : max (-1074) (e - 1) = e - 1 := by omega
  simp only [hmax]
  rw [divNearestEven_scaled (k := 2 ^ 53) hb, pack_carry neg (by omega)]
  rw [← hx, zpow_sub_one₀ two_ne_zero, show ((2 ^ 53 : Nat) : ℚ) * ((2 : ℚ) ^ e * 2⁻¹) =
    (2 ^ 52 : Nat) * (2 : ℚ) ^ e by push_cast; ring]
  push_cast at h ⊢
  linarith

/-! ### The magnitude of a double -/

def magnitude (d : Binary64) : ℚ := d.significand * (2 : ℚ) ^ d.exponent

/-- The magnitude of a finite double is `numerator / denominator`. -/
def numerator (d : Binary64) : Nat := d.significand * 2 ^ d.exponent.toNat

def denominator (d : Binary64) : Nat := 2 ^ (-d.exponent).toNat

lemma denominator_pos (d : Binary64) : 0 < d.denominator := by
  rw [denominator]
  positivity

lemma magnitude_eq_div (d : Binary64) : d.magnitude = (d.numerator : ℚ) / d.denominator := by
  have hpow : (2 : ℚ) ^ d.exponent = _ := zpow_eq_div two_pos d.exponent
  rw [magnitude, hpow, numerator, denominator]
  push_cast
  ring

lemma numerator_eq_mul {d : Binary64} {v : Nat} (h : d.magnitude = v) :
    d.numerator = v * d.denominator := by
  have hb : (d.denominator : ℚ) ≠ 0 := by exact_mod_cast d.denominator_pos.ne'
  rw [magnitude_eq_div, div_eq_iff hb] at h
  exact_mod_cast h

lemma truncNat_eq_of_magnitude {d : Binary64} {v : Nat} (h : d.magnitude = v) :
    d.truncNat = v := by
  have htrunc : d.truncNat = d.numerator / d.denominator := rfl
  rw [htrunc, numerator_eq_mul h, Nat.mul_div_cancel _ d.denominator_pos]

lemma magnitude_nonneg (d : Binary64) : 0 ≤ d.magnitude := by
  rw [magnitude]
  positivity

/-- A finite double is packed from what it unpacks to. -/
lemma pack_unpack {d : Binary64} (hd : d.isFinite = true) :
    pack d.negative d.significand d.exponent = d := by
  have hlt := d.bits.isLt
  have hneg : d.negative = decide (2 ^ 63 ≤ d.bits.toNat) := BitVec.msb_eq_decide _
  rw [isFinite, biasedExponent, bne_iff_ne] at hd
  have hbits : (pack d.negative d.significand d.exponent).bits.toNat = d.bits.toNat := by
    rw [toNat_pack, hneg, significand, exponent, biasedExponent, fraction]
    simp only [decide_eq_true_eq]
    split_ifs <;> omega
  cases d
  exact congrArg Binary64.mk (BitVec.eq_of_toNat_eq hbits)

lemma magnitude_eq_zero {d : Binary64} (h : d.magnitude = 0) : d.significand = 0 := by
  have hpow : (2 : ℚ) ^ d.exponent ≠ 0 := by positivity
  exact_mod_cast (mul_eq_zero.mp h).resolve_right hpow

/-- A fraction that is close to the magnitude of a double is rounded to the double. -/
theorem nearest_eq_of_close {d : Binary64} (hd : d.isFinite = true) {a b : Nat} (hb : 0 < b)
    (h : Close ((a : ℚ) / b) d.magnitude) : nearest d.negative a b = d := by
  have hnormal : d.significand < 2 ^ 52 → d.exponent = -1074 := by
    rw [significand, exponent]
    split_ifs <;> omega
  have hexp : -1074 ≤ d.exponent := by
    rw [exponent]
    split_ifs <;> omega
  rcases Nat.eq_zero_or_pos a with rfl | ha
  · have hzero : d.significand = 0 := by
      rw [Close, Nat.cast_zero, zero_div, zero_sub, abs_neg, abs_of_nonneg d.magnitude_nonneg] at h
      exact magnitude_eq_zero (le_antisymm (by linarith) d.magnitude_nonneg)
    have hpack := pack_unpack hd
    rw [hzero, hnormal (by omega)] at hpack
    rw [nearest, if_pos rfl, hpack]
  · rw [nearest_of_close d.negative ha hb d.significand_lt hexp hnormal h, pack_unpack hd]

/-- An integer that is close to a double of so few bits that some are behind the point is that
double. -/
lemma magnitude_eq_of_close {d : Binary64} {n : Nat} (h : Close n d.magnitude)
    (he : d.exponent < 0) : d.magnitude = n := by
  obtain ⟨k, hk⟩ : ∃ k : Nat, d.exponent = -(k : Int) := ⟨d.exponent.natAbs, by omega⟩
  have hpow : (0 : ℚ) < 2 ^ k := by positivity
  have hmag : d.magnitude * 2 ^ k = d.significand := by
    rw [magnitude, hk, zpow_neg, zpow_natCast, mul_assoc, inv_mul_cancel₀ hpow.ne', mul_one]
  have hlt : (d.significand : ℚ) < 2 ^ 53 := by exact_mod_cast d.significand_lt
  have hclose : |(n : ℚ) * 2 ^ k - d.significand| * (2 * 10 ^ 16) ≤ d.significand := by
    have := mul_le_mul_of_nonneg_right h hpow.le
    rwa [hmag, mul_right_comm, ← abs_of_pos hpow, ← abs_mul, sub_mul, hmag] at this
  have hone : |(n : ℚ) * 2 ^ k - d.significand| < 1 := by linarith
  have hint : |((n * 2 ^ k : Nat) : Int) - d.significand| < 1 := by
    have : (|((n * 2 ^ k : Nat) : Int) - d.significand| : ℚ) < 1 := by
      push_cast
      exact hone
    exact_mod_cast this
  have heq : n * 2 ^ k = d.significand := by
    have := Int.abs_lt_one_iff.mp hint
    omega
  have hcast : (n : ℚ) * 2 ^ k = d.significand := by exact_mod_cast heq
  exact mul_right_cancel₀ hpow.ne' (hmag.trans hcast.symm)

/-! ### Representable integers -/

/-- A representable integer is a multiple of the power that its exponent names. -/
lemma Representable.exists_significand {v : Nat} (hv : Representable v) (hpos : 0 < v) :
    ∃ m : Nat, (m : ℚ) * (2 : ℚ) ^ exponentOf v 1 = v := by
  obtain ⟨m, k, hm, hvk⟩ := hv
  obtain ⟨hlow, -⟩ := exponentOf_bounds hpos one_pos
  rw [Nat.cast_one, div_one] at hlow
  have hvk' : (v : ℚ) = m * 2 ^ (k : Int) := by exact_mod_cast hvk
  have hk : exponentOf v 1 ≤ k := by
    have hm' : (m : ℚ) < 2 ^ 53 := by exact_mod_cast hm
    have hpow : (0 : ℚ) < (2 : ℚ) ^ (k : Int) := by positivity
    have hlt : (2 : ℚ) ^ exponentOf v 1 < (2 : ℚ) ^ ((k : Int) + 1) := by
      have := mul_lt_mul_of_pos_right hm' hpow
      rw [zpow_add_one₀ two_ne_zero]
      linarith
    have := (zpow_lt_zpow_iff_right₀ one_lt_two).mp hlt
    omega
  obtain ⟨j, hj⟩ : ∃ j : Nat, (k : Int) = j + exponentOf v 1 :=
    ⟨(k - exponentOf v 1).toNat, by omega⟩
  refine ⟨m * 2 ^ j, ?_⟩
  rw [hvk', hj, zpow_add₀ two_ne_zero, zpow_natCast]
  push_cast
  ring

/-- A representable integer below the overflow threshold is its own nearest double. -/
lemma nearest_int (neg : Bool) {v : Nat} (hv : Representable v) (hlt : v.log2 < 1024) :
    (nearest neg v 1).truncNat = v ∧ (nearest neg v 1).isFinite = true ∧
      (nearest neg v 1).negative = neg := by
  rcases Nat.eq_zero_or_pos v with rfl | hpos
  · cases neg <;> decide +kernel
  obtain ⟨m, hm⟩ := hv.exists_significand hpos
  obtain ⟨hlow, hhigh⟩ := exponentOf_bounds hpos one_pos
  have hsmall := neg_lt_exponentOf hpos
  have hlarge : exponentOf v 1 ≤ 971 := by
    have := exponentOf_lt_of_log2 hpos hlt
    omega
  have hpow : (0 : ℚ) < (2 : ℚ) ^ exponentOf v 1 := by positivity
  rw [Nat.cast_one, div_one, ← hm] at hlow hhigh
  have hmlow : 2 ^ 52 ≤ m := by exact_mod_cast le_of_mul_le_mul_right hlow hpow
  have hmhigh : m < 2 ^ 53 := by exact_mod_cast lt_of_mul_lt_mul_right hhigh hpow.le
  have hclose : Close ((v : ℚ) / (1 : Nat)) (m * (2 : ℚ) ^ exponentOf v 1) := by
    rw [hm, Nat.cast_one, div_one]
    exact close_self v.cast_nonneg
  obtain ⟨hs, he, hf, hn⟩ := pack_normal neg hmlow hmhigh (by omega) hlarge
  rw [nearest_of_close neg hpos one_pos hmhigh (by omega) (fun h => by omega) hclose]
  refine ⟨truncNat_eq_of_magnitude ?_, hf, hn⟩
  rw [magnitude, hs, he, hm]

end Binary64
