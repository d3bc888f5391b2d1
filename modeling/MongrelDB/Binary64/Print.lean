import MongrelDB.Binary64.Nearest
import Mathlib.Data.List.DropRight

/-!
# Doubles as `%.17g` prints them

The conversion rounds a finite double to seventeen decimal digits. Where the place of the first one
is from `-4` up to `16` it writes the digits around a point, and else the first digit, a point, the
others and an exponent of at least two digits; zeros at the end of the part behind the point are
left out, and the point if nothing is left of that part. Seventeen digits are enough: what they
stand for is `Close` to the double.
-/

open Text

namespace Binary64

/-! ### Seventeen digits -/

/-- The place of the first decimal digit of `a / b`, zero being that of the ones. -/
def firstPlace (a b : Nat) : Int :=
  let e : Int := (Nat.log 10 a : Int) - Nat.log 10 b
  if a * 10 ^ (-e).toNat < b * 10 ^ e.toNat then e - 1 else e

/-- The number of seventeen digits that is nearest to `a / b`, and the place of its first digit. -/
def round17 (a b : Nat) : Nat × Int :=
  let e := firstPlace a b
  let m := divNearestEven (a * 10 ^ (16 - e).toNat) (b * 10 ^ (e - 16).toNat)
  if m = 10 ^ 17 then (10 ^ 16, e + 1) else (m, e)

/-- The part behind the point, with the point. -/
def fractionText (ds : Bytes) : Bytes :=
  let t := ds.rdropWhile (· == zero)
  if t = [] then [] else dot :: t

def exponentText (e : Int) : Bytes :=
  0x65 :: (if e < 0 then minus else plus) ::
    (if e.natAbs < 10 then zero :: decimal e.natAbs else decimal e.natAbs)

/-- The number of seventeen digits `m` whose first digit is at the place `e`. -/
def layout (m : Nat) (e : Int) : Bytes :=
  let ds := decimal m
  if e < -4 ∨ 17 ≤ e then ds.take 1 ++ fractionText (ds.drop 1) ++ exponentText e
  else if e < 0 then zero :: fractionText (List.replicate (-e - 1).toNat zero ++ ds)
  else ds.take (e + 1).toNat ++ fractionText (ds.drop (e + 1).toNat)

/-- A finite double as `%.17g` prints it. -/
def printG17 (d : Binary64) : Bytes :=
  (if d.negative then [minus] else []) ++
    if d.significand = 0 then [zero]
    else
      let (m, e) := round17 d.numerator d.denominator
      layout m e

/-! ### The rounding -/

section Round

variable {a b : Nat}

lemma firstPlace_bounds (ha : 0 < a) (hb : 0 < b) :
    (10 : ℚ) ^ firstPlace a b ≤ a / b ∧ (a : ℚ) / b < (10 : ℚ) ^ (firstPlace a b + 1) := by
  obtain ⟨e, he⟩ : ∃ e : Int, e = (Nat.log 10 a : Int) - Nat.log 10 b := ⟨_, rfl⟩
  obtain ⟨hlow, hhigh⟩ := quotient_bounds (β := 10) (by norm_num) ha hb
  rw [← he] at hlow hhigh
  have htest : a * 10 ^ (-e).toNat < b * 10 ^ e.toNat ↔ (a : ℚ) / b < (10 : ℚ) ^ e := by
    have := scaled_lt_iff (a := a) (c := 1) (β := 10) (by norm_num) hb e
    rw [Nat.one_mul, Nat.cast_one, one_mul] at this
    exact_mod_cast this
  rw [firstPlace]
  simp only [← he, htest]
  split_ifs with h
  · rw [sub_add_cancel]
    exact ⟨by exact_mod_cast hlow.le, h⟩
  · exact ⟨not_lt.mp h, by exact_mod_cast hhigh⟩

lemma scaled_firstPlace (hb : 0 < b) (e : Int) :
    ((a * 10 ^ (16 - e).toNat : Nat) : ℚ) / (b * 10 ^ (e - 16).toNat : Nat) =
      (a : ℚ) / b / (10 : ℚ) ^ (e - 16) := by
  have := scaled_div (a := a) (β := 10) (by norm_num) hb (e - 16)
  rw [neg_sub] at this
  exact_mod_cast this

/-- The digits are seventeen, and what they stand for is close to the fraction. -/
lemma round17_spec (ha : 0 < a) (hb : 0 < b) : ∃ m e, round17 a b = (m, e) ∧ 10 ^ 16 ≤ m ∧
    m < 10 ^ 17 ∧ firstPlace a b ≤ e ∧ Close (m * (10 : ℚ) ^ (e - 16)) (a / b) := by
  obtain ⟨E, hE⟩ : ∃ E, E = firstPlace a b := ⟨_, rfl⟩
  obtain ⟨hlow, hhigh⟩ := firstPlace_bounds ha hb
  rw [← hE] at hlow hhigh
  obtain ⟨q, hq⟩ : ∃ q, q = divNearestEven (a * 10 ^ (16 - E).toNat) (b * 10 ^ (E - 16).toNat) :=
    ⟨_, rfl⟩
  have hround := abs_divNearestEven_le (a := a * 10 ^ (16 - E).toNat)
    (b := b * 10 ^ (E - 16).toNat) (by positivity)
  rw [← hq, scaled_firstPlace hb] at hround
  obtain ⟨p, hp⟩ : ∃ p, p = (10 : ℚ) ^ (E - 16) := ⟨_, rfl⟩
  have hpos : 0 < p := by rw [hp]; positivity
  have hE10 : (10 : ℚ) ^ E = 10 ^ 16 * p := by
    rw [hp, ← zpow_natCast, ← zpow_add₀ (by norm_num)]
    congr 1
    omega
  rw [zpow_add_one₀ (by norm_num), hE10] at hhigh
  rw [hE10] at hlow
  obtain ⟨y, hy⟩ : ∃ y, y = (a : ℚ) / b / p := ⟨_, rfl⟩
  have hx : (a : ℚ) / b = y * p := by rw [hy, div_mul_cancel₀ _ hpos.ne']
  rw [← hp, ← hy] at hround
  rw [hx] at hlow hhigh ⊢
  have hylow : 10 ^ 16 ≤ y := le_of_mul_le_mul_right hlow hpos
  have hyhigh : y < 10 ^ 17 := lt_of_mul_lt_mul_right (by linarith) hpos.le
  obtain ⟨hround₁, hround₂⟩ := abs_le.mp hround
  have hqlow : 10 ^ 16 ≤ q := by
    have : (10 ^ 16 : ℚ) < q + 1 := by linarith
    exact Nat.lt_add_one_iff.mp (by exact_mod_cast this)
  have hqhigh : q ≤ 10 ^ 17 := by
    have : (q : ℚ) < 10 ^ 17 + 1 := by linarith
    exact Nat.lt_add_one_iff.mp (by exact_mod_cast this)
  have hclose : Close (q * p) (y * p) := by
    rw [Close, ← sub_mul, abs_mul, abs_of_pos hpos, abs_sub_comm]
    have := mul_le_mul_of_nonneg_right hround hpos.le
    linarith
  rw [round17]
  simp only [← hE, ← hq]
  split_ifs with h
  · refine ⟨_, _, rfl, le_rfl, by norm_num, by omega, ?_⟩
    have hcarry : ((10 ^ 16 : Nat) : ℚ) * (10 : ℚ) ^ (E + 1 - 16) = q * p := by
      rw [h, hp, add_sub_right_comm, zpow_add_one₀ (by norm_num)]
      push_cast
      ring
    rwa [hcarry]
  · exact ⟨_, _, rfl, hqlow, lt_of_le_of_ne hqhigh h, le_rfl, by rwa [← hp]⟩

/-- An integer of at most seventeen digits is rounded to itself. -/
lemma round17_int (hb : 0 < b) {v : Nat} (hv : 0 < v) (hlt : v < 10 ^ 17) :
    ∃ k : Nat, k ≤ 16 ∧ 10 ^ k ≤ v ∧ v < 10 ^ (k + 1) ∧
      round17 (v * b) b = (v * 10 ^ (16 - k), (k : Int)) := by
  obtain ⟨k, hk⟩ : ∃ k, k = Nat.log 10 v := ⟨_, rfl⟩
  have hlow : 10 ^ k ≤ v := hk ▸ Nat.pow_log_le_self 10 hv.ne'
  have hhigh : v < 10 ^ (k + 1) := hk ▸ Nat.lt_pow_succ_log_self (by norm_num) v
  have hk16 : k ≤ 16 := by
    have : k < 17 := (Nat.pow_lt_pow_iff_right (by norm_num)).mp (hlow.trans_lt hlt)
    omega
  have hplace : firstPlace (v * b) b = k := by
    obtain ⟨h₁, h₂⟩ := firstPlace_bounds (Nat.mul_pos hv hb) hb
    have hb' : (b : ℚ) ≠ 0 := by exact_mod_cast hb.ne'
    rw [Nat.cast_mul, mul_div_cancel_right₀ _ hb'] at h₁ h₂
    have hlow' : (10 : ℚ) ^ (k : Int) ≤ v := by exact_mod_cast hlow
    have hhigh' : (v : ℚ) < (10 : ℚ) ^ ((k : Int) + 1) := by exact_mod_cast hhigh
    have h₃ := (zpow_lt_zpow_iff_right₀ (by norm_num)).mp (h₁.trans_lt hhigh')
    have h₄ := (zpow_lt_zpow_iff_right₀ (by norm_num)).mp (hlow'.trans_lt h₂)
    omega
  have hm : v * 10 ^ (16 - k) < 10 ^ 17 := by
    calc v * 10 ^ (16 - k) < 10 ^ (k + 1) * 10 ^ (16 - k) :=
          Nat.mul_lt_mul_of_pos_right hhigh (by positivity)
      _ = 10 ^ 17 := by rw [← pow_add]; congr 1; omega
  have hq : divNearestEven (v * b * 10 ^ (16 - (k : Int)).toNat) (b * 10 ^ ((k : Int) - 16).toNat) =
      v * 10 ^ (16 - k) := by
    rw [show (16 - (k : Int)).toNat = 16 - k by omega, show ((k : Int) - 16).toNat = 0 by omega,
      pow_zero, Nat.mul_one, Nat.mul_right_comm]
    exact divNearestEven_mul _ hb
  refine ⟨k, hk16, hlow, hhigh, ?_⟩
  rw [round17, hplace]
  simp only [hq]
  rw [if_neg hm.ne]

end Round

/-! ### Integers -/

/-- An integer of at most seventeen digits. -/
def ShortInteger (d : Binary64) : Prop := ∃ v : Nat, v < 10 ^ 17 ∧ d.magnitude = v

lemma printG17_of_round17 {d : Binary64} (hd : d.significand ≠ 0) {m : Nat} {e : Int}
    (h : round17 d.numerator d.denominator = (m, e)) :
    printG17 d = (if d.negative then [minus] else []) ++ layout m e := by
  rw [printG17, if_neg hd, h]

lemma fractionText_zeros (k : Nat) : fractionText (List.replicate k zero) = [] := by
  have h : (List.replicate k zero).rdropWhile (· == zero) = [] := by
    rw [List.rdropWhile_eq_nil_iff]
    intro c hc
    rw [List.eq_of_mem_replicate hc]
    rfl
  simp only [fractionText, h, if_true]

/-- Such an integer is printed without a point and without an exponent. -/
theorem printG17_int {d : Binary64} {v : Nat} (h : d.magnitude = v) (hlt : v < 10 ^ 17) :
    printG17 d = (if d.negative then [minus] else []) ++ decimal v := by
  rcases Nat.eq_zero_or_pos v with rfl | hv
  · rw [printG17, if_pos (magnitude_eq_zero (by rw [h, Nat.cast_zero]))]
    rfl
  have hne : d.significand ≠ 0 := by
    intro hs
    rw [magnitude, hs, Nat.cast_zero, zero_mul] at h
    exact hv.ne (by exact_mod_cast h)
  obtain ⟨k, hk, hlow, hhigh, hround⟩ := round17_int d.denominator_pos hv hlt
  have hlen : (decimal v).length = ((k : Int) + 1).toNat := by
    rw [decimal_length hlow hhigh]
    omega
  have hlayout : layout (v * 10 ^ (16 - k)) k = decimal v := by
    simp only [layout, decimal_mul_pow hv, List.take_left' hlen, List.drop_left' hlen,
      fractionText_zeros, List.append_nil]
    rw [if_neg (by omega), if_neg (by omega)]
  rw [printG17_of_round17 hne (numerator_eq_mul h ▸ hround), hlayout]

/-- A double that is close to an integer and below `10 ^ 17` is an integer itself. -/
lemma shortInteger_of_close {d : Binary64} {n : Nat} (h : Close n d.magnitude)
    (hlt : d.magnitude < 10 ^ 17) : d.ShortInteger := by
  obtain ⟨v, hv⟩ : ∃ v : Nat, d.magnitude = v := by
    rcases lt_or_ge d.exponent 0 with he | he
    · exact ⟨n, magnitude_eq_of_close h he⟩
    · refine ⟨d.numerator, ?_⟩
      rw [magnitude_eq_div, denominator, show (-d.exponent).toNat = 0 by omega, pow_zero,
        Nat.cast_one, div_one]
  rw [hv] at hlt
  exact ⟨v, by exact_mod_cast hlt, hv⟩

/-- A double whose first place is one of the seventeen before the point. -/
lemma magnitude_lt_of_firstPlace {d : Binary64} (hd : d.significand ≠ 0)
    (h : firstPlace d.numerator d.denominator ≤ 16) : d.magnitude < 10 ^ 17 := by
  have hnum : 0 < d.numerator := by
    rw [numerator]
    positivity
  rw [magnitude_eq_div]
  refine (firstPlace_bounds hnum d.denominator_pos).2.trans_le ?_
  have := zpow_le_zpow_right₀ (a := (10 : ℚ)) (by norm_num)
    (show firstPlace d.numerator d.denominator + 1 ≤ ((17 : Nat) : Int) by omega)
  rwa [zpow_natCast] at this

end Binary64
