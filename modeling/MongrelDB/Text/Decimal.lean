import MongrelDB.Text.Bytes
import Mathlib.Data.Nat.Digits.Lemmas
import Mathlib.Tactic.Positivity
import Mathlib.Tactic.Ring

/-!
# Decimal numerals

Printing integers as `printf` does with `%lld` and reading them back as the C library does with
`strtoll` and `strtoull`: an optional sign, the digits that follow it, saturation at the ends of
the type. Reading a printed integer gives the integer back.
-/

namespace Text

/-! ### Digits -/

/-- The number a run of digits stands for. -/
def readNat (ds : Bytes) : Nat := ds.foldl (fun a c => a * 10 + (c.toNat - 0x30)) 0

def digitByte (d : Nat) : UInt8 := (d + 0x30).toUInt8

lemma digitByte_toNat {d : Nat} (h : d < 10) : (digitByte d).toNat = d + 0x30 := by
  simp only [digitByte, Nat.toUInt8_eq, UInt8.toNat_ofNat']
  omega

lemma isDigit_iff {c : UInt8} : isDigit c = true ↔ 0x30 ≤ c.toNat ∧ c.toNat ≤ 0x39 := by
  simp [isDigit, UInt8.le_iff_toNat_le]

lemma isDigit_digitByte {d : Nat} (h : d < 10) : isDigit (digitByte d) = true := by
  rw [isDigit_iff, digitByte_toNat h]
  omega

/-- The decimal digits of a natural number, most significant first. -/
def decimal (n : Nat) : Bytes :=
  if n = 0 then [zero] else ((Nat.digits 10 n).map digitByte).reverse

/-- An integer as `%lld` prints it. -/
def decimalInt (i : Int) : Bytes :=
  if i < 0 then minus :: decimal i.natAbs else decimal i.natAbs

lemma decimal_ne_nil (n : Nat) : decimal n ≠ [] := by
  unfold decimal
  split_ifs with h
  · simp
  · simpa using Nat.digits_ne_nil_iff_ne_zero.mpr h

lemma isDigit_of_mem_decimal {n : Nat} {c : UInt8} (h : c ∈ decimal n) : isDigit c = true := by
  unfold decimal at h
  split_ifs at h
  · simp only [List.mem_singleton] at h
    subst h
    decide
  · simp only [List.mem_reverse, List.mem_map] at h
    obtain ⟨d, hd, rfl⟩ := h
    exact isDigit_digitByte (Nat.digits_lt_base (by norm_num) hd)

/-- Only zero itself is printed with a leading zero. -/
lemma decimal_head_zero {n : Nat} {t : Bytes} (h : decimal n = zero :: t) : t = [] := by
  unfold decimal at h
  split_ifs at h with hn
  · simpa using h.symm
  · exfalso
    have hne : Nat.digits 10 n ≠ [] := Nat.digits_ne_nil_iff_ne_zero.mpr hn
    have hlast := Nat.getLast_digit_ne_zero 10 hn
    have hlt : (Nat.digits 10 n).getLast hne < 10 :=
      Nat.digits_lt_base (by norm_num) (List.getLast_mem hne)
    have hhead : digitByte ((Nat.digits 10 n).getLast hne) = zero := by
      have hh := congrArg List.head? h
      rw [List.head?_reverse, List.getLast?_map, List.getLast?_eq_some_getLast hne] at hh
      simpa using hh
    have := congrArg UInt8.toNat hhead
    rw [digitByte_toNat hlt, show zero.toNat = 0x30 from rfl] at this
    omega

lemma readNat_decimal (n : Nat) : readNat (decimal n) = n := by
  unfold decimal
  split_ifs with hn
  · subst hn
    decide
  · have hfold : ∀ l : List Nat, (∀ d ∈ l, d < 10) →
        (l.map digitByte).foldr (fun c a => a * 10 + (c.toNat - 0x30)) 0 = Nat.ofDigits 10 l := by
      intro l hl
      induction l with
      | nil => rfl
      | cons d l ih =>
        have hd : (digitByte d).toNat = d + 0x30 := digitByte_toNat (hl d (by simp))
        simp only [List.map_cons, List.foldr_cons, Nat.ofDigits_cons, hd,
          ih fun e he => hl e (by simp [he])]
        omega
    rw [readNat, List.foldl_reverse, hfold _ fun d hd => Nat.digits_lt_base (by norm_num) hd,
      Nat.ofDigits_digits]

lemma decimal_inj {m n : Nat} : decimal m = decimal n ↔ m = n := by
  constructor
  · intro h
    rw [← readNat_decimal m, h, readNat_decimal]
  · rintro rfl
    rfl

lemma readNat_append (x y : Bytes) : readNat (x ++ y) = readNat x * 10 ^ y.length + readNat y := by
  induction y using List.reverseRecOn with
  | nil => simp [readNat]
  | append_singleton y c ih =>
    have hlast : ∀ z : Bytes, readNat (z ++ [c]) = readNat z * 10 + (c.toNat - 0x30) := by
      intro z
      simp [readNat]
    rw [← List.append_assoc, hlast, hlast, ih, List.length_append, List.length_singleton, pow_succ]
    ring

lemma readNat_zeros (k : Nat) : readNat (List.replicate k zero) = 0 := by
  induction k with
  | zero => rfl
  | succ k ih =>
    rw [List.replicate_succ', readNat_append, ih]
    rfl

/-- Zeros at the end are the factors of ten. -/
lemma decimal_mul_pow {v : Nat} (hv : 0 < v) (k : Nat) :
    decimal (v * 10 ^ k) = decimal v ++ List.replicate k zero := by
  have hmul : v * 10 ^ k ≠ 0 := by positivity
  rw [decimal, decimal, if_neg hmul, if_neg hv.ne', Nat.mul_comm,
    Nat.digits_base_pow_mul (by norm_num) hv, List.map_append, List.reverse_append,
    List.map_replicate, List.reverse_replicate]
  rfl

lemma decimal_length {n k : Nat} (h : 10 ^ k ≤ n) (h' : n < 10 ^ (k + 1)) :
    (decimal n).length = k + 1 := by
  have hn : n ≠ 0 := by
    have : 0 < 10 ^ k := by positivity
    omega
  rw [decimal, if_neg hn, List.length_reverse, List.length_map,
    Nat.length_digits 10 n (by norm_num) hn, Nat.log_eq_of_pow_le_of_lt_pow h h']

/-! ### The C library's readers -/

/-- An optional sign: whether it is a minus, and what follows it. -/
def splitSign : Bytes → Bool × Bytes
  | [] => (false, [])
  | c :: t => if c = minus then (true, t) else if c = plus then (false, t) else (false, c :: t)

lemma splitSign_digit {c : UInt8} {t : Bytes} (hc : isDigit c = true) :
    splitSign (c :: t) = (false, c :: t) := by
  have hm : c ≠ minus := by rintro rfl; exact absurd hc (by decide)
  have hp : c ≠ plus := by rintro rfl; exact absurd hc (by decide)
  simp only [splitSign, if_neg hm, if_neg hp]

/-- The integer at the start of a text without leading white space, not yet fitted to a type. -/
def scanInt (t : Bytes) : Int :=
  let (neg, u) := splitSign t
  if neg then -(readNat (u.takeWhile isDigit)) else readNat (u.takeWhile isDigit)

/-- `strtoll` in base ten: the result saturates at the ends of the type. -/
def strtoll (t : Bytes) : Int64 := Int64.ofIntClamp (scanInt t)

/-- `strtoull` in base ten: the value, and the text that `end` points to. -/
def strtoull (t : Bytes) : UInt64 × Bytes :=
  let (neg, u) := splitSign t
  let m := readNat (u.takeWhile isDigit)
  if u.takeWhile isDigit = [] then (0, t)
  else (if 2 ^ 64 ≤ m then -1 else if neg then -(UInt64.ofNat m) else UInt64.ofNat m,
    u.dropWhile isDigit)

lemma takeWhile_isDigit {ds r : Bytes} (hds : ∀ c ∈ ds, isDigit c = true)
    (hr : Stops isDigit r) : (ds ++ r).takeWhile isDigit = ds := takeWhile_run hds hr

lemma scanInt_digits {ds r : Bytes} (hne : ds ≠ []) (hds : ∀ c ∈ ds, isDigit c = true)
    (hr : Stops isDigit r) : scanInt (ds ++ r) = readNat ds := by
  obtain ⟨c, t, rfl⟩ := List.exists_cons_of_ne_nil hne
  have hs : splitSign (c :: t ++ r) = (false, c :: t ++ r) := splitSign_digit (hds c (by simp))
  simp only [scanInt, hs, takeWhile_isDigit hds hr, Bool.false_eq_true, if_false]

lemma scanInt_minus {ds r : Bytes} (hds : ∀ c ∈ ds, isDigit c = true)
    (hr : Stops isDigit r) : scanInt (minus :: (ds ++ r)) = -(readNat ds : Int) := by
  simp [scanInt, splitSign, takeWhile_isDigit hds hr]

lemma ofIntClamp_toInt (i : Int64) : Int64.ofIntClamp i.toInt = i := by
  apply Int64.toInt_inj.mp
  exact Int64.toInt_ofIntClamp i.minValue_le_toInt i.toInt_le

lemma strtoull_digits {ds r : Bytes} (hne : ds ≠ []) (hds : ∀ c ∈ ds, isDigit c = true)
    (hr : Stops isDigit r) :
    strtoull (ds ++ r) = (if 2 ^ 64 ≤ readNat ds then -1 else UInt64.ofNat (readNat ds), r) := by
  obtain ⟨c, t, rfl⟩ := List.exists_cons_of_ne_nil hne
  have hs : splitSign (c :: t ++ r) = (false, c :: t ++ r) := splitSign_digit (hds c (by simp))
  simp only [strtoull, hs, takeWhile_run hds hr, dropWhile_run hds hr]
  simp

end Text
