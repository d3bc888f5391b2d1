import MongrelDB.Binary64.Print
import MongrelDB.Json.Number

/-!
# Printed doubles as number literals

What `%.17g` prints of a finite double is a number literal whose value is close to the double, and
so `strtod` finds the double again. The literal is that of an integer exactly where the double is an
integer of at most seventeen digits.
-/

namespace Json

open Text Binary64

/-! ### The parts of a printed double -/

/-- The digits of the exponent, at least two of them. -/
lemma exists_exponentDigits (k : Nat) : ∃ ds : Digits,
    ds.text = (if k < 10 then zero :: decimal k else decimal k) ∧ readNat ds.text = k := by
  have hread : readNat (zero :: decimal k) = k := by
    rw [← List.singleton_append, readNat_append, readNat_decimal]
    exact Nat.add_eq_right.mpr (Nat.zero_mul _)
  have hdigit : ∀ c ∈ zero :: decimal k, isDigit c = true :=
    List.forall_mem_cons.mpr ⟨by decide, fun c => isDigit_of_mem_decimal⟩
  split_ifs
  · exact ⟨⟨zero :: decimal k, List.cons_ne_nil _ _, hdigit⟩, rfl, hread⟩
  · exact ⟨⟨decimal k, decimal_ne_nil k, fun c => isDigit_of_mem_decimal⟩, rfl, readNat_decimal k⟩

lemma exists_exponent (e : Int) : ∃ x : Exponent, x.render = exponentText e ∧ x.value = e := by
  obtain ⟨ds, hds, hread⟩ := exists_exponentDigits e.natAbs
  rcases lt_or_ge e 0 with he | he
  · have hval : (⟨false, .minus, ds⟩ : Exponent).value = -(readNat ds.text : Int) := rfl
    refine ⟨⟨false, .minus, ds⟩, ?_, ?_⟩
    · simp [Exponent.render, exponentText, Sign.render, hds, he]
    · rw [hval, hread]
      omega
  · have hval : (⟨false, .plus, ds⟩ : Exponent).value = readNat ds.text := rfl
    refine ⟨⟨false, .plus, ds⟩, ?_, ?_⟩
    · simp [Exponent.render, exponentText, Sign.render, hds, not_lt.mpr he]
    · rw [hval, hread]
      omega

/-- The digits behind the point, of which the zeros at the end are left out. -/
lemma exists_frac {fs : Bytes} (h : ∀ c ∈ fs, isDigit c = true) :
    ∃ (frac : Option Digits) (j : Nat), frac.elim [] (fun ds => dot :: ds.text) = fractionText fs ∧
      fs = frac.elim [] Digits.text ++ List.replicate j zero := by
  have hsplit := List.rdropWhile_append_rtakeWhile (p := (· == zero)) (l := fs)
  have hzeros : fs.rtakeWhile (· == zero) =
      List.replicate (fs.rtakeWhile (· == zero)).length zero :=
    List.eq_replicate_iff.mpr ⟨rfl, fun c hc => by simpa using List.mem_rtakeWhile_imp hc⟩
  rw [hzeros] at hsplit
  by_cases hnil : fs.rdropWhile (· == zero) = []
  · rw [hnil] at hsplit
    refine ⟨none, _, ?_, hsplit.symm⟩
    simp only [fractionText, hnil, if_true, Option.elim_none]
  · refine ⟨some ⟨fs.rdropWhile (· == zero), hnil, fun c hc => h c ?_⟩, _, ?_, hsplit.symm⟩
    · exact (List.rdropWhile_prefix (· == zero) fs).subset hc
    · simp only [fractionText, hnil, if_false, Option.elim_some]

section Literal

variable (neg : Bool) {is fs : Bytes} (his : ∀ c ∈ is, isDigit c = true)
  (hfs : ∀ c ∈ fs, isDigit c = true)
include his hfs

/-- The zeros that are left out do not change the number. -/
lemma exists_literal (x : Option Exponent) (hne : is ≠ []) (hz : ∀ t, is = zero :: t → t = []) :
    ∃ n : NumLit, n.neg = neg ∧ n.exp = x ∧
      n.render = (if neg then [minus] else []) ++
        (is ++ fractionText fs ++ x.elim [] Exponent.render) ∧
      n.magnitude = readNat (is ++ fs) * 10 ^ (x.elim 0 Exponent.value - fs.length) := by
  obtain ⟨frac, j, htext, hdigits⟩ := exists_frac hfs
  refine ⟨⟨neg, ⟨is, hne, his⟩, hz, frac, x⟩, rfl, rfl, ?_, ?_⟩
  · simp only [NumLit.render, NumLit.renderFrac, NumLit.renderExp, htext, List.append_assoc]
  · rw [NumLit.magnitude, NumLit.fracDigits, NumLit.expValue]
    obtain ⟨gs, hgs⟩ : ∃ gs, gs = frac.elim [] Digits.text := ⟨_, rfl⟩
    rw [← hgs] at hdigits ⊢
    have hlen : (x.elim 0 Exponent.value - gs.length : Int) =
        j + (x.elim 0 Exponent.value - fs.length) := by
      rw [hdigits, List.length_append, List.length_replicate]
      omega
    rw [hlen, zpow_add₀ (by norm_num), hdigits, ← List.append_assoc, readNat_append (is ++ gs),
      readNat_zeros, List.length_replicate, zpow_natCast]
    push_cast
    ring

end Literal

section Layout

variable (neg : Bool) {m : Nat} (hm : 10 ^ 16 ≤ m) (hm' : m < 10 ^ 17)
include hm hm'

/-- The seventeen digits with the point behind the place `k`. -/
lemma exists_literal_split {k : Nat} (hk : k ≤ 16) (x : Option Exponent) :
    ∃ n : NumLit, n.neg = neg ∧ n.exp = x ∧
      n.render = (if neg then [minus] else []) ++ ((decimal m).take (k + 1) ++
        fractionText ((decimal m).drop (k + 1)) ++ x.elim [] Exponent.render) ∧
      n.magnitude = m * 10 ^ (x.elim 0 Exponent.value + k - 16) := by
  have hlen : (decimal m).length = 17 := decimal_length hm hm'
  have hdigit : ∀ c ∈ decimal m, isDigit c = true := fun c => isDigit_of_mem_decimal
  have hne : (decimal m).take (k + 1) ≠ [] := by
    intro hnil
    have := congrArg List.length hnil
    rw [List.length_take, hlen, List.length_nil] at this
    omega
  have hzero : ∀ t, (decimal m).take (k + 1) = zero :: t → t = [] := by
    intro t ht
    have hcons : decimal m = zero :: (t ++ (decimal m).drop (k + 1)) := by
      rw [← List.cons_append, ← ht, List.take_append_drop]
    exact (List.append_eq_nil_iff.mp (decimal_head_zero hcons)).1
  obtain ⟨n, hneg, hexp, hn, hmag⟩ := exists_literal neg
    (fun c hc => hdigit c (List.mem_of_mem_take hc))
    (fun c hc => hdigit c (List.mem_of_mem_drop hc)) x hne hzero
  refine ⟨n, hneg, hexp, hn, ?_⟩
  rw [hmag, List.take_append_drop, readNat_decimal, List.length_drop, hlen]
  congr 2
  omega

/-- The seventeen digits with the point before them and `k` zeros. -/
lemma exists_literal_below (k : Nat) : ∃ n : NumLit, n.neg = neg ∧
    n.render = (if neg then [minus] else []) ++
      zero :: fractionText (List.replicate k zero ++ decimal m) ∧
    n.magnitude = m * 10 ^ (-(k : Int) - 17) := by
  have hlen : (decimal m).length = 17 := decimal_length hm hm'
  have hfs : ∀ c ∈ List.replicate k zero ++ decimal m, isDigit c = true := by
    intro c hc
    rcases List.mem_append.mp hc with hc | hc
    · rw [List.eq_of_mem_replicate hc]
      decide
    · exact isDigit_of_mem_decimal hc
  have his : ∀ c ∈ [zero], isDigit c = true := List.all_eq_true.mp (by decide)
  obtain ⟨n, hneg, -, hn, hmag⟩ := exists_literal neg his hfs none
    (List.cons_ne_nil _ _) (fun t ht => (List.cons.inj ht).2.symm)
  refine ⟨n, hneg, ?_, ?_⟩
  · rw [hn, Option.elim_none, List.append_nil, List.singleton_append]
  · have hread : readNat ([zero] ++ (List.replicate k zero ++ decimal m)) = m := by
      rw [List.singleton_append, ← List.cons_append, ← List.replicate_succ, readNat_append,
        readNat_zeros, readNat_decimal, Nat.zero_mul, Nat.zero_add]
    rw [hmag, hread, List.length_append, List.length_replicate, hlen, Option.elim_none]
    congr 2
    omega

/-- The text of seventeen digits is that of a literal which stands for them, and of an integer only
if their first place is one of the seventeen before the point. -/
lemma exists_literal_layout (e : Int) : ∃ n : NumLit, n.neg = neg ∧
    n.render = (if neg then [minus] else []) ++ layout m e ∧
    n.magnitude = m * 10 ^ (e - 16) ∧ (n.isInt = true → e ≤ 16) := by
  by_cases hexp : e < -4 ∨ 17 ≤ e
  · obtain ⟨x, hx, hval⟩ := exists_exponent e
    obtain ⟨n, hneg, hnx, hn, hmag⟩ := exists_literal_split neg hm hm' (Nat.zero_le 16) (some x)
    refine ⟨n, hneg, ?_, ?_, fun hint => ?_⟩
    · rw [hn, layout, if_pos hexp, Option.elim_some, hx]
    · rw [hmag, Option.elim_some, hval, Nat.cast_zero, add_zero]
    · rw [NumLit.isInt, hnx, Option.isNone_some, Bool.and_false] at hint
      cases hint
  · by_cases hbelow : e < 0
    · obtain ⟨n, hneg, hn, hmag⟩ := exists_literal_below neg hm hm' (-e - 1).toNat
      refine ⟨n, hneg, ?_, ?_, fun _ => by omega⟩
      · rw [hn, layout, if_neg hexp, if_pos hbelow]
      · rw [hmag, show -((-e - 1).toNat : Int) - 17 = e - 16 by omega]
    · obtain ⟨k, rfl⟩ := Int.eq_ofNat_of_zero_le (not_lt.mp hbelow)
      obtain ⟨n, hneg, -, hn, hmag⟩ := exists_literal_split neg hm hm' (k := k) (by omega) none
      refine ⟨n, hneg, ?_, ?_, fun _ => by omega⟩
      · rw [hn, layout, if_neg hexp, if_neg hbelow, Option.elim_none, List.append_nil]
        rfl
      · rw [hmag, Option.elim_none, zero_add]

end Layout

/-! ### Printed doubles -/

lemma NumLit.magnitude_of_isInt {n : NumLit} (h : n.isInt = true) :
    n.magnitude = readNat n.int.text := by
  simp only [NumLit.isInt, Bool.and_eq_true, Option.isNone_iff_eq_none] at h
  simp [NumLit.magnitude, NumLit.fracDigits, NumLit.expValue, h]

/-- A literal without a point and without an exponent. -/
lemma exists_literal_decimal (neg : Bool) (v : Nat) : ∃ n : NumLit, n.neg = neg ∧
    n.render = (if neg then [minus] else []) ++ decimal v ∧ n.isInt = true ∧ n.magnitude = v := by
  obtain ⟨n, hn⟩ : ∃ n : NumLit, n = ⟨neg, ⟨decimal v, decimal_ne_nil v,
    fun c => isDigit_of_mem_decimal⟩, fun t => decimal_head_zero, none, none⟩ := ⟨_, rfl⟩
  have hint : n.isInt = true := by rw [hn]; rfl
  refine ⟨n, by rw [hn], ?_, hint, ?_⟩
  · rw [NumLit.render_of_isInt hint, hn]
  · rw [NumLit.magnitude_of_isInt hint, hn, readNat_decimal]

/-- What is printed of a double is a literal that is close to it. -/
theorem exists_literal_printG17 (d : Binary64) : ∃ n : NumLit, n.neg = d.negative ∧
    n.render = printG17 d ∧ Close n.magnitude d.magnitude ∧
    (n.isInt = true ↔ d.ShortInteger) := by
  by_cases hshort : d.ShortInteger
  · obtain ⟨v, hlt, hv⟩ := hshort
    obtain ⟨n, hneg, hn, hint, hmag⟩ := exists_literal_decimal d.negative v
    refine ⟨n, hneg, hn.trans (printG17_int hv hlt).symm, ?_,
      ⟨fun _ => ⟨v, hlt, hv⟩, fun _ => hint⟩⟩
    rw [hmag, ← hv]
    exact close_self d.magnitude_nonneg
  · have hne : d.significand ≠ 0 := by
      intro hs
      refine hshort ⟨0, by norm_num, ?_⟩
      rw [magnitude, hs, Nat.cast_zero, zero_mul]
    have hnum : 0 < d.numerator := by
      rw [numerator]
      positivity
    obtain ⟨m, e, hround, hm, hm', hplace, hclose⟩ := round17_spec hnum d.denominator_pos
    obtain ⟨n, hneg, hn, hmag, hint⟩ := exists_literal_layout d.negative hm hm' e
    rw [← hmag, ← magnitude_eq_div] at hclose
    refine ⟨n, hneg, hn.trans (printG17_of_round17 hne hround).symm, hclose, fun h => ?_,
      fun h => absurd h hshort⟩
    rw [NumLit.magnitude_of_isInt h] at hclose
    exact shortInteger_of_close hclose (magnitude_lt_of_firstPlace hne (hplace.trans (hint h)))

/-- A literal that is close to a double is rounded to it. -/
lemma NumLit.toBinary64_of_close {n : NumLit} {d : Binary64} (hd : d.isFinite = true)
    (hneg : n.neg = d.negative) (h : Close n.magnitude d.magnitude) : n.toBinary64 = d := by
  obtain ⟨a, b, hb, hmag, hround⟩ := n.exists_fraction
  rw [hround, hneg, nearest_eq_of_close hd hb (hmag ▸ h)]

/-- `strtod` reads what `%.17g` prints. -/
theorem strtod_printG17 {d : Binary64} (hd : d.isFinite = true) : strtod (printG17 d) = d := by
  obtain ⟨n, hneg, hn, hclose, -⟩ := exists_literal_printG17 d
  rw [← hn, n.strtod_render, n.toBinary64_of_close hd hneg hclose]

end Json
