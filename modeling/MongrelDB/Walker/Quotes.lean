import MongrelDB.Walker.Strings
import Mathlib.Algebra.Group.Nat.Even

/-!
# Where a string ends

A string ends at the first quote with an even number of backslashes before it. The walker takes the
four characters behind `\u` as they come, so that it may miss this quote, or take one for it that is
escaped. It finds it exactly if the contents can be cut up as it cuts them up (`Divided`).
-/

namespace MongrelDB

open Text Traced Prog Json

namespace JsonParser

/-- An even number of backslashes stands at the end. -/
def EvenBackslashes (b : Bytes) : Prop := Even (b.reverse.takeWhile (· == backslash)).length

instance (b : Bytes) : Decidable (EvenBackslashes b) := inferInstanceAs (Decidable (Even _))

/-- The first quote with an even number of backslashes before it stands between `b` and `r`. -/
structure FirstQuote (v b r : Bytes) : Prop where
  eq : v = b ++ quote :: r
  even : EvenBackslashes b
  first : ∀ b' r', v = b' ++ quote :: r' → EvenBackslashes b' → b.length ≤ b'.length

/-- With `tail` behind it, the text consists of characters other than quotes and backslashes, of
backslashes and the character behind them, and of `\u` and the four characters behind it, whatever
they are. Close to the end of everything `\u` may stand alone, and so may a backslash. -/
inductive Divided (tail : Bytes) : Bytes → Prop
  | nil : Divided tail []
  | plain {c b} : c ≠ quote → c ≠ backslash → Divided tail b → Divided tail (c :: b)
  | escape {c b} : c ≠ 0x75 → Divided tail b → Divided tail (backslash :: c :: b)
  | unicode {x y z t b} : Divided tail b → Divided tail (backslash :: 0x75 :: x :: y :: z :: t :: b)
  | short {b} : (b ++ tail).length < 4 → Divided tail b → Divided tail (backslash :: 0x75 :: b)
  | last : tail = [] → Divided tail [backslash]

variable {v w b r tail s : Bytes}

/-! ### One step of the walker -/

lemma hexNumber_cons {h : UInt8} {t : Bytes} {lo n : Nat} (hn : hexNumber (h :: t) lo = some n) :
    hexNumber t (pushHex lo h) = some n := by
  rw [hexNumber] at hn
  cases hh : hexVal h with
  | none => simp [hh] at hn
  | some d => simpa [hh, pushHex] using hn

lemma pushHex_of_hexNumber {x y z t : UInt8} {lo : Nat} (h : hexNumber [x, y, z, t] 0 = some lo) :
    pushHex (pushHex (pushHex (pushHex 0 x) y) z) t = lo :=
  Option.some.inj (hexNumber_cons (hexNumber_cons (hexNumber_cons (hexNumber_cons h))))

/-- An escaped low surrogate leaves the same text whether it is taken with the high one before it or
alone. -/
lemma Quoted.of_lowHalf {lo : Nat} (h : lowHalf w = some (lo, v)) (hq : Quoted v s r) :
    ∃ s', Quoted w s' r := by
  unfold lowHalf at h
  split at h
  · next x y a b c d r' =>
    split_ifs at h with hxy
    obtain ⟨rfl, rfl⟩ := hxy
    split at h
    · next lo' hn =>
      split_ifs at h with hlo
      obtain ⟨rfl, rfl⟩ := Prod.mk.inj (Option.some.inj h)
      have hstep : stringStep backslash (0x75 :: a :: b :: c :: d :: r') =
          (pushCodePoint [] 0xFFFD, r') := by
        simp only [stringStep, if_true, unicodeStep, pushHex_of_hexNumber hn]
        rw [if_neg (by omega), if_pos hlo]
      exact ⟨_, .of_step (by decide) hstep hq⟩
    · cases h
  · cases h

lemma Quoted.step {c : UInt8} (hc : c ≠ quote) (h : Quoted (c :: v) s r) :
    ∃ s', Quoted (stringStep c v).2 s' r := by
  cases h with
  | close => exact absurd rfl hc
  | item _ h => exact ⟨_, h⟩

lemma stringStep_plain {c : UInt8} (hc : c ≠ backslash) : stringStep c v = ([c], v) := by
  cases v with
  | nil => rfl
  | cons n v => simp only [stringStep, if_neg hc]

lemma stringStep_escape {c : UInt8} (hc : c ≠ 0x75) :
    stringStep backslash (c :: v) = ([unescape c], v) := by
  simp only [stringStep, if_true, if_neg hc]

lemma stringStep_unfinished (hv : v.length < 4) : stringStep backslash (0x75 :: v) = ([], v) := by
  simp only [stringStep, if_true, unicodeStep_of_short hv]

lemma exists_of_lowHalf {lo : Nat} (h : lowHalf w = some (lo, v)) :
    ∃ x y z t, w = backslash :: 0x75 :: x :: y :: z :: t :: v := by
  unfold lowHalf at h
  split at h
  · split_ifs at h with hxy
    obtain ⟨rfl, rfl⟩ := hxy
    split at h
    · split_ifs at h
      obtain ⟨-, rfl⟩ := Prod.mk.inj (Option.some.inj h)
      exact ⟨_, _, _, _, rfl⟩
    · cases h
  · cases h

/-- Behind `\u` and four characters the walker goes on there, or behind the low surrogate there. -/
lemma stringStep_window (x y z t : UInt8) (w : Bytes) :
    (stringStep backslash (0x75 :: x :: y :: z :: t :: w)).2 = w ∨
      ∃ lo, lowHalf w = some (lo, (stringStep backslash (0x75 :: x :: y :: z :: t :: w)).2) := by
  simp only [stringStep, if_true, unicodeStep]
  split_ifs
  · unfold pairWith
    split
    · next lo r h => exact .inr ⟨lo, h⟩
    · exact .inl rfl
  · exact .inl rfl
  · exact .inl rfl

/-! ### Where the walker ends -/

/-- Through text that is divided the walker comes to what stands behind it. -/
lemma Quoted.of_divided (hb : Divided tail b) (h : Quoted (b ++ tail) s r) :
    ∃ s', Quoted tail s' r := by
  induction hb generalizing s with
  | nil => exact ⟨s, h⟩
  | plain hq hc _ ih =>
    obtain ⟨s', h⟩ := h.step hq
    rw [stringStep_plain hc] at h
    exact ih h
  | @escape c b hc _ ih =>
    obtain ⟨s', h⟩ := Quoted.step (v := c :: (b ++ tail)) (by decide) h
    rw [stringStep_escape hc] at h
    exact ih h
  | @unicode x y z t b _ ih =>
    obtain ⟨s', h⟩ := Quoted.step (v := 0x75 :: x :: y :: z :: t :: (b ++ tail)) (by decide) h
    rcases stringStep_window x y z t (b ++ tail) with hw | ⟨lo, hw⟩
    · rw [hw] at h
      exact ih h
    · obtain ⟨s'', h⟩ := Quoted.of_lowHalf hw h
      exact ih h
  | @short b hlt _ ih =>
    obtain ⟨s', h⟩ := Quoted.step (v := 0x75 :: (b ++ tail)) (by decide) h
    rw [stringStep_unfinished hlt] at h
    exact ih h
  | last htail =>
    subst htail
    exact Quoted.step (v := []) (by decide) h

/-- What the walker moves over in one step and what is divided behind it are divided together. -/
lemma Divided.of_step {c : UInt8} (hc : c ≠ quote) (hv : (stringStep c v).2 = b ++ tail)
    (hb : Divided tail b) : ∃ b', c :: v = b' ++ tail ∧ Divided tail b' := by
  by_cases hs : c = backslash
  swap
  · rw [stringStep_plain hs] at hv
    obtain rfl : v = b ++ tail := hv
    exact ⟨c :: b, rfl, .plain hc hs hb⟩
  subst hs
  cases v with
  | nil =>
    obtain ⟨rfl, rfl⟩ := List.append_eq_nil_iff.mp hv.symm
    exact ⟨[backslash], rfl, .last rfl⟩
  | cons n v =>
    by_cases hn : n = 0x75
    swap
    · rw [stringStep_escape hn] at hv
      obtain rfl : v = b ++ tail := hv
      exact ⟨backslash :: n :: b, rfl, .escape hn hb⟩
    subst hn
    rcases Nat.lt_or_ge v.length 4 with hlt | hge
    · rw [stringStep_unfinished hlt] at hv
      obtain rfl : v = b ++ tail := hv
      exact ⟨backslash :: 0x75 :: b, rfl, .short hlt hb⟩
    obtain ⟨x, y, z, t, w, rfl⟩ := exists_four hge
    rcases stringStep_window x y z t w with hw | ⟨lo, hw⟩
    · rw [hv] at hw
      exact ⟨_, by rw [← hw]; rfl, .unicode hb⟩
    · -- the low surrogate is divided by itself
      rw [hv] at hw
      obtain ⟨x', y', z', t', hw'⟩ := exists_of_lowHalf hw
      exact ⟨_, by rw [hw']; rfl, .unicode (.unicode hb)⟩

/-- The walker divides what it moves over. -/
lemma Quoted.divided (h : Quoted v s r) : ∃ b, v = b ++ quote :: r ∧ Divided (quote :: r) b := by
  induction h with
  | close => exact ⟨[], rfl, .nil⟩
  | item hc _ ih =>
    obtain ⟨b, hb, hd⟩ := ih
    exact Divided.of_step hc hb hd

/-- The walker comes to a quote, or it divides the whole text. -/
lemma quoted_or_divided (v : Bytes) : (∃ s r, Quoted v s r) ∨ Divided [] v := by
  induction hn : v.length using Nat.strong_induction_on generalizing v with
  | _ n ih =>
    cases v with
    | nil => exact .inr .nil
    | cons c v =>
      by_cases hc : c = quote
      · subst hc
        exact .inl ⟨_, _, .close⟩
      have hlt : (stringStep c v).2.length < n := by
        have hle := stringStep_length_le c v
        rw [List.length_cons] at hn
        omega
      rcases ih _ hlt _ rfl with ⟨s, r, h⟩ | h
      · exact .inl ⟨_, r, .item hc h⟩
      · have hv : (stringStep c v).2 = (stringStep c v).2 ++ [] := (List.append_nil _).symm
        obtain ⟨b, hb, hd⟩ := Divided.of_step hc hv h
        rw [hb, List.append_nil]
        exact .inr hd

/-- Wherever the walker ends it ends at the first quote that is not escaped if and only if the text
before this quote, or else the whole text, can be divided. -/
theorem firstQuote_iff (v : Bytes) :
    (∀ s r, Quoted v s r → ∃ b, FirstQuote v b r) ↔
      (∃ b r, FirstQuote v b r ∧ Divided (quote :: r) b) ∨ Divided [] v := by
  constructor
  · intro h
    rcases quoted_or_divided v with ⟨s, r, hq⟩ | hd
    · obtain ⟨b, hb⟩ := h s r hq
      obtain ⟨b', hb', hd⟩ := hq.divided
      obtain rfl : b' = b := List.append_cancel_right (hb'.symm.trans hb.eq)
      exact .inl ⟨b', r, hb, hd⟩
    · exact .inr hd
  · rintro (⟨b, r₀, hb, hd⟩ | hd) s r hq
    · rw [hb.eq] at hq
      obtain ⟨s', hq⟩ := Quoted.of_divided hd hq
      cases hq with
      | close => exact ⟨b, hb⟩
      | item hc _ => exact absurd rfl hc
    · rw [← List.append_nil v] at hq
      obtain ⟨s', hq⟩ := Quoted.of_divided hd hq
      cases hq

end JsonParser

end MongrelDB
