import Mathlib.Tactic.Common
import Mathlib.Data.List.TakeWhile

/-!
# Byte strings

Byte strings as lists, the classes of ASCII characters that text formats are built from, and the
maximal runs of such a class. A run that is followed by something of another class is taken as a
whole and not a byte further: `takeWhile_run` and `dropWhile_run` are what every tokenizer needs.
A C string is the run in front of the first NUL.
-/

namespace Text

abbrev Bytes := List UInt8

/-- The bytes of an ASCII literal. -/
def ascii (s : String) : Bytes := s.toList.map fun c => c.toNat.toUInt8

/-! ### Characters -/

@[simp] abbrev quote : UInt8 := 0x22
@[simp] abbrev plus : UInt8 := 0x2B
@[simp] abbrev comma : UInt8 := 0x2C
@[simp] abbrev minus : UInt8 := 0x2D
@[simp] abbrev dot : UInt8 := 0x2E
@[simp] abbrev slash : UInt8 := 0x2F
@[simp] abbrev zero : UInt8 := 0x30
@[simp] abbrev colon : UInt8 := 0x3A
@[simp] abbrev lbracket : UInt8 := 0x5B
@[simp] abbrev backslash : UInt8 := 0x5C
@[simp] abbrev rbracket : UInt8 := 0x5D
@[simp] abbrev lbrace : UInt8 := 0x7B
@[simp] abbrev rbrace : UInt8 := 0x7D

def isSpace (c : UInt8) : Bool := c == 0x20 || c == 0x09 || c == 0x0A || c == 0x0D

def isDigit (c : UInt8) : Bool := 0x30 ≤ c && c ≤ 0x39

def isLower (c : UInt8) : Bool := 0x61 ≤ c && c ≤ 0x7A

def isUpper (c : UInt8) : Bool := 0x41 ≤ c && c ≤ 0x5A

def isLetter (c : UInt8) : Bool := isLower c || isUpper c

/-- The value of a hexadecimal digit of either case. -/
def hexVal (c : UInt8) : Option Nat :=
  if isDigit c then some (c.toNat - 0x30)
  else if 0x61 ≤ c && c ≤ 0x66 then some (c.toNat - 0x61 + 10)
  else if 0x41 ≤ c && c ≤ 0x46 then some (c.toNat - 0x41 + 10)
  else none

lemma hexVal_lt {c : UInt8} {d : Nat} (h : hexVal c = some d) : d < 16 := by
  unfold hexVal isDigit at h
  split_ifs at h with h₁ h₂ h₃ <;> simp only [Option.some.injEq, Bool.and_eq_true,
    decide_eq_true_eq, UInt8.le_iff_toNat_le, UInt8.reduceToNat] at * <;> omega

/-! ### Maximal runs -/

/-- `r` does not go on with a character of the class `p`. -/
def Stops (p : UInt8 → Bool) (r : Bytes) : Prop := ∀ c ∈ r.head?, p c = false

@[simp] lemma stops_nil (p : UInt8 → Bool) : Stops p [] := by simp [Stops]

@[simp] lemma stops_cons {p : UInt8 → Bool} {c : UInt8} {r : Bytes} :
    Stops p (c :: r) ↔ p c = false := by simp [Stops]

lemma stops_dropWhile (p : UInt8 → Bool) (b : Bytes) : Stops p (b.dropWhile p) := by
  induction b with
  | nil => simp
  | cons c b ih =>
    by_cases hc : p c
    · rwa [List.dropWhile_cons_of_pos hc]
    · rw [List.dropWhile_cons_of_neg hc]
      simpa using hc

lemma takeWhile_eq_nil {p : UInt8 → Bool} {r : Bytes} (hr : Stops p r) : r.takeWhile p = [] := by
  cases r with
  | nil => rfl
  | cons c r => simp [stops_cons.mp hr]

lemma dropWhile_eq_self {p : UInt8 → Bool} {r : Bytes} (hr : Stops p r) : r.dropWhile p = r := by
  cases r with
  | nil => rfl
  | cons c r => simp [stops_cons.mp hr]

lemma takeWhile_run {p : UInt8 → Bool} {t r : Bytes} (ht : ∀ c ∈ t, p c = true)
    (hr : Stops p r) : (t ++ r).takeWhile p = t := by
  rw [List.takeWhile_append_of_pos ht, takeWhile_eq_nil hr, List.append_nil]

lemma dropWhile_run {p : UInt8 → Bool} {t r : Bytes} (ht : ∀ c ∈ t, p c = true)
    (hr : Stops p r) : (t ++ r).dropWhile p = r := by
  rw [List.dropWhile_append_of_pos ht, dropWhile_eq_self hr]

/-! ### C strings -/

/-- A string that is passed as a pointer ends at its first NUL. -/
def cstr (s : Bytes) : Bytes := s.takeWhile (· != 0)

/-- What a text begins with is seen in its C string too. -/
lemma isPrefixOf_cstr {pre : Bytes} (h : ∀ c ∈ pre, c ≠ 0) (s : Bytes) :
    pre.isPrefixOf (cstr s) = pre.isPrefixOf s := by
  induction pre generalizing s with
  | nil => rfl
  | cons c pre ih =>
    obtain ⟨hc, hpre⟩ := List.forall_mem_cons.mp h
    cases s with
    | nil => rfl
    | cons d s =>
      by_cases hd : d = 0
      · simp [cstr, List.isPrefixOf, hd, hc]
      · have hcons : cstr (d :: s) = d :: cstr s := List.takeWhile_cons_of_pos (by simpa using hd)
        rw [hcons, List.isPrefixOf, List.isPrefixOf, ih hpre]

end Text
