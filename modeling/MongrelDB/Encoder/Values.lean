import MongrelDB.Client.Serialize
import MongrelDB.Json.Compact
import MongrelDB.Json.Number
import MongrelDB.Json.Utf8

/-!
# What the serializer writes for values and cells

Each text the serializer appends is the rendering of a JSON value: `jsonEscape` writes a string
literal that decodes to the bytes it was given, and `%lld` an integer literal with the value that it
was given. Documents in the same spelling are put together of `named` members.
-/

namespace MongrelDB

open Text Json

/-! ### Strings -/

lemma hexVal_hexLower {n : Nat} (h : n < 16) : hexVal (hexLower n) = some n := by
  interval_cases n <;> decide

/-- A digit of `%04x`. -/
def lowerDigit (n : Nat) : HexDigit :=
  ⟨hexLower (n % 16), n % 16, hexVal_hexLower (Nat.mod_lt _ (by norm_num))⟩

def lowerHex (n : Nat) : Hex4 :=
  ⟨lowerDigit (n / 4096), lowerDigit (n / 256), lowerDigit (n / 16), lowerDigit n⟩

lemma lowerHex_unit {n : Nat} (h : n < 65536) : (lowerHex n).unit = n := by
  simp only [lowerHex, Hex4.unit, lowerDigit]
  omega

lemma isUnescaped_of {c : UInt8} (hq : c ≠ quote) (hb : c ≠ backslash) (hc : ¬c < 0x20) :
    isUnescaped c = true := by
  simp [isUnescaped, hq, hb, UInt8.not_lt.mp hc]

/-- The item of a string literal that `json_escape` writes for a byte. -/
def escapeItem (c : UInt8) : StrItem :=
  if c = quote then .short quote quote (by decide)
  else if c = backslash then .short backslash backslash (by decide)
  else if c = 0x08 then .short 0x62 0x08 (by decide)
  else if c = 0x0C then .short 0x66 0x0C (by decide)
  else if c = 0x0A then .short 0x6E 0x0A (by decide)
  else if c = 0x0D then .short 0x72 0x0D (by decide)
  else if c = 0x09 then .short 0x74 0x09 (by decide)
  else if h : isUnescaped c = true then .raw c h
  else .unicode (lowerHex c.toNat)

/-- The string literal that `json_escape` writes. -/
def escapeLit (s : Bytes) : StrLit := s.map escapeItem

lemma escapeItem_render (c : UInt8) : (escapeItem c).render = jsonEscapeChar c := by
  unfold escapeItem jsonEscapeChar
  split_ifs with hq hb _ _ _ _ _ hu hc hc
  · rfl
  · rfl
  · rfl
  · rfl
  · rfl
  · rfl
  · rfl
  · -- a byte that needs no escape is no control byte
    simp only [isUnescaped, Bool.and_eq_true, decide_eq_true_eq] at hu
    exact absurd hc (UInt8.not_lt.mpr hu.1.1)
  · rfl
  · rfl
  · exact absurd (isUnescaped_of hq hb hc) hu

lemma escapeLit_decode (s : Bytes) : (escapeLit s).decode = s := by
  induction s with
  | nil => exact StrLit.decode_nil
  | cons c s ih =>
    rw [escapeLit, List.map_cons, ← escapeLit, escapeItem]
    split_ifs with hq hb h₁ h₂ h₃ h₄ h₅ hu
    · rw [StrLit.decode_short, ih, hq]
    · rw [StrLit.decode_short, ih, hb]
    · rw [StrLit.decode_short, ih, h₁]
    · rw [StrLit.decode_short, ih, h₂]
    · rw [StrLit.decode_short, ih, h₃]
    · rw [StrLit.decode_short, ih, h₄]
    · rw [StrLit.decode_short, ih, h₅]
    · rw [StrLit.decode_raw, ih]
    · have hc : c < 0x20 := by
        by_contra hc
        exact hu (isUnescaped_of hq hb hc)
      have hlt : c.toNat < 32 := UInt8.lt_iff_toNat_lt.mp hc
      have hunit : (lowerHex c.toNat).unit = c.toNat := lowerHex_unit (by omega)
      rw [StrLit.decode_unicode (by simp [isHighSurrogate, hunit]; omega)
        (by simp [isLowSurrogate, hunit]; omega), hunit,
        utf8_of_ascii (UInt8.lt_trans hc (by decide)), ih]
      rfl

theorem escapeLit_render (s : Bytes) : (escapeLit s).render = jsonEscape s := by
  have hbody : (escapeLit s).body = s.flatMap jsonEscapeChar := by
    rw [escapeLit, StrLit.body, List.flatMap_map]
    simp only [escapeItem_render]
  rw [StrLit.render, jsonEscape, hbody]

/-! ### Numbers -/

/-- The literal that `%lld` prints. -/
def intLit (i : Int) : NumLit where
  neg := decide (i < 0)
  int := ⟨decimal i.natAbs, decimal_ne_nil _, fun _ => isDigit_of_mem_decimal⟩
  noLeadingZero _ := decimal_head_zero
  frac := none
  exp := none

lemma intLit_render (i : Int) : (intLit i).render = decimalInt i := by
  rw [NumLit.render_of_isInt rfl, decimalInt]
  by_cases h : i < 0 <;> simp [intLit, h]

lemma intLit_intValue (i : Int) : (intLit i).intValue = i := by
  rw [NumLit.intValue, show (intLit i).int.text = decimal i.natAbs from rfl, readNat_decimal]
  by_cases h : i < 0
  · rw [if_pos (by simp [intLit, h])]
    omega
  · rw [if_neg (by simp [intLit, h])]
    omega

/-! ### Documents -/

def strOf (s : String) : Cst := .str (escapeLit (ascii s))

def intOf (i : Int) : Cst := .num (intLit i)

/-- A member of an object, without white space. -/
def named (name : String) (v : Cst) : StrLit × Doc := (escapeLit (ascii name), v.toDoc)

lemma lookup_named {m : StrLit × Doc} {l : List (StrLit × Doc)} {name : String} {v : Cst}
    (hd : (Obj.members (membersOf m l)).distinct = true) (h : named name v ∈ m :: l) :
    (Obj.members (membersOf m l)).lookup (ascii name) = some v := by
  apply Obj.lookup_of_mem hd
  change _ ∈ (membersOf m l).toList
  rw [toList_membersOf]
  refine List.mem_map.mpr ⟨_, h, ?_⟩
  rw [named, escapeLit_decode]
  rfl

end MongrelDB
