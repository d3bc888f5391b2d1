import MongrelDB.Json.Value

/-!
# Strings in UTF-8

A string whose raw bytes are well-formed UTF-8 between its escapes stands for well-formed UTF-8.
This is the case for every string that is well-formed UTF-8 as it is written, since escapes consist
of ASCII characters.
-/

namespace Json

open Text

/-- The encoding of some characters. -/
def WellFormedUtf8 (b : Bytes) : Prop := ∃ cs : List Char, b = cs.flatMap String.utf8EncodeChar

variable {a b : Bytes} {c : UInt8}

lemma wellFormedUtf8_nil : WellFormedUtf8 [] := ⟨[], rfl⟩

lemma WellFormedUtf8.append (ha : WellFormedUtf8 a) (hb : WellFormedUtf8 b) :
    WellFormedUtf8 (a ++ b) := by
  obtain ⟨cs, rfl⟩ := ha
  obtain ⟨ds, rfl⟩ := hb
  exact ⟨cs ++ ds, List.flatMap_append.symm⟩

lemma wellFormedUtf8_utf8 (cp : Nat) : WellFormedUtf8 (utf8 cp) :=
  ⟨[Char.ofNat cp], by simp [utf8]⟩

lemma utf8_of_ascii (hc : c < 0x80) : utf8 c.toNat = [c] := by
  have hall : ∀ n < 128, utf8 n = [UInt8.ofNat n] := by decide
  have hlt : c.toNat < 128 := UInt8.lt_iff_toNat_lt.mp hc
  rw [hall _ hlt, UInt8.ofNat_toNat]

lemma wellFormedUtf8_singleton (hc : c < 0x80) : WellFormedUtf8 [c] := by
  rw [← utf8_of_ascii hc]
  exact wellFormedUtf8_utf8 _

/-- A byte of an encoding of more than one byte is no ASCII character. -/
lemma eq_singleton_of_mem_utf8EncodeChar {ch : Char} (hc : c < 0x80)
    (h : c ∈ String.utf8EncodeChar ch) : String.utf8EncodeChar ch = [c] := by
  have hge : ∀ x y : UInt8, 0x80 ≤ y → ¬x ||| y < 0x80 := by
    intro x y hy hlt
    have hle : y.toNat ≤ (x ||| y).toNat := by
      rw [UInt8.toNat_or]
      exact Nat.right_le_or
    rw [UInt8.le_iff_toNat_le] at hy
    rw [UInt8.lt_iff_toNat_lt] at hlt
    omega
  rcases ch.utf8Size_eq with hs | hs | hs | hs
  · rw [String.utf8EncodeChar_eq_singleton hs] at h ⊢
    rw [List.mem_singleton.mp h]
  all_goals exfalso
  · rw [String.utf8EncodeChar_eq_cons_cons hs] at h
    simp only [List.mem_cons, List.not_mem_nil, or_false] at h
    rcases h with rfl | rfl <;> exact hge _ _ (by decide) hc
  · rw [String.utf8EncodeChar_eq_cons_cons_cons hs] at h
    simp only [List.mem_cons, List.not_mem_nil, or_false] at h
    rcases h with rfl | rfl | rfl <;> exact hge _ _ (by decide) hc
  · rw [String.utf8EncodeChar_eq_cons_cons_cons_cons hs] at h
    simp only [List.mem_cons, List.not_mem_nil, or_false] at h
    rcases h with rfl | rfl | rfl | rfl <;> exact hge _ _ (by decide) hc

/-- Well-formed text can be cut at an ASCII character. -/
lemma WellFormedUtf8.of_append_cons (hc : c < 0x80) (h : WellFormedUtf8 (a ++ c :: b)) :
    WellFormedUtf8 a ∧ WellFormedUtf8 b := by
  obtain ⟨cs, h⟩ := h
  induction cs generalizing a with
  | nil => simp at h
  | cons ch cs ih =>
    rw [List.flatMap_cons] at h
    rcases List.append_eq_append_iff.mp h with ⟨d, hd, hrest⟩ | ⟨d, hd, hrest⟩
    · -- the byte is one of this character, or the first after it
      cases d with
      | nil =>
        rw [List.append_nil] at hd
        obtain ⟨-, hb⟩ := ih (a := []) hrest
        exact ⟨⟨[ch], by simp [hd]⟩, hb⟩
      | cons c' d =>
        obtain ⟨rfl, rfl⟩ := List.cons.inj hrest
        have hmem : c ∈ String.utf8EncodeChar ch := by simp [hd]
        have hone := eq_singleton_of_mem_utf8EncodeChar hc hmem
        rw [hone] at hd
        cases a with
        | nil =>
          obtain rfl : d = [] := by simpa using hd.symm
          exact ⟨wellFormedUtf8_nil, cs, rfl⟩
        | cons x a => simp at hd
    · obtain ⟨ha, hb⟩ := ih hrest.symm
      rw [hd]
      exact ⟨.append ⟨[ch], by simp⟩ ha, hb⟩

/-! ### Raw bytes -/

/-- The runs of raw bytes between escapes, the first of them after the bytes `run`. -/
def rawRuns : StrLit → Bytes → List Bytes
  | [], run => [run]
  | .raw c _ :: s, run => rawRuns s (run ++ [c])
  | .short _ _ _ :: s, run => run :: rawRuns s []
  | .unicode _ :: s, run => run :: rawRuns s []

/-- A string whose runs of raw bytes are well-formed UTF-8 stands for well-formed UTF-8. -/
theorem StrLit.wellFormedUtf8_decode {s : StrLit} {run : Bytes}
    (h : ∀ raw ∈ rawRuns s run, WellFormedUtf8 raw) : WellFormedUtf8 (run ++ s.decode) := by
  have hshort : ∀ {x y : UInt8}, shortEscape x = some y → WellFormedUtf8 [y] := by
    intro x y hxy
    apply wellFormedUtf8_singleton
    unfold shortEscape at hxy
    split_ifs at hxy <;> cases hxy <;> decide
  fun_induction StrLit.decode s generalizing run with
  | case1 => simpa [rawRuns] using h
  | case2 c hc s ih =>
    rw [← List.singleton_append, ← List.append_assoc]
    exact ih h
  | case3 c v hc s ih =>
    obtain ⟨hrun, h⟩ := List.forall_mem_cons.mp h
    exact .append hrun (.append (hshort hc) (ih h))
  | case4 x hx y s hy _ ih =>
    obtain ⟨hrun, h⟩ := List.forall_mem_cons.mp h
    obtain ⟨-, h⟩ := List.forall_mem_cons.mp h
    exact .append hrun (.append (wellFormedUtf8_utf8 _) (ih h))
  | case5 | case6 | case7 | case8 =>
    rename_i ih
    obtain ⟨hrun, h⟩ := List.forall_mem_cons.mp h
    exact .append hrun (.append (wellFormedUtf8_utf8 _) (ih h))

lemma ascii_of_hexVal {d : Nat} (h : hexVal c = some d) : c < 0x80 := by
  unfold hexVal isDigit at h
  rw [UInt8.lt_iff_toNat_lt]
  split_ifs at h with h₁ h₂ h₃ <;>
    simp only [Bool.and_eq_true, decide_eq_true_eq, UInt8.le_iff_toNat_le,
      UInt8.reduceToNat] at * <;>
    omega

/-- The runs of raw bytes of a well-formed text are well-formed. -/
lemma WellFormedUtf8.rawRuns {s : StrLit} {run : Bytes} (h : WellFormedUtf8 (run ++ s.body)) :
    ∀ raw ∈ rawRuns s run, WellFormedUtf8 raw := by
  induction s generalizing run with
  | nil => simpa [Json.rawRuns] using h
  | cons i s ih =>
    rw [StrLit.body_cons] at h
    cases i with
    | raw c hc =>
      rw [← List.append_assoc] at h
      exact ih h
    | short c v hc =>
      obtain ⟨hrun, h⟩ := of_append_cons (b := c :: StrLit.body s) (by decide) h
      have hascii : c < 0x80 := by
        unfold shortEscape at hc
        split_ifs at hc <;> subst_vars <;> decide
      obtain ⟨-, h⟩ := of_append_cons (a := []) hascii h
      exact List.forall_mem_cons.mpr ⟨hrun, ih h⟩
    | unicode x =>
      obtain ⟨hrun, h⟩ := of_append_cons (b := 0x75 :: (x.text ++ StrLit.body s)) (by decide) h
      obtain ⟨-, h⟩ := of_append_cons (a := []) (by decide) h
      obtain ⟨-, h⟩ := of_append_cons (a := []) (ascii_of_hexVal (HexDigit.isHex _)) h
      obtain ⟨-, h⟩ := of_append_cons (a := []) (ascii_of_hexVal (HexDigit.isHex _)) h
      obtain ⟨-, h⟩ := of_append_cons (a := []) (ascii_of_hexVal (HexDigit.isHex _)) h
      obtain ⟨-, h⟩ := of_append_cons (a := []) (ascii_of_hexVal (HexDigit.isHex _)) h
      exact List.forall_mem_cons.mpr ⟨hrun, ih h⟩

end Json
