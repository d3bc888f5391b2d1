import MongrelDB.Contract.Malformed
import MongrelDB.Contract.Query
import MongrelDB.Contract.StatusFields

/-!
# Integers that arrive as they were sent

The integer literals of a response have no bound, and `int64` has one. The decoder of a query reads
a column id or a value that is too large as the nearest end of the range and does not refuse it, so
the integers of a response are kept exactly where all of them fit. Of the extractors, `get_int` goes
through a double and `get_uint64` saturates, and neither says that a literal is out of range.
-/

namespace MongrelDB

open Text Traced Prog Json JsonParser

def FitsInt64 (i : Int) : Prop := -2 ^ 63 ≤ i ∧ i < 2 ^ 63

lemma fitsInt64_toInt (i : Int64) : FitsInt64 i.toInt := ⟨Int64.le_toInt i, Int64.toInt_lt i⟩

/-- Saturation changes what does not fit, and nothing else. -/
lemma toInt_ofIntClamp_iff {i : Int} : (Int64.ofIntClamp i).toInt = i ↔ FitsInt64 i := by
  constructor
  · intro h
    rw [← h]
    exact fitsInt64_toInt _
  · rintro ⟨hlo, hhi⟩
    exact Int64.toInt_ofIntClamp hlo (Int.le_sub_one_of_lt hhi)

/-! ### Cells -/

/-- A column id that is an integer literal is decoded to its value. -/
def IdKept (n : NumLit) (i : Int64) : Prop := n.isInt = true → i.toInt = n.intValue

def IdFits (n : NumLit) : Prop := n.isInt = true → FitsInt64 n.intValue

/-- A cell value that is an integer literal is decoded to an integer, and to its value. -/
def ValueKept (v : Cst) (a : Value) : Prop :=
  ∀ n, v = .num n → n.isInt = true → ∃ i, a = .int64 i ∧ i.toInt = n.intValue

lemma idKept_readCell (p : NumLit × Cst) : IdKept p.1 (readCell p).columnId ↔ IdFits p.1 := by
  refine ⟨fun h hi => ?_, fun h hi => ?_⟩
  · rw [← toInt_ofIntClamp_iff, ← strtoll_of_isInt hi]
    exact h hi
  · rw [readCell, strtoll_of_isInt hi]
    exact toInt_ofIntClamp_iff.mpr (h hi)

lemma valueKept_readCell (p : NumLit × Cst) : ValueKept p.2 (readCell p).value ↔ InInt64 p.2 := by
  obtain ⟨m, v⟩ := p
  have hval : ∀ n, v = .num n → n.isInt = true →
      (readCell (m, v)).value = .int64 (Int64.ofIntClamp n.intValue) := by
    rintro n rfl hi
    rw [readCell, clampedValue, if_pos hi]
  refine ⟨fun h n hn hi => ?_, fun h n hn hi => ?_⟩
  · obtain ⟨i, ha, hint⟩ := h n hn hi
    rw [hval n hn hi] at ha
    cases ha
    exact toInt_ofIntClamp_iff.mp hint
  · exact ⟨_, hval n hn hi, toInt_ofIntClamp_iff.mpr (h n hn hi)⟩

def CellKept (p : NumLit × Cst) (c : Cell) : Prop :=
  IdKept p.1 c.columnId ∧ ValueKept p.2 c.value

/-- The response is refused, or each of its rows is decoded to cells that have its integers. -/
def IntegersKept (d : ObjDoc) : Prop :=
  Refuses (decodeQuery d.render) ∨ ∃ res pss, (decodeQuery d.render).out = .ok res ∧
    responsePairs d.obj = some pss ∧ List.Forall₂ (List.Forall₂ CellKept) pss res.rows

/-- Every integer literal that is a column id or a value of a row is one of the type. -/
def IntegersFit (o : Obj) : Prop :=
  ∀ pss, responsePairs o = some pss → ∀ ps ∈ pss, ∀ p ∈ ps, IdFits p.1 ∧ InInt64 p.2

/-- What holds of all cells that are read holds of the decoded rows. -/
lemma forall₂_readCell {P : NumLit × Cst → Cell → Prop} (pss : List (List (NumLit × Cst))) :
    List.Forall₂ (List.Forall₂ P) pss (pss.map (List.map readCell)) ↔
      ∀ ps ∈ pss, ∀ p ∈ ps, P p (readCell p) := by
  simp only [List.forall₂_map_right_iff, List.forall₂_same]

lemma exists_out_of_pairs {d : ObjDoc} {pss : List (List (NumLit × Cst))}
    (h : responsePairs d.obj = some pss) :
    ∃ flag, (decodeQuery d.render).out = .ok ⟨pss.map (List.map readCell), flag⟩ := by
  obtain ⟨flag, hout⟩ := exists_out_decodeQuery d.render
  rw [(out_decodeRows_object d _).mpr ⟨pss, h, rfl⟩] at hout
  exact ⟨flag, hout⟩

lemma refuses_of_pairs {d : ObjDoc} (h : responsePairs d.obj = none) :
    Refuses (decodeQuery d.render) := by
  obtain ⟨flag, hout⟩ := exists_out_decodeQuery d.render
  apply (refuses_iff safeCall_decodeQuery).mpr
  intro res hres
  cases ho : (walk d.render decodeRows).out with
  | ok rows =>
    obtain ⟨pss, hpss, -⟩ := (out_decodeRows_object d rows).mp ho
    rw [h] at hpss
    cases hpss
  | error e =>
    rw [hout, ho] at hres
    cases hres

/-- A response with rows of cells is not refused, and its integers are kept where they fit. -/
lemma integersKept_of_pairs {d : ObjDoc} {pss : List (List (NumLit × Cst))}
    (h : responsePairs d.obj = some pss) :
    IntegersKept d ↔ ∀ ps ∈ pss, ∀ p ∈ ps, IdFits p.1 ∧ InInt64 p.2 := by
  obtain ⟨flag, hout⟩ := exists_out_of_pairs h
  have hcells : List.Forall₂ (List.Forall₂ CellKept) pss (pss.map (List.map readCell)) ↔
      ∀ ps ∈ pss, ∀ p ∈ ps, IdFits p.1 ∧ InInt64 p.2 := by
    simp only [forall₂_readCell, CellKept, idKept_readCell, valueKept_readCell]
  rw [← hcells]
  constructor
  · rintro (⟨what, hthrown⟩ | ⟨res, pss', hres, hpss', hkept⟩)
    · rw [hout] at hthrown
      cases hthrown
    · obtain rfl := Option.some.inj (h.symm.trans hpss')
      rw [hout] at hres
      cases hres
      exact hkept
  · intro hkept
    exact .inr ⟨_, pss, hout, h, hkept⟩

/-- The integers of any object are kept, or the object is refused, exactly where they all fit; and
of the integers of a response that is not refused exactly those are kept that fit. -/
theorem integersKept_iff (d : ObjDoc) : (IntegersKept d ↔ IntegersFit d.obj) ∧
    ∀ pss, responsePairs d.obj = some pss → ∃ res, (decodeQuery d.render).out = .ok res ∧
      List.Forall₂ (List.Forall₂ fun p c => (IdKept p.1 c.columnId ↔ IdFits p.1) ∧
        (ValueKept p.2 c.value ↔ InInt64 p.2)) pss res.rows := by
  constructor
  · cases h : responsePairs d.obj with
    | none =>
      refine ⟨fun _ pss hpss => ?_, fun _ => .inl (refuses_of_pairs h)⟩
      rw [h] at hpss
      cases hpss
    | some pss =>
      rw [integersKept_of_pairs h, IntegersFit, h]
      simp only [Option.some.injEq, forall_eq']
  · intro pss h
    obtain ⟨flag, hout⟩ := exists_out_of_pairs h
    refine ⟨_, hout, (forall₂_readCell pss).mpr fun ps _ p _ => ?_⟩
    exact ⟨idKept_readCell p, valueKept_readCell p⟩

/-- One row with one cell, whose value is one more than the largest integer of the type. -/
def wideResponse : ObjDoc :=
  let cells := arrayOf [(Cst.num (intLit 1)).toDoc, (Cst.num (intLit (2 ^ 63))).toDoc]
  let row := objectOf [(escapeLit (ascii "cells"), cells.toDoc)]
  ⟨Ws.none, .members (membersOf (escapeLit (ascii "rows"), (arrayOf [row.toDoc]).toDoc) []),
    Ws.none⟩

theorem integersKept_wide :
    wideResponse.render = ascii "\x7b\"rows\":[\x7b\"cells\":[1,9223372036854775808]\x7d]\x7d" ∧
      (decodeQuery wideResponse.render).out = .ok ⟨[[⟨1, .int64 9223372036854775807⟩]], false⟩ ∧
        ¬IntegersKept wideResponse := by
  refine ⟨by decide +kernel, by decide +kernel, fun h => ?_⟩
  have hpairs : responsePairs wideResponse.obj =
      some [[(intLit 1, .num (intLit (2 ^ 63)))]] := rfl
  have hfits := (integersKept_of_pairs hpairs).mp h _ List.mem_cons_self _ List.mem_cons_self
  have hlt := (hfits.2 _ rfl rfl).2
  rw [intLit_intValue] at hlt
  exact absurd hlt (lt_irrefl _)

/-! ### Extractors -/

/-- The members of that name are this value. -/
def HoldsOnly (o : Obj) (key : Bytes) (v : Cst) : Prop := ∀ w, (key, w) ∈ o.toList ↔ w = v

lemma HoldsOnly.first_eq {o : Obj} {key : Bytes} {v : Cst} (h : HoldsOnly o key v) {γ : Type}
    (sel : Cst → Option γ) : o.first sel key = sel v := by
  have hmem : (key, v) ∈ o.toList := (h v).mpr rfl
  cases hfirst : o.first sel key with
  | none =>
    have hnone := List.findSome?_eq_none_iff.mp hfirst (key, v) hmem
    rw [if_pos (beq_self_eq_true key)] at hnone
    exact hnone.symm
  | some g =>
    obtain ⟨⟨k, w⟩, hw, hsel⟩ := List.exists_of_findSome?_eq_some hfirst
    obtain ⟨hk, hg⟩ := Option.ite_none_right_eq_some.mp hsel
    obtain rfl : k = key := by simpa using hk
    rw [← (h w).mp hw]
    exact hg.symm

lemma HoldsOnly.isEmpty_eq {o : Obj} {key : Bytes} {v : Cst} (h : HoldsOnly o key v) :
    o.isEmpty = false := by
  cases o with
  | empty w => cases (h v).mpr rfl
  | members ms => rfl

/-- `get_int` finds the integer if it is one of the type, and nothing otherwise. -/
def GetIntExact (d : ObjDoc) (key : Bytes) (i : Int) : Prop :=
  ∀ plat out, ∃ found out', (getInt plat d.render key out).out = .ok (found, out') ∧
    (found = true ↔ FitsInt64 i) ∧ (FitsInt64 i → out'.toInt = i)

/-- `get_int` casts no double outside the range of the type. -/
def CastFits (d : ObjDoc) (key : Bytes) : Prop :=
  ∀ x, (getNumber d.render key ⟨0⟩).out = .ok (true, x) → x.isFinite = true ∧ FitsInt64 x.trunc

/-- `get_uint64` finds the integer if it is one of the type, and nothing otherwise. -/
def GetUint64Exact (d : ObjDoc) (key : Bytes) (i : Int) : Prop :=
  ∀ out, ∃ found out', (getUint64 d.render key out).out = .ok (found, out') ∧
    (found = true ↔ 0 ≤ i ∧ i < 2 ^ 64) ∧ (0 ≤ i ∧ i < 2 ^ 64 → (out'.toNat : Int) = i)

/-- On what is an integer of both types the two extractors find the same number. -/
def GettersAgree (d : ObjDoc) (key : Bytes) (i : Int) : Prop :=
  0 ≤ i ∧ i < 2 ^ 63 → ∀ plat out out', ∃ a b, (getInt plat d.render key out).out = .ok (true, a) ∧
    (getUint64 d.render key out').out = .ok (true, b) ∧ a.toInt = b.toNat

section Extractors

variable {d : ObjDoc} {key : Bytes} {n : NumLit} (h : HoldsOnly d.obj key (.num n))
include h

lemma getNumber_of_holdsOnly (out : Binary64) :
    (getNumber d.render key out).out = .ok (true, n.toBinary64) := by
  rw [getNumber_first, h.first_eq]
  rfl

lemma getInt_of_holdsOnly (plat : Platform) (out : Int64) :
    (getInt plat d.render key out).out = .ok (true, castInt64 plat n.toBinary64) := by
  rw [getInt, Run.out_bind_ok (getNumber_of_holdsOnly h _)]
  rfl

/-- A sign is passed over, and what stands there is reported as found. -/
lemma getUint64_of_holdsOnly (hi : n.isInt = true) (out : UInt64) :
    (getUint64 d.render key out).out = .ok (true, if n.neg then out
      else if 2 ^ 64 ≤ readNat n.int.text then -1 else UInt64.ofNat (readNat n.int.text)) := by
  have hsel : (Cst.num n).asUnsigned = if n.neg then none else some n := by
    rw [Cst.asUnsigned, Cst.asNum, Option.filter_some]
    cases n.neg <;> rfl
  rw [getUint64_first, h.first_eq, h.isEmpty_eq, hsel]
  cases n.neg with
  | true => rfl
  | false => simp only [Bool.false_eq_true, if_false, uint64Answer, hi, if_true]

lemma getIntExact_iff (hi : n.isInt = true) : GetIntExact d key n.intValue ↔
    FitsInt64 n.intValue ∧ Binary64.Representable n.intValue.natAbs := by
  have hval := NumLit.value_of_isInt hi
  have hcast := castInt64_eq_value_iff n
  simp only [hval, Int.cast_inj, exists_eq_left'] at hcast
  constructor
  · intro hexact
    have hfits : FitsInt64 n.intValue := by
      obtain ⟨found, out, ho, hfound, -⟩ := hexact (wildPlatform 0) 0
      rw [getInt_of_holdsOnly h] at ho
      cases ho
      exact hfound.mp rfl
    refine ⟨hfits, (hcast.mp fun plat => ?_).2.2⟩
    obtain ⟨found, out, ho, -, hout⟩ := hexact plat 0
    rw [getInt_of_holdsOnly h] at ho
    cases ho
    exact hout hfits
  · rintro ⟨hfits, hr⟩ plat out
    refine ⟨true, castInt64 plat n.toBinary64, getInt_of_holdsOnly h plat out, by simp [hfits], ?_⟩
    exact fun _ => hcast.mpr ⟨hfits.1, hfits.2, hr⟩ plat

lemma castFits_of_exact (hi : n.isInt = true) (hfits : FitsInt64 n.intValue)
    (hr : Binary64.Representable n.intValue.natAbs) : CastFits d key := by
  intro x hx
  rw [getNumber_of_holdsOnly h] at hx
  cases hx
  obtain ⟨hlo, hhi⟩ := hfits
  obtain ⟨hf, ht⟩ := NumLit.trunc_toBinary64_of_lt (NumLit.value_of_isInt hi) hr (by omega)
  rw [ht]
  exact ⟨hf, hlo, hhi⟩

lemma getUint64Exact_iff (hi : n.isInt = true) : GetUint64Exact d key n.intValue ↔
    n.neg = false ∧ n.intValue < 2 ^ 64 := by
  rw [GetUint64Exact]
  simp only [getUint64_of_holdsOnly h hi]
  cases hn : n.neg with
  | true =>
    have hle : n.intValue ≤ 0 := by
      rw [NumLit.intValue, if_pos hn]
      omega
    refine ⟨fun hexact => ?_, fun h => absurd h.1 (by decide)⟩
    -- a minus sign and a zero leave the output as it was
    obtain ⟨found, out, ho, hfound, hout⟩ := hexact 1
    cases ho
    have hrange := hfound.mp rfl
    have hone : (1 : Int) = n.intValue := hout hrange
    omega
  | false =>
    have hval : n.intValue = readNat n.int.text := by
      rw [NumLit.intValue, if_neg (by simp [hn])]
    rw [hval]
    constructor
    · intro hexact
      obtain ⟨found, out, ho, hfound, -⟩ := hexact 0
      cases ho
      exact ⟨rfl, (hfound.mp rfl).2⟩
    · rintro ⟨-, hlt⟩ out
      have hlt' : readNat n.int.text < 2 ^ 64 := by exact_mod_cast hlt
      have hrange : (0 : Int) ≤ readNat n.int.text ∧ (readNat n.int.text : Int) < 2 ^ 64 :=
        ⟨Int.natCast_nonneg _, hlt⟩
      refine ⟨true, UInt64.ofNat (readNat n.int.text), ?_, ⟨fun _ => hrange, fun _ => rfl⟩,
        fun _ => ?_⟩
      · rw [if_neg (by simp), if_neg (Nat.not_le.mpr hlt')]
      · rw [UInt64.toNat_ofNat_of_lt' hlt']

lemma gettersAgree_iff (hi : n.isInt = true) : GettersAgree d key n.intValue ↔
    (0 ≤ n.intValue ∧ n.intValue < 2 ^ 63 →
      n.neg = false ∧ Binary64.Representable n.intValue.natAbs) := by
  refine ⟨fun hagree hrange => ?_, fun hr hrange plat out out' => ?_⟩
  · have hfits : FitsInt64 n.intValue := ⟨by omega, hrange.2⟩
    have hneg : n.neg = false := by
      cases hn : n.neg with
      | false => rfl
      | true =>
        -- what `get_uint64` returns is then whatever it was given
        have hout : ∀ out', (castInt64 (wildPlatform 0) n.toBinary64).toInt =
            UInt64.toNat out' := by
          intro out'
          obtain ⟨a, b, ha, hb, hab⟩ := hagree hrange (wildPlatform 0) 0 out'
          rw [getInt_of_holdsOnly h] at ha
          rw [getUint64_of_holdsOnly h hi, if_pos hn] at hb
          cases ha
          cases hb
          exact hab
        exact absurd ((hout 0).symm.trans (hout 1)) (by decide)
    obtain ⟨-, hlt⟩ : n.neg = false ∧ n.intValue < 2 ^ 64 := ⟨hneg, by omega⟩
    refine ⟨hneg, ((getIntExact_iff h hi).mp fun plat out => ?_).2⟩
    obtain ⟨a, b, ha, hb, hab⟩ := hagree hrange plat out 0
    obtain ⟨found, c, hc, -, hval⟩ := (getUint64Exact_iff h hi).mpr ⟨hneg, hlt⟩ 0
    rw [hb] at hc
    cases hc
    exact ⟨true, a, ha, by simp [hfits], fun _ => by rw [hab, hval ⟨hrange.1, hlt⟩]⟩
  · obtain ⟨hneg, hr⟩ := hr hrange
    have hfits : FitsInt64 n.intValue := ⟨by omega, hrange.2⟩
    have hlt : n.intValue < 2 ^ 64 := by omega
    obtain ⟨found, a, ha, hfound, hint⟩ := (getIntExact_iff h hi).mpr ⟨hfits, hr⟩ plat out
    obtain ⟨found', b, hb, hfound', hnat⟩ := (getUint64Exact_iff h hi).mpr ⟨hneg, hlt⟩ out'
    rw [hfound.mpr hfits] at ha
    rw [hfound'.mpr ⟨hrange.1, hlt⟩] at hb
    exact ⟨a, b, ha, hb, by rw [hint hfits, hnat ⟨hrange.1, hlt⟩]⟩

/-- Each of the extractors is exact on the integers that it can hold on its way, and both are exact,
agree and cast within the range exactly where there is no sign and no more than 53 bits count. -/
theorem extractors_exact_iff (hi : n.isInt = true) :
    (GetIntExact d key n.intValue ↔
      FitsInt64 n.intValue ∧ Binary64.Representable n.intValue.natAbs) ∧
    (GetUint64Exact d key n.intValue ↔ n.neg = false ∧ n.intValue < 2 ^ 64) ∧
    (GettersAgree d key n.intValue ↔ (0 ≤ n.intValue ∧ n.intValue < 2 ^ 63 →
      n.neg = false ∧ Binary64.Representable n.intValue.natAbs)) ∧
    (GetIntExact d key n.intValue ∧ GetUint64Exact d key n.intValue ∧
        GettersAgree d key n.intValue ∧ CastFits d key ↔
      n.neg = false ∧ n.intValue < 2 ^ 63 ∧ Binary64.Representable n.intValue.natAbs) := by
  refine ⟨getIntExact_iff h hi, getUint64Exact_iff h hi, gettersAgree_iff h hi, ?_⟩
  rw [getIntExact_iff h hi, getUint64Exact_iff h hi, gettersAgree_iff h hi]
  constructor
  · rintro ⟨⟨⟨-, hlt⟩, hr⟩, ⟨hneg, -⟩, -, -⟩
    exact ⟨hneg, hlt, hr⟩
  · rintro ⟨hneg, hlt, hr⟩
    have hnonneg : 0 ≤ n.intValue := by
      rw [NumLit.intValue, if_neg (by simp [hneg])]
      exact Int.natCast_nonneg _
    have hfits : FitsInt64 n.intValue := ⟨by omega, hlt⟩
    exact ⟨⟨hfits, hr⟩, ⟨hneg, by omega⟩, fun _ => ⟨hneg, hr⟩, castFits_of_exact h hi hfits hr⟩

end Extractors

/-- An object with one member, an integer. -/
def countOf (i : Int) : ObjDoc :=
  ⟨Ws.none, .members (membersOf (escapeLit (ascii "count"), (Cst.num (intLit i)).toDoc) []),
    Ws.none⟩

lemma holdsOnly_countOf (i : Int) :
    HoldsOnly (countOf i).obj (ascii "count") (.num (intLit i)) := by
  intro w
  have hlist : (countOf i).obj.toList = [(ascii "count", .num (intLit i))] := rfl
  simp [hlist]

theorem extractors_exact_count : GetIntExact (countOf 7) (ascii "count") 7 ∧
    GetUint64Exact (countOf 7) (ascii "count") 7 ∧ GettersAgree (countOf 7) (ascii "count") 7 ∧
      CastFits (countOf 7) (ascii "count") := by
  have h := (extractors_exact_iff (holdsOnly_countOf 7) rfl).2.2.2
  rw [intLit_intValue] at h
  exact h.mpr ⟨by decide, by norm_num, Binary64.representable_of_lt (by norm_num)⟩

/-- A count of more bits than a double has loses the last of them, and one that is too large is
found as the largest. -/
theorem extractors_exact_fails :
    let d := countOf 9007199254740993
    let d' := countOf 18446744073709551616
    d.render = ascii "\x7b\"count\":9007199254740993\x7d" ∧
    (getInt (wildPlatform 0) d.render (ascii "count") 0).out = .ok (true, 9007199254740992) ∧
    ¬GetIntExact d (ascii "count") 9007199254740993 ∧
    d'.render = ascii "\x7b\"count\":18446744073709551616\x7d" ∧
    (getUint64 d'.render (ascii "count") 0).out = .ok (true, 18446744073709551615) ∧
    ¬GetUint64Exact d' (ascii "count") 18446744073709551616 := by
  intro d d'
  have hint : (getInt (wildPlatform 0) d.render (ascii "count") 0).out =
      .ok (true, 9007199254740992) := by decide +kernel
  have huint : (getUint64 d'.render (ascii "count") 0).out = .ok (true, 18446744073709551615) := by
    decide +kernel
  refine ⟨by decide +kernel, hint, fun h => ?_, by decide +kernel, huint, fun h => ?_⟩
  · obtain ⟨found, out, ho, -, hval⟩ := h (wildPlatform 0) 0
    rw [hint] at ho
    cases ho
    exact absurd (hval ⟨by norm_num, by norm_num⟩) (by decide)
  · obtain ⟨found, out, ho, hfound, -⟩ := h 0
    rw [huint] at ho
    cases ho
    exact absurd (hfound.mp rfl).2 (by norm_num)

end MongrelDB
