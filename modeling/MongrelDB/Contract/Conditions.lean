import MongrelDB.Contract.Bodies

/-!
# What `query` says about a condition

Two conditions are written in the same way exactly if they agree on what is written, which leaves
out whether the ends of a range belong to it.
-/

namespace MongrelDB

open Text Json

variable {plat : Platform} {a b : Condition}

/-- `printf` writes different finite doubles in different ways. -/
def Platform.PrintsApart (plat : Platform) : Prop :=
  ∀ d e : Binary64, d.isFinite = true → e.isFinite = true → plat.fmtG17 d = plat.fmtG17 e → d = e

/-! ### What is read for a condition -/

/-- The conditions agree on what is written for their kind. -/
structure Condition.WrittenAlike (a b : Condition) : Prop where
  kind : a.kind = b.kind
  pk : a.kind = .pk →
    a.strValue = b.strValue ∧ (a.strValue = [] → a.intValue = b.intValue)
  value : a.kind = .bitmapEq ∨ a.kind = .fmContains →
    a.columnId = b.columnId ∧ a.strValue = b.strValue
  null : a.kind = .isNull ∨ a.kind = .isNotNull → a.columnId = b.columnId
  range : a.kind = .range → a.columnId = b.columnId ∧ a.loSet = b.loSet ∧ a.hiSet = b.hiSet ∧
    (a.loSet = true → a.lo = b.lo) ∧ (a.hiSet = true → a.hi = b.hi)

/-- The ends of the ranges belong to both or to none of them. -/
def Condition.SameEnds (a b : Condition) : Prop :=
  (a.loSet = true → a.loInclusive = b.loInclusive) ∧
    (a.hiSet = true → a.hiInclusive = b.hiInclusive)

/-- The conditions agree on all fields that have a meaning for their kind. -/
structure Condition.Alike (a b : Condition) : Prop extends a.WrittenAlike b where
  ends : a.kind = .range → a.SameEnds b

/-! ### Texts determine what is written -/

lemma CondKind.tag_inj {k l : CondKind} : ascii k.tag = ascii l.tag ↔ k = l := by
  cases k <;> cases l <;> decide

lemma eq_of_boundMember (hp : plat.PrintsApart) (name : String) {s t : Bool} {d e : Binary64}
    (hd : s = true → d.isFinite = true) (he : t = true → e.isFinite = true)
    (h : boundMember plat name s d = boundMember plat name t e) :
    s = t ∧ (s = true → d = e) := by
  unfold boundMember at h
  cases s with
  | false =>
    cases t with
    | false => exact ⟨rfl, by rintro ⟨⟩⟩
    | true => simp at h
  | true =>
    cases t with
    | false => simp at h
    | true =>
      simp only [if_true, List.cons.injEq, Prod.mk.injEq, Tree.num.injEq, true_and, and_true] at h
      exact ⟨rfl, fun _ => hp d e (hd rfl) (he rfl) h⟩

/-- The bounds of a range can be told apart by their names. -/
lemma eq_of_boundMembers {s t s' t' : Bool} {d e d' e' : Binary64}
    (h : boundMember plat "lo" s d ++ boundMember plat "hi" t e =
      boundMember plat "lo" s' d' ++ boundMember plat "hi" t' e') :
    boundMember plat "lo" s d = boundMember plat "lo" s' d' ∧
      boundMember plat "hi" t e = boundMember plat "hi" t' e' := by
  unfold boundMember at h ⊢
  cases s <;> cases s' <;> cases t <;> cases t' <;> simp [ascii] at h ⊢ <;> exact h

/-- The members of two conditions of one kind determine what is written for them. -/
lemma writtenAlike_of_conditionMembers (hp : plat.PrintsApart) (hk : a.kind = b.kind)
    (ha : a.kind = .range → (a.loSet = true → a.lo.isFinite = true) ∧
      (a.hiSet = true → a.hi.isFinite = true))
    (hb : b.kind = .range → (b.loSet = true → b.lo.isFinite = true) ∧
      (b.hiSet = true → b.hi.isFinite = true))
    (h : conditionMembers plat a = conditionMembers plat b) : a.WrittenAlike b := by
  refine ⟨hk, fun hpk => ?_, ?_, ?_, fun hr => ?_⟩
  · simp only [conditionMembers, ← hk, hpk, List.cons.injEq, Prod.mk.injEq, true_and,
      and_true] at h
    by_cases hea : a.strValue.isEmpty = true <;> by_cases heb : b.strValue.isEmpty = true
    · rw [if_pos hea, if_pos heb, intTree_inj] at h
      rw [List.isEmpty_iff.mp hea, List.isEmpty_iff.mp heb]
      exact ⟨rfl, fun _ => h⟩
    · rw [if_pos hea, if_neg heb] at h
      cases h
    · rw [if_neg hea, if_pos heb] at h
      cases h
    · rw [if_neg hea, if_neg heb, Tree.str.injEq] at h
      exact ⟨h, fun hnil => absurd (List.isEmpty_iff.mpr hnil) hea⟩
  · rintro (hv | hv) <;>
      simp only [conditionMembers, ← hk, hv, List.cons.injEq, Prod.mk.injEq, intTree_inj,
        Tree.str.injEq, true_and, and_true] at h <;>
      exact h
  · rintro (hn | hn) <;>
      simp only [conditionMembers, ← hk, hn, List.cons.injEq, Prod.mk.injEq, intTree_inj, true_and,
        and_true] at h <;>
      exact h
  · simp only [conditionMembers, ← hk, hr, List.cons.injEq, Prod.mk.injEq, intTree_inj,
      true_and] at h
    obtain ⟨hid, hbounds⟩ := h
    obtain ⟨hlo, hhi⟩ := eq_of_boundMembers hbounds
    obtain ⟨halo, hahi⟩ := ha hr
    obtain ⟨hblo, hbhi⟩ := hb (hk.symm.trans hr)
    obtain ⟨hloset, hlo⟩ := eq_of_boundMember hp _ halo hblo hlo
    obtain ⟨hhiset, hhi⟩ := eq_of_boundMember hp _ hahi hbhi hhi
    exact ⟨hid, hloset, hhiset, hlo, hhi⟩

lemma boundText_congr (name : String) {s : Bool} {d e : Binary64} (h : s = true → d = e) :
    boundText plat name s d = boundText plat name s e := by
  unfold boundText
  split
  · rw [h ‹_›]
  · rfl

lemma conditionTexts_of_writtenAlike (h : a.WrittenAlike b) :
    conditionTexts plat a = conditionTexts plat b := by
  unfold conditionTexts
  rw [← h.kind]
  cases hk : a.kind with
  | pk =>
    obtain ⟨hs, hi⟩ := h.pk hk
    simp only [← hs]
    split
    · rw [hi (List.isEmpty_iff.mp ‹_›)]
    · rfl
  | bitmapEq =>
    obtain ⟨hid, hs⟩ := h.value (.inl hk)
    simp only [hid, hs]
  | fmContains =>
    obtain ⟨hid, hs⟩ := h.value (.inr hk)
    simp only [hid, hs]
  | isNull => simp only [h.null (.inl hk)]
  | isNotNull => simp only [h.null (.inr hk)]
  | range =>
    obtain ⟨hid, hloset, hhiset, hlo, hhi⟩ := h.range hk
    simp only [hid, ← hloset, ← hhiset, boundText_congr _ hlo, boundText_congr _ hhi]

variable (hp : plat.PrintsNumbers) (ha : a.conditionJson = none) (hb : b.conditionJson = none)
  (hfa : a.FiniteBounds) (hfb : b.FiniteBounds)
include hp ha hb hfa hfb

/-- Two conditions are written in the same way if and only if they agree on what is written. -/
lemma conditionText_eq_iff (hi : plat.PrintsApart) :
    conditionText plat a = conditionText plat b ↔ a.WrittenAlike b := by
  constructor
  · intro h
    have hva : a.Valid := fun json hj => absurd (ha.symm.trans hj) (by simp)
    have hvb : b.Valid := fun json hj => absurd (hb.symm.trans hj) (by simp)
    have hparse := (denotes_conditionText hp hva hfa).parse
    rw [h, (denotes_conditionText hp hvb hfb).parse, conditionTree, conditionTree, ha, hb] at hparse
    simp only [Option.some.injEq, Tree.obj.injEq, List.cons.injEq, Prod.mk.injEq, CondKind.tag_inj,
      and_true] at hparse
    exact writtenAlike_of_conditionMembers hi hparse.1.symm (hfa ha) (hfb hb) hparse.2.symm
  · intro h
    rw [conditionText_eq ha, conditionText_eq hb, conditionTexts_of_writtenAlike h, h.kind]

/-- Conditions with one text agree on all that is read for them if and only if the ends of ranges
that are otherwise written alike do. -/
theorem conditionText_alike_iff (hi : plat.PrintsApart) :
    (conditionText plat a = conditionText plat b → a.Alike b) ↔
      (a.WrittenAlike b → a.kind = .range → a.SameEnds b) := by
  rw [conditionText_eq_iff hp ha hb hfa hfb hi]
  constructor
  · intro h hw
    exact (h hw).ends
  · intro h hw
    exact ⟨hw, h hw⟩

omit hp ha hb hfa hfb

/-- Doubles in different ways, two as `%.17g` writes it. -/
def apartPlatform : Platform where
  fmtG17 d := decimal (if d = ⟨0x4000000000000000⟩ then 2 else 2 ^ 64 + d.bits.toNat)
  wildInt64 _ := 0
  wildSize _ := 0

lemma printsNumbers_apartPlatform : apartPlatform.PrintsNumbers := by
  intro d _
  obtain ⟨n, hn⟩ : ∃ n, apartPlatform.fmtG17 d = decimal n := ⟨_, rfl⟩
  refine ⟨intLit n, ?_⟩
  rw [hn, intLit_render, decimalInt, if_neg (by omega), Int.natAbs_natCast]

lemma printsApart_apartPlatform : apartPlatform.PrintsApart := by
  rintro ⟨d⟩ ⟨e⟩ - - h
  simp only [apartPlatform, decimal_inj, Binary64.mk.injEq] at h
  have hd := d.isLt
  have he := e.isLt
  split_ifs at h with h₁ h₂ h₂
  · rw [h₁, h₂]
  · omega
  · omega
  · rw [Binary64.mk.injEq, ← BitVec.toNat_inj]
    omega

/-- A range from two on whose other bound is there but not set. -/
def openRange : Condition :=
  { kind := .range, columnId := 1, lo := ⟨0x4000000000000000⟩, loSet := true,
    hi := ⟨0x4000000000000000⟩, hiInclusive := false }

theorem conditionText_alike_open : shortRange.Alike openRange := by
  refine (conditionText_alike_iff printsNumbers_apartPlatform rfl rfl ?_ ?_
    printsApart_apartPlatform).mpr ?_ rfl
  · rintro - -
    decide
  · rintro - -
    decide
  · rintro - -
    exact ⟨fun _ => rfl, by rintro ⟨⟩⟩

/-- A range of what is greater than two. -/
def exclusiveRange : Condition := { shortRange with loInclusive := false }

theorem conditionText_ends :
    conditionText apartPlatform shortRange = conditionText apartPlatform exclusiveRange ∧
      ¬shortRange.Alike exclusiveRange := by
  refine ⟨rfl, fun h => ?_⟩
  exact absurd ((h.ends rfl).1 rfl) (by decide)

end MongrelDB
