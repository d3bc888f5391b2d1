import Mathlib.Data.Prod.Lex
import MongrelDB.Contract.Clock

/-!
# Clocks that are decoded as they were sent

A clock on the wire is `physical_micros` with the words `logical` and `node_tiebreaker`, which may
be left out. A clock that is decoded is the one on the wire exactly if the members have the values
of a clock. Any other object is refused only if it is empty or its `physical_micros` has a fraction
or an exponent; the rest is decoded to a clock that was never sent.
-/

namespace MongrelDB

open Text Traced Json

/-! ### Clocks on the wire -/

/-- The member of that name is a number with the value `k`. -/
def ValueAt (o : Obj) (key : Bytes) (k : Nat) : Prop := ∃ n, o.numAt key = some n ∧ n.value = k

/-- A word that is left out is zero. -/
def WordAt (o : Obj) (key : Bytes) (k : Nat) : Prop :=
  o.lookup key = none ∧ k = 0 ∨ ValueAt o key k

/-- Physical time, logical time and tiebreaker, in lexicographic order. -/
abbrev Stamp := Nat ×ₗ Nat ×ₗ Nat

def stamp (physical logical tie : Nat) : Stamp := toLex (physical, toLex (logical, tie))

lemma stamp_inj {p l t p' l' t' : Nat} :
    stamp p l t = stamp p' l' t' ↔ p = p' ∧ l = l' ∧ t = t' := by
  simp [stamp]

def CommitHlc.stamp (c : CommitHlc) : Stamp :=
  MongrelDB.stamp c.physicalMicros.toNat c.logical.toNat c.nodeTiebreaker.toNat

lemma CommitHlc.stamp_injective : Function.Injective CommitHlc.stamp := by
  intro c c' h
  obtain ⟨hp, hl, ht⟩ := stamp_inj.mp h
  cases c
  cases c'
  rw [CommitHlc.mk.injEq]
  exact ⟨UInt64.toNat.inj hp, UInt32.toNat.inj hl, UInt32.toNat.inj ht⟩

/-- The members of the object are this clock. -/
def StampAt (o : Obj) (s : Stamp) : Prop :=
  ∃ p l t, s = stamp p l t ∧ ValueAt o (ascii "physical_micros") p ∧
    WordAt o (ascii "logical") l ∧ WordAt o (ascii "node_tiebreaker") t

/-- The members of the object are a clock, and one that the types can hold. -/
def SoundClock (o : Obj) : Prop :=
  (∃ k < 2 ^ 64, ValueAt o (ascii "physical_micros") k) ∧
    (∃ k < 2 ^ 32, WordAt o (ascii "logical") k) ∧
    ∃ k < 2 ^ 32, WordAt o (ascii "node_tiebreaker") k

/-- A decoded clock is the one of the object, and there is none if the object has none. -/
structure ReadsClock (o : Obj) (x : Option CommitHlc) : Prop where
  clock : ∀ c, x = some c → StampAt o c.stamp
  refused : ¬SoundClock o → x = none

/-- The member of that name is a number with a fraction or an exponent and without a sign, which
`get_uint64` does not read. -/
def UnreadNumber (o : Obj) (key : Bytes) : Prop :=
  ∃ n, o.numAt key = some n ∧ n.neg = false ∧ n.isInt = false

/-- The object is empty, its `physical_micros` is not read, or it has the members of a clock. -/
def ClockReadable (o : Obj) : Prop :=
  o.isEmpty = true ∨ UnreadNumber o (ascii "physical_micros") ∨ SoundClock o

lemma ValueAt.unique {o : Obj} {key : Bytes} {k k' : Nat} (h : ValueAt o key k)
    (h' : ValueAt o key k') : k = k' := by
  obtain ⟨n, hn, hv⟩ := h
  obtain ⟨n', hn', hv'⟩ := h'
  obtain rfl := Option.some.inj (hn.symm.trans hn')
  exact_mod_cast hv.symm.trans hv'

lemma WordAt.unique {o : Obj} {key : Bytes} {k k' : Nat} (h : WordAt o key k)
    (h' : WordAt o key k') : k = k' := by
  have hnone : o.lookup key = none → ∀ k, ¬ValueAt o key k := by
    rintro hl k ⟨n, hn, -⟩
    rw [Obj.numAt, hl] at hn
    cases hn
  rcases h with ⟨hl, rfl⟩ | h <;> rcases h' with ⟨hl', rfl⟩ | h'
  · rfl
  · exact absurd h' (hnone hl _)
  · exact absurd h (hnone hl' _)
  · exact h.unique h'

/-- An object has no more than one clock. -/
lemma StampAt.unique {o : Obj} {s s' : Stamp} (h : StampAt o s) (h' : StampAt o s') : s = s' := by
  obtain ⟨p, l, t, rfl, hp, hl, ht⟩ := h
  obtain ⟨p', l', t', rfl, hp', hl', ht'⟩ := h'
  exact stamp_inj.mpr ⟨hp.unique hp', hl.unique hl', ht.unique ht'⟩

lemma soundClock_of_stampAt {o : Obj} {c : CommitHlc} (h : StampAt o c.stamp) : SoundClock o := by
  obtain ⟨p, l, t, hs, hp, hl, ht⟩ := h
  obtain ⟨rfl, rfl, rfl⟩ := stamp_inj.mp hs
  exact ⟨⟨_, UInt64.toNat_lt _, hp⟩, ⟨_, UInt32.toNat_lt _, hl⟩, _, UInt32.toNat_lt _, ht⟩

/-! ### What is decoded -/

variable {plat : Platform} {o : Obj}

lemma uintRead_eq_none_iff {key : Bytes} : uintRead o key = none ↔ UnreadNumber o key := by
  rw [uintRead, UnreadNumber, Obj.lookup_bind_asUnsigned]
  cases o.numAt key with
  | none => simp
  | some n => cases hn : n.neg <;> cases hi : n.isInt <;> simp [Option.filter, hn, hi]

/-- Where nothing is decoded. -/
lemma decodedHlc_eq_none_iff : decodedHlc plat o = none ↔
    o.isEmpty = true ∨ UnreadNumber o (ascii "physical_micros") := by
  rw [decodedHlc]
  cases o.isEmpty with
  | true => simp
  | false => simp [uintRead_eq_none_iff]

lemma physical_of_valueAt {k : Nat} (h : ValueAt o (ascii "physical_micros") k) (hk : k < 2 ^ 64)
    {u : UInt64} (hu : uintRead o (ascii "physical_micros") = some u) : u.toNat = k := by
  obtain ⟨n, hn, hv⟩ := h
  rw [uintRead, Obj.lookup_bind_asUnsigned, hn, Option.filter_some] at hu
  cases hneg : n.neg with
  | true =>
    -- no number is read, and the value is zero
    have hle : (k : ℚ) ≤ 0 := by
      rw [← hv, NumLit.value, hneg, if_pos rfl, neg_one_mul, neg_nonpos]
      exact mul_nonneg (Nat.cast_nonneg _) (zpow_nonneg (by norm_num) _)
    obtain rfl : k = 0 := Nat.le_zero.mp (by exact_mod_cast hle)
    simp only [hneg] at hu
    cases hu
    rfl
  | false =>
    simp only [hneg] at hu
    obtain ⟨hi, hu⟩ := Option.ite_none_right_eq_some.mp hu
    rw [NumLit.value_of_isInt hi, NumLit.intValue, if_neg (by simp [hneg])] at hv
    have hv : readNat n.int.text = k := by exact_mod_cast hv
    cases hu
    rw [(toNat_uint64Answer_iff hi).mpr (by omega), hv]

lemma word_of_wordAt (plat : Platform) {key : Bytes} {k : Nat} (h : WordAt o key k)
    (hk : k < 2 ^ 32) : (intRead plat o key).toUInt64.toUInt32.toNat = k := by
  have hval : ∀ n, o.numAt key = some n → n.value = k := by
    intro n hn
    rcases h with ⟨hl, -⟩ | ⟨n', hn', hv⟩
    · rw [Obj.numAt, hl] at hn
      cases hn
    · cases hn'.symm.trans hn
      exact hv
  have hfield : WordField o key (intRead plat o key).toUInt64.toUInt32 :=
    (wordField_iff plat o key).mpr fun n hn => ⟨k, hval n hn, hk⟩
  rw [WordField] at hfield
  rcases h with ⟨hl, rfl⟩ | ⟨n, hn, hv⟩
  · rw [Obj.numAt, hl, Option.bind_none, Option.elim_none] at hfield
    exact_mod_cast hfield
  · rw [hn, Option.elim_some, hv] at hfield
    exact_mod_cast hfield

/-- The clock of an object is decoded if it is there. -/
lemma stampAt_of_sound (h : SoundClock o) {c : CommitHlc} (hc : decodedHlc plat o = some c) :
    StampAt o c.stamp := by
  obtain ⟨⟨p, hp, hphys⟩, ⟨l, hl, hlog⟩, t, ht, htie⟩ := h
  rw [decodedHlc] at hc
  obtain ⟨-, hc⟩ := Option.ite_none_left_eq_some.mp hc
  obtain ⟨u, hu, rfl⟩ := Option.map_eq_some_iff.mp hc
  refine ⟨p, l, t, ?_, hphys, hlog, htie⟩
  exact stamp_inj.mpr ⟨physical_of_valueAt hphys hp hu, word_of_wordAt plat hlog hl,
    word_of_wordAt plat htie ht⟩

lemma readsClock_iff : ReadsClock o (decodedHlc plat o) ↔ ClockReadable o := by
  have hnone : decodedHlc plat o = none ↔ _ := decodedHlc_eq_none_iff
  rw [ClockReadable, ← or_assoc, ← hnone]
  constructor
  · intro h
    cases hc : decodedHlc plat o with
    | none => exact .inl rfl
    | some c => exact .inr (soundClock_of_stampAt (h.clock c hc))
  · rintro (hnone | hsound)
    · refine ⟨fun c hc => ?_, fun _ => hnone⟩
      rw [hnone] at hc
      cases hc
    · exact ⟨fun c hc => stampAt_of_sound hsound hc, fun h => absurd hsound h⟩

/-- On which objects a decoded clock is the one of the object. On those, different clocks are
decoded to different ones, and in the same order. -/
theorem parseCommitHlc_reads_iff (plat : Platform) (d : ObjDoc) (hd : d.obj.distinct = true) :
    ∃ x, (parseCommitHlc plat d.render).out = .ok x ∧
      (ReadsClock d.obj x ↔ ClockReadable d.obj) ∧
      ∀ d' : ObjDoc, d'.obj.distinct = true → ClockReadable d.obj → ClockReadable d'.obj →
        ∀ c c', x = some c → (parseCommitHlc plat d'.render).out = .ok (some c') →
          ∀ s s', StampAt d.obj s → StampAt d'.obj s' →
            (c = c' ↔ s = s') ∧ (c.stamp < c'.stamp ↔ s < s') := by
  refine ⟨decodedHlc plat d.obj, parseCommitHlc_text plat hd, readsClock_iff, ?_⟩
  intro d' hd' hr hr' c c' hc hc' s s' hs hs'
  rw [parseCommitHlc_text plat hd'] at hc'
  obtain rfl := hs.unique ((readsClock_iff.mpr hr).clock c hc)
  obtain rfl := hs'.unique ((readsClock_iff.mpr hr').clock c' (Except.ok.inj hc'))
  exact ⟨CommitHlc.stamp_injective.eq_iff.symm, Iff.rfl⟩

/-- An object with these members. -/
def intsText (m : String × Int) (l : List (String × Int)) : ObjDoc :=
  let member (m : String × Int) := (escapeLit (ascii m.1), (Cst.num (intLit m.2)).toDoc)
  objText (.members (membersOf (member m) (l.map member)))

/-- A clock without a tiebreaker. -/
def shortClock : ObjDoc := intsText ("physical_micros", 7) [("logical", 2)]

theorem parseCommitHlc_reads : ∃ x,
    (parseCommitHlc (wildPlatform 0) shortClock.render).out = .ok x ∧ x.isSome = true ∧
      ReadsClock shortClock.obj x := by
  have hstamp : StampAt shortClock.obj (stamp 7 2 0) := by
    refine ⟨7, 2, 0, rfl, ⟨intLit 7, rfl, ?_⟩, .inr ⟨intLit 2, rfl, ?_⟩, .inl ⟨by decide, rfl⟩⟩
    all_goals rw [NumLit.value_of_isInt rfl, intLit_intValue]; norm_num
  have hsound : SoundClock shortClock.obj := soundClock_of_stampAt (c := ⟨7, 2, 0⟩) hstamp
  obtain ⟨x, hx, hreads, -⟩ := parseCommitHlc_reads_iff (wildPlatform 0) shortClock (by decide)
  refine ⟨x, hx, ?_, hreads.mpr (.inr (.inr hsound))⟩
  rw [parseCommitHlc_text _ (by decide)] at hx
  obtain rfl := Except.ok.inj hx
  rfl

/-- Of an object without `physical_micros` a clock is made up, and words that are out of range wrap
around. -/
theorem parseCommitHlc_made_up :
    let missing := intsText ("logical", 1) []
    let negative := intsText ("physical_micros", 5) [("logical", -1)]
    let large := intsText ("physical_micros", 5) [("logical", 4294967296)]
    (missing.render = ascii "\x7b\"logical\":1\x7d" ∧ missing.obj.distinct = true ∧
      (parseCommitHlc (wildPlatform 0) missing.render).out = .ok (some ⟨0, 1, 0⟩) ∧
      ¬ReadsClock missing.obj (some ⟨0, 1, 0⟩)) ∧
    (parseCommitHlc (wildPlatform 0) negative.render).out = .ok (some ⟨5, 4294967295, 0⟩) ∧
    (parseCommitHlc (wildPlatform 0) large.render).out = .ok (some ⟨5, 0, 0⟩) := by
  intro missing negative large
  refine ⟨⟨by decide, by decide, ?_, fun h => ?_⟩, ?_, ?_⟩
  · rw [parseCommitHlc_text _ (by decide)]
    decide +kernel
  · have hnone : missing.obj.numAt (ascii "physical_micros") = none := by decide
    have hsound : ¬SoundClock missing.obj := by
      rintro ⟨⟨k, -, n, hn, -⟩, -⟩
      rw [hnone] at hn
      cases hn
    cases h.refused hsound
  · rw [parseCommitHlc_text _ (by decide)]
    decide +kernel
  · rw [parseCommitHlc_text _ (by decide)]
    decide +kernel

end MongrelDB
