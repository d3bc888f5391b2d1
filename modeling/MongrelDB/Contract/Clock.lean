import MongrelDB.Contract.StatusFields
import MongrelDB.Encoder.Values

/-!
# The authoritative clock of a status

`commit_hlc` prefers the clock of `durable` over that of `outcome` over that of the status itself.
Where `durable` is missing the decoder reads the text of `outcome` a second time, which does no harm
here: the clock found in it is the one that comes next anyway.
-/

namespace MongrelDB

open Text Traced Json

/-- The member of that name is an integer literal with the value `k`. -/
def NatAt (o : Obj) (key : Bytes) (k : Nat) : Prop :=
  ∃ n, o.numAt key = some n ∧ n.isInt = true ∧ n.intValue = k

structure HasClock (o : Obj) (c : CommitHlc) : Prop where
  physicalMicros : NatAt o (ascii "physical_micros") c.physicalMicros.toNat
  logical : NatAt o (ascii "logical") c.logical.toNat
  nodeTiebreaker : NatAt o (ascii "node_tiebreaker") c.nodeTiebreaker.toNat

/-- The object has the three members of a clock, and they are in range. -/
def IsClock (o : Obj) : Prop :=
  (∃ k, NatAt o (ascii "physical_micros") k ∧ k < 2 ^ 64) ∧
    (∃ k, NatAt o (ascii "logical") k ∧ k < 2 ^ 32) ∧
      ∃ k, NatAt o (ascii "node_tiebreaker") k ∧ k < 2 ^ 32

/-- The object in the member `last_commit_hlc`. -/
def clockAt (o : Obj) : Option Obj := o.objAt (ascii "last_commit_hlc")

/-- The clock that `durable`, `outcome` and the status itself have to offer, in this order. -/
def clockSource (o : Obj) : Option Obj :=
  ((o.objAt (ascii "durable")).bind clockAt).or
    (((o.objAt (ascii "outcome")).bind clockAt).or (clockAt o))

/-! ### Decoding a clock -/

lemma uintRead_of_natAt {o : Obj} {key : Bytes} {k : Nat} (h : NatAt o key k) (hk : k < 2 ^ 64) :
    ∃ u, uintRead o key = some u ∧ u.toNat = k := by
  obtain ⟨n, hn, hi, hv⟩ := h
  have hu : (o.lookup key).bind Cst.asUnsigned = if n.neg then none else some n := by
    rw [Obj.lookup_bind_asUnsigned, hn, Option.filter_some]
    cases n.neg <;> rfl
  cases hneg : n.neg with
  | true =>
    -- only a negative zero has a sign
    refine ⟨0, by rw [uintRead, hu, hneg]; rfl, ?_⟩
    rw [NumLit.intValue, if_pos hneg] at hv
    change 0 = k
    omega
  | false =>
    refine ⟨(uint64Answer 0 n).2, by simp [uintRead, hu, hneg, hi], ?_⟩
    rw [NumLit.intValue, if_neg (by simp [hneg])] at hv
    rw [(toNat_uint64Answer_iff hi).mpr (by omega)]
    omega

lemma toNat_word_of_natAt (plat : Platform) {o : Obj} {key : Bytes} {k : Nat} (h : NatAt o key k)
    (hk : k < 2 ^ 32) : (intRead plat o key).toUInt64.toUInt32.toNat = k := by
  obtain ⟨n, hn, hi, hv⟩ := h
  rw [intRead_of_numAt hn]
  refine toNat_word (castInt64_of_value plat ?_ (by omega) (by omega) ?_) hk
  · rw [NumLit.value_of_isInt hi, hv]
  · exact Binary64.representable_of_lt (by simp only [Int.natAbs_natCast]; omega)

lemma decodedHlc_of_isClock (plat : Platform) {o : Obj} (h : IsClock o) :
    ∃ c, decodedHlc plat o = some c ∧ HasClock o c := by
  obtain ⟨⟨k₁, h₁, hk₁⟩, ⟨k₂, h₂, hk₂⟩, k₃, h₃, hk₃⟩ := h
  obtain ⟨u, hu, hu'⟩ := uintRead_of_natAt h₁ hk₁
  have he : o.isEmpty = false := by
    by_contra he
    obtain ⟨n, hn, -⟩ := h₁
    simp [Obj.numAt, Obj.lookup_of_isEmpty (Bool.eq_true_of_not_eq_false he)] at hn
  have hlogical := toNat_word_of_natAt plat h₂ hk₂
  have htie := toNat_word_of_natAt plat h₃ hk₃
  refine ⟨⟨u, (intRead plat o (ascii "logical")).toUInt64.toUInt32,
    (intRead plat o (ascii "node_tiebreaker")).toUInt64.toUInt32⟩, ?_, ?_, ?_, ?_⟩
  · rw [decodedHlc, he, hu]
    rfl
  · simp only [hu']
    exact h₁
  · simp only [hlogical]
    exact h₂
  · simp only [htie]
    exact h₃

/-! ### Choosing a clock -/

lemma QueryStatus.commitHlc_eq (st : QueryStatus) : st.commitHlc =
    (st.durable.bind (·.lastCommitHlc)).or (st.outcome.lastCommitHlc.or st.lastCommitHlc) := by
  rw [QueryStatus.commitHlc]
  cases st.durable.bind (·.lastCommitHlc) with
  | some c => rfl
  | none => cases st.outcome.lastCommitHlc <;> rfl

lemma durableRead_lastCommitHlc (plat : Platform) (x : Option Obj) :
    (durableRead plat x).lastCommitHlc = x.bind (hlcRead plat) := by
  cases x with
  | none => rfl
  | some o =>
    rw [durableRead, Option.map_some, Option.getD_some, Option.bind_some, decodedDurable]
    cases he : o.isEmpty with
    | true => simp [hlcRead, Obj.objAt, Obj.lookup_of_isEmpty he]
    | false => rfl

lemma decodedStatus_commitHlc (plat : Platform) (o : Obj) (json : Bytes) :
    (decodedStatus plat o json).commitHlc = ((o.objAt (ascii "durable")).bind (hlcRead plat)).or
      (((o.objAt (ascii "outcome")).bind (hlcRead plat)).or (hlcRead plat o)) := by
  rw [QueryStatus.commitHlc_eq, decodedStatus]
  cases he : o.isEmpty with
  | true => simp [hlcRead, Obj.objAt, Obj.lookup_of_isEmpty he]
  | false =>
    simp only [Bool.false_eq_true, if_false, Option.bind_some, durableRead_lastCommitHlc]
    cases o.objAt (ascii "durable") with
    | some p => rfl
    | none =>
      simp only [Option.none_or, Option.bind_none]
      cases (o.objAt (ascii "outcome")).bind (hlcRead plat) <;> rfl

lemma rel_or {α β : Type} {R : α → β → Prop} {x x' : Option α} {y y' : Option β}
    (h : Option.Rel R x y) (h' : Option.Rel R x' y') : Option.Rel R (x.or x') (y.or y') := by
  cases h with
  | some h => exact .some h
  | none => exact h'

lemma rel_hlcRead (plat : Platform) {o : Obj} (h : ∀ p, clockAt o = some p → IsClock p) :
    Option.Rel (fun c p => HasClock p c) (hlcRead plat o) (clockAt o) := by
  rw [hlcRead, ← clockAt]
  cases hp : clockAt o with
  | none => exact .none
  | some p =>
    obtain ⟨c, hc, hclock⟩ := decodedHlc_of_isClock plat (h p hp)
    rw [Option.bind_some, hc]
    exact .some hclock

lemma rel_bind_hlcRead (plat : Platform) {x : Option Obj}
    (h : ∀ o p, x = some o → clockAt o = some p → IsClock p) :
    Option.Rel (fun c p => HasClock p c) (x.bind (hlcRead plat)) (x.bind clockAt) := by
  cases x with
  | none => exact .none
  | some o => exact rel_hlcRead plat fun p hp => h o p rfl hp

/-- If the clocks of `durable`, of `outcome` and of the status are clocks wherever they are objects,
then the clock of the decoded status is exactly the first of them that is there. -/
theorem commitHlc_status (plat : Platform) (d : ObjDoc) (hd : d.obj.distinct = true)
    (hdurable : ∀ o p, d.obj.objAt (ascii "durable") = some o → clockAt o = some p → IsClock p)
    (houtcome : ∀ o p, d.obj.objAt (ascii "outcome") = some o → clockAt o = some p → IsClock p)
    (htop : ∀ p, clockAt d.obj = some p → IsClock p) :
    ∃ st, (parseQueryStatusJson plat d.render).out = .ok st ∧
      Option.Rel (fun c p => HasClock p c) st.commitHlc (clockSource d.obj) := by
  refine ⟨_, parseQueryStatusJson_object plat hd, ?_⟩
  rw [decodedStatus_commitHlc, clockSource]
  exact rel_or (rel_bind_hlcRead plat hdurable)
    (rel_or (rel_bind_hlcRead plat houtcome) (rel_hlcRead plat htop))

/-- An object whose members are these integers. -/
def intsObj (l : List (String × Int)) : Cst :=
  objectOf (l.map fun m => (escapeLit (ascii m.1), (Cst.num (intLit m.2)).toDoc))

/-- A status whose outcome has a clock. -/
def clockStatus : ObjDoc :=
  let clock := intsObj [("physical_micros", 7), ("logical", 1), ("node_tiebreaker", 2)]
  let outcome := objectOf [(escapeLit (ascii "last_commit_hlc"), clock.toDoc)]
  objText (.members (membersOf (escapeLit (ascii "outcome"), outcome.toDoc) []))

/-- The clock of the outcome is decoded where there is no other. -/
theorem commitHlc_outcome : (clockSource clockStatus.obj).isSome = true ∧
    ∃ st, (parseQueryStatusJson (wildPlatform 0) clockStatus.render).out = .ok st ∧
      Option.Rel (fun c p => HasClock p c) st.commitHlc (clockSource clockStatus.obj) := by
  have hnone : clockStatus.obj.lookup (ascii "durable") = none := by decide
  have htop : clockStatus.obj.lookup (ascii "last_commit_hlc") = none := by decide
  refine ⟨rfl, commitHlc_status (wildPlatform 0) clockStatus (by decide) ?_ ?_ ?_⟩
  · intro o p ho
    rw [Obj.objAt, hnone] at ho
    cases ho
  · intro o p ho hp
    cases ho
    cases hp
    exact ⟨⟨7, ⟨intLit 7, rfl, rfl, intLit_intValue 7⟩, by norm_num⟩,
      ⟨1, ⟨intLit 1, rfl, rfl, intLit_intValue 1⟩, by norm_num⟩,
      2, ⟨intLit 2, rfl, rfl, intLit_intValue 2⟩, by norm_num⟩
  · intro p hp
    rw [clockAt, Obj.objAt, htop] at hp
    cases hp

end MongrelDB
