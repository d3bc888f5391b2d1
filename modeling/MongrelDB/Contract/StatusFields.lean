import MongrelDB.Contract.Extractors
import MongrelDB.Contract.Status
import MongrelDB.Encoder.Values

/-!
# The fields of a status and the members they are read from

Each field of a decoded status is meant to be the member of its own name (`StatusFields`). The
decoders keep to that on the empty object, and otherwise only where nothing is missing: an absent
member is reported as found and its field takes what the scratch variable was left with by another
member (`StatusComplete`).
-/

namespace MongrelDB

open Text Traced Json

/-! ### What the fields mean -/

/-- An optional integer field holds the number of its own name. -/
def IntField (o : Obj) (key : Bytes) (x : Option Int64) : Prop :=
  Option.Rel (fun (i : Int64) (n : NumLit) => (i.toInt : ℚ) = n.value) x (o.numAt key)

/-- A plain word holds the number of its own name, or zero if there is none. -/
def WordField (o : Obj) (key : Bytes) (w : UInt32) : Prop :=
  (w.toNat : ℚ) = (o.numAt key).elim 0 NumLit.value

/-- A clock is there if its physical part is. -/
def ClockFields (o : Obj) : Option CommitHlc → Prop
  | none => o.uintAt (ascii "physical_micros") = none
  | some c => o.uintAt (ascii "physical_micros") = some c.physicalMicros.toNat ∧
      WordField o (ascii "logical") c.logical ∧
      WordField o (ascii "node_tiebreaker") c.nodeTiebreaker

def ClockField (o : Obj) (x : Option CommitHlc) : Prop :=
  (o.objAt (ascii "last_commit_hlc")).elim (x = none) (ClockFields · x)

structure DurableFields (o : Obj) (out : DurableOutcome) : Prop where
  committed : out.committed = o.boolAt (ascii "committed")
  committedStatements : IntField o (ascii "committed_statements") out.committedStatements
  lastCommitEpoch : out.lastCommitEpoch.map UInt64.toNat = o.uintAt (ascii "last_commit_epoch")
  lastCommitEpochText : out.lastCommitEpochText = o.strAt (ascii "last_commit_epoch_text")
  lastCommitHlc : ClockField o out.lastCommitHlc
  firstCommitStatementIndex :
    IntField o (ascii "first_commit_statement_index") out.firstCommitStatementIndex
  lastCommitStatementIndex :
    IntField o (ascii "last_commit_statement_index") out.lastCommitStatementIndex
  completedStatements : IntField o (ascii "completed_statements") out.completedStatements
  statementIndex : IntField o (ascii "statement_index") out.statementIndex
  serialization : out.serialization = (o.strAt (ascii "serialization")).getD []
  serializationState : out.serializationState = o.strAt (ascii "serialization_state")
  terminalState : out.terminalState = o.strAt (ascii "terminal_state")

/-- Each field of the status is the member of its own name; an absent plain field keeps its
default, and the state of the server is then the state. -/
structure StatusFields (o : Obj) (st : QueryStatus) : Prop where
  queryId : st.queryId = (o.strAt (ascii "query_id")).getD []
  status : st.status = (o.strAt (ascii "status")).getD []
  state : st.state = (o.strAt (ascii "state")).getD []
  serverState : st.serverState = (o.strAt (ascii "server_state")).getD st.state
  terminalState : st.terminalState = o.strAt (ascii "terminal_state")
  committed : st.committed = o.boolAt (ascii "committed")
  committedStatements : IntField o (ascii "committed_statements") st.committedStatements
  lastCommitEpoch : st.lastCommitEpoch.map UInt64.toNat = o.uintAt (ascii "last_commit_epoch")
  lastCommitEpochText : st.lastCommitEpochText = o.strAt (ascii "last_commit_epoch_text")
  lastCommitHlc : ClockField o st.lastCommitHlc
  firstCommitStatementIndex :
    IntField o (ascii "first_commit_statement_index") st.firstCommitStatementIndex
  lastCommitStatementIndex :
    IntField o (ascii "last_commit_statement_index") st.lastCommitStatementIndex
  completedStatements : IntField o (ascii "completed_statements") st.completedStatements
  statementIndex : IntField o (ascii "statement_index") st.statementIndex
  cancelOutcome : st.cancelOutcome = o.strAt (ascii "cancel_outcome")
  cancellationReason : st.cancellationReason = (o.strAt (ascii "cancellation_reason")).getD []
  retryable : st.retryable = (o.boolAt (ascii "retryable")).getD false
  outcome : (o.objAt (ascii "outcome")).elim (st.outcome = {}) (DurableFields · st.outcome)
  durable : Option.Rel (fun out p => DurableFields p out) st.durable (o.objAt (ascii "durable"))

/-! ### When they do -/

/-- The number of that name is an integer that a 64-bit integer and a double can hold. -/
def IntPresent (o : Obj) (key : Bytes) : Prop :=
  ∃ n, o.numAt key = some n ∧ ∃ i : Int, n.value = i ∧ -2 ^ 63 ≤ i ∧ i < 2 ^ 63 ∧
    Binary64.Representable i.natAbs

/-- The number of that name, if there is one, is a natural number that 32 bits can hold. -/
def WordFits (o : Obj) (key : Bytes) : Prop :=
  ∀ n, o.numAt key = some n → ∃ k : Nat, n.value = k ∧ k < 2 ^ 32

def ClockComplete (o : Obj) : Prop :=
  o.isEmpty = true ∨ ∃ n, (o.lookup (ascii "physical_micros")).bind Cst.asUnsigned = some n ∧
    (n.isInt = true → readNat n.int.text < 2 ^ 64 ∧ WordFits o (ascii "logical") ∧
      WordFits o (ascii "node_tiebreaker"))

/-- The members of a record that is not empty are all there, but for those whose field is left with
the default anyway. -/
structure DurablePresent (o : Obj) : Prop where
  committed : (o.boolAt (ascii "committed")).isSome = true
  committedStatements : IntPresent o (ascii "committed_statements")
  lastCommitEpoch : UintPresent o (ascii "last_commit_epoch")
  lastCommitEpochText : (o.strAt (ascii "last_commit_epoch_text")).isSome = true
  lastCommitHlc : ∀ p, o.objAt (ascii "last_commit_hlc") = some p → ClockComplete p
  firstCommitStatementIndex : IntPresent o (ascii "first_commit_statement_index")
  lastCommitStatementIndex : IntPresent o (ascii "last_commit_statement_index")
  completedStatements : IntPresent o (ascii "completed_statements")
  statementIndex : IntPresent o (ascii "statement_index")
  serialization : (o.strAt (ascii "serialization")).isSome = true ∨
    o.strAt (ascii "last_commit_epoch_text") = some []
  serializationState : (o.strAt (ascii "serialization_state")).isSome = true
  terminalState : (o.strAt (ascii "terminal_state")).isSome = true

def DurableComplete (o : Obj) : Prop := o.isEmpty = true ∨ DurablePresent o

structure StatusPresent (o : Obj) : Prop where
  status : (o.strAt (ascii "status")).isSome = true ∨ (o.strAt (ascii "query_id")).getD [] = []
  state : (o.strAt (ascii "state")).isSome = true ∨ (o.strAt (ascii "status")).getD [] = []
  terminalState : (o.strAt (ascii "terminal_state")).isSome = true
  committed : (o.boolAt (ascii "committed")).isSome = true
  committedStatements : IntPresent o (ascii "committed_statements")
  lastCommitEpoch : UintPresent o (ascii "last_commit_epoch")
  lastCommitEpochText : (o.strAt (ascii "last_commit_epoch_text")).isSome = true
  lastCommitHlc : ∀ p, o.objAt (ascii "last_commit_hlc") = some p → ClockComplete p
  firstCommitStatementIndex : IntPresent o (ascii "first_commit_statement_index")
  lastCommitStatementIndex : IntPresent o (ascii "last_commit_statement_index")
  completedStatements : IntPresent o (ascii "completed_statements")
  statementIndex : IntPresent o (ascii "statement_index")
  cancelOutcome : (o.strAt (ascii "cancel_outcome")).isSome = true
  cancellationReason : (o.strAt (ascii "cancellation_reason")).isSome = true ∨
    o.strAt (ascii "cancel_outcome") = some []
  retryable : (o.boolAt (ascii "retryable")).isSome = true ∨
    o.boolAt (ascii "committed") = some false
  outcome : ∀ p, o.objAt (ascii "outcome") = some p → DurableComplete p
  durable : ∃ p, o.objAt (ascii "durable") = some p ∧ DurableComplete p

/-- Nothing that is missing is filled in from another member. -/
def StatusComplete (o : Obj) : Prop := o.isEmpty = true ∨ StatusPresent o

/-! ### Single fields -/

lemma some_getD_eq_iff {α : Type} {x : Option α} {a : α} :
    some (x.getD a) = x ↔ x.isSome = true := by
  cases x <;> simp

lemma getD_eq_getD_iff {α : Type} {x : Option α} {a b : α} :
    x.getD a = x.getD b ↔ x.isSome = true ∨ a = b := by
  cases x <;> simp

/-- A platform on which every cast outside the range of the type gives `i`. -/
def wildPlatform (i : Int64) : Platform := ⟨fun _ => [], fun _ => i, fun _ => 0⟩

lemma toInt_castInt64 (plat : Platform) {d : Binary64} (hf : d.isFinite = true)
    (hl : -2 ^ 63 ≤ d.trunc) (hu : d.trunc < 2 ^ 63) : (castInt64 plat d).toInt = d.trunc := by
  have hin : (d.isFinite && -2 ^ 63 ≤ d.trunc && d.trunc < 2 ^ 63) = true := by
    simp only [hf, hl, hu, decide_true, Bool.and_self]
  rw [castInt64, if_pos hin]
  exact Int64.toInt_ofInt_of_le hl hu

lemma castInt64_of_value (plat : Platform) {n : NumLit} {i : Int} (hv : n.value = i)
    (hl : -2 ^ 63 ≤ i) (hu : i < 2 ^ 63) (hr : Binary64.Representable i.natAbs) :
    (castInt64 plat n.toBinary64).toInt = i := by
  obtain ⟨hf, ht⟩ := NumLit.trunc_toBinary64_of_lt hv hr (by omega)
  rw [toInt_castInt64 plat hf (by omega) (by omega), ht]

/-- On every platform the cast of the double is the number exactly when a 64-bit integer and a
double can hold it. -/
lemma castInt64_eq_value_iff (n : NumLit) :
    (∀ plat, ((castInt64 plat n.toBinary64).toInt : ℚ) = n.value) ↔
      ∃ i : Int, n.value = i ∧ -2 ^ 63 ≤ i ∧ i < 2 ^ 63 ∧ Binary64.Representable i.natAbs := by
  constructor
  · intro h
    obtain ⟨d, hd⟩ : ∃ d, d = n.toBinary64 := ⟨_, rfl⟩
    rw [← hd] at h
    by_cases hin : d.isFinite = true ∧ -2 ^ 63 ≤ d.trunc ∧ d.trunc < 2 ^ 63
    · obtain ⟨hf, hl, hu⟩ := hin
      refine ⟨d.trunc, ?_, hl, hu, ?_⟩
      · rw [← h (wildPlatform 0), toInt_castInt64 _ hf hl hu]
      · rw [show d.trunc.natAbs = d.truncNat by rw [Binary64.trunc]; split_ifs <;> simp]
        exact d.representable_truncNat
    · -- outside the range two platforms differ
      have hwild : ∀ i, castInt64 (wildPlatform i) d = i := fun i => by
        rw [castInt64, if_neg (by simpa [and_assoc] using hin)]
        rfl
      have h₀ := h (wildPlatform 0)
      have h₁ := h (wildPlatform 1)
      rw [hwild] at h₀ h₁
      rw [← h₁] at h₀
      exact absurd h₀ (by decide)
  · rintro ⟨i, hv, hl, hu, hr⟩ plat
    rw [castInt64_of_value plat hv hl hu hr, hv]

lemma castInt64_zero (plat : Platform) : castInt64 plat ⟨0⟩ = 0 := by
  rw [castInt64, if_pos (by decide +kernel)]
  decide +kernel

lemma intRead_of_numAt {plat : Platform} {o : Obj} {key : Bytes} {n : NumLit}
    (h : o.numAt key = some n) : intRead plat o key = castInt64 plat n.toBinary64 := by
  simp [intRead, h]

lemma intRead_of_none {plat : Platform} {o : Obj} {key : Bytes} (h : o.numAt key = none) :
    intRead plat o key = 0 := by
  rw [intRead, h]
  exact castInt64_zero plat

lemma intField_iff (o : Obj) (key : Bytes) :
    (∀ plat, IntField o key (some (intRead plat o key))) ↔ IntPresent o key := by
  simp only [IntField, IntPresent]
  cases hn : o.numAt key with
  | none =>
    constructor
    · intro h
      cases h (wildPlatform 0)
    · rintro ⟨n, ⟨⟩, -⟩
  | some n =>
    simp only [Option.rel_some_some, intRead_of_numAt hn, castInt64_eq_value_iff, Option.some.injEq,
      exists_eq_left']

lemma toNat_uint64Answer_iff {n : NumLit} (hi : n.isInt = true) :
    (uint64Answer 0 n).2.toNat = readNat n.int.text ↔ readNat n.int.text < 2 ^ 64 := by
  simp only [uint64Answer, hi, if_true]
  split_ifs with h
  · have := UInt64.toNat_lt (-1)
    constructor <;> intro h' <;> omega
  · simp only [not_le] at h
    exact iff_of_true (UInt64.toNat_ofNat_of_lt' h) h

lemma uintRead_iff (o : Obj) (key : Bytes) :
    (uintRead o key).map UInt64.toNat = o.uintAt key ↔ UintPresent o key := by
  simp only [uintRead, Obj.uintAt, UintPresent]
  cases (o.lookup key).bind Cst.asUnsigned with
  | none => simp
  | some n =>
    cases hi : n.isInt with
    | false => simp [Option.filter, hi]
    | true =>
      rw [Option.filter_some, if_pos hi]
      simpa [hi] using toNat_uint64Answer_iff hi

lemma toNat_word {i : Int64} {k : Nat} (h : i.toInt = k) (hk : k < 2 ^ 32) :
    i.toUInt64.toUInt32.toNat = k := by
  have hnn : 0 ≤ i := Int64.le_iff_toInt_le.mpr (by rw [h]; exact Int.natCast_nonneg k)
  rw [UInt64.toNat_toUInt32, Int64.toNat_toUInt64_of_le hnn, Int64.toNatClampNeg, h,
    Int.toNat_natCast, Nat.mod_eq_of_lt hk]

lemma wordField_iff (plat : Platform) (o : Obj) (key : Bytes) :
    WordField o key (intRead plat o key).toUInt64.toUInt32 ↔ WordFits o key := by
  simp only [WordField, WordFits]
  cases hn : o.numAt key with
  | none =>
    rw [intRead_of_none hn]
    exact iff_of_true rfl (by rintro n ⟨⟩)
  | some n =>
    simp only [Option.elim_some, Option.some.injEq, forall_eq', intRead_of_numAt hn]
    constructor
    · intro h
      exact ⟨_, h.symm, UInt32.toNat_lt _⟩
    · rintro ⟨k, hv, hk⟩
      have hcast := castInt64_of_value plat (i := k) (by exact_mod_cast hv) (by omega) (by omega)
        (Binary64.representable_of_lt (by simp only [Int.natAbs_natCast]; omega))
      rw [toNat_word hcast hk, hv]

lemma clockFields_iff (plat : Platform) (o : Obj) :
    ClockFields o (decodedHlc plat o) ↔ ClockComplete o := by
  rw [decodedHlc, ClockComplete]
  cases he : o.isEmpty with
  | true => simp [ClockFields, Obj.uintAt, Obj.lookup_of_isEmpty he]
  | false =>
    simp only [Bool.false_eq_true, if_false, false_or, uintRead, ClockFields, Obj.uintAt]
    cases (o.lookup (ascii "physical_micros")).bind Cst.asUnsigned with
    | none => simp
    | some n =>
      cases hi : n.isInt with
      | false => simp [hi]
      | true =>
        simp only [Option.filter_some, hi, if_true, Option.map_some, Option.some.injEq,
          wordField_iff, exists_eq_left', true_imp_iff]
        rw [eq_comm, toNat_uint64Answer_iff hi]

lemma clockField_iff (plat : Platform) (o : Obj) :
    ClockField o (hlcRead plat o) ↔
      ∀ p, o.objAt (ascii "last_commit_hlc") = some p → ClockComplete p := by
  rw [ClockField, hlcRead]
  cases o.objAt (ascii "last_commit_hlc") with
  | none => simp
  | some p => simpa using clockFields_iff plat p

lemma getD_eq_iff {α : Type} {x : Option α} {a b : α} (h : x.isSome = true) :
    x.getD a = b ↔ x = some b := by
  cases x with
  | none => cases h
  | some c => simp

/-! ### Records -/

section Empty

variable {o : Obj} (he : o.isEmpty = true)
include he

lemma intField_of_isEmpty (key : Bytes) : IntField o key none := by
  rw [IntField, Obj.numAt, Obj.lookup_of_isEmpty he]
  exact .none

lemma clockField_of_isEmpty : ClockField o none := by
  rw [ClockField, Obj.objAt, Obj.lookup_of_isEmpty he]
  rfl

lemma durableFields_of_isEmpty : DurableFields o {} := by
  have hint := intField_of_isEmpty he
  constructor <;>
    simp [hint, clockField_of_isEmpty he, Obj.strAt, Obj.boolAt, Obj.uintAt,
      Obj.lookup_of_isEmpty he]

lemma statusFields_of_isEmpty (json : Bytes) : StatusFields o { rawJson := json } := by
  have hint := intField_of_isEmpty he
  constructor <;>
    simp [hint, clockField_of_isEmpty he, Obj.strAt, Obj.boolAt, Obj.uintAt, Obj.objAt,
      Obj.lookup_of_isEmpty he]

end Empty

lemma durableFields_iff (o : Obj) :
    (∀ plat, DurableFields o (decodedDurable plat o)) ↔ DurableComplete o := by
  cases he : o.isEmpty with
  | true =>
    simp only [decodedDurable, DurableComplete, he, if_true, true_or, iff_true]
    exact fun _ => durableFields_of_isEmpty he
  | false =>
    simp only [decodedDurable, DurableComplete, he, Bool.false_eq_true, if_false, false_or]
    constructor
    · intro h
      -- one platform is enough for the fields that do not depend on it
      have h₀ := h (wildPlatform 0)
      have htext := some_getD_eq_iff.mp h₀.lastCommitEpochText
      exact {
        committed := some_getD_eq_iff.mp h₀.committed
        committedStatements := (intField_iff o _).mp fun plat => (h plat).committedStatements
        lastCommitEpoch := (uintRead_iff o _).mp h₀.lastCommitEpoch
        lastCommitEpochText := htext
        lastCommitHlc := (clockField_iff _ o).mp h₀.lastCommitHlc
        firstCommitStatementIndex :=
          (intField_iff o _).mp fun plat => (h plat).firstCommitStatementIndex
        lastCommitStatementIndex :=
          (intField_iff o _).mp fun plat => (h plat).lastCommitStatementIndex
        completedStatements := (intField_iff o _).mp fun plat => (h plat).completedStatements
        statementIndex := (intField_iff o _).mp fun plat => (h plat).statementIndex
        serialization :=
          (getD_eq_getD_iff.mp h₀.serialization).imp_right (getD_eq_iff htext).mp
        serializationState := some_getD_eq_iff.mp h₀.serializationState
        terminalState := some_getD_eq_iff.mp h₀.terminalState }
    · intro h plat
      exact {
        committed := some_getD_eq_iff.mpr h.committed
        committedStatements := (intField_iff o _).mpr h.committedStatements plat
        lastCommitEpoch := (uintRead_iff o _).mpr h.lastCommitEpoch
        lastCommitEpochText := some_getD_eq_iff.mpr h.lastCommitEpochText
        lastCommitHlc := (clockField_iff plat o).mpr h.lastCommitHlc
        firstCommitStatementIndex := (intField_iff o _).mpr h.firstCommitStatementIndex plat
        lastCommitStatementIndex := (intField_iff o _).mpr h.lastCommitStatementIndex plat
        completedStatements := (intField_iff o _).mpr h.completedStatements plat
        statementIndex := (intField_iff o _).mpr h.statementIndex plat
        serialization := getD_eq_getD_iff.mpr
          (h.serialization.imp_right (getD_eq_iff h.lastCommitEpochText).mpr)
        serializationState := some_getD_eq_iff.mpr h.serializationState
        terminalState := some_getD_eq_iff.mpr h.terminalState }

lemma outcome_iff (x : Option Obj) :
    (∀ plat, x.elim (durableRead plat x = {}) (DurableFields · (durableRead plat x))) ↔
      ∀ p, x = some p → DurableComplete p := by
  cases x with
  | none => simp [durableRead]
  | some p => simpa [durableRead] using durableFields_iff p

/-- Where there is no member `durable` a record is read all the same. -/
lemma durable_iff (x y : Option Obj) :
    (∀ plat, Option.Rel (fun out p => DurableFields p out) (some (durableRead plat (x.or y))) x) ↔
      ∃ p, x = some p ∧ DurableComplete p := by
  cases x with
  | none =>
    constructor
    · intro h
      cases h (wildPlatform 0)
    · rintro ⟨p, ⟨⟩, -⟩
  | some p => simpa [durableRead] using durableFields_iff p

lemma statusFields_iff (o : Obj) (json : Bytes) :
    (∀ plat, StatusFields o (decodedStatus plat o json)) ↔ StatusComplete o := by
  cases he : o.isEmpty with
  | true =>
    simp only [decodedStatus, StatusComplete, he, if_true, true_or, iff_true]
    exact fun _ => statusFields_of_isEmpty he json
  | false =>
    simp only [decodedStatus, StatusComplete, he, Bool.false_eq_true, if_false, false_or]
    constructor
    · intro h
      -- one platform is enough for the fields that do not depend on it
      have h₀ := h (wildPlatform 0)
      have hcommitted := some_getD_eq_iff.mp h₀.committed
      have hcancel := some_getD_eq_iff.mp h₀.cancelOutcome
      -- the state is read after the status and falls back on it
      have hstatus := h₀.status
      have hstate := h₀.state
      simp only at hstatus hstate
      rw [hstatus] at hstate
      exact {
        status := getD_eq_getD_iff.mp hstatus
        state := getD_eq_getD_iff.mp hstate
        terminalState := some_getD_eq_iff.mp h₀.terminalState
        committed := hcommitted
        committedStatements := (intField_iff o _).mp fun plat => (h plat).committedStatements
        lastCommitEpoch := (uintRead_iff o _).mp h₀.lastCommitEpoch
        lastCommitEpochText := some_getD_eq_iff.mp h₀.lastCommitEpochText
        lastCommitHlc := (clockField_iff _ o).mp h₀.lastCommitHlc
        firstCommitStatementIndex :=
          (intField_iff o _).mp fun plat => (h plat).firstCommitStatementIndex
        lastCommitStatementIndex :=
          (intField_iff o _).mp fun plat => (h plat).lastCommitStatementIndex
        completedStatements := (intField_iff o _).mp fun plat => (h plat).completedStatements
        statementIndex := (intField_iff o _).mp fun plat => (h plat).statementIndex
        cancelOutcome := hcancel
        cancellationReason :=
          (getD_eq_getD_iff.mp h₀.cancellationReason).imp_right (getD_eq_iff hcancel).mp
        retryable := (getD_eq_getD_iff.mp h₀.retryable).imp_right (getD_eq_iff hcommitted).mp
        outcome := (outcome_iff _).mp fun plat => (h plat).outcome
        durable := (durable_iff _ _).mp fun plat => (h plat).durable }
    · intro h plat
      -- a status that is not there falls back on the query id
      have hstatus : (o.strAt (ascii "status")).getD ((o.strAt (ascii "query_id")).getD []) =
          (o.strAt (ascii "status")).getD [] := getD_eq_getD_iff.mpr h.status
      exact {
        queryId := rfl
        status := hstatus
        state := by
          simp only [hstatus]
          exact getD_eq_getD_iff.mpr h.state
        serverState := rfl
        terminalState := some_getD_eq_iff.mpr h.terminalState
        committed := some_getD_eq_iff.mpr h.committed
        committedStatements := (intField_iff o _).mpr h.committedStatements plat
        lastCommitEpoch := (uintRead_iff o _).mpr h.lastCommitEpoch
        lastCommitEpochText := some_getD_eq_iff.mpr h.lastCommitEpochText
        lastCommitHlc := (clockField_iff plat o).mpr h.lastCommitHlc
        firstCommitStatementIndex := (intField_iff o _).mpr h.firstCommitStatementIndex plat
        lastCommitStatementIndex := (intField_iff o _).mpr h.lastCommitStatementIndex plat
        completedStatements := (intField_iff o _).mpr h.completedStatements plat
        statementIndex := (intField_iff o _).mpr h.statementIndex plat
        cancelOutcome := some_getD_eq_iff.mpr h.cancelOutcome
        cancellationReason := getD_eq_getD_iff.mpr
          (h.cancellationReason.imp_right (getD_eq_iff h.cancelOutcome).mpr)
        retryable := getD_eq_getD_iff.mpr (h.retryable.imp_right (getD_eq_iff h.committed).mpr)
        outcome := (outcome_iff _).mpr h.outcome plat
        durable := (durable_iff _ _).mpr h.durable plat }

/-- When each field of a decoded status is the member of its own name, on every platform. -/
theorem parseQueryStatusJson_fields_iff (d : ObjDoc) (hd : d.obj.distinct = true) :
    (∀ plat, ∃ st, (parseQueryStatusJson plat d.render).out = .ok st ∧ StatusFields d.obj st) ↔
      StatusComplete d.obj := by
  rw [← statusFields_iff d.obj d.render]
  refine forall_congr' fun plat => ?_
  simp [parseQueryStatusJson_object plat hd]

/-- The clock of a commit. -/
def committedClock : Obj :=
  .members (membersOf (named "physical_micros" (intOf 1700000000000000))
    [named "logical" (intOf 3), named "node_tiebreaker" (intOf 7)])

/-- The record of a commit, with all of its members. -/
def committedDurable : Obj :=
  .members (membersOf (named "committed" (.bool true))
    [named "committed_statements" (intOf 1), named "last_commit_epoch" (intOf 17),
      named "last_commit_epoch_text" (strOf "17"), named "last_commit_hlc" committedClock.toCst,
      named "first_commit_statement_index" (intOf 0), named "last_commit_statement_index" (intOf 0),
      named "completed_statements" (intOf 1), named "statement_index" (intOf 0),
      named "serialization" (strOf "succeeded"), named "serialization_state" (strOf "succeeded"),
      named "terminal_state" (strOf "committed")])

/-- The status of a commit, with all of its members. -/
def committedStatus : ObjDoc :=
  objText (.members (membersOf (named "query_id" (strOf "abcdefabcdefabcdefabcdefabcdefab"))
    [named "status" (strOf "committed"), named "state" (strOf "completed"),
      named "server_state" (strOf "finished"), named "terminal_state" (strOf "committed"),
      named "committed" (.bool true), named "committed_statements" (intOf 1),
      named "last_commit_epoch" (intOf 17), named "last_commit_epoch_text" (strOf "17"),
      named "last_commit_hlc" committedClock.toCst,
      named "first_commit_statement_index" (intOf 0), named "last_commit_statement_index" (intOf 0),
      named "completed_statements" (intOf 1), named "statement_index" (intOf 0),
      named "cancel_outcome" (strOf "none"), named "cancellation_reason" (strOf ""),
      named "retryable" (.bool false), named "outcome" committedDurable.toCst,
      named "durable" committedDurable.toCst]))

section Committed

variable {o : Obj} {key : Bytes}

lemma intPresent_of_lookup (i : Int) (hi : i.natAbs < 2 ^ 53) (h : o.lookup key = some (intOf i)) :
    IntPresent o key := by
  refine ⟨intLit i, by rw [Obj.numAt, h]; rfl, i, ?_, by omega, by omega,
    Binary64.representable_of_lt hi⟩
  rw [NumLit.value_of_isInt rfl, intLit_intValue]

lemma uintPresent_of_lookup (n : Nat) (hn : n < 2 ^ 64) (h : o.lookup key = some (intOf n)) :
    UintPresent o key := by
  have hneg : (intLit n).neg = false := by simp [intLit]
  refine ⟨intLit n, by rw [h]; simp [intOf, Cst.asUnsigned, Cst.asNum, hneg], fun _ => ?_⟩
  change readNat (decimal _) < _
  rw [readNat_decimal]
  exact hn

lemma wordFits_of_lookup (n : Nat) (hn : n < 2 ^ 32) (h : o.lookup key = some (intOf n)) :
    WordFits o key := by
  intro lit hlit
  rw [Obj.numAt, h] at hlit
  obtain rfl := Option.some.inj hlit
  exact ⟨n, by rw [NumLit.value_of_isInt rfl, intLit_intValue]; rfl, hn⟩

lemma isSome_strAt_of_lookup (s : String) (h : o.lookup key = some (strOf s)) :
    (o.strAt key).isSome = true := by
  rw [Obj.strAt, h]
  rfl

lemma isSome_boolAt_of_lookup (b : Bool) (h : o.lookup key = some (.bool b)) :
    (o.boolAt key).isSome = true := by
  rw [Obj.boolAt, h]
  rfl

lemma objAt_of_lookup {p : Obj} (h : o.lookup key = some p.toCst) : o.objAt key = some p := by
  rw [Obj.objAt, h]
  cases p <;> rfl

lemma clockComplete_committedClock : ClockComplete committedClock := by
  have hd : committedClock.distinct = true := by decide
  obtain ⟨n, hn, hlt⟩ : UintPresent committedClock (ascii "physical_micros") :=
    uintPresent_of_lookup 1700000000000000 (by norm_num) (lookup_named hd (by simp))
  have hlogical : WordFits committedClock (ascii "logical") :=
    wordFits_of_lookup 3 (by norm_num) (lookup_named hd (by simp))
  have htiebreaker : WordFits committedClock (ascii "node_tiebreaker") :=
    wordFits_of_lookup 7 (by norm_num) (lookup_named hd (by simp))
  exact .inr ⟨n, hn, fun hint => ⟨hlt hint, hlogical, htiebreaker⟩⟩

lemma durablePresent_committedDurable : DurablePresent committedDurable := by
  have hd : committedDurable.distinct = true := by decide
  have hclock : committedDurable.objAt (ascii "last_commit_hlc") = some committedClock :=
    objAt_of_lookup (lookup_named hd (by simp))
  exact {
    committed := isSome_boolAt_of_lookup true (lookup_named hd (by simp))
    committedStatements := intPresent_of_lookup 1 (by norm_num) (lookup_named hd (by simp))
    lastCommitEpoch := uintPresent_of_lookup 17 (by norm_num) (lookup_named hd (by simp))
    lastCommitEpochText := isSome_strAt_of_lookup "17" (lookup_named hd (by simp))
    lastCommitHlc := by
      intro p hp
      rw [hclock] at hp
      exact Option.some.inj hp ▸ clockComplete_committedClock
    firstCommitStatementIndex := intPresent_of_lookup 0 (by norm_num) (lookup_named hd (by simp))
    lastCommitStatementIndex := intPresent_of_lookup 0 (by norm_num) (lookup_named hd (by simp))
    completedStatements := intPresent_of_lookup 1 (by norm_num) (lookup_named hd (by simp))
    statementIndex := intPresent_of_lookup 0 (by norm_num) (lookup_named hd (by simp))
    serialization := .inl (isSome_strAt_of_lookup "succeeded" (lookup_named hd (by simp)))
    serializationState := isSome_strAt_of_lookup "succeeded" (lookup_named hd (by simp))
    terminalState := isSome_strAt_of_lookup "committed" (lookup_named hd (by simp)) }

end Committed

/-- A complete status with complete records is decoded field by field. -/
theorem parseQueryStatusJson_fields_committed : StatusPresent committedStatus.obj ∧
    ∀ plat, ∃ st, (parseQueryStatusJson plat committedStatus.render).out = .ok st ∧
      StatusFields committedStatus.obj st := by
  have hd : committedStatus.obj.distinct = true := by decide
  have hclock : committedStatus.obj.objAt (ascii "last_commit_hlc") = some committedClock :=
    objAt_of_lookup (lookup_named hd (by simp))
  have houtcome : committedStatus.obj.objAt (ascii "outcome") = some committedDurable :=
    objAt_of_lookup (lookup_named hd (by simp))
  have hdurable : committedStatus.obj.objAt (ascii "durable") = some committedDurable :=
    objAt_of_lookup (lookup_named hd (by simp))
  have hpresent : StatusPresent committedStatus.obj := {
    status := .inl (isSome_strAt_of_lookup "committed" (lookup_named hd (by simp)))
    state := .inl (isSome_strAt_of_lookup "completed" (lookup_named hd (by simp)))
    terminalState := isSome_strAt_of_lookup "committed" (lookup_named hd (by simp))
    committed := isSome_boolAt_of_lookup true (lookup_named hd (by simp))
    committedStatements := intPresent_of_lookup 1 (by norm_num) (lookup_named hd (by simp))
    lastCommitEpoch := uintPresent_of_lookup 17 (by norm_num) (lookup_named hd (by simp))
    lastCommitEpochText := isSome_strAt_of_lookup "17" (lookup_named hd (by simp))
    lastCommitHlc := by
      intro p hp
      rw [hclock] at hp
      exact Option.some.inj hp ▸ clockComplete_committedClock
    firstCommitStatementIndex := intPresent_of_lookup 0 (by norm_num) (lookup_named hd (by simp))
    lastCommitStatementIndex := intPresent_of_lookup 0 (by norm_num) (lookup_named hd (by simp))
    completedStatements := intPresent_of_lookup 1 (by norm_num) (lookup_named hd (by simp))
    statementIndex := intPresent_of_lookup 0 (by norm_num) (lookup_named hd (by simp))
    cancelOutcome := isSome_strAt_of_lookup "none" (lookup_named hd (by simp))
    cancellationReason := .inl (isSome_strAt_of_lookup "" (lookup_named hd (by simp)))
    retryable := .inl (isSome_boolAt_of_lookup false (lookup_named hd (by simp)))
    outcome := by
      intro p hp
      rw [houtcome] at hp
      exact .inr (Option.some.inj hp ▸ durablePresent_committedDurable)
    durable := ⟨committedDurable, hdurable, .inr durablePresent_committedDurable⟩ }
  exact ⟨hpresent, (parseQueryStatusJson_fields_iff committedStatus hd).mpr (.inr hpresent)⟩

/-- A status that consists of a state alone is given that state as its terminal state too. -/
theorem parseQueryStatusJson_fields_leak : ∃ d : ObjDoc, d.obj.distinct = true ∧
    d.render = ascii "\x7b\"state\":\"x\"\x7d" ∧
      d.obj.strAt (ascii "terminal_state") = none ∧
        ∀ plat st, (parseQueryStatusJson plat d.render).out = .ok st →
          st.terminalState = some (ascii "x") ∧ ¬StatusFields d.obj st := by
  let name : StrLit :=
    [.raw 0x73 rfl, .raw 0x74 rfl, .raw 0x61 rfl, .raw 0x74 rfl, .raw 0x65 rfl]
  let d : ObjDoc := ⟨Ws.none, .members (.last ⟨Ws.none, name, Ws.none⟩ Ws.none
    (.str [.raw 0x78 rfl]) Ws.none), Ws.none⟩
  have hdist : d.obj.distinct = true := by decide
  have habsent : d.obj.strAt (ascii "terminal_state") = none := by decide
  refine ⟨d, hdist, by decide, habsent, fun plat st hst => ?_⟩
  rw [parseQueryStatusJson_object plat hdist] at hst
  obtain rfl := Except.ok.inj hst
  have hleak : (decodedStatus plat d.obj d.render).terminalState = some (ascii "x") := by
    change some _ = _
    decide
  refine ⟨hleak, fun h => ?_⟩
  rw [h.terminalState, habsent] at hleak
  cases hleak

end MongrelDB
