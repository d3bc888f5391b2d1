import MongrelDB.Walker.Objects
import MongrelDB.Client.Status

/-!
# What the status decoders return on objects

On an object that is not empty every read of `parse_query_status_json` and
`parse_durable_outcome` finds something: the member of its name and type, or what the scratch
variable holds at that point. So the decoded record can be written down read by read
(`decodedStatus`, `decodedDurable`, `decodedHlc`).
-/

namespace MongrelDB

open Text Traced Json

/-! ### Reads -/

/-- What `get_int` reads in an object that is not empty. -/
def intRead (plat : Platform) (o : Obj) (key : Bytes) : Int64 :=
  castInt64 plat (((o.numAt key).map NumLit.toBinary64).getD ⟨0⟩)

/-- What `get_uint64` reads in an object that is not empty, if it finds something. -/
def uintRead (o : Obj) (key : Bytes) : Option UInt64 :=
  match (o.lookup key).bind Cst.asUnsigned with
  | some n => if n.isInt then some (uint64Answer 0 n).2 else none
  | none => some 0

section Reads

variable {d : ObjDoc} (hd : d.obj.distinct = true)
include hd

/-- `get_int` finds something in every object that is not empty. -/
lemma getInt_object (plat : Platform) (key : Bytes) (out : Int64) :
    (getInt plat d.render key out).out =
      .ok (if d.obj.isEmpty then (false, out) else (true, intRead plat d.obj key)) := by
  rw [getInt, Run.out_bind_ok (getNumber_object hd key _), answer, intRead]
  cases hn : d.obj.numAt key with
  | some n =>
    cases he : d.obj.isEmpty with
    | false => simp
    | true => simp [Obj.numAt, Obj.lookup_of_isEmpty he] at hn
  | none => cases d.obj.isEmpty <;> simp

/-- Called with zero, `get_uint64` finds what `uintRead` says. -/
lemma getUint64_zero (key : Bytes) : ∃ found out, (getUint64 d.render key 0).out =
    .ok (found, out) ∧
      (if found then some out else none) = if d.obj.isEmpty then none else uintRead d.obj key := by
  rw [getUint64_object hd, uintRead]
  cases hn : (d.obj.lookup key).bind Cst.asUnsigned with
  | some n =>
    cases he : d.obj.isEmpty with
    | true => simp [Obj.lookup_of_isEmpty he] at hn
    | false => cases hi : n.isInt <;> simp [uint64Answer, hi]
  | none => cases d.obj.isEmpty <;> simp

end Reads

section Empty

variable {d : ObjDoc} (hd : d.obj.distinct = true) (he : d.obj.isEmpty = true) (key : Bytes)
include hd he

lemma getString_of_isEmpty (out : Bytes) :
    (getString d.render key out).out = .ok (false, out) := by
  simp [getString_object hd, answer, he, Obj.strAt, Obj.lookup_of_isEmpty he]

lemma getBool_of_isEmpty (out : Bool) : (getBool d.render key out).out = .ok (false, out) := by
  simp [getBool_object hd, answer, he, Obj.boolAt, Obj.lookup_of_isEmpty he]

lemma getInt_of_isEmpty (plat : Platform) (out : Int64) :
    (getInt plat d.render key out).out = .ok (false, out) := by
  rw [getInt_object hd, if_pos he]

lemma getUint64_of_isEmpty : (getUint64 d.render key 0).out = .ok (false, 0) := by
  rw [getUint64_object hd, Obj.lookup_of_isEmpty he, he]
  rfl

lemma getObjectRaw_of_isEmpty (out : Bytes) :
    (getObjectRaw d.render key out).out = .ok (false, out) := by
  simp [getObjectRaw_object hd, answer, he, Obj.objAt, Obj.lookup_of_isEmpty he]

end Empty

section Members

variable {d : ObjDoc} (hd : d.obj.distinct = true) (he : d.obj.isEmpty = false) (key : Bytes)
include hd he

lemma getString_of_members (out : Bytes) : (getString d.render key out).out =
    .ok (true, (d.obj.strAt key).getD out) := by
  simp [getString_object hd, answer, he]

lemma getBool_of_members (out : Bool) : (getBool d.render key out).out =
    .ok (true, (d.obj.boolAt key).getD out) := by
  simp [getBool_object hd, answer, he]

lemma getInt_of_members (plat : Platform) (out : Int64) :
    (getInt plat d.render key out).out = .ok (true, intRead plat d.obj key) := by
  rw [getInt_object hd, if_neg (by simp [he])]

lemma getObjectRaw_of_members (out : Bytes) : (getObjectRaw d.render key out).out =
    .ok (true, ((d.obj.objAt key).map Obj.render).getD out) := by
  simp [getObjectRaw_object hd, answer, he]

end Members

/-! ### Records -/

/-- What `parse_commit_hlc` makes of an object. -/
def decodedHlc (plat : Platform) (o : Obj) : Option CommitHlc :=
  if o.isEmpty then none
  else (uintRead o (ascii "physical_micros")).map fun phys =>
    ⟨phys, (intRead plat o (ascii "logical")).toUInt64.toUInt32,
      (intRead plat o (ascii "node_tiebreaker")).toUInt64.toUInt32⟩

/-- The clock in the member `last_commit_hlc`. -/
def hlcRead (plat : Platform) (o : Obj) : Option CommitHlc :=
  (o.objAt (ascii "last_commit_hlc")).bind (decodedHlc plat)

/-- What `parse_durable_outcome` makes of an object. In one that is not empty a string or a flag
that is missing is read as what the last such read has left. -/
def decodedDurable (plat : Platform) (o : Obj) : DurableOutcome :=
  if o.isEmpty then {}
  else
    let text := (o.strAt (ascii "last_commit_epoch_text")).getD []
    let serialization := (o.strAt (ascii "serialization")).getD text
    let serializationState := (o.strAt (ascii "serialization_state")).getD serialization
    { committed := some ((o.boolAt (ascii "committed")).getD false)
      committedStatements := some (intRead plat o (ascii "committed_statements"))
      lastCommitEpoch := uintRead o (ascii "last_commit_epoch")
      lastCommitEpochText := some text
      lastCommitHlc := hlcRead plat o
      firstCommitStatementIndex := some (intRead plat o (ascii "first_commit_statement_index"))
      lastCommitStatementIndex := some (intRead plat o (ascii "last_commit_statement_index"))
      completedStatements := some (intRead plat o (ascii "completed_statements"))
      statementIndex := some (intRead plat o (ascii "statement_index"))
      serialization := serialization
      serializationState := some serializationState
      terminalState := some ((o.strAt (ascii "terminal_state")).getD serializationState) }

/-- The record that a member holds, or the default one. -/
def durableRead (plat : Platform) (x : Option Obj) : DurableOutcome :=
  (x.map (decodedDurable plat)).getD {}

/-- What `parse_query_status_json` makes of an object, read in the same way. -/
def decodedStatus (plat : Platform) (o : Obj) (json : Bytes) : QueryStatus :=
  if o.isEmpty then { rawJson := json }
  else
    let queryId := (o.strAt (ascii "query_id")).getD []
    let status := (o.strAt (ascii "status")).getD queryId
    let state := (o.strAt (ascii "state")).getD status
    let serverState := (o.strAt (ascii "server_state")).getD state
    let terminalState := (o.strAt (ascii "terminal_state")).getD serverState
    let committed := (o.boolAt (ascii "committed")).getD false
    let text := (o.strAt (ascii "last_commit_epoch_text")).getD terminalState
    let cancelOutcome := (o.strAt (ascii "cancel_outcome")).getD text
    let outcome := o.objAt (ascii "outcome")
    { queryId := queryId
      status := status
      state := state
      serverState := serverState
      terminalState := some terminalState
      committed := some committed
      committedStatements := some (intRead plat o (ascii "committed_statements"))
      lastCommitEpoch := uintRead o (ascii "last_commit_epoch")
      lastCommitEpochText := some text
      lastCommitHlc := hlcRead plat o
      firstCommitStatementIndex := some (intRead plat o (ascii "first_commit_statement_index"))
      lastCommitStatementIndex := some (intRead plat o (ascii "last_commit_statement_index"))
      completedStatements := some (intRead plat o (ascii "completed_statements"))
      statementIndex := some (intRead plat o (ascii "statement_index"))
      cancelOutcome := some cancelOutcome
      cancellationReason := (o.strAt (ascii "cancellation_reason")).getD cancelOutcome
      retryable := (o.boolAt (ascii "retryable")).getD committed
      outcome := durableRead plat outcome
      durable := some (durableRead plat ((o.objAt (ascii "durable")).or outcome))
      rawJson := json }

/-! ### Decoders -/

/-- An object as a text of its own. -/
def objText (o : Obj) : ObjDoc := ⟨Ws.none, o, Ws.none⟩

lemma render_objText (o : Obj) : (objText o).render = o.render := by
  simp [ObjDoc.render_eq, objText, Ws.none]

lemma parseCommitHlc_nil (plat : Platform) : (parseCommitHlc plat []).out = .ok none := by
  have h : (getUint64 [] (ascii "physical_micros") 0).out = .ok (false, 0) :=
    out_scan_of_no_object fun w hw => by simp [JsonParser.Next] at hw
  rw [parseCommitHlc, Run.out_bind_ok h]
  rfl

lemma parseCommitHlc_text (plat : Platform) {d : ObjDoc} (hd : d.obj.distinct = true) :
    (parseCommitHlc plat d.render).out = .ok (decodedHlc plat d.obj) := by
  obtain ⟨found, phys, hphys, hfound⟩ := getUint64_zero hd (ascii "physical_micros")
  rw [parseCommitHlc, decodedHlc]
  refine (Run.out_bind_ok hphys _).trans ?_
  cases he : d.obj.isEmpty with
  | true =>
    cases found with
    | false => rfl
    | true => simp [he] at hfound
  | false =>
    simp only [he, Bool.false_eq_true, if_false] at hfound
    rw [← hfound]
    cases found with
    | false => rfl
    | true =>
      refine (Run.out_bind_ok (getInt_of_members hd he _ _ _) _).trans ?_
      exact (Run.out_bind_ok (getInt_of_members hd he _ _ _) _).trans rfl

lemma parseCommitHlc_object (plat : Platform) {o : Obj} (ho : o.distinct = true) :
    (parseCommitHlc plat o.render).out = .ok (decodedHlc plat o) := by
  have hd : (objText o).obj.distinct = true := ho
  rw [← render_objText]
  exact parseCommitHlc_text plat hd

/-- The clock that `get_object_raw` leaves to `parse_commit_hlc`. -/
lemma parseCommitHlc_read (plat : Platform) {o : Obj} (ho : o.distinct = true) :
    (parseCommitHlc plat (((o.objAt (ascii "last_commit_hlc")).map Obj.render).getD [])).out =
      .ok (hlcRead plat o) := by
  rw [hlcRead]
  cases h : o.objAt (ascii "last_commit_hlc") with
  | none => exact parseCommitHlc_nil plat
  | some p => exact parseCommitHlc_object plat (Obj.distinct_of_objAt ho h)

lemma parseDurableOutcome_object (plat : Platform) {o : Obj} (ho : o.distinct = true) :
    (parseDurableOutcome plat o.render).out = .ok (decodedDurable plat o) := by
  have hd : (objText o).obj.distinct = true := ho
  have hne : (objText o).render.isEmpty = false := by
    rw [render_objText, List.isEmpty_eq_false_iff, ← List.length_pos_iff]
    exact o.toCst.render_length_pos
  rw [← render_objText, parseDurableOutcome, decodedDurable, if_neg (by simp [hne])]
  cases he : o.isEmpty with
  | true =>
    refine (Run.out_bind_ok (getBool_of_isEmpty hd he _ _) _).trans ?_
    refine (Run.out_bind_ok (getInt_of_isEmpty hd he _ _ _) _).trans ?_
    refine (Run.out_bind_ok (getUint64_of_isEmpty hd he _) _).trans ?_
    refine (Run.out_bind_ok (getString_of_isEmpty hd he _ _) _).trans ?_
    refine (Run.out_bind_ok (getObjectRaw_of_isEmpty hd he _ _) _).trans ?_
    refine (Run.out_bind_ok (Run.out_pure _) _).trans ?_
    refine (Run.out_bind_ok (getInt_of_isEmpty hd he _ _ _) _).trans ?_
    refine (Run.out_bind_ok (getInt_of_isEmpty hd he _ _ _) _).trans ?_
    refine (Run.out_bind_ok (getInt_of_isEmpty hd he _ _ _) _).trans ?_
    refine (Run.out_bind_ok (getInt_of_isEmpty hd he _ _ _) _).trans ?_
    refine (Run.out_bind_ok (getString_of_isEmpty hd he _ _) _).trans ?_
    refine (Run.out_bind_ok (getString_of_isEmpty hd he _ _) _).trans ?_
    refine (Run.out_bind_ok (getString_of_isEmpty hd he _ _) _).trans ?_
    rfl
  | false =>
    obtain ⟨found, u, huint, hfound⟩ := getUint64_zero hd (ascii "last_commit_epoch")
    simp only [show (objText o).obj = o from rfl, he, Bool.false_eq_true, if_false] at hfound
    rw [← hfound]
    refine (Run.out_bind_ok (getBool_of_members hd he _ _) _).trans ?_
    refine (Run.out_bind_ok (getInt_of_members hd he _ _ _) _).trans ?_
    refine (Run.out_bind_ok huint _).trans ?_
    refine (Run.out_bind_ok (getString_of_members hd he _ _) _).trans ?_
    refine (Run.out_bind_ok (getObjectRaw_of_members hd he _ _) _).trans ?_
    refine (Run.out_bind_ok (parseCommitHlc_read plat ho) _).trans ?_
    refine (Run.out_bind_ok (getInt_of_members hd he _ _ _) _).trans ?_
    refine (Run.out_bind_ok (getInt_of_members hd he _ _ _) _).trans ?_
    refine (Run.out_bind_ok (getInt_of_members hd he _ _ _) _).trans ?_
    refine (Run.out_bind_ok (getInt_of_members hd he _ _ _) _).trans ?_
    refine (Run.out_bind_ok (getString_of_members hd he _ _) _).trans ?_
    refine (Run.out_bind_ok (getString_of_members hd he _ _) _).trans ?_
    refine (Run.out_bind_ok (getString_of_members hd he _ _) _).trans ?_
    cases found <;> rfl

lemma parseDurableOutcome_read (plat : Platform) {x : Option Obj}
    (hx : ∀ o, x = some o → o.distinct = true) :
    (parseDurableOutcome plat ((x.map Obj.render).getD [])).out = .ok (durableRead plat x) := by
  cases x with
  | none => rfl
  | some o => exact parseDurableOutcome_object plat (hx o rfl)

/-- The decoder of the status computes `decodedStatus` on every object with distinct names. -/
theorem parseQueryStatusJson_object (plat : Platform) {d : ObjDoc} (hd : d.obj.distinct = true) :
    (parseQueryStatusJson plat d.render).out = .ok (decodedStatus plat d.obj d.render) := by
  rw [parseQueryStatusJson, decodedStatus]
  cases he : d.obj.isEmpty with
  | true =>
    refine (Run.out_bind_ok (getString_of_isEmpty hd he _ _) _).trans ?_
    refine (Run.out_bind_ok (getString_of_isEmpty hd he _ _) _).trans ?_
    refine (Run.out_bind_ok (getString_of_isEmpty hd he _ _) _).trans ?_
    refine (Run.out_bind_ok (getString_of_isEmpty hd he _ _) _).trans ?_
    refine (Run.out_bind_ok (getString_of_isEmpty hd he _ _) _).trans ?_
    refine (Run.out_bind_ok (getBool_of_isEmpty hd he _ _) _).trans ?_
    refine (Run.out_bind_ok (getInt_of_isEmpty hd he _ _ _) _).trans ?_
    refine (Run.out_bind_ok (getUint64_of_isEmpty hd he _) _).trans ?_
    refine (Run.out_bind_ok (getString_of_isEmpty hd he _ _) _).trans ?_
    refine (Run.out_bind_ok (getObjectRaw_of_isEmpty hd he _ _) _).trans ?_
    refine (Run.out_bind_ok (Run.out_pure _) _).trans ?_
    refine (Run.out_bind_ok (getInt_of_isEmpty hd he _ _ _) _).trans ?_
    refine (Run.out_bind_ok (getInt_of_isEmpty hd he _ _ _) _).trans ?_
    refine (Run.out_bind_ok (getInt_of_isEmpty hd he _ _ _) _).trans ?_
    refine (Run.out_bind_ok (getInt_of_isEmpty hd he _ _ _) _).trans ?_
    refine (Run.out_bind_ok (getString_of_isEmpty hd he _ _) _).trans ?_
    refine (Run.out_bind_ok (getString_of_isEmpty hd he _ _) _).trans ?_
    refine (Run.out_bind_ok (getBool_of_isEmpty hd he _ _) _).trans ?_
    refine (Run.out_bind_ok (getObjectRaw_of_isEmpty hd he _ _) _).trans ?_
    refine (Run.out_bind_ok (Run.out_pure _) _).trans ?_
    refine (Run.out_bind_ok (getObjectRaw_of_isEmpty hd he _ _) _).trans ?_
    exact (Run.out_bind_ok (Run.out_pure _) _).trans rfl
  | false =>
    obtain ⟨found, u, huint, hfound⟩ := getUint64_zero hd (ascii "last_commit_epoch")
    simp only [he, Bool.false_eq_true, if_false] at hfound
    have houtcome : ∀ o, d.obj.objAt (ascii "outcome") = some o → o.distinct = true :=
      fun o ho => Obj.distinct_of_objAt hd ho
    have hdurable : ∀ o, (d.obj.objAt (ascii "durable")).or (d.obj.objAt (ascii "outcome")) =
        some o → o.distinct = true := by
      intro o ho
      rcases Option.or_eq_some_iff.mp ho with ho | ⟨-, ho⟩
      · exact Obj.distinct_of_objAt hd ho
      · exact houtcome o ho
    -- without a member `durable` the text of `outcome` is read again
    have hscratch : ((d.obj.objAt (ascii "durable")).map Obj.render).getD
        (((d.obj.objAt (ascii "outcome")).map Obj.render).getD []) =
          ((((d.obj.objAt (ascii "durable")).or (d.obj.objAt (ascii "outcome"))).map
            Obj.render).getD []) := by
      cases d.obj.objAt (ascii "durable") <;> rfl
    have hraw := getObjectRaw_of_members hd he (ascii "durable")
      (((d.obj.objAt (ascii "outcome")).map Obj.render).getD [])
    rw [hscratch] at hraw
    rw [← hfound]
    refine (Run.out_bind_ok (getString_of_members hd he _ _) _).trans ?_
    refine (Run.out_bind_ok (getString_of_members hd he _ _) _).trans ?_
    refine (Run.out_bind_ok (getString_of_members hd he _ _) _).trans ?_
    refine (Run.out_bind_ok (getString_of_members hd he _ _) _).trans ?_
    refine (Run.out_bind_ok (getString_of_members hd he _ _) _).trans ?_
    refine (Run.out_bind_ok (getBool_of_members hd he _ _) _).trans ?_
    refine (Run.out_bind_ok (getInt_of_members hd he _ _ _) _).trans ?_
    refine (Run.out_bind_ok huint _).trans ?_
    refine (Run.out_bind_ok (getString_of_members hd he _ _) _).trans ?_
    refine (Run.out_bind_ok (getObjectRaw_of_members hd he _ _) _).trans ?_
    refine (Run.out_bind_ok (parseCommitHlc_read plat hd) _).trans ?_
    refine (Run.out_bind_ok (getInt_of_members hd he _ _ _) _).trans ?_
    refine (Run.out_bind_ok (getInt_of_members hd he _ _ _) _).trans ?_
    refine (Run.out_bind_ok (getInt_of_members hd he _ _ _) _).trans ?_
    refine (Run.out_bind_ok (getInt_of_members hd he _ _ _) _).trans ?_
    refine (Run.out_bind_ok (getString_of_members hd he _ _) _).trans ?_
    refine (Run.out_bind_ok (getString_of_members hd he _ _) _).trans ?_
    refine (Run.out_bind_ok (getBool_of_members hd he _ _) _).trans ?_
    refine (Run.out_bind_ok (getObjectRaw_of_members hd he _ _) _).trans ?_
    refine (Run.out_bind_ok (parseDurableOutcome_read plat houtcome) _).trans ?_
    refine (Run.out_bind_ok hraw _).trans ?_
    refine (Run.out_bind_ok (parseDurableOutcome_read plat hdurable) _).trans ?_
    cases found <;> rfl

end MongrelDB
