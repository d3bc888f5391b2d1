import MongrelDB.Client.Calls
import MongrelDB.Contract.Status
import MongrelDB.Encoder.Values

/-!
# How a query was serialized

`QueryStatus::serialization_state()` prefers what is nested under `durable` to what is nested under
`outcome`, and there `serialization_state` to `serialization`, passing over empty texts. Of a
decoded status it returns just that, except that the epoch text of a nested object stands in for a
`serialization` that the object does not have.
-/

namespace MongrelDB

open Text Traced Json

/-! ### The first text -/

/-- The first text that is not empty. -/
def firstText (l : List Bytes) : Bytes := (l.find? fun s => !s.isEmpty).getD []

@[simp] lemma firstText_nil : firstText [] = [] := rfl

@[simp] lemma firstText_nil_cons (l : List Bytes) : firstText ([] :: l) = firstText l := rfl

@[simp] lemma firstText_cons_cons (b : UInt8) (s : Bytes) (l : List Bytes) :
    firstText ((b :: s) :: l) = b :: s := rfl

lemma firstText_cons_self (s : Bytes) (l : List Bytes) :
    firstText (s :: s :: l) = firstText (s :: l) := by cases s <;> simp

@[simp] lemma firstText_singleton (s : Bytes) : firstText [s] = s := by cases s <;> rfl

lemma firstText_append (l m : List Bytes) :
    firstText (l ++ m) = firstText [firstText l, firstText m] := by
  induction l with
  | nil => simp
  | cons s l ih => cases s <;> simp [ih]

/-! ### Of a record -/

def DurableOutcome.serialized (o : DurableOutcome) : List Bytes :=
  [o.serializationState.getD [], o.serialization]

lemma QueryStatus.serializationState_eq (st : QueryStatus) : st.serializationState =
    firstText ((st.durable.map DurableOutcome.serialized).getD [] ++ st.outcome.serialized) := by
  have hout : firstText st.outcome.serialized =
      QueryStatus.serializationState { outcome := st.outcome } := by
    rw [DurableOutcome.serialized, QueryStatus.serializationState]
    rcases st.outcome.serializationState with - | - | ⟨b, s⟩ <;>
      cases st.outcome.serialization <;> rfl
  cases hdurable : st.durable with
  | none =>
    rw [QueryStatus.serializationState, hdurable]
    exact hout.symm
  | some o =>
    rw [QueryStatus.serializationState, hdurable, Option.map_some, Option.getD_some,
      DurableOutcome.serialized, List.cons_append, List.cons_append, List.nil_append]
    dsimp only
    rcases o.serializationState with - | - | ⟨b, s⟩ <;> cases o.serialization <;>
      first | rfl | exact hout.symm

/-! ### Of a response -/

/-- The texts that a nested object leaves to `serialization_state()`. -/
def serializedIn (o : Obj) : List Bytes :=
  [(o.strAt (ascii "serialization_state")).getD [],
    ((o.strAt (ascii "serialization")).or (o.strAt (ascii "last_commit_epoch_text"))).getD []]

/-- The texts of the members of these two names. -/
def namedIn (o : Obj) : List Bytes :=
  [(o.strAt (ascii "serialization_state")).getD [], (o.strAt (ascii "serialization")).getD []]

/-- No epoch text stands in for a `serialization` that is not there. -/
def Separate (o : Obj) : Prop := (o.strAt (ascii "serialization")).isSome = true ∨
  (o.strAt (ascii "last_commit_epoch_text")).getD [] = []

lemma serializedIn_eq_namedIn {o : Obj} (h : Separate o) : serializedIn o = namedIn o := by
  rw [serializedIn, namedIn]
  rcases h with h | h
  · obtain ⟨s, hs⟩ := Option.isSome_iff_exists.mp h
    rw [hs, Option.some_or]
  · cases o.strAt (ascii "serialization") with
    | some s => rw [Option.some_or]
    | none => rw [Option.none_or, h, Option.getD_none]

/-- What is found under `durable` comes before what is found under `outcome`. -/
def nestedText (texts : Obj → List Bytes) (o : Obj) : Bytes :=
  firstText (((o.objAt (ascii "durable")).map texts).getD [] ++
    ((o.objAt (ascii "outcome")).map texts).getD [])

/-- The `serialization_state` a decoded record is given in its place says nothing new. -/
lemma firstText_decodedDurable (plat : Platform) (o : Obj) :
    firstText (decodedDurable plat o).serialized = firstText (serializedIn o) := by
  cases he : o.isEmpty with
  | true =>
    simp [decodedDurable, he, DurableOutcome.serialized, serializedIn, Obj.strAt,
      Obj.lookup_of_isEmpty he]
  | false =>
    simp only [decodedDurable, he, Bool.false_eq_true, if_false, DurableOutcome.serialized,
      serializedIn, Option.getD_some, Option.getD_or]
    cases o.strAt (ascii "serialization_state") with
    | some s => rfl
    | none => simp [firstText_cons_self]

lemma firstText_durableRead (plat : Platform) (x : Option Obj) :
    firstText (durableRead plat x).serialized = firstText ((x.map serializedIn).getD []) := by
  cases x with
  | none => rfl
  | some o => exact firstText_decodedDurable plat o

lemma serializationState_decodedStatus (plat : Platform) (o : Obj) (json : Bytes) :
    (decodedStatus plat o json).serializationState = nestedText serializedIn o := by
  rw [QueryStatus.serializationState_eq, nestedText]
  cases he : o.isEmpty with
  | true =>
    simp [decodedStatus, he, Obj.objAt, Obj.lookup_of_isEmpty he, DurableOutcome.serialized]
  | false =>
    simp only [decodedStatus, he, Bool.false_eq_true, if_false, Option.map_some, Option.getD_some]
    rw [firstText_append, firstText_durableRead, firstText_durableRead, firstText_append]
    cases o.objAt (ascii "durable") with
    | some p => rw [Option.some_or]
    | none =>
      -- the record of `outcome` is decoded again in place of that of `durable`
      rw [Option.none_or, firstText_cons_self]
      rfl

/-- What `serialization_state()` returns of a decoded status, and when that is what it is
documented to return. -/
theorem serializationState_status (plat : Platform) (d : ObjDoc) (hd : d.obj.distinct = true) :
    ∃ st, (parseQueryStatusJson plat d.render).out = .ok st ∧
      st.serializationState = nestedText serializedIn d.obj ∧
      ((∀ key ∈ [ascii "durable", ascii "outcome"], ∀ o, d.obj.objAt key = some o → Separate o) →
        st.serializationState = nestedText namedIn d.obj) := by
  have hstate := serializationState_decodedStatus plat d.obj d.render
  refine ⟨_, parseQueryStatusJson_object plat hd, hstate, ?_⟩
  intro h
  have hnamed : ∀ key ∈ [ascii "durable", ascii "outcome"],
      (d.obj.objAt key).map serializedIn = (d.obj.objAt key).map namedIn := by
    intro key hkey
    cases ho : d.obj.objAt key with
    | none => rfl
    | some o => rw [Option.map_some, Option.map_some, serializedIn_eq_namedIn (h key hkey o ho)]
  rw [hstate, nestedText, nestedText, hnamed _ (by simp), hnamed _ (by simp)]

/-- A status whose durable outcome has an epoch text alone. -/
def epochStatus : ObjDoc :=
  let epoch := (escapeLit (ascii "last_commit_epoch_text"), (Cst.str (escapeLit (ascii "7"))).toDoc)
  ⟨Ws.none, .members (membersOf (escapeLit (ascii "durable"), (objectOf [epoch]).toDoc) []),
    Ws.none⟩

/-- That text is given for the serialization, of which the response says nothing. -/
theorem serializationState_status_epoch : nestedText namedIn epochStatus.obj = [] ∧
    ∀ plat, ∃ st, (parseQueryStatusJson plat epochStatus.render).out = .ok st ∧
      st.serializationState = ascii "7" := by
  refine ⟨by decide, fun plat => ?_⟩
  obtain ⟨st, hst, hstate, -⟩ := serializationState_status plat epochStatus (by decide)
  exact ⟨st, hst, hstate.trans (by decide)⟩

end MongrelDB
