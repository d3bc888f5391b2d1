import MongrelDB.Client.Http
import MongrelDB.Contract.Hlc

/-!
# Responses with absent members

The decoders of a history retention and of a retrieval have an answer for members that are absent:
an exception, and the default texts. They give it only on the empty object, as the extractors report
an absent member as found everywhere else.
-/

namespace MongrelDB

open Text Traced Json

/-! ### History retention -/

/-- The two members are integers that the type can hold. -/
def RetentionAt (o : Obj) (r : HistoryRetention) : Prop :=
  NatAt o (ascii "history_retention_epochs") r.historyRetentionEpochs.toNat ∧
    NatAt o (ascii "earliest_retained_epoch") r.earliestRetainedEpoch.toNat

/-- The decoder returns the two members, or throws if they are not there. -/
def RetentionExact (d : ObjDoc) : Prop :=
  (∀ r, (decodeHistoryRetention d.render).out = .ok r ↔ RetentionAt d.obj r) ∧
    ((∀ r, ¬RetentionAt d.obj r) →
      ∃ text, (decodeHistoryRetention d.render).out = .error (.thrown (.query text)))

def decodedRetention (o : Obj) : Option HistoryRetention :=
  if o.isEmpty then none
  else do
    let epochs ← uintRead o (ascii "history_retention_epochs")
    let earliest ← uintRead o (ascii "earliest_retained_epoch")
    return ⟨epochs, earliest⟩

lemma out_decodeHistoryRetention {d : ObjDoc} (hd : d.obj.distinct = true) :
    (decodeHistoryRetention d.render).out =
      (decodedRetention d.obj).elim (.error (.thrown (.query
        (ascii "mongreldb: malformed history retention response")))) .ok := by
  obtain ⟨found, epochs, hepochs, hfound⟩ := getUint64_zero hd (ascii "history_retention_epochs")
  obtain ⟨found', earliest, hearliest, hfound'⟩ :=
    getUint64_zero hd (ascii "earliest_retained_epoch")
  rw [decodeHistoryRetention, decodedRetention]
  refine (Run.out_bind_ok hepochs _).trans ?_
  cases he : d.obj.isEmpty with
  | true =>
    cases found with
    | false => rfl
    | true => simp [he] at hfound
  | false =>
    simp only [he, Bool.false_eq_true, if_false] at hfound hfound'
    rw [← hfound, ← hfound']
    cases found with
    | false => rfl
    | true =>
      refine (Run.out_bind_ok hearliest _).trans ?_
      cases found' <;> rfl

lemma uintRead_eq_some_of_natAt {o : Obj} {key : Bytes} {u : UInt64} (h : NatAt o key u.toNat) :
    uintRead o key = some u := by
  obtain ⟨u', hu', he⟩ := uintRead_of_natAt h (UInt64.toNat_lt u)
  rw [hu', UInt64.toNat.inj he]

lemma isEmpty_of_natAt {o : Obj} {key : Bytes} {k : Nat} (h : NatAt o key k) :
    o.isEmpty = false := by
  obtain ⟨n, hn, -⟩ := h
  by_contra he
  rw [Obj.numAt, Obj.lookup_of_isEmpty (Bool.eq_true_of_not_eq_false he)] at hn
  cases hn

/-- What is there is returned. -/
lemma decodedRetention_of_retentionAt {o : Obj} {r : HistoryRetention} (h : RetentionAt o r) :
    decodedRetention o = some r := by
  rw [decodedRetention, isEmpty_of_natAt h.1, uintRead_eq_some_of_natAt h.1,
    uintRead_eq_some_of_natAt h.2]
  rfl

lemma retentionExact_iff_decoded {d : ObjDoc} (hd : d.obj.distinct = true) :
    RetentionExact d ↔ ∀ r, decodedRetention d.obj = some r → RetentionAt d.obj r := by
  rw [RetentionExact, out_decodeHistoryRetention hd]
  constructor
  · rintro ⟨h, -⟩ r hr
    exact (h r).mp (by rw [hr]; rfl)
  · intro h
    refine ⟨fun r => ⟨fun hr => h r ?_, fun hr => ?_⟩, fun hno => ?_⟩
    · cases hx : decodedRetention d.obj with
      | none =>
        rw [hx] at hr
        cases hr
      | some r' =>
        rw [hx] at hr
        rw [Except.ok.inj hr]
    · rw [decodedRetention_of_retentionAt hr]
      rfl
    · cases hx : decodedRetention d.obj with
      | none => exact ⟨_, rfl⟩
      | some r => exact absurd (h r hx) (hno r)

/-- The member of that name is an integer literal that 64 bits can hold. -/
def UintLiteral (o : Obj) (key : Bytes) : Prop := ∃ k < 2 ^ 64, NatAt o key k

/-- The object is empty, one of the members is a number that is not read, or both are integers. -/
def RetentionReadable (o : Obj) : Prop :=
  o.isEmpty = true ∨ UnreadNumber o (ascii "history_retention_epochs") ∨
    UnreadNumber o (ascii "earliest_retained_epoch") ∨
      UintLiteral o (ascii "history_retention_epochs") ∧
        UintLiteral o (ascii "earliest_retained_epoch")

lemma decodedRetention_eq_none_iff {o : Obj} : decodedRetention o = none ↔ o.isEmpty = true ∨
    UnreadNumber o (ascii "history_retention_epochs") ∨
      UnreadNumber o (ascii "earliest_retained_epoch") := by
  rw [decodedRetention, ← uintRead_eq_none_iff, ← uintRead_eq_none_iff]
  cases o.isEmpty with
  | true => simp
  | false =>
    cases uintRead o (ascii "history_retention_epochs") with
    | none => simp
    | some epochs => cases uintRead o (ascii "earliest_retained_epoch") <;> simp

lemma retentionExact_iff {d : ObjDoc} (hd : d.obj.distinct = true) :
    RetentionExact d ↔ RetentionReadable d.obj := by
  rw [retentionExact_iff_decoded hd, RetentionReadable]
  constructor
  · intro h
    cases hx : decodedRetention d.obj with
    | none =>
      rcases decodedRetention_eq_none_iff.mp hx with he | hu | hu
      · exact .inl he
      · exact .inr (.inl hu)
      · exact .inr (.inr (.inl hu))
    | some r =>
      obtain ⟨hepochs, hearliest⟩ := h r hx
      exact .inr (.inr (.inr ⟨⟨_, UInt64.toNat_lt _, hepochs⟩, _, UInt64.toNat_lt _, hearliest⟩))
  · rintro h r hr
    have hnone : ¬decodedRetention d.obj = none := by simp [hr]
    rw [decodedRetention_eq_none_iff, not_or, not_or] at hnone
    obtain ⟨he, hu, hu'⟩ := hnone
    obtain ⟨⟨k, hk, hepochs⟩, k', hk', hearliest⟩ :=
      ((h.resolve_left he).resolve_left hu).resolve_left hu'
    have hr' : RetentionAt d.obj ⟨UInt64.ofNat k, UInt64.ofNat k'⟩ := by
      simpa [RetentionAt, UInt64.toNat_ofNat_of_lt' hk, UInt64.toNat_ofNat_of_lt' hk'] using
        ⟨hepochs, hearliest⟩
    rw [decodedRetention_of_retentionAt hr'] at hr
    rwa [← Option.some.inj hr]

/-! ### Retrieval -/

/-- The two texts are those of the members, or the default ones of their kind. -/
def RetrievalExact (d : ObjDoc) : Prop :=
  ∃ r, (parseTextRetrieveResult d.render).out = .ok r ∧
    r.hitsJson = ((d.obj.arrAt (ascii "hits")).map Cst.render).getD (ascii "[]") ∧
    r.provenanceJson =
      ((d.obj.objAt (ascii "provenance")).map Obj.render).getD (ascii "\x7b\x7d") ∧
    (∃ v : Cst, v.asArr = some v ∧ v.render = r.hitsJson) ∧
    ∃ p : Obj, p.render = r.provenanceJson

lemma parseTextRetrieveResult_object {d : ObjDoc} (hd : d.obj.distinct = true) :
    (parseTextRetrieveResult d.render).out = .ok (if d.obj.isEmpty then { rawJson := d.render }
      else ⟨((d.obj.arrAt (ascii "hits")).map Cst.render).getD [],
        ((d.obj.objAt (ascii "provenance")).map Obj.render).getD [], d.render⟩) := by
  rw [parseTextRetrieveResult]
  refine (Run.out_bind_ok (getArrayRaw_object hd _ _) _).trans ?_
  refine (Run.out_bind_ok (getObjectRaw_object hd _ _) _).trans ?_
  cases he : d.obj.isEmpty with
  | true => simp [answer, he, Obj.arrAt, Obj.objAt, Obj.lookup_of_isEmpty he]
  | false => simp [answer, he]

/-- The object is empty, or it has both members. -/
def RetrievalPresent (o : Obj) : Prop :=
  o.isEmpty = true ∨
    (o.arrAt (ascii "hits")).isSome = true ∧ (o.objAt (ascii "provenance")).isSome = true

lemma retrievalExact_iff {d : ObjDoc} (hd : d.obj.distinct = true) :
    RetrievalExact d ↔ RetrievalPresent d.obj := by
  rw [RetrievalExact, RetrievalPresent, parseTextRetrieveResult_object hd]
  cases he : d.obj.isEmpty with
  | true =>
    refine iff_of_true ⟨_, rfl, ?_, ?_, ⟨.emptyArr Ws.none, rfl, rfl⟩, .empty Ws.none, rfl⟩
      (.inl rfl)
    · simp [Obj.arrAt, Obj.lookup_of_isEmpty he]
    · simp [Obj.objAt, Obj.lookup_of_isEmpty he]
  | false =>
    constructor
    · rintro ⟨r, hr, hhits, hprov, -⟩
      cases hr
      refine .inr ⟨?_, ?_⟩
      · cases harr : d.obj.arrAt (ascii "hits") with
        | some v => rfl
        | none =>
          rw [harr] at hhits
          cases hhits
      · cases hobj : d.obj.objAt (ascii "provenance") with
        | some p => rfl
        | none =>
          rw [hobj] at hprov
          cases hprov
    · rintro (h | ⟨hhits, hprov⟩)
      · cases h
      · obtain ⟨v, hv⟩ := Option.isSome_iff_exists.mp hhits
        obtain ⟨p, hp⟩ := Option.isSome_iff_exists.mp hprov
        obtain ⟨w, -, hw⟩ := Option.bind_eq_some_iff.mp hv
        obtain rfl := Cst.asArr_eq_some hw
        exact ⟨_, rfl, by simp [hv], by simp [hp], ⟨w, hw, by simp [hv]⟩, p, by simp [hp]⟩

/-! ### Both decoders -/

/-- When the decoders treat absent members as they mean to. -/
theorem absent_members_iff (d : ObjDoc) (hd : d.obj.distinct = true) :
    (RetentionExact d ↔ RetentionReadable d.obj) ∧
      (RetrievalExact d ↔ RetrievalPresent d.obj) :=
  ⟨retentionExact_iff hd, retrievalExact_iff hd⟩

/-- A complete history retention. -/
def retentionText : ObjDoc :=
  intsText ("history_retention_epochs", 42) [("earliest_retained_epoch", 1)]

/-- A complete retrieval. -/
def retrievalText : ObjDoc :=
  objText (.members (membersOf (named "hits" (arrayOf [(intOf 1).toDoc]))
    [named "provenance" (objectOf [named "model" (strOf "m")])]))

/-- Each decoder returns the members of the object that is complete for it. -/
theorem absent_members_complete :
    ((decodeHistoryRetention retentionText.render).out = .ok ⟨42, 1⟩ ∧
      RetentionExact retentionText ∧ ¬RetrievalExact retentionText) ∧
    RetrievalExact retrievalText ∧
      ∃ r, (parseTextRetrieveResult retrievalText.render).out = .ok r ∧
        r.hitsJson = ascii "[1]" ∧ r.provenanceJson = ascii "\x7b\"model\":\"m\"\x7d" := by
  constructor
  · have hepochs : NatAt retentionText.obj (ascii "history_retention_epochs") 42 :=
      ⟨intLit 42, rfl, rfl, intLit_intValue 42⟩
    have hearliest : NatAt retentionText.obj (ascii "earliest_retained_epoch") 1 :=
      ⟨intLit 1, rfl, rfl, intLit_intValue 1⟩
    obtain ⟨hretention, hretrieval⟩ := absent_members_iff retentionText (by decide)
    have hexact : RetentionExact retentionText :=
      hretention.mpr (.inr (.inr (.inr ⟨⟨42, by norm_num, hepochs⟩, 1, by norm_num, hearliest⟩)))
    refine ⟨(hexact.1 ⟨42, 1⟩).mpr ⟨hepochs, hearliest⟩, hexact, fun h => ?_⟩
    rcases hretrieval.mp h with h | ⟨h, -⟩
    · cases h
    · revert h
      decide
  · have hpresent : RetrievalPresent retrievalText.obj := .inr ⟨by decide, by decide⟩
    obtain ⟨-, hretrieval⟩ := absent_members_iff retrievalText (by decide)
    have hexact : RetrievalExact retrievalText := hretrieval.mpr hpresent
    refine ⟨hexact, ?_⟩
    obtain ⟨r, hr, hhits, hprovenance, -⟩ := hexact
    exact ⟨r, hr, hhits.trans (by decide), hprovenance.trans (by decide)⟩

/-- An object without any of the members is decoded to a history retention, and to texts that are
no JSON. -/
theorem absent_members_ignored :
    let d := intsText ("a", 1) []
    d.render = ascii "\x7b\"a\":1\x7d" ∧ d.obj.distinct = true ∧
      (decodeHistoryRetention d.render).out = .ok ⟨0, 0⟩ ∧ ¬RetentionExact d ∧
      (parseTextRetrieveResult d.render).out = .ok ⟨[], [], d.render⟩ ∧ ¬RetrievalExact d := by
  intro d
  have hdist : d.obj.distinct = true := by decide
  have hno : d.obj.numAt (ascii "history_retention_epochs") = none ∧
      d.obj.numAt (ascii "earliest_retained_epoch") = none := by decide
  have hout : (decodeHistoryRetention d.render).out = .ok ⟨0, 0⟩ := by
    rw [out_decodeHistoryRetention hdist]
    rfl
  refine ⟨by decide, hdist, hout, fun h => ?_, ?_, fun h => ?_⟩
  · obtain ⟨n, hn, -⟩ := ((h.1 _).mp hout).1
    rw [hno.1] at hn
    cases hn
  · rw [parseTextRetrieveResult_object hdist]
    rfl
  · rcases (retrievalExact_iff hdist).mp h with h | ⟨h, -⟩
    · cases h
    · revert h
      decide

end MongrelDB
