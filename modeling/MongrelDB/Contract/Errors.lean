import MongrelDB.Contract.Requests
import MongrelDB.Encoder.Values
import MongrelDB.Walker.Objects

/-!
# The exceptions that failed requests throw

A response with a status outside of 200 to 299 is thrown as the exception that its status stands
for, or as a `NotFoundException` if its text begins with "not found:". The text is the message of
the error envelope, or the body as it is where the scan for a message breaks off; `what()` shows it
up to its first NUL.
-/

namespace MongrelDB

open Text Traced Prog Json JsonParser

/-! ### Exceptions -/

inductive ExceptionKind where
  | auth
  | notFound
  | conflict
  | query
  deriving DecidableEq

def MongrelDBException.kind : MongrelDBException → ExceptionKind
  | .auth _ => .auth
  | .notFound _ => .notFound
  | .conflict _ _ _ => .conflict
  | .query _ => .query

/-- The kind of exception that a status stands for. -/
def statusKind (code : Int) : ExceptionKind :=
  if code = 401 ∨ code = 403 then .auth
  else if code = 404 then .notFound
  else if code = 409 then .conflict
  else .query

/-- The text for a status without a message. -/
def statusText (code : Int) : Bytes :=
  match statusKind code with
  | .auth => ascii "authentication failed"
  | .notFound => ascii "resource not found"
  | .conflict => ascii "constraint violation"
  | .query => ascii "mongreldb: server error"

def orStatusText (code : Int) (text : Bytes) : Bytes := if text = [] then statusText code else text

/-- The text says that something was not found. -/
def SaysNotFound (text : Bytes) : Bool := (ascii "not found:").isPrefixOf text

variable {plat : Platform} {code : Int} {body key : Bytes}

lemma statusException_kind (text cd : Bytes) (oi : Option UInt64) :
    (statusException code text cd oi).kind = statusKind code := by
  unfold statusException statusKind
  split_ifs <;> rfl

lemma statusException_what (text cd : Bytes) (oi : Option UInt64) :
    (statusException code text cd oi).what = cstr (orStatusText code text) := by
  unfold statusException orStatusText statusText statusKind orDefault
  cases text <;> split_ifs <;> simp_all [MongrelDBException.what]

/-- The beginning that decides the kind is seen through `what()`. -/
lemma saysNotFound_cstr (text : Bytes) : SaysNotFound (cstr text) = SaysNotFound text :=
  isPrefixOf_cstr (by decide +kernel) text

lemma not_saysNotFound_statusText : SaysNotFound (statusText code) = false := by
  unfold statusText
  cases statusKind code <;> decide

/-! ### Members of any text -/

/-- The name of a member and the first character of its value, if that is a string to be found. -/
def stringHit (key : Bytes) : Bytes → Option UInt8 → Bool := fun k c => k == key && c == some quote

def numberHit (key : Bytes) : Bytes → Option UInt8 → Bool := fun k c => k == key && startsNumber c

/-- The scan of the members that a text begins with comes to this string. -/
def StringIn (key body s : Bytes) : Prop :=
  ∃ z r, ReachesIn (stringHit key) body (quote :: z) ∧ Quoted z s r

lemma getString_of_stringIn {s : Bytes} (h : StringIn key body s) (out : Bytes) :
    (getString body key out).out = .ok (true, s) := by
  obtain ⟨z, r, hz, hq⟩ := h
  have hscan : ∃ u, body = u ++ quote :: z ∧ (getString body key out).out =
      (takeString.out (tape.cut u (quote :: z))).map Prod.fst :=
    out_scan_of_reaches (sees_keyIs key quote) hz
  have htake : Steps tape takeString (quote :: z) (true, s) r :=
    (reads_readStringRaw.complete s r hq).trans (steps_isOk.trans steps_pure)
  obtain ⟨u, -, hu⟩ := hscan
  obtain ⟨t, -, ht⟩ := htake
  rw [hu, ht u]
  rfl

/-- A string that is taken with success is one that a quote closes. -/
lemma quoted_of_takeString {u z s : Bytes} {p : JsonParser}
    (h : takeString.out (tape.cut u (quote :: z)) = .ok ((true, s), p)) : ∃ r, Quoted z s r := by
  obtain ⟨s', p₁, hs, h⟩ := out_bind_eq_ok h
  obtain ⟨ok, p₂, hok, h⟩ := out_bind_eq_ok h
  cases hok
  have hpair : ((p₁.ok, s'), p₁) = ((true, s), p) := Except.ok.inj h
  obtain ⟨⟨hok, rfl⟩, -⟩ : (p₁.ok = true ∧ s' = s) ∧ p₁ = p := by simpa using hpair
  exact reads_readStringRaw.sound u s' p₁ hs hok

/-- Where the scan comes to no string and does not pass all members, none is found. -/
lemma getString_of_not (h : ∀ s, ¬StringIn key body s) (ha : ¬AbsentIn (stringHit key) body)
    (out : Bytes) : ∃ out', (getString body key out).out = .ok (false, out') := by
  have hsafe : SafeCall (fun _ => False) (getString body key out) := safeCall_getString
  obtain ⟨⟨found, out'⟩, ho⟩ := exists_out_of_safeCall hsafe
  cases found with
  | false => exact ⟨out', ho⟩
  | true =>
    rcases scan_ends (sees_keyIs key quote) ho with h' | ⟨-, ha'⟩ | ⟨z, u, p, hz, htake⟩
    · cases h'
    · exact absurd ha' ha
    · obtain ⟨⟨k, hk⟩, -⟩ := hz.choose_spec.2.isHit
      obtain ⟨z, rfl⟩ : ∃ y, z = quote :: y :=
        List.head?_eq_some_iff.mp (by simpa using (Bool.and_eq_true_iff.mp hk).2)
      obtain ⟨r, hq⟩ := quoted_of_takeString htake
      exact absurd ⟨z, r, hz, hq⟩ (h out')

/-- Where the scan comes to no string at all, the output stays as it is. -/
lemma getString_of_not_reaches (h : ∀ z, ¬ReachesIn (stringHit key) body z) (out : Bytes) :
    ∃ found, (getString body key out).out = .ok (found, out) := by
  have hsafe : SafeCall (fun _ => False) (getString body key out) := safeCall_getString
  obtain ⟨a, ho⟩ := exists_out_of_safeCall hsafe
  rcases scan_ends (sees_keyIs key quote) ho with rfl | ⟨rfl, -⟩ | ⟨z, u, p, hz, -⟩
  · exact ⟨_, ho⟩
  · exact ⟨_, ho⟩
  · exact absurd hz (h z)

lemma getNumber_of_not_reaches (h : ∀ z, ¬ReachesIn (numberHit key) body z) (out : Binary64) :
    ∃ found, (getNumber body key out).out = .ok (found, out) := by
  have hsafe : SafeCall (fun _ => False) (getNumber body key out) := safeCall_getNumber
  obtain ⟨a, ho⟩ := exists_out_of_safeCall hsafe
  rcases scan_ends (sees_numberHere key) ho with rfl | ⟨rfl, -⟩ | ⟨z, u, p, hz, -⟩
  · exact ⟨_, ho⟩
  · exact ⟨_, ho⟩
  · exact absurd hz (h z)

/-! ### Error envelopes -/

/-- The exception for what is found in an error envelope. -/
def envelopeException (plat : Platform) (code : Int) (text cd : Bytes) (found : Bool)
    (oi : Binary64) : MongrelDBException :=
  if SaysNotFound text then .notFound text
  else statusException code text cd (if found && oi.nonneg then some (castSize plat oi) else none)

lemma out_throwEnvelope {found found' found'' : Bool} {message cd : Bytes} {oi : Binary64}
    (hm : (getString body (ascii "message") []).out = .ok (found, message))
    (hc : (getString body (ascii "code") []).out = .ok (found', cd))
    (ho : (getNumber body (ascii "op_index") (Binary64.ofDecimal true 1 0)).out =
      .ok (found'', oi)) :
    (throwEnvelope plat code body).out = .error (.thrown
      (envelopeException plat code (if found then message else body) cd found'' oi)) := by
  rw [throwEnvelope, Run.out_bind_ok hm]
  refine (Run.out_bind_ok hc _).trans ?_
  simp only
  generalize (if found = true then message else body) = text
  rw [envelopeException, SaysNotFound]
  by_cases hn : (ascii "not found:").isPrefixOf text = true
  · rw [if_pos hn, if_pos hn]
    rfl
  · rw [if_neg hn, if_neg hn]
    exact Run.out_bind_ok ho _

section Envelope

variable {text cd : Bytes} {found : Bool} {oi : Binary64}

lemma envelopeException_what :
    (envelopeException plat code text cd found oi).what = cstr (orStatusText code text) := by
  rw [envelopeException]
  by_cases hn : SaysNotFound text = true
  · have hne : text ≠ [] := by
      rintro rfl
      exact absurd hn (by decide)
    rw [if_pos hn, orStatusText, if_neg hne]
    rfl
  · rw [if_neg hn]
    exact statusException_what text cd _

lemma envelopeException_kind : (envelopeException plat code text cd found oi).kind =
    if SaysNotFound (envelopeException plat code text cd found oi).what then .notFound
    else statusKind code := by
  have hsays : SaysNotFound (orStatusText code text) = SaysNotFound text := by
    unfold orStatusText
    split_ifs with ht
    · rw [not_saysNotFound_statusText, ht]
      decide
    · rfl
  rw [envelopeException_what, saysNotFound_cstr, hsays, envelopeException]
  by_cases hn : SaysNotFound text = true
  · rw [if_pos hn, if_pos hn]
    rfl
  · rw [if_neg hn, if_neg hn]
    exact statusException_kind text cd _

lemma envelopeException_conflict {what cd' : Bytes} {opIndex : Option UInt64}
    (h : envelopeException plat code text cd found oi = .conflict what cd' opIndex) :
    cd' = cd ∧ opIndex = if found && oi.nonneg then some (castSize plat oi) else none := by
  unfold envelopeException statusException at h
  split_ifs at h <;> cases h <;> simp_all

end Envelope

/-! ### What an exception says about a response -/

/-- What the exception says, whatever the body. -/
structure Describes (code : Int) (body : Bytes) (e : MongrelDBException) : Prop where
  /-- the kind is that of the status, unless the text says that something was not found -/
  kind : e.kind = if SaysNotFound e.what then .notFound else statusKind code
  /-- the text is the message that the scan comes to -/
  message : ∀ m, StringIn (ascii "message") body m → e.what = cstr (orStatusText code m)
  /-- the text is the body if the scan breaks off -/
  raw : (∀ m, ¬StringIn (ascii "message") body m) →
    ¬AbsentIn (stringHit (ascii "message")) body → e.what = cstr (orStatusText code body)
  /-- the code of a conflict is the one that the scan comes to -/
  conflictCode : ∀ what cd oi, e = .conflict what cd oi →
    ∀ s, StringIn (ascii "code") body s → cd = s
  noCode : ∀ what cd oi, e = .conflict what cd oi →
    (∀ z, ¬ReachesIn (stringHit (ascii "code")) body z) → cd = []
  noOpIndex : ∀ what cd oi, e = .conflict what cd oi →
    (∀ z, ¬ReachesIn (numberHit (ascii "op_index")) body z) → oi = none

/-- What the exception says if the body is an object. -/
structure DescribesObj (code : Int) (o : Obj) (body : Bytes) (e : MongrelDBException) : Prop where
  message : ∀ m, o.first Cst.asStr (ascii "message") = some m →
    e.what = cstr (orStatusText code m.decode)
  /-- an empty object is no envelope -/
  raw : o.isEmpty = true → e.what = cstr body
  conflictCode : ∀ what cd oi, e = .conflict what cd oi →
    cd = ((o.first Cst.asStr (ascii "code")).map StrLit.decode).getD []
  noOpIndex : ∀ what cd oi, e = .conflict what cd oi →
    o.first Cst.asNum (ascii "op_index") = none → oi = none
  /-- an index that a double can hold is the one of the envelope, unless it is negative -/
  opIndex : ∀ what cd oi, e = .conflict what cd oi → ∀ n, ∀ i : Int,
    o.first Cst.asNum (ascii "op_index") = some n → n.value = i →
      (i < 0 → oi = none) ∧
      (0 ≤ i → i < 2 ^ 64 → Binary64.Representable i.natAbs → oi = some (UInt64.ofNat i.natAbs))

lemma describes_envelopeException {found found' found'' : Bool} {message cd : Bytes} {oi : Binary64}
    (hm : (getString body (ascii "message") []).out = .ok (found, message))
    (hc : (getString body (ascii "code") []).out = .ok (found', cd))
    (ho : (getNumber body (ascii "op_index") (Binary64.ofDecimal true 1 0)).out =
      .ok (found'', oi)) :
    Describes code body
      (envelopeException plat code (if found then message else body) cd found'' oi) where
  kind := envelopeException_kind
  message m hin := by
    rw [getString_of_stringIn hin] at hm
    cases hm
    exact envelopeException_what
  raw hno ha := by
    obtain ⟨out', hout⟩ := getString_of_not hno ha []
    rw [hout] at hm
    cases hm
    exact envelopeException_what
  conflictCode what cd' oi' he s hs := by
    rw [getString_of_stringIn hs] at hc
    cases hc
    exact (envelopeException_conflict he).1
  noCode what cd' oi' he hno := by
    obtain ⟨_, hout⟩ := getString_of_not_reaches hno []
    rw [hout] at hc
    cases hc
    exact (envelopeException_conflict he).1
  noOpIndex what cd' oi' he hno := by
    obtain ⟨_, hout⟩ := getNumber_of_not_reaches hno (Binary64.ofDecimal true 1 0)
    rw [hout] at ho
    cases ho
    rw [(envelopeException_conflict he).2, if_neg]
    rw [show (Binary64.ofDecimal true 1 0).nonneg = false by decide +kernel]
    simp

/-- A double with an integer value that fits is cast to that integer. -/
lemma castSize_of_value (plat : Platform) {n : NumLit} {i : Int} (hv : n.value = i) (hl : 0 ≤ i)
    (hu : i < 2 ^ 64) (hr : Binary64.Representable i.natAbs) :
    castSize plat n.toBinary64 = UInt64.ofNat i.natAbs := by
  obtain ⟨hf, ht⟩ := NumLit.trunc_toBinary64_of_lt hv hr (by omega)
  rw [castSize, ht, hf, if_pos (by simp; omega)]
  congr 1
  omega

lemma describesObj_envelopeException (d : ObjDoc) {found found' found'' : Bool}
    {message cd : Bytes} {oi : Binary64}
    (hm : (getString d.render (ascii "message") []).out = .ok (found, message))
    (hc : (getString d.render (ascii "code") []).out = .ok (found', cd))
    (ho : (getNumber d.render (ascii "op_index") (Binary64.ofDecimal true 1 0)).out =
      .ok (found'', oi)) :
    DescribesObj code d.obj d.render
      (envelopeException plat code (if found then message else d.render) cd found'' oi) := by
  rw [getString_first] at hm hc
  rw [getNumber_first] at ho
  have hneg : (Binary64.ofDecimal true 1 0).nonneg = false := by decide +kernel
  cases hm
  cases hc
  cases ho
  -- the message, a missing message, and the code, the missing index and the index of a conflict
  refine ⟨fun m h => ?_, fun h => ?_, fun what cd oi h => ?_, fun what cd oi h hno => ?_,
    fun what cd oi h n i hn hv => ?_⟩
  · rw [envelopeException_what, h]
    simp
  · have hfirst : d.obj.first Cst.asStr (ascii "message") = none := by
      cases hobj : d.obj with
      | empty w => rfl
      | members ms => rw [hobj] at h; cases h
    have hne : d.render ≠ [] := by
      have := d.obj.toCst.render_length_pos
      intro hnil
      simp only [ObjDoc.render, Doc.render, ObjDoc.toDoc, List.append_eq_nil_iff] at hnil
      simp [hnil] at this
    rw [envelopeException_what, hfirst, h]
    exact congrArg cstr (if_neg hne)
  · exact (envelopeException_conflict h).1
  · rw [(envelopeException_conflict h).2, hno, if_neg]
    simp [hneg]
  · rw [(envelopeException_conflict h).2, hn]
    simp only [Option.map_some, Option.isSome_some, Bool.true_or, Bool.true_and, Option.getD_some,
      NumLit.nonneg_toBinary64 hv, decide_eq_true_eq]
    refine ⟨fun hi => if_neg (by omega), fun hl hu hr => ?_⟩
    rw [if_pos hl, castSize_of_value plat hv hl hu hr]

/-- Every error envelope is thrown, and the exception describes it. -/
lemma exists_throwEnvelope (plat : Platform) (code : Int) (body : Bytes) :
    ∃ e, (throwEnvelope plat code body).out = .error (.thrown e) ∧ Describes code body e ∧
      ∀ d : ObjDoc, d.render = body → DescribesObj code d.obj body e := by
  have hstring : ∀ key, SafeCall (fun _ => False) (getString body key []) :=
    fun _ => safeCall_getString
  have hnumber : SafeCall (fun _ => False)
      (getNumber body (ascii "op_index") (Binary64.ofDecimal true 1 0)) := safeCall_getNumber
  obtain ⟨⟨found, message⟩, hm⟩ := exists_out_of_safeCall (hstring (ascii "message"))
  obtain ⟨⟨found', cd⟩, hc⟩ := exists_out_of_safeCall (hstring (ascii "code"))
  obtain ⟨⟨found'', oi⟩, ho⟩ := exists_out_of_safeCall hnumber
  refine ⟨_, out_throwEnvelope hm hc ho, describes_envelopeException hm hc ho, ?_⟩
  rintro d rfl
  exact describesObj_envelopeException d hm hc ho

/-- A failed request throws an exception that describes its response. -/
theorem request_failure (c : Client) (method : String) (path : Bytes) (content : Option Bytes)
    (code : Int) (body : Bytes)
    (h : c.curl (c.requestOf method path content) = .performed .ok code body)
    (hlen : body.length ≤ kMaxResponseBytes) (hcode : ¬(200 ≤ code ∧ code < 300)) :
    ∃ e, (c.request method path content).out = .error (.thrown e) ∧ Describes code body e ∧
      ∀ d : ObjDoc, d.render = body → DescribesObj code d.obj body e := by
  obtain ⟨e, he, hdescribes⟩ := exists_throwEnvelope c.plat code body
  exact ⟨e, (out_request_of_failure h hlen hcode).trans he, hdescribes⟩

/-- A client that fails with this status and this body whatever it asks for. -/
def failing (code : Int) (body : Bytes) : Client :=
  ⟨⟨fun _ => [], fun _ => 0, fun _ => 0⟩, [], fun _ => .performed .ok code body⟩

/-- The envelope of a constraint that the second operation violates. -/
def conflictEnvelope : ObjDoc :=
  ⟨Ws.none, .members (membersOf (named "message" (strOf "duplicate key"))
    [named "code" (strOf "UNIQUE_VIOLATION"), named "op_index" (intOf 1)]), Ws.none⟩

/-- It is thrown as a conflict with its message, its code and its index. -/
theorem request_failure_conflict : ∃ what,
    ((failing 409 conflictEnvelope.render).request "POST" [] none).out =
      .error (.thrown (.conflict what (ascii "UNIQUE_VIOLATION") (some 1))) ∧
    cstr what = ascii "duplicate key" := by
  obtain ⟨e, hout, hdescribes, hobject⟩ := request_failure (failing 409 conflictEnvelope.render)
    "POST" [] none 409 conflictEnvelope.render rfl (by decide +kernel) (by norm_num)
  have hobject := hobject conflictEnvelope rfl
  have hmessage : e.what = ascii "duplicate key" :=
    (hobject.message (escapeLit (ascii "duplicate key")) (by rfl)).trans (by decide)
  have hkind : e.kind = .conflict := by
    rw [hdescribes.kind, hmessage]
    decide
  cases e with
  | conflict what cd oi =>
    obtain rfl : cd = ascii "UNIQUE_VIOLATION" :=
      (hobject.conflictCode what cd oi rfl).trans (by decide)
    have hvalue : (intLit 1).value = (1 : Int) := by
      rw [NumLit.value_of_isInt rfl, intLit_intValue]
    obtain ⟨-, hindex⟩ := hobject.opIndex what _ oi rfl (intLit 1) 1 (by rfl) hvalue
    rw [hindex (by norm_num) (by norm_num) (Binary64.representable_of_lt (by norm_num))] at hout
    exact ⟨what, hout, hmessage⟩
  | auth | notFound | query => cases hkind

/-- A failed authentication is thrown as something that was not found if its message begins so, an
empty message drops the body, and a message ends at a NUL. -/
theorem request_failure_prefix :
    (∃ e, ((failing 401 (ascii "\x7b\"message\":\"not found: x\"\x7d")).request "GET" [] none).out =
      .error (.thrown e) ∧ e.kind ≠ statusKind 401) ∧
    (∃ e, ((failing 500 (ascii "\x7b\"message\":\"\"\x7d")).request "GET" [] none).out =
      .error (.thrown e) ∧ e.what ≠ ascii "\x7b\"message\":\"\"\x7d") ∧
    ∃ e, ((failing 500 (ascii "\x7b\"message\":\"a\\u0000b\"\x7d")).request "GET" [] none).out =
      .error (.thrown e) ∧ e.what ≠ [0x61, 0, 0x62] := by
  refine ⟨⟨.notFound (ascii "not found: x"), ?_, ?_⟩, ⟨.query (ascii "mongreldb: server error"), ?_,
    ?_⟩, .query [0x61, 0, 0x62], ?_, ?_⟩
  · decide +kernel
  · decide
  · decide +kernel
  · decide
  · decide +kernel
  · decide

end MongrelDB
