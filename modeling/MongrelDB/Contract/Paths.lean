import MongrelDB.Contract.Requests
import MongrelDB.Uri.Path

/-!
# Names in the paths of requests

`url_encode_segment` makes one segment of a name, from which the name can be decoded. The removal of
dot segments leaves it in its place exactly if the name is neither `.` nor `..`, the two names that
are segments of their own.
-/

namespace MongrelDB

open Text Traced Uri

/-! ### Encoded names -/

lemma isUnreserved_eq (c : UInt8) : isUnreserved c = unreserved c := by
  unfold isUnreserved unreserved isLetter
  ac_rfl

lemma isUpperHex_hexUpper : ∀ n < 16, isUpperHex (hexUpper n) = true := by
  decide

lemma hexVal_hexUpper : ∀ n < 16, hexVal (hexUpper n) = some n := by
  decide

section Byte

variable {c : UInt8} {s r : Bytes}

lemma urlEncodeSegment_plain (hc : isUnreserved c = true) :
    urlEncodeSegment (c :: s) = c :: urlEncodeSegment s := by
  simp [urlEncodeSegment, hc]

lemma urlEncodeSegment_triple (hc : isUnreserved c = false) : urlEncodeSegment (c :: s) =
    percent :: hexUpper (c.toNat / 16) :: hexUpper (c.toNat % 16) :: urlEncodeSegment s := by
  simp [urlEncodeSegment, hc]

lemma nibbles_lt (c : UInt8) : c.toNat / 16 < 16 ∧ c.toNat % 16 < 16 := by
  have := c.toNat_lt
  omega

lemma ne_percent_of_isUnreserved (hc : isUnreserved c = true) : c ≠ percent := by
  rintro rfl
  exact absurd hc (by decide)

end Byte

lemma encoded_urlEncodeSegment (s : Bytes) : Encoded (urlEncodeSegment s) := by
  induction s with
  | nil => exact .nil
  | cons c s ih =>
    obtain ⟨hhi, hlo⟩ := nibbles_lt c
    cases hc : isUnreserved c with
    | true =>
      rw [urlEncodeSegment_plain hc]
      exact .plain (isUnreserved_eq c ▸ hc) ih
    | false =>
      rw [urlEncodeSegment_triple hc]
      exact .triple (isUpperHex_hexUpper _ hhi) (isUpperHex_hexUpper _ hlo) ih

lemma percentDecode_urlEncodeSegment (s : Bytes) : percentDecode (urlEncodeSegment s) = some s := by
  induction s with
  | nil => rfl
  | cons c s ih =>
    obtain ⟨hhi, hlo⟩ := nibbles_lt c
    cases hc : isUnreserved c with
    | true =>
      rw [urlEncodeSegment_plain hc, percentDecode_plain (ne_percent_of_isUnreserved hc), ih]
      rfl
    | false =>
      rw [urlEncodeSegment_triple hc,
        percentDecode_triple (hexVal_hexUpper _ hhi) (hexVal_hexUpper _ hlo), ih, Nat.div_add_mod]
      simp

lemma urlEncodeSegment_injective : Function.Injective urlEncodeSegment := by
  intro s t h
  have hs := percentDecode_urlEncodeSegment s
  rw [h, percentDecode_urlEncodeSegment] at hs
  exact (Option.some.inj hs).symm

lemma notMem_urlEncodeSegment {c : UInt8} (hc : c ∈ [slash, 0x3F, 0x23, 0x20]) (s : Bytes) :
    c ∉ urlEncodeSegment s := by
  have hreserved : unreserved c = false ∧ c ≠ percent := by
    simp only [List.mem_cons, List.not_mem_nil, or_false] at hc
    rcases hc with rfl | rfl | rfl | rfl <;> decide
  obtain ⟨hun, hp⟩ := hreserved
  exact (encoded_urlEncodeSegment s).notMem hun hp

/-- What `url_encode_segment` makes of a byte string is free of delimiters and decodes to it. -/
theorem urlEncodeSegment_encodes (s : Bytes) :
    Encoded (urlEncodeSegment s) ∧
      (∀ c ∈ [slash, 0x3F, 0x23, 0x20], c ∉ urlEncodeSegment s) ∧
      percentDecode (urlEncodeSegment s) = some s ∧
      (∀ t, urlEncodeSegment s = urlEncodeSegment t → s = t) ∧
      ∀ t, urlEncodeSegment (s ++ t) = urlEncodeSegment s ++ urlEncodeSegment t :=
  ⟨encoded_urlEncodeSegment s, fun _ hc => notMem_urlEncodeSegment hc s,
    percentDecode_urlEncodeSegment s, fun _ h => urlEncodeSegment_injective h,
    fun _ => List.flatMap_append⟩

/-! ### Endpoints -/

/-- The calls that put a name into the path. -/
inductive Endpoint where
  | dropTable
  | count
  | schemaFor
  | queryStatus
  | cancelQuery
  deriving DecidableEq

namespace Endpoint

def method : Endpoint → String
  | dropTable => "DELETE"
  | count | schemaFor | queryStatus => "GET"
  | cancelQuery => "POST"

/-- The segments in front of the name. -/
def before : Endpoint → List Bytes
  | dropTable | count => [ascii "tables"]
  | schemaFor => [ascii "kit", ascii "schema"]
  | queryStatus | cancelQuery => [ascii "queries"]

/-- The segments behind it. -/
def after : Endpoint → List Bytes
  | count => [ascii "count"]
  | cancelQuery => [ascii "cancel"]
  | dropTable | schemaFor | queryStatus => []

def content : Endpoint → Option Bytes
  | cancelQuery => some (ascii "\x7b\x7d")
  | dropTable | count | schemaFor | queryStatus => none

/-- A query has a name that is not empty. -/
def Takes : Endpoint → Bytes → Prop
  | queryStatus, name | cancelQuery, name => name ≠ []
  | dropTable, _ | count, _ | schemaFor, _ => True

/-- What the call does. -/
def log (c : Client) (name : Bytes) : Endpoint → List Event
  | dropTable => (c.dropTable name).log
  | count => (c.count name).log
  | schemaFor => (c.schemaFor name).log
  | queryStatus => (c.queryStatus name).log
  | cancelQuery => (c.cancelQuery name).log

def segments (e : Endpoint) (name : Bytes) : List Bytes :=
  e.before ++ urlEncodeSegment name :: e.after

def request (e : Endpoint) (c : Client) (name : Bytes) : Request :=
  ⟨ascii e.method, c.baseUrl ++ pathOf (e.segments name), e.content⟩

/-- The path that the URL has for the server. -/
def landing (e : Endpoint) (c : Client) (name : Bytes) : Bytes :=
  removeDotSegments (path (e.request c name).url)

/-- The segments of the endpoint, and one for the name. -/
def InPlace (e : Endpoint) (b : Base) (c : Client) (name : Bytes) : Prop :=
  ∃ s, IsSegment s ∧ percentDecode s = some name ∧
    e.landing c name = pathOf (resolve [] b.segments ++ e.before ++ s :: e.after)

end Endpoint

variable {c : Client} {e : Endpoint} {name : Bytes}

/-- A call sends the request of its endpoint, and decoding the answer sends nothing more. -/
lemma sent_mem_bind {α : Type} {method : String} {path : Bytes} {content : Option Bytes}
    {f : Bytes → Call α} (hf : ∀ body, SafeCall (fun _ => True) (f body)) {r : Request} :
    Event.sent r ∈ (c.request method path content >>= f).log ↔
      r = c.requestOf method path content ∧ c.curl r ≠ .initFailed := by
  rw [Run.mem_log_bind, sent_mem_request]
  refine or_iff_left ?_
  rintro ⟨body, -, h⟩
  exact not_sent_of_safeCall (hf body) r h

lemma Endpoint.requestOf_eq (e : Endpoint) {p : Bytes} (hp : p = pathOf (e.segments name)) :
    c.requestOf e.method p e.content = e.request c name := by
  have hhead : p.head? = some slash := by
    rw [hp]
    cases e <;> rfl
  rw [Client.requestOf, if_pos hhead, hp, List.append_nil]
  rfl

lemma Endpoint.sent_mem_log (e : Endpoint) (hn : e.Takes name) {r : Request} :
    Event.sent r ∈ e.log c name ↔ r = e.request c name ∧ c.curl r ≠ .initFailed := by
  cases e with
  | dropTable =>
    rw [← requestOf_eq .dropTable (p := ascii "/tables/" ++ urlEncodeSegment name)
      (by simp [ascii, segments, before, after])]
    exact sent_mem_bind fun _ => safeCall_pure
  | count =>
    rw [← requestOf_eq .count (p := ascii "/tables/" ++ urlEncodeSegment name ++ ascii "/count")
      (by simp [ascii, segments, before, after])]
    exact sent_mem_bind fun _ => safeCall_getInt.bind fun _ => safeCall_pure
  | schemaFor =>
    rw [← requestOf_eq .schemaFor (p := ascii "/kit/schema/" ++ urlEncodeSegment name)
      (by simp [ascii, segments, before, after])]
    exact sent_mem_request
  | queryStatus =>
    rw [← requestOf_eq .queryStatus (p := ascii "/queries/" ++ urlEncodeSegment name)
      (by simp [ascii, segments, before, after])]
    have hne : name ≠ [] := hn
    rw [log, Client.queryStatus, if_neg (by simpa using hne)]
    exact sent_mem_bind fun _ => safeCall_parseQueryStatusJson
  | cancelQuery =>
    rw [← requestOf_eq .cancelQuery
      (p := ascii "/queries/" ++ urlEncodeSegment name ++ ascii "/cancel")
      (by simp [ascii, segments, before, after])]
    have hne : name ≠ [] := hn
    rw [log, Client.cancelQuery, if_neg (by simpa using hne)]
    exact sent_mem_request

/-! ### Where the requests land -/

lemma Endpoint.isSegment (e : Endpoint) (name : Bytes) : ∀ s ∈ e.segments name, IsSegment s := by
  have hfixed : ∀ e : Endpoint, (∀ s ∈ e.before, IsSegment s) ∧ ∀ s ∈ e.after, IsSegment s := by
    rintro (_ | _ | _ | _ | _) <;> decide
  intro s hs
  rcases List.mem_append.mp hs with hs | hs
  · exact (hfixed e).1 s hs
  · rcases List.mem_cons.mp hs with rfl | hs
    · exact (encoded_urlEncodeSegment name).isSegment
    · exact (hfixed e).2 s hs

lemma Endpoint.landing_eq {b : Base} (hc : c.baseUrl = b.text) (e : Endpoint) (name : Bytes) :
    e.landing c name = pathOf (normalize (resolve [] b.segments) (e.segments name)) := by
  have hsegs := e.isSegment name
  have hall : ∀ s ∈ b.segments ++ e.segments name, IsSegment s := by
    intro s hs
    rcases List.mem_append.mp hs with hs | hs
    · exact b.isSegment s hs
    · exact hsegs s hs
  rw [landing, request, hc, path_text_append b hsegs,
    removeDotSegments_pathOf (slashless_of_isSegment hall),
    normalize_append _ _ (by simp [segments])]

lemma ordinary_urlEncodeSegment : Ordinary (urlEncodeSegment name) ↔ Ordinary name := by
  have hdot : urlEncodeSegment (ascii ".") = ascii "." := by decide
  have hdots : urlEncodeSegment (ascii "..") = ascii ".." := by decide
  unfold Ordinary
  rw [← hdot, ← hdots, urlEncodeSegment_injective.ne_iff, urlEncodeSegment_injective.ne_iff, hdot,
    hdots]

lemma Endpoint.ordinary (e : Endpoint) :
    (∀ s ∈ e.before, Ordinary s) ∧ ∀ s ∈ e.after, Ordinary s := by
  cases e <;> decide

lemma Endpoint.landing_of_ordinary {b : Base} (hc : c.baseUrl = b.text) (e : Endpoint)
    (h : Ordinary name) : e.landing c name = pathOf (resolve [] b.segments ++ e.segments name) := by
  rw [e.landing_eq hc, normalize_ordinary]
  intro s hs
  rcases List.mem_append.mp hs with hs | hs
  · exact e.ordinary.1 s hs
  · rcases List.mem_cons.mp hs with rfl | hs
    · exact ordinary_urlEncodeSegment.mpr h
    · exact e.ordinary.2 s hs

/-- A dot segment takes the place of the name, or that and the one before it. -/
lemma Endpoint.normalize_of_not_ordinary (e : Endpoint) (h : ¬Ordinary name)
    (out : List Bytes) :
    normalize out (e.segments name) = out ++ e.before ++ afterDots e.after ∧ name = ascii "." ∨
      normalize out (e.segments name) = (out ++ e.before).dropLast ++ afterDots e.after := by
  obtain ⟨hbefore, hafter⟩ := e.ordinary
  unfold segments
  rw [normalize_append _ _ (by simp), resolve_ordinary hbefore]
  rw [Ordinary, not_and_or, not_not, not_not] at h
  rcases h with rfl | rfl
  · exact .inl ⟨normalize_dot hafter, rfl⟩
  · exact .inr (normalize_dotDot hafter)

lemma Endpoint.not_inPlace {b : Base} (hc : c.baseUrl = b.text) (e : Endpoint)
    (h : ¬Ordinary name) : ¬e.InPlace b c name := by
  rintro ⟨s, hs, hname, hland⟩
  have hbase : Slashless (resolve [] b.segments) :=
    slashless_resolve slashless_nil (slashless_of_isSegment b.isSegment)
  have hsegs : Slashless (e.segments name) := slashless_of_isSegment (e.isSegment name)
  have hplace : Slashless (resolve [] b.segments ++ e.before ++ s :: e.after) := by
    have := hs.slash_notMem
    simp_all [segments]
  rw [e.landing_eq hc] at hland
  have hland := pathOf_inj (slashless_normalize hbase hsegs) hplace hland
  have hlen : (afterDots e.after).length ≤ e.after.length + 1 ∧ e.before.length ≠ 0 := by
    cases e <;> decide
  rcases e.normalize_of_not_ordinary h (resolve [] b.segments) with ⟨hn, rfl⟩ | hn
  · rw [hn] at hland
    have htail : afterDots e.after = s :: e.after := List.append_cancel_left hland
    have hnil : s = [] := by
      unfold afterDots at htail
      split at htail
      · exact (List.cons.inj htail).1.symm
      · simp at htail
    rw [hnil] at hname
    cases hname
  · rw [hn] at hland
    have := congrArg List.length hland
    simp at this
    omega

lemma Endpoint.segments_inj {e e' : Endpoint} {name' : Bytes}
    (h : e.segments name = e'.segments name') : e = e' ∧ name = name' := by
  cases e <;> cases e' <;> simp [segments, before, after, ascii] at h
  all_goals exact ⟨rfl, urlEncodeSegment_injective h⟩

/-- The request for a name lands at the endpoint, with one segment that decodes to the name, if and
only if the name is neither `.` nor `..`. Among those no two names and no two endpoints share a
path. -/
theorem endpoint_inPlace_iff (c : Client) (b : Base) (hc : c.baseUrl = b.text) (e : Endpoint)
    (name : Bytes) (hn : e.Takes name) :
    (∀ r, Event.sent r ∈ e.log c name ↔ r = e.request c name ∧ c.curl r ≠ .initFailed) ∧
      (e.InPlace b c name ↔ name ≠ ascii "." ∧ name ≠ ascii "..") ∧
      ∀ e' name', Ordinary name → Ordinary name' → e.landing c name = e'.landing c name' →
        e = e' ∧ name = name' := by
  refine ⟨fun r => e.sent_mem_log hn, ⟨fun h => ?_, fun h => ?_⟩,
    fun e' name' h h' hland => ?_⟩
  · by_contra hord
    exact e.not_inPlace hc hord h
  · exact ⟨urlEncodeSegment name, (encoded_urlEncodeSegment name).isSegment,
      percentDecode_urlEncodeSegment name, by
        rw [e.landing_of_ordinary hc h, Endpoint.segments, List.append_assoc]⟩
  · rw [e.landing_of_ordinary hc h, e'.landing_of_ordinary hc h'] at hland
    have hbase : Slashless (resolve [] b.segments) :=
      slashless_resolve slashless_nil (slashless_of_isSegment b.isSegment)
    have hsegs : ∀ (e : Endpoint) name, Slashless (e.segments name) := fun e name =>
      slashless_of_isSegment (e.isSegment name)
    have := pathOf_inj (by simpa using ⟨hbase, hsegs e name⟩)
      (by simpa using ⟨hbase, hsegs e' name'⟩) hland
    exact Endpoint.segments_inj (List.append_cancel_left this)

/-- The default URL. -/
def localBase : Base where
  scheme := ascii "http"
  authority := ascii "127.0.0.1:8453"
  segments := []
  scheme_ne_nil := by decide
  isSegment_scheme := by decide
  colon_notMem := by decide
  isSegment_authority := by decide
  isSegment := by simp

/-- A client of that URL, which answers with an empty object. -/
def localClient : Client :=
  ⟨⟨fun _ => [], fun _ => 0, fun _ => 0⟩, localBase.text,
    fun _ => .performed .ok 200 (ascii "\x7b\x7d")⟩

theorem endpoint_inPlace_iff_orders :
    (∀ r, Event.sent r ∈ (localClient.dropTable (ascii "a/b")).log ↔
      r = Endpoint.dropTable.request localClient (ascii "a/b") ∧
        localClient.curl r ≠ .initFailed) ∧
    (Endpoint.dropTable.InPlace localBase localClient (ascii "a/b") ↔
      ascii "a/b" ≠ ascii "." ∧ ascii "a/b" ≠ ascii "..") ∧
    ∀ e' name', Ordinary (ascii "a/b") → Ordinary name' →
      Endpoint.dropTable.landing localClient (ascii "a/b") = e'.landing localClient name' →
        Endpoint.dropTable = e' ∧ ascii "a/b" = name' :=
  endpoint_inPlace_iff localClient localBase rfl .dropTable (ascii "a/b") trivial

/-- To drop the table `..` a `DELETE` is sent to the root, and to count the table `.` a request for
the table `count`. The empty table and the table `.` have one path. -/
theorem endpoint_dotDot_displaced :
    (Event.sent ⟨ascii "DELETE", ascii "http://127.0.0.1:8453/tables/..", none⟩ ∈
      (localClient.dropTable (ascii "..")).log ∧
      Endpoint.dropTable.landing localClient (ascii "..") = ascii "/" ∧
      ¬Endpoint.dropTable.InPlace localBase localClient (ascii "..")) ∧
    (Endpoint.count.landing localClient (ascii ".") =
      Endpoint.dropTable.landing localClient (ascii "count") ∧
      ¬Endpoint.count.InPlace localBase localClient (ascii ".")) ∧
    Endpoint.schemaFor.landing localClient (ascii ".") =
      Endpoint.schemaFor.landing localClient [] :=
  ⟨⟨(Endpoint.dropTable.sent_mem_log trivial).mpr ⟨by decide, by rintro ⟨⟩⟩, by decide,
      Endpoint.dropTable.not_inPlace rfl (by decide)⟩,
    ⟨by decide, Endpoint.count.not_inPlace rfl (by decide)⟩, by decide⟩

end MongrelDB
