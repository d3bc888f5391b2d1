import MongrelDB.Contract.Requests
import MongrelDB.Encoder.Bodies
import MongrelDB.Json.Refused

/-!
# What `commit` and `query` send

The body of a transaction denotes exactly the ops it was built from, whatever bytes their strings
are made of. So does the body of a query, unless a bound of a range is no number: `printf` writes a
word for it, and what is sent is no JSON text.
-/

namespace MongrelDB

open Text Traced Json

variable {c : Client} {conditions : List Condition} {table : Bytes} {projection : List Int64}
  {limit offset : Int64}

/-! ### Transactions -/

lemma sent_mem_commit {ops : List Op} (hops : ops ≠ []) {key : Bytes} {r : Request} :
    Event.sent r ∈ (c.commit ops key).log ↔
      r = c.requestOf "POST" (ascii "/kit/txn") (some (commitBody c.plat ops key)) ∧
        c.curl r ≠ .initFailed := by
  have hne : ¬ops.isEmpty = true := by simpa using hops
  rw [Client.commit, if_neg hne, Run.mem_log_bind, Client.post, sent_mem_request]
  refine or_iff_left ?_
  rintro ⟨_, -, h⟩
  cases h

/-- The one request that a transaction sends carries the text of exactly that transaction. -/
theorem commit_body (c : Client) (hp : c.plat.PrintsNumbers) {ops : List Op} (hops : ops ≠ [])
    (hv : ∀ op ∈ ops, op.Valid) (key : Bytes) :
    (∀ r, Event.sent r ∈ (c.commit ops key).log ↔
      r = c.requestOf "POST" (ascii "/kit/txn") (some (commitBody c.plat ops key)) ∧
        c.curl r ≠ .initFailed) ∧
    (∃ d : ObjDoc, d.render = commitBody c.plat ops key) ∧
    parse (commitBody c.plat ops key) = some (.obj (txnMembers c.plat ops key)) := by
  have h := denotesObj_commitBody hp hv key
  refine ⟨fun r => sent_mem_commit hops, ?_, h.denotes.parse⟩
  obtain ⟨d, hd, -⟩ := h
  exact ⟨d, hd⟩

/-- Doubles as `%.17g` writes them when they are integers of few digits, infinite or no numbers. -/
def shortPlatform : Platform where
  fmtG17 d :=
    if d.isFinite then decimalInt d.trunc
    else (if d.negative then [minus] else []) ++ (if d.isNan then ascii "nan" else ascii "inf")
  wildInt64 _ := 0
  wildSize _ := 0

lemma printsNumbers_shortPlatform : shortPlatform.PrintsNumbers := by
  intro d hd
  exact ⟨intLit d.trunc, (intLit_render _).trans (if_pos hd).symm⟩

/-- A client of that platform that gets an empty response. -/
def shortClient : Client := ⟨shortPlatform, [], fun _ => .performed .ok 200 []⟩

/-- A put of a string with a quote and of the number two, and a deletion. -/
def shortOps : List Op :=
  [{ table := ascii "t",
      cells := [⟨1, .string (ascii "a\"b")⟩, ⟨2, .double ⟨0x4000000000000000⟩⟩] },
    { type := .delete, table := ascii "t", rowId := 7 }]

theorem commit_body_short :
    (∃ d : ObjDoc, d.render = commitBody shortPlatform shortOps (ascii "k")) ∧
    parse (commitBody shortPlatform shortOps (ascii "k")) =
      some (.obj (txnMembers shortPlatform shortOps (ascii "k"))) := by
  refine (commit_body shortClient printsNumbers_shortPlatform (List.cons_ne_nil _ _) ?_ _).2
  simp [Op.Valid, Value.Valid]

/-! ### Bounds that are no numbers -/

/-- `printf` writes a word for an infinity and for what is no number, perhaps after a sign. -/
def Platform.PrintsWords (plat : Platform) : Prop :=
  ∀ d : Binary64, d.isFinite = false → ∃ sign word t, (sign = [] ∨ sign = [minus]) ∧
    (word = ascii "nan" ∨ word = ascii "inf") ∧ plat.fmtG17 d = sign ++ word ++ t

lemma noStart_fmtG17 {plat : Platform} (hn : plat.PrintsWords) {d : Binary64}
    (h : d.isFinite = false) : NoStart (plat.fmtG17 d) := by
  obtain ⟨sign, word, u, hsign, hword, hd⟩ := hn d h
  rw [hd]
  constructor
  · rcases hsign with rfl | rfl <;> rcases hword with rfl | rfl <;>
      exact ⟨_, _, rfl, by decide, by decide⟩
  · intro t
    rcases hsign with rfl | rfl
    · rcases hword with rfl | rfl
      · exact noValue_of_ne_null (b := 0x61 :: 0x6E :: (u ++ t)) (by simp [ascii])
      · exact noValue_of_not_isValueHead (c := 0x69) (b := 0x6E :: 0x66 :: (u ++ t)) (by decide)
          (by decide)
    · rcases hword with rfl | rfl
      · exact noValue_minus (b := 0x6E :: 0x61 :: 0x6E :: (u ++ t)) (stops_cons.mpr (by decide))
      · exact noValue_minus (b := 0x69 :: 0x6E :: 0x66 :: (u ++ t)) (stops_cons.mpr (by decide))

lemma isDoc_of_denotes {b : Bytes} {t : Tree} (h : Denotes b t) : IsDoc b := by
  obtain ⟨d, hd, -⟩ := h
  exact ⟨d, hd⟩

/-- A condition with a bound that is no number ruins the text. -/
lemma noStart_conditionText {plat : Platform} (hp : plat.PrintsNumbers) (hn : plat.PrintsWords)
    {cond : Condition} (h : ¬cond.FiniteBounds) : NoStart (conditionText plat cond) := by
  simp only [Condition.FiniteBounds, not_forall] at h
  obtain ⟨hj, hk, h⟩ := h
  have hid : IsDoc (int64Text cond.columnId) := isDoc_of_denotes (denotes_int64Text _)
  have hbound : ∀ (name : String) {set : Bool} {d : Binary64} (l),
      ¬(set = true → d.isFinite = true) →
        Breaks (fun m => IsDoc m.2) (fun m => NoStart m.2) (boundText plat name set d ++ l) := by
    intro name set d l h
    obtain ⟨hset, hd⟩ := Classical.not_imp.mp h
    rw [boundText, if_pos hset]
    exact .here (noStart_fmtG17 hn (by simpa using hd))
  have hbounds : Breaks (fun m : StrLit × Bytes => IsDoc m.2) (fun m => NoStart m.2)
      (boundText plat "lo" cond.loSet cond.lo ++ boundText plat "hi" cond.hiSet cond.hi) := by
    by_cases hlo : cond.loSet = true → cond.lo.isFinite = true
    · have hhi := hbound "hi" [] fun hhi => h ⟨hlo, hhi⟩
      rw [List.append_nil] at hhi
      rw [boundText]
      split
      · exact .later (isDoc_of_denotes (denotes_fmtG17 hp (hlo ‹_›))) hhi
      · exact hhi
    · exact hbound "lo" _ hlo
  rw [conditionText_eq hj, conditionTexts, hk]
  exact noStart_objectText (.here (noStart_objectText (.later hid hbounds)))

/-- A query with such a condition is no JSON text. -/
lemma parse_queryBody_of_not {plat : Platform} (hp : plat.PrintsNumbers) (hn : plat.PrintsWords)
    (hv : ∀ cond ∈ conditions, cond.Valid) (h : ¬∀ cond ∈ conditions, cond.FiniteBounds) :
    parse (queryBody plat table conditions projection limit offset) = none := by
  have hb : Breaks (fun cond => IsDoc (conditionText plat cond))
      (fun cond => NoStart (conditionText plat cond)) conditions :=
    breaks_of_not_forall (fun cond hc => isDoc_of_denotes ∘ denotes_conditionText hp (hv cond hc))
      (fun _ _ => noStart_conditionText hp hn) h
  have hne : ¬conditions.isEmpty = true := by simpa using hb.ne_nil
  have hq : NoStart (queryBody plat table conditions projection limit offset) := by
    rw [queryBody_eq, queryTexts, if_neg hne]
    exact noStart_objectText (.later (isDoc_of_denotes (denotes_jsonEscape _))
      (.here (noStart_arrayText (hb.map _))))
  simpa using parse_of_noValue (hq.noValue []) (hq.stops [])

/-! ### Queries -/

lemma sent_mem_query {r : Request} :
    Event.sent r ∈ (c.query table conditions projection limit offset).log ↔
      r = c.requestOf "POST" (ascii "/kit/query")
          (some (queryBody c.plat table conditions projection limit offset)) ∧
        c.curl r ≠ .initFailed := by
  rw [Client.query, Run.mem_log_bind, Client.post, sent_mem_request]
  refine or_iff_left ?_
  rintro ⟨resp, -, h⟩
  have hsafe : SafeCall Stop.IsQueryException (decodeQuery resp) := safeCall_decodeQuery
  exact not_sent_of_safeCall hsafe r h

/-- A query sends nothing or the text of exactly that query if and only if libcurl cannot be set up
or the bounds it writes are finite. -/
theorem query_body_iff (c : Client) (hp : c.plat.PrintsNumbers) (hn : c.plat.PrintsWords)
    (table : Bytes) {conditions : List Condition} (hv : ∀ cond ∈ conditions, cond.Valid)
    (projection : List Int64) (limit offset : Int64) :
    (∀ r, Event.sent r ∈ (c.query table conditions projection limit offset).log →
      ∃ d : ObjDoc, r.body = some d.render ∧ parse d.render =
        some (.obj (queryMembers c.plat table conditions projection limit offset))) ↔
    c.curl (c.requestOf "POST" (ascii "/kit/query")
        (some (queryBody c.plat table conditions projection limit offset))) = .initFailed ∨
      ∀ cond ∈ conditions, cond.FiniteBounds := by
  simp only [sent_mem_query]
  constructor
  · intro h
    by_contra hno
    obtain ⟨hcurl, hbounds⟩ := not_or.mp hno
    obtain ⟨d, hd, -⟩ := h _ ⟨rfl, hcurl⟩
    have hparse := parse_render d.toDoc
    rw [← ObjDoc.render, ← Option.some.inj hd, parse_queryBody_of_not hp hn hv hbounds] at hparse
    cases hparse
  · rintro h r ⟨rfl, hcurl⟩
    have hq : DenotesObj (queryBody c.plat table conditions projection limit offset) _ :=
      denotesObj_queryBody hp hv (h.resolve_left hcurl)
    have hparse := hq.denotes.parse
    obtain ⟨d, hd, -⟩ := hq
    exact ⟨d, congrArg some hd.symm, hd ▸ hparse⟩

lemma printsWords_shortPlatform : shortPlatform.PrintsWords := by
  intro d hd
  refine ⟨if d.negative then [minus] else [], if d.isNan then ascii "nan" else ascii "inf", [],
    ?_, ?_, ?_⟩
  · split <;> simp
  · split <;> simp
  · simp [shortPlatform, hd]

/-- A range from two on. -/
def shortRange : Condition :=
  { kind := .range, columnId := 1, lo := ⟨0x4000000000000000⟩, loSet := true }

theorem query_body_short : ∃ d : ObjDoc,
    some (queryBody shortPlatform (ascii "t") [shortRange] [3] 10 0) = some d.render ∧
      parse d.render =
        some (.obj (queryMembers shortPlatform (ascii "t") [shortRange] [3] 10 0)) := by
  refine (query_body_iff shortClient printsNumbers_shortPlatform printsWords_shortPlatform _ ?_ _ _
    _).mpr (.inr ?_) _ (sent_mem_query.mpr ⟨rfl, by rintro ⟨⟩⟩)
  · rintro cond hc json hj
    obtain rfl := List.mem_singleton.mp hc
    cases hj
  · rintro cond hc - -
    obtain rfl := List.mem_singleton.mp hc
    decide

/-- A range from what is no number on. -/
def nanRange : Condition :=
  { kind := .range, columnId := 1, lo := ⟨0x7FF8000000000000⟩, loSet := true }

def nanBody : Bytes :=
  ascii "\x7b\"table\":\"t\",\"conditions\":[" ++
    ascii "\x7b\"range\":\x7b\"column_id\":1,\"lo\":nan\x7d\x7d]\x7d"

/-- A bound that is no number is sent as it is printed, in a body that is no JSON text. -/
theorem query_body_nan :
    Event.sent ⟨ascii "POST", ascii "/kit/query", some nanBody⟩ ∈
        (shortClient.query (ascii "t") [nanRange] [] 0 0).log ∧
    ∀ d : Doc, d.render ≠ nanBody :=
  ⟨sent_mem_query.mpr ⟨by decide +kernel, by rintro ⟨⟩⟩, render_ne_of_parse (by decide +kernel)⟩

end MongrelDB
