import MongrelDB.Contract.Requests
import MongrelDB.Json.Parse
import MongrelDB.Walker.Responses
import MongrelDB.Walker.RowSafety

/-!
# What becomes of malformed responses

A response that is not a complete document of the expected shape ought to be refused with a
`QueryException`. The decoders of rows and names refuse the lists that they read and do not
understand, but look neither for what is missing in front of a list nor at what follows it, and the
calls that return an integer refuse nothing.
-/

namespace MongrelDB

open Text Traced Prog Json JsonParser

/-! ### Shapes -/

/-- Column ids and values in turn. -/
inductive CellPairs : List Cst → Prop
  | nil : CellPairs []
  | cons {n v l} : n.isInt = true → CellPairs l → CellPairs (.num n :: v :: l)

/-- An object with an array of rows, each an object with an array of cells. -/
def QueryShape (body : Bytes) : Prop :=
  ∃ d : ObjDoc, d.render = body ∧ ∃ v l, d.obj.lookup (ascii "rows") = some v ∧ v.elems = some l ∧
    ∀ row ∈ l, ∃ o c cs, row.asObj = some o ∧ o.lookup (ascii "cells") = some c ∧
      c.elems = some cs ∧ CellPairs cs

/-- An array of strings. -/
def NamesShape (body : Bytes) : Prop :=
  ∃ d : Doc, d.render = body ∧ ∃ l, d.val.elems = some l ∧ ∀ v ∈ l, v.asStr.isSome = true

/-- An object with an integer of that name. -/
def IntShape (key body : Bytes) : Prop :=
  ∃ d : ObjDoc, d.render = body ∧ ∃ n, d.obj.numAt key = some n ∧ n.isInt = true

/-! ### Refusals -/

/-- The call ends with a `QueryException`. -/
def Refuses {α : Type} (x : Call α) : Prop := ∃ what, x.out = .error (.thrown (.query what))

/-- The text behind the bracket of `rows` is not a list of rows. -/
def BadRows (body : Bytes) : Prop :=
  ∃ y, RowsAt body y ∧ ∀ rows r, ¬Bracketed ReadsRow rbracket y rows r

/-- The body begins with a bracket, and the text behind it is not a list of names. -/
def BadNames (body : Bytes) : Prop :=
  ∃ y, Next lbracket body y ∧ ∀ names r, ¬Bracketed ReadsName rbracket y names r

variable {body : Bytes}

/-- A safe call that does not return is refused. -/
lemma refuses_iff {α : Type} {x : Call α} (hx : SafeCall Stop.IsQueryException x) :
    Refuses x ↔ ∀ a, x.out ≠ .ok a := by
  constructor
  · rintro ⟨what, h⟩ a ha
    rw [h] at ha
    cases ha
  · intro h
    cases ho : x.out with
    | ok a => exact absurd ho (h a)
    | error e =>
      have hbad := hx.error e ho
      match e with
      | .thrown (.query what) => exact ⟨what, ho⟩
      | .thrown (.auth _) | .thrown (.notFound _) | .thrown (.conflict _ _ _) | .outOfRange
      | .spent => exact hbad.elim

lemma refuses_decodeQuery_iff : Refuses (decodeQuery body) ↔ BadRows body := by
  obtain ⟨flag, hout⟩ := exists_out_decodeQuery body
  have hrefuses : Refuses (decodeQuery body) ↔ Refuses (walk body decodeRows) := by
    rw [Refuses, Refuses, hout]
    cases (walk body decodeRows).out with
    | ok rows => simp [Except.map]
    | error e => simp [Except.map]
  rw [hrefuses, refuses_iff safeCall_decodeRows]
  constructor
  · intro h
    obtain ⟨y, hy⟩ : ∃ y, RowsAt body y := by
      by_contra hn
      exact h [] (out_decodeRows_of_not fun y hy => hn ⟨y, hy⟩)
    exact ⟨y, hy, fun rows r hr => h rows ((out_decodeRows_of_rowsAt hy).mpr ⟨r, hr⟩)⟩
  · rintro ⟨y, hy, h⟩ rows ho
    obtain ⟨r, hr⟩ := (out_decodeRows_of_rowsAt hy).mp ho
    exact h rows r hr

lemma refuses_decodeNames_iff : Refuses (walk body decodeNames) ↔ BadNames body := by
  rw [refuses_iff safeCall_decodeNames]
  simp only [ne_eq, out_decodeNames_iff, not_or, not_exists, not_and, not_forall, not_not]
  constructor
  · intro h
    obtain ⟨y, hy⟩ := (h []).2 rfl
    exact ⟨y, hy, fun names r => (h names).1 y r hy⟩
  · rintro ⟨y, hy, h⟩ names
    refine ⟨fun y' r hy' hr => ?_, fun _ => ⟨y, hy⟩⟩
    obtain ⟨-, rfl⟩ := hy.unique hy'
    exact h names r hr

/-- The calls that return an integer never throw. -/
lemma exists_out_getInt (plat : Platform) (body key : Bytes) (out : Int64) :
    ∃ a, (getInt plat body key out).out = .ok a :=
  exists_out_of_safeCall safeCall_getInt

/-- When the four calls refuse a successful response that is not of the shape they expect. -/
theorem malformed_refused_iff (c : Client) (code : Int) (body : Bytes) (h : c.Answers code body)
    (hlen : body.length ≤ kMaxResponseBytes) (hlo : 200 ≤ code) (hhi : code < 300) :
    (∀ table conditions projection limit offset,
      ((¬QueryShape body → Refuses (c.query table conditions projection limit offset)) ↔
        QueryShape body ∨ BadRows body)) ∧
    ((¬NamesShape body → Refuses c.tableNames) ↔ NamesShape body ∨ BadNames body) ∧
    (∀ table, (¬IntShape (ascii "count") body → Refuses (c.count table)) ↔
      IntShape (ascii "count") body) ∧
    (∀ name columns constraints indexes,
      (¬IntShape (ascii "table_id") body →
          Refuses (c.createTable name columns constraints indexes)) ↔
        IntShape (ascii "table_id") body) := by
  have hrequest : ∀ {method path content}, (c.request method path content).out = .ok body :=
    out_request_of_success (h _) hlen hlo hhi
  have hquery : ∀ table conditions projection limit offset,
      (c.query table conditions projection limit offset).out = (decodeQuery body).out :=
    fun _ _ _ _ _ => Run.out_bind_ok hrequest _
  have hnames : c.tableNames.out = (walk body decodeNames).out := Run.out_bind_ok hrequest _
  have hcount : ∀ table, ¬Refuses (c.count table) := by
    rintro table ⟨what, ho⟩
    obtain ⟨a, ha⟩ := exists_out_getInt c.plat body (ascii "count") 0
    rw [Client.count, Client.get, Run.out_bind_ok hrequest, Run.out_bind_ok ha] at ho
    cases ho
  have hcreate : ∀ name columns constraints indexes,
      ¬Refuses (c.createTable name columns constraints indexes) := by
    rintro name columns constraints indexes ⟨what, ho⟩
    obtain ⟨a, ha⟩ := exists_out_getInt c.plat body (ascii "table_id") 0
    rw [Client.createTable, Client.post, Run.out_bind_ok hrequest, Run.out_bind_ok ha] at ho
    cases ho
  refine ⟨fun table conditions projection limit offset => ?_, ?_, fun table => ?_,
    fun name columns constraints indexes => ?_⟩
  · rw [← refuses_decodeQuery_iff, ← Classical.or_iff_not_imp_left, Refuses, hquery]
    rfl
  · rw [← refuses_decodeNames_iff, ← Classical.or_iff_not_imp_left, Refuses, hnames]
    rfl
  · rw [← Classical.or_iff_not_imp_left, or_iff_left (hcount table)]
  · rw [← Classical.or_iff_not_imp_left, or_iff_left (hcreate name columns constraints indexes)]

/-- A client that gets this body whatever it asks for. -/
def answering (body : Bytes) : Client :=
  ⟨⟨fun _ => [], fun _ => 0, fun _ => 0⟩, [], fun _ => .performed .ok 200 body⟩

/-- A list that is cut off is refused. -/
theorem malformed_refused_cut :
    ¬NamesShape (ascii "[\"a\"") ∧ Refuses (answering (ascii "[\"a\"")).tableNames := by
  have hshape : ¬NamesShape (ascii "[\"a\"") := by
    rintro ⟨d, hd, -⟩
    exact render_ne_of_parse (by decide +kernel) d hd
  exact ⟨hshape, ((malformed_refused_iff (answering (ascii "[\"a\"")) 200 (ascii "[\"a\"")
    (fun _ => rfl) (by decide) (by norm_num) (by norm_num)).2.1).mpr
      (.inr (refuses_decodeNames_iff.mp
        ⟨ascii "mongreldb: malformed table list", by decide +kernel⟩)) hshape⟩

/-- A response that lacks its last brace is taken for one with no rows, or for a count. -/
theorem malformed_accepted :
    (((answering (ascii "\x7b\"rows\":[]")).query [] [] [] 0 0).out = .ok ⟨[], false⟩ ∧
      ¬QueryShape (ascii "\x7b\"rows\":[]")) ∧
    (((answering (ascii "\x7b\"count\":1")).count []).out = .ok 1 ∧
      ¬IntShape (ascii "count") (ascii "\x7b\"count\":1")) := by
  refine ⟨⟨by decide +kernel, ?_⟩, by decide +kernel, ?_⟩
  · rintro ⟨d, hd, -⟩
    exact render_ne_of_parse (by decide +kernel) d.toDoc hd
  · rintro ⟨d, hd, -⟩
    exact render_ne_of_parse (by decide +kernel) d.toDoc hd

end MongrelDB
