import MongrelDB.Contract.Floats
import MongrelDB.Contract.RoundTrip
import MongrelDB.Walker.Elsewhere

/-!
# Rows that are written back

A row that a query has returned, written by `json_cells` into any text and read again, is the same
row but for some of its doubles: those that are integers of at most seventeen digits come back as
integers, and infinities as nulls. From the second time on nothing changes. Raw values need no
assumption here, well-formed or not: what was once read in a response is read again anywhere.
-/

namespace MongrelDB

open Text Traced Prog Json JsonParser Binary64

/-! ### Values -/

/-- What a value is once it has been written and read. -/
inductive ComesBack : Value → Value → Prop
  | same {v} : (∀ d, v ≠ .double d) → ComesBack v v
  | double {d} : d.isFinite = true → ¬d.ShortInteger → ComesBack (.double d) (.double d)
  | integer {d} : d.isFinite = true → d.ShortInteger →
      ComesBack (.double d) (.int64 (Int64.ofInt d.trunc))
  | null {d} : d.isFinite = false → ComesBack (.double d) .null

/-- A value that stays what it is. -/
def Settled (v : Value) : Prop :=
  ∀ d, v = .double d → d.isFinite = true ∧ ¬d.ShortInteger

lemma ComesBack.settled {v v' : Value} (h : ComesBack v v') : Settled v' := by
  cases h with
  | same hv => exact fun d hd => absurd hd (hv d)
  | double hfin hs =>
    rintro d ⟨⟩
    exact ⟨hfin, hs⟩
  | integer => rintro d ⟨⟩
  | null => rintro d ⟨⟩

/-- A raw value is read wherever its text stands. -/
def Placed (v : Value) : Prop := ∀ s, v = .json s → ∀ r, ReadsValue (s ++ r) (.json s) r

lemma ComesBack.placed {v v' : Value} (h : ComesBack v v') (hv : Placed v) : Placed v' := by
  cases h with
  | same => exact hv
  | double | integer | null => rintro s ⟨⟩

lemma ComesBack.eq_iff {v v' : Value} (h : ComesBack v v') : v' = v ↔ Settled v := by
  constructor
  · rintro rfl
    exact h.settled
  · intro hv
    cases h with
    | same => rfl
    | double => rfl
    | integer _ hs => exact absurd hs (hv _ rfl).2
    | null hfin =>
      rw [(hv _ rfl).1] at hfin
      cases hfin

/-- A double that is an integer has the text of that integer, but for a negative zero. -/
lemma clampedValue_of_short {d : Binary64} (h : d.ShortInteger) : ∃ n : NumLit,
    n.render = printG17 d ∧ clampedValue (.num n) = .int64 (Int64.ofInt d.trunc) := by
  obtain ⟨v, hlt, hv⟩ := h
  obtain ⟨n, hneg, hn, hint, hmag⟩ := exists_literal_decimal d.negative v
  have htrunc : d.trunc = if d.negative then -(v : Int) else v := by
    rw [trunc, truncNat_eq_of_magnitude hv]
  have hvalue : n.intValue = d.trunc := by
    have hq : (n.intValue : ℚ) = d.trunc := by
      rw [← n.value_of_isInt hint, n.value_eq_magnitude, hmag, hneg, htrunc]
      cases d.negative <;> simp
    exact_mod_cast hq
  have hfits : InInt64 (.num n) := by
    rintro _ ⟨⟩ -
    rw [hvalue, htrunc]
    constructor <;> split_ifs <;> omega
  refine ⟨n, hn.trans (printG17_int hv hlt).symm, ?_⟩
  rw [clampedValue_of_inInt64 hfits, cellValue, if_pos hint, hvalue]

section Written

variable {plat : Platform} (hp : plat.PrintsG17)
include hp

lemma exists_comesBack {v : Value} (hv : Placed v) : ∃ v', ComesBack v v' ∧
    ∀ r, Delimited r → ReadsValue (jsonValue plat v ++ r) v' r := by
  have hcst : ∀ c : Cst, c.render = jsonValue plat v → ∀ r, Delimited r →
      ReadsValue (jsonValue plat v ++ r) (clampedValue c) r := by
    intro c hc r hr
    rw [← hc]
    exact readsValue_clamped c Ws.none hr
  have hcarried : Carried v → (∀ d, v ≠ .double d) →
      ∃ v', ComesBack v v' ∧ ∀ r, Delimited r → ReadsValue (jsonValue plat v ++ r) v' r := by
    intro hcarried hnot
    obtain ⟨c, hc, hcell, hint⟩ := exists_cst_of_carried plat hcarried
    have hread := hcst c hc
    rw [clampedValue_of_inInt64 hint, hcell] at hread
    exact ⟨v, .same hnot, hread⟩
  cases v with
  | double d =>
    cases hfin : d.isFinite with
    | false =>
      have htext : ascii "null" = jsonValue plat (.double d) := by
        rw [jsonValue, isNan_or_isInf, hfin]
        rfl
      exact ⟨.null, .null hfin, hcst .null htext⟩
    | true =>
      have htext := jsonValue_double hp hfin
      by_cases hs : d.ShortInteger
      · obtain ⟨n, hn, hval⟩ := clampedValue_of_short hs
        exact ⟨_, .integer hfin hs, hval ▸ hcst (.num n) (hn.trans htext.symm)⟩
      · obtain ⟨n, hneg, hn, hclose, hint⟩ := exists_literal_printG17 d
        have hval : clampedValue (.num n) = .double d := by
          rw [clampedValue, if_neg fun h => hs (hint.mp h), n.toBinary64_of_close hfin hneg hclose]
        exact ⟨_, .double hfin hs, hval ▸ hcst (.num n) (hn.trans htext.symm)⟩
  | json s => exact ⟨.json s, .same (by rintro d ⟨⟩), fun r _ => hv s rfl r⟩
  | null | bool | int64 | string => exact hcarried trivial (by rintro d ⟨⟩)

end Written

/-! ### Cells -/

variable {plat : Platform}

/-- The first cell is written so that the second is read, with anything behind it that ends it. -/
def WritesCell (plat : Platform) (c c' : Cell) : Prop :=
  ∀ r, Delimited r → ReadsCell (jsonCell plat c ++ r) c' r

lemma writesCell {c : Cell} {v : Value}
    (h : ∀ r, Delimited r → ReadsValue (jsonValue plat c.value ++ r) v r) :
    WritesCell plat c ⟨c.columnId, v⟩ := by
  intro r hr
  have htext : jsonCell plat c ++ r = Ws.none.text ++ ((Cst.num (intLit c.columnId.toInt)).render ++
      (Ws.none.text ++ comma :: (jsonValue plat c.value ++ r))) := by
    simp [jsonCell, int64Text, Ws.none, Cst.render, intLit_render]
  rw [htext, readsCell_iff Ws.none _ (delimited_comma Ws.none _), afterComma_comma]
  refine ⟨_, rfl, ?_, h r hr⟩
  rw [strtoll_of_isInt rfl, intLit_intValue, ofIntClamp_toInt]

/-- The cells behind the first, each with a comma before it. -/
lemma listed_of_writes {c c' : Cell} {cells cells' : List Cell} (hc : WritesCell plat c c')
    (h : List.Forall₂ (WritesCell plat) cells cells') (r : Bytes) :
    Listed ReadsCell rbracket (commaSeparated (jsonCell plat) (c :: cells) ++ rbracket :: r)
      (c' :: cells') r := by
  induction h generalizing c c' with
  | nil =>
    exact .last (hc _ (delimited_cons.mpr (by decide))) (next_cons (by decide) r)
  | @cons d d' cells cells' hd _ ih =>
    have hmore := Listed.more (hc _ (delimited_cons.mpr (by decide)))
      (next_cons (c := comma) (by decide) _) (ih hd)
    simpa [commaSeparated] using hmore

/-- The first row is written so that the second is read, in any text around it. -/
def WritesRow (plat : Platform) (row row' : Row) : Prop :=
  ∀ u r, (readCells []).out ⟨u ++ (jsonCells plat row ++ r), u.length, true⟩ =
    .ok (row', ⟨u ++ (jsonCells plat row ++ r), (u ++ jsonCells plat row).length, true⟩)

lemma writesRow {row row' : Row} (h : List.Forall₂ (WritesCell plat) row row') :
    WritesRow plat row row' := by
  intro u r
  have hread : ReadsCells (commaSeparated (jsonCell plat) row ++ rbracket :: r) row' r := by
    cases h with
    | nil => exact .inl ⟨next_cons (by decide) r, rfl⟩
    | cons hc h => exact .inr (listed_of_writes hc h r)
  have htext : jsonCells plat row ++ r =
      lbracket :: (commaSeparated (jsonCell plat) row ++ rbracket :: r) := by
    simp [jsonCells]
  obtain ⟨t, ht, hout⟩ := (reads_readCells [] (next_cons (c := lbracket) (by decide)
    (commaSeparated (jsonCell plat) row ++ rbracket :: r))).complete row' r ⟨row', hread, rfl⟩
  rw [← htext] at ht hout
  obtain rfl : jsonCells plat row = t := List.append_cancel_right ht
  have := hout u
  simpa [tape, Tape.firm] using this

/-! ### Rows -/

/-- The same columns, with what the values are once they have been written and read. -/
def RowComesBack (row row' : Row) : Prop :=
  List.Forall₂ (fun c c' => c'.columnId = c.columnId ∧ ComesBack c.value c'.value) row row'

lemma RowComesBack.eq_iff {row row' : Row} (h : RowComesBack row row') :
    row' = row ↔ ∀ c ∈ row, Settled c.value := by
  induction h with
  | nil => simp
  | @cons c c' row row' hc _ ih =>
    obtain ⟨hid, hv⟩ := hc
    rw [List.forall_mem_cons, ← ih, ← hv.eq_iff, List.cons.injEq]
    refine and_congr_left fun _ => ⟨fun h => congrArg Cell.value h, fun h => ?_⟩
    cases c
    cases c'
    exact congrArg₂ Cell.mk hid h

lemma RowComesBack.settled {row row' : Row} (h : RowComesBack row row') :
    ∀ c ∈ row', Settled c.value := by
  induction h with
  | nil => simp
  | cons hc _ ih => exact List.forall_mem_cons.mpr ⟨hc.2.settled, ih⟩

lemma RowComesBack.placed {row row' : Row} (h : RowComesBack row row')
    (hrow : ∀ c ∈ row, Placed c.value) : ∀ c ∈ row', Placed c.value := by
  induction h with
  | nil => simp
  | cons hc _ ih =>
    obtain ⟨hplaced, hrow⟩ := List.forall_mem_cons.mp hrow
    exact List.forall_mem_cons.mpr ⟨hc.2.placed hplaced, ih hrow⟩

section Written

variable (hp : plat.PrintsG17)
include hp

lemma exists_rowComesBack {row : Row} (hrow : ∀ c ∈ row, Placed c.value) :
    ∃ row', RowComesBack row row' ∧ WritesRow plat row row' := by
  suffices h : ∃ row', RowComesBack row row' ∧ List.Forall₂ (WritesCell plat) row row' by
    obtain ⟨row', hback, hwrites⟩ := h
    exact ⟨row', hback, writesRow hwrites⟩
  induction row with
  | nil => exact ⟨[], .nil, .nil⟩
  | cons c row ih =>
    obtain ⟨hplaced, hrow⟩ := List.forall_mem_cons.mp hrow
    obtain ⟨row', hback, hwrites⟩ := ih hrow
    obtain ⟨v, hv, hread⟩ := exists_comesBack hp hplaced
    exact ⟨⟨c.columnId, v⟩ :: row', .cons ⟨rfl, hv⟩ hback, .cons (writesCell hread) hwrites⟩

omit hp in
/-- What a response has as raw values is read wherever it stands. -/
lemma placed_of_decoded {b : Bytes} {rows : List Row} (h : (walk b decodeRows).out = .ok rows)
    {row : Row} (hrow : row ∈ rows) : ∀ c ∈ row, Placed c.value := by
  intro c hc s hs r
  obtain ⟨v, w, hcell, hlen⟩ := exists_readsCell h hrow hc
  have hval := hcell.value
  rw [hs] at hval
  exact hval.elsewhere hlen

/-- A row that was read in a response can be written and read again anywhere. What changes is the
doubles that print as integers and the infinite ones, and only the first time. -/
theorem row_written_back {b : Bytes} {result : Result} (h : (decodeQuery b).out = .ok result)
    {row : Row} (hrow : row ∈ result.rows) :
    ∃ row', RowComesBack row row' ∧ WritesRow plat row row' ∧ WritesRow plat row' row' ∧
      (row' = row ↔ ∀ c ∈ row, Settled c.value) := by
  obtain ⟨flag, hflag⟩ := exists_out_decodeQuery b
  rw [hflag] at h
  cases ho : (walk b decodeRows).out with
  | error e =>
    rw [ho] at h
    cases h
  | ok rows =>
    rw [ho] at h
    cases h
    have hplaced := placed_of_decoded ho hrow
    obtain ⟨row', hback, hwrites⟩ := exists_rowComesBack hp hplaced
    obtain ⟨row'', hback', hwrites'⟩ := exists_rowComesBack hp (hback.placed hplaced)
    obtain rfl : row'' = row' := hback'.eq_iff.mpr hback.settled
    exact ⟨_, hback, hwrites, hwrites', hback.eq_iff⟩

end Written

/-- Twenty as a double, and a raw value that no grammar knows. -/
def laxResponse : Bytes := ascii "\x7b\"rows\":[\x7b\"cells\":[1,2e1,2,[tru]]\x7d]\x7d"

theorem row_written_back_lax :
    let row : Row := [⟨1, .double ⟨0x4034000000000000⟩⟩, ⟨2, .json (ascii "[tru]")⟩]
    ∃ row', RowComesBack row row' ∧ WritesRow standardPlatform row row' ∧
      WritesRow standardPlatform row' row' ∧ (row' = row ↔ ∀ c ∈ row, Settled c.value) := by
  intro row
  have hout : (decodeQuery laxResponse).out = .ok ⟨[row], false⟩ := by decide +kernel
  exact row_written_back (fun _ _ => rfl) hout List.mem_cons_self

end MongrelDB
