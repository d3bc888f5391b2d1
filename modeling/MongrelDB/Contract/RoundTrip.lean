import MongrelDB.Contract.Query

/-!
# Cells survive the round trip

The cells of a row, written by `json_cells` and read back by the loop of `query`, are the same cells
in the same order, and the reader stops right behind the closing bracket.
-/

namespace MongrelDB

open Text Traced Prog Json JsonParser

/-- What is carried over as it is: everything but a double, where a raw value is an array or an
object of the grammar. -/
def Carried : Value → Prop
  | .double _ => False
  | .json s => ∃ v : Cst, v.render = s ∧ (v.asArr.isSome = true ∨ v.asObj.isSome = true)
  | _ => True

lemma cellValue_of_container {v : Cst} (h : v.asArr.isSome = true ∨ v.asObj.isSome = true) :
    cellValue v = .json v.render := by
  cases v with
  | emptyArr | arr | emptyObj | obj => rfl
  | null | bool | num | str => rcases h with h | h <;> cases h

/-- The text of a value is that of a value of the grammar which is read as that value. -/
lemma exists_cst_of_carried (plat : Platform) {v : Value} (h : Carried v) :
    ∃ c : Cst, c.render = jsonValue plat v ∧ cellValue c = v ∧ InInt64 c := by
  cases v with
  | null => exact ⟨.null, rfl, rfl, by rintro n ⟨⟩⟩
  | bool b => exact ⟨.bool b, rfl, rfl, by rintro n ⟨⟩⟩
  | int64 i =>
    refine ⟨.num (intLit i.toInt), intLit_render i.toInt, ?_, ?_⟩
    · rw [cellValue, if_pos (show (intLit i.toInt).isInt = true from rfl), intLit_intValue,
        Int64.ofInt_toInt]
    · rintro n ⟨⟩ -
      rw [intLit_intValue]
      exact ⟨Int64.le_toInt i, Int64.toInt_lt i⟩
  | double d => exact h.elim
  | string s =>
    refine ⟨.str (escapeLit s), escapeLit_render s, ?_, by rintro n ⟨⟩⟩
    rw [cellValue, escapeLit_decode]
  | json s =>
    obtain ⟨c, rfl, hc⟩ := h
    refine ⟨c, rfl, cellValue_of_container hc, ?_⟩
    rintro n rfl
    rcases hc with hc | hc <;> cases hc

lemma readsCell_jsonCell (plat : Platform) {c : Cell} (h : Carried c.value) {r : Bytes}
    (hr : Delimited r) : ReadsCell (jsonCell plat c ++ r) c r := by
  obtain ⟨v, hv, hcell, hint⟩ := exists_cst_of_carried plat h
  have hid : strtoll (intLit c.columnId.toInt).render = c.columnId := by
    rw [strtoll_of_isInt rfl, intLit_intValue, ofIntClamp_toInt]
  have := readsCell_render Ws.none Ws.none Ws.none (intLit c.columnId.toInt) v hr
  rw [readCell, hid, clampedValue_of_inInt64 hint, hcell, hv, intLit_render] at this
  simpa [jsonCell, int64Text, Ws.none] using this

/-- The cells behind the first, each with a comma before it. -/
lemma listed_jsonCells (plat : Platform) (c : Cell) (cells : List Cell)
    (h : ∀ c' ∈ c :: cells, Carried c'.value) (r : Bytes) :
    Listed ReadsCell rbracket (commaSeparated (jsonCell plat) (c :: cells) ++ rbracket :: r)
      (c :: cells) r := by
  induction cells generalizing c with
  | nil =>
    exact .last (readsCell_jsonCell plat (h c (by simp)) (delimited_cons.mpr (by decide)))
      (next_cons (by decide) r)
  | cons c' cells ih =>
    have hrest := ih c' fun c'' hc'' => h c'' (List.mem_cons_of_mem _ hc'')
    have := Listed.more (readsCell_jsonCell plat (h c (by simp)) (delimited_cons.mpr (by decide)))
      (next_cons (c := comma) (by decide) _) hrest
    simpa [commaSeparated] using this

/-- Reading back what was written, in any text around it. -/
theorem readCells_jsonCells (plat : Platform) (cells : List Cell)
    (h : ∀ c ∈ cells, Carried c.value) (u r : Bytes) :
    (readCells []).out ⟨u ++ (jsonCells plat cells ++ r), u.length, true⟩ = .ok (cells,
      ⟨u ++ (jsonCells plat cells ++ r), (u ++ jsonCells plat cells).length, true⟩) := by
  have hread : ReadsCells (commaSeparated (jsonCell plat) cells ++ rbracket :: r) cells r := by
    cases cells with
    | nil => exact .inl ⟨next_cons (by decide) r, rfl⟩
    | cons c cells => exact .inr (listed_jsonCells plat c cells h r)
  have htext : jsonCells plat cells ++ r =
      lbracket :: (commaSeparated (jsonCell plat) cells ++ rbracket :: r) := by
    simp [jsonCells]
  obtain ⟨t, ht, hout⟩ := (reads_readCells [] (next_cons (c := lbracket) (by decide)
    (commaSeparated (jsonCell plat) cells ++ rbracket :: r))).complete cells r
      ⟨cells, hread, rfl⟩
  rw [← htext] at ht hout
  obtain rfl : jsonCells plat cells = t := List.append_cancel_right ht
  have := hout u
  simpa [tape, Tape.firm] using this

/-- A string with a zero byte and a quote, and an array. -/
theorem readCells_jsonCells_pair :
    let plat : Platform := ⟨fun _ => [], fun _ => 0, fun _ => 0⟩
    let cells : List Cell := [⟨7, .string [0, quote]⟩, ⟨-8, .json (ascii "[]")⟩]
    (readCells []).out ⟨jsonCells plat cells, 0, true⟩ =
      .ok (cells, ⟨jsonCells plat cells, (jsonCells plat cells).length, true⟩) := by
  intro plat cells
  have h : ∀ c ∈ cells, Carried c.value := by
    intro c hc
    rcases List.mem_cons.mp hc with rfl | hc
    · trivial
    · rw [List.mem_singleton.mp hc]
      exact ⟨.emptyArr Ws.none, rfl, .inl rfl⟩
  have := readCells_jsonCells plat cells h [] []
  rwa [List.append_nil, List.nil_append] at this

end MongrelDB
