import MongrelDB.Encoder.Values
import MongrelDB.Walker.Cells

/-!
# Decoding query responses

A query response is an object whose `rows` are objects with `cells`, and the cells alternate between
a column id and a value (`ResponseOf`). Whatever else the response and its rows contain, and however
its text is laid out, the decoder returns those rows with those cells.
-/

namespace MongrelDB

open Text Traced Prog Json JsonParser

/-! ### What a response says -/

/-- Column ids and values in turn. -/
inductive CellsOf : List Cst → Row → Prop
  | nil : CellsOf [] []
  | cons {n v l row} : n.isInt = true → -2 ^ 63 ≤ n.intValue → n.intValue < 2 ^ 63 → InInt64 v →
      CellsOf l row → CellsOf (.num n :: v :: l) (⟨Int64.ofInt n.intValue, cellValue v⟩ :: row)

/-- An object with an array of cells. -/
def RowOf (v : Cst) (row : Row) : Prop :=
  ∃ o c l, v.asObj = some o ∧ o.lookup (ascii "cells") = some c ∧ c.elems = some l ∧ CellsOf l row

/-- An object with an array of rows. -/
def ResponseOf (o : Obj) (rows : List Row) : Prop :=
  ∃ v l, o.lookup (ascii "rows") = some v ∧ v.elems = some l ∧ List.Forall₂ RowOf l rows

/-! ### Its column ids and values -/

lemma cellPairs_of_cells {l : List Cst} {row : Row} (h : CellsOf l row) :
    ∃ ps, cellPairs l = some ps ∧ row = ps.map readCell := by
  induction h with
  | nil => exact ⟨[], rfl, rfl⟩
  | @cons n v l row hi hlo hhi hv _ ih =>
    obtain ⟨ps, hps, rfl⟩ := ih
    refine ⟨(n, v) :: ps, cellPairs_eq_some.mpr ⟨n, ps, rfl, hps, rfl⟩, ?_⟩
    rw [List.map_cons, readCell, strtoll_render hi hlo hhi, clampedValue_of_inInt64 hv]

lemma memberPairs_of_ne {m : Bytes × Cst} (h : m.1 ≠ ascii "cells") : memberPairs m = some [] := by
  rw [memberPairs, if_neg h]

lemma mapM_memberPairs_of_ne {l : List (Bytes × Cst)} (hl : ∀ m ∈ l, m.1 ≠ ascii "cells") :
    (l.mapM memberPairs).map List.flatten = some [] := by
  induction l with
  | nil => rfl
  | cons m l ih =>
    obtain ⟨hm, hl⟩ := List.forall_mem_cons.mp hl
    obtain ⟨pss, hpss, hflat⟩ := Option.map_eq_some_iff.mp (ih hl)
    simp [memberPairs_of_ne hm, hpss, hflat]

/-- Among distinct names the cells are found once. -/
lemma mapM_memberPairs {l : List (Bytes × Cst)} {c : Cst} {es : List Cst}
    {ps : List (NumLit × Cst)} (hl : (l.map (·.1)).Nodup) (hc : l.lookup (ascii "cells") = some c)
    (hes : c.elems = some es) (hps : cellPairs es = some ps) :
    (l.mapM memberPairs).map List.flatten = some ps := by
  induction l with
  | nil => cases hc
  | cons m l ih =>
    obtain ⟨k, v⟩ := m
    obtain ⟨hk, hl⟩ := List.nodup_cons.mp hl
    by_cases hcells : k = ascii "cells"
    · subst hcells
      obtain rfl : v = c := by simpa using hc
      obtain ⟨pss, hpss, hflat⟩ := Option.map_eq_some_iff.mp
        (mapM_memberPairs_of_ne fun m hm he => hk (List.mem_map.mpr ⟨m, hm, he⟩))
      have hm : memberPairs (ascii "cells", v) = some ps := by
        rw [memberPairs, if_pos rfl, hes, Option.elim_some, hps]
      simp [hm, hpss, hflat]
    · have hne : (ascii "cells" == k) = false := by simpa using Ne.symm hcells
      rw [List.lookup_cons, hne] at hc
      obtain ⟨pss, hpss, hflat⟩ := Option.map_eq_some_iff.mp (ih hl hc)
      simp [memberPairs_of_ne (m := (k, v)) hcells, hpss, hflat]

lemma rowPairs_of_row {v : Cst} {row : Row} (h : RowOf v row) (hd : v.distinct = true) :
    ∃ ps, rowPairs v = some ps ∧ row = ps.map readCell := by
  obtain ⟨o, c, l, ho, hc, hl, hcells⟩ := h
  obtain ⟨ps, hps, hrow⟩ := cellPairs_of_cells hcells
  refine ⟨ps, ?_, hrow⟩
  rw [Cst.asObj_eq_some ho] at hd
  rw [rowPairs, ho, Option.bind_some]
  exact mapM_memberPairs (Obj.nodup_keys hd) hc hl hps

lemma responsePairs_of_response {o : Obj} {rows : List Row} (hd : o.distinct = true)
    (h : ResponseOf o rows) :
    ∃ pss, responsePairs o = some pss ∧ rows = pss.map (List.map readCell) := by
  obtain ⟨v, l, hv, hl, hrows⟩ := h
  have hfirst : o.first Cst.elems (ascii "rows") = some l := by
    rw [first_of_distinct (· == some lbracket) head_elems hd, hv, Option.bind_some, hl]
  have hdist := Obj.distinct_of_lookup hd hv
  have hrow : ∀ v ∈ l, v.distinct = true := by
    cases v with
    | emptyArr w =>
      cases hl
      simp
    | arr es =>
      cases hl
      exact fun v hv => Elems.distinct_of_mem hdist hv
    | null | bool | num | str | emptyObj | obj => cases hl
  rw [responsePairs, hfirst, Option.elim_some]
  apply forall₂_mapM.mp
  exact ((List.forall₂_and_left _ _).mpr ⟨hrow, hrows⟩).imp fun v row h => rowPairs_of_row h.2 h.1

/-- The decoder returns the rows of a response, all of them and in order. -/
theorem decodeQuery_response (d : ObjDoc) (rows : List Row) (hd : d.obj.distinct = true)
    (h : ResponseOf d.obj rows) : (decodeQuery d.render).out =
      .ok ⟨rows, (d.obj.boolAt (ascii "truncated")).getD false⟩ := by
  have hrows := (out_decodeRows_object d rows).mpr (responsePairs_of_response hd h)
  rw [decodeQuery, Run.out_bind_ok (getBool_object hd (ascii "truncated") false)]
  exact Run.out_bind_ok hrows _

lemma CellsOf.cons_intOf {i : Int} {v : Cst} {l : List Cst} {row : Row} (hlo : -2 ^ 63 ≤ i)
    (hhi : i < 2 ^ 63) (hv : InInt64 v) (h : CellsOf l row) :
    CellsOf (intOf i :: v :: l) (⟨Int64.ofInt i, cellValue v⟩ :: row) := by
  have hcons := CellsOf.cons (n := intLit i) rfl (by rwa [intLit_intValue])
    (by rwa [intLit_intValue]) hv h
  rwa [intLit_intValue] at hcons

/-- A row of two cells. -/
def twoCells : Obj :=
  .members (membersOf (named "cells" (arrayOf
    [(intOf 1).toDoc, (strOf "a").toDoc, (intOf 2).toDoc, Cst.null.toDoc])) [])

/-- A row with a member in front of its cell. -/
def oneCell : Obj :=
  .members (membersOf (named "id" (objectOf [named "cells" (intOf 7)]))
    [named "cells" (arrayOf [(intOf 3).toDoc, (Cst.bool true).toDoc])])

/-- A response with these rows between another member and the flag that it is truncated. -/
def pageResponse : ObjDoc :=
  ⟨Ws.none, .members (membersOf (named "next" (arrayOf [(intOf 1).toDoc]))
    [named "rows" (arrayOf [twoCells.toCst.toDoc, oneCell.toCst.toDoc]),
      named "truncated" (.bool true)]), Ws.none⟩

/-- Both rows are decoded with all their cells, and nothing of the other members. -/
theorem decodeQuery_pageResponse : (decodeQuery pageResponse.render).out =
    .ok ⟨[[⟨1, .string (ascii "a")⟩, ⟨2, .null⟩], [⟨3, .bool true⟩]], true⟩ := by
  have hstring : cellValue (strOf "a") = .string (ascii "a") :=
    congrArg Value.string (escapeLit_decode _)
  have htwo : CellsOf [intOf 1, strOf "a", intOf 2, .null]
      [⟨1, .string (ascii "a")⟩, ⟨2, .null⟩] := by
    rw [← hstring]
    exact .cons_intOf (by norm_num) (by norm_num) (by rintro n ⟨⟩)
      (.cons_intOf (by norm_num) (by norm_num) (by rintro n ⟨⟩) .nil)
  have hone : CellsOf [intOf 3, .bool true] [⟨3, .bool true⟩] :=
    .cons_intOf (by norm_num) (by norm_num) (by rintro n ⟨⟩) .nil
  have hrow : RowOf twoCells.toCst _ :=
    ⟨_, _, _, rfl, lookup_named (by decide) (.head _), rfl, htwo⟩
  have hrow' : RowOf oneCell.toCst _ :=
    ⟨_, _, _, rfl, lookup_named (by decide) (.tail _ (.head _)), rfl, hone⟩
  have hd : pageResponse.obj.distinct = true := by decide
  exact decodeQuery_response pageResponse _ hd
    ⟨_, _, lookup_named hd (.tail _ (.head _)), rfl, .cons hrow (.cons hrow' .nil)⟩

end MongrelDB
