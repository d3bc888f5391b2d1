import MongrelDB.Walker.Cells

/-!
# Repeated names

What is read in an object that uses a name more than once, with whatever types. Every extractor
returns the first member that has the name and the type it wants: members of the name but of
another type are passed over, and nothing that follows matters. The decoder of query responses
takes the first array called `rows` and the first boolean called `truncated`, but of a row it takes
the arrays called `cells` together, one behind the other.
-/

namespace MongrelDB

open Text Traced Prog Json

variable (d : ObjDoc) (key : Bytes)

lemma Obj.first_of_isEmpty {γ : Type} {o : Obj} (h : o.isEmpty = true) (sel : Cst → Option γ) :
    o.first sel key = none := by
  cases o with
  | empty => rfl
  | members => cases h

/-- `get_int` takes what `get_number` takes, and is 0 where that finds no number. -/
lemma getInt_first (plat : Platform) (out : Int64) : (getInt plat d.render key out).out =
    .ok (if d.obj.isEmpty then (false, out) else
      (true, castInt64 plat (((d.obj.first Cst.asNum key).map NumLit.toBinary64).getD ⟨0⟩))) := by
  rw [getInt, Run.out_bind_ok (getNumber_first d key _), answer]
  cases he : d.obj.isEmpty with
  | true => simp [Obj.first_of_isEmpty key he]
  | false => simp

lemma decodeQuery_first {rows : List Row} {flag : Bool} :
    (decodeQuery d.render).out = .ok ⟨rows, flag⟩ ↔
      (∃ pss, responsePairs d.obj = some pss ∧ rows = pss.map (List.map readCell)) ∧
        flag = (d.obj.first Cst.asBool (ascii "truncated")).getD false := by
  rw [decodeQuery, Run.out_bind_ok (getBool_first d (ascii "truncated") false),
    ← out_decodeRows_object]
  cases h : (walk d.render decodeRows).out with
  | error e =>
    rw [Run.out_bind_error h]
    simp
  | ok rows' =>
    rw [Run.out_bind_ok h]
    simp [answer, eq_comm]

/-- Whatever names an object repeats, and with values of whatever types: the extractors return the
first member that has the name and the type they want, and a query response has the rows of its
first array `rows`, the arrays `cells` of each of them taken together, and its first flag. -/
theorem repeated_names (plat : Platform) :
    (∀ out, (getString d.render key out).out =
      .ok (answer d.obj ((d.obj.first Cst.asStr key).map StrLit.decode) out)) ∧
    (∀ out, (getNumber d.render key out).out =
      .ok (answer d.obj ((d.obj.first Cst.asNum key).map NumLit.toBinary64) out)) ∧
    (∀ out, (getInt plat d.render key out).out =
      .ok (if d.obj.isEmpty then (false, out) else
        (true, castInt64 plat (((d.obj.first Cst.asNum key).map NumLit.toBinary64).getD ⟨0⟩)))) ∧
    (∀ out, (getUint64 d.render key out).out = .ok (match d.obj.first Cst.asUnsigned key with
      | some n => uint64Answer out n
      | none => (!d.obj.isEmpty, out))) ∧
    (∀ out, (getBool d.render key out).out =
      .ok (answer d.obj (d.obj.first Cst.asBool key) out)) ∧
    (∀ out, (getObjectRaw d.render key out).out =
      .ok (answer d.obj ((d.obj.first Cst.asObj key).map Obj.render) out)) ∧
    (∀ out, (getArrayRaw d.render key out).out =
      .ok (answer d.obj ((d.obj.first Cst.asArr key).map Cst.render) out)) ∧
    ∀ rows flag, (decodeQuery d.render).out = .ok ⟨rows, flag⟩ ↔
      (∃ pss, responsePairs d.obj = some pss ∧ rows = pss.map (List.map readCell)) ∧
        flag = (d.obj.first Cst.asBool (ascii "truncated")).getD false :=
  ⟨getString_first d key, getNumber_first d key, getInt_first d key plat, getUint64_first d key,
    getBool_first d key, getObjectRaw_first d key, getArrayRaw_first d key,
    fun _ _ => decodeQuery_first d⟩

end MongrelDB
