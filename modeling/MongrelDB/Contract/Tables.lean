import MongrelDB.Encoder.Indexes
import MongrelDB.Encoder.Tables

/-!
# What `create_table` sends

The body of a table denotes that table, whatever bytes its strings are made of and whichever of the
optional fields of its columns are set.
-/

namespace MongrelDB

open Text Json

/-- The body of a table whose raw parts are JSON texts is the text of one object that stands for
exactly this table. -/
theorem serializeCreateTableJson_table (name : Bytes) {columns : List Column}
    (hcolumns : ∀ col ∈ columns, col.Valid) {constraintsJson : Bytes}
    (hconstraints : constraintsJson ≠ [] → ∃ d : Doc, d.render = constraintsJson)
    {indexes : List Index}
    (hindexes : ∀ index ∈ indexes, ∃ d : ObjDoc, d.render = serializeIndexJson index) :
    (∃ d : ObjDoc, d.render = serializeCreateTableJson name columns constraintsJson indexes) ∧
    parse (serializeCreateTableJson name columns constraintsJson indexes) =
      some (.obj (tableMembers name columns constraintsJson indexes)) ∧
    ((tableMembers name columns constraintsJson indexes).map (·.1)).Nodup ∧
    (∀ col ∈ columns, ((columnMembers col).map (·.1)).Nodup) ∧
    ∀ index ∈ indexes, parse (serializeIndexJson index) = some (.obj (indexMembers index)) ∧
      (Tree.obj (indexMembers index)).Distinct := by
  have hdocs : ∀ index ∈ indexes, ∃ d : Doc, d.render = serializeIndexJson index := by
    intro index hindex
    obtain ⟨d, hd⟩ := hindexes index hindex
    exact ⟨d.toDoc, hd⟩
  have h : DenotesObj (serializeCreateTableJson name columns constraintsJson indexes) _ :=
    denotesObj_serializeCreateTableJson hcolumns hconstraints hdocs
  refine ⟨?_, h.denotes.parse, nodup_tableMembers, fun col _ => nodup_columnMembers col, ?_⟩
  · obtain ⟨d, hd, -⟩ := h
    exact ⟨d, hd⟩
  · intro index hindex
    obtain ⟨d, hd⟩ := hdocs index hindex
    have hfits : index.Fits := by
      by_contra hfits
      exact render_ne_serializeIndexJson hfits d hd
    exact ⟨(denotesObj_serializeIndexJson hfits).denotes.parse, distinct_indexMembers index⟩

/-- A column with an enumeration and all three defaults but the expression, and one with them
all. -/
def shortColumns : List Column :=
  [{ id := 1, name := ascii "a\"b", ty := ascii "enum", enumVariants := [ascii "x", ascii "y"],
      defaultValueJson := some (ascii "[1]"), defaultValue := some (ascii "z") },
    { id := 2, name := ascii "c", ty := ascii "embedding",
      defaultExpr := some (ascii "now()"), defaultValueJson := some (ascii "[1]"),
      embeddingSourceJson := some (ascii "[1]") }]

def shortIndex : Index := { name := ascii "i", columnId := 1, kind := .learnedRange }

theorem serializeCreateTableJson_short :
    parse (serializeCreateTableJson (ascii "t") shortColumns (ascii "[1]") [shortIndex]) =
      some (.obj (tableMembers (ascii "t") shortColumns (ascii "[1]") [shortIndex])) := by
  have hjson : ∃ d : Doc, d.render = ascii "[1]" :=
    ⟨(arrayOf [(Cst.num (intLit 1)).toDoc]).toDoc, by decide +kernel⟩
  have hindex : ∃ d : ObjDoc, d.render = serializeIndexJson shortIndex := by
    have hfits : shortIndex.Fits := ⟨by rintro ⟨⟩, by rintro ⟨⟩, by rintro ⟨⟩⟩
    obtain ⟨d, hd, -⟩ := denotesObj_serializeIndexJson hfits
    exact ⟨d, hd⟩
  refine (serializeCreateTableJson_table _ ?_ (fun _ => hjson) ?_).2.1
  · simp only [shortColumns, List.forall_mem_cons, List.not_mem_nil, false_implies, implies_true,
      and_true]
    constructor <;> constructor <;> rintro json ⟨⟩ <;> exact hjson
  · rintro index hindex'
    obtain rfl := List.mem_singleton.mp hindex'
    exact hindex

end MongrelDB
