import MongrelDB.Encoder.Bodies

/-!
# What the serializer writes for tables

The JSON value that a column or a table stands for, and that the serializer's text for it denotes
this value.
-/

namespace MongrelDB

open Text Json

/-! ### Columns -/

/-- The raw JSON fields of a column hold the text of a value. -/
structure Column.Valid (col : Column) : Prop where
  defaultValueJson : ∀ json, col.defaultValueJson = some json → ∃ d : Doc, d.render = json
  embeddingSourceJson : ∀ json, col.embeddingSourceJson = some json → ∃ d : Doc, d.render = json

/-- The default of a column: an expression goes before a raw value and that before a string. -/
def defaultMembers (col : Column) : List (Bytes × Tree) :=
  match col.defaultExpr, col.defaultValueJson, col.defaultValue with
  | some expr, _, _ => [(ascii "default_expr", .str expr)]
  | none, some json, _ => [(ascii "default_value", (parse json).getD .null)]
  | none, none, some value => [(ascii "default_value", .str value)]
  | none, none, none => []

def sourceMembers (col : Column) : List (Bytes × Tree) :=
  match col.embeddingSourceJson with
  | some json => [(ascii "embedding_source", (parse json).getD .null)]
  | none => []

/-- The members of the object that stands for a column. -/
def columnMembers (col : Column) : List (Bytes × Tree) :=
  (ascii "id", intTree col.id) :: (ascii "name", .str col.name) :: (ascii "ty", .str col.ty) ::
    (ascii "primary_key", .bool col.primaryKey) :: (ascii "nullable", .bool col.nullable) ::
    ((if col.enumVariants.isEmpty then []
      else [(ascii "enum_variants", .arr (col.enumVariants.map .str))]) ++
    (defaultMembers col ++ sourceMembers col))

def columnTree (col : Column) : Tree := .obj (columnMembers col)

def defaultTexts (col : Column) : List (StrLit × Bytes) :=
  match col.defaultExpr, col.defaultValueJson, col.defaultValue with
  | some expr, _, _ => [member "default_expr" (jsonEscape expr)]
  | none, some json, _ => [member "default_value" json]
  | none, none, some value => [member "default_value" (jsonEscape value)]
  | none, none, none => []

def sourceTexts (col : Column) : List (StrLit × Bytes) :=
  match col.embeddingSourceJson with
  | some json => [member "embedding_source" json]
  | none => []

/-- The texts of the members of a column. -/
def columnTexts (col : Column) : List (StrLit × Bytes) :=
  member "id" (int64Text col.id) :: member "name" (jsonEscape col.name) ::
    member "ty" (jsonEscape col.ty) ::
    member "primary_key" (if col.primaryKey then ascii "true" else ascii "false") ::
    member "nullable" (if col.nullable then ascii "true" else ascii "false") ::
    ((if col.enumVariants.isEmpty then []
      else [member "enum_variants" (arrayText (col.enumVariants.map jsonEscape))]) ++
    (defaultTexts col ++ sourceTexts col))

lemma laterText_defaultTexts (col : Column) : laterText (defaultTexts col) =
    match col.defaultExpr, col.defaultValueJson, col.defaultValue with
    | some expr, _, _ => ascii ",\"default_expr\":" ++ jsonEscape expr
    | none, some json, _ => ascii ",\"default_value\":" ++ json
    | none, none, some value => ascii ",\"default_value\":" ++ jsonEscape value
    | none, none, none => [] := by
  unfold defaultTexts
  cases col.defaultExpr with
  | some expr => exact laterText_singleton "default_expr" _
  | none =>
    cases col.defaultValueJson with
    | some json => exact laterText_singleton "default_value" json
    | none =>
      cases col.defaultValue with
      | some value => exact laterText_singleton "default_value" _
      | none => exact laterText_nil

lemma laterText_sourceTexts (col : Column) : laterText (sourceTexts col) =
    match col.embeddingSourceJson with
    | some json => ascii ",\"embedding_source\":" ++ json
    | none => [] := by
  unfold sourceTexts
  cases col.embeddingSourceJson with
  | some json => exact laterText_singleton "embedding_source" json
  | none => exact laterText_nil

lemma serializeColumnJson_eq (col : Column) :
    serializeColumnJson col = objectText (columnTexts col) := by
  simp only [serializeColumnJson, columnTexts, commaSeparated_eq, arrayText, objectText_member,
    laterText_member, laterText_append, laterText_ite, laterText_nil, laterText_defaultTexts,
    laterText_sourceTexts, List.cons_append, List.append_assoc, List.append_nil]
  rfl

lemma denotes_defaultTexts {col : Column} (h : col.Valid) :
    List.Forall₂ DenotesMember (defaultTexts col) (defaultMembers col) := by
  unfold defaultTexts defaultMembers
  cases col.defaultExpr with
  | some expr => exact .cons (denotes_member _ (denotes_jsonEscape _)) .nil
  | none =>
    cases hj : col.defaultValueJson with
    | some json => exact .cons (denotes_member _ (denotes_parse (h.defaultValueJson _ hj))) .nil
    | none =>
      cases col.defaultValue with
      | some value => exact .cons (denotes_member _ (denotes_jsonEscape _)) .nil
      | none => exact .nil

lemma denotes_columnTexts {col : Column} (h : col.Valid) :
    List.Forall₂ DenotesMember (columnTexts col) (columnMembers col) := by
  have hbool : ∀ (name : String) b, DenotesMember
      (member name (if b then ascii "true" else ascii "false")) (ascii name, .bool b) :=
    fun name b => denotes_member name (denotes_bool b)
  refine .cons (denotes_member _ (denotes_int64Text _)) (.cons
    (denotes_member _ (denotes_jsonEscape _)) (.cons (denotes_member _ (denotes_jsonEscape _))
    (.cons (hbool _ _) (.cons (hbool _ _) (List.rel_append ?_
    (List.rel_append (denotes_defaultTexts h) ?_))))))
  · split
    · exact .nil
    · refine .cons (denotes_member _ (denotes_arrayText ?_)) .nil
      rw [List.forall₂_map_left_iff, List.forall₂_map_right_iff, List.forall₂_same]
      exact fun s _ => denotes_jsonEscape s
  · unfold sourceTexts sourceMembers
    cases hj : col.embeddingSourceJson with
    | some json =>
      exact .cons (denotes_member _ (denotes_parse (h.embeddingSourceJson _ hj))) .nil
    | none => exact .nil

lemma denotes_serializeColumnJson {col : Column} (h : col.Valid) :
    Denotes (serializeColumnJson col) (columnTree col) := by
  rw [serializeColumnJson_eq]
  exact (denotesObj_objectText (denotes_columnTexts h)).denotes

/-- No two members of a column have the same name. -/
lemma nodup_columnMembers (col : Column) : ((columnMembers col).map (·.1)).Nodup := by
  have hvariants : ((if col.enumVariants.isEmpty then []
      else [(ascii "enum_variants", Tree.arr (col.enumVariants.map .str))]).map (·.1)).Sublist
        [ascii "enum_variants"] := by
    split
    · exact List.nil_sublist _
    · exact List.Sublist.refl _
  have hdefault : ((defaultMembers col).map (·.1)).Sublist
      [ascii "default_expr", ascii "default_value"] := by
    unfold defaultMembers
    split
    · exact List.sublist_append_left [ascii "default_expr"] _
    · exact List.sublist_cons_self _ _
    · exact List.sublist_cons_self _ _
    · exact List.nil_sublist _
  have hsource : ((sourceMembers col).map (·.1)).Sublist [ascii "embedding_source"] := by
    unfold sourceMembers
    split
    · exact List.Sublist.refl _
    · exact List.nil_sublist _
  have hall : [ascii "id", ascii "name", ascii "ty", ascii "primary_key", ascii "nullable",
      ascii "enum_variants", ascii "default_expr", ascii "default_value",
      ascii "embedding_source"].Nodup := by decide
  refine hall.sublist ?_
  simp only [columnMembers, List.map_cons, List.map_append]
  exact .cons_cons _ (.cons_cons _ (.cons_cons _ (.cons_cons _ (.cons_cons _
    (hvariants.append (hdefault.append hsource))))))

/-! ### Tables -/

/-- The members of the object that stands for a table. -/
def tableMembers (name : Bytes) (columns : List Column) (constraintsJson : Bytes)
    (indexes : List Index) : List (Bytes × Tree) :=
  (ascii "name", .str name) :: (ascii "columns", .arr (columns.map columnTree)) ::
    ((if constraintsJson.isEmpty then []
      else [(ascii "constraints", (parse constraintsJson).getD .null)]) ++
    (if indexes.isEmpty then []
      else [(ascii "indexes",
        .arr (indexes.map fun index => (parse (serializeIndexJson index)).getD .null))]))

/-- The texts of the members of a table. -/
def tableTexts (name : Bytes) (columns : List Column) (constraintsJson : Bytes)
    (indexes : List Index) : List (StrLit × Bytes) :=
  member "name" (jsonEscape name) ::
    member "columns" (arrayText (columns.map serializeColumnJson)) ::
    ((if constraintsJson.isEmpty then [] else [member "constraints" constraintsJson]) ++
    (if indexes.isEmpty then []
      else [member "indexes" (arrayText (indexes.map serializeIndexJson))]))

variable {name constraintsJson : Bytes} {columns : List Column} {indexes : List Index}

lemma serializeCreateTableJson_eq :
    serializeCreateTableJson name columns constraintsJson indexes =
      objectText (tableTexts name columns constraintsJson indexes) := by
  simp only [serializeCreateTableJson, tableTexts, commaSeparated_eq, arrayText,
    objectText_member, laterText_append, laterText_ite, laterText_member, laterText_nil,
    List.cons_append, List.append_assoc, List.append_nil]
  rfl

/-- The text of a table whose raw parts are JSON texts denotes that table. -/
theorem denotesObj_serializeCreateTableJson (hcolumns : ∀ col ∈ columns, col.Valid)
    (hconstraints : constraintsJson ≠ [] → ∃ d : Doc, d.render = constraintsJson)
    (hindexes : ∀ index ∈ indexes, ∃ d : Doc, d.render = serializeIndexJson index) :
    DenotesObj (serializeCreateTableJson name columns constraintsJson indexes)
      (tableMembers name columns constraintsJson indexes) := by
  rw [serializeCreateTableJson_eq]
  refine denotesObj_objectText (.cons (denotes_member _ (denotes_jsonEscape _))
    (.cons (denotes_member _ (denotes_arrayText ?_)) (List.rel_append ?_ ?_)))
  · rw [List.forall₂_map_left_iff, List.forall₂_map_right_iff, List.forall₂_same]
    intro col hcol
    exact denotes_serializeColumnJson (hcolumns col hcol)
  · split
    · exact .nil
    · refine .cons (denotes_member _ (denotes_parse (hconstraints ?_))) .nil
      rintro rfl
      contradiction
  · split
    · exact .nil
    · refine .cons (denotes_member _ (denotes_arrayText ?_)) .nil
      rw [List.forall₂_map_left_iff, List.forall₂_map_right_iff, List.forall₂_same]
      intro index hindex
      exact denotes_parse (hindexes index hindex)

/-- No two members of a table have the same name. -/
lemma nodup_tableMembers :
    ((tableMembers name columns constraintsJson indexes).map (·.1)).Nodup := by
  have hall : [ascii "name", ascii "columns", ascii "constraints", ascii "indexes"].Nodup := by
    decide
  refine hall.sublist ?_
  simp only [tableMembers, List.map_cons, List.map_append]
  refine .cons_cons _ (.cons_cons _ (.append (?_ : List.Sublist _ [ascii "constraints"]) ?_))
  · split
    · exact List.nil_sublist _
    · exact List.Sublist.refl _
  · split
    · exact List.nil_sublist _
    · exact List.Sublist.refl _

end MongrelDB
