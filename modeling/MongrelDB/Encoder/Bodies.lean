import MongrelDB.Encoder.Values

/-!
# What the serializer writes for requests

The JSON value that a cell list, an op or a condition stands for, and that the serializer's text for
it denotes this value. A body is put together from texts with a comma in front of all but the
first, so it is the text of an array or of an object whose members are known one by one.
-/

namespace MongrelDB

open Text Json

/-! ### Assumptions -/

/-- `printf` writes every finite double as a JSON number. -/
def Platform.PrintsNumbers (plat : Platform) : Prop :=
  ∀ d : Binary64, d.isFinite = true → ∃ n : NumLit, n.render = plat.fmtG17 d

/-- A raw JSON value holds the text of one. -/
def Value.Valid : Value → Prop
  | .json s => ∃ d : Doc, d.render = s
  | _ => True

/-! ### Values -/

def intTree (i : Int64) : Tree := .num (int64Text i)

/-- The token in the tree of an integer is a literal without fraction and exponent that stands for
the integer. -/
lemma int64Text_value (i : Int64) :
    ∃ n : NumLit, n.render = int64Text i ∧ n.isInt = true ∧ n.value = i.toInt := by
  refine ⟨intLit i.toInt, intLit_render _, rfl, ?_⟩
  rw [NumLit.value_of_isInt rfl, intLit_intValue]

def valueTree (plat : Platform) : Value → Tree
  | .null => .null
  | .bool b => .bool b
  | .int64 i => intTree i
  | .double d => if d.isFinite then .num (plat.fmtG17 d) else .null
  | .string s => .str s
  | .json s => (parse s).getD .null

variable {plat : Platform}

lemma denotes_null : Denotes (ascii "null") .null := Cst.null.denotes

lemma denotes_bool (b : Bool) :
    Denotes (if b then ascii "true" else ascii "false") (.bool b) := (Cst.bool b).denotes

lemma denotes_num (n : NumLit) : Denotes n.render (.num n.render) := (Cst.num n).denotes

lemma denotes_int64Text (i : Int64) : Denotes (int64Text i) (intTree i) := by
  obtain ⟨n, hn, -⟩ := int64Text_value i
  rw [intTree, ← hn]
  exact denotes_num n

lemma scanInt_int64Text (i : Int64) : scanInt (int64Text i) = i.toInt := by
  obtain ⟨n, hn, hint, hvalue⟩ := int64Text_value i
  rw [NumLit.value_of_isInt hint] at hvalue
  rw [← hn, NumLit.scanInt_render hint]
  exact_mod_cast hvalue

lemma intTree_inj {i j : Int64} : intTree i = intTree j ↔ i = j := by
  constructor
  · intro h
    rw [← Int64.toInt_inj, ← scanInt_int64Text, Tree.num.inj h, scanInt_int64Text]
  · rintro rfl
    rfl

lemma denotes_jsonEscape (s : Bytes) : Denotes (jsonEscape s) (.str s) := by
  have h := (Cst.str (escapeLit s)).denotes
  rwa [Cst.render, Cst.tree, escapeLit_render, escapeLit_decode] at h

lemma denotes_fmtG17 (hp : plat.PrintsNumbers) {d : Binary64} (h : d.isFinite = true) :
    Denotes (plat.fmtG17 d) (.num (plat.fmtG17 d)) := by
  obtain ⟨n, hn⟩ := hp d h
  rw [← hn]
  exact denotes_num n

lemma denotes_parse {s : Bytes} (h : ∃ d : Doc, d.render = s) :
    Denotes s ((parse s).getD .null) := by
  obtain ⟨d, rfl⟩ := h
  rw [parse_render]
  exact ⟨d, rfl, rfl⟩

lemma isNan_or_isInf (d : Binary64) : (d.isNan || d.isInf) = !d.isFinite := by
  simp only [Binary64.isNan, Binary64.isInf, Binary64.isFinite, bne]
  cases d.biasedExponent == 2047 <;> cases d.fraction == 0 <;> rfl

lemma denotes_jsonValue (hp : plat.PrintsNumbers) {v : Value} (hv : v.Valid) :
    Denotes (jsonValue plat v) (valueTree plat v) := by
  cases v with
  | null => exact denotes_null
  | bool b => exact denotes_bool b
  | int64 i => exact denotes_int64Text i
  | double d =>
    rw [jsonValue, valueTree, isNan_or_isInf]
    by_cases h : d.isFinite = true
    · rw [if_pos h, if_neg (by simp [h])]
      exact denotes_fmtG17 hp h
    · rw [if_neg h, if_pos (by simp [h])]
      exact denotes_null
  | string s => exact denotes_jsonEscape s
  | json s => exact denotes_parse hv

/-! ### Lists -/

lemma commaSeparated_eq {α : Type} (text : α → Bytes) (l : List α) :
    commaSeparated text l = joined (l.map text) := by
  fun_induction commaSeparated text l with
  | case1 => rfl
  | case2 a => rfl
  | case3 a b l ih => rw [ih]; rfl

/-- The elements of the array of these cells: column ids and values in turn. -/
def cellTrees (plat : Platform) (cells : List Cell) : List Tree :=
  cells.flatMap fun c => [intTree c.columnId, valueTree plat c.value]

def cellsTree (plat : Platform) (cells : List Cell) : Tree := .arr (cellTrees plat cells)

lemma jsonCells_eq (cells : List Cell) : jsonCells plat cells =
    arrayText (cells.flatMap fun c => [int64Text c.columnId, jsonValue plat c.value]) := by
  rw [jsonCells, arrayText, commaSeparated_eq]
  congr 2
  cases cells with
  | nil => rfl
  | cons c cells =>
    rw [List.map_cons, joined_cons, List.flatMap_cons, List.cons_append, joined_cons]
    simp [jsonCell, List.flatMap_map, List.flatMap_assoc]

lemma denotes_jsonCells (hp : plat.PrintsNumbers) {cells : List Cell}
    (h : ∀ c ∈ cells, c.value.Valid) : Denotes (jsonCells plat cells) (cellsTree plat cells) := by
  rw [jsonCells_eq, cellsTree, cellTrees]
  refine denotes_arrayText ?_
  induction cells with
  | nil => exact .nil
  | cons c cells ih =>
    obtain ⟨hc, h⟩ := List.forall_mem_cons.mp h
    exact .cons (denotes_int64Text _) (.cons (denotes_jsonValue hp hc) (ih h))

/-! ### Members -/

/-- A member of the object text, under its plain name. -/
def member (name : String) (text : Bytes) : StrLit × Bytes := (escapeLit (ascii name), text)

lemma memberText_member (name : String) (text : Bytes) :
    memberText (member name text).1 (member name text).2 =
      jsonEscape (ascii name) ++ colon :: text := by
  rw [memberText, member, escapeLit_render]

/-- The members, each with a comma in front of it. -/
def laterText (l : List (StrLit × Bytes)) : Bytes := l.flatMap fun m => comma :: memberText m.1 m.2

@[simp] lemma laterText_nil : laterText [] = [] := rfl

@[simp] lemma laterText_member (name : String) (text : Bytes) (l : List (StrLit × Bytes)) :
    laterText (member name text :: l) =
      comma :: (jsonEscape (ascii name) ++ colon :: (text ++ laterText l)) := by
  rw [laterText, List.flatMap_cons, memberText_member, laterText]
  simp

lemma laterText_singleton (name : String) (text : Bytes) :
    laterText [member name text] = comma :: (jsonEscape (ascii name) ++ colon :: text) := by
  rw [laterText_member, laterText_nil, List.append_nil]

@[simp] lemma laterText_append (l l' : List (StrLit × Bytes)) :
    laterText (l ++ l') = laterText l ++ laterText l' := List.flatMap_append

@[simp] lemma laterText_ite {c : Prop} [Decidable c] (l l' : List (StrLit × Bytes)) :
    laterText (if c then l else l') = if c then laterText l else laterText l' := by
  split <;> rfl

@[simp] lemma objectText_member (name : String) (text : Bytes) (l : List (StrLit × Bytes)) :
    objectText (member name text :: l) =
      lbrace :: (jsonEscape (ascii name) ++ colon :: (text ++ (laterText l ++ [rbrace]))) := by
  rw [objectText, List.map_cons, joined_cons, List.flatMap_map, memberText_member, laterText]
  simp

lemma denotes_member (name : String) {text : Bytes} {t : Tree} (h : Denotes text t) :
    DenotesMember (member name text) (ascii name, t) := ⟨escapeLit_decode _, h⟩

/-! ### Transactions -/

def OpType.tag : OpType → String
  | .put => "put"
  | .upsert => "upsert"
  | .delete => "delete"
  | .deleteByPk => "delete_by_pk"

/-- The members of the object that stands for an op. -/
def opMembers (plat : Platform) (op : Op) : List (Bytes × Tree) :=
  (ascii "table", .str op.table) :: match op.type with
    | .put => [(ascii "cells", cellsTree plat op.cells), (ascii "returning", .bool false)]
    | .upsert =>
      (ascii "cells", cellsTree plat op.cells) ::
        ((if op.updateCells.isEmpty then []
          else [(ascii "update_cells", cellsTree plat op.updateCells)]) ++
        [(ascii "returning", .bool false)])
    | .delete => [(ascii "row_id", intTree op.rowId)]
    | .deleteByPk => [(ascii "pk", valueTree plat op.pkValue)]

def opTree (plat : Platform) (op : Op) : Tree :=
  .obj [(ascii op.type.tag, .obj (opMembers plat op))]

/-- The members of a transaction. -/
def txnMembers (plat : Platform) (ops : List Op) (idempotencyKey : Bytes) : List (Bytes × Tree) :=
  (ascii "ops", .arr (ops.map (opTree plat))) ::
    if idempotencyKey.isEmpty then [] else [(ascii "idempotency_key", .str idempotencyKey)]

/-- The texts of the members of an op. -/
def opTexts (plat : Platform) (op : Op) : List (StrLit × Bytes) :=
  member "table" (jsonEscape op.table) :: match op.type with
    | .put => [member "cells" (jsonCells plat op.cells), member "returning" (ascii "false")]
    | .upsert =>
      member "cells" (jsonCells plat op.cells) ::
        ((if op.updateCells.isEmpty then []
          else [member "update_cells" (jsonCells plat op.updateCells)]) ++
        [member "returning" (ascii "false")])
    | .delete => [member "row_id" (int64Text op.rowId)]
    | .deleteByPk => [member "pk" (jsonValue plat op.pkValue)]

lemma opText_eq (op : Op) :
    opText plat op = objectText [member op.type.tag (objectText (opTexts plat op))] := by
  unfold opText opTexts
  cases op.type with
  | upsert =>
    simp only [objectText_member, laterText_member, laterText_append, laterText_ite, laterText_nil,
      List.cons_append, List.append_assoc, List.append_nil]
    rfl
  | _ =>
    simp only [objectText_member, laterText_member, laterText_nil, List.cons_append,
      List.append_assoc]
    rfl

/-- The raw JSON values of the op hold the text of one. -/
def Op.Valid (op : Op) : Prop :=
  (∀ c ∈ op.cells, c.value.Valid) ∧ (∀ c ∈ op.updateCells, c.value.Valid) ∧ op.pkValue.Valid

lemma denotes_opTexts (hp : plat.PrintsNumbers) {op : Op} (h : op.Valid) :
    List.Forall₂ DenotesMember (opTexts plat op) (opMembers plat op) := by
  obtain ⟨hcells, hupdate, hpk⟩ := h
  have hfalse : DenotesMember (member "returning" (ascii "false"))
      (ascii "returning", .bool false) := denotes_member _ (denotes_bool false)
  refine .cons (denotes_member _ (denotes_jsonEscape _)) ?_
  cases op.type with
  | put =>
    exact .cons (denotes_member _ (denotes_jsonCells hp hcells)) (.cons hfalse .nil)
  | upsert =>
    refine .cons (denotes_member _ (denotes_jsonCells hp hcells)) (List.rel_append ?_
      (.cons hfalse .nil))
    split
    · exact .nil
    · exact .cons (denotes_member _ (denotes_jsonCells hp hupdate)) .nil
  | delete => exact .cons (denotes_member _ (denotes_int64Text _)) .nil
  | deleteByPk => exact .cons (denotes_member _ (denotes_jsonValue hp hpk)) .nil

lemma denotes_opText (hp : plat.PrintsNumbers) {op : Op} (h : op.Valid) :
    Denotes (opText plat op) (opTree plat op) := by
  rw [opText_eq]
  have hop := (denotesObj_objectText (denotes_opTexts hp h)).denotes
  exact (denotesObj_objectText (.cons (denotes_member _ hop) .nil)).denotes

lemma commitBody_eq (ops : List Op) (key : Bytes) : commitBody plat ops key =
    objectText (member "ops" (arrayText (ops.map (opText plat))) ::
      if key.isEmpty then [] else [member "idempotency_key" (jsonEscape key)]) := by
  simp only [commitBody, commaSeparated_eq, arrayText, objectText_member, laterText_ite,
    laterText_member, laterText_nil, List.cons_append, List.append_assoc, List.append_nil]
  rfl

/-- The body of a transaction is the text of an object with the members of that transaction. -/
theorem denotesObj_commitBody (hp : plat.PrintsNumbers) {ops : List Op} (h : ∀ op ∈ ops, op.Valid)
    (key : Bytes) : DenotesObj (commitBody plat ops key) (txnMembers plat ops key) := by
  rw [commitBody_eq]
  refine denotesObj_objectText (.cons (denotes_member _ (denotes_arrayText ?_)) ?_)
  · rw [List.forall₂_map_left_iff, List.forall₂_map_right_iff, List.forall₂_same]
    exact fun op hop => denotes_opText hp (h op hop)
  · split
    · exact .nil
    · exact .cons (denotes_member _ (denotes_jsonEscape _)) .nil

/-! ### Queries -/

def CondKind.tag : CondKind → String
  | .pk => "pk"
  | .bitmapEq => "bitmap_eq"
  | .range => "range"
  | .fmContains => "fm_contains"
  | .isNull => "is_null"
  | .isNotNull => "is_not_null"

/-- A bound of a range, if it is set. -/
def boundMember (plat : Platform) (name : String) (set : Bool) (d : Binary64) :
    List (Bytes × Tree) :=
  if set then [(ascii name, .num (plat.fmtG17 d))] else []

/-- The members of the object that stands for a condition. -/
def conditionMembers (plat : Platform) (c : Condition) : List (Bytes × Tree) :=
  let id := (ascii "column_id", intTree c.columnId)
  match c.kind with
  | .pk => [(ascii "value", if c.strValue.isEmpty then intTree c.intValue else .str c.strValue)]
  | .bitmapEq => [id, (ascii "value", .str c.strValue)]
  | .range => id :: (boundMember plat "lo" c.loSet c.lo ++ boundMember plat "hi" c.hiSet c.hi)
  | .fmContains => [id, (ascii "pattern", .str c.strValue)]
  | .isNull => [id]
  | .isNotNull => [id]

def conditionTree (plat : Platform) (c : Condition) : Tree :=
  match c.conditionJson with
  | some json => (parse json).getD .null
  | none => .obj [(ascii c.kind.tag, .obj (conditionMembers plat c))]

/-- The members of a query. -/
def queryMembers (plat : Platform) (table : Bytes) (conditions : List Condition)
    (projection : List Int64) (limit offset : Int64) : List (Bytes × Tree) :=
  (ascii "table", .str table) ::
    ((if conditions.isEmpty then []
      else [(ascii "conditions", .arr (conditions.map (conditionTree plat)))]) ++
    ((if projection.isEmpty then [] else [(ascii "projection", .arr (projection.map intTree))]) ++
    ((if limit > 0 then [(ascii "limit", intTree limit)] else []) ++
    (if offset ≠ 0 then [(ascii "offset", intTree offset)] else []))))

def boundText (plat : Platform) (name : String) (set : Bool) (d : Binary64) :
    List (StrLit × Bytes) :=
  if set then [member name (plat.fmtG17 d)] else []

/-- The texts of the members of a condition. -/
def conditionTexts (plat : Platform) (c : Condition) : List (StrLit × Bytes) :=
  let id := member "column_id" (int64Text c.columnId)
  match c.kind with
  | .pk =>
    [member "value" (if c.strValue.isEmpty then int64Text c.intValue else jsonEscape c.strValue)]
  | .bitmapEq => [id, member "value" (jsonEscape c.strValue)]
  | .range => id :: (boundText plat "lo" c.loSet c.lo ++ boundText plat "hi" c.hiSet c.hi)
  | .fmContains => [id, member "pattern" (jsonEscape c.strValue)]
  | .isNull => [id]
  | .isNotNull => [id]

lemma conditionText_eq {c : Condition} (h : c.conditionJson = none) :
    conditionText plat c = objectText [member c.kind.tag (objectText (conditionTexts plat c))] := by
  rw [conditionText, h, conditionTexts]
  cases c.kind with
  | range =>
    simp only [objectText_member, laterText_member, laterText_append, boundText, laterText_ite,
      laterText_nil, List.cons_append, List.append_assoc, List.append_nil]
    rfl
  | _ =>
    simp only [objectText_member, laterText_member, laterText_nil, List.cons_append,
      List.append_assoc]
    rfl

/-- A raw condition is the text of an object. -/
def Condition.Valid (c : Condition) : Prop :=
  ∀ json, c.conditionJson = some json → ∃ d : ObjDoc, d.render = json

/-- Every bound that is written for the condition is a finite number. -/
def Condition.FiniteBounds (c : Condition) : Prop :=
  c.conditionJson = none → c.kind = .range →
    (c.loSet = true → c.lo.isFinite = true) ∧ (c.hiSet = true → c.hi.isFinite = true)

lemma denotes_boundText (hp : plat.PrintsNumbers) (name : String) {set : Bool} {d : Binary64}
    (h : set = true → d.isFinite = true) :
    List.Forall₂ DenotesMember (boundText plat name set d) (boundMember plat name set d) := by
  unfold boundText boundMember
  split
  · exact .cons (denotes_member _ (denotes_fmtG17 hp (h ‹_›))) .nil
  · exact .nil

lemma denotes_conditionTexts (hp : plat.PrintsNumbers) {c : Condition} (hj : c.conditionJson = none)
    (h : c.FiniteBounds) :
    List.Forall₂ DenotesMember (conditionTexts plat c) (conditionMembers plat c) := by
  have hid : DenotesMember (member "column_id" (int64Text c.columnId))
      (ascii "column_id", intTree c.columnId) := denotes_member _ (denotes_int64Text _)
  have hvalue : DenotesMember (member "value" (jsonEscape c.strValue))
      (ascii "value", .str c.strValue) := denotes_member _ (denotes_jsonEscape _)
  have hpattern : DenotesMember (member "pattern" (jsonEscape c.strValue))
      (ascii "pattern", .str c.strValue) := denotes_member _ (denotes_jsonEscape _)
  unfold conditionTexts conditionMembers
  cases hk : c.kind with
  | pk =>
    refine .cons (denotes_member _ ?_) .nil
    split
    · exact denotes_int64Text _
    · exact denotes_jsonEscape _
  | bitmapEq => exact .cons hid (.cons hvalue .nil)
  | range =>
    obtain ⟨hlo, hhi⟩ := h hj hk
    exact .cons hid (List.rel_append (denotes_boundText hp _ hlo) (denotes_boundText hp _ hhi))
  | fmContains => exact .cons hid (.cons hpattern .nil)
  | isNull => exact .cons hid .nil
  | isNotNull => exact .cons hid .nil

lemma denotes_conditionText (hp : plat.PrintsNumbers) {c : Condition} (hv : c.Valid)
    (h : c.FiniteBounds) : Denotes (conditionText plat c) (conditionTree plat c) := by
  cases hj : c.conditionJson with
  | none =>
    rw [conditionText_eq hj, conditionTree, hj]
    have hc := (denotesObj_objectText (denotes_conditionTexts hp hj h)).denotes
    exact (denotesObj_objectText (.cons (denotes_member _ hc) .nil)).denotes
  | some json =>
    obtain ⟨d, hd⟩ := hv json hj
    rw [conditionText, conditionTree, hj]
    exact denotes_parse ⟨d.toDoc, hd⟩

/-- The texts of the members of a query. -/
def queryTexts (plat : Platform) (table : Bytes) (conditions : List Condition)
    (projection : List Int64) (limit offset : Int64) : List (StrLit × Bytes) :=
  member "table" (jsonEscape table) ::
    ((if conditions.isEmpty then []
      else [member "conditions" (arrayText (conditions.map (conditionText plat)))]) ++
    ((if projection.isEmpty then []
      else [member "projection" (arrayText (projection.map int64Text))]) ++
    ((if limit > 0 then [member "limit" (int64Text limit)] else []) ++
    (if offset ≠ 0 then [member "offset" (int64Text offset)] else []))))

variable {table : Bytes} {conditions : List Condition} {projection : List Int64}
  {limit offset : Int64}

lemma queryBody_eq : queryBody plat table conditions projection limit offset =
    objectText (queryTexts plat table conditions projection limit offset) := by
  simp only [queryBody, queryTexts, commaSeparated_eq, arrayText, objectText_member,
    laterText_append, laterText_ite, laterText_member, laterText_nil, List.append_assoc,
    List.append_nil]
  rfl

/-- The body of a query whose bounds are finite is the text of an object with the members of that
query. -/
theorem denotesObj_queryBody (hp : plat.PrintsNumbers) (hv : ∀ c ∈ conditions, c.Valid)
    (h : ∀ c ∈ conditions, c.FiniteBounds) :
    DenotesObj (queryBody plat table conditions projection limit offset)
      (queryMembers plat table conditions projection limit offset) := by
  rw [queryBody_eq]
  refine denotesObj_objectText (.cons (denotes_member _ (denotes_jsonEscape _))
    (List.rel_append ?_ (List.rel_append ?_ (List.rel_append ?_ ?_))))
  · split
    · exact .nil
    · refine .cons (denotes_member _ (denotes_arrayText ?_)) .nil
      rw [List.forall₂_map_left_iff, List.forall₂_map_right_iff, List.forall₂_same]
      exact fun c hc => denotes_conditionText hp (hv c hc) (h c hc)
  · split
    · exact .nil
    · refine .cons (denotes_member _ (denotes_arrayText ?_)) .nil
      rw [List.forall₂_map_left_iff, List.forall₂_map_right_iff, List.forall₂_same]
      exact fun i _ => denotes_int64Text i
  · split
    · exact .cons (denotes_member _ (denotes_int64Text _)) .nil
    · exact .nil
  · split
    · exact .cons (denotes_member _ (denotes_int64Text _)) .nil
    · exact .nil

end MongrelDB
