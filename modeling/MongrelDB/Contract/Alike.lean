import MongrelDB.Contract.Conditions
import MongrelDB.Contract.Indexes
import MongrelDB.Encoder.Calls
import MongrelDB.Encoder.Tables

/-!
# Bodies that say the same

Ops, columns and queries that stand for one JSON value agree on everything that is said about them.
What may be left out of an object is told apart by its name.
-/

namespace MongrelDB

open Text Json

/-! ### Members that may be left out -/

/-- The members that are there, in their order. -/
def optionals (l : List (String × Option Tree)) : List (Bytes × Tree) :=
  l.flatMap fun m => (m.2.map fun t => (ascii m.1, t)).toList

/-- An array, if it has elements. -/
def listed (l : List Tree) : Option Tree := if l.isEmpty then none else some (.arr l)

/-- A number, if it is positive. -/
def positive (i : Int64) : Option Int64 := if i > 0 then some i else none

@[simp] lemma optionals_nil : optionals [] = [] := rfl

@[simp] lemma optionals_some (name : String) (t : Tree) (l : List (String × Option Tree)) :
    optionals ((name, some t) :: l) = (ascii name, t) :: optionals l := rfl

@[simp] lemma optionals_none (name : String) (l : List (String × Option Tree)) :
    optionals ((name, none) :: l) = optionals l := rfl

lemma optionals_append (l l' : List (String × Option Tree)) :
    optionals (l ++ l') = optionals l ++ optionals l' := List.flatMap_append

lemma ite_eq_optionals (name : String) (p : Prop) [Decidable p] (t : Tree) :
    (if p then [(ascii name, t)] else []) =
      optionals [(name, if p then some t else none)] := by
  split <;> rfl

lemma ite_eq_listed {α : Type} (name : String) {ts : List Tree} {as : List α}
    (h : ts.isEmpty = as.isEmpty) :
    (if as.isEmpty then [] else [(ascii name, .arr ts)]) = optionals [(name, listed ts)] := by
  rw [listed, h]
  split <;> rfl

lemma parse_eq_optionals (name : String) {json : Bytes} (h : ∃ d : Doc, d.render = json) :
    [(ascii name, (parse json).getD .null)] = optionals [(name, parse json)] := by
  obtain ⟨d, rfl⟩ := h
  rw [parse_render]
  rfl

lemma mem_keys_optionals {l : List (String × Option Tree)} {k : Bytes}
    (h : k ∈ (optionals l).map (·.1)) : k ∈ (l.map (·.1)).map ascii := by
  obtain ⟨m, hm, rfl⟩ := List.mem_map.mp h
  obtain ⟨⟨name, x⟩, hx, hm⟩ := List.mem_flatMap.mp hm
  obtain ⟨t, -, rfl⟩ := Option.map_eq_some_iff.mp (Option.mem_toList.mp hm)
  exact List.mem_map_of_mem (List.mem_map_of_mem hx)

/-- What is left out is told apart by the names. -/
lemma optionals_inj (names : List String) {l l' : List (String × Option Tree)}
    (hl : l.map (·.1) = names) (hl' : l'.map (·.1) = names) (hnodup : (names.map ascii).Nodup) :
    optionals l = optionals l' ↔ l = l' := by
  refine ⟨fun h => ?_, congrArg optionals⟩
  induction names generalizing l l' with
  | nil => rw [List.map_eq_nil_iff.mp hl, List.map_eq_nil_iff.mp hl']
  | cons name names ih =>
    obtain ⟨⟨k, x⟩, m, rfl, hk, hm⟩ := List.map_eq_cons_iff.mp hl
    obtain ⟨⟨k', y⟩, m', rfl, hk', hm'⟩ := List.map_eq_cons_iff.mp hl'
    obtain rfl : k = name := hk
    obtain rfl : k' = k := hk'
    obtain ⟨hnotMem, htail⟩ := List.nodup_cons.mp hnodup
    have hleft : ascii k' ∉ (optionals m).map (·.1) := fun hmem =>
      hnotMem (hm ▸ mem_keys_optionals hmem)
    have hright : ascii k' ∉ (optionals m').map (·.1) := fun hmem =>
      hnotMem (hm' ▸ mem_keys_optionals hmem)
    cases x with
    | none =>
      cases y with
      | none => rw [ih hm hm' htail h]
      | some t =>
        rw [optionals_none, optionals_some] at h
        simp [h] at hleft
    | some s =>
      cases y with
      | none =>
        rw [optionals_none, optionals_some] at h
        simp [← h] at hright
      | some t =>
        obtain ⟨ht, h⟩ := List.cons.inj h
        rw [ih hm hm' htail h, (Prod.mk.inj ht).2]

lemma listed_inj {l l' : List Tree} : listed l = listed l' ↔ l = l' := by
  unfold listed
  cases l <;> cases l' <;> simp

lemma positive_inj {i j : Int64} :
    (if i > 0 then some (intTree i) else none) = (if j > 0 then some (intTree j) else none) ↔
      positive i = positive j := by
  have hmap : ∀ i, (if i > 0 then some (intTree i) else none) = (positive i).map intTree := by
    intro i
    unfold positive
    split <;> rfl
  rw [hmap, hmap]
  exact (Option.map_injective fun _ _ => intTree_inj.mp).eq_iff

lemma map_eq_map_iff_forall₂ {α β : Type} {f : α → β} {R : α → α → Prop} {p : α → Prop}
    (h : ∀ a b, p a → p b → (f a = f b ↔ R a b)) {l l' : List α} (hl : ∀ a ∈ l, p a)
    (hl' : ∀ a ∈ l', p a) : l.map f = l'.map f ↔ List.Forall₂ R l l' := by
  induction l generalizing l' with
  | nil => cases l' <;> simp
  | cons a l ih =>
    cases l' with
    | nil => simp
    | cons b l' =>
      obtain ⟨ha, hl⟩ := List.forall_mem_cons.mp hl
      obtain ⟨hb, hl'⟩ := List.forall_mem_cons.mp hl'
      rw [List.map_cons, List.map_cons, List.cons.injEq, h a b ha hb, ih hl hl',
        List.forall₂_cons]

/-! ### Ops -/

variable {plat : Platform}

/-- The cells have the same columns, with values that stand for the same JSON values. -/
def CellsAlike (plat : Platform) : List Cell → List Cell → Prop :=
  List.Forall₂ fun c d => c.columnId = d.columnId ∧ valueTree plat c.value = valueTree plat d.value

/-- The ops agree on what is read for their type. -/
def Op.Alike (plat : Platform) (a b : Op) : Prop :=
  a.type = b.type ∧ a.table = b.table ∧
    match a.type with
    | .put => CellsAlike plat a.cells b.cells
    | .upsert => CellsAlike plat a.cells b.cells ∧ CellsAlike plat a.updateCells b.updateCells
    | .delete => a.rowId = b.rowId
    | .deleteByPk => valueTree plat a.pkValue = valueTree plat b.pkValue

lemma OpType.tag_inj {s t : OpType} : ascii s.tag = ascii t.tag ↔ s = t := by
  cases s <;> cases t <;> decide

lemma cellTrees_inj {l l' : List Cell} :
    cellTrees plat l = cellTrees plat l' ↔ CellsAlike plat l l' := by
  unfold CellsAlike
  induction l generalizing l' with
  | nil => cases l' <;> simp [cellTrees]
  | cons c l ih =>
    cases l' with
    | nil => simp [cellTrees]
    | cons d l' =>
      rw [List.forall₂_cons, ← ih]
      simp only [cellTrees, List.flatMap_cons, List.cons_append, List.nil_append, List.cons.injEq,
        intTree_inj, and_assoc]

lemma isEmpty_cellTrees (l : List Cell) : (cellTrees plat l).isEmpty = l.isEmpty := by
  cases l <;> rfl

lemma opMembers_upsert {op : Op} (h : op.type = .upsert) : opMembers plat op =
    optionals [("table", some (.str op.table)), ("cells", some (cellsTree plat op.cells)),
      ("update_cells", listed (cellTrees plat op.updateCells)),
      ("returning", some (.bool false))] := by
  rw [opMembers, h]
  simp only [cellsTree, ite_eq_listed "update_cells" (isEmpty_cellTrees op.updateCells)]
  cases listed (cellTrees plat op.updateCells) <;> rfl

lemma opMembers_inj {a b : Op} (htype : a.type = b.type) :
    opMembers plat a = opMembers plat b ↔ a.Alike plat b := by
  cases hk : a.type with
  | upsert =>
    rw [opMembers_upsert hk, opMembers_upsert (htype ▸ hk), Op.Alike, optionals_inj
      ["table", "cells", "update_cells", "returning"] (by rfl) (by rfl) (by decide), ← htype, hk]
    simp [cellsTree, listed_inj, cellTrees_inj]
  | _ =>
    rw [opMembers, opMembers, Op.Alike, ← htype, hk]
    simp [cellsTree, cellTrees_inj, intTree_inj]

lemma opTree_inj {a b : Op} : opTree plat a = opTree plat b ↔ a.Alike plat b := by
  simp only [opTree, Tree.obj.injEq, List.cons.injEq, Prod.mk.injEq, OpType.tag_inj, and_true]
  constructor
  · rintro ⟨htype, h⟩
    exact (opMembers_inj htype).mp h
  · intro h
    exact ⟨h.1, (opMembers_inj h.1).mpr h⟩

/-- Transactions that stand for one object have ops that are alike and the same key. -/
lemma txnMembers_inj {ops ops' : List Op} {key key' : Bytes} :
    txnMembers plat ops key = txnMembers plat ops' key' ↔
      List.Forall₂ (Op.Alike plat) ops ops' ∧ key = key' := by
  have hops : ops.map (opTree plat) = ops'.map (opTree plat) ↔
      List.Forall₂ (Op.Alike plat) ops ops' :=
    map_eq_map_iff_forall₂ (p := fun _ => True) (fun a b _ _ => opTree_inj) (by simp) (by simp)
  simp only [txnMembers, List.cons.injEq, Prod.mk.injEq, Tree.arr.injEq, true_and, hops]
  apply and_congr_right
  intro _
  cases key <;> cases key' <;> simp

/-! ### Queries -/

/-- The conditions agree on what is written; a raw one is as good as the text that it holds. -/
def Condition.ReadAlike (plat : Platform) (a b : Condition) : Prop :=
  match a.conditionJson, b.conditionJson with
  | none, none => a.WrittenAlike b
  | _, _ => conditionTree plat a = conditionTree plat b

lemma conditionTree_inj (hp : plat.PrintsNumbers) (hi : plat.PrintsApart) {a b : Condition}
    (ha : a.FiniteBounds) (hb : b.FiniteBounds) :
    conditionTree plat a = conditionTree plat b ↔ a.ReadAlike plat b := by
  rw [Condition.ReadAlike]
  split
  next hja hjb =>
    constructor
    · intro h
      simp only [conditionTree, hja, hjb, Tree.obj.injEq, List.cons.injEq, Prod.mk.injEq,
        CondKind.tag_inj, and_true] at h
      exact writtenAlike_of_conditionMembers hi h.1 (ha hja) (hb hjb) h.2
    · intro h
      have htext := (conditionText_eq_iff hp hja hjb ha hb hi).mpr h
      have hva : a.Valid := fun json hj => absurd (hja.symm.trans hj) (by simp)
      have hvb : b.Valid := fun json hj => absurd (hjb.symm.trans hj) (by simp)
      have hparse := (denotes_conditionText hp hva ha).parse
      rw [htext, (denotes_conditionText hp hvb hb).parse] at hparse
      exact (Option.some.inj hparse).symm
  next => exact Iff.rfl

section Query

variable {table table' : Bytes} {conditions conditions' : List Condition}
  {projection projection' : List Int64} {limit limit' offset offset' : Int64}

lemma queryMembers_eq : queryMembers plat table conditions projection limit offset =
    optionals [("table", some (.str table)),
      ("conditions", listed (conditions.map (conditionTree plat))),
      ("projection", listed (projection.map intTree)),
      ("limit", if limit > 0 then some (intTree limit) else none),
      ("offset", if offset ≠ 0 then some (intTree offset) else none)] := by
  simp only [queryMembers, ite_eq_listed _ List.isEmpty_map, ite_eq_optionals, ← optionals_append]
  rfl

/-- Queries that stand for one object agree on everything; a limit that is not positive is none. -/
lemma queryMembers_inj (hp : plat.PrintsNumbers) (hi : plat.PrintsApart)
    (h : ∀ c ∈ conditions, c.FiniteBounds) (h' : ∀ c ∈ conditions', c.FiniteBounds) :
    queryMembers plat table conditions projection limit offset =
        queryMembers plat table' conditions' projection' limit' offset' ↔
      table = table' ∧ List.Forall₂ (Condition.ReadAlike plat) conditions conditions' ∧
        projection = projection' ∧ positive limit = positive limit' ∧ offset = offset' := by
  have hzero : (if offset ≠ 0 then some (intTree offset) else none) =
      (if offset' ≠ 0 then some (intTree offset') else none) ↔ offset = offset' := by
    by_cases ho : offset = 0 <;> by_cases ho' : offset' = 0 <;>
      simp [ho, ho', intTree_inj, eq_comm]
  rw [queryMembers_eq, queryMembers_eq, optionals_inj
    ["table", "conditions", "projection", "limit", "offset"] (by rfl) (by rfl) (by decide)]
  simp only [List.cons.injEq, Prod.mk.injEq, true_and, and_true, Option.some.injEq,
    Tree.str.injEq, listed_inj, positive_inj, hzero,
    map_eq_map_iff_forall₂ (fun a b ha hb => conditionTree_inj hp hi ha hb) h h',
    (List.map_injective_iff.mpr fun _ _ => intTree_inj.mp).eq_iff]

end Query

/-- Text retrievals that stand for one object agree on everything; so does every `k` that is not
positive. -/
lemma retrieveTextMembers_inj {table table' : Bytes} {embeddingColumn embeddingColumn' : Int64}
    {text text' : Bytes} {k k' : Int64} :
    retrieveTextMembers table embeddingColumn text k =
        retrieveTextMembers table' embeddingColumn' text' k' ↔
      table = table' ∧ embeddingColumn = embeddingColumn' ∧ text = text' ∧
        positive k = positive k' := by
  rw [retrieveTextMembers, retrieveTextMembers, ite_eq_optionals, ite_eq_optionals]
  simp only [List.cons.injEq, Prod.mk.injEq, Tree.str.injEq, intTree_inj, true_and]
  rw [optionals_inj ["k"] (by rfl) (by rfl) (by decide)]
  simp [← positive_inj]

/-! ### Tables -/

/-- The default value of a column; a raw one goes before a string. -/
def Column.defaultTree (col : Column) : Option Tree :=
  match col.defaultValueJson with
  | some json => parse json
  | none => col.defaultValue.map .str

/-- The columns agree on everything that is written; a default value is left out if there is an
expression. -/
structure Column.Alike (a b : Column) : Prop where
  id : a.id = b.id
  name : a.name = b.name
  ty : a.ty = b.ty
  primaryKey : a.primaryKey = b.primaryKey
  nullable : a.nullable = b.nullable
  enumVariants : a.enumVariants = b.enumVariants
  defaultExpr : a.defaultExpr = b.defaultExpr
  defaultValue : a.defaultExpr = none → a.defaultTree = b.defaultTree
  embeddingSource : a.embeddingSourceJson.bind parse = b.embeddingSourceJson.bind parse

lemma columnMembers_eq {col : Column} (h : col.Valid) : columnMembers col =
    optionals [("id", some (intTree col.id)), ("name", some (.str col.name)),
      ("ty", some (.str col.ty)), ("primary_key", some (.bool col.primaryKey)),
      ("nullable", some (.bool col.nullable)),
      ("enum_variants", listed (col.enumVariants.map .str)),
      ("default_expr", col.defaultExpr.map .str),
      ("default_value", if col.defaultExpr = none then col.defaultTree else none),
      ("embedding_source", col.embeddingSourceJson.bind parse)] := by
  have hdefault : defaultMembers col =
      optionals [("default_expr", col.defaultExpr.map .str),
        ("default_value", if col.defaultExpr = none then col.defaultTree else none)] := by
    unfold defaultMembers Column.defaultTree
    cases col.defaultExpr with
    | some expr => rfl
    | none =>
      cases hj : col.defaultValueJson with
      | none => cases col.defaultValue <;> rfl
      | some json => exact parse_eq_optionals "default_value" (h.defaultValueJson json hj)
  have hsource : sourceMembers col =
      optionals [("embedding_source", col.embeddingSourceJson.bind parse)] := by
    unfold sourceMembers
    cases hj : col.embeddingSourceJson with
    | none => rfl
    | some json => exact parse_eq_optionals "embedding_source" (h.embeddingSourceJson json hj)
  rw [columnMembers, hdefault, hsource, ite_eq_listed "enum_variants" List.isEmpty_map,
    ← optionals_append, ← optionals_append]
  rfl

lemma columnTree_inj {a b : Column} (ha : a.Valid) (hb : b.Valid) :
    columnTree a = columnTree b ↔ a.Alike b := by
  rw [columnTree, columnTree, Tree.obj.injEq, columnMembers_eq ha, columnMembers_eq hb,
    optionals_inj ["id", "name", "ty", "primary_key", "nullable", "enum_variants", "default_expr",
      "default_value", "embedding_source"] (by rfl) (by rfl) (by decide)]
  have hstrings : ∀ l l' : List Bytes, l.map Tree.str = l'.map Tree.str ↔ l = l' := fun _ _ =>
    (List.map_injective_iff.mpr fun _ _ => Tree.str.inj).eq_iff
  have hexpr : ∀ x y : Option Bytes, x.map Tree.str = y.map Tree.str ↔ x = y := fun _ _ =>
    (Option.map_injective fun _ _ => Tree.str.inj).eq_iff
  simp only [List.cons.injEq, Prod.mk.injEq, true_and, and_true, Option.some.injEq, intTree_inj,
    Tree.str.injEq, Tree.bool.injEq, listed_inj, hstrings, hexpr]
  constructor
  · rintro ⟨hid, hname, hty, hprimary, hnullable, henum, hexpr, hvalue, hsource⟩
    refine ⟨hid, hname, hty, hprimary, hnullable, henum, hexpr, fun hnone => ?_, hsource⟩
    rwa [if_pos hnone, if_pos (hexpr ▸ hnone)] at hvalue
  · intro h
    refine ⟨h.id, h.name, h.ty, h.primaryKey, h.nullable, h.enumVariants, h.defaultExpr, ?_,
      h.embeddingSource⟩
    rw [← h.defaultExpr]
    split
    · exact h.defaultValue ‹_›
    · rfl

lemma indexTree_inj {a b : Index} (ha : a.Fits) (hb : b.Fits) :
    (parse (serializeIndexJson a)).getD .null = (parse (serializeIndexJson b)).getD .null ↔
      a.WrittenAlike b := by
  rw [(denotesObj_serializeIndexJson ha).denotes.parse,
    (denotesObj_serializeIndexJson hb).denotes.parse, Option.getD_some, Option.getD_some,
    Tree.obj.injEq]
  constructor
  · exact writtenAlike_of_indexMembers
  · intro h
    have hparse := (denotesObj_serializeIndexJson ha).denotes.parse
    rw [(serializeIndexJson_eq_iff ha hb).mpr h,
      (denotesObj_serializeIndexJson hb).denotes.parse] at hparse
    exact (Tree.obj.inj (Option.some.inj hparse)).symm

section Table

variable {name name' : Bytes} {columns columns' : List Column} {constraintsJson : Bytes}
  {constraintsJson' : Bytes} {indexes indexes' : List Index}

/-- The raw parts of a table are JSON texts, and its indexes are written in full. -/
structure TableValid (columns : List Column) (constraintsJson : Bytes) (indexes : List Index) :
    Prop where
  columns : ∀ col ∈ columns, col.Valid
  constraints : constraintsJson ≠ [] → ∃ d : Doc, d.render = constraintsJson
  indexes : ∀ index ∈ indexes, index.Fits

def constraintsTree (constraintsJson : Bytes) : Option Tree :=
  if constraintsJson.isEmpty then none else parse constraintsJson

lemma tableMembers_eq (h : TableValid columns constraintsJson indexes) :
    tableMembers name columns constraintsJson indexes =
      optionals [("name", some (.str name)), ("columns", some (.arr (columns.map columnTree))),
        ("constraints", constraintsTree constraintsJson),
        ("indexes", listed (indexes.map fun index =>
          (parse (serializeIndexJson index)).getD .null))] := by
  have hconstraints : (if constraintsJson.isEmpty then []
      else [(ascii "constraints", (parse constraintsJson).getD .null)]) =
        optionals [("constraints", constraintsTree constraintsJson)] := by
    unfold constraintsTree
    cases hc : constraintsJson with
    | nil => rfl
    | cons c s => exact parse_eq_optionals _ (hc ▸ h.constraints (by simp [hc]))
  rw [tableMembers, hconstraints, ite_eq_listed "indexes" List.isEmpty_map, ← optionals_append]
  rfl

/-- Tables that stand for one object agree on everything that is written. -/
lemma tableMembers_inj (h : TableValid columns constraintsJson indexes)
    (h' : TableValid columns' constraintsJson' indexes') :
    tableMembers name columns constraintsJson indexes =
        tableMembers name' columns' constraintsJson' indexes' ↔
      name = name' ∧ List.Forall₂ Column.Alike columns columns' ∧
        constraintsTree constraintsJson = constraintsTree constraintsJson' ∧
        List.Forall₂ Index.WrittenAlike indexes indexes' := by
  rw [tableMembers_eq h, tableMembers_eq h', optionals_inj
    ["name", "columns", "constraints", "indexes"] (by rfl) (by rfl) (by decide)]
  simp only [List.cons.injEq, Prod.mk.injEq, true_and, and_true, Option.some.injEq, Tree.str.injEq,
    Tree.arr.injEq, listed_inj,
    map_eq_map_iff_forall₂ (fun a b ha hb => columnTree_inj ha hb) h.columns h'.columns,
    map_eq_map_iff_forall₂ (fun a b ha hb => indexTree_inj ha hb) h.indexes h'.indexes]

end Table

end MongrelDB
