import MongrelDB.Json.Parse
import Mathlib.Data.List.Forall2

/-!
# Texts without white space

Arrays and objects with no white space between their tokens, built from the list of their elements
or members. The text of such a value is that of its parts with commas in between, which is how a
program that prints JSON by concatenation puts it together. `Denotes` relates a text to its value,
and is preserved by these constructions.
-/

namespace Json

open Text

/-- The texts with commas in between. -/
def joined : List Bytes → Bytes
  | [] => []
  | [t] => t
  | t :: t' :: l => t ++ comma :: joined (t' :: l)

lemma joined_cons (t : Bytes) (l : List Bytes) :
    joined (t :: l) = t ++ l.flatMap fun u => comma :: u := by
  induction l generalizing t with
  | nil => simp [joined]
  | cons u l ih => rw [joined, ih u, List.flatMap_cons, List.cons_append]

lemma joined_cons_of_ne_nil (t : Bytes) {l : List Bytes} (h : l ≠ []) :
    joined (t :: l) = t ++ comma :: joined l := by
  cases l with
  | nil => exact absurd rfl h
  | cons u l => rfl

/-- A value as a text of its own. -/
def Cst.toDoc (v : Cst) : Doc := ⟨Ws.none, v, Ws.none⟩

@[simp] lemma Cst.render_toDoc (v : Cst) : v.toDoc.render = v.render := by
  simp [Cst.toDoc, Doc.render, Ws.none]

/-! ### Arrays -/

def elemsOf (d : Doc) : List Doc → Elems
  | [] => .last d.pre d.val d.post
  | e :: l => .cons d.pre d.val d.post (elemsOf e l)

/-- The array of these elements. -/
def arrayOf : List Doc → Cst
  | [] => .emptyArr Ws.none
  | d :: l => .arr (elemsOf d l)

lemma render_elemsOf (d : Doc) (l : List Doc) :
    (elemsOf d l).render = joined ((d :: l).map Doc.render) := by
  induction l generalizing d with
  | nil => simp [elemsOf, Elems.render, joined, Doc.render]
  | cons e l ih => simp [elemsOf, Elems.render, joined, Doc.render, ih]

lemma render_arrayOf (l : List Doc) :
    (arrayOf l).render = lbracket :: (joined (l.map Doc.render) ++ [rbracket]) := by
  cases l with
  | nil => simp [arrayOf, Cst.render, joined, Ws.none]
  | cons d l => rw [arrayOf, Cst.render, render_elemsOf]

lemma trees_elemsOf (d : Doc) (l : List Doc) :
    (elemsOf d l).trees = (d :: l).map fun e => e.val.tree := by
  induction l generalizing d with
  | nil => rfl
  | cons e l ih => rw [elemsOf, Elems.trees, ih]; rfl

lemma tree_arrayOf (l : List Doc) : (arrayOf l).tree = .arr (l.map fun d => d.val.tree) := by
  cases l with
  | nil => rfl
  | cons d l => rw [arrayOf, Cst.tree, trees_elemsOf]

/-! ### Objects -/

def Key.compact (name : StrLit) : Key := ⟨Ws.none, name, Ws.none⟩

/-- A name, a colon and a text. -/
def memberText (name : StrLit) (text : Bytes) : Bytes := name.render ++ colon :: text

def membersOf (m : StrLit × Doc) : List (StrLit × Doc) → Members
  | [] => .last (Key.compact m.1) m.2.pre m.2.val m.2.post
  | m' :: l => .cons (Key.compact m.1) m.2.pre m.2.val m.2.post (membersOf m' l)

/-- The object of these members. -/
def objectOf : List (StrLit × Doc) → Cst
  | [] => .emptyObj Ws.none
  | m :: l => .obj (membersOf m l)

lemma render_membersOf (m : StrLit × Doc) (l : List (StrLit × Doc)) :
    (membersOf m l).render = joined ((m :: l).map fun m => memberText m.1 m.2.render) := by
  induction l generalizing m with
  | nil =>
    simp [membersOf, Members.render, Key.render, Key.compact, joined, memberText, Ws.none,
      Doc.render]
  | cons m' l ih =>
    simp [membersOf, Members.render, Key.render, Key.compact, joined, memberText, Ws.none,
      Doc.render, ih]

lemma render_objectOf (l : List (StrLit × Doc)) : (objectOf l).render =
    lbrace :: (joined (l.map fun m => memberText m.1 m.2.render) ++ [rbrace]) := by
  cases l with
  | nil => simp [objectOf, Cst.render, joined, Ws.none]
  | cons m l => rw [objectOf, Cst.render, render_membersOf]

lemma toList_membersOf (m : StrLit × Doc) (l : List (StrLit × Doc)) :
    (membersOf m l).toList = (m :: l).map fun m => (m.1.decode, m.2.val) := by
  induction l generalizing m with
  | nil => rfl
  | cons m' l ih => rw [membersOf, Members.toList, ih]; rfl

lemma trees_membersOf (m : StrLit × Doc) (l : List (StrLit × Doc)) :
    (membersOf m l).trees = (m :: l).map fun m => (m.1.decode, m.2.val.tree) := by
  induction l generalizing m with
  | nil => rfl
  | cons m' l ih => rw [membersOf, Members.trees, ih]; rfl

lemma tree_objectOf (l : List (StrLit × Doc)) :
    (objectOf l).tree = .obj (l.map fun m => (m.1.decode, m.2.val.tree)) := by
  cases l with
  | nil => rfl
  | cons m l => rw [objectOf, Cst.tree, trees_membersOf]

/-! ### Texts and their values -/

/-- A JSON text with this value. -/
def Denotes (b : Bytes) (t : Tree) : Prop := ∃ d : Doc, d.render = b ∧ d.val.tree = t

/-- The text of an object with these members. -/
def DenotesObj (b : Bytes) (ms : List (Bytes × Tree)) : Prop :=
  ∃ d : ObjDoc, d.render = b ∧ d.obj.toCst.tree = .obj ms

variable {b : Bytes} {t : Tree}

lemma Denotes.parse (h : Denotes b t) : parse b = some t := by
  obtain ⟨d, rfl, rfl⟩ := h
  exact parse_render d

lemma Cst.denotes (v : Cst) : Denotes v.render v.tree := ⟨v.toDoc, v.render_toDoc, rfl⟩

lemma DenotesObj.denotes {ms : List (Bytes × Tree)} (h : DenotesObj b ms) :
    Denotes b (.obj ms) := by
  obtain ⟨d, hd, ht⟩ := h
  exact ⟨d.toDoc, hd, ht⟩

def arrayText (l : List Bytes) : Bytes := lbracket :: (joined l ++ [rbracket])

def objectText (l : List (StrLit × Bytes)) : Bytes :=
  lbrace :: (joined (l.map fun m => memberText m.1 m.2) ++ [rbrace])

/-- A text for each value, one after the other. -/
lemma exists_docs {texts : List Bytes} {trees : List Tree} (h : List.Forall₂ Denotes texts trees) :
    ∃ ds : List Doc, ds.map Doc.render = texts ∧ (ds.map fun d => d.val.tree) = trees := by
  induction h with
  | nil => exact ⟨[], rfl, rfl⟩
  | cons h _ ih =>
    obtain ⟨d, rfl, rfl⟩ := h
    obtain ⟨ds, rfl, rfl⟩ := ih
    exact ⟨d :: ds, rfl, rfl⟩

lemma denotes_arrayText {texts : List Bytes} {trees : List Tree}
    (h : List.Forall₂ Denotes texts trees) : Denotes (arrayText texts) (.arr trees) := by
  obtain ⟨ds, rfl, rfl⟩ := exists_docs h
  rw [arrayText, ← render_arrayOf, ← tree_arrayOf]
  exact (arrayOf ds).denotes

/-- A member of the text and a member of the value. -/
def DenotesMember (m : StrLit × Bytes) (m' : Bytes × Tree) : Prop :=
  m.1.decode = m'.1 ∧ Denotes m.2 m'.2

lemma exists_members {l : List (StrLit × Bytes)} {ms : List (Bytes × Tree)}
    (h : List.Forall₂ DenotesMember l ms) : ∃ ds : List (StrLit × Doc),
      (ds.map fun m => (m.1, m.2.render)) = l ∧
        (ds.map fun m => (m.1.decode, m.2.val.tree)) = ms := by
  induction h with
  | nil => exact ⟨[], rfl, rfl⟩
  | @cons m m' _ _ h _ ih =>
    obtain ⟨name, text⟩ := m
    obtain ⟨name', tree⟩ := m'
    obtain ⟨rfl, d, rfl, rfl⟩ := h
    obtain ⟨ds, rfl, rfl⟩ := ih
    exact ⟨(name, d) :: ds, rfl, rfl⟩

lemma denotesObj_objectText {l : List (StrLit × Bytes)} {ms : List (Bytes × Tree)}
    (h : List.Forall₂ DenotesMember l ms) : DenotesObj (objectText l) ms := by
  obtain ⟨ds, rfl, rfl⟩ := exists_members h
  obtain ⟨o, ho⟩ : ∃ o : Obj, o.toCst = objectOf ds := by
    cases ds with
    | nil => exact ⟨.empty Ws.none, rfl⟩
    | cons m l => exact ⟨.members (membersOf m l), rfl⟩
  refine ⟨⟨Ws.none, o, Ws.none⟩, ?_, ?_⟩
  · rw [ObjDoc.render, ObjDoc.toDoc, ho]
    refine (objectOf ds).render_toDoc.trans ?_
    rw [render_objectOf, objectText, List.map_map]
    rfl
  · rw [ho, tree_objectOf]

end Json
