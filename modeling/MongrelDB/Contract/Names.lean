import MongrelDB.Contract.Malformed
import MongrelDB.Walker.Cells

/-!
# The names in a JSON document

What `table_names` makes of a JSON document, whatever it holds and however its text is laid out. The
names are the strings of an array, all of them and in order; an array with anything else in it is
refused; and a document that is no array has no names.
-/

namespace MongrelDB

open Text Traced Prog Json JsonParser

/-- The strings of an array, if it has no other elements. -/
def namesIn (v : Cst) : Option (List Bytes) :=
  (v.elems.elim (some []) (List.mapM Cst.asStr)).map (List.map StrLit.decode)

variable {s r w : Bytes}

lemma next_quote (pre : Ws) (l : StrLit) :
    Next quote (pre.text ++ ((Cst.str l).render ++ r)) (l.body ++ quote :: r) := by
  rw [Next, dropWhile_value]
  simp [Cst.render, StrLit.render]

lemma readsName_iff (pre : Ws) (v : Cst) : ReadsName (pre.text ++ (v.render ++ r)) s w ↔
    (∃ l, v.asStr = some l ∧ s = l.decode) ∧ w = r := by
  have hquoted : ∀ l : StrLit, Quoted (l.body ++ quote :: r) l.decode r := fun l => quoted_body l r
  constructor
  · rintro ⟨x, hx, hq⟩
    have hhead : (v.render.head? == some quote) = true := by
      have hx' : v.render ++ r = quote :: x := (dropWhile_value pre v r).symm.trans hx
      rw [beq_iff_eq, ← head?_value v r, hx', List.head?_cons]
    rw [head_string] at hhead
    cases v with
    | str l =>
      obtain ⟨-, rfl⟩ := hx.unique (next_quote pre l)
      obtain ⟨rfl, rfl⟩ := hq.unique (hquoted l)
      exact ⟨⟨l, rfl, rfl⟩, rfl⟩
    | null | bool | num | emptyArr | arr | emptyObj | obj => cases hhead
  · rintro ⟨⟨l, hl, rfl⟩, rfl⟩
    cases v <;> cases hl
    exact ⟨_, next_quote pre l, hquoted l⟩

/-- The list behind the bracket of an array is read as the names in it. -/
lemma readsNames_iff {v : Cst} {es : List Cst} (hv : v.elems = some es) (r : Bytes) :
    ∃ t, v.render ++ r = lbracket :: t ∧ ∀ names r', Bracketed ReadsName rbracket t names r' ↔
      namesIn v = some names ∧ r' = r := by
  have hnames : ∀ names, namesIn v = some names ↔
      List.Forall₂ (fun v s => ∃ l, v.asStr = some l ∧ s = l.decode) es names := by
    intro names
    rw [forall₂_mapM, namesIn, hv, Option.elim_some, Option.map_eq_some_iff]
    simp only [eq_comm]
  simp only [hnames]
  refine bracketed_elems isItem_readsName (fun names => by simp) ?_ hv
  intro es names r'
  exact listed_elems (fun pre v r _ s w => readsName_iff pre v) es

lemma out_decodeNames_document (d : Doc) (names : List Bytes) :
    (walk d.render decodeNames).out = .ok names ↔ namesIn d.val = some names := by
  have hfront : d.render.dropWhile isSpace = d.val.render ++ d.post.text := by
    rw [Doc.render, List.append_assoc]
    exact dropWhile_value d.pre d.val d.post.text
  rw [out_decodeNames_iff]
  cases hv : d.val.elems with
  | none =>
    have hno : ∀ y, ¬Next lbracket d.render y := by
      intro y hy
      have hsome := (next_lbracket_iff d.pre d.val (r := d.post.text)).mp
        ⟨y, by rwa [Doc.render, List.append_assoc] at hy⟩
      rw [hv] at hsome
      cases hsome
    have hnames : namesIn d.val = some [] := by
      rw [namesIn, hv]
      rfl
    rw [hnames, Option.some.injEq]
    constructor
    · rintro (⟨y, -, hy, -⟩ | ⟨rfl, -⟩)
      · exact absurd hy (hno y)
      · rfl
    · rintro rfl
      exact .inr ⟨rfl, hno⟩
  | some es =>
    obtain ⟨t, ht, hread⟩ := readsNames_iff hv d.post.text
    have hnext : Next lbracket d.render t := hfront.trans ht
    constructor
    · rintro (⟨y, r', hy, hnames⟩ | ⟨-, hno⟩)
      · obtain ⟨-, rfl⟩ := hy.unique hnext
        exact ((hread names r').mp hnames).1
      · exact absurd hnext (hno t)
    · intro hnames
      exact .inl ⟨t, _, hnext, (hread names _).mpr ⟨hnames, rfl⟩⟩

/-- What `table_names` returns of a JSON document, and when it throws. -/
theorem decodeNames_document (d : Doc) :
    (∀ names, (walk d.render decodeNames).out = .ok names ↔ namesIn d.val = some names) ∧
      (Refuses (walk d.render decodeNames) ↔ namesIn d.val = none) := by
  refine ⟨out_decodeNames_document d, ?_⟩
  rw [refuses_iff safeCall_decodeNames, Option.eq_none_iff_forall_ne_some]
  exact forall_congr' fun names => not_congr (out_decodeNames_document d names)

end MongrelDB
