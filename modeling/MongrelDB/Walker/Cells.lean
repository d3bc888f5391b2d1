import MongrelDB.Walker.Objects
import MongrelDB.Walker.Responses

/-!
# The rows of an object

What the decoder of query responses makes of an object, whatever its members are and however often
their names occur. The rows are the elements of the first array called `rows`, and the cells of a
row are those of all its arrays called `cells`, column ids and values in turn (`responsePairs`).
Where a row is no object, or its cells are no such pairs, the list is not read at all.
-/

namespace MongrelDB

open Text Traced Prog Json JsonParser

/-! ### What a response says -/

/-- Column ids and values in turn. -/
def cellPairs : List Cst → Option (List (NumLit × Cst))
  | [] => some []
  | .num n :: v :: l => (cellPairs l).map ((n, v) :: ·)
  | _ => none

/-- The cells that a member of a row adds. -/
def memberPairs (m : Bytes × Cst) : Option (List (NumLit × Cst)) :=
  if m.1 = ascii "cells" then m.2.elems.elim (some []) cellPairs else some []

def rowPairs (v : Cst) : Option (List (NumLit × Cst)) :=
  v.asObj.bind fun o => (o.toList.mapM memberPairs).map List.flatten

def responsePairs (o : Obj) : Option (List (List (NumLit × Cst))) :=
  (o.first Cst.elems (ascii "rows")).elim (some []) (List.mapM rowPairs)

/-- What a column id and a value are read as. -/
def readCell (p : NumLit × Cst) : Cell := ⟨strtoll p.1.render, clampedValue p.2⟩

/-! ### Lists of the grammar -/

variable {α β γ : Type} {v w r r' x : Bytes} {item : Bytes → α → Bytes → Prop}

lemma forall₂_mapM {f : α → Option β} {g : β → γ} {l : List α} {l' : List γ} :
    List.Forall₂ (fun a c => ∃ b, f a = some b ∧ c = g b) l l' ↔
      ∃ bs, l.mapM f = some bs ∧ l' = bs.map g := by
  constructor
  · intro h
    induction h with
    | nil => exact ⟨[], rfl, rfl⟩
    | cons ha _ ih =>
      obtain ⟨b, hb, rfl⟩ := ha
      obtain ⟨bs, hbs, rfl⟩ := ih
      exact ⟨b :: bs, by simp [hb, hbs], rfl⟩
  · rintro ⟨bs, hbs, rfl⟩
    induction l generalizing bs with
    | nil =>
      obtain rfl : [] = bs := by simpa using hbs
      exact .nil
    | cons a l ih =>
      obtain ⟨b, hb, bs, hl, rfl⟩ : ∃ b, f a = some b ∧ ∃ bs', l.mapM f = some bs' ∧
          b :: bs' = bs := by simpa [Option.bind_eq_some_iff] using hbs
      exact .cons ⟨b, hb, rfl⟩ (ih bs hl)

lemma delimited_rbracket (post : Ws) (r : Bytes) : Delimited (post.text ++ rbracket :: r) :=
  delimited_ws post (delimited_cons.mpr (by decide))

lemma delimited_rbrace (post : Ws) (r : Bytes) : Delimited (post.text ++ rbrace :: r) :=
  delimited_ws post (delimited_cons.mpr (by decide))

lemma delimited_comma (post : Ws) (r : Bytes) : Delimited (post.text ++ comma :: r) :=
  delimited_ws post (delimited_cons.mpr (by decide))

lemma listed_iff {close : UInt8} {l : List α} : Listed item close v l r ↔
    ∃ a w, item v a w ∧ ((Next close w r ∧ l = [a]) ∨
      ∃ x l', Next comma w x ∧ Listed item close x l' r ∧ l = a :: l') := by
  constructor
  · rintro (⟨ha, hw⟩ | ⟨ha, hw, hl⟩)
    · exact ⟨_, _, ha, .inl ⟨hw, rfl⟩⟩
    · exact ⟨_, _, ha, .inr ⟨_, _, hw, hl, rfl⟩⟩
  · rintro ⟨a, w, ha, ⟨hw, rfl⟩ | ⟨x, l', hw, hl, rfl⟩⟩
    · exact .last ha hw
    · exact .more ha hw hl

/-- A list behind whose first item a bracket stands has no other item. -/
lemma listed_last {close : UInt8} {l : List α} {P : α → Prop} (post : Ws)
    (hclose : close ≠ comma) (hs : isSpace close = false)
    (hitem : ∀ a w, item v a w ↔ P a ∧ w = post.text ++ close :: r) :
    Listed item close v l r' ↔ (∃ a, P a ∧ l = [a]) ∧ r' = r := by
  have hnext := next_ws post hs r
  rw [listed_iff]
  constructor
  · rintro ⟨a, w, ha, hw⟩
    obtain ⟨hP, rfl⟩ := (hitem a w).mp ha
    obtain ⟨hw, rfl⟩ | ⟨x, l', hw, -, -⟩ := hw
    · exact ⟨⟨a, hP, rfl⟩, (hw.unique hnext).2⟩
    · exact absurd (hnext.unique hw).1 hclose
  · rintro ⟨⟨a, ha, rfl⟩, rfl⟩
    exact ⟨a, _, (hitem a _).mpr ⟨ha, rfl⟩, .inl ⟨hnext, rfl⟩⟩

lemma listed_more {close : UInt8} {l : List α} {P : α → Prop} (post : Ws)
    (hclose : close ≠ comma)
    (hitem : ∀ a w, item v a w ↔ P a ∧ w = post.text ++ comma :: x) :
    Listed item close v l r' ↔ ∃ a l', P a ∧ Listed item close x l' r' ∧ l = a :: l' := by
  have hnext := next_ws post (c := comma) (by decide) x
  rw [listed_iff]
  constructor
  · rintro ⟨a, w, ha, hw⟩
    obtain ⟨hP, rfl⟩ := (hitem a w).mp ha
    obtain ⟨hw, -⟩ | ⟨y, l', hw, hl, rfl⟩ := hw
    · exact absurd (hw.unique hnext).1 hclose
    · obtain ⟨-, rfl⟩ := hw.unique hnext
      exact ⟨a, l', hP, hl, rfl⟩
  · rintro ⟨a, l', ha, hl, rfl⟩
    exact ⟨a, _, (hitem a _).mpr ⟨ha, rfl⟩, .inr ⟨x, l', hnext, hl, rfl⟩⟩

/-- The elements of an array are read as a list exactly if each of them is read as an item. -/
lemma listed_elems {P : Cst → α → Prop}
    (hitem : ∀ (pre : Ws) v r, Delimited r → ∀ a w, item (pre.text ++ (v.render ++ r)) a w ↔
      P v a ∧ w = r) (es : Elems) {l : List α} :
    Listed item rbracket (es.render ++ rbracket :: r) l r' ↔
      List.Forall₂ P es.toList l ∧ r' = r := by
  cases es with
  | last pre v post =>
    have hrender : Elems.render (.last pre v post) ++ rbracket :: r =
        pre.text ++ (v.render ++ (post.text ++ rbracket :: r)) := by simp [Elems.render]
    rw [hrender, listed_last post (by decide) (by decide)
      (hitem pre v _ (delimited_rbracket post r))]
    simp [Elems.toList, List.forall₂_cons_left_iff]
  | cons pre v post es =>
    have hrender : Elems.render (.cons pre v post es) ++ rbracket :: r =
        pre.text ++ (v.render ++ (post.text ++ comma :: (es.render ++ rbracket :: r))) := by
      simp [Elems.render]
    rw [hrender, listed_more post (by decide) (hitem pre v _ (delimited_comma post _))]
    simp only [listed_elems hitem es, Elems.toList, List.forall₂_cons_left_iff]
    grind

/-! ### Cells -/

lemma readsValue_iff (pre : Ws) (v : Cst) (hr : Delimited r) {a : Value} :
    ReadsValue (pre.text ++ (v.render ++ r)) a w ↔ a = clampedValue v ∧ w = r := by
  have hread := readsValue_clamped v pre hr
  constructor
  · intro h
    exact h.unique hread
  · rintro ⟨rfl, rfl⟩
    exact hread

/-- What no value begins with is not read as one. -/
lemma not_readsValue {c : UInt8} {a : Value} (h : Next c v w) (hc : isValueHead c = false) :
    ¬ReadsValue v a r := by
  intro hv
  rcases h.readsValue_iff.mp hv with
    ⟨rfl, -⟩ | ⟨rfl | rfl, -⟩ | ⟨rfl | rfl, -⟩ | ⟨rfl, -⟩ | ⟨hs, -⟩
  · cases hc
  · cases hc
  · cases hc
  · cases hc
  · cases hc
  · cases hc
  · rcases (by simpa [startsNumber] using hs : c = minus ∨ isDigit c = true) with rfl | hd
    · cases hc
    · simp [isValueHead, hd] at hc

lemma afterComma_comma (post : Ws) (t : Bytes) : afterComma (post.text ++ comma :: t) = t := by
  rw [afterComma, next_ws post (c := comma) (by decide) t]
  rfl

lemma afterComma_rbracket (post : Ws) (t : Bytes) :
    afterComma (post.text ++ rbracket :: t) = rbracket :: t := by
  rw [afterComma, next_ws post (c := rbracket) (by decide) t]
  rfl

lemma readsCell_iff (pre : Ws) (v : Cst) (hr : Delimited r) {c : Cell} :
    ReadsCell (pre.text ++ (v.render ++ r)) c w ↔ ∃ n, v = .num n ∧
      c.columnId = strtoll n.render ∧ ReadsValue (afterComma r) c.value w := by
  have hdrop : (pre.text ++ (v.render ++ r)).dropWhile isSpace = v.render ++ r :=
    dropWhile_value pre v r
  constructor
  · rintro ⟨hhead, hid, hval⟩
    rw [hdrop] at hhead hid hval
    rw [head?_value, head_number] at hhead
    cases v with
    | num n =>
      rw [Cst.render, takeWhile_number n hr] at hid
      rw [Cst.render, dropWhile_number n hr] at hval
      exact ⟨n, rfl, hid, hval⟩
    | null | bool | str | emptyArr | arr | emptyObj | obj => cases hhead
  · rintro ⟨n, rfl, hid, hval⟩
    refine ⟨?_, ?_, ?_⟩
    · rw [hdrop, head?_value, head_number]
      rfl
    · rw [hdrop, Cst.render, takeWhile_number n hr, hid]
    · rwa [hdrop, Cst.render, dropWhile_number n hr]

/-- A column id with its value behind a comma. -/
lemma readsPair_iff (pre post pre' : Ws) (v v' : Cst) (hr : Delimited r) (c : Cell) (w : Bytes) :
    ReadsCell (pre.text ++ (v.render ++ (post.text ++ comma :: (pre'.text ++ (v'.render ++ r)))))
      c w ↔ (∃ n, v = .num n ∧ c = readCell (n, v')) ∧ w = r := by
  rw [readsCell_iff pre v (delimited_comma post _), afterComma_comma]
  constructor
  · rintro ⟨n, rfl, hid, hval⟩
    obtain ⟨ha, rfl⟩ := (readsValue_iff pre' v' hr).mp hval
    obtain ⟨i, a⟩ := c
    exact ⟨⟨n, rfl, by rw [readCell, ← hid, ← ha]⟩, rfl⟩
  · rintro ⟨⟨n, rfl, rfl⟩, rfl⟩
    exact ⟨n, rfl, rfl, readsValue_clamped v' pre' hr⟩

lemma readsCell_render (pre post pre' : Ws) (n : NumLit) (v : Cst) (hr : Delimited r) :
    ReadsCell (pre.text ++ (n.render ++ (post.text ++ comma :: (pre'.text ++ (v.render ++ r)))))
      (readCell (n, v)) r :=
  (readsPair_iff pre post pre' (.num n) v hr _ _).mpr ⟨⟨n, rfl, rfl⟩, rfl⟩

lemma cellPairs_eq_some {v v' : Cst} {l : List Cst} {ps : List (NumLit × Cst)} :
    cellPairs (v :: v' :: l) = some ps ↔
      ∃ n ps', v = .num n ∧ cellPairs l = some ps' ∧ ps = (n, v') :: ps' := by
  constructor
  · intro h
    cases v with
    | num n =>
      obtain ⟨ps', hps', rfl⟩ := Option.map_eq_some_iff.mp h
      exact ⟨n, ps', rfl, hps', rfl⟩
    | null | bool | str | emptyArr | arr | emptyObj | obj => cases h
  · rintro ⟨n, ps', rfl, hps', rfl⟩
    exact Option.map_eq_some_iff.mpr ⟨ps', hps', rfl⟩

/-- An array of cells is read exactly if it consists of column ids and values. -/
lemma listed_cells (es : Elems) {row : Row} :
    Listed ReadsCell rbracket (es.render ++ rbracket :: r) row r' ↔
      (∃ ps, cellPairs es.toList = some ps ∧ row = ps.map readCell) ∧ r' = r := by
  match es with
  -- one element: the second value of its cell would begin with the bracket
  | .last pre v post =>
    have hrender : Elems.render (.last pre v post) ++ rbracket :: r =
        pre.text ++ (v.render ++ (post.text ++ rbracket :: r)) := by simp [Elems.render]
    have hnone : cellPairs [v] = none := by cases v <;> rfl
    rw [hrender, Elems.toList, hnone, listed_iff]
    constructor
    · rintro ⟨c, w, hc, -⟩
      obtain ⟨n, -, -, hval⟩ := (readsCell_iff pre v (delimited_rbracket post r)).mp hc
      rw [afterComma_rbracket] at hval
      exact absurd hval (not_readsValue (next_cons (by decide) r) (by decide))
    · rintro ⟨⟨ps, ⟨⟩, -⟩, -⟩
  -- two elements are one cell
  | .cons pre v post (.last pre' v' post') =>
    have hrender : Elems.render (.cons pre v post (.last pre' v' post')) ++ rbracket :: r =
        pre.text ++ (v.render ++ (post.text ++ comma ::
          (pre'.text ++ (v'.render ++ (post'.text ++ rbracket :: r))))) := by
      simp [Elems.render]
    rw [hrender, listed_last post' (by decide) (by decide)
      (readsPair_iff pre post pre' v v' (delimited_rbracket post' r))]
    refine and_congr_left fun _ => ⟨?_, ?_⟩
    · rintro ⟨c, ⟨n, rfl, rfl⟩, rfl⟩
      exact ⟨[(n, v')], rfl, rfl⟩
    · rintro ⟨ps, hps, rfl⟩
      obtain ⟨n, ps', rfl, hnil, rfl⟩ := cellPairs_eq_some.mp hps
      cases hnil
      exact ⟨_, ⟨n, rfl, rfl⟩, rfl⟩
  -- two elements and the cells behind them
  | .cons pre v post (.cons pre' v' post' es) =>
    have hrender : Elems.render (.cons pre v post (.cons pre' v' post' es)) ++ rbracket :: r =
        pre.text ++ (v.render ++ (post.text ++ comma :: (pre'.text ++
          (v'.render ++ (post'.text ++ comma :: (es.render ++ rbracket :: r)))))) := by
      simp [Elems.render]
    rw [hrender, listed_more post' (by decide)
      (readsPair_iff pre post pre' v v' (delimited_comma post' _))]
    constructor
    · rintro ⟨c, row, ⟨n, rfl, rfl⟩, hl, rfl⟩
      obtain ⟨⟨ps, hps, rfl⟩, hr⟩ := (listed_cells es).mp hl
      exact ⟨⟨_, cellPairs_eq_some.mpr ⟨n, ps, rfl, hps, rfl⟩, rfl⟩, hr⟩
    · rintro ⟨⟨ps, hps, rfl⟩, hr⟩
      obtain ⟨n, ps', rfl, hps', rfl⟩ := cellPairs_eq_some.mp hps
      exact ⟨_, _, ⟨n, rfl, rfl⟩, (listed_cells es).mpr ⟨⟨ps', hps', rfl⟩, hr⟩, rfl⟩

/-- The list behind the bracket of an array, where `Q` says what is read of elements. -/
lemma bracketed_elems {Q : List Cst → List α → Prop} (hi : IsItem item rbracket)
    (hnil : ∀ l, Q [] l ↔ l = [])
    (hlist : ∀ (es : Elems) l r', Listed item rbracket (es.render ++ rbracket :: r) l r' ↔
      Q es.toList l ∧ r' = r) {v : Cst} {es : List Cst} (hv : v.elems = some es) :
    ∃ t, v.render ++ r = lbracket :: t ∧
      ∀ l r', Bracketed item rbracket t l r' ↔ Q es l ∧ r' = r := by
  cases v with
  | emptyArr w =>
    cases hv
    have hnext := next_ws w (c := rbracket) (by decide) r
    refine ⟨w.text ++ rbracket :: r, by simp [Cst.render], fun l r' => ⟨?_, ?_⟩⟩
    · rintro (⟨hr, rfl⟩ | hl)
      · exact ⟨(hnil []).mpr rfl, (hr.unique hnext).2⟩
      · exact absurd hl (not_listed_of_next hi hnext)
    · rintro ⟨hl, rfl⟩
      exact .inl ⟨hnext, (hnil l).mp hl⟩
  | arr es' =>
    cases hv
    refine ⟨es'.render ++ rbracket :: r, by simp [Cst.render], fun l r' => ?_⟩
    rw [← hlist, Bracketed, or_iff_right]
    rintro ⟨hn, -⟩
    -- an element stands there, and no element begins with the bracket
    obtain ⟨pre, u, t, ht⟩ : ∃ (pre : Ws) (u : Cst) (t : Bytes),
        es'.render ++ rbracket :: r = pre.text ++ (u.render ++ t) := by
      cases es' with
      | last pre u post => exact ⟨pre, u, post.text ++ rbracket :: r, by simp [Elems.render]⟩
      | cons pre u post es' =>
        exact ⟨pre, u, post.text ++ comma :: (es'.render ++ rbracket :: r),
          by simp [Elems.render]⟩
    obtain ⟨c, s, hc, hhead⟩ := u.render_head
    rw [ht, Next, dropWhile_value, hc] at hn
    obtain rfl := (List.cons.inj hn).1
    cases hhead
  | null | bool | num | str | emptyObj | obj => cases hv

lemma readsCells_iff {v : Cst} {es : List Cst} (hv : v.elems = some es) (r : Bytes) :
    ∃ t, v.render ++ r = lbracket :: t ∧ ∀ row r', ReadsCells t row r' ↔
      (∃ ps, cellPairs es = some ps ∧ row = ps.map readCell) ∧ r' = r := by
  refine bracketed_elems (Q := fun es row => ∃ ps, cellPairs es = some ps ∧ row = ps.map readCell)
    isItem_readsCell (fun row => ⟨?_, ?_⟩) (fun es row r' => listed_cells es) hv
  · rintro ⟨ps, ⟨⟩, rfl⟩
    rfl
  · rintro rfl
    exact ⟨[], rfl, rfl⟩

/-! ### Rows -/

lemma next_lbracket_iff (pre : Ws) (v : Cst) :
    (∃ x, Next lbracket (pre.text ++ (v.render ++ r)) x) ↔ v.elems.isSome = true := by
  have hhead : (v.render.head? == some lbracket) = v.elems.isSome := by
    rw [head_array]
    cases v <;> rfl
  rw [← hhead, beq_iff_eq, ← head?_value v r, List.head?_eq_some_iff]
  simp only [Next, dropWhile_value]

/-- A member of a row adds its cells, or is passed over. -/
lemma rowMember_iff (k : Key) (pre : Ws) (v : Cst) (hr : Delimited r) (row : Row) (w : Bytes) :
    RowMember (k.render ++ (pre.text ++ (v.render ++ r))) row w ↔
      (∃ ps, memberPairs (k.name.decode, v) = some ps ∧ row = ps.map readCell) ∧ w = r := by
  have hn := named_render k (pre.text ++ (v.render ++ r))
  have hskip := skips_render v pre hr
  -- an array of the name `cells` is read, and everything else is passed
  by_cases hk : k.name.decode = ascii "cells" ∧ v.elems.isSome = true
  · obtain ⟨hk, hv⟩ := hk
    obtain ⟨es, hes⟩ := Option.isSome_iff_exists.mp hv
    obtain ⟨t, ht, hcells⟩ := readsCells_iff hes r
    have hx : Next lbracket (pre.text ++ (v.render ++ r)) t := by rw [Next, dropWhile_value, ht]
    rw [memberPairs, if_pos hk, hes, Option.elim_some, ← hcells]
    rw [hk] at hn
    constructor
    · intro h
      cases h with
      | cells hn' hx' hc =>
        obtain ⟨-, rfl⟩ := hn'.unique hn
        obtain ⟨-, rfl⟩ := hx'.unique hx
        exact hc
      | other hn' hk' hs =>
        obtain ⟨rfl, rfl⟩ := hn'.unique hn
        exact absurd ⟨rfl, t, hx⟩ hk'
    · exact .cells hn hx
  · have hnone : memberPairs (k.name.decode, v) = some [] := by
      rw [memberPairs]
      split_ifs with hk'
      · cases hv : v.elems with
        | none => rfl
        | some es => exact absurd ⟨hk', by rw [hv]; rfl⟩ hk
      · rfl
    rw [← next_lbracket_iff pre v (r := r)] at hk
    rw [hnone]
    constructor
    · intro h
      cases h with
      | cells hn' hx hc =>
        obtain ⟨hk', rfl⟩ := hn'.unique hn
        exact absurd ⟨hk'.symm, _, hx⟩ hk
      | other hn' _ hs =>
        obtain ⟨rfl, rfl⟩ := hn'.unique hn
        exact ⟨⟨[], rfl, rfl⟩, hs.unique hskip⟩
    · rintro ⟨⟨ps, ⟨⟩, rfl⟩, rfl⟩
      exact .other hn hk hskip

lemma listed_members (ms : Members) {ls : List Row} :
    Listed RowMember rbrace (ms.render ++ rbrace :: r) ls r' ↔
      List.Forall₂ (fun m row => ∃ ps, memberPairs m = some ps ∧ row = ps.map readCell)
        ms.toList ls ∧ r' = r := by
  cases ms with
  | last k pre v post =>
    have hrender : Members.render (.last k pre v post) ++ rbrace :: r =
        k.render ++ (pre.text ++ (v.render ++ (post.text ++ rbrace :: r))) := by
      simp [Members.render]
    rw [hrender, listed_last post (by decide) (by decide)
      (rowMember_iff k pre v (delimited_rbrace post r))]
    simp [Members.toList, List.forall₂_cons_left_iff]
  | cons k pre v post ms =>
    have hrender : Members.render (.cons k pre v post ms) ++ rbrace :: r = k.render ++
        (pre.text ++ (v.render ++ (post.text ++ comma :: (ms.render ++ rbrace :: r)))) := by
      simp [Members.render]
    rw [hrender, listed_more post (by decide) (rowMember_iff k pre v (delimited_comma post _))]
    simp only [listed_members ms, Members.toList, List.forall₂_cons_left_iff]
    grind

lemma bracketed_members (o : Obj) (r : Bytes) :
    ∃ t, o.render ++ r = lbrace :: t ∧ ∀ ls r', Bracketed RowMember rbrace t ls r' ↔
      List.Forall₂ (fun m row => ∃ ps, memberPairs m = some ps ∧ row = ps.map readCell)
        o.toList ls ∧ r' = r := by
  cases o with
  | empty w =>
    have hnext := next_ws w (c := rbrace) (by decide) r
    refine ⟨w.text ++ rbrace :: r, by simp [Obj.render, Obj.toCst, Cst.render], fun ls r' => ?_⟩
    rw [Bracketed, or_iff_left (not_listed_of_next isItem_rowMember hnext), Obj.toList,
      List.forall₂_nil_left_iff, and_comm]
    refine and_congr_right fun _ => ⟨fun h => (h.unique hnext).2, ?_⟩
    rintro rfl
    exact hnext
  | members ms =>
    refine ⟨ms.render ++ rbrace :: r, by simp [Obj.render, Obj.toCst, Cst.render],
      fun ls r' => ?_⟩
    rw [Bracketed, or_iff_right, listed_members, Obj.toList]
    rintro ⟨hn, -⟩
    obtain ⟨k, t, ht⟩ : ∃ (k : Key) (t : Bytes), ms.render ++ rbrace :: r = k.render ++ t := by
      cases ms with
      | last k pre v post =>
        exact ⟨k, pre.text ++ (v.render ++ (post.text ++ rbrace :: r)), by simp [Members.render]⟩
      | cons k pre v post ms =>
        exact ⟨k, pre.text ++ (v.render ++ (post.text ++ comma :: (ms.render ++ rbrace :: r))),
          by simp [Members.render]⟩
    obtain ⟨x, y, hx, -, -⟩ := named_render k t
    rw [ht] at hn
    exact absurd (hn.unique hx).1 (by decide)

/-- A value is read as a row exactly if it is an object whose cells are pairs. -/
lemma readsRow_iff (pre : Ws) (v : Cst) (r : Bytes) (row : Row) (w : Bytes) :
    ReadsRow (pre.text ++ (v.render ++ r)) row w ↔
      (∃ ps, rowPairs v = some ps ∧ row = ps.map readCell) ∧ w = r := by
  have hnext : ∀ x, Next lbrace (pre.text ++ (v.render ++ r)) x ↔ v.render ++ r = lbrace :: x := by
    intro x
    rw [Next, dropWhile_value]
  simp only [ReadsRow, hnext]
  cases hv : v.asObj with
  | none =>
    rw [rowPairs, hv]
    constructor
    · rintro ⟨x, ls, hx, -⟩
      have hhead := head_object v
      rw [hv, ← head?_value v r, hx] at hhead
      cases hhead
    · rintro ⟨⟨ps, ⟨⟩, -⟩, -⟩
  | some o =>
    obtain rfl := Cst.asObj_eq_some hv
    obtain ⟨t, ht, hmembers⟩ := bracketed_members o r
    have hrow : rowPairs o.toCst = (o.toList.mapM memberPairs).map List.flatten := by
      rw [rowPairs, hv]
      rfl
    rw [show o.toCst.render ++ r = lbrace :: t from ht, hrow]
    constructor
    · rintro ⟨x, ls, hx, hl, rfl⟩
      obtain rfl := (List.cons.inj hx).2
      obtain ⟨hls, rfl⟩ := (hmembers ls w).mp hl
      obtain ⟨pss, hpss, rfl⟩ := forall₂_mapM.mp hls
      exact ⟨⟨pss.flatten, by rw [hpss]; rfl, List.map_flatten.symm⟩, rfl⟩
    · rintro ⟨⟨ps, hps, rfl⟩, rfl⟩
      obtain ⟨pss, hpss, rfl⟩ := Option.map_eq_some_iff.mp hps
      exact ⟨t, pss.map (List.map readCell), rfl,
        (hmembers _ _).mpr ⟨forall₂_mapM.mpr ⟨pss, hpss, rfl⟩, rfl⟩, List.map_flatten⟩

/-! ### Responses -/

lemma head_elems (v : Cst) : (v.render.head? == some lbracket) = v.elems.isSome := by
  rw [head_array]
  cases v <;> rfl

/-- The first array of that name is the one that a scan for it comes to. -/
lemma firstHit_elems (o : Obj) (key : Bytes) :
    (firstHit (fun k c => k == key && c == some lbracket) o.toList).bind Cst.elems =
      o.first Cst.elems key := firstHit_bind (fun v => head_elems v) o.toList

/-- Where no array is called `rows`, the scan comes to none. -/
lemma not_rowsAt_object {d : ObjDoc} (h : d.obj.first Cst.elems (ascii "rows") = none) (y : Bytes) :
    ¬RowsAt d.render y := by
  rintro ⟨w, hw, hr⟩
  cases he : d.obj.isEmpty with
  | true =>
    obtain ⟨w', x, hw', hx⟩ := next_empty_object he
    obtain ⟨-, rfl⟩ := hw.unique hw'
    obtain ⟨x', hx'⟩ := hr.next
    exact absurd (hx.unique hx').1 (by decide)
  | false =>
    have hnone : firstHit (fun k c => k == ascii "rows" && c == some lbracket) d.obj.toList =
        none := by
      by_contra hsome
      obtain ⟨v, hv⟩ := Option.ne_none_iff_exists'.mp hsome
      rw [← firstHit_elems, hv, Option.bind_some] at h
      obtain ⟨m, hm, rfl⟩ := Option.map_eq_some_iff.mp hv
      have hhit := List.find?_some hm
      rw [Bool.and_eq_true_iff, head_elems, h] at hhit
      cases hhit.2
    obtain ⟨w', hw', ha⟩ := absentIn_object hnone he
    obtain ⟨-, rfl⟩ := hw.unique hw'
    exact ha.not_reaches hr

/-- The list behind the bracket of the first array called `rows`. -/
lemma rowsAt_object {d : ObjDoc} {es : List Cst}
    (hes : d.obj.first Cst.elems (ascii "rows") = some es) :
    ∃ y, RowsAt d.render y ∧ ∀ rows, (∃ r, Bracketed ReadsRow rbracket y rows r) ↔
      ∃ pss, es.mapM rowPairs = some pss ∧ rows = pss.map (List.map readCell) := by
  rw [← firstHit_elems] at hes
  obtain ⟨v, hhit, hv⟩ := Option.bind_eq_some_iff.mp hes
  obtain ⟨t, ht, hr⟩ := reachesIn_object hhit
  obtain ⟨y, hy, hrows⟩ := bracketed_elems (r := t) (Q := List.Forall₂ fun v row =>
      ∃ ps, rowPairs v = some ps ∧ row = ps.map readCell) isItem_readsRow
    (fun rows => List.forall₂_nil_left_iff)
    (fun es rows r' => listed_elems (fun pre v r _ => readsRow_iff pre v r) es) hv
  rw [hy] at hr
  refine ⟨y, hr, fun rows => ?_⟩
  simp only [hrows, forall₂_mapM, exists_and_left, exists_eq, and_true]

/-- The decoder returns the rows of an object, whatever else is in it. -/
theorem out_decodeRows_object (d : ObjDoc) (rows : List Row) :
    (walk d.render decodeRows).out = .ok rows ↔
      ∃ pss, responsePairs d.obj = some pss ∧ rows = pss.map (List.map readCell) := by
  rw [responsePairs]
  cases hes : d.obj.first Cst.elems (ascii "rows") with
  | none =>
    rw [out_decodeRows_of_not (not_rowsAt_object hes), Except.ok.injEq, Option.elim_none]
    constructor
    · rintro rfl
      exact ⟨[], rfl, rfl⟩
    · rintro ⟨pss, ⟨⟩, rfl⟩
      rfl
  | some es =>
    obtain ⟨y, hy, hrows⟩ := rowsAt_object hes
    rw [out_decodeRows_of_rowsAt hy, hrows, Option.elim_some]

end MongrelDB
