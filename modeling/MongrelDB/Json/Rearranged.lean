import MongrelDB.Json.Number

/-!
# Objects with their members in another order

Two values are `Rearranged` if one becomes the other by moving members within their objects, at any
depth of objects. White space and the spelling of strings do not count, since a `Tree` has neither.
If names are not repeated, then a look-up in both finds rearranged values.
-/

namespace Json

open Text

/-! ### Trees -/

/-- Members are moved within their object. -/
inductive Tree.Rearranged : Tree → Tree → Prop
  | refl (t : Tree) : Rearranged t t
  | perm {ms ms' : List (Bytes × Tree)} : ms.Perm ms' → Rearranged (.obj ms) (.obj ms')
  | member {t t' : Tree} (l r : List (Bytes × Tree)) (k : Bytes) : Rearranged t t' →
      Rearranged (.obj (l ++ (k, t) :: r)) (.obj (l ++ (k, t') :: r))
  | trans {t u v : Tree} : Rearranged t u → Rearranged u v → Rearranged t v

section Lookup

variable {α : Type*} {l l' : List (Bytes × α)}

/-- A name that is not repeated is looked up in any order of the members. -/
lemma lookup_of_perm (h : l.Perm l') (hn : (l.map (·.1)).Nodup) (key : Bytes) :
    l.lookup key = l'.lookup key := by
  induction h with
  | nil => rfl
  | cons m _ ih =>
    rw [List.lookup_cons, List.lookup_cons, ih (List.nodup_cons.mp hn).2]
  | swap m m' l =>
    have hne : m'.1 ≠ m.1 := fun h => (List.nodup_cons.mp hn).1 (by simp [h])
    rw [List.lookup_cons, List.lookup_cons, List.lookup_cons, List.lookup_cons]
    cases hm : key == m.1 <;> cases hm' : key == m'.1 <;> simp_all
  | trans h _ ih ih' => rw [ih hn, ih' ((h.map _).nodup_iff.mp hn)]

lemma lookup_append (l l' : List (Bytes × α)) (key : Bytes) :
    (l ++ l').lookup key = (l.lookup key).or (l'.lookup key) := by
  induction l with
  | nil => rfl
  | cons m l ih =>
    rw [List.cons_append, List.lookup_cons, List.lookup_cons, ih]
    cases key == m.1 <;> rfl

end Lookup

lemma rel_of_map {α β γ δ : Type*} {R : γ → δ → Prop} {f : α → γ} {g : β → δ} {x : Option α}
    {y : Option β} (h : Option.Rel R (x.map f) (y.map g)) :
    Option.Rel (fun a b => R (f a) (g b)) x y := by
  cases x <;> cases y <;> cases h
  · exact .none
  · exact .some ‹_›

lemma rel_bind {α β γ δ : Type*} {R : α → β → Prop} {S : γ → δ → Prop} {x : Option α}
    {y : Option β} {f : α → Option γ} {g : β → Option δ} (h : Option.Rel R x y)
    (hfg : ∀ a b, R a b → Option.Rel S (f a) (g b)) : Option.Rel S (x.bind f) (y.bind g) := by
  cases h with
  | none => exact .none
  | some h => exact hfg _ _ h

lemma rel_refl {α : Type*} {R : α → α → Prop} (hR : ∀ a, R a a) (x : Option α) :
    Option.Rel R x x := by
  cases x with
  | none => exact .none
  | some a => exact .some (hR a)

lemma bind_eq_of_rel {α β γ : Type*} {R : α → β → Prop} {x : Option α} {y : Option β}
    {f : α → Option γ} {g : β → Option γ} (h : Option.Rel R x y)
    (hfg : ∀ a b, R a b → f a = g b) : x.bind f = y.bind g := by
  cases h with
  | none => rfl
  | some h => exact hfg _ _ h

lemma map_eq_of_rel {α β γ : Type*} {R : α → β → Prop} {x : Option α} {y : Option β} {f : α → γ}
    {g : β → γ} (h : Option.Rel R x y) (hfg : ∀ a b, R a b → f a = g b) : x.map f = y.map g := by
  cases h with
  | none => rfl
  | some h => exact congrArg some (hfg _ _ h)

namespace Tree

lemma rel_trans {x y z : Option Tree} (h : Option.Rel Rearranged x y)
    (h' : Option.Rel Rearranged y z) : Option.Rel Rearranged x z := by
  cases h with
  | none => exact h'
  | some h =>
    cases h' with
    | some h' => exact .some (h.trans h')

/-- What is no object stays as it is. -/
lemma Rearranged.eq_or_obj {t t' : Tree} (h : Rearranged t t') :
    t = t' ∨ (∃ ms, t = .obj ms) ∧ ∃ ms, t' = .obj ms := by
  induction h with
  | refl t => exact .inl rfl
  | perm h => exact .inr ⟨⟨_, rfl⟩, _, rfl⟩
  | member l r k h => exact .inr ⟨⟨_, rfl⟩, _, rfl⟩
  | trans h h' ih ih' =>
    rcases ih with rfl | ⟨ht, hu⟩
    · exact ih'
    · rcases ih' with rfl | ⟨-, hv⟩
      · exact .inr ⟨ht, hu⟩
      · exact .inr ⟨ht, hv⟩

/-- An object has the same names afterwards, and rearranged values. -/
lemma Rearranged.members {ms ms' : List (Bytes × Tree)} (h : Rearranged (.obj ms) (.obj ms'))
    (hn : (ms.map (·.1)).Nodup) : (ms.map (·.1)).Perm (ms'.map (·.1)) ∧
      ∀ key, Option.Rel Rearranged (ms.lookup key) (ms'.lookup key) := by
  generalize ht : Tree.obj ms = t at h
  generalize ht' : Tree.obj ms' = t' at h
  induction h generalizing ms ms' with
  | refl t =>
    obtain rfl := Tree.obj.inj (ht.trans ht'.symm)
    exact ⟨.refl _, fun _ => rel_refl .refl _⟩
  | perm h =>
    obtain rfl := Tree.obj.inj ht
    obtain rfl := Tree.obj.inj ht'
    refine ⟨h.map _, fun key => ?_⟩
    rw [lookup_of_perm h hn]
    exact rel_refl .refl _
  | @member t t' l r k h _ =>
    obtain rfl := Tree.obj.inj ht
    obtain rfl := Tree.obj.inj ht'
    refine ⟨by simp, fun key => ?_⟩
    rw [lookup_append, lookup_append, List.lookup_cons, List.lookup_cons]
    cases l.lookup key with
    | some v => exact rel_refl .refl _
    | none =>
      cases key == k with
      | true => exact .some h
      | false => exact rel_refl .refl _
  | trans h h' ih ih' =>
    subst ht ht'
    rcases h.eq_or_obj with rfl | ⟨-, ms₁, rfl⟩
    · exact ih' hn rfl rfl
    · obtain ⟨hkeys, hrel⟩ := ih hn rfl rfl
      obtain ⟨hkeys', hrel'⟩ := ih' (hkeys.nodup_iff.mp hn) rfl rfl
      exact ⟨hkeys.trans hkeys', fun key => rel_trans (hrel key) (hrel' key)⟩

lemma distinct_obj_iff {ms : List (Bytes × Tree)} :
    (Tree.obj ms).Distinct ↔ (ms.map (·.1)).Nodup ∧ ∀ m ∈ ms, m.2.Distinct := by
  constructor
  · rintro ⟨⟩
    exact ⟨‹_›, ‹_›⟩
  · rintro ⟨hn, hd⟩
    exact .obj hn hd

/-- Moving members repeats no name. -/
lemma Rearranged.distinct {t t' : Tree} (h : Rearranged t t') (hd : t.Distinct) : t'.Distinct := by
  induction h with
  | refl t => exact hd
  | perm h =>
    rw [distinct_obj_iff] at hd ⊢
    exact ⟨(h.map _).nodup_iff.mp hd.1, fun m hm => hd.2 m (h.mem_iff.mpr hm)⟩
  | @member t t' l r k h ih =>
    rw [distinct_obj_iff] at hd ⊢
    obtain ⟨hn, hd⟩ := hd
    refine ⟨by simpa using hn, fun m hm => ?_⟩
    simp only [List.mem_append, List.mem_cons] at hm hd
    rcases hm with hm | rfl | hm
    · exact hd m (.inl hm)
    · exact ih (hd (k, t) (.inr (.inl rfl)))
    · exact hd m (.inr (.inr hm))
  | trans _ _ ih ih' => exact ih' (ih hd)

end Tree

/-! ### Values -/

section Values

variable {v v' : Cst} (h : v.tree.Rearranged v'.tree)

lemma Cst.map_decode_asStr (v : Cst) :
    v.asStr.map StrLit.decode = match v.tree with | .str s => some s | _ => none := by
  cases v <;> rfl

lemma Cst.map_render_asNum (v : Cst) :
    v.asNum.map NumLit.render = match v.tree with | .num t => some t | _ => none := by
  cases v <;> rfl

lemma Cst.asBool_eq (v : Cst) :
    v.asBool = match v.tree with | .bool b => some b | _ => none := by
  cases v <;> rfl

/-- The value is an object exactly if its tree is one. -/
lemma Cst.isSome_asObj (v : Cst) : v.asObj.isSome = true ↔ ∃ ms, v.tree = .obj ms := by
  cases v <;> simp [Cst.asObj, Cst.tree]

include h

lemma Cst.asStr_of_rearranged : v.asStr.map StrLit.decode = v'.asStr.map StrLit.decode := by
  rw [v.map_decode_asStr, v'.map_decode_asStr]
  rcases h.eq_or_obj with he | ⟨⟨ms, hms⟩, ms', hms'⟩
  · rw [he]
  · rw [hms, hms']

lemma Cst.asNum_of_rearranged : v.asNum.map NumLit.render = v'.asNum.map NumLit.render := by
  rw [v.map_render_asNum, v'.map_render_asNum]
  rcases h.eq_or_obj with he | ⟨⟨ms, hms⟩, ms', hms'⟩
  · rw [he]
  · rw [hms, hms']

lemma Cst.asBool_of_rearranged : v.asBool = v'.asBool := by
  rw [v.asBool_eq, v'.asBool_eq]
  rcases h.eq_or_obj with he | ⟨⟨ms, hms⟩, ms', hms'⟩
  · rw [he]
  · rw [hms, hms']

/-- A value is an object afterwards exactly if it was one, and a rearranged one. -/
lemma Cst.asObj_of_rearranged : Option.Rel
    (fun o o' : Obj => o.toCst.tree.Rearranged o'.toCst.tree) v.asObj v'.asObj := by
  have hsome : v.asObj.isSome = true ↔ v'.asObj.isSome = true := by
    rw [v.isSome_asObj, v'.isSome_asObj]
    rcases h.eq_or_obj with he | ⟨ho, ho'⟩
    · rw [he]
    · exact iff_of_true ho ho'
  cases ho : v.asObj with
  | none =>
    rw [ho] at hsome
    cases ho' : v'.asObj with
    | none => exact .none
    | some o' => simp [ho'] at hsome
  | some o =>
    rw [ho] at hsome
    obtain ⟨o', ho'⟩ := Option.isSome_iff_exists.mp (hsome.mp rfl)
    rw [ho']
    refine .some ?_
    rwa [← Cst.asObj_eq_some ho, ← Cst.asObj_eq_some ho']

end Values

/-- What is read of a number literal depends on its text alone. -/
lemma NumLit.eq_of_render {n n' : NumLit} (h : n.render = n'.render) :
    n.neg = n'.neg ∧ n.int.text = n'.int.text ∧ n.isInt = n'.isInt ∧
      n.toBinary64 = n'.toBinary64 := by
  have hsplit := congrArg splitSign h
  rw [n.splitSign_render, n'.splitSign_render, Prod.mk.injEq] at hsplit
  obtain ⟨hneg, htext⟩ := hsplit
  have hint : n.int.text = n'.int.text := by
    rw [← takeWhile_run n.int.isDigit n.stops_isDigit, htext,
      takeWhile_run n'.int.isDigit n'.stops_isDigit]
  rw [hint] at htext
  refine ⟨hneg, hint, ?_, by rw [← n.strtod_render, h, n'.strtod_render]⟩
  rw [← n.isEmpty_renderTail, List.append_cancel_left htext, n'.isEmpty_renderTail]

/-! ### Objects -/

lemma lookup_map {α β : Type*} (f : α → β) (l : List (Bytes × α)) (key : Bytes) :
    (l.map fun m => (m.1, f m.2)).lookup key = (l.lookup key).map f := by
  induction l with
  | nil => rfl
  | cons m l ih =>
    rw [List.map_cons, List.lookup_cons, List.lookup_cons, ih]
    cases key == m.1 <;> rfl

lemma Members.trees_eq (ms : Members) : ms.trees = ms.toList.map fun m => (m.1, m.2.tree) := by
  fun_induction Members.toList ms with
  | case1 k pre v post => rfl
  | case2 k pre v post ms ih => rw [Members.trees, List.map_cons, ih]

lemma Obj.tree_toCst (o : Obj) :
    o.toCst.tree = .obj (o.toList.map fun m => (m.1, m.2.tree)) := by
  cases o with
  | empty w => rfl
  | members ms => exact congrArg Tree.obj ms.trees_eq

lemma Members.keys_trees (ms : Members) : ms.trees.map (·.1) = ms.keys := by
  rw [ms.trees_eq, List.map_map]
  rfl

mutual
lemma Cst.distinct_iff (v : Cst) : v.distinct = true ↔ v.tree.Distinct := by
  match v with
  | .null => exact iff_of_true rfl .null
  | .bool b => exact iff_of_true rfl (.bool b)
  | .num n => exact iff_of_true rfl (.num _)
  | .str s => exact iff_of_true rfl (.str _)
  | .emptyArr w => exact iff_of_true rfl (.arr (by simp))
  | .emptyObj w => exact iff_of_true rfl (.obj (by simp) (by simp))
  | .arr es =>
    rw [Cst.distinct, Cst.tree, es.distinct_iff]
    exact ⟨.arr, by rintro ⟨⟩; assumption⟩
  | .obj ms =>
    rw [Cst.distinct, Cst.tree, Tree.distinct_obj_iff, Bool.and_eq_true, decide_eq_true_eq,
      ms.distinct_iff, ms.keys_trees]

lemma Elems.distinct_iff (es : Elems) :
    es.distinct = true ↔ ∀ t ∈ es.trees, t.Distinct := by
  match es with
  | .last pre v post => simp [Elems.distinct, Elems.trees, v.distinct_iff]
  | .cons pre v post es =>
    simp [Elems.distinct, Elems.trees, v.distinct_iff, es.distinct_iff]

lemma Members.distinct_iff (ms : Members) :
    ms.distinct = true ↔ ∀ m ∈ ms.trees, m.2.Distinct := by
  match ms with
  | .last k pre v post => simp [Members.distinct, Members.trees, v.distinct_iff]
  | .cons k pre v post ms =>
    simp [Members.distinct, Members.trees, v.distinct_iff, ms.distinct_iff]
end

def Obj.Rearranged (o o' : Obj) : Prop := o.toCst.tree.Rearranged o'.toCst.tree

section Rearranged

variable {o o' : Obj} (h : o.Rearranged o')
include h

lemma Obj.Rearranged.distinct (hd : o.distinct = true) : o'.distinct = true := by
  rw [Obj.distinct, Cst.distinct_iff] at hd ⊢
  exact Tree.Rearranged.distinct h hd

lemma Obj.Rearranged.members (hd : o.distinct = true) :
    (o.toList.map (·.1)).Perm (o'.toList.map (·.1)) ∧ ∀ key,
      Option.Rel (fun v v' => v.tree.Rearranged v'.tree) (o.lookup key) (o'.lookup key) := by
  have hnames : ∀ o : Obj, (o.toList.map fun m => (m.1, m.2.tree)).map (·.1) =
      o.toList.map (·.1) := fun o => by rw [List.map_map]; rfl
  have hm := h
  rw [Obj.Rearranged, o.tree_toCst, o'.tree_toCst] at hm
  obtain ⟨hkeys, hrel⟩ := hm.members (by rw [hnames]; exact Obj.nodup_keys hd)
  rw [hnames, hnames] at hkeys
  refine ⟨hkeys, fun key => ?_⟩
  have hrel := hrel key
  rw [lookup_map, lookup_map] at hrel
  exact rel_of_map hrel

lemma Obj.Rearranged.isEmpty_eq (hd : o.distinct = true) : o.isEmpty = o'.isEmpty := by
  have hempty : ∀ o : Obj, o.isEmpty = (o.toList.map (·.1)).isEmpty := by
    intro o
    cases o with
    | empty w => rfl
    | members ms => cases ms <;> rfl
  rw [hempty, hempty, List.Perm.isEmpty_eq (h.members hd).1]

variable (hd : o.distinct = true) (key : Bytes)
include hd

lemma Obj.Rearranged.strAt_eq : o.strAt key = o'.strAt key := by
  rw [Obj.strAt, Obj.strAt, Option.map_bind, Option.map_bind]
  exact bind_eq_of_rel ((h.members hd).2 key) fun _ _ hv => Cst.asStr_of_rearranged hv

lemma Obj.Rearranged.boolAt_eq : o.boolAt key = o'.boolAt key :=
  bind_eq_of_rel ((h.members hd).2 key) fun _ _ hv => Cst.asBool_of_rearranged hv

lemma Obj.Rearranged.rel_numAt :
    Option.Rel (fun n n' => n.render = n'.render) (o.numAt key) (o'.numAt key) :=
  rel_bind ((h.members hd).2 key) fun _ _ hv =>
    rel_of_map (R := (· = ·)) (Cst.asNum_of_rearranged hv ▸ rel_refl (fun _ => rfl) _)

/-- The objects in it are rearranged, and do not repeat names either. -/
lemma Obj.Rearranged.rel_objAt :
    Option.Rel (fun p p' => p.Rearranged p' ∧ p.distinct = true) (o.objAt key) (o'.objAt key) := by
  have hrel : Option.Rel Obj.Rearranged (o.objAt key) (o'.objAt key) :=
    rel_bind ((h.members hd).2 key) fun _ _ hv => Cst.asObj_of_rearranged hv
  cases hp : o.objAt key <;> cases hp' : o'.objAt key <;> rw [hp, hp'] at hrel <;> cases hrel
  · exact .none
  · exact .some ⟨‹_›, Obj.distinct_of_objAt hd hp⟩

end Rearranged

end Json
