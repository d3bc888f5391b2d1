import MongrelDB.Walker.Extract

/-!
# The extractors on objects

On an object whose names are distinct an extractor answers with the member of the wanted name and
type. Where there is none it still answers that one was found, unless the object is empty, and
leaves the output as it was (`answer`).
-/

namespace MongrelDB

open Text Traced Prog Json JsonParser

/-! ### The members that a scan comes to -/

/-- The value of the first member that is wanted. -/
def firstHit (hit : Bytes → Option UInt8 → Bool) (l : List (Bytes × Cst)) : Option Cst :=
  (l.find? fun m => hit m.1 m.2.render.head?).map Prod.snd

variable {hit : Bytes → Option UInt8 → Bool}

lemma firstHit_cons_pos {k : Bytes} {v : Cst} {l : List (Bytes × Cst)}
    (h : hit k v.render.head? = true) : firstHit hit ((k, v) :: l) = some v := by
  simp [firstHit, h]

lemma firstHit_cons_neg {k : Bytes} {v : Cst} {l : List (Bytes × Cst)}
    (h : hit k v.render.head? = false) : firstHit hit ((k, v) :: l) = firstHit hit l := by
  simp [firstHit, h]

lemma dropWhile_value (pre : Ws) (v : Cst) (t : Bytes) :
    (pre.text ++ (v.render ++ t)).dropWhile isSpace = v.render ++ t :=
  pre.dropWhile_append (v.stops_isSpace t)

lemma head?_value (v : Cst) (t : Bytes) : (v.render ++ t).head? = v.render.head? := by
  obtain ⟨c, s, hc, -⟩ := v.render_head
  rw [hc]
  rfl

lemma head?_member (pre : Ws) (v : Cst) (t : Bytes) :
    ((pre.text ++ (v.render ++ t)).dropWhile isSpace).head? = v.render.head? := by
  rw [dropWhile_value, head?_value]

section Member

variable (k : Key) (pre : Ws) (v : Cst) (post : Ws)

/-- A scan comes to the value of a member that is wanted. -/
lemma reaches_member (hh : hit k.name.decode v.render.head? = true) (t : Bytes) :
    Reaches hit (k.render ++ (pre.text ++ (v.render ++ t))) (v.render ++ t) := by
  have hr : Reaches hit _ _ := .here (named_render k _) (by rw [head?_member pre v t, hh])
  rwa [dropWhile_value] at hr

/-- Of a member that is not wanted it passes the value, and goes on behind the comma. -/
lemma passed_member (hh : hit k.name.decode v.render.head? = false) (y : Bytes) :
    (∀ z, Reaches hit (k.render ++ (pre.text ++ (v.render ++ (post.text ++ comma :: y)))) z ↔
      Reaches hit y z) ∧
    (Absent hit (k.render ++ (pre.text ++ (v.render ++ (post.text ++ comma :: y)))) ↔
      Absent hit y) := by
  have hn := named_render k (pre.text ++ (v.render ++ (post.text ++ comma :: y)))
  have hhead := head?_member pre v (post.text ++ comma :: y)
  have hhit := (congrArg (hit k.name.decode) hhead).trans hh
  have hs : Skips .value (pre.text ++ (v.render ++ (post.text ++ comma :: y)))
      (post.text ++ comma :: y) :=
    skips_render v pre (delimited_ws post (delimited_cons.mpr (by decide)))
  have hx : Next comma (post.text ++ comma :: y) y := next_ws post (by decide) y
  exact ⟨fun _ => reaches_iff_of_passed hn hhit hs hx, absent_iff_of_passed hn hhit hs hx⟩

end Member

/-- The scan of members of the grammar comes to the first that is wanted, or passes them all. -/
lemma scan_members (ms : Members) (r : Bytes) :
    (∀ v, firstHit hit ms.toList = some v →
      ∃ t, Delimited t ∧ Reaches hit (ms.render ++ rbrace :: r) (v.render ++ t)) ∧
    (firstHit hit ms.toList = none → Absent hit (ms.render ++ rbrace :: r)) := by
  -- the scan stops at the first member that is wanted, and goes on behind every other one
  cases ms with
  | last k pre v post =>
    have hd : Delimited (post.text ++ rbrace :: r) :=
      delimited_ws post (delimited_cons.mpr (by decide))
    have hrender : Members.render (.last k pre v post) ++ rbrace :: r
        = k.render ++ (pre.text ++ (v.render ++ (post.text ++ rbrace :: r))) := by
      simp [Members.render]
    rw [hrender, Members.toList]
    cases hh : hit k.name.decode v.render.head? with
    | true =>
      rw [firstHit_cons_pos hh]
      refine ⟨?_, by rintro ⟨⟩⟩
      rintro _ ⟨⟩
      exact ⟨_, hd, reaches_member k pre v hh _⟩
    | false =>
      rw [firstHit_cons_neg hh]
      refine ⟨by rintro _ ⟨⟩, fun _ => ?_⟩
      exact .last (named_render k _) (by rw [head?_member, hh]) (skips_render v pre hd)
        (next_ws post (by decide) r)
  | cons k pre v post ms =>
    have hrender : Members.render (.cons k pre v post ms) ++ rbrace :: r = k.render ++
        (pre.text ++ (v.render ++ (post.text ++ comma :: (ms.render ++ rbrace :: r)))) := by
      simp [Members.render]
    rw [hrender, Members.toList]
    cases hh : hit k.name.decode v.render.head? with
    | true =>
      rw [firstHit_cons_pos hh]
      refine ⟨?_, by rintro ⟨⟩⟩
      rintro _ ⟨⟩
      exact ⟨_, delimited_ws post (delimited_cons.mpr (by decide)), reaches_member k pre v hh _⟩
    | false =>
      obtain ⟨hr, ha⟩ := passed_member k pre v post hh (ms.render ++ rbrace :: r)
      rw [firstHit_cons_neg hh, ha]
      simp only [hr]
      exact scan_members ms r

lemma ObjDoc.render_eq (d : ObjDoc) : d.render = d.pre.text ++ (d.obj.render ++ d.post.text) := by
  simp [ObjDoc.render, Doc.render, ObjDoc.toDoc, Obj.render]

/-- In an object the scan comes to the first member that is wanted. -/
lemma reachesIn_object {d : ObjDoc} {v : Cst} (h : firstHit hit d.obj.toList = some v) :
    ∃ t, Delimited t ∧ ReachesIn hit d.render (v.render ++ t) := by
  obtain ⟨pre, obj, post⟩ := d
  cases obj with
  | empty w => simp [firstHit, Obj.toList] at h
  | members ms =>
    obtain ⟨t, ht, hr⟩ := (scan_members ms post.text).1 v h
    refine ⟨t, ht, _, ?_, hr⟩
    simpa [ObjDoc.render_eq, Obj.render, Obj.toCst, Cst.render] using
      next_ws pre (c := lbrace) (by decide) (ms.render ++ rbrace :: post.text)

/-- Without such a member it passes all of them, if there are any. -/
lemma absentIn_object {d : ObjDoc} (h : firstHit hit d.obj.toList = none)
    (he : d.obj.isEmpty = false) : AbsentIn hit d.render := by
  obtain ⟨pre, obj, post⟩ := d
  cases obj with
  | empty w => cases he
  | members ms =>
    refine ⟨_, ?_, (scan_members ms post.text).2 h⟩
    simpa [ObjDoc.render_eq, Obj.render, Obj.toCst, Cst.render] using
      next_ws pre (c := lbrace) (by decide) (ms.render ++ rbrace :: post.text)

lemma next_empty_object {d : ObjDoc} (he : d.obj.isEmpty = true) :
    ∃ w r, Next lbrace d.render w ∧ Next rbrace w r := by
  obtain ⟨pre, obj, post⟩ := d
  cases obj with
  | empty w =>
    refine ⟨w.text ++ rbrace :: post.text, post.text, ?_, next_ws w (by decide) _⟩
    simpa [ObjDoc.render_eq, Obj.render, Obj.toCst, Cst.render] using
      next_ws pre (c := lbrace) (by decide) (w.text ++ rbrace :: post.text)
  | members ms => cases he

/-! ### Wanted members -/

/-- The first wanted member of an object with distinct names is the one of that name, if its value
is of the wanted type. -/
lemma firstHit_eq {key : Bytes} (test : Option UInt8 → Bool) {l : List (Bytes × Cst)}
    (hl : (l.map Prod.fst).Nodup) : firstHit (fun k h => k == key && test h) l =
      (l.lookup key).filter fun v => test v.render.head? := by
  induction l with
  | nil => rfl
  | cons m l ih =>
    obtain ⟨k, v⟩ := m
    obtain ⟨hk, hl⟩ := List.nodup_cons.mp hl
    by_cases hkey : k = key
    · subst hkey
      rw [List.lookup_cons_self, Option.filter_some]
      split_ifs with ht
      · exact firstHit_cons_pos (by simp [ht])
      · rw [firstHit_cons_neg (by simpa using ht), ih hl]
        have hnone : l.lookup k = none := by
          rw [List.lookup_eq_none_iff]
          intro p hp
          simp only [bne_iff_ne]
          rintro rfl
          exact hk (List.mem_map.mpr ⟨p, hp, rfl⟩)
        rw [hnone]
        rfl
    · have hne : (key == k) = false := by simpa using Ne.symm hkey
      rw [firstHit_cons_neg (by simp [hkey]), ih hl, List.lookup_cons, hne]

section Scan

variable {α γ : Type} {here : Bytes → Walk Bool} {test : Option UInt8 → Bool}
  {take : Walk (Bool × α)} {out : α} {key : Bytes} {sel : Cst → Option γ} {res : γ → Bool × α}

lemma firstHit_bind (hsel : ∀ v, test v.render.head? = (sel v).isSome) (l : List (Bytes × Cst)) :
    (firstHit (fun k h => k == key && test h) l).bind sel =
      l.findSome? fun m => if m.1 == key then sel m.2 else none := by
  induction l with
  | nil => rfl
  | cons m l ih =>
    obtain ⟨k, v⟩ := m
    rw [List.findSome?_cons, ← ih]
    cases hk : k == key with
    | false => rw [firstHit_cons_neg (by simp [hk])]; rfl
    | true =>
      cases hv : sel v with
      | none =>
        rw [firstHit_cons_neg (by simp [hsel, hv])]
        simp
      | some g =>
        rw [firstHit_cons_pos (by simp [hk, hsel, hv])]
        simp [hv]

/-- What a scan that takes values of one type (`sel`) returns on an object. -/
lemma scan_first (hs : Sees here fun k h => k == key && test h)
    (hsel : ∀ v, test v.render.head? = (sel v).isSome)
    (htake : ∀ v g t, sel v = some g → Delimited t → ∃ r, Steps tape take (v.render ++ t) (res g) r)
    (d : ObjDoc) : (walk d.render (scanMembers here take out)).out =
      .ok (match d.obj.first sel key with
        | some g => res g
        | none => (!d.obj.isEmpty, out)) := by
  rw [Obj.first, ← firstHit_bind hsel]
  cases hhit : firstHit (fun k h => k == key && test h) d.obj.toList with
  | some v =>
    have htest : test v.render.head? = true := by
      obtain ⟨m, hm, rfl⟩ := Option.map_eq_some_iff.mp hhit
      have hhit := List.find?_some hm
      exact (Bool.and_eq_true_iff.mp hhit).2
    obtain ⟨g, hg⟩ := Option.isSome_iff_exists.mp ((hsel v).symm.trans htest)
    obtain ⟨t, ht, hr⟩ := reachesIn_object hhit
    obtain ⟨u, -, hu⟩ := out_scan_of_reaches hs hr
    obtain ⟨r, t', -, ho⟩ := htake v g t hg ht
    rw [hu, ho u, Option.bind_some, hg]
    rfl
  | none =>
    cases he : d.obj.isEmpty with
    | false => exact out_scan_of_absent hs (absentIn_object hhit he)
    | true =>
      obtain ⟨w, r, hw, hr⟩ := next_empty_object he
      exact out_scan_of_empty hw hr

/-- Where no name is repeated, the first value of a name and type is the one of that name. -/
lemma first_of_distinct (test : Option UInt8 → Bool)
    (hsel : ∀ v, test v.render.head? = (sel v).isSome) {o : Obj} (h : o.distinct = true) :
    o.first sel key = (o.lookup key).bind sel := by
  rw [Obj.first, ← firstHit_bind hsel, firstHit_eq test (Obj.nodup_keys h), Obj.lookup]
  cases o.toList.lookup key with
  | none => rfl
  | some v =>
    rw [Option.filter_some, hsel, Option.bind_some]
    cases hv : sel v with
    | none => rfl
    | some g => exact hv

end Scan

/-! ### Tests and values -/

/-- A number literal begins with its sign or with a digit. -/
lemma number_head (n : NumLit) : ∃ c t, n.render = c :: t ∧
    ((n.neg = true ∧ c = minus) ∨ (n.neg = false ∧ isDigit c = true)) := by
  obtain ⟨c, t, hct⟩ := List.exists_cons_of_ne_nil n.int.ne_nil
  cases hn : n.neg with
  | true =>
    exact ⟨minus, n.int.text ++ n.renderFrac ++ n.renderExp, by simp [NumLit.render, hn],
      .inl ⟨rfl, rfl⟩⟩
  | false =>
    exact ⟨c, t ++ n.renderFrac ++ n.renderExp, by simp [NumLit.render, hn, hct],
      .inr ⟨rfl, n.int.isDigit c (by simp [hct])⟩⟩

lemma number_head_ne (n : NumLit) {c : UInt8} (hc : c ≠ minus) (hd : isDigit c = false) :
    (n.render.head? == some c) = false := by
  obtain ⟨c', t, hct, h⟩ := number_head n
  rw [hct, List.head?_cons, beq_eq_false_iff_ne]
  rintro ⟨⟩
  rcases h with ⟨-, rfl⟩ | ⟨-, h⟩
  · exact hc rfl
  · rw [hd] at h
    cases h

/-- The first character tells the type of a value. -/
lemma head_string (v : Cst) : (v.render.head? == some quote) = v.asStr.isSome := by
  match v with
  | .num n => exact number_head_ne n (by decide) (by decide)
  | .bool true | .bool false => rfl
  | .null | .str _ | .emptyArr _ | .arr _ | .emptyObj _ | .obj _ => rfl

lemma head_object (v : Cst) : (v.render.head? == some lbrace) = v.asObj.isSome := by
  match v with
  | .num n => exact number_head_ne n (by decide) (by decide)
  | .bool true | .bool false => rfl
  | .null | .str _ | .emptyArr _ | .arr _ | .emptyObj _ | .obj _ => rfl

lemma head_array (v : Cst) : (v.render.head? == some lbracket) = v.asArr.isSome := by
  match v with
  | .num n => exact number_head_ne n (by decide) (by decide)
  | .bool true | .bool false => rfl
  | .null | .str _ | .emptyArr _ | .arr _ | .emptyObj _ | .obj _ => rfl

lemma head_bool (v : Cst) :
    (v.render.head? == some 0x74 || v.render.head? == some 0x66) = v.asBool.isSome := by
  match v with
  | .num n =>
    rw [Cst.render, number_head_ne n (by decide) (by decide),
      number_head_ne n (by decide) (by decide)]
    rfl
  | .bool true | .bool false => rfl
  | .null | .str _ | .emptyArr _ | .arr _ | .emptyObj _ | .obj _ => rfl

lemma head_number (v : Cst) : startsNumber v.render.head? = v.asNum.isSome := by
  match v with
  | .num n =>
    obtain ⟨c, t, hct, ⟨-, rfl⟩ | ⟨-, hc⟩⟩ := number_head n
    · simp [Cst.render, hct, startsNumber, Cst.asNum]
    · simp [Cst.render, hct, startsNumber, Cst.asNum, hc]
  | .bool true | .bool false => rfl
  | .null | .str _ | .emptyArr _ | .arr _ | .emptyObj _ | .obj _ => rfl

lemma head_digit (v : Cst) : v.render.head?.elim false isDigit = v.asUnsigned.isSome := by
  match v with
  | .num n =>
    obtain ⟨c, t, hct, ⟨hn, rfl⟩ | ⟨hn, hc⟩⟩ := number_head n
    · simp [Cst.render, hct, Cst.asUnsigned, Cst.asNum, hn, isDigit]
    · simp [Cst.render, hct, Cst.asUnsigned, Cst.asNum, hn, hc]
  | .bool true | .bool false => rfl
  | .null | .str _ | .emptyArr _ | .arr _ | .emptyObj _ | .obj _ => rfl

/-- A test that always looks at the next character. -/
lemma sees_peek {here : Bytes → Walk Bool} {key : Bytes} {test : Option UInt8 → Bool}
    (h : ∀ k, here k = peek >>= fun ch => pure (k == key && test ch)) :
    Sees here fun k c => k == key && test c where
  steps k v := by
    refine ⟨v.dropWhile isSpace, ?_, dropWhile_dropWhile v, fun _ => rfl⟩
    rw [h]
    exact steps_peek.trans steps_pure

lemma sees_numberHere (key : Bytes) : Sees (numberHere key) fun k c => k == key && startsNumber c :=
  sees_peek fun _ => rfl

lemma sees_digitHere (key : Bytes) :
    Sees (digitHere key) fun k c => k == key && c.elim false isDigit := sees_peek fun _ => rfl

lemma sees_boolHere (key : Bytes) :
    Sees (boolHere key) fun k c => k == key && (c == some 0x74 || c == some 0x66) :=
  sees_peek fun _ => rfl

/-! ### The six extractors -/

variable {v : Cst} {t : Bytes}

lemma steps_takeString {s : StrLit} (h : v.asStr = some s) :
    Steps tape takeString (v.render ++ t) (true, s.decode) t := by
  cases v <;> cases h
  rw [Cst.render, StrLit.render, List.cons_append, List.append_assoc]
  exact (reads_readStringRaw.complete _ _ (quoted_body s t)).trans (steps_isOk.trans steps_pure)

lemma steps_takeNumber {n : NumLit} (h : v.asNum = some n) (ht : Delimited t) :
    Steps tape takeNumber (v.render ++ t) (true, n.toBinary64) t := by
  cases v <;> cases h
  have hnum := steps_readNumberRaw (v := n.render ++ t)
  rw [takeWhile_number n ht, dropWhile_number n ht] at hnum
  rw [← n.strtod_render]
  exact hnum.trans (steps_isOk.trans steps_pure)

/-- What `get_uint64` makes of a number without a sign. -/
def uint64Answer (out : UInt64) (n : NumLit) : Bool × UInt64 :=
  if n.isInt then
    (true, if 2 ^ 64 ≤ readNat n.int.text then -1 else UInt64.ofNat (readNat n.int.text))
  else (false, out)

lemma steps_takeUint64 {n : NumLit} (out : UInt64) (h : v.asUnsigned = some n) (ht : Delimited t) :
    Steps tape (takeUint64 out) (v.render ++ t) (uint64Answer out n) t := by
  obtain ⟨hn, hneg⟩ := Option.filter_eq_some_iff.mp h
  cases v <;> cases hn
  have hnum := steps_readNumberRaw (v := n.render ++ t)
  rw [takeWhile_number n ht, dropWhile_number n ht] at hnum
  refine hnum.trans (steps_isOk.trans ?_)
  rw [if_neg (by simp)]
  have hrender : n.render = n.int.text ++ (n.renderFrac ++ n.renderExp) := by
    simp [NumLit.render, show n.neg = false by simpa using hneg]
  rw [hrender, strtoull_digits n.int.ne_nil n.int.isDigit n.stops_isDigit]
  simp only [n.isEmpty_renderTail, uint64Answer]
  cases hi : n.isInt with
  | true => exact steps_pure
  | false => exact steps_pure

lemma steps_takeBool {b : Bool} (h : v.asBool = some b) (ht : Delimited t) :
    Steps tape takeBool (v.render ++ t) (true, b) t := by
  cases v <;> cases h
  have hread := readsValue_render (v := .bool b) Ws.none ht (fun _ h => by cases h)
  refine (reads_readValue.complete _ _ hread).trans ?_
  exact Steps.trans steps_pure (steps_isOk.trans steps_pure)

lemma steps_takeRaw (out : Bytes) (v : Cst) (ht : Delimited t) :
    Steps tape (takeRaw out) (v.render ++ t) (true, v.render) t := by
  have hv : Skips .value (v.render ++ t) t := skips_render v Ws.none ht
  obtain ⟨s, hs, hskip⟩ := reads_skipValue.complete () t hv
  obtain rfl : v.render = s := List.append_cancel_right hs
  refine ⟨v.render, rfl, fun u => ?_⟩
  have hok : isOk.out (tape.cut (u ++ v.render) t) = .ok (true, tape.cut (u ++ v.render) t) := rfl
  rw [takeRaw, out_bind_ok out_cursor, out_bind_ok (hskip u), out_bind_ok hok,
    if_neg (by simp), out_bind_ok out_cursor, out_bind_ok out_substr]
  rfl

/-- The answer of an extractor on an object, where `x` is the member of the wanted name and type. -/
def answer {α : Type} (o : Obj) (x : Option α) (out : α) : Bool × α :=
  (x.isSome || !o.isEmpty, x.getD out)

lemma getString_first (d : ObjDoc) (key out : Bytes) : (getString d.render key out).out =
    .ok (answer d.obj ((d.obj.first Cst.asStr key).map StrLit.decode) out) := by
  rw [getString, scan_first (sees_keyIs key quote) head_string
    (fun v g t hv _ => ⟨t, steps_takeString hv⟩), answer]
  cases d.obj.first Cst.asStr key <;> simp

lemma getNumber_first (d : ObjDoc) (key : Bytes) (out : Binary64) :
    (getNumber d.render key out).out =
      .ok (answer d.obj ((d.obj.first Cst.asNum key).map NumLit.toBinary64) out) := by
  rw [getNumber, scan_first (sees_numberHere key) head_number
    (fun v g t hv ht => ⟨t, steps_takeNumber hv ht⟩), answer]
  cases d.obj.first Cst.asNum key <;> simp

lemma getUint64_first (d : ObjDoc) (key : Bytes) (out : UInt64) :
    (getUint64 d.render key out).out = .ok (match d.obj.first Cst.asUnsigned key with
      | some n => uint64Answer out n
      | none => (!d.obj.isEmpty, out)) := by
  rw [getUint64, scan_first (sees_digitHere key) head_digit
    (fun v g t hv ht => ⟨t, steps_takeUint64 out hv ht⟩)]
  cases d.obj.first Cst.asUnsigned key <;> rfl

lemma getBool_first (d : ObjDoc) (key : Bytes) (out : Bool) :
    (getBool d.render key out).out = .ok (answer d.obj (d.obj.first Cst.asBool key) out) := by
  rw [getBool, scan_first (sees_boolHere key) head_bool
    (fun v g t hv ht => ⟨t, steps_takeBool hv ht⟩), answer]
  cases d.obj.first Cst.asBool key <;> simp

lemma getObjectRaw_first (d : ObjDoc) (key out : Bytes) : (getObjectRaw d.render key out).out =
    .ok (answer d.obj ((d.obj.first Cst.asObj key).map Obj.render) out) := by
  have htake : ∀ (v : Cst) (o : Obj) t, v.asObj = some o → Delimited t →
      ∃ r, Steps tape (takeRaw out) (v.render ++ t) (true, o.render) r := by
    intro v o t hv ht
    have hraw := steps_takeRaw out v ht
    rw [Cst.asObj_eq_some hv] at hraw ⊢
    exact ⟨t, hraw⟩
  rw [getObjectRaw, scan_first (sees_keyIs key lbrace) head_object htake, answer]
  cases d.obj.first Cst.asObj key <;> simp

lemma getArrayRaw_first (d : ObjDoc) (key out : Bytes) : (getArrayRaw d.render key out).out =
    .ok (answer d.obj ((d.obj.first Cst.asArr key).map Cst.render) out) := by
  have htake : ∀ (v w : Cst) t, v.asArr = some w → Delimited t →
      ∃ r, Steps tape (takeRaw out) (v.render ++ t) (true, w.render) r := by
    intro v w t hv ht
    have hraw := steps_takeRaw out v ht
    rw [Cst.asArr_eq_some hv] at hraw ⊢
    exact ⟨t, hraw⟩
  rw [getArrayRaw, scan_first (sees_keyIs key lbracket) head_array htake, answer]
  cases d.obj.first Cst.asArr key <;> simp

section Object

variable {d : ObjDoc} (hd : d.obj.distinct = true) (key : Bytes)
include hd

/-- Where names are distinct, an extractor returns the member of its name and type, or else whether
the object has members. -/
theorem getString_object (out : Bytes) :
    (getString d.render key out).out = .ok (answer d.obj (d.obj.strAt key) out) := by
  rw [getString_first, first_of_distinct (· == some quote) head_string hd, Obj.strAt]

theorem getNumber_object (out : Binary64) : (getNumber d.render key out).out =
    .ok (answer d.obj ((d.obj.numAt key).map NumLit.toBinary64) out) := by
  rw [getNumber_first, first_of_distinct startsNumber head_number hd, Obj.numAt]

theorem getUint64_object (out : UInt64) : (getUint64 d.render key out).out =
    .ok (match (d.obj.lookup key).bind Cst.asUnsigned with
      | some n => uint64Answer out n
      | none => (!d.obj.isEmpty, out)) := by
  rw [getUint64_first, first_of_distinct (·.elim false isDigit) head_digit hd]

theorem getBool_object (out : Bool) :
    (getBool d.render key out).out = .ok (answer d.obj (d.obj.boolAt key) out) := by
  rw [getBool_first, Obj.boolAt,
    first_of_distinct (fun h => h == some 0x74 || h == some 0x66) head_bool hd]

theorem getObjectRaw_object (out : Bytes) : (getObjectRaw d.render key out).out =
    .ok (answer d.obj ((d.obj.objAt key).map Obj.render) out) := by
  rw [getObjectRaw_first, first_of_distinct (· == some lbrace) head_object hd, Obj.objAt]

theorem getArrayRaw_object (out : Bytes) : (getArrayRaw d.render key out).out =
    .ok (answer d.obj ((d.obj.arrAt key).map Cst.render) out) := by
  rw [getArrayRaw_first, first_of_distinct (· == some lbracket) head_array hd, Obj.arrAt]

end Object

end MongrelDB
