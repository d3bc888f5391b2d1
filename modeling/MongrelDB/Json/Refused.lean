import MongrelDB.Json.Compact

/-!
# Texts that the reference parser refuses

Where a value is expected, a text may begin in a way that no continuation makes up for. The parser
then refuses every text in which that value comes after complete elements or members, however deep.
-/

namespace Json

open Text

/-! ### Depth -/

/-- A parser that knows every result of another one. -/
def Extends {α : Type} (f g : Bytes → Option α) : Prop := ∀ b x, f b = some x → g b = some x

lemma extends_parseValue {n m : Nat} (he : Extends (parseElems n) (parseElems m))
    (hm : Extends (parseMembers n) (parseMembers m)) :
    Extends (parseValue (n + 1)) (parseValue (m + 1)) := by
  intro b x h
  rw [parseValue.eq_def] at h ⊢
  cases b with
  | nil => cases h
  | cons c r =>
    simp only at h ⊢
    split_ifs at h ⊢ with hq hb hb' hc hc'
    all_goals first
      | exact h
      | obtain ⟨⟨es, r'⟩, hes, h⟩ := Option.bind_eq_some_iff.mp h
        first
          | rw [he _ _ hes]; exact h
          | rw [hm _ _ hes]; exact h

lemma extends_parseElems {n m : Nat} (hv : Extends (parseValue n) (parseValue m))
    (he : Extends (parseElems n) (parseElems m)) :
    Extends (parseElems (n + 1)) (parseElems (m + 1)) := by
  intro b x h
  rw [parseElems.eq_def] at h ⊢
  obtain ⟨⟨v, r⟩, hvr, h⟩ := Option.bind_eq_some_iff.mp h
  simp only [hv _ _ hvr, Option.bind_eq_bind, Option.bind_some] at h ⊢
  split at h
  · cases h
  · split_ifs at h ⊢ with hc
    · obtain ⟨⟨es, r'⟩, hes, h⟩ := Option.bind_eq_some_iff.mp h
      rw [he _ _ hes]
      exact h
    · exact h

lemma extends_parseMembers {n m : Nat} (hv : Extends (parseValue n) (parseValue m))
    (hm : Extends (parseMembers n) (parseMembers m)) :
    Extends (parseMembers (n + 1)) (parseMembers (m + 1)) := by
  intro b x h
  rw [parseMembers.eq_def] at h ⊢
  simp only at h ⊢
  split at h
  · cases h
  · split_ifs at h ⊢
    obtain ⟨⟨k, r⟩, hk, h⟩ := Option.bind_eq_some_iff.mp h
    simp only [hk, Option.bind_eq_bind, Option.bind_some] at h ⊢
    split at h
    · cases h
    · split_ifs at h ⊢
      obtain ⟨⟨v, r'⟩, hvr, h⟩ := Option.bind_eq_some_iff.mp h
      simp only [hv _ _ hvr, Option.bind_some] at h ⊢
      split at h
      · cases h
      · split_ifs at h ⊢
        · obtain ⟨⟨ms, r''⟩, hms, h⟩ := Option.bind_eq_some_iff.mp h
          rw [hm _ _ hms]
          exact h
        · exact h

/-- A deeper parser knows the results of a shallower one. -/
lemma extends_succ (n : Nat) : Extends (parseValue n) (parseValue (n + 1)) ∧
    Extends (parseElems n) (parseElems (n + 1)) ∧
      Extends (parseMembers n) (parseMembers (n + 1)) := by
  induction n with
  | zero =>
    refine ⟨fun b x h => ?_, fun b x h => ?_, fun b x h => ?_⟩
    · cases h
    · cases h
    · cases h
  | succ n ih =>
    obtain ⟨hv, he, hm⟩ := ih
    exact ⟨extends_parseValue he hm, extends_parseElems hv he, extends_parseMembers hv hm⟩

lemma parseValue_mono {n m : Nat} (h : n ≤ m) : Extends (parseValue n) (parseValue m) := by
  induction h with
  | refl => exact fun _ _ => id
  | step _ ih => exact fun b x hx => (extends_succ _).1 b x (ih b x hx)

/-- However shallow, the parser reads a value as it is or not at all. -/
lemma parseValue_render_eq (v : Cst) {r : Bytes} (hr : Stops isNumberByte r) {n : Nat}
    {x : Tree × Bytes} (h : parseValue n (v.render ++ r) = some x) : x = (v.tree, r) := by
  have hx := parseValue_mono (Nat.le_max_left n (v.render.length + 1)) _ _ h
  rw [parseValue_render v hr (by omega)] at hx
  exact (Option.some.inj hx).symm

/-! ### Refusals -/

/-- No value can be read from the text. -/
def NoValue (b : Bytes) : Prop := ∀ n, parseValue n b = none

/-- No elements up to a closing bracket can be read from the text. -/
def NoElems (b : Bytes) : Prop := ∀ n, parseElems n b = none

/-- No members up to a closing brace can be read from the text. -/
def NoMembers (b : Bytes) : Prop := ∀ n, parseMembers n b = none

variable {b : Bytes}

lemma parse_of_noValue (h : NoValue b) (hs : Stops isSpace b) : parse b = none := by
  rw [parse, dropWhile_eq_self hs, h]

/-- A text that begins with neither a value nor a number. -/
lemma noValue_of_not_isNumber {c : UInt8} (hc : c = minus ∨ isValueHead c = false)
    (h : isNumber ((c :: b).takeWhile isNumberByte) = false) : NoValue (c :: b) := by
  have hne : c ≠ quote ∧ c ≠ lbracket ∧ c ≠ lbrace ∧ c ≠ 0x6E ∧ c ≠ 0x74 ∧ c ≠ 0x66 := by
    refine ⟨?_, ?_, ?_, ?_, ?_, ?_⟩ <;> rintro rfl <;> revert hc <;> decide
  obtain ⟨h₁, h₂, h₃, h₄, h₅, h₆⟩ := hne
  intro n
  cases n with
  | zero => rfl
  | succ n =>
    rw [parseValue.eq_def]
    simp only [if_neg h₁, if_neg h₂, if_neg h₃, if_neg h₄, if_neg h₅, if_neg h₆, h,
      Bool.false_eq_true, if_false]

lemma noValue_of_not_isValueHead {c : UInt8} (h : isValueHead c = false)
    (hc : isNumberByte c = false) : NoValue (c :: b) := by
  refine noValue_of_not_isNumber (.inr h) ?_
  rw [List.takeWhile_cons_of_neg (by simp [hc])]
  rfl

/-- A minus sign without digits. -/
lemma noValue_minus (h : Stops isNumberByte b) : NoValue (minus :: b) := by
  refine noValue_of_not_isNumber (.inl rfl) ?_
  rw [List.takeWhile_cons_of_pos (by decide), takeWhile_eq_nil h]
  decide

/-- A word that begins like `null` but is another one. -/
lemma noValue_of_ne_null (h : (0x6E :: b).take 4 ≠ ascii "null") : NoValue (0x6E :: b) := by
  intro n
  cases n with
  | zero => rfl
  | succ n =>
    rw [parseValue.eq_def]
    exact if_neg h

/-! ### Arrays -/

lemma noElems_of_noValue (h : NoValue b) (hs : Stops isSpace b) : NoElems b := by
  intro n
  cases n with
  | zero => rfl
  | succ n =>
    rw [parseElems.eq_def]
    simp only [dropWhile_eq_self hs, h n]
    rfl

lemma noElems_cons (d : Doc) (h : NoElems b) : NoElems (d.render ++ comma :: b) := by
  intro n
  cases n with
  | zero => rfl
  | succ n =>
    have hs : Stops isNumberByte (d.post.text ++ comma :: b) :=
      d.post.stops (fun c => isNumberByte_of_isSpace) (stops_cons.mpr (by decide))
    have hc : (d.post.text ++ comma :: b).dropWhile isSpace = comma :: b :=
      d.post.dropWhile_append (stops_cons.mpr (by decide))
    rw [parseElems.eq_def, Doc.render, List.append_assoc, List.append_assoc]
    simp only [d.pre.dropWhile_append (d.val.stops_isSpace _)]
    cases hv : parseValue n (d.val.render ++ (d.post.text ++ comma :: b)) with
    | none => rfl
    | some x =>
      obtain rfl := parseValue_render_eq d.val hs hv
      simp only [Option.bind_eq_bind, Option.bind_some, hc, if_true, h n]
      rfl

lemma noValue_lbracket (h : NoElems b) (hb : (b.dropWhile isSpace).head? ≠ some rbracket) :
    NoValue (lbracket :: b) := by
  intro n
  cases n with
  | zero => rfl
  | succ n =>
    rw [parseValue.eq_def]
    simp only [if_neg (show lbracket ≠ quote by decide), if_true, if_neg hb, h n]
    rfl

/-! ### Objects -/

lemma noMembers_of_noValue (k : Key) (h : NoValue b) (hs : Stops isSpace b) :
    NoMembers (k.render ++ b) := by
  intro n
  cases n with
  | zero => rfl
  | succ n =>
    rw [parseMembers_key, dropWhile_eq_self hs, h n]
    rfl

lemma noMembers_cons (k : Key) (d : Doc) (h : NoMembers b) :
    NoMembers (k.render ++ (d.render ++ comma :: b)) := by
  intro n
  cases n with
  | zero => rfl
  | succ n =>
    have hs : Stops isNumberByte (d.post.text ++ comma :: b) :=
      d.post.stops (fun c => isNumberByte_of_isSpace) (stops_cons.mpr (by decide))
    have hc : (d.post.text ++ comma :: b).dropWhile isSpace = comma :: b :=
      d.post.dropWhile_append (stops_cons.mpr (by decide))
    rw [parseMembers_key, Doc.render, List.append_assoc, List.append_assoc,
      d.pre.dropWhile_append (d.val.stops_isSpace _)]
    cases hv : parseValue n (d.val.render ++ (d.post.text ++ comma :: b)) with
    | none => rfl
    | some x =>
      obtain rfl := parseValue_render_eq d.val hs hv
      simp only [Option.bind_eq_bind, Option.bind_some, hc, if_true, h n]
      rfl

lemma noValue_lbrace (h : NoMembers b) (hb : (b.dropWhile isSpace).head? ≠ some rbrace) :
    NoValue (lbrace :: b) := by
  intro n
  cases n with
  | zero => rfl
  | succ n =>
    rw [parseValue.eq_def]
    simp only [if_neg (show lbrace ≠ quote by decide), if_neg (show lbrace ≠ lbracket by decide),
      if_true, if_neg hb, h n]
    rfl

/-! ### Lists -/

/-- Good items up to a bad one. -/
inductive Breaks {α : Type} (good bad : α → Prop) : List α → Prop
  | here {a l} : bad a → Breaks good bad (a :: l)
  | later {a l} : good a → Breaks good bad l → Breaks good bad (a :: l)

lemma breaks_of_not_forall {α : Type} {good bad P : α → Prop} {l : List α}
    (hgood : ∀ a ∈ l, P a → good a) (hbad : ∀ a ∈ l, ¬P a → bad a) (h : ¬∀ a ∈ l, P a) :
    Breaks good bad l := by
  induction l with
  | nil => exact absurd (fun a ha => by cases ha) h
  | cons a l ih =>
    obtain ⟨hg, hgood⟩ := List.forall_mem_cons.mp hgood
    obtain ⟨hb, hbad⟩ := List.forall_mem_cons.mp hbad
    by_cases ha : P a
    · exact .later (hg ha) (ih hgood hbad fun hl => h (List.forall_mem_cons.mpr ⟨ha, hl⟩))
    · exact .here (hb ha)

lemma Breaks.ne_nil {α : Type} {good bad : α → Prop} {l : List α} (h : Breaks good bad l) :
    l ≠ [] := by
  cases h <;> exact List.cons_ne_nil _ _

lemma Breaks.map {α β : Type} {good bad : β → Prop} (f : α → β) {l : List α}
    (h : Breaks (fun a => good (f a)) (fun a => bad (f a)) l) : Breaks good bad (l.map f) := by
  induction h with
  | here ha => exact .here ha
  | later ha _ ih => exact .later ha ih

/-- No value begins with this text. -/
structure NoStart (b : Bytes) : Prop where
  head : ∃ c u, b = c :: u ∧ isSpace c = false ∧ c ≠ rbracket
  noValue : ∀ t, NoValue (b ++ t)

lemma NoStart.stops (h : NoStart b) (t : Bytes) : Stops isSpace (b ++ t) := by
  obtain ⟨c, u, rfl, hc, -⟩ := h.head
  exact stops_cons.mpr hc

/-- A JSON text. -/
def IsDoc (b : Bytes) : Prop := ∃ d : Doc, d.render = b

lemma noElems_joined {l : List Bytes} (h : Breaks IsDoc NoStart l) (t : Bytes) :
    NoElems (joined l ++ t) := by
  induction h with
  | @here a l ha =>
    rw [joined_cons, List.append_assoc]
    exact noElems_of_noValue (ha.noValue _) (ha.stops _)
  | later ha h ih =>
    obtain ⟨d, rfl⟩ := ha
    rw [joined_cons_of_ne_nil _ h.ne_nil, List.append_assoc, List.cons_append]
    exact noElems_cons d ih

lemma head?_joined {l : List Bytes} (h : Breaks IsDoc NoStart l) (t : Bytes) :
    ((joined l ++ t).dropWhile isSpace).head? ≠ some rbracket := by
  cases h with
  | here ha =>
    rw [joined_cons, List.append_assoc, dropWhile_eq_self (ha.stops _)]
    obtain ⟨c, u, rfl, -, hc⟩ := ha.head
    simpa using hc
  | later ha h =>
    obtain ⟨d, rfl⟩ := ha
    obtain ⟨c, u, hcu, hc⟩ := d.val.render_head
    rw [joined_cons_of_ne_nil _ h.ne_nil, Doc.render, List.append_assoc, List.append_assoc,
      List.append_assoc, d.pre.dropWhile_append (d.val.stops_isSpace _), hcu, List.cons_append,
      List.head?_cons]
    rintro ⟨⟩
    exact absurd hc (by decide)

lemma noStart_arrayText {l : List Bytes} (h : Breaks IsDoc NoStart l) : NoStart (arrayText l) where
  head := ⟨lbracket, _, rfl, by decide, by decide⟩
  noValue t := by
    rw [arrayText, List.cons_append, List.append_assoc]
    exact noValue_lbracket (noElems_joined h _) (head?_joined h _)

lemma memberText_eq (name : StrLit) (text : Bytes) :
    memberText name text = (Key.compact name).render ++ text := by
  simp [memberText, Key.render, Key.compact, Ws.none]

lemma noMembers_joined {l : List (StrLit × Bytes)}
    (h : Breaks (fun m => IsDoc m.2) (fun m => NoStart m.2) l) (t : Bytes) :
    NoMembers (joined (l.map fun m => memberText m.1 m.2) ++ t) := by
  induction h with
  | @here m l hm =>
    rw [List.map_cons, joined_cons, memberText_eq, List.append_assoc, List.append_assoc]
    exact noMembers_of_noValue _ (hm.noValue _) (hm.stops _)
  | @later m l hm h ih =>
    obtain ⟨name, text⟩ := m
    obtain ⟨d, rfl⟩ := hm
    have hne : l.map (fun m => memberText m.1 m.2) ≠ [] := by simpa using h.ne_nil
    rw [List.map_cons, joined_cons_of_ne_nil _ hne, memberText_eq, List.append_assoc,
      List.append_assoc, List.cons_append]
    exact noMembers_cons _ d ih

lemma noStart_objectText {l : List (StrLit × Bytes)}
    (h : Breaks (fun m => IsDoc m.2) (fun m => NoStart m.2) l) : NoStart (objectText l) where
  head := ⟨lbrace, _, rfl, by decide, by decide⟩
  noValue t := by
    rw [objectText, List.cons_append, List.append_assoc]
    refine noValue_lbrace (noMembers_joined h _) ?_
    cases h with
    | here => rw [List.map_cons, joined_cons]; exact (by decide : some quote ≠ some rbrace)
    | later => rw [List.map_cons, joined_cons]; exact (by decide : some quote ≠ some rbrace)

end Json
