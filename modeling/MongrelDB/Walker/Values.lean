import MongrelDB.Walker.Strings

/-!
# What the walker takes for a value

`Skips` says what `skip_value` moves over: objects and arrays as in the grammar, but with the
walker's idea of a string, of a word and of a number, which only looks at the characters these may
consist of. `ReadsValue` says what `read_value` makes of it. Every value of the grammar is skipped
as a whole and read as what it is.
-/

namespace MongrelDB

open Text Traced Prog Json

namespace JsonParser

/-! ### Skipped values -/

inductive Kind where
  | value
  | members
  | elems

/-- A name and the colon behind it. -/
def Named (v k w : Bytes) : Prop := ∃ x y, Next quote v x ∧ Quoted x k y ∧ Next colon y w

/-- The characters of the words `true`, `false` and `null`, and some more. -/
def isWordChar (c : UInt8) : Bool := isLetter c || c == 0x5F

/-- What is moved over as a value, as the members of an object and as the elements of an array. -/
inductive Skips : Kind → Bytes → Bytes → Prop
  | string {v w s r} : Next quote v w → Quoted w s r → Skips .value v r
  | emptyObj {v w r} : Next lbrace v w → Next rbrace w r → Skips .value v r
  | obj {v w r} : Next lbrace v w → Skips .members w r → Skips .value v r
  | emptyArr {v w r} : Next lbracket v w → Next rbracket w r → Skips .value v r
  | arr {v w r} : Next lbracket v w → Skips .elems w r → Skips .value v r
  | word {v c w} : Next c v w → c = 0x74 ∨ c = 0x66 ∨ c = 0x6E →
      Skips .value v (w.dropWhile isWordChar)
  | number {v c w} : Next c v w → startsNumber (some c) = true →
      Skips .value v (w.dropWhile isNumberChar)
  | lastMember {v k w x r} : Named v k w → Skips .value w x → Next rbrace x r → Skips .members v r
  | member {v k w x y r} : Named v k w → Skips .value w x → Next comma x y → Skips .members y r →
      Skips .members v r
  | lastElem {v x r} : Skips .value v x → Next rbracket x r → Skips .elems v r
  | elem {v x y r} : Skips .value v x → Next comma x y → Skips .elems y r → Skips .elems v r

variable {α β : Type} {v w x r : Bytes}

lemma Quoted.length_lt {s : Bytes} (h : Quoted v s r) : r.length < v.length := by
  induction h with
  | close => simp
  | item _ _ ih =>
    rw [List.length_cons]
    exact lt_of_lt_of_le ih ((stringStep_length_le _ _).trans (Nat.le_succ _))

lemma Named.length_lt {k : Bytes} (h : Named v k w) : w.length < v.length := by
  obtain ⟨x, y, hx, hk, hw⟩ := h
  exact hw.length_lt.trans (hk.length_lt.trans hx.length_lt)

lemma Skips.length_lt {k : Kind} (h : Skips k v r) : r.length < v.length := by
  induction h with
  | string h hs => exact hs.length_lt.trans h.length_lt
  | emptyObj h h' | emptyArr h h' => exact h'.length_lt.trans h.length_lt
  | obj h _ ih | arr h _ ih => exact ih.trans h.length_lt
  | word h _ | number h _ =>
    exact lt_of_le_of_lt (List.dropWhile_sublist _).length_le h.length_lt
  | lastMember h _ hn ih => exact hn.length_lt.trans (ih.trans h.length_lt)
  | member h _ hn _ ih ih' => exact ih'.trans (hn.length_lt.trans (ih.trans h.length_lt))
  | lastElem _ hn ih => exact hn.length_lt.trans ih
  | elem _ hn _ ih ih' => exact ih'.trans (hn.length_lt.trans ih)

/-! ### `skip_value` -/

section Skip

variable {skip : Walk Unit} {n : Nat}

lemma flagged_skipEnd (close : UInt8) : Flagged tape (skipEnd close) :=
  flagged_isOk.bind fun _ => flagged_pure.ite <| flagged_peek.bind fun _ =>
    (flagged_advance.bind fun _ => flagged_pure).ite <|
      (flagged_advance.bind fun _ => flagged_pure).ite (flagged_fail.bind fun _ => flagged_pure)

lemma flagged_skipMember (hskip : Flagged tape skip) : Flagged tape (skipMember skip) :=
  flagged_peek.bind fun _ => (flagged_fail.bind fun _ => flagged_pure).ite <|
    flagged_readStringRaw.bind fun _ => (flagged_expect _).bind fun _ => hskip.bind fun _ =>
      flagged_skipEnd _

lemma flagged_skipElement (hskip : Flagged tape skip) : Flagged tape (skipElement skip) :=
  hskip.bind fun _ => flagged_skipEnd _

lemma flagged_skipValueN (n : Nat) : Flagged tape (skipValueN n) := by
  induction n with
  | zero => exact flagged_stop
  | succ n ih =>
    refine flagged_cursor.bind fun entry => flagged_peek.bind fun ch => ?_
    have hskip : Flagged tape
        (cursor >>= fun i => emit (.nested entry i) >>= fun _ => skipValueN n) :=
      flagged_cursor.bind fun _ => flagged_emit.bind fun _ => ih
    refine (flagged_readStringRaw.bind fun _ => flagged_pure).ite
      (Flagged.ite ?_ (Flagged.ite ?_ ?_))
    · exact flagged_advance.bind fun _ => flagged_skipWs.bind fun _ => flagged_peek.bind fun _ =>
        flagged_advance.ite (flagged_iterate (fun _ => flagged_skipMember hskip) _)
    · exact flagged_advance.bind fun _ => flagged_skipWs.bind fun _ => flagged_peek.bind fun _ =>
        flagged_advance.ite (flagged_iterate (fun _ => flagged_skipElement hskip) _)
    · exact (flagged_advanceWhile _).ite
        ((flagged_readNumberRaw.bind fun _ => flagged_pure).ite flagged_fail)

/-- A comma or the closing bracket. -/
def SkipEnd (close : UInt8) (x : Bytes) (b : Round Unit Unit) (r : Bytes) : Prop :=
  (Next comma x r ∧ b = .again ()) ∨ (Next close x r ∧ b = .done ())

lemma reads_skipEnd {close : UInt8} (hne : close ≠ comma) :
    Reads tape (skipEnd close) x (SkipEnd close x) := by
  refine steps_isOk.bind ?_
  rw [if_neg (by simp)]
  exact reads_either (fun _ => steps_advance) (fun _ => steps_advance)
    (fun _ => reads_fail.bind_false fun _ => flagged_pure) hne

/-- The name of a member, where its opening quote has been seen. -/
lemma reads_name {f : Bytes → Walk β} {H : Bytes → Bytes → β → Bytes → Prop}
    (hw : Next quote v w) (hflag : ∀ k, Flagged tape (f k))
    (hf : ∀ k x, Named v k x → Reads tape (f k) x (H k x)) :
    Reads tape (readStringRaw >>= fun k => expect colon >>= fun _ => f k) (quote :: w)
      fun b r => ∃ k x, Named v k x ∧ H k x b r := by
  refine (reads_readStringRaw.bind (fun k => (flagged_expect _).bind fun _ => hflag k)
    fun k y hk => reads_expect.bind (fun _ => hflag k) fun _ x hx =>
      hf k x ⟨w, y, hw, hk, hx⟩).congr fun b r => ⟨?_, ?_⟩
  · rintro ⟨k, y, hk, -, x, hx, hb⟩
    exact ⟨k, x, ⟨w, y, hw, hk, hx⟩, hb⟩
  · rintro ⟨k, x, ⟨w', y, hw', hk, hx⟩, hb⟩
    obtain ⟨-, rfl⟩ := hw'.unique hw
    exact ⟨k, y, hk, (), x, hx, hb⟩

def SkipMember (v : Bytes) (b : Round Unit Unit) (r : Bytes) : Prop :=
  ∃ k w x, Named v k w ∧ Skips .value w x ∧ SkipEnd rbrace x b r

def SkipElement (v : Bytes) (b : Round Unit Unit) (r : Bytes) : Prop :=
  ∃ x, Skips .value v x ∧ SkipEnd rbracket x b r

lemma reads_skipMember (hflag : Flagged tape skip)
    (hskip : ∀ w, w.length < n → Reads tape skip w fun _ r => Skips .value w r)
    (hn : v.length < n) : Reads tape (skipMember skip) v (SkipMember v) := by
  refine reads_unless (fun hno => ?_) fun w hw => ?_
  · refine (reads_fail.bind_false fun _ => flagged_pure).congr fun b r => ⟨False.elim, ?_⟩
    rintro ⟨k, w, x, ⟨w', -, hw', -⟩, -⟩
    exact hno w' hw'
  · refine (reads_name hw (fun _ => hflag.bind fun _ => flagged_skipEnd _) fun k x hk =>
      (hskip x (hk.length_lt.trans hn)).bind (fun _ => flagged_skipEnd _)
        fun _ y _ => reads_skipEnd (by decide)).congr fun b r => ?_
    simp only [SkipMember, exists_const, exists_and_left]

lemma reads_skipElement
    (hskip : ∀ w, w.length < n → Reads tape skip w fun _ r => Skips .value w r)
    (hn : v.length < n) : Reads tape (skipElement skip) v (SkipElement v) :=
  ((hskip v hn).bind (fun _ => flagged_skipEnd _) fun _ _ _ => reads_skipEnd (by decide)).congr
    fun b r => by simp only [SkipElement, exists_const]

lemma SkipMember.length_lt {b : Round Unit Unit} (h : SkipMember v b r) : r.length < v.length := by
  obtain ⟨k, w, x, hk, hw, ⟨hr, -⟩ | ⟨hr, -⟩⟩ := h
  all_goals exact hr.length_lt.trans (hw.length_lt.trans hk.length_lt)

lemma SkipElement.length_lt {b : Round Unit Unit} (h : SkipElement v b r) :
    r.length < v.length := by
  obtain ⟨x, hx, ⟨hr, -⟩ | ⟨hr, -⟩⟩ := h
  all_goals exact hr.length_lt.trans hx.length_lt

lemma rounds_skipMember (g u : Unit) :
    Rounds (fun _ => SkipMember) g v u r ↔ Skips .members v r := by
  constructor
  · intro h
    induction h with
    | done h =>
      obtain ⟨k, w, x, hk, hw, ⟨-, hb⟩ | ⟨hr, -⟩⟩ := h
      · cases hb
      · exact .lastMember hk hw hr
    | again h _ ih =>
      obtain ⟨k, w, x, hk, hw, ⟨hr, -⟩ | ⟨-, hb⟩⟩ := h
      · exact .member hk hw hr ih
      · cases hb
  · intro h
    generalize hkind : Kind.members = kind at h
    induction h with
    | lastMember hk hw hr => exact .done ⟨_, _, _, hk, hw, .inr ⟨hr, rfl⟩⟩
    | member hk hw hr _ _ ih => exact .again ⟨_, _, _, hk, hw, .inl ⟨hr, rfl⟩⟩ (ih hkind)
    | _ => cases hkind

lemma rounds_skipElement (g u : Unit) :
    Rounds (fun _ => SkipElement) g v u r ↔ Skips .elems v r := by
  constructor
  · intro h
    induction h with
    | done h =>
      obtain ⟨x, hx, ⟨-, hb⟩ | ⟨hr, -⟩⟩ := h
      · cases hb
      · exact .lastElem hx hr
    | again h _ ih =>
      obtain ⟨x, hx, ⟨hr, -⟩ | ⟨-, hb⟩⟩ := h
      · exact .elem hx hr ih
      · cases hb
  · intro h
    generalize hkind : Kind.elems = kind at h
    induction h with
    | lastElem hx hr => exact .done ⟨_, hx, .inr ⟨hr, rfl⟩⟩
    | elem hx hr _ _ ih => exact .again ⟨_, hx, .inl ⟨hr, rfl⟩⟩ (ih hkind)
    | _ => cases hkind

end Skip

lemma isNumberChar_of_startsNumber {c : UInt8} (h : startsNumber (some c) = true) :
    isNumberChar c = true := by
  simp only [startsNumber, Option.elim_some, Bool.or_eq_true, beq_iff_eq] at h
  rcases h with rfl | h <;> simp [isNumberChar, *]

/-- The first character decides what is skipped. -/
lemma Next.skips_iff {c : UInt8} (h : Next c v w) : Skips .value v r ↔
    (c = quote ∧ ∃ s, Quoted w s r) ∨ (c = lbrace ∧ (Next rbrace w r ∨ Skips .members w r)) ∨
      (c = lbracket ∧ (Next rbracket w r ∨ Skips .elems w r)) ∨
      ((c = 0x74 ∨ c = 0x66 ∨ c = 0x6E) ∧ r = w.dropWhile isWordChar) ∨
      (startsNumber (some c) = true ∧ r = w.dropWhile isNumberChar) := by
  constructor
  · generalize hk : Kind.value = k
    intro hs
    cases hs with
    | string h' hq =>
      obtain ⟨rfl, rfl⟩ := h.unique h'
      exact .inl ⟨rfl, _, hq⟩
    | emptyObj h' hn =>
      obtain ⟨rfl, rfl⟩ := h.unique h'
      exact .inr (.inl ⟨rfl, .inl hn⟩)
    | obj h' hm =>
      obtain ⟨rfl, rfl⟩ := h.unique h'
      exact .inr (.inl ⟨rfl, .inr hm⟩)
    | emptyArr h' hn =>
      obtain ⟨rfl, rfl⟩ := h.unique h'
      exact .inr (.inr (.inl ⟨rfl, .inl hn⟩))
    | arr h' he =>
      obtain ⟨rfl, rfl⟩ := h.unique h'
      exact .inr (.inr (.inl ⟨rfl, .inr he⟩))
    | word h' hc =>
      obtain ⟨rfl, rfl⟩ := h.unique h'
      exact .inr (.inr (.inr (.inl ⟨hc, rfl⟩)))
    | number h' hc =>
      obtain ⟨rfl, rfl⟩ := h.unique h'
      exact .inr (.inr (.inr (.inr ⟨hc, rfl⟩)))
    | _ => cases hk
  · rintro (⟨rfl, s, hq⟩ | ⟨rfl, hn | hm⟩ | ⟨rfl, hn | he⟩ | ⟨hc, rfl⟩ | ⟨hc, rfl⟩)
    · exact .string h hq
    · exact .emptyObj h hn
    · exact .obj h hm
    · exact .emptyArr h hn
    · exact .arr h he
    · exact .word h hc
    · exact .number h hc

lemma not_skips_nil {v r : Bytes} (h : v.dropWhile isSpace = []) : ¬Skips .value v r := by
  generalize hk : Kind.value = k
  intro hs
  cases hs with
  | string h' _ | emptyObj h' _ | obj h' _ | emptyArr h' _ | arr h' _ | word h' _ | number h' _ =>
    rw [Next, h] at h'
    cases h'
  | _ => cases hk

lemma dropWhile_dropWhile (v : Bytes) :
    (v.dropWhile isSpace).dropWhile isSpace = v.dropWhile isSpace :=
  dropWhile_eq_self (stops_dropWhile isSpace v)

lemma Named.congr {k v' : Bytes} (hv : v.dropWhile isSpace = v'.dropWhile isSpace)
    (h : Named v k w) : Named v' k w := by
  obtain ⟨x, y, hx, hy⟩ := h
  exact ⟨x, y, by rwa [Next, ← hv], hy⟩

/-- White space in front makes no difference. -/
lemma Skips.congr {k : Kind} {v' : Bytes} (hv : v.dropWhile isSpace = v'.dropWhile isSpace)
    (h : Skips k v r) : Skips k v' r := by
  have hnext : ∀ {c w}, Next c v w → Next c v' w := fun {c w} hw => by rwa [Next, ← hv]
  have hnamed : ∀ {k w}, Named v k w → Named v' k w := fun {k w} => Named.congr hv
  induction h with
  | string h hs => exact .string (hnext h) hs
  | emptyObj h h' => exact .emptyObj (hnext h) h'
  | obj h h' => exact .obj (hnext h) h'
  | emptyArr h h' => exact .emptyArr (hnext h) h'
  | arr h h' => exact .arr (hnext h) h'
  | word h hc => exact .word (hnext h) hc
  | number h hc => exact .number (hnext h) hc
  | lastMember h h₁ h₂ => exact .lastMember (hnamed h) h₁ h₂
  | member h h₁ h₂ h₃ => exact .member (hnamed h) h₁ h₂ h₃
  | lastElem _ h₂ ih => exact .lastElem (ih hv hnext hnamed) h₂
  | elem _ h₂ h₃ ih => exact .elem (ih hv hnext hnamed) h₂ h₃

lemma skips_dropWhile {k : Kind} : Skips k (v.dropWhile isSpace) r ↔ Skips k v r :=
  ⟨.congr (dropWhile_dropWhile v), .congr (dropWhile_dropWhile v).symm⟩

/-- The bracket that closes an empty object or array, or else the loop. -/
lemma reads_brackets {close c : UInt8} {loop : Walk Unit} {M : Bytes → Prop}
    (hloop : Reads tape loop (v.dropWhile isSpace) fun _ r => M r)
    (hM : ∀ r r', Next close v r → ¬M r') :
    Reads tape (advance >>= fun _ => skipWs >>= fun _ => peek >>= fun o =>
      if o == some close then advance else loop) (c :: v) fun _ r => Next close v r ∨ M r := by
  refine steps_advance.bind (steps_skipWs.bind (steps_peek.bind ?_))
  rw [dropWhile_dropWhile]
  by_cases h : ∃ w, Next close v w
  · obtain ⟨w, hw⟩ := h
    rw [hw, if_pos (by simp)]
    refine steps_advance.reads.congr fun _ r => ⟨?_, ?_⟩
    · rintro ⟨-, rfl⟩
      exact .inl hw
    · rintro (hr | hr)
      · exact ⟨rfl, (hr.unique hw).2⟩
      · exact absurd hr (hM w r hw)
  · rw [if_neg]
    · exact hloop.congr fun _ r => ⟨.inr, Or.rec (fun hr => absurd ⟨r, hr⟩ h) id⟩
    · exact fun hc => h (List.head?_eq_some_iff.mp (by simpa using hc))

lemma not_members_of_next {r' : Bytes} (h : Next rbrace v r) : ¬Skips .members v r' := by
  intro hs
  have hnamed : ∀ {k w}, ¬Named v k w := by
    rintro k w ⟨x, y, hx, -⟩
    exact absurd (hx.unique h).1 (by decide)
  generalize hk : Kind.members = k at hs
  cases hs with
  | lastMember h' _ _ | member h' _ _ _ => exact hnamed h'
  | _ => cases hk

lemma not_elems_of_next {r' : Bytes} (h : Next rbracket v r) : ¬Skips .elems v r' := by
  intro hs
  have hvalue : ∀ {x}, ¬Skips .value v x := by
    intro x hx
    rw [h.skips_iff] at hx
    revert hx
    simp [startsNumber, isDigit]
  generalize hk : Kind.elems = k at hs
  cases hs with
  | lastElem h' _ | elem h' _ _ => exact hvalue h'
  | _ => cases hk

/-- Nested at most `n` deep is enough for a text shorter than `n`. -/
lemma reads_skipValueN {n : Nat} (hn : v.length < n) :
    Reads tape (skipValueN n) v fun _ r => Skips .value v r := by
  induction n generalizing v with
  | zero => exact absurd hn (Nat.not_lt_zero _)
  | succ n ih =>
    refine reads_cursor_bind fun entry => steps_peek.bind ?_
    -- the recursive call
    have hflag : Flagged tape
        (cursor >>= fun i => emit (.nested entry i) >>= fun _ => skipValueN n) :=
      flagged_cursor.bind fun _ => flagged_emit.bind fun _ => flagged_skipValueN n
    have hskip : ∀ w : Bytes, w.length < n → Reads tape
        (cursor >>= fun i => emit (.nested entry i) >>= fun _ => skipValueN n) w
        fun _ r => Skips .value w r :=
      fun w hw => reads_cursor_bind fun i => steps_emit.bind (ih hw)
    cases hv : v.dropWhile isSpace with
    | nil => exact reads_fail.congr fun _ r => ⟨False.elim, fun h => not_skips_nil hv h⟩
    | cons c w =>
      have hnext : Next c v w := hv
      have hw : (w.dropWhile isSpace).length < n :=
        lt_of_le_of_lt (List.dropWhile_sublist _).length_le (by have := hnext.length_lt; omega)
      -- a string
      by_cases h₁ : c = quote
      · subst h₁
        rw [if_pos (by simp)]
        refine (reads_readStringRaw.bind (fun _ => flagged_pure) fun _ _ _ => reads_pure).congr
          fun _ r => ?_
        rw [hnext.skips_iff]
        simp [startsNumber, isDigit]
      rw [if_neg (by simpa using h₁)]
      -- an object
      by_cases h₂ : c = lbrace
      · subst h₂
        rw [if_pos (by simp)]
        refine (reads_brackets (M := Skips .members w) ?_ fun _ _ => not_members_of_next).congr
          fun _ r => ?_
        · refine (reads_iterate (I := fun v => v.length < n)
            (fun _ v => reads_skipMember hflag hskip)
            (fun _ => flagged_skipMember hflag) (fun _ v _ w hv h => ?_) () hw).congr fun _ r => ?_
          · exact ⟨h.length_lt.trans hv, h.length_lt⟩
          · rw [rounds_skipMember, skips_dropWhile]
        · rw [hnext.skips_iff]
          simp [startsNumber, isDigit]
      rw [if_neg (by simpa using h₂)]
      -- an array
      by_cases h₃ : c = lbracket
      · subst h₃
        rw [if_pos (by simp)]
        refine (reads_brackets (M := Skips .elems w) ?_ fun _ _ => not_elems_of_next).congr
          fun _ r => ?_
        · refine (reads_iterate (I := fun v => v.length < n) (fun _ v => reads_skipElement hskip)
            (fun _ => flagged_skipElement hflag) (fun _ v _ w hv h => ?_) () hw).congr fun _ r => ?_
          · exact ⟨h.length_lt.trans hv, h.length_lt⟩
          · rw [rounds_skipElement, skips_dropWhile]
        · rw [hnext.skips_iff]
          simp [startsNumber, isDigit]
      rw [if_neg (by simpa using h₃)]
      -- a word
      by_cases h₄ : c = 0x74 ∨ c = 0x66 ∨ c = 0x6E
      · have hword : isWordChar c = true := by
          rcases h₄ with rfl | rfl | rfl <;> decide
        have hnum : startsNumber (some c) = false := by
          rcases h₄ with rfl | rfl | rfl <;> decide
        rw [if_pos (by simpa [or_assoc] using h₄)]
        refine (steps_advanceWhile isWordChar).reads.congr fun _ r => ?_
        rw [hnext.skips_iff, List.dropWhile_cons_of_pos hword]
        simp [h₁, h₂, h₃, h₄, hnum]
      rw [if_neg (by simpa [or_assoc] using h₄)]
      -- a number, or no value at all
      by_cases h₅ : startsNumber (some c) = true
      · have hnum := isNumberChar_of_startsNumber h₅
        rw [List.head?_cons, if_pos h₅]
        refine (steps_readNumberRaw.trans (f := fun _ => pure ()) steps_pure).reads.congr
          fun _ r => ?_
        rw [hnext.skips_iff, List.dropWhile_cons_of_pos hnum]
        simp [h₁, h₂, h₃, h₄, h₅]
      · rw [List.head?_cons, if_neg h₅]
        refine reads_fail.congr fun _ r => ?_
        rw [hnext.skips_iff]
        simp [h₁, h₂, h₃, h₄, h₅]

lemma reads_skipValue : Reads tape skipValue v fun _ r => Skips .value v r :=
  reads_get_bind fun u => reads_skipValueN (by rw [tape_cut_length]; omega)

/-! ### `read_value` -/

/-- What a number is read as. -/
def numberValue (num : Bytes) : Value :=
  if isIntegerText num then .int64 (strtoll num) else .double (Binary64.strtod num)

/-- The value that is read, and the text that is left. -/
def ReadsValue (v : Bytes) (a : Value) (r : Bytes) : Prop :=
  ∃ c w, Next c v w ∧
    ((c = quote ∧ ∃ s, Quoted w s r ∧ a = .string s) ∨
      ((c = lbrace ∨ c = lbracket) ∧ Skips .value v r ∧ ∃ t, c :: w = t ++ r ∧ a = .json t) ∨
      ((c = 0x74 ∨ c = 0x66) ∧ a = .bool (c :: w.takeWhile isLetter == ascii "true") ∧
        r = w.dropWhile isLetter) ∨
      (c = 0x6E ∧ a = .null ∧ r = w.dropWhile isLower) ∨
      (startsNumber (some c) = true ∧ a = numberValue (c :: w.takeWhile isNumberChar) ∧
        r = w.dropWhile isNumberChar))

lemma Next.readsValue_iff {c : UInt8} {a : Value} (h : Next c v w) : ReadsValue v a r ↔
    (c = quote ∧ ∃ s, Quoted w s r ∧ a = .string s) ∨
      ((c = lbrace ∨ c = lbracket) ∧ Skips .value v r ∧ ∃ t, c :: w = t ++ r ∧ a = .json t) ∨
      ((c = 0x74 ∨ c = 0x66) ∧ a = .bool (c :: w.takeWhile isLetter == ascii "true") ∧
        r = w.dropWhile isLetter) ∨
      (c = 0x6E ∧ a = .null ∧ r = w.dropWhile isLower) ∨
      (startsNumber (some c) = true ∧ a = numberValue (c :: w.takeWhile isNumberChar) ∧
        r = w.dropWhile isNumberChar) := by
  constructor
  · rintro ⟨c', w', h', hr⟩
    obtain ⟨rfl, rfl⟩ := h.unique h'
    exact hr
  · exact fun hr => ⟨c, w, h, hr⟩

lemma cons_eq_append_dropWhile {p : UInt8 → Bool} {c : UInt8} {t : Bytes} :
    c :: w = t ++ w.dropWhile p ↔ t = c :: w.takeWhile p := by
  have h : c :: w = (c :: w.takeWhile p) ++ w.dropWhile p := by
    rw [List.cons_append, List.takeWhile_append_dropWhile]
  constructor
  · intro ht
    exact (List.append_cancel_right (ht.symm.trans h))
  · rintro rfl
    exact h

lemma reads_readValue : Reads tape readValue v (ReadsValue v) := by
  refine steps_peek.bind ?_
  cases hv : v.dropWhile isSpace with
  | nil =>
    refine (reads_fail.bind_false fun _ => flagged_pure).congr fun a r => ⟨False.elim, ?_⟩
    rintro ⟨c, w, h, -⟩
    rw [Next, hv] at h
    cases h
  | cons c w =>
    have hnext : Next c v w := hv
    -- a string
    by_cases h₁ : c = quote
    · subst h₁
      rw [if_pos (by simp)]
      refine (reads_readStringRaw.bind (fun _ => flagged_pure) fun _ _ _ => reads_pure).congr
        fun a r => ?_
      rw [hnext.readsValue_iff]
      simp [startsNumber, isDigit]
    rw [if_neg (by simpa using h₁)]
    -- an object or an array, kept as text
    by_cases h₂ : c = lbrace ∨ c = lbracket
    · have hother : c ≠ 0x74 ∧ c ≠ 0x66 ∧ c ≠ 0x6E ∧ startsNumber (some c) = false := by
        rcases h₂ with rfl | rfl <;> decide
      rw [if_pos (by simpa using h₂)]
      refine (reads_span reads_skipValue (fun _ => flagged_pure) fun t w _ _ => reads_pure).congr
        fun a r => ?_
      rw [hnext.readsValue_iff, ← skips_dropWhile (v := v), hv]
      simp [h₁, h₂, hother]
      grind
    rw [if_neg (by simpa using h₂)]
    -- `true` or `false`
    by_cases h₃ : c = 0x74 ∨ c = 0x66
    · have hother : c ≠ 0x6E ∧ startsNumber (some c) = false ∧ isLetter c = true := by
        rcases h₃ with rfl | rfl <;> decide
      rw [if_pos (by simpa using h₃)]
      refine (reads_span (steps_advanceWhile isLetter).reads (fun _ => flagged_pure)
        fun t w _ _ => reads_pure).congr fun a r => ?_
      rw [hnext.readsValue_iff, List.dropWhile_cons_of_pos hother.2.2]
      simp [h₁, h₂, h₃, hother, cons_eq_append_dropWhile]
    rw [if_neg (by simpa using h₃)]
    -- `null`
    by_cases h₄ : c = 0x6E
    · subst h₄
      rw [if_pos (by simp)]
      refine (Steps.trans (f := fun _ => pure Value.null) (steps_advanceWhile isLower)
        steps_pure).reads.congr fun a r => ?_
      rw [hnext.readsValue_iff, List.dropWhile_cons_of_pos (by decide)]
      simp [startsNumber, isDigit]
    rw [if_neg (by simpa using h₄)]
    -- a number, or no value at all
    by_cases h₅ : startsNumber (some c) = true
    · have hnum := isNumberChar_of_startsNumber h₅
      rw [List.head?_cons, if_pos h₅]
      have h : Reads tape (readNumberRaw >>= fun num => if isIntegerText num then
          pure (.int64 (strtoll num)) else pure (.double (Binary64.strtod num))) (c :: w)
          fun a r => a = numberValue ((c :: w).takeWhile isNumberChar) ∧
            r = (c :: w).dropWhile isNumberChar := by
        refine steps_readNumberRaw.bind ?_
        rw [numberValue]
        split_ifs <;> exact reads_pure
      refine h.congr fun a r => ?_
      rw [hnext.readsValue_iff, List.dropWhile_cons_of_pos hnum, List.takeWhile_cons_of_pos hnum]
      simp [h₁, h₂, h₃, h₄, h₅]
    · rw [List.head?_cons, if_neg h₅]
      refine (reads_fail.bind_false fun _ => flagged_pure).congr fun a r => ?_
      rw [hnext.readsValue_iff]
      simp [h₁, h₂, h₃, h₄, h₅]

/-! ### What is read is determined by the text -/

lemma Quoted.unique {s s' r' : Bytes} (h : Quoted v s r) (h' : Quoted v s' r') :
    s = s' ∧ r = r' := reads_unique reads_readStringRaw h h'

lemma Named.unique {k k' w' : Bytes} (h : Named v k w) (h' : Named v k' w') :
    k = k' ∧ w = w' := by
  obtain ⟨x, y, hx, hk, hw⟩ := h
  obtain ⟨x', y', hx', hk', hw'⟩ := h'
  obtain ⟨-, rfl⟩ := hx.unique hx'
  obtain ⟨rfl, rfl⟩ := hk.unique hk'
  exact ⟨rfl, (hw.unique hw').2⟩

lemma Skips.unique {r' : Bytes} (h : Skips .value v r) (h' : Skips .value v r') : r = r' :=
  (reads_unique reads_skipValue (a := ()) (b := ()) h h').2

lemma ReadsValue.unique {a a' : Value} {r' : Bytes} (h : ReadsValue v a r)
    (h' : ReadsValue v a' r') : a = a' ∧ r = r' := reads_unique reads_readValue h h'

end JsonParser

end MongrelDB
