import MongrelDB.Walker.Relaxed

/-!
# The tokens of a text

The strings, numbers and words of a text one after the other, as far as the walker takes each of
them to go, whatever brackets, commas and colons stand between them. What is skipped is a JSON value
exactly if all its tokens are legal: the walker is strict about everything but tokens.
-/

namespace MongrelDB

open Text Traced Prog Json

namespace JsonParser

inductive Token where
  | string (t : Bytes)
  | number (t : Bytes)
  | word (t : Bytes)

/-- Tokens that JSON texts have. -/
def Token.Legal : Token → Prop
  | .string t => ∃ s : StrLit, s.render = t
  | .number t => ∃ n : NumLit, n.render = t
  | .word t => t = ascii "true" ∨ t = ascii "false" ∨ t = ascii "null"

/-- What stands between tokens. -/
def isSeparator (c : UInt8) : Bool :=
  isSpace c || c == lbrace || c == rbrace || c == lbracket || c == rbracket || c == comma ||
    c == colon

/-- The text `v` consists of these tokens up to `r`. -/
inductive Lexed : Bytes → List Token → Bytes → Prop
  | done {r} : Lexed r [] r
  | separator {c v l r} : isSeparator c = true → Lexed v l r → Lexed (c :: v) l r
  | string {v t s w l r} : Quoted v s w → v = t ++ w → Lexed w l r →
      Lexed (quote :: v) (.string (quote :: t) :: l) r
  | number {c v l r} : startsNumber (some c) = true → Lexed (v.dropWhile isNumberChar) l r →
      Lexed (c :: v) (.number (c :: v.takeWhile isNumberChar) :: l) r
  | word {c v l r} : c = 0x74 ∨ c = 0x66 ∨ c = 0x6E → Lexed (v.dropWhile isWordChar) l r →
      Lexed (c :: v) (.word (c :: v.takeWhile isWordChar) :: l) r

variable {v w r : Bytes} {l l' : List Token}

/-! ### The tokens are determined by the text -/

lemma isSeparator_of_startsNumber {c : UInt8} (h : startsNumber (some c) = true) :
    isSeparator c = false ∧ c ≠ quote ∧ ¬(c = 0x74 ∨ c = 0x66 ∨ c = 0x6E) := by
  have hs := isSpace_of_startsNumber h
  refine ⟨?_, ?_, ?_⟩
  · simp only [isSeparator, hs, Bool.false_or, Bool.or_eq_false_iff, beq_eq_false_iff_ne]
    refine ⟨⟨⟨⟨⟨?_, ?_⟩, ?_⟩, ?_⟩, ?_⟩, ?_⟩ <;> rintro rfl <;> exact absurd h (by decide)
  · rintro rfl
    exact absurd h (by decide)
  · rintro (rfl | rfl | rfl) <;> exact absurd h (by decide)

lemma isSeparator_of_word {c : UInt8} (h : c = 0x74 ∨ c = 0x66 ∨ c = 0x6E) :
    isSeparator c = false ∧ c ≠ quote := by
  rcases h with rfl | rfl | rfl <;> decide

lemma Lexed.length_le (h : Lexed v l r) : r.length ≤ v.length := by
  induction h with
  | done => exact le_rfl
  | separator _ _ ih => exact ih.trans (Nat.le_succ _)
  | string hq _ _ ih => exact ih.trans (hq.length_lt.le.trans (Nat.le_succ _))
  | number _ _ ih | word _ _ ih =>
    exact ih.trans ((List.dropWhile_sublist _).length_le.trans (Nat.le_succ _))

/-- Behind its first byte a text is too short to go on to itself. -/
lemma not_lexed_cons {c : UInt8} (hw : w.length ≤ v.length) : ¬Lexed w l (c :: v) := by
  intro h
  have hle := h.length_le
  rw [List.length_cons] at hle
  omega

theorem Lexed.unique (h : Lexed v l r) (h' : Lexed v l' r) : l = l' := by
  -- The first byte tells what the first token is, and nothing is read of a text that has ended.
  induction h generalizing l' with
  | done =>
    cases h' with
    | done => rfl
    | separator _ h => exact absurd h (not_lexed_cons le_rfl)
    | string hq _ h => exact absurd h (not_lexed_cons hq.length_lt.le)
    | number _ h | word _ h =>
      exact absurd h (not_lexed_cons (List.dropWhile_sublist _).length_le)
  | separator hc h ih =>
    cases h' with
    | done => exact absurd h (not_lexed_cons le_rfl)
    | separator _ h' => exact ih h'
    | string _ _ _ => exact absurd hc (by decide)
    | number hn _ => rw [(isSeparator_of_startsNumber hn).1] at hc; cases hc
    | word hw _ => rw [(isSeparator_of_word hw).1] at hc; cases hc
  | string hq ht h ih =>
    cases h' with
    | done => exact absurd h (not_lexed_cons hq.length_lt.le)
    | separator hc _ => exact absurd hc (by decide)
    | string hq' ht' h' =>
      obtain ⟨-, rfl⟩ := hq.unique hq'
      rw [ht] at ht'
      rw [List.append_cancel_right ht', ih h']
    | number hn _ => exact absurd rfl (isSeparator_of_startsNumber hn).2.1
    | word hw _ => exact absurd rfl (isSeparator_of_word hw).2
  | number hn h ih =>
    cases h' with
    | done => exact absurd h (not_lexed_cons (List.dropWhile_sublist _).length_le)
    | separator hc _ => rw [(isSeparator_of_startsNumber hn).1] at hc; cases hc
    | string _ _ _ => exact absurd rfl (isSeparator_of_startsNumber hn).2.1
    | number _ h' => rw [ih h']
    | word hw _ => exact absurd hw (isSeparator_of_startsNumber hn).2.2
  | word hw h ih =>
    cases h' with
    | done => exact absurd h (not_lexed_cons (List.dropWhile_sublist _).length_le)
    | separator hc _ => rw [(isSeparator_of_word hw).1] at hc; cases hc
    | string _ _ _ => exact absurd rfl (isSeparator_of_word hw).2
    | number hn _ => exact absurd hw (isSeparator_of_startsNumber hn).2.2
    | word _ h' => rw [ih h']

lemma Lexed.trans (h : Lexed v l w) (h' : Lexed w l' r) : Lexed v (l ++ l') r := by
  induction h with
  | done => exact h'
  | separator hc _ ih => exact .separator hc (ih h')
  | string hq ht _ ih => exact .string hq ht (ih h')
  | number hc _ ih => exact .number hc (ih h')
  | word hc _ ih => exact .word hc (ih h')

lemma Lexed.ws (pre : Ws) (h : Lexed v l r) : Lexed (pre.text ++ v) l r := by
  obtain ⟨w, hw⟩ := pre
  induction w with
  | nil => exact h
  | cons c w ih =>
    obtain ⟨hc, hw⟩ := List.forall_mem_cons.mp hw
    exact .separator (by simp [isSeparator, hc]) (ih hw)

/-! ### What is skipped and has legal tokens is JSON -/

/-- A value, the elements of an array or the members of an object, up to `r`. -/
def Kind.Built : Kind → Bytes → Bytes → Prop
  | .value, v, r => ∃ (pre : Ws) (c : Cst), v = pre.text ++ (c.render ++ r)
  | .elems, v, r => ∃ es : Elems, v = es.render ++ rbracket :: r
  | .members, v, r => ∃ ms : Members, v = ms.render ++ rbrace :: r

lemma Named.lexed {k : Bytes} (h : Named v k w) :
    ∃ x, Lexed v [x] w ∧ (x.Legal → ∃ key : Key, v = key.render ++ w) := by
  obtain ⟨x, y, hx, hq, hy⟩ := h
  obtain ⟨before, rfl⟩ := hx.exists_ws
  obtain ⟨after, rfl⟩ := hy.exists_ws
  obtain ⟨t, rfl⟩ := hq.exists_eq
  refine ⟨.string (quote :: t), .ws before (.string hq rfl (.ws after (.separator rfl .done))), ?_⟩
  rintro ⟨s, hs⟩
  refine ⟨⟨before, s, after⟩, ?_⟩
  simp [Key.render, hs]

lemma Skips.lexed {k : Kind} (h : Skips k v r) :
    ∃ l, Lexed v l r ∧ ((∀ x ∈ l, x.Legal) → k.Built v r) := by
  -- Each case gives the tokens, and the value or the list that they build if they are legal.
  induction h with
  | string hv hq =>
    obtain ⟨pre, rfl⟩ := hv.exists_ws
    obtain ⟨t, rfl⟩ := hq.exists_eq
    refine ⟨[.string (quote :: t)], .ws pre (.string hq rfl .done), fun hl => ?_⟩
    obtain ⟨s, hs⟩ := hl _ (List.mem_singleton_self _)
    exact ⟨pre, .str s, by simp [Cst.render, hs]⟩
  | emptyObj hv hw =>
    obtain ⟨pre, rfl⟩ := hv.exists_ws
    obtain ⟨w, rfl⟩ := hw.exists_ws
    refine ⟨[], .ws pre (.separator rfl (.ws w (.separator rfl .done))), fun _ => ?_⟩
    exact ⟨pre, .emptyObj w, by simp [Cst.render]⟩
  | obj hv _ ih =>
    obtain ⟨pre, rfl⟩ := hv.exists_ws
    obtain ⟨l, hl, hb⟩ := ih
    refine ⟨l, .ws pre (.separator rfl hl), fun h => ?_⟩
    obtain ⟨ms, rfl⟩ := hb h
    exact ⟨pre, .obj ms, by simp [Cst.render]⟩
  | emptyArr hv hw =>
    obtain ⟨pre, rfl⟩ := hv.exists_ws
    obtain ⟨w, rfl⟩ := hw.exists_ws
    refine ⟨[], .ws pre (.separator rfl (.ws w (.separator rfl .done))), fun _ => ?_⟩
    exact ⟨pre, .emptyArr w, by simp [Cst.render]⟩
  | arr hv _ ih =>
    obtain ⟨pre, rfl⟩ := hv.exists_ws
    obtain ⟨l, hl, hb⟩ := ih
    refine ⟨l, .ws pre (.separator rfl hl), fun h => ?_⟩
    obtain ⟨es, rfl⟩ := hb h
    exact ⟨pre, .arr es, by simp [Cst.render]⟩
  -- The run of word characters is one of the three words of JSON if it is legal.
  | @word v c w hv hc =>
    obtain ⟨pre, rfl⟩ := hv.exists_ws
    refine ⟨_, .ws pre (.word hc .done), fun hl => ?_⟩
    have hw : c :: w = c :: w.takeWhile isWordChar ++ w.dropWhile isWordChar := by
      rw [List.cons_append, List.takeWhile_append_dropWhile]
    rw [hw]
    rcases hl _ (List.mem_singleton_self _) with h | h | h
    · exact ⟨pre, .bool true, by rw [h]; rfl⟩
    · exact ⟨pre, .bool false, by rw [h]; rfl⟩
    · exact ⟨pre, .null, by rw [h]; rfl⟩
  | @number v c w hv hc =>
    obtain ⟨pre, rfl⟩ := hv.exists_ws
    refine ⟨_, .ws pre (.number hc .done), fun hl => ?_⟩
    have hw : c :: w = c :: w.takeWhile isNumberChar ++ w.dropWhile isNumberChar := by
      rw [List.cons_append, List.takeWhile_append_dropWhile]
    rw [hw]
    obtain ⟨n, hn⟩ := hl _ (List.mem_singleton_self _)
    exact ⟨pre, .num n, by rw [← hn]; rfl⟩
  -- What is in brackets: the tokens of the value are followed by those of the rest.
  | lastElem _ hr ih =>
    obtain ⟨l, hl, hb⟩ := ih
    obtain ⟨post, rfl⟩ := hr.exists_ws
    refine ⟨l, ?_, fun h => ?_⟩
    · simpa using hl.trans (.ws post (.separator rfl .done))
    · obtain ⟨pre, c, rfl⟩ := hb h
      exact ⟨.last pre c post, by simp [Elems.render]⟩
  | elem _ hy _ ih ih' =>
    obtain ⟨l, hl, hb⟩ := ih
    obtain ⟨l', hl', hb'⟩ := ih'
    obtain ⟨post, rfl⟩ := hy.exists_ws
    refine ⟨l ++ l', hl.trans (.ws post (.separator rfl hl')), fun h => ?_⟩
    obtain ⟨h, h'⟩ := List.forall_mem_append.mp h
    obtain ⟨pre, c, rfl⟩ := hb h
    obtain ⟨es, rfl⟩ := hb' h'
    exact ⟨.cons pre c post es, by simp [Elems.render]⟩
  -- A member begins with the token of its key.
  | lastMember hn _ hr ih =>
    obtain ⟨x, hx, hkey⟩ := hn.lexed
    obtain ⟨l, hl, hb⟩ := ih
    obtain ⟨post, rfl⟩ := hr.exists_ws
    refine ⟨[x] ++ l, ?_, fun h => ?_⟩
    · simpa using hx.trans (hl.trans (.ws post (.separator rfl .done)))
    · obtain ⟨hx, h⟩ := List.forall_mem_append.mp h
      obtain ⟨key, rfl⟩ := hkey (hx x (List.mem_singleton_self x))
      obtain ⟨pre, c, rfl⟩ := hb h
      exact ⟨.last key pre c post, by simp [Members.render]⟩
  | member hn _ hy _ ih ih' =>
    obtain ⟨x, hx, hkey⟩ := hn.lexed
    obtain ⟨l, hl, hb⟩ := ih
    obtain ⟨l', hl', hb'⟩ := ih'
    obtain ⟨post, rfl⟩ := hy.exists_ws
    refine ⟨[x] ++ (l ++ l'), hx.trans (hl.trans (.ws post (.separator rfl hl'))), fun h => ?_⟩
    obtain ⟨hx, h⟩ := List.forall_mem_append.mp h
    obtain ⟨h, h'⟩ := List.forall_mem_append.mp h
    obtain ⟨key, rfl⟩ := hkey (hx x (List.mem_singleton_self x))
    obtain ⟨pre, c, rfl⟩ := hb h
    obtain ⟨ms, rfl⟩ := hb' h'
    exact ⟨.cons key pre c post ms, by simp [Members.render]⟩

/-! ### JSON has legal tokens -/

/-- What follows a value does not continue its last token. -/
def Bounded (c : Cst) (r : Bytes) : Prop :=
  match c with
  | .num _ => Stops isNumberChar r
  | .null => Stops isWordChar r
  | .bool _ => Stops isWordChar r
  | _ => True

lemma Bounded.of_delimited {c : Cst} (hr : Delimited r) : Bounded c r := by
  cases c with
  | num n => exact hr.number
  | null => exact hr.word
  | bool b => exact hr.word
  | _ => trivial

/-- The text has legal tokens up to `r`. -/
def LexedLegal (v r : Bytes) : Prop := ∃ l, Lexed v l r ∧ ∀ x ∈ l, x.Legal

lemma LexedLegal.trans (h : LexedLegal v w) (h' : LexedLegal w r) : LexedLegal v r := by
  obtain ⟨l, hl, hlegal⟩ := h
  obtain ⟨l', hl', hlegal'⟩ := h'
  exact ⟨l ++ l', hl.trans hl', List.forall_mem_append.mpr ⟨hlegal, hlegal'⟩⟩

lemma LexedLegal.ws (w : Ws) : LexedLegal (w.text ++ r) r := ⟨[], .ws w .done, by simp⟩

lemma LexedLegal.separator {c : UInt8} (hc : isSeparator c = true) : LexedLegal (c :: r) r :=
  ⟨[], .separator hc .done, by simp⟩

lemma LexedLegal.string (s : StrLit) : LexedLegal (s.render ++ r) r := by
  have h := Lexed.string (quoted_body s r) (t := s.body ++ [quote]) (by simp) .done
  refine ⟨_, by simpa [StrLit.render] using h, ?_⟩
  simpa using ⟨s, rfl⟩

lemma LexedLegal.word {c : UInt8} {t : Bytes} (hc : c = 0x74 ∨ c = 0x66 ∨ c = 0x6E)
    (ht : t.all isWordChar = true) (hr : Stops isWordChar r) (hl : (Token.word (c :: t)).Legal) :
    LexedLegal (c :: (t ++ r)) r := by
  have hrun := List.all_eq_true.mp ht
  have h := Lexed.word (v := t ++ r) (r := r) (l := []) hc
  rw [dropWhile_run hrun hr, takeWhile_run hrun hr] at h
  exact ⟨_, h .done, by simpa using hl⟩

lemma LexedLegal.number (n : NumLit) (hr : Stops isNumberChar r) :
    LexedLegal (n.render ++ r) r := by
  obtain ⟨c, t, hct, hs, -, -⟩ := exists_number_head n
  have hrun : ∀ d ∈ t, isNumberChar d = true := by
    intro d hd
    exact n.isNumberByte d (by simp [hct, hd])
  have h := Lexed.number (v := t ++ r) (r := r) (l := []) hs
  rw [dropWhile_run hrun hr, takeWhile_run hrun hr, ← hct] at h
  rw [hct]
  exact ⟨_, h .done, by simpa using ⟨n, rfl⟩⟩

lemma LexedLegal.key (k : Key) : LexedLegal (k.render ++ r) r := by
  have h := (LexedLegal.ws k.before).trans ((LexedLegal.string k.name).trans
    ((LexedLegal.ws k.after).trans (LexedLegal.separator (c := colon) (r := r) rfl)))
  simpa [Key.render] using h

mutual
lemma Cst.lexedLegal (c : Cst) {r : Bytes} (hr : Bounded c r) : LexedLegal (c.render ++ r) r := by
  match c with
  | .null => exact .word (t := ascii "ull") (by decide) rfl hr (.inr (.inr rfl))
  | .bool true => exact .word (t := ascii "rue") (by decide) rfl hr (.inl rfl)
  | .bool false => exact .word (t := ascii "alse") (by decide) rfl hr (.inr (.inl rfl))
  | .num n => exact .number n hr
  | .str s => exact .string s
  | .emptyArr w =>
    have h := (LexedLegal.separator (c := lbracket) rfl).trans ((LexedLegal.ws w).trans
      (LexedLegal.separator (c := rbracket) (r := r) rfl))
    simpa [Cst.render] using h
  | .arr es =>
    have h := (LexedLegal.separator (c := lbracket) rfl).trans (Elems.lexedLegal es r)
    simpa [Cst.render] using h
  | .emptyObj w =>
    have h := (LexedLegal.separator (c := lbrace) rfl).trans ((LexedLegal.ws w).trans
      (LexedLegal.separator (c := rbrace) (r := r) rfl))
    simpa [Cst.render] using h
  | .obj ms =>
    have h := (LexedLegal.separator (c := lbrace) rfl).trans (Members.lexedLegal ms r)
    simpa [Cst.render] using h

lemma Elems.lexedLegal (es : Elems) (r : Bytes) : LexedLegal (es.render ++ rbracket :: r) r := by
  match es with
  | .last pre c post =>
    have hc := Cst.lexedLegal c (Bounded.of_delimited (delimited_ws post (r := rbracket :: r)
      (delimited_cons.mpr (by decide))))
    have h := (LexedLegal.ws pre).trans (hc.trans ((LexedLegal.ws post).trans
      (LexedLegal.separator rfl)))
    simpa [Elems.render] using h
  | .cons pre c post es =>
    have hc := Cst.lexedLegal c (Bounded.of_delimited (delimited_ws post
      (r := comma :: (es.render ++ rbracket :: r)) (delimited_cons.mpr (by decide))))
    have h := (LexedLegal.ws pre).trans (hc.trans ((LexedLegal.ws post).trans
      ((LexedLegal.separator rfl).trans (Elems.lexedLegal es r))))
    simpa [Elems.render] using h

lemma Members.lexedLegal (ms : Members) (r : Bytes) :
    LexedLegal (ms.render ++ rbrace :: r) r := by
  match ms with
  | .last k pre c post =>
    have hc := Cst.lexedLegal c (Bounded.of_delimited (delimited_ws post (r := rbrace :: r)
      (delimited_cons.mpr (by decide))))
    have h := (LexedLegal.key k).trans ((LexedLegal.ws pre).trans (hc.trans
      ((LexedLegal.ws post).trans (LexedLegal.separator rfl))))
    simpa [Members.render] using h
  | .cons k pre c post ms =>
    have hc := Cst.lexedLegal c (Bounded.of_delimited (delimited_ws post
      (r := comma :: (ms.render ++ rbrace :: r)) (delimited_cons.mpr (by decide))))
    have h := (LexedLegal.key k).trans ((LexedLegal.ws pre).trans (hc.trans
      ((LexedLegal.ws post).trans ((LexedLegal.separator rfl).trans (Members.lexedLegal ms r)))))
    simpa [Members.render] using h
end

lemma Skips.stops_word {pre : Ws} {c : UInt8} (hc : c = 0x74 ∨ c = 0x66 ∨ c = 0x6E)
    (h : Skips .value (pre.text ++ c :: w) r) : Stops isWordChar r := by
  have hsp : isSpace c = false := by
    rcases hc with rfl | rfl | rfl <;> decide
  rw [(next_ws pre hsp w).skips_iff] at h
  have hr : r = w.dropWhile isWordChar := by
    rcases hc with rfl | rfl | rfl <;> simpa [startsNumber, isDigit] using h
  rw [hr]
  exact stops_dropWhile _ w

lemma Skips.stops_number {pre : Ws} {c : UInt8} (hc : startsNumber (some c) = true)
    (h : Skips .value (pre.text ++ c :: w) r) : Stops isNumberChar r := by
  obtain ⟨hsep, hq, hw⟩ := isSeparator_of_startsNumber hc
  have hbrackets : c ≠ lbrace ∧ c ≠ lbracket := by
    constructor <;> rintro rfl <;> exact absurd hsep (by decide)
  rw [(next_ws pre (isSpace_of_startsNumber hc) w).skips_iff] at h
  have hr : r = w.dropWhile isNumberChar := by
    simpa [hq, hw, hbrackets, hc] using h
  rw [hr]
  exact stops_dropWhile _ w

/-- What is skipped goes on as far as its last token does. -/
lemma Skips.bounded {pre : Ws} {c : Cst} (h : Skips .value (pre.text ++ (c.render ++ r)) r) :
    Bounded c r := by
  match c with
  | .null => exact Skips.stops_word (w := ascii "ull" ++ r) (by decide) h
  | .bool true => exact Skips.stops_word (w := ascii "rue" ++ r) (by decide) h
  | .bool false => exact Skips.stops_word (w := ascii "alse" ++ r) (by decide) h
  | .num n =>
    obtain ⟨c, t, hct, hs, -, -⟩ := exists_number_head n
    rw [Cst.render, hct] at h
    exact Skips.stops_number hs h
  | .str _ => trivial
  | .emptyArr _ => trivial
  | .arr _ => trivial
  | .emptyObj _ => trivial
  | .obj _ => trivial

/-- What is skipped is a JSON value if and only if its tokens are legal. -/
theorem Skips.legal_iff (h : Skips .value v r) (hl : Lexed v l r) :
    (∀ x ∈ l, x.Legal) ↔ ∃ (pre : Ws) (c : Cst), v = pre.text ++ (c.render ++ r) := by
  constructor
  · obtain ⟨l', hl', hb⟩ := h.lexed
    rw [hl.unique hl']
    exact hb
  · rintro ⟨pre, c, rfl⟩
    obtain ⟨l', hl', hlegal⟩ := (LexedLegal.ws pre).trans (Cst.lexedLegal c h.bounded)
    rwa [hl.unique hl']

end JsonParser

end MongrelDB
