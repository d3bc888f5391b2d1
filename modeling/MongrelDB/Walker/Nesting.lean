import MongrelDB.Walker.Cells
import MongrelDB.Walker.Depth

/-!
# What `skip_value` moves over at a depth

`SkipsIn n` is what is moved over as a value by calls that are nested at most `n` deep. For a JSON
value that is the value itself if it is nested at most `n` deep, and nothing otherwise.
-/

namespace Json

mutual
/-- How deep a value is nested; an empty array or object counts like any other value. -/
def Cst.nesting : Cst → Nat
  | .arr es => es.nesting + 1
  | .obj ms => ms.nesting + 1
  | _ => 1

def Elems.nesting : Elems → Nat
  | .last _ v _ => v.nesting
  | .cons _ v _ es => max v.nesting es.nesting

def Members.nesting : Members → Nat
  | .last _ _ v _ => v.nesting
  | .cons _ _ v _ ms => max v.nesting ms.nesting
end

end Json

namespace MongrelDB

open Text Traced Prog Json

namespace JsonParser

variable {G : Bytes → Bytes → Prop} {v w x r r' : Bytes} {b : Round Unit Unit} {n : Nat}

/-! ### One level -/

/-- One round of the loop over members, where a nested call moves over what `G` says. -/
def MemberIn (G : Bytes → Bytes → Prop) (v : Bytes) (b : Round Unit Unit) (r : Bytes) : Prop :=
  ∃ k w x, Named v k w ∧ G w x ∧ SkipEnd rbrace x b r

/-- One round of the loop over elements. -/
def ElementIn (G : Bytes → Bytes → Prop) (v : Bytes) (b : Round Unit Unit) (r : Bytes) : Prop :=
  ∃ x, G v x ∧ SkipEnd rbracket x b r

def MembersIn (G : Bytes → Bytes → Prop) (v r : Bytes) : Prop :=
  Rounds (fun _ => MemberIn G) () v () r

def ElementsIn (G : Bytes → Bytes → Prop) (v r : Bytes) : Prop :=
  Rounds (fun _ => ElementIn G) () v () r

/-- A value, where the calls for nested values move over what `G` says. -/
def Level (G : Bytes → Bytes → Prop) (v r : Bytes) : Prop :=
  ∃ c w, Next c v w ∧
    ((c = quote ∧ ∃ s, Quoted w s r) ∨ (c = lbrace ∧ (Next rbrace w r ∨ MembersIn G w r)) ∨
      (c = lbracket ∧ (Next rbracket w r ∨ ElementsIn G w r)) ∨
      ((c = 0x74 ∨ c = 0x66 ∨ c = 0x6E) ∧ r = w.dropWhile isWordChar) ∨
      (startsNumber (some c) = true ∧ r = w.dropWhile isNumberChar))

/-- What a call moves over with at most so many calls nested, itself among them. -/
def SkipsIn : Nat → Bytes → Bytes → Prop
  | 0 => fun _ _ => False
  | n + 1 => Level (SkipsIn n)

lemma Next.level_iff {c : UInt8} (h : Next c v w) : Level G v r ↔
    (c = quote ∧ ∃ s, Quoted w s r) ∨ (c = lbrace ∧ (Next rbrace w r ∨ MembersIn G w r)) ∨
      (c = lbracket ∧ (Next rbracket w r ∨ ElementsIn G w r)) ∨
      ((c = 0x74 ∨ c = 0x66 ∨ c = 0x6E) ∧ r = w.dropWhile isWordChar) ∨
      (startsNumber (some c) = true ∧ r = w.dropWhile isNumberChar) := by
  constructor
  · rintro ⟨c', w', h', hr⟩
    obtain ⟨rfl, rfl⟩ := h.unique h'
    exact hr
  · intro hr
    exact ⟨c, w, h, hr⟩

/-- The elements of an array: one, and the bracket or a comma and the others behind it. -/
lemma elementsIn_iff : ElementsIn G v r ↔ ∃ x, G v x ∧
    (Next rbracket x r ∨ ∃ y, Next comma x y ∧ ElementsIn G y r) := by
  constructor
  · intro h
    cases h with
    | done h =>
      obtain ⟨x, hx, ⟨-, ⟨⟩⟩ | ⟨hr, -⟩⟩ := h
      exact ⟨x, hx, .inl hr⟩
    | again h hr =>
      obtain ⟨x, hx, ⟨hy, -⟩ | ⟨-, ⟨⟩⟩⟩ := h
      exact ⟨x, hx, .inr ⟨_, hy, hr⟩⟩
  · rintro ⟨x, hx, hr | ⟨y, hy, hr⟩⟩
    · exact .done ⟨x, hx, .inr ⟨hr, rfl⟩⟩
    · exact .again ⟨x, hx, .inl ⟨hy, rfl⟩⟩ hr

/-- The members of an object: one, and the brace or a comma and the others behind it. -/
lemma membersIn_iff : MembersIn G v r ↔ ∃ k w x, Named v k w ∧ G w x ∧
    (Next rbrace x r ∨ ∃ y, Next comma x y ∧ MembersIn G y r) := by
  constructor
  · intro h
    cases h with
    | done h =>
      obtain ⟨k, w, x, hk, hx, ⟨-, ⟨⟩⟩ | ⟨hr, -⟩⟩ := h
      exact ⟨k, w, x, hk, hx, .inl hr⟩
    | again h hr =>
      obtain ⟨k, w, x, hk, hx, ⟨hy, -⟩ | ⟨-, ⟨⟩⟩⟩ := h
      exact ⟨k, w, x, hk, hx, .inr ⟨_, hy, hr⟩⟩
  · rintro ⟨k, w, x, hk, hx, hr | ⟨y, hy, hr⟩⟩
    · exact .done ⟨k, w, x, hk, hx, .inr ⟨hr, rfl⟩⟩
    · exact .again ⟨k, w, x, hk, hx, .inl ⟨hy, rfl⟩⟩ hr

/-- Nested calls only ever move forward. -/
def Forward (G : Bytes → Bytes → Prop) : Prop := ∀ v r, G v r → r.length < v.length

lemma SkipEnd.length_lt {close : UInt8} (h : SkipEnd close v b r) : r.length < v.length := by
  rcases h with ⟨h, -⟩ | ⟨h, -⟩
  · exact h.length_lt
  · exact h.length_lt

lemma MemberIn.length_lt (hG : Forward G) (h : MemberIn G v b r) : r.length < v.length := by
  obtain ⟨k, w, x, hk, hx, hend⟩ := h
  exact hend.length_lt.trans ((hG _ _ hx).trans hk.length_lt)

lemma ElementIn.length_lt (hG : Forward G) (h : ElementIn G v b r) : r.length < v.length := by
  obtain ⟨x, hx, hend⟩ := h
  exact hend.length_lt.trans (hG _ _ hx)

lemma rounds_length_lt {B : Bytes → Round Unit Unit → Bytes → Prop}
    (hB : ∀ v b r, B v b r → r.length < v.length) {g u : Unit} (h : Rounds (fun _ => B) g v u r) :
    r.length < v.length := by
  induction h with
  | done h => exact hB _ _ _ h
  | again h _ ih => exact ih.trans (hB _ _ _ h)

lemma forward_level (hG : Forward G) : Forward (Level G) := by
  rintro v r ⟨c, w, hw, h⟩
  have hdrop : ∀ p : UInt8 → Bool, (w.dropWhile p).length < v.length := fun p =>
    lt_of_le_of_lt (List.dropWhile_sublist _).length_le hw.length_lt
  rcases h with ⟨-, s, hs⟩ | ⟨-, hr | hr⟩ | ⟨-, hr | hr⟩ | ⟨-, rfl⟩ | ⟨-, rfl⟩
  · exact hs.length_lt.trans hw.length_lt
  · exact hr.length_lt.trans hw.length_lt
  · exact (rounds_length_lt (fun _ _ _ => MemberIn.length_lt hG) hr).trans hw.length_lt
  · exact hr.length_lt.trans hw.length_lt
  · exact (rounds_length_lt (fun _ _ _ => ElementIn.length_lt hG) hr).trans hw.length_lt
  · exact hdrop _
  · exact hdrop _

lemma forward_skipsIn (n : Nat) : Forward (SkipsIn n) := by
  induction n with
  | zero => exact fun _ _ h => h.elim
  | succ n ih => exact forward_level ih

/-! ### What is read at a depth -/

/-- No value begins with a closing bracket. -/
lemma SkipsIn.not_rbracket (h : SkipsIn n v r) : ¬Next rbracket v w := by
  intro hw
  cases n with
  | zero => exact h
  | succ n =>
    have h := hw.level_iff.mp h
    revert h
    simp [startsNumber, isDigit]

lemma not_membersIn_of_next (h : Next rbrace v w) : ¬MembersIn G v r := by
  intro hm
  obtain ⟨k, y, x, ⟨z, _, hz, -⟩, -⟩ := membersIn_iff.mp hm
  exact absurd (hz.unique h).1 (by decide)

/-! White space in front makes no difference. -/

lemma next_dropWhile {c : UInt8} : Next c (v.dropWhile isSpace) w ↔ Next c v w := by
  rw [Next, Next, dropWhile_dropWhile]

lemma skipsIn_dropWhile : SkipsIn n (v.dropWhile isSpace) r ↔ SkipsIn n v r := by
  cases n with
  | zero => exact Iff.rfl
  | succ n => simp only [SkipsIn, Level, next_dropWhile]

lemma membersIn_dropWhile : MembersIn G (v.dropWhile isSpace) r ↔ MembersIn G v r := by
  simp only [membersIn_iff (v := v), membersIn_iff (v := v.dropWhile isSpace), Named,
    next_dropWhile]

lemma elementsIn_dropWhile :
    ElementsIn (SkipsIn n) (v.dropWhile isSpace) r ↔ ElementsIn (SkipsIn n) v r := by
  simp only [elementsIn_iff (v := v), elementsIn_iff (v := v.dropWhile isSpace),
    skipsIn_dropWhile]

section Skip

variable {skip : Walk Unit}

lemma reads_memberIn (hflag : Flagged tape skip)
    (hskip : ∀ w, Reads tape skip w fun _ r => G w r) :
    Reads tape (skipMember skip) v (MemberIn G v) := by
  refine reads_unless (fun hno => ?_) fun w hw => ?_
  · refine (reads_fail.bind_false fun _ => flagged_pure).congr fun b r => ⟨False.elim, ?_⟩
    rintro ⟨k, w, x, ⟨w', -, hw', -⟩, -⟩
    exact hno w' hw'
  · refine (reads_name hw (fun _ => hflag.bind fun _ => flagged_skipEnd _) fun k x _ =>
      (hskip x).bind (fun _ => flagged_skipEnd _) fun _ y _ => reads_skipEnd (by decide)).congr
        fun b r => ?_
    simp only [MemberIn, exists_const, exists_and_left]

lemma reads_elementIn (hskip : ∀ w, Reads tape skip w fun _ r => G w r) :
    Reads tape (skipElement skip) v (ElementIn G v) :=
  ((hskip v).bind (fun _ => flagged_skipEnd _) fun _ _ _ => reads_skipEnd (by decide)).congr
    fun b r => by simp only [ElementIn, exists_const]

lemma reads_membersIn (hG : Forward G) (hflag : Flagged tape skip)
    (hskip : ∀ w, Reads tape skip w fun _ r => G w r) :
    Reads tape (iterate (fun _ => skipMember skip) ()) v fun _ r => MembersIn G v r :=
  reads_iterate_all (fun _ _ => reads_memberIn hflag hskip) (fun _ => flagged_skipMember hflag)
    (fun _ _ _ _ h => h.length_lt hG) ()

lemma reads_elementsIn (hG : Forward G) (hflag : Flagged tape skip)
    (hskip : ∀ w, Reads tape skip w fun _ r => G w r) :
    Reads tape (iterate (fun _ => skipElement skip) ()) v fun _ r => ElementsIn G v r :=
  reads_iterate_all (fun _ _ => reads_elementIn hskip) (fun _ => flagged_skipElement hflag)
    (fun _ _ _ _ h => h.length_lt hG) ()

end Skip

/-- Nested at most `n` deep, `skip_value` moves over what `SkipsIn n` says and fails otherwise. -/
lemma reads_skipsIn (n : Nat) (v : Bytes) :
    Reads tape (skipValueN n) v fun _ r => SkipsIn n v r := by
  induction n generalizing v with
  | zero => exact reads_stop
  | succ n ih =>
    refine reads_cursor_bind fun entry => steps_peek.bind ?_
    -- the recursive call
    have hflag : Flagged tape
        (cursor >>= fun i => emit (.nested entry i) >>= fun _ => skipValueN n) :=
      flagged_cursor.bind fun _ => flagged_emit.bind fun _ => flagged_skipValueN n
    have hskip : ∀ w, Reads tape
        (cursor >>= fun i => emit (.nested entry i) >>= fun _ => skipValueN n) w
        fun _ r => SkipsIn n w r :=
      fun w => reads_cursor_bind fun i => steps_emit.bind (ih w)
    cases hv : v.dropWhile isSpace with
    | nil =>
      refine reads_fail.congr fun _ r => ⟨False.elim, ?_⟩
      rintro ⟨c, w, hw, -⟩
      rw [Next, hv] at hw
      cases hw
    | cons c w =>
      have hnext : Next c v w := hv
      -- a string
      by_cases h₁ : c = quote
      · subst h₁
        rw [if_pos (by simp)]
        refine (reads_readStringRaw.bind (fun _ => flagged_pure) fun _ _ _ => reads_pure).congr
          fun _ r => ?_
        rw [SkipsIn, hnext.level_iff]
        simp [startsNumber, isDigit]
      rw [if_neg (by simpa using h₁)]
      -- an object
      by_cases h₂ : c = lbrace
      · subst h₂
        rw [if_pos (by simp)]
        refine (reads_brackets (reads_membersIn (forward_skipsIn n) hflag hskip) ?_).congr
          fun _ r => ?_
        · intro r r' hr hm
          exact not_membersIn_of_next hr (membersIn_dropWhile.mp hm)
        · rw [SkipsIn, hnext.level_iff, membersIn_dropWhile]
          simp [startsNumber, isDigit]
      rw [if_neg (by simpa using h₂)]
      -- an array
      by_cases h₃ : c = lbracket
      · subst h₃
        rw [if_pos (by simp)]
        refine (reads_brackets (reads_elementsIn (forward_skipsIn n) hflag hskip) ?_).congr
          fun _ r => ?_
        · intro r r' hr he
          obtain ⟨x, hx, -⟩ := elementsIn_iff.mp (elementsIn_dropWhile.mp he)
          exact hx.not_rbracket hr
        · rw [SkipsIn, hnext.level_iff, elementsIn_dropWhile]
          simp [startsNumber, isDigit]
      rw [if_neg (by simpa using h₃)]
      -- a word
      by_cases h₄ : c = 0x74 ∨ c = 0x66 ∨ c = 0x6E
      · have hword : isWordChar c = true := by
          rcases h₄ with rfl | rfl | rfl <;> decide
        have hnum : startsNumber (some c) = false := by
          rcases h₄ with rfl | rfl | rfl <;> decide
        rw [if_pos (by simpa [or_assoc] using h₄)]
        refine (steps_advanceWhile isWordChar).reads.congr fun _ r => ?_
        rw [SkipsIn, hnext.level_iff, List.dropWhile_cons_of_pos hword]
        simp [h₁, h₂, h₃, h₄, hnum]
      rw [if_neg (by simpa [or_assoc] using h₄)]
      -- a number, or no value at all
      by_cases h₅ : startsNumber (some c) = true
      · have hnum := isNumberChar_of_startsNumber h₅
        rw [List.head?_cons, if_pos h₅]
        refine (steps_readNumberRaw.trans (f := fun _ => pure ()) steps_pure).reads.congr
          fun _ r => ?_
        rw [SkipsIn, hnext.level_iff, List.dropWhile_cons_of_pos hnum]
        simp [h₁, h₂, h₃, h₄, h₅]
      · rw [List.head?_cons, if_neg h₅]
        refine reads_fail.congr fun _ r => ?_
        rw [SkipsIn, hnext.level_iff]
        simp [h₁, h₂, h₃, h₄, h₅]

/-! ### JSON values -/

/-- Without brackets there is nothing nested. -/
lemma skipsIn_scalar {c : UInt8} (h : Next c v w) (hc : c ≠ lbrace) (hc' : c ≠ lbracket)
    (hs : Skips .value v r) : SkipsIn n v r' ↔ r' = r ∧ 1 ≤ n := by
  cases n with
  | zero => simp [SkipsIn]
  | succ n =>
    have hlevel : SkipsIn (n + 1) v r' ↔ Skips .value v r' := by
      rw [SkipsIn, h.level_iff, h.skips_iff]
      simp [hc, hc']
    rw [hlevel]
    constructor
    · intro h'
      exact ⟨h'.unique hs, Nat.le_add_left 1 n⟩
    · rintro ⟨rfl, -⟩
      exact hs

lemma skipsIn_array (h : Next lbracket v w) :
    SkipsIn (n + 1) v r ↔ Next rbracket w r ∨ ElementsIn (SkipsIn n) w r := by
  rw [SkipsIn, h.level_iff]
  simp [startsNumber, isDigit]

lemma skipsIn_object (h : Next lbrace v w) :
    SkipsIn (n + 1) v r ↔ Next rbrace w r ∨ MembersIn (SkipsIn n) w r := by
  rw [SkipsIn, h.level_iff]
  simp [startsNumber, isDigit]

lemma next_iff {c : UInt8} (h : Next c v w) : Next c v r ↔ r = w :=
  ⟨fun h' => (h'.unique h).2, fun h' => h' ▸ h⟩

lemma not_next {c c' : UInt8} (h : Next c v w) (hne : c' ≠ c) : ¬Next c' v r :=
  fun h' => hne (h'.unique h).1

lemma membersIn_iff_of_named {k : Bytes} (h : Named v k w) : MembersIn G v r ↔
    ∃ x, G w x ∧ (Next rbrace x r ∨ ∃ y, Next comma x y ∧ MembersIn G y r) := by
  rw [membersIn_iff]
  constructor
  · rintro ⟨k', w', x, h', hx, hr⟩
    obtain ⟨-, rfl⟩ := h'.unique h
    exact ⟨x, hx, hr⟩
  · rintro ⟨x, hx, hr⟩
    exact ⟨k, w, x, h, hx, hr⟩

mutual
/-- A JSON value is moved over if it is nested no deeper than that. -/
lemma skipsIn_render (v : Cst) (n : Nat) (pre : Ws) {r r' : Bytes} (hr : Delimited r) :
    SkipsIn n (pre.text ++ (v.render ++ r)) r' ↔ r' = r ∧ v.nesting ≤ n := by
  have hskips := skips_render v pre hr
  -- scalars need one level
  match v with
  | .null =>
    exact skipsIn_scalar (next_ws pre (c := 0x6E) (by decide) (ascii "ull" ++ r)) (by decide)
      (by decide) hskips
  | .bool true =>
    exact skipsIn_scalar (next_ws pre (c := 0x74) (by decide) (ascii "rue" ++ r)) (by decide)
      (by decide) hskips
  | .bool false =>
    exact skipsIn_scalar (next_ws pre (c := 0x66) (by decide) (ascii "alse" ++ r)) (by decide)
      (by decide) hskips
  | .num m =>
    obtain ⟨c, t, hct, hs, -, hsp⟩ := exists_number_head m
    have hnext := next_ws pre hsp (t ++ r)
    rw [← List.cons_append, ← hct] at hnext
    refine skipsIn_scalar hnext ?_ ?_ hskips
    · rintro rfl
      exact absurd hs (by decide)
    · rintro rfl
      exact absurd hs (by decide)
  | .str s =>
    exact skipsIn_scalar (next_ws pre (c := quote) (by decide) (s.body ++ [quote] ++ r)) (by decide)
      (by decide) hskips
  -- lists need a level more than what they hold; at the last level the walker gives up
  | .emptyArr w =>
    have htext : pre.text ++ ((Cst.emptyArr w).render ++ r) =
        pre.text ++ lbracket :: (w.text ++ rbracket :: r) := by simp [Cst.render]
    have hend : Next rbracket (w.text ++ rbracket :: r) r := next_ws w (by decide) r
    cases n with
    | zero => simp [SkipsIn, Cst.nesting]
    | succ n =>
      have hnone : ¬ElementsIn (SkipsIn n) (w.text ++ rbracket :: r) r' := by
        intro h
        obtain ⟨x, hx, -⟩ := elementsIn_iff.mp h
        exact hx.not_rbracket hend
      rw [htext, skipsIn_array (next_ws pre (by decide) _), next_iff hend]
      simp [hnone, Cst.nesting]
  | .arr es =>
    have htext : pre.text ++ ((Cst.arr es).render ++ r) =
        pre.text ++ lbracket :: (es.render ++ rbracket :: r) := by simp [Cst.render]
    have hnone : ¬Next rbracket (es.render ++ rbracket :: r) r' := fun h =>
      not_elems_of_next h (skips_elems es r)
    cases n with
    | zero => simp [SkipsIn, Cst.nesting]
    | succ n =>
      rw [htext, skipsIn_array (next_ws pre (by decide) _), elementsIn_render es n]
      simp [hnone, Cst.nesting]
  | .emptyObj w =>
    have htext : pre.text ++ ((Cst.emptyObj w).render ++ r) =
        pre.text ++ lbrace :: (w.text ++ rbrace :: r) := by simp [Cst.render]
    have hend : Next rbrace (w.text ++ rbrace :: r) r := next_ws w (by decide) r
    cases n with
    | zero => simp [SkipsIn, Cst.nesting]
    | succ n =>
      rw [htext, skipsIn_object (next_ws pre (by decide) _), next_iff hend]
      simp [not_membersIn_of_next hend, Cst.nesting]
  | .obj ms =>
    have htext : pre.text ++ ((Cst.obj ms).render ++ r) =
        pre.text ++ lbrace :: (ms.render ++ rbrace :: r) := by simp [Cst.render]
    have hnone : ¬Next rbrace (ms.render ++ rbrace :: r) r' := fun h =>
      not_members_of_next h (skips_members ms r)
    cases n with
    | zero => simp [SkipsIn, Cst.nesting]
    | succ n =>
      rw [htext, skipsIn_object (next_ws pre (by decide) _), membersIn_render ms n]
      simp [hnone, Cst.nesting]

lemma elementsIn_render (es : Elems) (n : Nat) {r r' : Bytes} :
    ElementsIn (SkipsIn n) (es.render ++ rbracket :: r) r' ↔ r' = r ∧ es.nesting ≤ n := by
  match es with
  | .last pre v post =>
    have htext : (Elems.last pre v post).render ++ rbracket :: r =
        pre.text ++ (v.render ++ (post.text ++ rbracket :: r)) := by simp [Elems.render]
    have hend : Next rbracket (post.text ++ rbracket :: r) r := next_ws post (by decide) r
    rw [htext, elementsIn_iff]
    simp only [skipsIn_render v n pre (delimited_rbracket post r), and_assoc, exists_eq_left,
      next_iff hend, not_next hend (show comma ≠ rbracket by decide), false_and, exists_false,
      or_false, Elems.nesting, and_comm]
  | .cons pre v post es =>
    have htext : (Elems.cons pre v post es).render ++ rbracket :: r =
        pre.text ++ (v.render ++ (post.text ++ comma :: (es.render ++ rbracket :: r))) := by
      simp [Elems.render]
    have hend : Next comma (post.text ++ comma :: (es.render ++ rbracket :: r)) _ :=
      next_ws post (by decide) _
    rw [htext, elementsIn_iff]
    simp only [skipsIn_render v n pre (delimited_comma post _), and_assoc, exists_eq_left,
      next_iff hend, not_next hend (show rbracket ≠ comma by decide), false_or,
      elementsIn_render es n, Elems.nesting, max_le_iff]
    exact and_left_comm

lemma membersIn_render (ms : Members) (n : Nat) {r r' : Bytes} :
    MembersIn (SkipsIn n) (ms.render ++ rbrace :: r) r' ↔ r' = r ∧ ms.nesting ≤ n := by
  match ms with
  | .last k pre v post =>
    have htext : (Members.last k pre v post).render ++ rbrace :: r =
        k.render ++ (pre.text ++ (v.render ++ (post.text ++ rbrace :: r))) := by
      simp [Members.render]
    have hend : Next rbrace (post.text ++ rbrace :: r) r := next_ws post (by decide) r
    rw [htext, membersIn_iff_of_named (named_render k _)]
    simp only [and_assoc, exists_eq_left, skipsIn_render v n pre (delimited_rbrace post r),
      next_iff hend, not_next hend (show comma ≠ rbrace by decide), false_and, exists_false,
      or_false, Members.nesting, and_comm]
  | .cons k pre v post ms =>
    have htext : (Members.cons k pre v post ms).render ++ rbrace :: r =
        k.render ++
          (pre.text ++ (v.render ++ (post.text ++ comma :: (ms.render ++ rbrace :: r)))) := by
      simp [Members.render]
    have hend : Next comma (post.text ++ comma :: (ms.render ++ rbrace :: r)) _ :=
      next_ws post (by decide) _
    rw [htext, membersIn_iff_of_named (named_render k _)]
    simp only [and_assoc, exists_eq_left, skipsIn_render v n pre (delimited_comma post _),
      next_iff hend, not_next hend (show rbrace ≠ comma by decide), false_or, membersIn_render ms n,
      Members.nesting, max_le_iff]
    exact and_left_comm
end

end JsonParser

end MongrelDB
