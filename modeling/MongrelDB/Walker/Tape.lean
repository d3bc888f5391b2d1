import MongrelDB.Client.JsonParser
import MongrelDB.Traced.Reading

/-!
# The walker's text as a tape

The response body as a tape: the cursor lies between what has been read and what has not. What the
primitive steps and the simple tokens of the walker read.
-/

namespace MongrelDB

open Text Traced Prog

namespace JsonParser

/-- The cursor between what has been read and what has not, no error so far. -/
def tape : Tape JsonParser UInt8 where
  cut u v := ⟨u ++ v, u.length, true⟩
  good p := p.ok = true

lemma tape_cut (u v : Bytes) : tape.cut u v = ⟨u ++ v, u.length, true⟩ := rfl

@[simp] lemma tape_cut_i (u v : Bytes) : (tape.cut u v).i = u.length := rfl

@[simp] lemma tape_cut_length (u v : Bytes) : (tape.cut u v).s.length = u.length + v.length :=
  List.length_append

variable {α β γ : Type} {u v w : Bytes} {c : UInt8}

/-! ### Spoilt states stay spoilt -/

@[simp] lemma flagged_cursor : Flagged tape cursor := flagged_get.bind fun _ => flagged_pure

@[simp] lemma flagged_isOk : Flagged tape isOk := flagged_get.bind fun _ => flagged_pure

@[simp] lemma flagged_inside : Flagged tape inside := flagged_get.bind fun _ => flagged_pure

@[simp] lemma flagged_charAt (k : Nat) : Flagged tape (charAt k) := by
  refine flagged_get.bind fun p => flagged_emit.bind fun _ => ?_
  split
  · exact flagged_pure
  · exact flagged_stop

@[simp] lemma flagged_current : Flagged tape current := flagged_cursor.bind flagged_charAt

@[simp] lemma flagged_setCursor (j : Nat) : Flagged tape (setCursor j) := by
  rintro p a p' ⟨⟩ h
  exact h

@[simp] lemma flagged_advance : Flagged tape advance :=
  flagged_cursor.bind fun _ => flagged_setCursor _

@[simp] lemma flagged_next : Flagged tape next := by simp [next]

@[simp] lemma flagged_fail : Flagged tape fail := by
  rintro p a p' ⟨⟩ h
  cases h

@[simp] lemma flagged_substr (start len : Nat) : Flagged tape (substr start len) := by
  refine flagged_get.bind fun p => flagged_emit.bind fun _ => ?_
  split
  · exact flagged_pure
  · exact flagged_stop

@[simp] lemma flagged_iterate {body : γ → Walk (Round γ β)} (h : ∀ g, Flagged tape (body g))
    (g : γ) : Flagged tape (iterate body g) :=
  flagged_get.bind fun _ => flagged_loop h _ g

lemma flagged_advanceWhile_round (q : UInt8 → Bool) : Flagged tape (do
    if !(← inside) then return .done ()
    if q (← current) then
      advance
      return .again ()
    else return (.done () : Round Unit Unit)) :=
  flagged_inside.bind fun _ => flagged_pure.ite (flagged_current.bind fun _ =>
    (flagged_advance.bind fun _ => flagged_pure).ite flagged_pure)

@[simp] lemma flagged_advanceWhile (q : UInt8 → Bool) : Flagged tape (advanceWhile q) :=
  flagged_iterate (fun _ => flagged_advanceWhile_round q) ()

@[simp] lemma flagged_skipWs : Flagged tape skipWs := flagged_advanceWhile _

@[simp] lemma flagged_peek : Flagged tape peek :=
  flagged_skipWs.bind fun _ => flagged_inside.bind fun _ =>
    (flagged_current.bind fun _ => flagged_pure).ite flagged_pure

@[simp] lemma flagged_expect (c : UInt8) : Flagged tape (expect c) :=
  flagged_skipWs.bind fun _ => flagged_inside.bind fun _ =>
    flagged_fail.ite (flagged_current.bind fun _ => flagged_advance.ite flagged_fail)

/-! ### Steps -/

lemma steps_of_out {x : Walk α} {a : α} (h : ∀ u, x.out (tape.cut u v) = .ok (a, tape.cut u v)) :
    Steps tape x v a v :=
  ⟨[], rfl, fun u => by rw [List.append_nil]; exact h u⟩

/-- The text that is read is the same wherever the tape stands. -/
lemma steps_of_forall {x : Walk α} {a : α}
    (h : ∀ u, ∃ t, v = t ++ w ∧ x.out (tape.cut u v) = .ok (a, tape.cut (u ++ t) w)) :
    Steps tape x v a w := by
  obtain ⟨t, hv, -⟩ := h []
  refine ⟨t, hv, fun u => ?_⟩
  obtain ⟨t', hv', ht⟩ := h u
  obtain rfl : t' = t := List.append_cancel_right (hv'.symm.trans hv)
  exact ht

/-- A text is read in one way only. -/
lemma reads_unique {good : JsonParser → Prop} {x : Walk α} {G : α → Bytes → Prop} {a b : α}
    {r s : Bytes} (hx : Reads ⟨tape.cut, good⟩ x v G) (h : G a r) (h' : G b s) :
    a = b ∧ r = s := by
  obtain ⟨t, -, ht⟩ := hx.complete a r h
  obtain ⟨t', -, ht'⟩ := hx.complete b s h'
  have heq := (ht []).symm.trans (ht' [])
  simp only [Except.ok.injEq, Prod.mk.injEq, tape_cut, List.nil_append, JsonParser.mk.injEq] at heq
  exact ⟨heq.1, (List.append_inj heq.2.1 heq.2.2.1).2⟩

/-- The rest of a program may use where the tape stands, as long as what it reads is the same. -/
lemma reads_get_bind {f : JsonParser → Walk β} {G : β → Bytes → Prop}
    (h : ∀ u, Reads tape (f (tape.cut u v)) v G) : Reads tape (get >>= f) v G where
  complete b r hr := by
    refine steps_of_forall fun u => ?_
    obtain ⟨t, hv, ht⟩ := (h u).complete b r hr
    exact ⟨t, hv, by rw [out_bind_ok (out_get _)]; exact ht u⟩
  sound u b p ho hp := by
    rw [out_bind_ok (out_get _)] at ho
    exact (h u).sound u b p ho hp

lemma reads_cursor_bind {f : Nat → Walk β} {G : β → Bytes → Prop}
    (h : ∀ i, Reads tape (f i) v G) : Reads tape (cursor >>= f) v G :=
  reads_get_bind (f := fun p => f p.i) fun u => h u.length

lemma steps_isOk : Steps tape isOk v true v := steps_of_out fun _ => rfl

lemma out_cursor : cursor.out (tape.cut u v) = .ok (u.length, tape.cut u v) := rfl

lemma steps_inside : Steps tape inside v (!v.isEmpty) v := by
  refine steps_of_out fun u => ?_
  have h : decide (u.length < (u ++ v).length) = !v.isEmpty := by cases v <;> simp
  rw [← h]
  rfl

/-- The character `k` places further on. -/
lemma out_charAt {k : Nat} (h : v[k]? = some c) :
    (charAt (u.length + k)).out (tape.cut u v) = .ok (c, tape.cut u v) := by
  have hk : (u ++ v)[u.length + k]? = some c := by
    rw [List.getElem?_append_right (by omega), Nat.add_sub_cancel_left, h]
  rw [charAt, out_bind_ok (out_get _), out_bind_ok (out_emit _ _)]
  simp only [tape_cut, hk]
  rfl

lemma steps_current : Steps tape current (c :: v) c (c :: v) := by
  refine steps_of_out fun u => ?_
  rw [current, out_bind_ok out_cursor]
  exact out_charAt (k := 0) rfl

/-- Moving the cursor over a part of the text. -/
lemma out_setCursor {t : Bytes} {j : Nat} (hj : j = u.length + t.length) :
    (setCursor j).out (tape.cut u (t ++ v)) = .ok ((), tape.cut (u ++ t) v) := by
  have h : tape.cut (u ++ t) v = { tape.cut u (t ++ v) with i := j } := by simp [tape_cut, hj]
  rw [h]
  rfl

lemma steps_advance : Steps tape advance (c :: v) () v := by
  refine ⟨[c], rfl, fun u => ?_⟩
  change advance.out (tape.cut u ([c] ++ v)) = _
  rw [advance, out_bind_ok out_cursor]
  exact out_setCursor rfl

lemma steps_next : Steps tape next (c :: v) c v :=
  steps_current.trans (steps_advance.trans steps_pure)

lemma reads_fail : Reads tape fail v fun _ _ => False where
  complete _ _ := False.elim
  sound := by
    rintro u a p ⟨⟩ h
    cases h

/-- The text between an earlier position and the cursor. -/
lemma out_substr {t : Bytes} :
    (substr u.length ((u ++ t).length - u.length)).out (tape.cut (u ++ t) v)
      = .ok (t, tape.cut (u ++ t) v) := by
  rw [substr, out_bind_ok (out_get _), out_bind_ok (out_emit _ _),
    if_pos (by simp only [tape_cut, List.length_append]; omega)]
  have h : (((tape.cut (u ++ t) v).s.drop u.length).take ((u ++ t).length - u.length)) = t := by
    simp [tape_cut]
  rw [h]
  rfl

/-! ### Loops -/

variable {body : γ → Walk (Round γ β)} {B : γ → Bytes → Round γ β → Bytes → Prop}

/-- A loop of the walker has more rounds than there is text. -/
lemma out_iterate_of_loop {g : γ} {o : Except Stop (β × JsonParser)}
    (h : ∀ n, v.length < n →
      (loop .spent (fun p p' : JsonParser => .again p.i p'.i) body n g).out (tape.cut u v) = o) :
    (iterate body g).out (tape.cut u v) = o := by
  rw [iterate, out_bind_ok (out_get _)]
  refine h _ ?_
  rw [tape_cut_length]
  omega

/-- Every further round reads something, and stays among the texts the rule for the body is for. -/
lemma reads_iterate {I : Bytes → Prop} (hb : ∀ g v, I v → Reads tape (body g) v (B g v))
    (hflag : ∀ g, Flagged tape (body g))
    (hI : ∀ g v g' w, I v → B g v (.again g') w → I w ∧ w.length < v.length) (g : γ) (hv : I v) :
    Reads tape (iterate body g) v (Rounds B g v) where
  complete b r h := by
    obtain ⟨t, ht, hout⟩ := out_loop_of_rounds hb hI h hv
    exact ⟨t, ht, fun u => out_iterate_of_loop (hout u)⟩
  sound u b p h hp := by
    rw [iterate, out_bind_ok (out_get _)] at h
    exact rounds_of_out_loop hb (fun g v g' w hv h => (hI g v g' w hv h).1) hflag h hp u v rfl hv

lemma reads_iterate_all (hb : ∀ g v, Reads tape (body g) v (B g v))
    (hflag : ∀ g, Flagged tape (body g))
    (hlt : ∀ g v g' w, B g v (.again g') w → w.length < v.length) (g : γ) :
    Reads tape (iterate body g) v (Rounds B g v) :=
  reads_iterate (I := fun _ => True) (fun g v _ => hb g v) hflag
    (fun g v g' w _ h => ⟨trivial, hlt g v g' w h⟩) g trivial

lemma reads_iterate_firm (hb : ∀ g v, Reads tape.firm (body g) v (B g v))
    (hlt : ∀ g v g' w, B g v (.again g') w → w.length < v.length) (g : γ) :
    Reads tape.firm (iterate body g) v (Rounds B g v) where
  complete b r h := by
    obtain ⟨t, ht, hout⟩ := out_loop_of_rounds (I := fun _ => True) (fun g v _ => hb g v)
      (fun g v g' w _ h => ⟨trivial, hlt g v g' w h⟩) h trivial
    exact ⟨t, ht, fun u => out_iterate_of_loop (hout u)⟩
  sound u b p h hp := by
    rw [iterate, out_bind_ok (out_get _)] at h
    exact rounds_of_out_loop (I := fun _ => True) (fun g v _ => hb g v)
      (fun _ _ _ _ _ _ => trivial) (fun _ => flagged_firm) h hp u v rfl trivial

/-- What a round of `advanceWhile` does. -/
lemma reads_advanceWhile_round (q : UInt8 → Bool) : Reads tape (do
      if !(← inside) then return .done ()
      if q (← current) then
        advance
        return .again ()
      else return .done ()) v (fun (b : Round Unit Unit) r =>
        (b = .done () ∧ r = v ∧ Stops q v) ∨ ∃ c, b = .again () ∧ v = c :: r ∧ q c = true) := by
  refine steps_inside.bind ?_
  cases v with
  | nil => exact reads_pure.congr fun b r => by simp
  | cons c v =>
    refine steps_current.bind ?_
    cases hc : q c with
    | false => exact reads_pure.congr fun b r => by simp [hc]
    | true =>
      have h : Reads tape (advance >>= fun _ => pure (.again ())) (c :: v)
          fun (b : Round Unit Unit) r => b = .again () ∧ r = v := steps_advance.bind reads_pure
      refine h.congr fun b r => ⟨?_, ?_⟩
      · rintro ⟨rfl, rfl⟩
        exact .inr ⟨c, rfl, rfl, hc⟩
      · rintro (⟨-, -, hs⟩ | ⟨c', rfl, h, -⟩)
        · simp [hc] at hs
        · exact ⟨rfl, (List.cons.inj h).2.symm⟩

lemma rounds_advanceWhile (q : UInt8 → Bool) (v : Bytes) :
    Rounds (fun (_ : Unit) v (b : Round Unit Unit) r =>
        (b = .done () ∧ r = v ∧ Stops q v) ∨ ∃ c, b = .again () ∧ v = c :: r ∧ q c = true)
      () v () (v.dropWhile q) := by
  induction v with
  | nil => exact .done (.inl ⟨rfl, rfl, stops_nil q⟩)
  | cons c v ih =>
    by_cases hc : q c = true
    · rw [List.dropWhile_cons_of_pos hc]
      exact .again (.inr ⟨c, rfl, rfl, hc⟩) ih
    · rw [List.dropWhile_cons_of_neg hc]
      exact .done (.inl ⟨rfl, rfl, stops_cons.mpr (by simpa using hc)⟩)

lemma steps_advanceWhile (q : UInt8 → Bool) :
    Steps tape (advanceWhile q) v () (v.dropWhile q) := by
  refine (reads_iterate_all (fun _ _ => reads_advanceWhile_round q)
    (fun _ => flagged_advanceWhile_round q) ?_ ()).complete _ _ (rounds_advanceWhile q v)
  rintro _ v _ w (⟨⟨⟩, _⟩ | ⟨c, -, rfl, -⟩)
  simp

/-! ### Tokens -/

lemma steps_skipWs : Steps tape skipWs v () (v.dropWhile isSpace) := steps_advanceWhile _

/-- After white space, the text begins with `c` and goes on with `w`. -/
def Next (c : UInt8) (v w : Bytes) : Prop := v.dropWhile isSpace = c :: w

lemma Next.length_lt (h : Next c v w) : w.length < v.length := by
  have hle := (List.dropWhile_sublist isSpace (l := v)).length_le
  rw [h, List.length_cons] at hle
  omega

lemma Next.unique {c' : UInt8} {w' : Bytes} (h : Next c v w) (h' : Next c' v w') :
    c = c' ∧ w = w' := by
  have := h.symm.trans h'
  simpa using this

/-- A character that has been looked at is next. -/
lemma next_cons_of_next (h : Next c v w) : Next c (c :: w) w := by
  have hd := dropWhile_eq_self (stops_dropWhile isSpace v)
  rwa [h] at hd

lemma steps_peek : Steps tape peek v (v.dropWhile isSpace).head? (v.dropWhile isSpace) := by
  refine steps_skipWs.trans (steps_inside.trans ?_)
  cases v.dropWhile isSpace with
  | nil => exact steps_pure
  | cons c w => exact steps_current.trans steps_pure

lemma steps_peek_next (h : Next c v w) : Steps tape peek v (some c) (c :: w) := by
  have := steps_peek (v := v)
  rwa [h] at this

lemma steps_expect (h : Next c v w) : Steps tape (expect c) v () w := by
  refine steps_skipWs.trans ?_
  rw [h]
  refine steps_inside.trans (steps_current.trans ?_)
  simpa using steps_advance

lemma reads_expect : Reads tape (expect c) v fun _ w => Next c v w where
  complete _ _ := steps_expect
  sound u a p h hp := by
    by_contra hn
    have hf : Reads tape (expect c) v fun _ _ => False := by
      refine steps_skipWs.bind (steps_inside.bind ?_)
      cases hv : v.dropWhile isSpace with
      | nil => exact reads_fail
      | cons c' w =>
        refine steps_current.bind ?_
        have hc : (c' == c) = false := by
          rw [beq_eq_false_iff_ne]
          rintro rfl
          exact hn ⟨w, hv⟩
        rw [hc]
        exact reads_fail
    obtain ⟨r, hr⟩ := hf.sound u a p h hp
    exact hr

/-- Go on if the next character is `c`. -/
lemma reads_unless {x y : Walk β} {G : β → Bytes → Prop}
    (hx : (∀ w, ¬Next c v w) → Reads tape x (v.dropWhile isSpace) G)
    (hy : ∀ w, Next c v w → Reads tape y (c :: w) G) :
    Reads tape (peek >>= fun o => if o != some c then x else y) v G := by
  refine steps_peek.bind ?_
  by_cases h : (v.dropWhile isSpace).head? = some c
  · obtain ⟨w, hw⟩ : ∃ w, Next c v w := List.head?_eq_some_iff.mp h
    rw [if_neg (by simpa using h), hw]
    exact hy w hw
  · rw [if_pos (by simpa using h)]
    exact hx fun w hw => h (by rw [hw]; rfl)

/-- Move over the next character, if it is one of two. -/
lemma reads_either {good : JsonParser → Prop} {c₁ c₂ : UInt8} {m₁ m₂ : Walk Unit} {a₁ a₂ : β}
    {x : Walk β}
    (h₁ : ∀ w, Steps tape m₁ (c₁ :: w) () w) (h₂ : ∀ w, Steps tape m₂ (c₂ :: w) () w)
    (hx : ∀ w, Reads ⟨tape.cut, good⟩ x w fun _ _ => False) (hne : c₂ ≠ c₁) :
    Reads ⟨tape.cut, good⟩ (peek >>= fun o => if o == some c₁ then m₁ >>= fun _ => pure a₁
      else if o == some c₂ then m₂ >>= fun _ => pure a₂ else x) v
      fun b r => (Next c₁ v r ∧ b = a₁) ∨ (Next c₂ v r ∧ b = a₂) := by
  refine Steps.bind (a := (v.dropWhile isSpace).head?) (w := v.dropWhile isSpace) steps_peek ?_
  cases hv : v.dropWhile isSpace with
  | nil => exact (hx []).congr fun b r => by simp [Next, hv]
  | cons c w =>
    have hn : ∀ d r, Next d v r ↔ c = d ∧ w = r := fun d r => by rw [Next, hv, List.cons.injEq]
    by_cases hc₁ : c = c₁
    · subst hc₁
      rw [if_pos (by simp)]
      have h : Reads ⟨tape.cut, good⟩ (m₁ >>= fun _ => pure a₁) (c :: w)
          fun b r => b = a₁ ∧ r = w := Steps.bind (a := ()) (h₁ w) reads_pure
      exact h.congr fun b r => by simp only [hn]; grind
    rw [if_neg (by simpa using hc₁)]
    by_cases hc₂ : c = c₂
    · subst hc₂
      rw [if_pos (by simp)]
      have h : Reads ⟨tape.cut, good⟩ (m₂ >>= fun _ => pure a₂) (c :: w)
          fun b r => b = a₂ ∧ r = w := Steps.bind (a := ()) (h₂ w) reads_pure
      exact h.congr fun b r => by simp only [hn]; grind
    rw [if_neg (by simpa using hc₂)]
    exact (hx _).congr fun b r => by simp only [hn]; grind

/-- Take what a part of the program has moved over. -/
lemma reads_span {x : Walk Unit} {k : Bytes → Walk β} {G : Unit → Bytes → Prop}
    {H : Bytes → Bytes → β → Bytes → Prop} (hx : Reads tape x v G)
    (hflag : ∀ t, Flagged tape (k t))
    (hk : ∀ t w, v = t ++ w → G () w → Reads tape (k t) w (H t w)) :
    Reads tape (cursor >>= fun start => x >>= fun _ => cursor >>= fun stop =>
      substr start (stop - start) >>= k) v
      fun b r => ∃ t w, v = t ++ w ∧ G () w ∧ H t w b r where
  complete := by
    rintro b r ⟨t, w, hv, hg, hh⟩
    obtain ⟨t', hv', ht'⟩ := hx.complete () w hg
    obtain rfl : t = t' := List.append_cancel_right (hv.symm.trans hv')
    obtain ⟨t', hw, hk'⟩ := (hk t w hv hg).complete b r hh
    refine ⟨t ++ t', by rw [hv, hw, List.append_assoc], fun u => ?_⟩
    rw [out_bind_ok out_cursor, out_bind_ok (ht' u), out_bind_ok out_cursor,
      out_bind_ok out_substr, hk' (u ++ t), List.append_assoc]
  sound u b p h hp := by
    rw [out_bind_ok out_cursor] at h
    obtain ⟨⟨⟩, p₁, h₁, h₂⟩ := out_bind_eq_ok h
    have hrest : Flagged tape (cursor >>= fun stop => substr u.length (stop - u.length) >>= k) := by
      simp [hflag]
    obtain ⟨w, hg⟩ := hx.sound u () p₁ h₁ (hrest _ _ _ h₂ hp)
    obtain ⟨t, hv, ht⟩ := hx.complete () w hg
    rw [ht u] at h₁
    cases h₁
    rw [out_bind_ok out_cursor, out_bind_ok out_substr] at h₂
    obtain ⟨r, hr⟩ := (hk t w hv hg).sound _ _ _ h₂ hp
    exact ⟨r, t, w, hv, hg, hr⟩

@[simp] lemma flagged_readNumberRaw : Flagged tape readNumberRaw :=
  flagged_cursor.bind fun _ => (flagged_advanceWhile _).bind fun _ =>
    flagged_cursor.bind fun _ => flagged_substr _ _

lemma steps_readNumberRaw :
    Steps tape readNumberRaw v (v.takeWhile isNumberChar) (v.dropWhile isNumberChar) := by
  have hv := (List.takeWhile_append_dropWhile (p := isNumberChar) (l := v)).symm
  obtain ⟨t, hv', ht⟩ := steps_advanceWhile isNumberChar (v := v)
  obtain rfl : v.takeWhile isNumberChar = t := List.append_cancel_right (hv.symm.trans hv')
  refine ⟨_, hv', fun u => ?_⟩
  rw [readNumberRaw, out_bind_ok out_cursor, out_bind_ok (ht u), out_bind_ok out_cursor]
  exact out_substr

/-! ### Positions -/

lemma cut_take_drop {s : Bytes} {i : Nat} (h : i ≤ s.length) :
    tape.cut (s.take i) (s.drop i) = ⟨s, i, true⟩ := by
  rw [tape_cut, List.take_append_drop, List.length_take_of_le h]

/-- What a program reads from a position of a text, as a statement about its runs. -/
lemma out_iff_of_reads {s : Bytes} {i : Nat} {x : Walk α} {G : α → Bytes → Prop}
    (h : Reads tape x (s.drop i) G) (hi : i ≤ s.length) {a : α} {p : JsonParser} :
    x.out ⟨s, i, true⟩ = .ok (a, p) ∧ p.ok = true ↔
      ∃ t r, s.drop i = t ++ r ∧ G a r ∧ p = ⟨s, i + t.length, true⟩ := by
  have hlength : (s.take i).length = i := List.length_take_of_le hi
  have hcut : ∀ t r, s.drop i = t ++ r →
      tape.cut (s.take i ++ t) r = ⟨s, i + t.length, true⟩ := by
    intro t r ht
    rw [tape_cut, List.append_assoc, ← ht, List.take_append_drop, List.length_append, hlength]
  rw [← cut_take_drop hi]
  constructor
  · rintro ⟨hp, hok⟩
    obtain ⟨r, hr⟩ := h.sound _ _ _ hp hok
    obtain ⟨t, ht, hout⟩ := h.complete a r hr
    rw [hout] at hp
    cases hp
    exact ⟨t, r, ht, hr, hcut t r ht⟩
  · rintro ⟨t, r, ht, hr, rfl⟩
    obtain ⟨t', ht', hout⟩ := h.complete a r hr
    obtain rfl : t' = t := List.append_cancel_right (ht'.symm.trans ht)
    rw [hout, hcut t' r ht]
    exact ⟨rfl, rfl⟩

end JsonParser

end MongrelDB
