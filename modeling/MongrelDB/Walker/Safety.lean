import MongrelDB.Client.Http

/-!
# Every walk stays inside the text and makes progress

The rules of pre- and postconditions for walkers. `Safe bad x p Q` says of the walk `x` from the
state `p` that every event it logs is a safe one, that it ends with a value or with a stop of the
kind `bad`, that the cursor has only moved forward and is still in the text, that the flag has not
come back, and that `Q` holds of the value and the final state.
-/

namespace MongrelDB

open Text Traced Prog JsonParser

/-! ### Safe events and states -/

/-- Reads are inside the string, the cursor moves forward and not past the end, the flag does not
come back, a substring starts inside the string, another round or a nested call starts further on
than the one before, and no request is sent. -/
def Event.Safe : Event → Prop
  | .read k size => k < size
  | .move i j size => i ≤ j ∧ j ≤ size
  | .verdict before after => before = false → after = false
  | .substr start _ size => start ≤ size
  | .again i j => i < j
  | .nested i j => i < j
  | .sent _ => False

/-- The one way in which a walk over a response may stop early. -/
def Stop.IsQueryException : Stop → Prop
  | .thrown (.query _) => True
  | _ => False

lemma Stop.IsQueryException.eq_thrown {e : Stop} (h : e.IsQueryException) :
    ∃ text, e = .thrown (.query text) :=
  match e, h with
  | .thrown (.query text), _ => ⟨text, rfl⟩

/-- What a walk does to the state of the parser. -/
structure Onward (p p' : JsonParser) : Prop where
  text : p'.s = p.s
  le : p.i ≤ p'.i
  inText : p'.i ≤ p'.s.length
  flag : p'.ok = true → p.ok = true

lemma Onward.refl {p : JsonParser} (h : p.i ≤ p.s.length) : Onward p p :=
  ⟨rfl, le_rfl, h, id⟩

lemma Onward.trans {p p' p'' : JsonParser} (h : Onward p p') (h' : Onward p' p'') :
    Onward p p'' :=
  ⟨h'.text.trans h.text, h.le.trans h'.le, h'.inText, h.flag ∘ h'.flag⟩

def Safe {α : Type} (bad : Stop → Prop) (x : Walk α) (p : JsonParser)
    (Q : α → JsonParser → Prop) : Prop :=
  p.i ≤ p.s.length → x.Meets p Event.Safe (fun a p' => Onward p p' ∧ Q a p') bad

variable {α β γ : Type} {bad : Stop → Prop} {p : JsonParser}

lemma safe_pure {a : α} {Q : α → JsonParser → Prop} (h : Q a p) : Safe bad (pure a) p Q :=
  fun hp => meets_pure ⟨Onward.refl hp, h⟩

lemma Safe.bind {x : Walk α} {f : α → Walk β} {Q : α → JsonParser → Prop}
    {R : β → JsonParser → Prop} (hx : Safe bad x p Q)
    (hf : ∀ a p', Onward p p' → Q a p' → Safe bad (f a) p' R) : Safe bad (x >>= f) p R := by
  intro hp
  refine (hx hp).bind fun a p' ⟨ho, hq⟩ => ?_
  exact (hf a p' ho hq ho.inText).mono fun b p'' ⟨ho', hr⟩ => ⟨ho.trans ho', hr⟩

lemma Safe.mono {x : Walk α} {Q R : α → JsonParser → Prop} (hx : Safe bad x p Q)
    (h : ∀ a p', Onward p p' → Q a p' → R a p') : Safe bad x p R :=
  fun hp => (hx hp).mono fun a p' ⟨ho, hq⟩ => ⟨ho, h a p' ho hq⟩

/-- A step that leaves the state as it is. -/
lemma Safe.bind_read {x : Walk α} {f : α → Walk β} {φ : α → Prop} {R : β → JsonParser → Prop}
    (hx : Safe bad x p fun a p' => φ a ∧ p' = p) (hf : ∀ a, φ a → Safe bad (f a) p R) :
    Safe bad (x >>= f) p R :=
  hx.bind fun a _ _ ⟨ha, hp'⟩ => hp' ▸ hf a ha

lemma safe_throwQuery {msg : String} {Q : α → JsonParser → Prop} :
    Safe Stop.IsQueryException (throwQuery msg) p Q := fun _ => meets_stop trivial

lemma safe_get : Safe bad get p fun a p' => a = p ∧ p' = p :=
  fun hp => meets_get ⟨Onward.refl hp, rfl, rfl⟩

lemma safe_emit {e : Event} (he : e.Safe) : Safe bad (emit e) p fun _ p' => True ∧ p' = p :=
  fun hp => meets_emit he ⟨Onward.refl hp, trivial, rfl⟩

lemma safe_set {p' : JsonParser} {Q : Unit → JsonParser → Prop} (h : Onward p p') (hq : Q () p') :
    Safe bad (set p') p Q :=
  fun _ => meets_set ⟨h, hq⟩

/-! ### The parser's own steps -/

namespace JsonParser

lemma safe_cursor : Safe bad cursor p fun a p' => a = p.i ∧ p' = p :=
  safe_get.bind_read fun _ ha => safe_pure ⟨congrArg JsonParser.i ha, rfl⟩

lemma safe_isOk : Safe bad isOk p fun a p' => a = p.ok ∧ p' = p :=
  safe_get.bind_read fun _ ha => safe_pure ⟨congrArg JsonParser.ok ha, rfl⟩

lemma safe_inside : Safe bad inside p fun a p' => a = decide (p.i < p.s.length) ∧ p' = p :=
  safe_get.bind_read fun _ ha => safe_pure ⟨by rw [ha], rfl⟩

lemma safe_charAt {k : Nat} (hk : k < p.s.length) :
    Safe bad (charAt k) p fun c p' => c = p.s[k] ∧ p' = p := by
  refine safe_get.bind_read fun a ha => ?_
  subst ha
  refine (safe_emit (e := .read k a.s.length) hk).bind_read fun _ _ => ?_
  rw [List.getElem?_eq_getElem hk]
  exact safe_pure ⟨rfl, rfl⟩

lemma safe_current (h : p.i < p.s.length) :
    Safe bad current p fun c p' => c = p.s[p.i] ∧ p' = p := by
  refine safe_cursor.bind_read fun a ha => ?_
  subst ha
  exact safe_charAt h

lemma safe_setCursor {j : Nat} (h : p.i ≤ j) (h' : j ≤ p.s.length) :
    Safe bad (setCursor j) p fun _ p' => p'.i = j ∧ p'.ok = p.ok := by
  refine safe_get.bind_read fun a ha => ?_
  subst ha
  refine (safe_emit (e := .move a.i j a.s.length) ⟨h, h'⟩).bind_read fun _ _ => ?_
  exact safe_set ⟨rfl, h, h', id⟩ ⟨rfl, rfl⟩

lemma safe_advance (h : p.i < p.s.length) :
    Safe bad advance p fun _ p' => p'.i = p.i + 1 ∧ p'.ok = p.ok := by
  refine safe_cursor.bind_read fun a ha => ?_
  subst ha
  exact safe_setCursor (by omega) h

lemma safe_next (h : p.i < p.s.length) : Safe bad next p fun _ p' => p'.i = p.i + 1 :=
  (safe_current h).bind_read fun _ _ => (safe_advance h).bind fun _ _ _ h => safe_pure h.1

lemma safe_fail : Safe bad fail p fun _ _ => True := by
  intro hp
  refine safe_get.bind_read (fun a ha => ?_) hp
  subst ha
  refine (safe_emit (e := .verdict a.ok false) fun _ => rfl).bind_read fun _ _ => ?_
  exact safe_set ⟨rfl, le_rfl, hp, by simp⟩ trivial

lemma safe_substr {start len : Nat} (h : start ≤ p.s.length) :
    Safe bad (substr start len) p fun _ p' => True ∧ p' = p := by
  refine safe_get.bind_read fun a ha => ?_
  subst ha
  refine (safe_emit (e := .substr start len a.s.length) h).bind_read fun _ _ => ?_
  rw [if_pos h]
  exact safe_pure ⟨trivial, rfl⟩

/-- The loop rule: the bound on the rounds is never reached, since each round moves the cursor. -/
lemma safe_iterate {body : γ → Walk (Round γ β)} {I : γ → JsonParser → Prop}
    {Q : β → JsonParser → Prop} {g : γ} (hI : I g p)
    (hbody : ∀ g p', Onward p p' → I g p' → Safe bad (body g) p' (fun r p'' => match r with
      | .done b => Q b p''
      | .again g' => I g' p'' ∧ p'.i < p''.i)) : Safe bad (iterate body g) p Q := by
  intro hp
  refine meets_get_eq.bind ?_
  rintro a s ⟨ha, hs⟩
  rw [ha, hs]
  refine loop_meets (I := fun g p' => Onward p p' ∧ I g p') (μ := fun p' => p'.s.length - p'.i)
    ?_ ⟨Onward.refl hp, hI⟩ (by omega)
  rintro g p' ⟨ho, hi⟩
  refine (hbody g p' ho hi ho.inText).mono fun r p'' ⟨ho', hr⟩ => ?_
  cases r with
  | done b => exact ⟨ho.trans ho', hr⟩
  | again g' =>
    have hlt := hr.2
    have hin := ho'.inText
    have htext := congrArg List.length ho'.text
    exact ⟨⟨ho.trans ho', hr.1⟩, hlt, by omega⟩

/-! ### Tokens -/

lemma safe_advanceWhile {q : UInt8 → Bool} :
    Safe bad (advanceWhile q) p fun _ p' => p'.ok = p.ok := by
  refine safe_iterate (I := fun _ p' => p'.ok = p.ok) rfl fun _ p' _ hI => ?_
  refine safe_inside.bind_read fun b hb => ?_
  split
  · exact safe_pure hI
  · next h =>
    have hin : p'.i < p'.s.length := by simpa [hb] using h
    refine (safe_current hin).bind_read fun c _ => ?_
    split
    · exact (safe_advance hin).bind fun _ _ _ h => safe_pure ⟨h.2.trans hI, by omega⟩
    · exact safe_pure hI

lemma safe_skipWs : Safe bad skipWs p fun _ p' => p'.ok = p.ok := safe_advanceWhile

/-- A character that `peek` returns is the current one. -/
lemma safe_peek_char : Safe bad peek p fun ch p' =>
    p'.ok = p.ok ∧ ∀ c, ch = some c → p'.s[p'.i]? = some c := by
  refine safe_skipWs.bind fun _ p' _ hok => ?_
  refine safe_inside.bind_read fun b hb => ?_
  split
  · next h =>
    have hin : p'.i < p'.s.length := by simpa [hb] using h
    refine (safe_current hin).bind_read fun c hc => safe_pure ⟨hok, ?_⟩
    rintro _ ⟨⟩
    rw [List.getElem?_eq_getElem hin, hc]
  · exact safe_pure ⟨hok, by rintro c ⟨⟩⟩

lemma safe_peek : Safe bad peek p fun ch p' => ch ≠ none → p'.i < p'.s.length := by
  refine safe_peek_char.mono fun ch p' _ h hne => ?_
  obtain ⟨c, rfl⟩ := Option.ne_none_iff_exists'.mp hne
  exact (List.getElem?_eq_some_iff.mp (h.2 c rfl)).1

lemma safe_expect {ch : UInt8} : Safe bad (expect ch) p fun _ _ => True := by
  refine safe_skipWs.bind fun _ p' _ _ => ?_
  refine safe_inside.bind_read fun b hb => ?_
  split
  · exact safe_fail
  · next h =>
    have hin : p'.i < p'.s.length := by simpa [hb] using h
    refine (safe_current hin).bind_read fun c _ => ?_
    split
    · exact (safe_advance hin).mono fun _ _ _ _ => trivial
    · exact safe_fail

/-! ### Strings -/

lemma safe_hexRun (h : p.i + 4 ≤ p.s.length) : Safe bad hexRun p fun _ _ => True := by
  refine safe_iterate (I := fun g p' => g.1 ≤ 4 ∧ p'.i + (4 - g.1) ≤ p'.s.length)
    ⟨by simp, by simpa using h⟩ fun g p' _ hI => ?_
  obtain ⟨k, cp⟩ := g
  simp only at hI ⊢
  split
  · next hk =>
    refine (safe_next (by omega)).bind fun c p'' ho hi => safe_pure ⟨⟨hk, ?_⟩, by omega⟩
    rw [ho.text]
    omega
  · exact safe_pure trivial

/-- The look-ahead reads at most `k` characters from `j` on. -/
lemma safe_lookHex {k j lo : Nat} (h : j + k ≤ p.s.length) :
    Safe bad (lookHex k j lo) p fun r p' => (∀ a ∈ r, a.1 = j + k) ∧ p' = p := by
  induction k generalizing j lo with
  | zero => exact safe_pure ⟨by simp, rfl⟩
  | succ k ih =>
    refine (safe_charAt (by omega)).bind_read fun c _ => ?_
    split
    · refine (safe_emit (e := .again j (j + 1)) (Nat.lt_succ_self j)).bind_read fun _ _ => ?_
      refine (ih (by omega)).mono fun r p' _ hr => ⟨fun a ha => ?_, hr.2⟩
      rw [hr.1 a ha]
      omega
    · exact safe_pure ⟨by simp, rfl⟩

lemma safe_lowSurrogate {cp : Nat} : Safe bad (lowSurrogate cp) p fun _ _ => True := by
  refine safe_get.bind_read fun a ha => ?_
  subst ha
  split
  · next h =>
    refine (safe_charAt (by omega)).bind_read fun _ _ => ?_
    split
    · refine (safe_charAt (by omega)).bind_read fun _ _ => ?_
      split
      · refine (safe_lookHex (by omega)).bind_read fun r hr => ?_
        split
        · next j lo =>
          have hj : j = a.i + 2 + 4 := hr (j, lo) rfl
          split
          · exact (safe_setCursor (by omega) (by omega)).bind fun _ _ _ _ => safe_pure trivial
          · exact safe_pure trivial
        · exact safe_pure trivial
      · exact safe_pure trivial
    · exact safe_pure trivial
  · exact safe_pure trivial

/-- The four digits are looked at only if they are there. -/
lemma safe_readUnicode {out : Bytes} : Safe bad (readUnicode out) p fun _ _ => True := by
  refine safe_get.bind_read fun a ha => ?_
  subst ha
  split
  · next h =>
    refine (safe_hexRun h).bind fun cp p' _ _ => ?_
    split
    · exact safe_lowSurrogate.bind fun _ _ _ _ => safe_pure trivial
    · split <;> exact safe_pure trivial
  · exact safe_pure trivial

lemma safe_stringRound {out : Bytes} : Safe bad (stringRound out) p fun r p' => match r with
    | .done _ => True
    | .again _ => p.i < p'.i := by
  refine safe_inside.bind_read fun b hb => ?_
  split
  · exact safe_fail.bind fun _ _ _ _ => safe_pure trivial
  · next h =>
    have hin : p.i < p.s.length := by simpa [hb] using h
    refine (safe_next hin).bind fun c p₁ ho₁ h₁ => ?_
    split
    · exact safe_pure trivial
    · split
      · refine safe_inside.bind_read fun b hb => ?_
        split
        · next h' =>
          have hin' : p₁.i < p₁.s.length := by simpa [hb] using h'
          refine (safe_next hin').bind fun n p₂ ho₂ h₂ => ?_
          split
          · refine safe_readUnicode.bind fun out' p₃ ho₃ _ => safe_pure ?_
            have := ho₃.le
            simp only
            omega
          · exact safe_pure (by simp only; omega)
        · exact safe_pure (by simp only; omega)
      · exact safe_pure (by simp only; omega)

/-- The caller has seen the opening quote, so the unchecked step over it stays in the text. -/
lemma safe_readStringRaw (h : p.i < p.s.length) :
    Safe bad readStringRaw p fun _ p' => p.i < p'.i := by
  refine (safe_advance h).bind fun _ p₁ _ h₁ => ?_
  refine safe_iterate (I := fun _ p' => p.i < p'.i) (by omega) fun out p' _ hI => ?_
  refine safe_stringRound.mono fun r p'' ho hr => ?_
  have := ho.le
  cases r with
  | done b => exact lt_of_lt_of_le hI ho.le
  | again g => exact ⟨lt_of_lt_of_le hI ho.le, hr⟩

lemma safe_readNumberRaw : Safe bad readNumberRaw p fun _ _ => True := by
  intro hp
  refine safe_cursor.bind_read (fun start hs => ?_) hp
  refine safe_advanceWhile.bind fun _ p' ho _ => ?_
  refine safe_cursor.bind_read fun stop _ => ?_
  have hle : start ≤ p'.s.length := by
    rw [hs, ho.text]
    exact hp
  exact (safe_substr hle).mono fun _ _ _ _ => trivial

/-! ### Values -/

lemma safe_skipEnd {close : UInt8} : Safe bad (skipEnd close) p fun r p' => match r with
    | .done _ => True
    | .again _ => p.i < p'.i := by
  refine safe_isOk.bind_read fun b _ => ?_
  split
  · exact safe_pure trivial
  refine safe_peek.bind fun n p₁ ho₁ h₁ => ?_
  have hle₁ := ho₁.le
  split
  · next hn =>
    have hin : p₁.i < p₁.s.length := h₁ (by rintro rfl; simp at hn)
    exact (safe_advance hin).bind fun _ p₂ _ h₂ => safe_pure (by simp only; omega)
  split
  · next hn =>
    have hin : p₁.i < p₁.s.length := h₁ (by rintro rfl; simp at hn)
    exact (safe_advance hin).bind fun _ _ _ _ => safe_pure trivial
  · exact safe_fail.bind fun _ _ _ _ => safe_pure trivial

/-- The object loop: a nested call starts further on than the call it is made from. -/
lemma safe_skipMember {skip : Walk Unit} {entry : Nat} (he : entry < p.i)
    (hskip : ∀ p', entry < p'.i → p'.s = p.s → Safe bad skip p' fun _ _ => True) :
    Safe bad (skipMember skip) p fun r p' => match r with
      | .done _ => True
      | .again _ => p.i < p'.i := by
  refine safe_peek.bind fun c p₁ ho₁ h₁ => ?_
  split
  · exact safe_fail.bind fun _ _ _ _ => safe_pure trivial
  next hq =>
  have hin : p₁.i < p₁.s.length := h₁ (by rintro rfl; simp at hq)
  refine (safe_readStringRaw hin).bind fun k p₂ ho₂ h₂ => ?_
  refine safe_expect.bind fun _ p₃ ho₃ _ => ?_
  have hle := ho₁.le
  have hle' := ho₃.le
  refine (hskip p₃ (by omega) (ho₃.text.trans (ho₂.text.trans ho₁.text))).bind
    fun _ p₄ ho₄ _ => ?_
  have hle₄ := ho₄.le
  refine safe_skipEnd.mono fun r p₅ _ hr => ?_
  cases r with
  | done b => trivial
  | again g => simp only at hr ⊢; omega

/-- The array loop; its nested call is made from behind the bracket. -/
lemma safe_skipElement {skip : Walk Unit} (hskip : Safe bad skip p fun _ _ => True) :
    Safe bad (skipElement skip) p fun r p' => match r with
      | .done _ => True
      | .again _ => p.i < p'.i := by
  refine hskip.bind fun _ p₁ ho₁ _ => ?_
  have hle₁ := ho₁.le
  refine safe_skipEnd.mono fun r p₂ _ hr => ?_
  cases r with
  | done b => trivial
  | again g => simp only at hr ⊢; omega

/-- The depth is enough as soon as it exceeds what is left of the text. -/
lemma safe_skipValueN {n : Nat} (hn : p.s.length - p.i < n) :
    Safe bad (skipValueN n) p fun _ _ => True := by
  induction n generalizing p with
  | zero => exact absurd hn (Nat.not_lt_zero _)
  | succ n ih =>
    -- the recursive call, from a state further on in the same text
    have hskip : ∀ p' : JsonParser, p.i < p'.i → p'.s = p.s →
        Safe bad (cursor >>= fun i => emit (.nested p.i i) >>= fun _ => skipValueN n) p'
          fun _ _ => True := by
      intro p' hlt htext hp'
      refine safe_cursor.bind_read (fun i hi => ?_) hp'
      refine (safe_emit (e := .nested p.i i) (by rw [hi]; exact hlt)).bind_read fun _ _ => ?_
      exact ih (by rw [htext] at hp' ⊢; omega)
    refine safe_cursor.bind_read fun entry he => ?_
    subst he
    refine safe_peek.bind fun ch p₁ ho₁ h₁ => ?_
    have hle₁ := ho₁.le
    -- a string
    split
    · next hc =>
      have hin : p₁.i < p₁.s.length := h₁ (by rintro rfl; simp at hc)
      exact (safe_readStringRaw hin).bind fun _ _ _ _ => safe_pure trivial
    -- an object: every round begins behind the brace
    split
    · next hc =>
      have hin : p₁.i < p₁.s.length := h₁ (by rintro rfl; simp at hc)
      refine (safe_advance hin).bind fun _ p₂ ho₂ h₂ => ?_
      refine safe_skipWs.bind fun _ p₃ ho₃ _ => ?_
      refine safe_peek.bind fun c p₄ ho₄ h₄ => ?_
      have hle₃ := ho₃.le
      have hle₄ := ho₄.le
      split
      · next hc =>
        have hin : p₄.i < p₄.s.length := h₄ (by rintro rfl; simp at hc)
        exact (safe_advance hin).mono fun _ _ _ _ => trivial
      · refine safe_iterate (I := fun _ p' => p.i < p'.i ∧ p'.s = p.s) ⟨by omega,
          ho₄.text.trans (ho₃.text.trans (ho₂.text.trans ho₁.text))⟩ fun _ p' _ hI => ?_
        refine (safe_skipMember hI.1 fun p'' hlt ht => hskip p'' hlt (ht.trans hI.2)).mono
          fun r p'' ho hr => ?_
        have := ho.le
        cases r with
        | done b => trivial
        | again g => exact ⟨⟨by omega, ho.text.trans hI.2⟩, hr⟩
    -- an array: every round begins behind the bracket
    split
    · next hc =>
      have hin : p₁.i < p₁.s.length := h₁ (by rintro rfl; simp at hc)
      refine (safe_advance hin).bind fun _ p₂ ho₂ h₂ => ?_
      refine safe_skipWs.bind fun _ p₃ ho₃ _ => ?_
      refine safe_peek.bind fun c p₄ ho₄ h₄ => ?_
      have hle₃ := ho₃.le
      have hle₄ := ho₄.le
      split
      · next hc =>
        have hin : p₄.i < p₄.s.length := h₄ (by rintro rfl; simp at hc)
        exact (safe_advance hin).mono fun _ _ _ _ => trivial
      · refine safe_iterate (I := fun _ p' => p.i < p'.i ∧ p'.s = p.s) ⟨by omega,
          ho₄.text.trans (ho₃.text.trans (ho₂.text.trans ho₁.text))⟩ fun _ p' _ hI => ?_
        refine (safe_skipElement (hskip p' hI.1 hI.2)).mono fun r p'' ho hr => ?_
        have := ho.le
        cases r with
        | done b => trivial
        | again g => exact ⟨⟨by omega, ho.text.trans hI.2⟩, hr⟩
    -- a word, a number, or no value at all
    split
    · exact safe_advanceWhile.mono fun _ _ _ _ => trivial
    split
    · exact safe_readNumberRaw.bind fun _ _ _ _ => safe_pure trivial
    · exact safe_fail

/-- `skip_value` reads nothing beyond the text and its nested calls end. -/
lemma safe_skipValue : Safe bad skipValue p fun _ _ => True := by
  refine safe_get.bind_read fun a ha => ?_
  subst ha
  exact safe_skipValueN (by omega)

lemma safe_readValue : Safe bad readValue p fun _ _ => True := by
  refine safe_peek.bind fun ch p₁ ho₁ h₁ => ?_
  have hp₁ := ho₁.inText
  split
  · next hc =>
    have hin : p₁.i < p₁.s.length := h₁ (by rintro rfl; simp at hc)
    exact (safe_readStringRaw hin).bind fun _ _ _ _ => safe_pure trivial
  split
  · refine safe_cursor.bind_read fun start hs => ?_
    refine safe_skipValue.bind fun _ p₂ ho₂ _ => ?_
    refine safe_cursor.bind_read fun i _ => ?_
    have hle : start ≤ p₂.s.length := by rw [hs, ho₂.text]; exact hp₁
    exact (safe_substr hle).bind fun _ _ _ _ => safe_pure trivial
  split
  · refine safe_cursor.bind_read fun start hs => ?_
    refine safe_advanceWhile.bind fun _ p₂ ho₂ _ => ?_
    refine safe_cursor.bind_read fun i _ => ?_
    have hle : start ≤ p₂.s.length := by rw [hs, ho₂.text]; exact hp₁
    exact (safe_substr hle).bind fun _ _ _ _ => safe_pure trivial
  split
  · exact safe_advanceWhile.bind fun _ _ _ _ => safe_pure trivial
  split
  · refine safe_readNumberRaw.bind fun num _ _ _ => ?_
    split <;> exact safe_pure trivial
  · exact safe_fail.bind fun _ _ _ _ => safe_pure trivial

end JsonParser

end MongrelDB
