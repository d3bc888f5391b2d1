import MongrelDB.Walker.Safety
import MongrelDB.Walker.Values

/-!
# Scans are safe

The scan over the members of an object is safe if what it takes is safe where the wanted member has
been seen. The six extractors throw nothing: the only one that could, on a value of another type
than the one that was looked for, never comes to such a value.
-/

namespace MongrelDB

open Text Traced Prog JsonParser

variable {α β : Type} {bad : Stop → Prop} {p : JsonParser}

/-! ### The scan -/

section Scan

variable {here : Bytes → Walk Bool} {H : JsonParser → Prop}

/-- The wanted member is only taken from an unspoilt state in which it has been seen. -/
lemma safe_memberRound {take : Walk β} {stuck : β} {ended : Bool → β}
    (hhere : ∀ k p, Safe bad (here k) p fun b p' => b = true → p'.ok = p.ok ∧ H p')
    (htake : ∀ p, p.ok = true → H p → Safe bad take p fun _ _ => True) :
    Safe bad (memberRound here take stuck ended) p fun r p' => match r with
      | .done _ => True
      | .again _ => p.i < p'.i := by
  refine safe_peek.bind fun ch p₁ ho₁ h₁ => ?_
  have hle₁ := ho₁.le
  split
  · exact safe_pure trivial
  next hq =>
  have hin : p₁.i < p₁.s.length := h₁ (by rintro rfl; simp at hq)
  refine (safe_readStringRaw hin).bind fun k p₂ ho₂ h₂ => ?_
  refine safe_isOk.bind_read fun ok _ => ?_
  split
  · exact safe_pure trivial
  refine safe_expect.bind fun _ p₃ ho₃ _ => ?_
  have hle₃ := ho₃.le
  refine safe_isOk.bind_read fun ok hok => ?_
  split
  · exact safe_pure trivial
  next hok' =>
  have hok₃ : p₃.ok = true := by simpa [hok] using hok'
  refine (hhere k p₃).bind fun b p₄ ho₄ h₄ => ?_
  have hle₄ := ho₄.le
  split
  · next hb =>
    obtain ⟨hok₄, hH⟩ := h₄ hb
    exact (htake p₄ (hok₄.trans hok₃) hH).bind fun _ _ _ _ => safe_pure trivial
  refine safe_skipValue.bind fun _ p₅ ho₅ _ => ?_
  have hle₅ := ho₅.le
  refine safe_isOk.bind_read fun ok _ => ?_
  split
  · exact safe_pure trivial
  refine safe_peek.bind fun ch p₆ ho₆ _ => ?_
  have hle₆ := ho₆.le
  split
  · refine safe_expect.bind fun _ p₇ ho₇ _ => safe_pure ?_
    have hle₇ := ho₇.le
    simp only
    omega
  · exact safe_pure trivial

lemma safe_members {take : Walk β} {stuck : β} {ended : Bool → β}
    (hhere : ∀ k p, Safe bad (here k) p fun b p' => b = true → p'.ok = p.ok ∧ H p')
    (htake : ∀ p, p.ok = true → H p → Safe bad take p fun _ _ => True) :
    Safe bad (iterate (fun _ => memberRound here take stuck ended) ()) p fun _ _ => True := by
  refine safe_iterate (I := fun _ _ => True) trivial fun _ p' _ _ => ?_
  refine (safe_memberRound hhere htake).mono fun r p'' _ hr => ?_
  cases r with
  | done b => trivial
  | again g => exact ⟨trivial, hr⟩

lemma safe_scanMembers {take : Walk (Bool × α)} {out : α}
    (hhere : ∀ k p, Safe bad (here k) p fun b p' => b = true → p'.ok = p.ok ∧ H p')
    (htake : ∀ p, p.ok = true → H p → Safe bad take p fun _ _ => True) :
    Safe bad (scanMembers here take out) p fun _ _ => True := by
  refine safe_peek.bind fun _ _ _ _ => ?_
  split
  · exact safe_pure trivial
  refine safe_expect.bind fun _ _ _ _ => safe_peek.bind fun _ _ _ _ => ?_
  split
  · exact safe_pure trivial
  · exact safe_members hhere htake

end Scan

/-! ### Tests -/

/-- The current character passes the test. -/
def Sights (test : Option UInt8 → Bool) (p : JsonParser) : Prop :=
  ∃ c, p.s[p.i]? = some c ∧ test (some c) = true

lemma Sights.lt {test : Option UInt8 → Bool} (h : Sights test p) : p.i < p.s.length := by
  obtain ⟨c, hc, -⟩ := h
  exact (List.getElem?_eq_some_iff.mp hc).1

lemma safe_keyIs {k key : Bytes} {c : UInt8} : Safe bad (keyIs k key c) p fun b p' =>
    b = true → p'.ok = p.ok ∧ Sights (· == some c) p' := by
  unfold keyIs
  split
  · refine safe_peek_char.bind fun ch p' _ ⟨hok, hch⟩ => safe_pure fun hb => ⟨hok, c, ?_, by simp⟩
    exact hch c (by simpa using hb)
  · exact safe_pure (by simp)

/-- A test that always looks at the next character. -/
lemma safe_peek_test {k key : Bytes} {test : Option UInt8 → Bool} (hnone : test none = false) :
    Safe bad (peek >>= fun ch => pure (k == key && test ch)) p fun b p' =>
      b = true → p'.ok = p.ok ∧ Sights test p' := by
  refine safe_peek_char.bind fun ch p' _ ⟨hok, hch⟩ => safe_pure fun hb => ⟨hok, ?_⟩
  have ht := (Bool.and_eq_true_iff.mp hb).2
  cases ch with
  | none => rw [hnone] at ht; cases ht
  | some c => exact ⟨c, hch c rfl, ht⟩

/-! ### Takes -/

lemma safe_takeString (h : p.i < p.s.length) : Safe bad takeString p fun _ _ => True :=
  (safe_readStringRaw h).bind fun _ _ _ _ => safe_isOk.bind_read fun _ _ => safe_pure trivial

lemma safe_takeNumber : Safe bad takeNumber p fun _ _ => True :=
  safe_readNumberRaw.bind fun _ _ _ _ => safe_isOk.bind_read fun _ _ => safe_pure trivial

lemma safe_takeUint64 {out : UInt64} : Safe bad (takeUint64 out) p fun _ _ => True := by
  refine safe_readNumberRaw.bind fun raw _ _ _ => safe_isOk.bind_read fun _ _ => ?_
  split
  · exact safe_pure trivial
  cases strtoull raw with
  | mk v rest =>
    simp only
    split <;> exact safe_pure trivial

lemma safe_takeRaw {out : Bytes} : Safe bad (takeRaw out) p fun _ _ => True := by
  intro hp
  refine safe_cursor.bind_read (fun start hs => ?_) hp
  refine safe_skipValue.bind fun _ p₁ ho _ => safe_isOk.bind_read fun _ _ => ?_
  split
  · exact safe_pure trivial
  refine safe_cursor.bind_read fun i _ => ?_
  have hle : start ≤ p₁.s.length := by rw [hs, ho.text]; exact hp
  exact (safe_substr hle).bind fun _ _ _ _ => safe_pure trivial

/-- What is known of the value of a safe walk. -/
lemma Safe.of_out {x : Walk α} {Q R : α → JsonParser → Prop} (hx : Safe bad x p Q)
    (h : ∀ a p', x.out p = .ok (a, p') → R a p') : Safe bad x p R :=
  fun hp => ⟨(hx hp).log, fun r hr => ⟨((hx hp).ok r hr).1, h r.1 r.2 hr⟩, (hx hp).error⟩

/-- An unspoilt state in the text is a cut. -/
lemma eq_tape_cut (hok : p.ok = true) (hp : p.i ≤ p.s.length) :
    p = tape.cut (p.s.take p.i) (p.s.drop p.i) := by
  obtain ⟨s, i, ok⟩ := p
  simp only at hok hp
  simp [tape_cut, hok, hp]

/-- From a `t` or an `f` a word is read. -/
lemma safe_readValue_word (hok : p.ok = true)
    (h : Sights (fun c => c == some 0x74 || c == some 0x66) p) :
    Safe bad readValue p fun a _ => ∃ b, a = .bool b := by
  intro hp
  refine safe_readValue.of_out (fun a p' ho => ?_) hp
  obtain ⟨c, hc, ht⟩ := h
  obtain ⟨hlt, hget⟩ := List.getElem?_eq_some_iff.mp hc
  have hc : c = 0x74 ∨ c = 0x66 := by simpa using ht
  have hdrop : p.s.drop p.i = c :: p.s.drop (p.i + 1) := by
    rw [List.drop_eq_getElem_cons hlt, hget]
  have hnext : Next c (p.s.drop p.i) (p.s.drop (p.i + 1)) := by
    rw [hdrop]
    exact dropWhile_eq_self (stops_cons.mpr (by rcases hc with rfl | rfl <;> decide))
  have hread : ReadsValue (p.s.drop p.i) _ _ :=
    hnext.readsValue_iff.mpr (.inr (.inr (.inl ⟨hc, rfl, rfl⟩)))
  obtain ⟨t, -, ht⟩ := reads_readValue.complete _ _ hread
  rw [eq_tape_cut hok hp, ht] at ho
  cases ho
  exact ⟨_, rfl⟩

lemma safe_takeBool (hok : p.ok = true)
    (h : Sights (fun c => c == some 0x74 || c == some 0x66) p) :
    Safe bad takeBool p fun _ _ => True := by
  refine (safe_readValue_word hok h).bind fun v p₁ _ ⟨b, hb⟩ => ?_
  subst hb
  exact (safe_pure (Q := fun _ _ => True) trivial).bind fun _ _ _ _ =>
    safe_isOk.bind_read fun _ _ => safe_pure trivial

/-! ### Extractors -/

section Extractors

variable {body key : Bytes}

/-- A walk over a body ends with a value, if nothing it stops with is allowed. -/
def SafeCall {α : Type} (bad : Stop → Prop) (x : Call α) : Prop :=
  x.Meets Event.Safe (fun _ => True) bad

lemma safeCall_walk {x : Walk α} {Q : α → JsonParser → Prop}
    (hx : Safe bad x ⟨body, 0, true⟩ Q) : SafeCall bad (walk body x) :=
  Run.Meets.bind (hx (Nat.zero_le _)) fun _ _ => Run.meets_pure trivial

lemma SafeCall.bind {x : Call α} {f : α → Call β} (hx : SafeCall bad x)
    (hf : ∀ a, SafeCall bad (f a)) : SafeCall bad (x >>= f) :=
  Run.Meets.bind hx fun a _ => hf a

lemma safeCall_pure {a : α} : SafeCall bad (pure a) := Run.meets_pure trivial

lemma safeCall_getString {out : Bytes} : SafeCall bad (getString body key out) :=
  safeCall_walk <| safe_scanMembers (fun _ _ => safe_keyIs) fun _ _ h => safe_takeString h.lt

lemma safeCall_getNumber {out : Binary64} : SafeCall bad (getNumber body key out) :=
  safeCall_walk <| safe_scanMembers (fun _ _ => safe_peek_test rfl) fun _ _ _ => safe_takeNumber

lemma safeCall_getInt {plat : Platform} {out : Int64} :
    SafeCall bad (getInt plat body key out) := by
  refine safeCall_getNumber.bind fun r => ?_
  obtain ⟨found, d⟩ := r
  cases found <;> exact safeCall_pure

lemma safeCall_getUint64 {out : UInt64} : SafeCall bad (getUint64 body key out) :=
  safeCall_walk <| safe_scanMembers (fun _ _ => safe_peek_test rfl) fun _ _ _ => safe_takeUint64

lemma safeCall_getBool {out : Bool} : SafeCall bad (getBool body key out) :=
  safeCall_walk <| safe_scanMembers (fun _ _ => safe_peek_test rfl) fun _ => safe_takeBool

lemma safeCall_getObjectRaw {out : Bytes} : SafeCall bad (getObjectRaw body key out) :=
  safeCall_walk <| safe_scanMembers (fun _ _ => safe_keyIs) fun _ _ _ => safe_takeRaw

lemma safeCall_getArrayRaw {out : Bytes} : SafeCall bad (getArrayRaw body key out) :=
  safeCall_walk <| safe_scanMembers (fun _ _ => safe_keyIs) fun _ _ _ => safe_takeRaw

/-- A call that may not stop early returns. -/
lemma exists_out_of_safeCall {x : Call α} (h : SafeCall (fun _ => False) x) :
    ∃ a, x.out = .ok a := by
  cases ho : x.out with
  | ok a => exact ⟨a, rfl⟩
  | error e => exact (h.error e ho).elim

end Extractors

end MongrelDB
