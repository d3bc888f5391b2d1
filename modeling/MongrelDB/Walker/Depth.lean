import MongrelDB.Traced.Truncated
import MongrelDB.Walker.Relaxed
import MongrelDB.Walker.Safety

/-!
# How deep `skip_value` recurses

With a bound on the depth of its recursion `skip_value` does the same as without, or it runs out of
it. Every nested call has passed another opening bracket.
-/

namespace MongrelDB

open Text Traced Prog Json

namespace JsonParser

/-! ### A smaller depth -/

section Truncated

variable {skip skip' : Walk Unit}

lemma truncates_iterate {γ β : Type} {body body' : γ → Walk (Round γ β)}
    (h : ∀ g, Truncates .spent (body g) (body' g)) (g : γ) :
    Truncates .spent (iterate body g) (iterate body' g) :=
  truncates_refl.bind fun _ => truncates_loop h _ g

lemma truncates_skipMember (h : Truncates .spent skip skip') :
    Truncates .spent (skipMember skip) (skipMember skip') := by
  apply truncates_refl.bind
  intro c
  apply truncates_refl.ite
  apply truncates_refl.bind
  intro _
  apply truncates_refl.bind
  intro _
  exact h.bind fun _ => truncates_refl

lemma truncates_skipElement (h : Truncates .spent skip skip') :
    Truncates .spent (skipElement skip) (skipElement skip') :=
  h.bind fun _ => truncates_refl

/-- The loop between two brackets. -/
lemma truncates_brackets {close : UInt8} {loop loop' : Walk Unit}
    (h : Truncates .spent loop loop') :
    Truncates .spent
      (advance >>= fun _ => skipWs >>= fun _ => peek >>= fun c =>
        if c == some close then advance else loop)
      (advance >>= fun _ => skipWs >>= fun _ => peek >>= fun c =>
        if c == some close then advance else loop') := by
  apply truncates_refl.bind
  intro _
  apply truncates_refl.bind
  intro _
  apply truncates_refl.bind
  intro c
  exact truncates_refl.ite h

lemma truncates_skipValueN (n : Nat) :
    Truncates .spent (skipValueN n) (skipValueN (n + 1)) := by
  induction n with
  | zero => exact truncates_stop
  | succ n ih =>
    apply truncates_refl.bind
    intro entry
    have hskip : Truncates .spent
        (cursor >>= fun i => emit (.nested entry i) >>= fun _ => skipValueN n)
        (cursor >>= fun i => emit (.nested entry i) >>= fun _ => skipValueN (n + 1)) :=
      truncates_refl.bind fun _ => truncates_refl.bind fun _ => ih
    apply truncates_refl.bind
    intro ch
    apply truncates_refl.ite
    apply Truncates.ite
    · exact truncates_brackets (truncates_iterate (fun _ => truncates_skipMember hskip) ())
    apply Truncates.ite
    · exact truncates_brackets (truncates_iterate (fun _ => truncates_skipElement hskip) ())
    · exact truncates_refl

end Truncated

/-! ### A depth that is enough -/

/-- The number of opening brackets of the text, those in strings included. -/
def openings (b : Bytes) : Nat := b.countP fun c => c == lbrace || c == lbracket

lemma openings_le_of_suffix {v w : Bytes} (h : w <:+ v) : openings w ≤ openings v :=
  h.sublist.countP_le

/-- Fewer brackets are left behind one that was passed. -/
lemma openings_drop_lt {s : Bytes} {c : UInt8} {i j k : Nat} (hc : c = lbrace ∨ c = lbracket)
    (hk : s[k]? = some c) (hi : i ≤ k) (hj : k < j) :
    openings (s.drop j) < openings (s.drop i) := by
  obtain ⟨hlt, hget⟩ := List.getElem?_eq_some_iff.mp hk
  have hdrop : s.drop k = c :: s.drop (k + 1) := by
    rw [List.drop_eq_getElem_cons hlt, hget]
  have hcount : openings (s.drop k) = openings (s.drop (k + 1)) + 1 := by
    rw [hdrop, openings, List.countP_cons_of_pos]
    · rfl
    · rcases hc with rfl | rfl <;> decide
  have hleft : openings (s.drop k) ≤ openings (s.drop i) := by
    obtain ⟨d, rfl⟩ := Nat.exists_eq_add_of_le hi
    rw [← List.drop_drop]
    exact openings_le_of_suffix (List.drop_suffix _ _)
  have hright : openings (s.drop j) ≤ openings (s.drop (k + 1)) := by
    obtain ⟨d, rfl⟩ := Nat.exists_eq_add_of_le (Nat.succ_le_of_lt hj)
    rw [← List.drop_drop]
    exact openings_le_of_suffix (List.drop_suffix _ _)
  omega

section Enough

variable {bad : Stop → Prop} {p : JsonParser} {skip loop : Walk Unit}

lemma safe_brackets {close : UInt8} (hin : p.i < p.s.length)
    (hloop : ∀ p', p.i < p'.i → p'.s = p.s → Safe bad loop p' fun _ _ => True) :
    Safe bad (advance >>= fun _ => skipWs >>= fun _ => peek >>= fun c =>
      if c == some close then advance else loop) p fun _ _ => True := by
  apply (safe_advance hin).bind
  intro _ p₁ ho₁ h₁
  apply safe_skipWs.bind
  intro _ p₂ ho₂ _
  apply safe_peek.bind
  intro c p₃ ho₃ h₃
  split
  next hc =>
    apply (safe_advance (h₃ ?_)).mono fun _ _ _ _ => trivial
    rintro rfl
    simp at hc
  next =>
    have hle₂ := ho₂.le
    have hle₃ := ho₃.le
    exact hloop p₃ (by omega) (ho₃.text.trans (ho₂.text.trans ho₁.text))

lemma safe_skipMembers {entry : Nat} (he : entry < p.i)
    (hskip : ∀ p', entry < p'.i → p'.s = p.s → Safe bad skip p' fun _ _ => True) :
    Safe bad (iterate (fun _ => skipMember skip) ()) p fun _ _ => True := by
  apply safe_iterate (I := fun _ p' => entry < p'.i ∧ p'.s = p.s) ⟨he, rfl⟩
  intro _ p' _ hI
  apply (safe_skipMember hI.1 fun p'' hlt ht => hskip p'' hlt (ht.trans hI.2)).mono
  intro r p'' ho hr
  cases r with
  | done b => trivial
  | again g => exact ⟨⟨hI.1.trans hr, ho.text.trans hI.2⟩, hr⟩

lemma safe_skipElements {entry : Nat} (he : entry < p.i)
    (hskip : ∀ p', entry < p'.i → p'.s = p.s → Safe bad skip p' fun _ _ => True) :
    Safe bad (iterate (fun _ => skipElement skip) ()) p fun _ _ => True := by
  apply safe_iterate (I := fun _ p' => entry < p'.i ∧ p'.s = p.s) ⟨he, rfl⟩
  intro _ p' _ hI
  apply (safe_skipElement (hskip p' hI.1 hI.2)).mono
  intro r p'' ho hr
  cases r with
  | done b => trivial
  | again g => exact ⟨⟨hI.1.trans hr, ho.text.trans hI.2⟩, hr⟩

/-- The depth is enough as soon as it exceeds the number of brackets that are left. -/
lemma safe_skipValueN_openings {n : Nat} (hn : openings (p.s.drop p.i) < n) :
    Safe bad (skipValueN n) p fun _ _ => True := by
  induction n generalizing p with
  | zero => exact absurd hn (Nat.not_lt_zero _)
  | succ n ih =>
    apply safe_cursor.bind_read
    rintro _ rfl
    apply safe_peek_char.bind
    rintro ch p₁ ho₁ ⟨-, h₁⟩
    have hle₁ := ho₁.le
    have hin : ∀ c, ch = some c → p₁.i < p₁.s.length := fun c hc =>
      (List.getElem?_eq_some_iff.mp (h₁ c hc)).1
    -- the recursive call, behind a bracket that was seen
    have hskip : ∀ c, c = lbrace ∨ c = lbracket → ch = some c → ∀ p', p₁.i < p'.i → p'.s = p₁.s →
        Safe bad (cursor >>= fun i => emit (.nested p.i i) >>= fun _ => skipValueN n) p'
          fun _ _ => True := by
      intro c hc hch p' hlt htext
      apply safe_cursor.bind_read
      rintro _ rfl
      apply (safe_emit (e := .nested p.i p'.i) (hle₁.trans_lt hlt)).bind_read
      intro _ _
      apply ih
      have h := openings_drop_lt hc (h₁ c hch) hle₁ hlt
      rw [htext, ho₁.text]
      rw [ho₁.text] at h
      omega
    split
    next hc =>
      exact (safe_readStringRaw (hin quote (by simpa using hc))).bind
        fun _ _ _ _ => safe_pure trivial
    split
    next hc =>
      have hch : ch = some lbrace := by simpa using hc
      apply safe_brackets (hin _ hch)
      intro p' hlt htext
      apply safe_skipMembers hlt
      intro p'' hlt' htext'
      exact hskip _ (.inl rfl) hch p'' hlt' (htext'.trans htext)
    split
    next hc =>
      have hch : ch = some lbracket := by simpa using hc
      apply safe_brackets (hin _ hch)
      intro p' hlt htext
      apply safe_skipElements hlt
      intro p'' hlt' htext'
      exact hskip _ (.inr rfl) hch p'' hlt' (htext'.trans htext)
    split
    · exact safe_advanceWhile.mono fun _ _ _ _ => trivial
    split
    · exact safe_readNumberRaw.bind fun _ _ _ _ => safe_pure trivial
    · exact safe_fail.mono fun _ _ _ _ => trivial

end Enough

end JsonParser

end MongrelDB
