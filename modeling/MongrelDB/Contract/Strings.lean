import MongrelDB.Walker.Quotes

/-!
# What `read_string_raw` returns

Where `read_string_raw` ends is the end of the string exactly if no `\u` leads it astray. From a
string of the grammar it returns what the string stands for, in well-formed UTF-8 if the string is.
-/

namespace MongrelDB

open Text Traced Prog Json JsonParser

/-! ### Where a string ends -/

/-- From the quote between `u` and `v`, `read_string_raw` only ends behind the first quote that is
not escaped if and only if the text before this quote, or else the whole text, can be divided as the
walker divides it. -/
theorem readStringRaw_firstQuote_iff (u v : Bytes) :
    (∀ a p, readStringRaw.out ⟨u ++ quote :: v, u.length, true⟩ = .ok (a, p) → p.ok = true →
      ∃ b r, FirstQuote v b r ∧ p.i = u.length + b.length + 2) ↔
    (∃ b r, FirstQuote v b r ∧ Divided (quote :: r) b) ∨ Divided [] v := by
  have hrun : ∀ a p, readStringRaw.out ⟨u ++ quote :: v, u.length, true⟩ = .ok (a, p) →
      p.ok = true → ∃ r, Quoted v a r ∧ p.i + r.length = u.length + v.length + 1 := by
    intro a p hp hok
    obtain ⟨r, hr⟩ := reads_readStringRaw.sound u a p hp hok
    obtain ⟨t, ht, hout⟩ := reads_readStringRaw.complete a r hr
    rw [← tape_cut, hout] at hp
    cases hp
    have hlength := congrArg List.length ht
    rw [List.length_cons, List.length_append] at hlength
    refine ⟨r, hr, ?_⟩
    rw [tape_cut_i, List.length_append]
    omega
  rw [← firstQuote_iff]
  constructor
  · intro h s r hq
    obtain ⟨t, ht, hout⟩ := reads_readStringRaw.complete s r hq
    obtain ⟨b, r', hb, hi⟩ := h s _ (hout u) rfl
    obtain ⟨b', hb', -⟩ := hq.divided
    have hlength : (quote :: r').length = (quote :: r).length := by
      have ht' := congrArg List.length ht
      have hv := congrArg List.length hb.eq
      rw [tape_cut_i, List.length_append] at hi
      simp only [List.length_append, List.length_cons] at ht' hv ⊢
      omega
    obtain ⟨-, hr⟩ := List.append_inj' (hb.eq.symm.trans hb') hlength
    obtain rfl := (List.cons.inj hr).2
    exact ⟨b, hb⟩
  · intro h a p hp hok
    obtain ⟨r, hq, hi⟩ := hrun a p hp hok
    obtain ⟨b, hb⟩ := h a r hq
    refine ⟨b, r, hb, ?_⟩
    have hv := congrArg List.length hb.eq
    rw [List.length_append, List.length_cons] at hv
    omega

/-- A string with an escape that is cut short, and another string. -/
def shortEscapeText : Bytes := ascii "\"\\u12\",\"b\""

/-- The closing quote is taken for a digit. -/
theorem readStringRaw_swallows :
    readStringRaw.out ⟨shortEscapeText, 0, true⟩ =
      .ok ([0xE1, 0x88, 0x80], ⟨shortEscapeText, 8, true⟩) ∧
    FirstQuote (shortEscapeText.drop 1) (ascii "\\u12") (ascii ",\"b\"") := by
  refine ⟨by decide +kernel, rfl, by decide, fun b' r' hb _ => ?_⟩
  by_contra hlt
  have hget : (shortEscapeText.drop 1)[b'.length]? = some quote := by
    rw [hb, List.getElem?_append_right le_rfl, Nat.sub_self]
    rfl
  have hlt : b'.length < 4 := by simpa [ascii] using hlt
  interval_cases b'.length <;> exact absurd hget (by decide)

/-! ### What a string stands for -/

/-- From a string of the grammar, `read_string_raw` returns what it stands for and ends behind it.
This is well-formed UTF-8 if the raw bytes of the string are wherever they stand together, and so in
particular if the string as a whole is. -/
theorem readStringRaw_decode (u : Bytes) (s : StrLit) (r : Bytes) :
    readStringRaw.out ⟨u ++ (s.render ++ r), u.length, true⟩ =
      .ok (s.decode, ⟨u ++ (s.render ++ r), u.length + s.render.length, true⟩) ∧
    ((∀ raw ∈ rawRuns s [], WellFormedUtf8 raw) → WellFormedUtf8 s.decode) ∧
    (WellFormedUtf8 s.render → WellFormedUtf8 s.decode) := by
  have hruns : (∀ raw ∈ rawRuns s [], WellFormedUtf8 raw) → WellFormedUtf8 s.decode :=
    StrLit.wellFormedUtf8_decode
  refine ⟨?_, hruns, fun h => hruns (WellFormedUtf8.rawRuns ?_)⟩
  · obtain ⟨t, ht, hout⟩ := reads_readStringRaw.complete _ _ (quoted_body s r)
    have hrender : quote :: (s.body ++ quote :: r) = s.render ++ r := by
      simp [StrLit.render]
    rw [hrender] at ht hout
    obtain rfl : s.render = t := List.append_cancel_right ht
    have hout := hout u
    rwa [tape_cut, tape_cut, List.append_assoc, List.length_append] at hout
  · obtain ⟨-, h⟩ := WellFormedUtf8.of_append_cons (a := []) (by decide) h
    exact (WellFormedUtf8.of_append_cons (by decide) h).1

end MongrelDB
