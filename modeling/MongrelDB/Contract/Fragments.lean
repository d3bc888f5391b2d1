import MongrelDB.Walker.Extract
import MongrelDB.Walker.Local

/-!
# Copies of members

`get_object_raw` and `get_array_raw` copy the value of a member out of the body, and the copy is
walked again. The walker looks up to six characters ahead of the cursor and asks whether the text is
that long, so that its end matters; the copy is read like the value in its place nevertheless.
-/

namespace MongrelDB

open Text Traced Prog Json JsonParser

/-- `s` is the copy of a value that begins with `opening` and stands in the body at `start`, and
means the same there and on its own. -/
structure Copied (opening : UInt8) (body s : Bytes) (start : Nat) : Prop where
  isPrefix : s <+: body.drop start
  head : s.head? = some opening
  inPlace : skipValue.out ⟨body, start, true⟩ = .ok ((), ⟨body, start + s.length, true⟩)
  alone : skipValue.out ⟨s, 0, true⟩ = .ok ((), ⟨s, s.length, true⟩)
  tokens : ∃ l, Lexed (body.drop start) l (body.drop (start + s.length)) ∧ Lexed s l []
  strings : ∀ k, (s.drop k).head? = some quote → SameAt readStringRaw body s start k
  numbers : ∀ k ≤ s.length, SameAt readNumberRaw body s start k
  skipped : ∀ k ≤ s.length, SameAt skipValue body s start k
  values : ∀ k ≤ s.length, SameAt readValue body s start k

variable {body key out s u z r : Bytes}

lemma sameAt_readStringRaw {k : Nat} (h : (s.drop k).head? = some quote) :
    SameAt readStringRaw (u ++ (s ++ r)) s u.length k := by
  obtain ⟨v, hv⟩ := List.head?_eq_some_iff.mp h
  have hk : k ≤ s.length := by
    by_contra hlt
    rw [List.drop_of_length_le (by omega)] at hv
    cases hv
  refine sameAt_of_cut (G := fun v => Quoted v.tail) hk ?_ ?_ ?_
  · rw [hv]
    exact reads_readStringRaw
  · rw [hv]
    exact reads_readStringRaw
  · rw [hv]
    exact Quoted.cut

lemma sameAt_readNumberRaw {k : Nat} (hk : k ≤ s.length) :
    SameAt readNumberRaw (u ++ (s ++ r)) s u.length k := by
  refine sameAt_of_cut hk (G := fun v a w => a = v.takeWhile isNumberChar ∧
    w = v.dropWhile isNumberChar) steps_readNumberRaw.reads steps_readNumberRaw.reads ?_
  rintro w a ⟨rfl, hw⟩
  obtain ⟨hdrop, htake⟩ := dropWhile_cut hw.symm
  exact ⟨htake, hdrop.symm⟩

/-- A value that the walker skips is the same in its place and on its own. -/
lemma copied_of_skips {opening : UInt8} (hz : (s ++ r).head? = some opening)
    (h : Skips .value (s ++ r) r) :
    Copied opening (u ++ (s ++ r)) s u.length where
  isPrefix := by rw [List.drop_left]; exact List.prefix_append s r
  head := by
    cases s with
    | nil => exact absurd h.length_lt (lt_irrefl _)
    | cons c s => exact hz
  inPlace := by
    obtain ⟨t, ht, hout⟩ := reads_skipValue.complete () r h
    obtain rfl : s = t := List.append_cancel_right ht
    simpa [tape_cut] using hout u
  alone := by
    obtain ⟨t, ht, hout⟩ := reads_skipValue.complete () [] (h.cut (x := []))
    obtain rfl : s = t := by simpa using ht
    simpa [tape_cut] using hout []
  tokens := by
    obtain ⟨l, hl, -⟩ := h.lexed
    refine ⟨l, ?_, hl.cut (x := [])⟩
    rwa [List.drop_left, ← List.drop_drop, List.drop_left, List.drop_left]
  strings k := sameAt_readStringRaw
  numbers k := sameAt_readNumberRaw
  skipped k hk := sameAt_of_cut (G := fun v _ w => Skips .value v w) hk reads_skipValue
    reads_skipValue Skips.cut
  values k hk := sameAt_of_cut hk reads_readValue reads_readValue ReadsValue.cut

/-- What is taken is the text of a value that the walker skips. -/
lemma skips_of_takeRaw {p : JsonParser}
    (h : (takeRaw out).out (tape.cut u z) = .ok ((true, s), p)) :
    ∃ r, z = s ++ r ∧ Skips .value z r := by
  rw [takeRaw, out_bind_ok out_cursor] at h
  obtain ⟨⟨⟩, q, hskip, h⟩ := out_bind_eq_ok h
  obtain ⟨ok, q', hok, h⟩ := out_bind_eq_ok h
  cases hok
  by_cases hq : q.ok = true
  · obtain ⟨r, hr⟩ := reads_skipValue.sound _ _ _ hskip hq
    obtain ⟨t, rfl, hout⟩ := reads_skipValue.complete () r hr
    rw [hout u] at hskip
    cases hskip
    rw [if_neg (by simp [tape_cut]), out_bind_ok out_cursor, out_bind_ok out_substr] at h
    cases h
    exact ⟨r, rfl, hr⟩
  · rw [if_pos (by simpa using hq)] at h
    cases h

lemma JsonParser.Reaches.suffix {v w : Bytes} {hit : Bytes → Option UInt8 → Bool}
    (h : Reaches hit v w) : w <:+ v := by
  induction h with
  | here hn _ => exact (List.dropWhile_suffix _).trans hn.suffix
  | later hn _ hs hx _ ih => exact ih.trans ((hx.suffix.trans hs.suffix).trans hn.suffix)

/-- What a scan for an opening bracket copies. -/
lemma copied_of_scan {opening : UInt8}
    (h : (walk body (scanMembers (fun k => keyIs k key opening) (takeRaw out) out)).out =
      .ok (true, s)) :
    (s = out ∧ AbsentIn (fun k c => k == key && c == some opening) body) ∨
      ∃ start, Copied opening body s start := by
  rcases scan_ends (sees_keyIs key opening) h with h | ⟨h, ha⟩ | ⟨z, u, p, hr, htake⟩
  · cases h
  · exact .inl ⟨(Prod.mk.inj h).2, ha⟩
  · obtain ⟨r, rfl, hskip⟩ := skips_of_takeRaw htake
    obtain ⟨w, hw, hr⟩ := hr
    obtain ⟨t, hbody⟩ := hr.suffix.trans hw.suffix
    obtain ⟨⟨k, hhit⟩, -⟩ := hr.isHit
    have hhead : (s ++ r).head? = some opening := by
      simpa using (Bool.and_eq_true_iff.mp hhit).2
    subst hbody
    exact .inr ⟨_, copied_of_skips hhead hskip⟩

/-- Extraction is local. What `get_object_raw` and `get_array_raw` copy begins with the opening
bracket, is a value up to its end, and what the walker finds in it, it finds in the same places of
the body. -/
theorem getRaw_local (body key out s : Bytes) :
    ((getObjectRaw body key out).out = .ok (true, s) →
      (s = out ∧ AbsentIn (fun k c => k == key && c == some lbrace) body) ∨
        ∃ start, Copied lbrace body s start) ∧
    ((getArrayRaw body key out).out = .ok (true, s) →
      (s = out ∧ AbsentIn (fun k c => k == key && c == some lbracket) body) ∨
        ∃ start, Copied lbracket body s start) :=
  ⟨copied_of_scan, copied_of_scan⟩

/-- The first half of a pair, and one that has taken the bracket behind it for a digit. -/
theorem getRaw_local_halves :
    (∃ start, Copied lbrace
      (ascii "\x7b\"a\":\x7b\"\\ud83d\":0\x7d,\"b\":[\"\\ud8\"]\"]\x7d")
      (ascii "\x7b\"\\ud83d\":0\x7d") start) ∧
    ∃ start, Copied lbracket
      (ascii "\x7b\"a\":\x7b\"\\ud83d\":0\x7d,\"b\":[\"\\ud8\"]\"]\x7d")
      (ascii "[\"\\ud8\"]\"]") start := by
  refine ⟨((getRaw_local _ (ascii "a") [] _).1 ?_).resolve_left fun h => absurd h.1 ?_,
    ((getRaw_local _ (ascii "b") [] _).2 ?_).resolve_left fun h => absurd h.1 ?_⟩
  · decide +kernel
  · decide
  · decide +kernel
  · decide

end MongrelDB
