import MongrelDB.Json.Utf8
import MongrelDB.Walker.Tape

/-!
# What the walker takes for a string

The walker takes everything up to the first quote that no backslash stands before, replaces the
escapes it knows and lets everything else through (`Quoted`). A string of the grammar is read as
what it stands for.
-/

namespace MongrelDB

open Text Traced Prog Json

namespace JsonParser

/-! ### Escapes -/

/-- The number that hexadecimal digits stand for, written after the digits of `lo`. -/
def hexNumber : Bytes → Nat → Option Nat
  | [], lo => some lo
  | h :: t, lo =>
    match hexVal h with
    | some d => hexNumber t (lo <<< 4 ||| d)
    | none => none

/-- The low surrogate whose escape a text begins with, and the text after it. -/
def lowHalf : Bytes → Option (Nat × Bytes)
  | x :: y :: a :: b :: c :: d :: r =>
    if x = backslash ∧ y = 0x75 then
      match hexNumber [a, b, c, d] 0 with
      | some lo => if 0xDC00 ≤ lo ∧ lo ≤ 0xDFFF then some (lo, r) else none
      | none => none
    else none
  | _ => none

/-- The code point for the high surrogate `cp`, and the text after its partner. -/
def pairWith (cp : Nat) (v : Bytes) : Nat × Bytes :=
  match lowHalf v with
  | some (lo, r) => (0x10000 + ((cp - 0xD800) <<< 10) + (lo - 0xDC00), r)
  | none => (0xFFFD, v)

/-- What a text after `\u` contributes, and the text it leaves. -/
def unicodeStep : Bytes → Bytes × Bytes
  | a :: b :: c :: d :: v =>
    let cp := pushHex (pushHex (pushHex (pushHex 0 a) b) c) d
    if 0xD800 ≤ cp ∧ cp ≤ 0xDBFF then (pushCodePoint [] (pairWith cp v).1, (pairWith cp v).2)
    else if 0xDC00 ≤ cp ∧ cp ≤ 0xDFFF then (pushCodePoint [] 0xFFFD, v)
    else (pushCodePoint [] cp, v)
  | v => ([], v)

/-- What the character `c` of a string contributes with the text `v` behind it, and the text that
is left. -/
def stringStep (c : UInt8) (v : Bytes) : Bytes × Bytes :=
  match v with
  | [] => ([c], [])
  | n :: v' =>
    if c = backslash then
      if n = 0x75 then unicodeStep v' else ([unescape n], v')
    else ([c], v)

/-- The text `v` after an opening quote has the contents `s` and is followed by `r`. -/
inductive Quoted : Bytes → Bytes → Bytes → Prop
  | close {r} : Quoted (quote :: r) [] r
  | item {c v s r} : c ≠ quote → Quoted (stringStep c v).2 s r →
      Quoted (c :: v) ((stringStep c v).1 ++ s) r

variable {u v w r s : Bytes}

lemma pushCodePoint_append (out : Bytes) (cp : Nat) :
    pushCodePoint out cp = out ++ pushCodePoint [] cp := by
  unfold pushCodePoint
  split_ifs <;> simp

lemma flagged_hexRun : Flagged tape hexRun :=
  flagged_iterate (fun _ => (flagged_next.bind fun _ => flagged_pure).ite flagged_pure) _

lemma flagged_lookHex (k j lo : Nat) : Flagged tape (lookHex k j lo) := by
  induction k generalizing j lo with
  | zero => exact flagged_pure
  | succ k ih =>
    refine (flagged_charAt j).bind fun h => ?_
    split
    · exact flagged_emit.bind fun _ => ih _ _
    · exact flagged_pure

lemma flagged_lowSurrogate (cp : Nat) : Flagged tape (lowSurrogate cp) := by
  refine flagged_get.bind fun p => Flagged.ite ?_ flagged_pure
  refine (flagged_charAt _).bind fun _ => Flagged.ite ?_ flagged_pure
  refine (flagged_charAt _).bind fun _ => Flagged.ite ?_ flagged_pure
  refine (flagged_lookHex _ _ _).bind fun r => ?_
  split
  · exact ((flagged_setCursor _).bind fun _ => flagged_pure).ite flagged_pure
  · exact flagged_pure

lemma flagged_readUnicode (out : Bytes) : Flagged tape (readUnicode out) :=
  flagged_get.bind fun _ => (flagged_hexRun.bind fun cp =>
    ((flagged_lowSurrogate cp).bind fun _ => flagged_pure).ite
      (flagged_pure.ite flagged_pure)).ite flagged_pure

lemma steps_hexRun {a b c d : UInt8} : Steps tape hexRun (a :: b :: c :: d :: v)
    (pushHex (pushHex (pushHex (pushHex 0 a) b) c) d) v := by
  refine ⟨[a, b, c, d], rfl, fun u => ?_⟩
  -- four rounds that take a character, and the one that is done
  have hround : ∀ k cp h v u, k < 4 → ((if k < 4 then do
      return Round.again (k + 1, pushHex cp (← next)) else return .done cp :
      Walk (Round (Nat × Nat) Nat))).out (tape.cut u (h :: v))
        = .ok (.again (k + 1, pushHex cp h), tape.cut (u ++ [h]) v) := by
    intro k cp h v u hk
    obtain ⟨t, ht, hnext⟩ := steps_next (c := h) (v := v)
    obtain rfl : [h] = t := List.append_cancel_right (by simpa using ht)
    rw [if_pos hk, out_bind_ok (hnext u)]
    rfl
  obtain ⟨n, hn⟩ : ∃ n, (tape.cut u (a :: b :: c :: d :: v)).s.length + 1 = n + 5 :=
    ⟨u.length + v.length, by simp only [tape_cut, List.length_append, List.length_cons]; omega⟩
  rw [hexRun, iterate, out_bind_ok (out_get _), hn]
  rw [out_loop_again (hround 0 _ a _ _ (by omega)), out_loop_again (hround 1 _ b _ _ (by omega)),
    out_loop_again (hround 2 _ c _ _ (by omega)), out_loop_again (hround 3 _ d _ _ (by omega))]
  have hread : u ++ [a, b, c, d] = u ++ [a] ++ [b] ++ [c] ++ [d] := by simp
  rw [hread]
  exact out_loop_done rfl

/-- The look-ahead reads digits that it leaves where they are. -/
lemma out_lookHex {t d : Bytes} (lo : Nat) {j : Nat} (hj : j = u.length + t.length) :
    (lookHex d.length j lo).out (tape.cut u (t ++ (d ++ v)))
      = .ok ((hexNumber d lo).map fun n => (j + d.length, n), tape.cut u (t ++ (d ++ v))) := by
  induction d generalizing t lo j with
  | nil => rfl
  | cons h d ih =>
    have hc : (charAt j).out (tape.cut u (t ++ (h :: d ++ v)))
        = .ok (h, tape.cut u (t ++ (h :: d ++ v))) := by
      rw [hj]
      exact out_charAt (by simp)
    rw [List.length_cons, lookHex, out_bind_ok hc, hexNumber]
    cases hexVal h with
    | none => rfl
    | some n =>
      have hih := ih (t := t ++ [h]) (lo <<< 4 ||| n) (j := j + 1) (by simp [hj]; omega)
      simp only [List.append_assoc, List.singleton_append] at hih
      simp only
      rw [out_bind_ok (out_emit _ _)]
      simp only [List.cons_append, hih]
      rw [Nat.add_assoc, Nat.add_comm 1]

lemma lowHalf_of_short (h : v.length < 6) : lowHalf v = none := by
  unfold lowHalf
  split
  · simp only [List.length_cons] at h
    omega
  · rfl

lemma exists_six (h : 6 ≤ v.length) : ∃ x y a b c d r, v = x :: y :: a :: b :: c :: d :: r := by
  match v, h with
  | x :: y :: a :: b :: c :: d :: r, _ => exact ⟨x, y, a, b, c, d, r, rfl⟩

lemma steps_lowSurrogate (cp : Nat) :
    Steps tape (lowSurrogate cp) v (pairWith cp v).1 (pairWith cp v).2 := by
  rcases Nat.lt_or_ge v.length 6 with h | h
  · rw [pairWith, lowHalf_of_short h]
    refine steps_of_out fun u => ?_
    rw [lowSurrogate, out_bind_ok (out_get _), tape_cut_i, tape_cut_length, if_neg (by omega)]
    rfl
  obtain ⟨x, y, a, b, c, d, r, hv⟩ := exists_six h
  refine steps_of_forall fun u => ?_
  have hx : (charAt u.length).out (tape.cut u v) = .ok (x, tape.cut u v) :=
    out_charAt (k := 0) (by rw [hv]; rfl)
  have hy : (charAt (u.length + 1)).out (tape.cut u v) = .ok (y, tape.cut u v) :=
    out_charAt (by rw [hv]; rfl)
  have hlook : (lookHex 4 (u.length + 2) 0).out (tape.cut u v)
      = .ok ((hexNumber [a, b, c, d] 0).map fun n => (u.length + 2 + 4, n), tape.cut u v) := by
    rw [hv]
    exact out_lookHex (t := [x, y]) (d := [a, b, c, d]) 0 rfl
  have hset : (setCursor (u.length + 2 + 4)).out (tape.cut u v)
      = .ok ((), tape.cut (u ++ [x, y, a, b, c, d]) r) := by
    rw [hv]
    exact out_setCursor (t := [x, y, a, b, c, d]) rfl
  -- without a low surrogate the cursor stays where it is
  have hstay : lowHalf v = none →
      (lowSurrogate cp).out (tape.cut u v) = .ok (0xFFFD, tape.cut u v) →
      ∃ t, v = t ++ (pairWith cp v).2 ∧ (lowSurrogate cp).out (tape.cut u v)
        = .ok ((pairWith cp v).1, tape.cut (u ++ t) (pairWith cp v).2) := by
    intro hl ho
    rw [pairWith, hl]
    exact ⟨[], rfl, by rw [List.append_nil]; exact ho⟩
  by_cases hxb : x = backslash
  swap
  · refine hstay (by simp only [hv, lowHalf, hxb, false_and, if_false]) ?_
    rw [lowSurrogate, out_bind_ok (out_get _), tape_cut_i, tape_cut_length, if_pos (by omega),
      out_bind_ok hx, if_neg (by simpa using hxb)]
    rfl
  by_cases hyu : y = 0x75
  swap
  · refine hstay (by simp only [hv, lowHalf, hyu, and_false, if_false]) ?_
    rw [lowSurrogate, out_bind_ok (out_get _), tape_cut_i, tape_cut_length, if_pos (by omega),
      out_bind_ok hx, if_pos (by simpa using hxb), out_bind_ok hy, if_neg (by simpa using hyu)]
    rfl
  cases hn : hexNumber [a, b, c, d] 0 with
  | none =>
    rw [hn] at hlook
    refine hstay (by simp only [hv, lowHalf, hxb, hyu, and_self, if_true, hn]) ?_
    rw [lowSurrogate, out_bind_ok (out_get _), tape_cut_i, tape_cut_length, if_pos (by omega),
      out_bind_ok hx, if_pos (by simpa using hxb), out_bind_ok hy, if_pos (by simpa using hyu),
      out_bind_ok hlook]
    rfl
  | some lo =>
    rw [hn] at hlook
    by_cases hlo : 0xDC00 ≤ lo ∧ lo ≤ 0xDFFF
    · have hl : lowHalf v = some (lo, r) := by
        simp only [hv, lowHalf, hxb, hyu, and_self, if_true, hn, hlo]
      rw [pairWith, hl]
      refine ⟨[x, y, a, b, c, d], hv, ?_⟩
      rw [lowSurrogate, out_bind_ok (out_get _), tape_cut_i, tape_cut_length, if_pos (by omega),
        out_bind_ok hx, if_pos (by simpa using hxb), out_bind_ok hy, if_pos (by simpa using hyu),
        out_bind_ok hlook]
      simp only [Option.map_some, hlo, decide_true, Bool.and_self, if_true]
      rw [out_bind_ok hset]
      rfl
    · refine hstay (by simp only [hv, lowHalf, hxb, hyu, and_self, if_true, hn, hlo, if_false]) ?_
      rw [lowSurrogate, out_bind_ok (out_get _), tape_cut_i, tape_cut_length, if_pos (by omega),
        out_bind_ok hx, if_pos (by simpa using hxb), out_bind_ok hy, if_pos (by simpa using hyu),
        out_bind_ok hlook]
      simp only [Option.map_some]
      rw [if_neg (by simpa using hlo)]
      rfl

lemma exists_four (h : 4 ≤ v.length) : ∃ a b c d r, v = a :: b :: c :: d :: r := by
  match v, h with
  | a :: b :: c :: d :: r, _ => exact ⟨a, b, c, d, r, rfl⟩

lemma unicodeStep_of_short (h : v.length < 4) : unicodeStep v = ([], v) := by
  unfold unicodeStep
  split
  · simp only [List.length_cons] at h
    omega
  · rfl

lemma steps_readUnicode (out : Bytes) :
    Steps tape (readUnicode out) v (out ++ (unicodeStep v).1) (unicodeStep v).2 := by
  refine steps_of_forall fun u => ?_
  rw [readUnicode, out_bind_ok (out_get _), tape_cut_i, tape_cut_length]
  rcases Nat.lt_or_ge v.length 4 with h | h
  · rw [if_neg (by omega), unicodeStep_of_short h]
    exact ⟨[], rfl, by rw [List.append_nil, List.append_nil]; rfl⟩
  obtain ⟨a, b, c, d, r, rfl⟩ := exists_four h
  rw [if_pos (by omega)]
  suffices hs : Steps tape _ (a :: b :: c :: d :: r) _ _ by
    obtain ⟨t, hv, ht⟩ := hs
    exact ⟨t, hv, ht u⟩
  refine steps_hexRun.trans ?_
  simp only [unicodeStep]
  generalize pushHex (pushHex (pushHex (pushHex 0 a) b) c) d = cp
  by_cases hhi : 0xD800 ≤ cp ∧ cp ≤ 0xDBFF
  · rw [if_pos (by simpa using hhi), if_pos hhi, ← pushCodePoint_append]
    exact (steps_lowSurrogate cp).trans steps_pure
  rw [if_neg (by simpa using hhi), if_neg hhi]
  by_cases hlo : 0xDC00 ≤ cp ∧ cp ≤ 0xDFFF
  · rw [if_pos (by simpa using hlo), if_pos hlo, ← pushCodePoint_append]
    exact steps_pure
  · rw [if_neg (by simpa using hlo), if_neg hlo, ← pushCodePoint_append]
    exact steps_pure

/-! ### Strings -/

lemma flagged_stringRound (out : Bytes) : Flagged tape (stringRound out) := by
  refine flagged_inside.bind fun _ => (flagged_fail.bind fun _ => flagged_pure).ite ?_
  refine flagged_next.bind fun c => flagged_pure.ite (Flagged.ite ?_ flagged_pure)
  refine flagged_inside.bind fun _ => Flagged.ite ?_ flagged_pure
  exact flagged_next.bind fun n =>
    ((flagged_readUnicode out).bind fun _ => flagged_pure).ite flagged_pure

lemma flagged_readStringRaw : Flagged tape readStringRaw :=
  flagged_advance.bind fun _ => flagged_iterate flagged_stringRound _

lemma steps_stringRound_quote (out : Bytes) :
    Steps tape (stringRound out) (quote :: v) (.done out) v := by
  refine steps_inside.trans ?_
  rw [if_neg (by simp)]
  refine steps_next.trans ?_
  rw [if_pos (by simp)]
  exact steps_pure

lemma steps_stringRound (out : Bytes) {c : UInt8} (hc : c ≠ quote) :
    Steps tape (stringRound out) (c :: v) (.again (out ++ (stringStep c v).1))
      (stringStep c v).2 := by
  refine steps_inside.trans ?_
  rw [if_neg (by simp)]
  refine steps_next.trans ?_
  rw [if_neg (by simpa using hc)]
  by_cases hb : c = backslash
  · rw [if_pos (by simpa using hb)]
    refine steps_inside.trans ?_
    cases v with
    | nil =>
      rw [if_neg (by simp)]
      exact steps_pure
    | cons n v =>
      rw [if_pos (by simp)]
      refine steps_next.trans ?_
      simp only [stringStep, hb, if_true]
      by_cases hn : n = 0x75
      · rw [if_pos (by simpa using hn), if_pos hn]
        exact (steps_readUnicode out).trans steps_pure
      · rw [if_neg (by simpa using hn), if_neg hn]
        exact steps_pure
  · have hs : stringStep c v = ([c], v) := by
      cases v with
      | nil => rfl
      | cons n v => simp only [stringStep, hb, if_false]
    rw [if_neg (by simpa using hb), hs]
    exact steps_pure

/-- What a round of the string loop does. -/
def StringRound (out v : Bytes) (b : Round Bytes Bytes) (r : Bytes) : Prop :=
  (v = quote :: r ∧ b = .done out) ∨
    ∃ c w, v = c :: w ∧ c ≠ quote ∧ b = .again (out ++ (stringStep c w).1) ∧ r = (stringStep c w).2

lemma reads_stringRound (out : Bytes) :
    Reads tape (stringRound out) v (StringRound out v) := by
  cases v with
  | nil =>
    have h : Reads tape (stringRound out) [] fun _ _ => False :=
      steps_inside.bind (reads_fail.bind_false fun _ => flagged_pure)
    exact h.congr fun b r => by simp [StringRound]
  | cons c w =>
    by_cases hc : c = quote
    · subst hc
      refine (steps_stringRound_quote out).reads.congr fun b r => ⟨?_, ?_⟩
      · rintro ⟨rfl, rfl⟩
        exact .inl ⟨rfl, rfl⟩
      · rintro (⟨h, rfl⟩ | ⟨c, w, h, hc, -⟩)
        · exact ⟨rfl, (List.cons.inj h).2.symm⟩
        · exact absurd (List.cons.inj h).1.symm hc
    · refine (steps_stringRound out hc).reads.congr fun b r => ⟨?_, ?_⟩
      · rintro ⟨rfl, rfl⟩
        exact .inr ⟨c, w, rfl, hc, rfl, rfl⟩
      · rintro (⟨h, -⟩ | ⟨c', w', h, -, rfl, rfl⟩)
        · exact absurd (List.cons.inj h).1 hc
        · obtain ⟨rfl, rfl⟩ := List.cons.inj h
          exact ⟨rfl, rfl⟩

lemma length_of_lowHalf {lo : Nat} (h : lowHalf v = some (lo, r)) :
    v.length = r.length + 6 := by
  unfold lowHalf at h
  split at h
  · split_ifs at h
    split at h
    · split_ifs at h
      cases h
      simp only [List.length_cons]
    · cases h
  · cases h

lemma unicodeStep_length_le (v : Bytes) : (unicodeStep v).2.length ≤ v.length := by
  unfold unicodeStep
  split
  · next a b c d v =>
    have hp : ∀ cp, (pairWith cp v).2.length ≤ v.length := by
      intro cp
      unfold pairWith
      split
      · next h => exact Nat.le.intro (length_of_lowHalf h).symm
      · exact le_rfl
    simp only
    split_ifs <;> simp only [List.length_cons]
    · exact (hp _).trans (by omega)
    · omega
    · omega
  · exact le_rfl

lemma stringStep_length_le (c : UInt8) (v : Bytes) : (stringStep c v).2.length ≤ v.length := by
  unfold stringStep
  split
  · exact le_rfl
  · split_ifs
    · exact (unicodeStep_length_le _).trans (by simp)
    · simp
    · exact le_rfl

lemma rounds_of_quoted (out : Bytes) (h : Quoted v s r) :
    Rounds StringRound out v (out ++ s) r := by
  induction h generalizing out with
  | close =>
    rw [List.append_nil]
    exact .done (.inl ⟨rfl, rfl⟩)
  | item hc _ ih =>
    rw [← List.append_assoc]
    exact .again (.inr ⟨_, _, rfl, hc, rfl, rfl⟩) (ih _)

lemma quoted_of_rounds {out b : Bytes} (h : Rounds StringRound out v b r) :
    ∃ s, b = out ++ s ∧ Quoted v s r := by
  induction h with
  | done h =>
    obtain ⟨rfl, hb⟩ | ⟨c, w, -, -, hb, -⟩ := h
    · cases hb
      exact ⟨[], by simp, .close⟩
    · cases hb
  | again h _ ih =>
    obtain ⟨s, rfl, hq⟩ := ih
    obtain ⟨-, hb⟩ | ⟨c, w, rfl, hc, hb, rfl⟩ := h
    · cases hb
    · cases hb
      exact ⟨_, by rw [List.append_assoc], .item hc hq⟩

lemma reads_readStringRaw : Reads tape readStringRaw (quote :: v) (Quoted v) := by
  refine steps_advance.bind ?_
  refine (reads_iterate_all (fun out v => reads_stringRound out) flagged_stringRound ?_ []).congr
    fun s r => ⟨fun h => ?_, fun h => by simpa using rounds_of_quoted [] h⟩
  · rintro out v _ w (⟨-, h⟩ | ⟨c, v, rfl, -, -, rfl⟩)
    · cases h
    · simpa [Nat.lt_succ_iff] using stringStep_length_le c v
  · obtain ⟨s, rfl, hq⟩ := quoted_of_rounds h
    exact hq

/-- A string is read to its end even where no quote closes it. -/
lemma exists_out_readStringRaw (u v : Bytes) :
    ∃ s p, readStringRaw.out (tape.cut u (quote :: v)) = .ok (s, p) := by
  have hloop : ∀ (m : Nat) (v u out : Bytes) (n : Nat), v.length = m → v.length < n → ∃ s p,
      (loop .spent (fun p p' : JsonParser => .again p.i p'.i) stringRound n out).out (tape.cut u v)
        = .ok (s, p) := by
    intro m
    induction m using Nat.strong_induction_on with
    | _ m ih =>
      intro v u out n hm hn
      obtain ⟨n, rfl⟩ : ∃ k, n = k + 1 := ⟨n - 1, by omega⟩
      cases v with
      | nil =>
        obtain ⟨t, ht, hin⟩ := steps_inside (v := [])
        refine ⟨out, { tape.cut (u ++ t) [] with ok := false }, out_loop_done ?_⟩
        rw [stringRound, out_bind_ok (hin u), if_pos (by simp)]
        rfl
      | cons c w =>
        by_cases hc : c = quote
        · obtain ⟨t, -, ht⟩ := steps_stringRound_quote out (v := w)
          subst hc
          exact ⟨out, _, out_loop_done (ht u)⟩
        · obtain ⟨t, -, ht⟩ := steps_stringRound out hc (v := w)
          have hlt : (stringStep c w).2.length < (c :: w).length :=
            Nat.lt_succ_of_le (stringStep_length_le c w)
          rw [out_loop_again (ht u)]
          exact ih _ (by omega) _ _ _ n rfl (by omega)
  obtain ⟨t, -, ht⟩ := steps_advance (c := quote) (v := v)
  rw [readStringRaw, out_bind_ok (ht u), iterate, out_bind_ok (out_get _)]
  exact hloop _ v _ _ _ rfl (by rw [tape_cut_length]; omega)

/-! ### Strings of the grammar -/

lemma or_eq_add {a b i : Nat} (h : b < 2 ^ i) : 2 ^ i * a ||| b = b + 2 ^ i * a := by
  rw [← Nat.two_pow_add_eq_or_of_lt h, Nat.add_comm]

lemma pushCodePoint_eq_utf8 {cp : Nat} (h : cp.isValidChar) : pushCodePoint [] cp = utf8 cp := by
  have hlt : cp < 0x110000 := by
    rcases h with h | h <;> omega
  have hval : (Char.ofNat cp).val.toNat = cp := by
    rw [Char.ofNat, dif_pos h]
    rfl
  have hmask : ∀ m : Nat, m &&& 0x3F = m % 64 := fun m => Nat.and_two_pow_sub_one_eq_mod m 6
  have hlast : ∀ m : Nat, 0x80 ||| m % 64 = m % 64 + 0x80 :=
    fun m => or_eq_add (a := 2) (i := 6) (by omega)
  unfold utf8 String.utf8EncodeChar pushCodePoint
  rw [hval]
  simp only [hmask, hlast, List.nil_append, Nat.shiftRight_eq_div_pow, Nat.reducePow]
  by_cases h₁ : cp < 0x80
  · rw [if_pos h₁, if_pos (show cp ≤ 0x7F by omega)]
  rw [if_neg h₁, if_neg (show ¬ cp ≤ 0x7F by omega)]
  by_cases h₂ : cp < 0x800
  · have hor : 0xC0 ||| cp / 64 = cp / 64 + 0xC0 := or_eq_add (a := 6) (i := 5) (by omega)
    rw [if_pos h₂, if_pos (show cp ≤ 0x7FF by omega), hor,
      Nat.mod_eq_of_lt (show cp / 64 < 0x20 by omega)]
  rw [if_neg h₂, if_neg (show ¬ cp ≤ 0x7FF by omega)]
  by_cases h₃ : cp < 0x10000
  · have hor : 0xE0 ||| cp / 4096 = cp / 4096 + 0xE0 := or_eq_add (a := 14) (i := 4) (by omega)
    rw [if_pos h₃, if_pos (show cp ≤ 0xFFFF by omega), hor,
      Nat.mod_eq_of_lt (show cp / 4096 < 0x10 by omega)]
  · have hor : 0xF0 ||| cp / 262144 = cp / 262144 + 0xF0 := or_eq_add (a := 30) (i := 3) (by omega)
    rw [if_neg h₃, if_neg (show ¬ cp ≤ 0xFFFF by omega), hor,
      Nat.mod_eq_of_lt (show cp / 262144 < 0x08 by omega)]

lemma pushHex_eq {cp d : Nat} {c : UInt8} (h : hexVal c = some d) : pushHex cp c = cp * 16 + d := by
  rw [pushHex, h, Option.getD_some, ← Nat.shiftLeft_add_eq_or_of_lt (hexVal_lt h), Nat.shiftLeft_eq]

lemma pushHex_text (h : Hex4) :
    pushHex (pushHex (pushHex (pushHex 0 h.a.char) h.b.char) h.c.char) h.d.char = h.unit := by
  rw [pushHex_eq h.a.isHex, pushHex_eq h.b.isHex, pushHex_eq h.c.isHex, pushHex_eq h.d.isHex,
    Hex4.unit]
  omega

lemma hexNumber_text (h : Hex4) : hexNumber h.text 0 = some h.unit := by
  have hlt : ∀ x : HexDigit, ∀ lo, lo <<< 4 ||| x.val = lo * 16 + x.val := fun x lo => by
    rw [← Nat.shiftLeft_add_eq_or_of_lt (hexVal_lt x.isHex), Nat.shiftLeft_eq]
  simp only [Hex4.text, hexNumber, HexDigit.isHex, hlt, Hex4.unit]
  congr 1
  omega

lemma unit_lt (h : Hex4) : h.unit < 0x10000 := by
  have := hexVal_lt h.a.isHex
  have := hexVal_lt h.b.isHex
  have := hexVal_lt h.c.isHex
  have := hexVal_lt h.d.isHex
  unfold Hex4.unit
  omega

lemma unescape_of_shortEscape {c v : UInt8} (h : shortEscape c = some v) : unescape c = v := by
  unfold shortEscape at h
  unfold unescape
  simp only [beq_iff_eq]
  split_ifs at h ⊢ <;> exact Option.some.inj h

lemma stringStep_raw {c : UInt8} (h : isUnescaped c = true) : stringStep c v = ([c], v) := by
  have hb : c ≠ backslash := by
    rintro rfl
    exact absurd h (by decide)
  cases v with
  | nil => rfl
  | cons n v => simp only [stringStep, hb, if_false]

lemma stringStep_short {c x : UInt8} (h : shortEscape c = some x) :
    stringStep backslash (c :: v) = ([x], v) := by
  have hu : c ≠ 0x75 := by
    rintro rfl
    exact absurd h (by simp [show shortEscape 0x75 = none by decide])
  simp only [stringStep, if_true, hu, if_false, unescape_of_shortEscape h]

/-- Only an escape `\u` can follow as the second half of a pair. -/
lemma lowHalf_eq_none (h : ∀ t, v ≠ backslash :: 0x75 :: t) : lowHalf v = none := by
  unfold lowHalf
  split
  · next x y a b c d r =>
    rw [if_neg]
    rintro ⟨rfl, rfl⟩
    exact h _ rfl
  · rfl

lemma lowHalf_unicode (h : Hex4) : lowHalf (StrItem.render (.unicode h) ++ v) =
    if isLowSurrogate h.unit then some (h.unit, v) else none := by
  have hn := hexNumber_text h
  simp only [Hex4.text] at hn
  simp only [StrItem.render, Hex4.text, List.cons_append, List.nil_append, lowHalf, and_self,
    if_true, hn, isLowSurrogate, Bool.and_eq_true, decide_eq_true_eq]

lemma stringStep_unicode (h : Hex4) : stringStep backslash (0x75 :: (h.text ++ v)) =
    if isHighSurrogate h.unit then (pushCodePoint [] (pairWith h.unit v).1, (pairWith h.unit v).2)
    else if isLowSurrogate h.unit then (utf8 0xFFFD, v)
    else (utf8 h.unit, v) := by
  simp only [stringStep, if_true, Hex4.text, List.cons_append, List.nil_append, unicodeStep,
    pushHex_text, isHighSurrogate, isLowSurrogate, Bool.and_eq_true, decide_eq_true_eq]
  split_ifs with h₁ h₂
  · rfl
  · rw [pushCodePoint_eq_utf8 (by decide)]
  · rw [pushCodePoint_eq_utf8]
    have := unit_lt h
    unfold Nat.isValidChar
    omega

lemma Quoted.of_step {c : UInt8} {a : Bytes} (hc : c ≠ quote) (hs : stringStep c v = (a, w))
    (h : Quoted w s r) : Quoted (c :: v) (a ++ s) r := by
  have := Quoted.item (c := c) (v := v) hc (by rw [hs]; exact h)
  rwa [hs] at this

/-- What does not begin with an escape `\u` leaves a high surrogate alone. -/
lemma lowHalf_body {s : StrLit} (h : ∀ x t, s ≠ .unicode x :: t) :
    lowHalf (s.body ++ quote :: r) = none := by
  refine lowHalf_eq_none fun t ht => ?_
  match s with
  | [] => simp at ht
  | .raw c hc :: s =>
    obtain rfl : c = backslash := (List.cons.inj ht).1
    exact absurd hc (by decide)
  | .short c v hc :: s =>
    obtain rfl : c = 0x75 := (List.cons.inj (List.cons.inj ht).2).1
    exact absurd hc (by simp [show shortEscape 0x75 = none by decide])
  | .unicode x :: s => exact h x s rfl

/-- A string of the grammar is read as what it stands for. -/
theorem quoted_body (s : StrLit) (r : Bytes) : Quoted (s.body ++ quote :: r) s.decode r := by
  have hb : backslash ≠ quote := by decide
  have hvalid : ∀ x y : Hex4, isHighSurrogate x.unit = true → isLowSurrogate y.unit = true →
      pushCodePoint [] (0x10000 + ((x.unit - 0xD800) <<< 10) + (y.unit - 0xDC00))
        = utf8 (surrogatePair x.unit y.unit) := by
    intro x y hx hy
    simp only [isHighSurrogate, isLowSurrogate, Bool.and_eq_true, decide_eq_true_eq] at hx hy
    rw [Nat.shiftLeft_eq]
    refine pushCodePoint_eq_utf8 (.inr ⟨?_, ?_⟩) <;> omega
  have hlone : pushCodePoint [] 0xFFFD = utf8 0xFFFD := pushCodePoint_eq_utf8 (by decide)
  have hbody : ∀ (x : Hex4) (s : StrLit), StrLit.body (.unicode x :: s) ++ quote :: r
      = backslash :: 0x75 :: (x.text ++ (s.body ++ quote :: r)) := fun x s => by
    simp [StrItem.render]
  fun_induction StrLit.decode s with
  | case1 => exact .close
  | case2 c hc s ih =>
    have hq : c ≠ quote := by
      rintro rfl
      exact absurd hc (by decide)
    exact .of_step hq (stringStep_raw hc) ih
  | case3 c v hc s ih => exact .of_step hb (stringStep_short hc) ih
  | case4 x hx y s hy _ ih =>
    -- a surrogate pair
    have hl := lowHalf_unicode (v := StrLit.body s ++ quote :: r) y
    rw [if_pos hy] at hl
    refine .of_step hb (v := 0x75 :: (x.text ++ (StrItem.render (.unicode y) ++
      (StrLit.body s ++ quote :: r)))) ?_ ih
    rw [stringStep_unicode, if_pos hx, pairWith, hl, hvalid x y hx hy]
  | case5 x hx y s hy _ ih =>
    have hl := lowHalf_unicode (v := StrLit.body s ++ quote :: r) y
    rw [if_neg hy] at hl
    rw [hbody]
    refine .of_step hb ?_ ih
    rw [stringStep_unicode, if_pos hx, pairWith, StrLit.body_cons, List.append_assoc, hl, hlone]
  | case6 x s _ hx hs ih =>
    rw [hbody]
    refine .of_step hb ?_ ih
    rw [stringStep_unicode, if_pos hx, pairWith, lowHalf_body hs, hlone]
  | case7 x s _ hx hy ih =>
    rw [hbody]
    refine .of_step hb ?_ ih
    rw [stringStep_unicode, if_neg hx, if_pos hy]
  | case8 x s _ hx hy ih =>
    rw [hbody]
    refine .of_step hb ?_ ih
    rw [stringStep_unicode, if_neg hx, if_neg hy]

end JsonParser

end MongrelDB
