import MongrelDB.Walker.Tokens

/-!
# What is read does not depend on what follows

Whatever the walker reads of a text and does not go beyond, it reads in the same way if the rest of
the text is cut off behind it. The escapes look ahead, but they take what they look at or leave it
where it is: a look-ahead that goes beyond the cut has found nothing.
-/

namespace MongrelDB

open Text Traced Prog Json

namespace JsonParser

variable {v w x r : Bytes}

/-! ### Rests of a text -/

lemma Next.suffix {c : UInt8} (h : Next c v w) : w <:+ v := by
  obtain ⟨pre, rfl⟩ := h.exists_ws
  exact ⟨pre.text ++ [c], by simp⟩

lemma Quoted.suffix {s : Bytes} (h : Quoted v s r) : r <:+ v := by
  obtain ⟨t, rfl⟩ := h.exists_eq
  exact List.suffix_append t r

lemma Named.suffix {k : Bytes} (h : Named v k w) : w <:+ v := by
  obtain ⟨k, rfl, -⟩ := h.exists_eq
  exact List.suffix_append k w

lemma Lexed.suffix {l : List Token} (h : Lexed v l r) : r <:+ v := by
  induction h with
  | done => exact List.suffix_rfl
  | separator _ _ ih => exact ih.trans (List.suffix_cons _ _)
  | string hq _ _ ih => exact (ih.trans hq.suffix).trans (List.suffix_cons _ _)
  | number _ _ ih | word _ _ ih =>
    exact (ih.trans (List.dropWhile_suffix _)).trans (List.suffix_cons _ _)

/-- A walk leaves an end of its text. -/
lemma Skips.suffix {k : Kind} (h : Skips k v r) : r <:+ v := by
  obtain ⟨l, hl, -⟩ := h.lexed
  exact hl.suffix

/-! ### Runs and escapes -/

/-- A run that ends in front of the cut is the run of what is left of the text. -/
lemma dropWhile_cut {p : UInt8 → Bool} (h : (v ++ r).dropWhile p = x ++ r) :
    v.dropWhile p = x ∧ (v ++ r).takeWhile p = v.takeWhile p := by
  have hdrop : v.dropWhile p = x := by
    rw [List.dropWhile_append] at h
    split at h
    · next he =>
      have hlen := congrArg List.length h
      have hle : (r.dropWhile p).length ≤ r.length := (List.dropWhile_sublist _).length_le
      rw [List.length_append] at hlen
      have hx : x = [] := List.length_eq_zero_iff.mp (by omega)
      rw [List.isEmpty_iff.mp he, hx]
    · exact List.append_cancel_right h
  refine ⟨hdrop, ?_⟩
  have hv := List.takeWhile_append_dropWhile (p := p) (l := v)
  have hvr := List.takeWhile_append_dropWhile (p := p) (l := v ++ r)
  rw [h, ← List.append_assoc] at hvr
  rw [hdrop] at hv
  exact List.append_cancel_right ((List.append_cancel_right hvr).trans hv.symm)

lemma Next.cut {c : UInt8} (h : Next c (v ++ r) (w ++ r)) : Next c v w :=
  (dropWhile_cut (x := c :: w) h).1

lemma lowHalf_append (h : 6 ≤ v.length) :
    lowHalf (v ++ r) = (lowHalf v).map fun p => (p.1, p.2 ++ r) := by
  obtain ⟨x, y, a, b, c, d, v, rfl⟩ := exists_six h
  simp only [List.cons_append, lowHalf]
  split_ifs
  · split
    · split_ifs <;> rfl
    · rfl
  · rfl

/-- Half a pair takes the other half in front of the cut or does without it. -/
lemma pairWith_cut {cp : Nat} (h : (pairWith cp (v ++ r)).2 = x ++ r) :
    pairWith cp v = ((pairWith cp (v ++ r)).1, x) := by
  unfold pairWith at h ⊢
  rcases Nat.lt_or_ge v.length 6 with hlen | hlen
  · rw [lowHalf_of_short hlen]
    cases hl : lowHalf (v ++ r) with
    | none =>
      rw [hl] at h
      rw [List.append_cancel_right h]
    | some p =>
      -- a partner that begins in `v` takes some of `r` along
      obtain ⟨lo, y⟩ := p
      have hy := length_of_lowHalf hl
      simp only [hl] at h
      rw [h, List.length_append, List.length_append] at hy
      omega
  · rw [lowHalf_append hlen] at h ⊢
    cases hl : lowHalf v with
    | none =>
      simp only [hl, Option.map_none] at h ⊢
      rw [List.append_cancel_right h]
    | some p =>
      simp only [hl, Option.map_some] at h ⊢
      rw [List.append_cancel_right h]

lemma unicodeStep_length_add (h : 4 ≤ v.length) : (unicodeStep v).2.length + 4 ≤ v.length := by
  obtain ⟨a, b, c, d, v, rfl⟩ := exists_four h
  have hp : ∀ cp, (pairWith cp v).2.length ≤ v.length := by
    intro cp
    unfold pairWith
    split
    · next h => exact Nat.le.intro (length_of_lowHalf h).symm
    · exact le_rfl
  simp only [unicodeStep]
  split_ifs
  · simpa using hp _
  · simp
  · simp

lemma unicodeStep_cut (h : (unicodeStep (v ++ r)).2 = x ++ r) :
    unicodeStep v = ((unicodeStep (v ++ r)).1, x) := by
  rcases Nat.lt_or_ge v.length 4 with hlen | hlen
  · rcases Nat.lt_or_ge (v ++ r).length 4 with hlen' | hlen'
    · rw [unicodeStep_of_short hlen'] at h ⊢
      rw [unicodeStep_of_short hlen, List.append_cancel_right h]
    · -- four digits that begin in `v` take some of `r` along
      have hle := unicodeStep_length_add hlen'
      rw [h, List.length_append, List.length_append] at hle
      omega
  · obtain ⟨a, b, c, d, v, rfl⟩ := exists_four hlen
    simp only [List.cons_append, unicodeStep] at h ⊢
    split_ifs at h ⊢ with hhi hlo
    · rw [pairWith_cut h]
    · rw [List.append_cancel_right h]
    · rw [List.append_cancel_right h]

/-- The item of a string that ends in front of the cut is read in the same way. -/
lemma stringStep_cut {c : UInt8} (h : (stringStep c (v ++ r)).2 = x ++ r) :
    stringStep c v = ((stringStep c (v ++ r)).1, x) := by
  cases v with
  | nil =>
    cases r with
    | nil =>
      obtain rfl : x = [] := by simpa [stringStep] using h.symm
      rfl
    | cons n r =>
      simp only [List.nil_append, stringStep] at h ⊢
      have hlong : ∀ {y : Bytes}, y.length ≤ r.length → y ≠ x ++ n :: r := by
        rintro y hy rfl
        simp only [List.length_append, List.length_cons] at hy
        omega
      split_ifs at h ⊢ with hc hn
      · exact absurd h (hlong (unicodeStep_length_le r))
      · exact absurd h (hlong le_rfl)
      · obtain rfl : x = [] := by simpa using h.symm
        rfl
  | cons n v =>
    simp only [List.cons_append, stringStep] at h ⊢
    split_ifs at h ⊢ with hc hn
    · exact unicodeStep_cut h
    · rw [List.append_cancel_right h]
    · have h : n :: v = x := List.append_cancel_right (by simpa using h)
      rw [h]

/-! ### Strings and values -/

/-- A string that ends in front of the cut is the same string. -/
lemma Quoted.cut {s : Bytes} (h : Quoted (v ++ r) s (x ++ r)) : Quoted v s x := by
  generalize hv : v ++ r = y at h
  generalize hx : x ++ r = z at h
  induction h generalizing v with
  | close =>
    subst hx
    obtain rfl : v = quote :: x := List.append_cancel_right (by simpa using hv)
    exact .close
  | @item c y s z hc h ih =>
    subst hx
    obtain ⟨w, hw⟩ : r <:+ (stringStep c y).2 := (List.suffix_append x r).trans h.suffix
    cases v with
    | nil =>
      have hlen := congrArg List.length hw
      have hle := stringStep_length_le c y
      rw [← hw] at hle
      rw [List.nil_append] at hv
      simp only [hv, List.length_append, List.length_cons] at hle
      omega
    | cons d v =>
      obtain ⟨rfl, hy⟩ := List.cons.inj (show d :: (v ++ r) = c :: y from hv)
      subst hy
      have hstep := stringStep_cut hw.symm
      have hitem : Quoted (d :: v) ((stringStep d v).1 ++ s) x :=
        .item hc (by rw [hstep]; exact ih hw rfl)
      rwa [hstep] at hitem

lemma Named.cut {k : Bytes} (h : Named (v ++ r) k (w ++ r)) : Named v k w := by
  obtain ⟨x, y, hx, hk, hw⟩ := h
  have hy : r <:+ y := (List.suffix_append w r).trans hw.suffix
  obtain ⟨x, rfl⟩ := hy.trans hk.suffix
  obtain ⟨y, rfl⟩ := hy
  exact ⟨x, y, hx.cut, hk.cut, hw.cut⟩

/-- A walk that ends in front of the cut takes the same way through what is left of the text: each
of its steps does, since what a later step leaves is an end of what an earlier one has left. -/
lemma Skips.cut {k : Kind} (h : Skips k (v ++ r) (x ++ r)) : Skips k v x := by
  generalize hv : v ++ r = y at h
  generalize hx : x ++ r = z at h
  have hz : r <:+ z := hx ▸ List.suffix_append x r
  -- what a step leaves ends with `r`, so there is a text in front of `r` to apply the hypothesis to
  induction h generalizing v x with
  | string h hq =>
    subst hv hx
    obtain ⟨w, rfl⟩ := hz.trans hq.suffix
    exact .string h.cut hq.cut
  | emptyObj h h' =>
    subst hv hx
    obtain ⟨w, rfl⟩ := hz.trans h'.suffix
    exact .emptyObj h.cut h'.cut
  | obj h hm ih =>
    subst hv hx
    obtain ⟨w, rfl⟩ := hz.trans hm.suffix
    exact .obj h.cut (ih rfl rfl hz)
  | emptyArr h h' =>
    subst hv hx
    obtain ⟨w, rfl⟩ := hz.trans h'.suffix
    exact .emptyArr h.cut h'.cut
  | arr h hm ih =>
    subst hv hx
    obtain ⟨w, rfl⟩ := hz.trans hm.suffix
    exact .arr h.cut (ih rfl rfl hz)
  | word h hc =>
    subst hv
    obtain ⟨w, rfl⟩ := hz.trans (List.dropWhile_suffix _)
    rw [← (dropWhile_cut hx.symm).1]
    exact .word h.cut hc
  | number h hc =>
    subst hv
    obtain ⟨w, rfl⟩ := hz.trans (List.dropWhile_suffix _)
    rw [← (dropWhile_cut hx.symm).1]
    exact .number h.cut hc
  | lastMember hn hs hr ih =>
    subst hv hx
    have hy := hz.trans hr.suffix
    obtain ⟨w, rfl⟩ := hy.trans hs.suffix
    obtain ⟨y, rfl⟩ := hy
    exact .lastMember hn.cut (ih rfl rfl (List.suffix_append y r)) hr.cut
  | member hn hs hc hm ih ih' =>
    subst hv hx
    have hy' := hz.trans hm.suffix
    have hy := hy'.trans hc.suffix
    obtain ⟨w, rfl⟩ := hy.trans hs.suffix
    obtain ⟨y, rfl⟩ := hy
    obtain ⟨y', rfl⟩ := hy'
    exact .member hn.cut (ih rfl rfl (List.suffix_append y r)) hc.cut (ih' rfl rfl hz)
  | lastElem hs hr ih =>
    subst hv hx
    obtain ⟨y, rfl⟩ := hz.trans hr.suffix
    exact .lastElem (ih rfl rfl (List.suffix_append y r)) hr.cut
  | elem hs hc hm ih ih' =>
    subst hv hx
    have hy' := hz.trans hm.suffix
    obtain ⟨y, rfl⟩ := hy'.trans hc.suffix
    obtain ⟨y', rfl⟩ := hy'
    exact .elem (ih rfl rfl (List.suffix_append y r)) hc.cut (ih' rfl rfl hz)

/-- A value that ends in front of the cut is read as the same value. -/
lemma ReadsValue.cut {a : Value} (h : ReadsValue (v ++ r) a (x ++ r)) : ReadsValue v a x := by
  obtain ⟨c, w, hn, h⟩ := h
  have hdrop : ∀ {p : UInt8 → Bool} {w : Bytes}, x ++ r = w.dropWhile p → r <:+ w := fun hw =>
    (hw ▸ List.suffix_append x r).trans (List.dropWhile_suffix _)
  rcases h with ⟨rfl, s, hq, rfl⟩ | ⟨hc, hs, t, ht, rfl⟩ | ⟨hc, rfl, hw⟩ | ⟨rfl, rfl, hw⟩ |
    ⟨hc, rfl, hw⟩
  · -- a string
    obtain ⟨w, rfl⟩ := (List.suffix_append x r).trans hq.suffix
    exact ⟨quote, w, hn.cut, .inl ⟨rfl, s, hq.cut, rfl⟩⟩
  · -- the text of an object or an array
    have hskip : Skips .value (c :: w) (x ++ r) := by
      rw [← skips_dropWhile, hn] at hs
      exact hs
    have hr : r <:+ c :: w := (List.suffix_append x r).trans hskip.suffix
    rcases List.suffix_cons_iff.mp hr with hr | ⟨w, rfl⟩
    · have := hskip.length_lt
      rw [List.length_append, ← hr] at this
      omega
    · have ht : c :: w = t ++ x := List.append_cancel_right (by simpa using ht)
      exact ⟨c, w, hn.cut, .inr (.inl ⟨hc, hs.cut, t, ht, rfl⟩)⟩
  · -- `true` or `false`
    obtain ⟨w, rfl⟩ := hdrop hw
    obtain ⟨hx, htake⟩ := dropWhile_cut hw.symm
    exact ⟨c, w, hn.cut, .inr (.inr (.inl ⟨hc, by rw [htake], hx.symm⟩))⟩
  · -- `null`
    obtain ⟨w, rfl⟩ := hdrop hw
    exact ⟨_, w, hn.cut, .inr (.inr (.inr (.inl ⟨rfl, rfl, (dropWhile_cut hw.symm).1.symm⟩)))⟩
  · -- a number
    obtain ⟨w, rfl⟩ := hdrop hw
    obtain ⟨hx, htake⟩ := dropWhile_cut hw.symm
    exact ⟨c, w, hn.cut, .inr (.inr (.inr (.inr ⟨hc, by rw [htake], hx.symm⟩)))⟩

/-! ### Tokens -/

/-- Tokens that end in front of the cut are the same tokens. -/
lemma Lexed.cut {l : List Token} (h : Lexed (v ++ r) l (x ++ r)) : Lexed v l x := by
  generalize hv : v ++ r = y at h
  generalize hx : x ++ r = z at h
  have hz : r <:+ z := hx ▸ List.suffix_append x r
  -- a text that goes on to `z` has begun before `r`
  have hcons : ∀ {c : UInt8} {v y : Bytes}, v ++ r = c :: y → r <:+ y →
      ∃ w, v = c :: w ∧ w ++ r = y := by
    rintro c v y hv ⟨w, rfl⟩
    exact ⟨w, List.append_cancel_right (by simpa using hv), rfl⟩
  induction h generalizing v with
  | done =>
    rw [List.append_cancel_right (hv.trans hx.symm)]
    exact .done
  | separator hc h ih =>
    obtain ⟨w, rfl, hw⟩ := hcons hv (hz.trans h.suffix)
    exact .separator hc (ih hw hx hz)
  | @string y t s w l z hq ht h ih =>
    have hw : r <:+ w := hz.trans h.suffix
    obtain ⟨u, rfl, hu⟩ := hcons hv (hw.trans hq.suffix)
    obtain ⟨w, rfl⟩ := hw
    subst hu
    refine .string hq.cut (List.append_cancel_right (by simpa using ht)) (ih rfl hx hz)
  | number hc h ih =>
    have hw := hz.trans h.suffix
    obtain ⟨u, rfl, rfl⟩ := hcons hv (hw.trans (List.dropWhile_suffix _))
    obtain ⟨w, hw⟩ := hw
    obtain ⟨hdrop, htake⟩ := dropWhile_cut hw.symm
    rw [htake]
    exact .number hc (hdrop ▸ ih hw hx hz)
  | word hc h ih =>
    have hw := hz.trans h.suffix
    obtain ⟨u, rfl, rfl⟩ := hcons hv (hw.trans (List.dropWhile_suffix _))
    obtain ⟨w, hw⟩ := hw
    obtain ⟨hdrop, htake⟩ := dropWhile_cut hw.symm
    rw [htake]
    exact .word hc (hdrop ▸ ih hw hx hz)

/-! ### Positions -/

/-- What `x` reads of a text from the offset `start + k`, up to the end of the part `s` that begins
at `start`, it reads of `s` alone from the offset `k`. -/
def SameAt {α : Type} (x : Walk α) (body s : Bytes) (start k : Nat) : Prop :=
  ∀ a i, x.out ⟨body, start + k, true⟩ = .ok (a, ⟨body, i, true⟩) → i ≤ start + s.length →
    x.out ⟨s, k, true⟩ = .ok (a, ⟨s, i - start, true⟩)

/-- A reader that is described by a relation between texts, as the walker's readers are, reads a
part of a text as it reads the part alone if the relation allows the cut. -/
lemma sameAt_of_cut {α : Type} {x : Walk α} {G : Bytes → α → Bytes → Prop} {u s r : Bytes} {k : Nat}
    (hk : k ≤ s.length) (hx : Reads tape x (s.drop k) (G (s.drop k)))
    (hx' : Reads tape x (s.drop k ++ r) (G (s.drop k ++ r)))
    (hcut : ∀ {w a}, G (s.drop k ++ r) a (w ++ r) → G (s.drop k) a w) :
    SameAt x (u ++ (s ++ r)) s u.length k := by
  intro a i ho hi
  have hdrop : (u ++ (s ++ r)).drop (u.length + k) = s.drop k ++ r := by
    rw [List.drop_append, List.drop_of_length_le (by omega), List.nil_append,
      Nat.add_sub_cancel_left, List.drop_append_of_le_length hk]
  have hle : u.length + k ≤ (u ++ (s ++ r)).length := by
    simp only [List.length_append]
    omega
  obtain ⟨t, z, ht, hg, hp⟩ := (out_iff_of_reads (by rwa [hdrop]) hle).mp ⟨ho, rfl⟩
  obtain rfl : i = u.length + k + t.length := (JsonParser.mk.inj hp).2.1
  rw [hdrop] at ht
  -- what is read ends in front of `r`
  have htlen : t.length ≤ (s.drop k).length := by
    rw [List.length_drop]
    omega
  obtain ⟨w, hw⟩ := List.prefix_of_prefix_length_le (ht ▸ List.prefix_append t z)
    (List.prefix_append (s.drop k) r) htlen
  obtain rfl : z = w ++ r := by
    rw [← hw, List.append_assoc] at ht
    exact (List.append_cancel_left ht).symm
  refine ((out_iff_of_reads hx hk).mpr ⟨t, w, hw.symm, hcut hg, ?_⟩).1
  rw [Nat.add_assoc, Nat.add_sub_cancel_left]

end JsonParser

end MongrelDB
