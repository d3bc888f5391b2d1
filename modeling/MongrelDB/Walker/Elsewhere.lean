import MongrelDB.Walker.Local
import MongrelDB.Walker.Responses

/-!
# What is read stands for itself

What the walker has read of a text, and what does not end with it, it reads in the same way with any
other text behind it. The escapes look ahead, but at most six characters, and a string that has been
closed has its quote among them. Only an escape without four characters behind it is read in another
way when there are some, so the text must have gone on that far.
-/

namespace MongrelDB

open Text Traced Prog Json

namespace JsonParser

variable {α : Type} {v w x r r' : Bytes}

/-! ### Runs -/

lemma dropWhile_elsewhere {p : UInt8 → Bool} (h : (v ++ r).dropWhile p = x ++ r) (hx : x ≠ []) :
    (v ++ r').dropWhile p = x ++ r' := by
  have hv : v.dropWhile p = x := (dropWhile_cut h).1
  rw [List.dropWhile_append, hv, if_neg (by simpa using hx)]

lemma Next.elsewhere {c : UInt8} (h : Next c (v ++ r) (w ++ r)) : Next c (v ++ r') (w ++ r') :=
  dropWhile_elsewhere (x := c :: w) h (List.cons_ne_nil c w)

lemma Next.ne_nil {c : UInt8} (h : Next c v w) : v ≠ [] := by
  rintro rfl
  cases h

/-! ### Escapes -/

/-- A quote is no hexadecimal digit. -/
lemma hexNumber_of_quote {ds : Bytes} (h : quote ∈ ds) (n : Nat) : hexNumber ds n = none := by
  induction ds generalizing n with
  | nil => cases h
  | cons d ds ih =>
    rw [hexNumber]
    rcases List.mem_cons.mp h with rfl | h
    · rfl
    · cases hexVal d with
      | none => rfl
      | some k => exact ih h _

/-- A quote within the six characters that the look-ahead looks at ends it without a find. -/
lemma lowHalf_of_quote (h : quote ∈ v.take 6) : lowHalf v = none := by
  unfold lowHalf
  split
  · next a b c d v =>
    split_ifs with hu
    · obtain ⟨rfl, rfl⟩ := hu
      have hq := (List.mem_cons.mp h).resolve_left (by decide)
      have hq : quote ∈ [a, b, c, d] := (List.mem_cons.mp hq).resolve_left (by decide)
      rw [hexNumber_of_quote hq]
    · rfl
  · rfl

lemma pairWith_suffix (cp : Nat) (v : Bytes) : (pairWith cp v).2 <:+ v := by
  obtain ⟨t, ht, -⟩ := steps_lowSurrogate cp (v := v)
  exact ⟨t, ht.symm⟩

lemma pairWith_of_none (cp : Nat) (h : lowHalf v = none) : pairWith cp v = (0xFFFD, v) := by
  unfold pairWith
  rw [h]

lemma pairWith_of_some (cp : Nat) {lo : Nat} (h : lowHalf v = some (lo, w)) :
    pairWith cp v = (0x10000 + ((cp - 0xD800) <<< 10) + (lo - 0xDC00), w) := by
  unfold pairWith
  rw [h]

/-- With a quote in what the look-ahead leaves, it finds the same whatever is appended. -/
lemma pairWith_append {cp : Nat} (h : quote ∈ (pairWith cp v).2) :
    pairWith cp (v ++ r) = ((pairWith cp v).1, (pairWith cp v).2 ++ r) := by
  rcases Nat.lt_or_ge v.length 6 with hlen | hlen
  · have hquote : quote ∈ (v ++ r).take 6 := by
      rw [List.take_append, List.take_of_length_le hlen.le]
      exact List.mem_append_left _ ((pairWith_suffix cp v).mem h)
    rw [pairWith_of_none cp (lowHalf_of_quote hquote),
      pairWith_of_none cp (lowHalf_of_short hlen)]
  · have happend := lowHalf_append (r := r) hlen
    cases hl : lowHalf v with
    | none =>
      rw [hl] at happend
      rw [pairWith_of_none cp happend, pairWith_of_none cp hl]
    | some p =>
      rw [hl] at happend
      rw [pairWith_of_some cp happend, pairWith_of_some cp hl]

lemma unicodeStep_append (hlen : 4 ≤ v.length) (h : quote ∈ (unicodeStep v).2) :
    unicodeStep (v ++ r) = ((unicodeStep v).1, (unicodeStep v).2 ++ r) := by
  obtain ⟨a, b, c, d, v, rfl⟩ := exists_four hlen
  simp only [List.cons_append, unicodeStep] at h ⊢
  split_ifs at h ⊢ with hhi hlo
  · rw [pairWith_append h]
  · rfl
  · rfl

/-- An escape that has four characters behind it takes them. -/
lemma four_le_of_unicodeStep (h : (unicodeStep (v ++ r)).2 = w ++ r) (hlen : 4 ≤ (v ++ r).length) :
    4 ≤ v.length := by
  have hadd := unicodeStep_length_add hlen
  rw [h, List.length_append, List.length_append] at hadd
  omega

lemma unicodeStep_suffix (v : Bytes) : (unicodeStep v).2 <:+ v := by
  obtain ⟨t, ht, -⟩ := steps_readUnicode [] (v := v)
  exact ⟨t, ht.symm⟩

lemma stringStep_suffix (c : UInt8) (v : Bytes) : (stringStep c v).2 <:+ v := by
  cases v with
  | nil => exact List.suffix_rfl
  | cons n v =>
    simp only [stringStep]
    split_ifs
    · exact (unicodeStep_suffix v).trans (List.suffix_cons n v)
    · exact List.suffix_cons n v
    · exact List.suffix_rfl

/-- The escapes in front of `x` have the four characters that they take, if there is a quote to end
their strings. -/
def Unbroken (v x : Bytes) : Prop :=
  ∀ w, backslash :: 0x75 :: w <:+ v → x.length < w.length → quote ∈ w → 4 ≤ w.length

lemma Unbroken.mono {v' x' : Bytes} (h : Unbroken v x) (hv : v' <:+ v) (hx : x.length ≤ x'.length) :
    Unbroken v' x' := by
  intro w hw hlen hq
  exact h w (hw.trans hv) (hx.trans_lt hlen) hq

lemma unbroken_of_length (h : 3 ≤ x.length) : Unbroken v x := by
  intro w _ hlen _
  omega

lemma unbroken_of_notMem (h : backslash ∉ v) : Unbroken v x := by
  intro w hw _ _
  exact absurd (hw.mem List.mem_cons_self) h

/-- The item of a string that a quote ends later on is read in the same way in front of any other
rest, unless it is an escape that is cut short. -/
lemma stringStep_elsewhere {c : UInt8} (h : (stringStep c (v ++ r)).2 = w ++ r) (hq : quote ∈ w)
    (hu : Unbroken (c :: (v ++ r)) x) (hlen : x.length < (w ++ r).length) :
    stringStep c (v ++ r') = ((stringStep c (v ++ r)).1, w ++ r') := by
  have hcut := stringStep_cut h
  cases v with
  | nil =>
    have hle := stringStep_length_le c r
    have hpos := List.length_pos_of_mem hq
    rw [List.nil_append] at h
    rw [h, List.length_append] at hle
    omega
  | cons n v =>
    simp only [List.cons_append, stringStep] at h hcut ⊢
    split_ifs at h hcut ⊢ with hc hn
    · subst hc hn
      have hsuffix := unicodeStep_suffix (v ++ r)
      rw [h] at hsuffix
      have hfour := hu (v ++ r) List.suffix_rfl (hlen.trans_le hsuffix.length_le)
        (hsuffix.mem (List.mem_append_left r hq))
      rw [unicodeStep_append (four_le_of_unicodeStep h hfour) (by rwa [hcut]), hcut]
    · rw [← (Prod.mk.inj hcut).2]
    · rw [← (Prod.mk.inj hcut).2]
      rfl

/-! ### Strings and values -/

lemma Quoted.quote_mem {s : Bytes} (h : Quoted v s r) : quote ∈ v := by
  induction h with
  | close => exact List.mem_cons_self
  | @item c v s r _ _ ih => exact List.mem_cons_of_mem _ ((stringStep_suffix c v).mem ih)

/-- A closed string without a broken escape is the same string in front of any other rest. -/
lemma Quoted.elsewhere {s : Bytes} (h : Quoted (v ++ r) s (x ++ r))
    (hu : Unbroken (v ++ r) (x ++ r)) : Quoted (v ++ r') s (x ++ r') := by
  generalize hv : v ++ r = y at h hu
  generalize hx : x ++ r = z at h hu
  induction h generalizing v with
  | close =>
    subst hx
    obtain rfl : v = quote :: x := List.append_cancel_right (by simpa using hv)
    exact .close
  | @item c y s z hc h ih =>
    subst hx
    obtain ⟨w, hw⟩ : r <:+ (stringStep c y).2 := (List.suffix_append x r).trans h.suffix
    cases v with
    | nil =>
      have hlen := congrArg List.length hw
      have hle := stringStep_length_le c y
      rw [← hw] at hle
      rw [List.nil_append] at hv
      simp only [hv, List.length_append, List.length_cons] at hle
      omega
    | cons d v =>
      obtain ⟨rfl, hy⟩ := List.cons.inj (show d :: (v ++ r) = c :: y from hv)
      subst hy
      have hrest := hu.mono ((stringStep_suffix d _).trans (List.suffix_cons d _)) le_rfl
      rw [← hw] at h
      have hstep : stringStep d (v ++ r') = ((stringStep d (v ++ r)).1, w ++ r') :=
        stringStep_elsewhere hw.symm h.cut.quote_mem hu h.length_lt
      have hitem : Quoted (d :: (v ++ r')) ((stringStep d (v ++ r')).1 ++ s) (x ++ r') :=
        .item hc (by rw [hstep]; exact ih hw rfl hrest)
      rwa [hstep] at hitem

lemma Named.elsewhere {k : Bytes} (h : Named (v ++ r) k (w ++ r))
    (hu : Unbroken (v ++ r) (w ++ r)) : Named (v ++ r') k (w ++ r') := by
  obtain ⟨x, y, hx, hk, hw⟩ := h
  have hy : r <:+ y := (List.suffix_append w r).trans hw.suffix
  obtain ⟨x, rfl⟩ := hy.trans hk.suffix
  obtain ⟨y, rfl⟩ := hy
  exact ⟨x ++ r', y ++ r', hx.elsewhere, hk.elsewhere (hu.mono hx.suffix hw.length_lt.le),
    hw.elsewhere⟩

/-- Numbers and words may go on with what follows, so at the end of the text there must be none. -/
lemma Skips.elsewhere {k : Kind} (h : Skips k (v ++ r) (x ++ r)) (hu : Unbroken (v ++ r) (x ++ r))
    (hx : k = .value → x = [] → ∀ c w, Next c v w → c = lbrace ∨ c = lbracket) :
    Skips k (v ++ r') (x ++ r') := by
  generalize hv : v ++ r = y at h hu
  generalize hz : x ++ r = z at h hu
  have hr : r <:+ z := hz ▸ List.suffix_append x r
  -- what a step leaves ends with `r`, so there is a text in front of `r` to apply the hypothesis to
  induction h generalizing v x with
  | string h hq =>
    subst hv hz
    obtain ⟨w, rfl⟩ := hr.trans hq.suffix
    exact .string h.elsewhere (hq.elsewhere (hu.mono h.suffix le_rfl))
  | emptyObj h h' =>
    subst hv hz
    obtain ⟨w, rfl⟩ := hr.trans h'.suffix
    exact .emptyObj h.elsewhere h'.elsewhere
  | obj h hm ih =>
    subst hv hz
    obtain ⟨w, rfl⟩ := hr.trans hm.suffix
    exact .obj h.elsewhere (ih (by rintro ⟨⟩) rfl rfl (hu.mono h.suffix le_rfl) hr)
  | emptyArr h h' =>
    subst hv hz
    obtain ⟨w, rfl⟩ := hr.trans h'.suffix
    exact .emptyArr h.elsewhere h'.elsewhere
  | arr h hm ih =>
    subst hv hz
    obtain ⟨w, rfl⟩ := hr.trans hm.suffix
    exact .arr h.elsewhere (ih (by rintro ⟨⟩) rfl rfl (hu.mono h.suffix le_rfl) hr)
  -- a word or a number at the end of the text would go on elsewhere
  | word h hc =>
    subst hv
    obtain ⟨w, rfl⟩ := hr.trans (List.dropWhile_suffix _)
    have hne : x ≠ [] := by
      intro he
      rcases hx rfl he _ _ h.cut with rfl | rfl <;> simp [lbrace, lbracket] at hc
    rw [← dropWhile_elsewhere hz.symm hne]
    exact .word h.elsewhere hc
  | number h hc =>
    subst hv
    obtain ⟨w, rfl⟩ := hr.trans (List.dropWhile_suffix _)
    have hne : x ≠ [] := by
      intro he
      rcases hx rfl he _ _ h.cut with rfl | rfl <;> cases hc
    rw [← dropWhile_elsewhere hz.symm hne]
    exact .number h.elsewhere hc
  -- the value of a member or an element is not the last thing in the text
  | lastMember hn hs hm ih =>
    subst hv hz
    have hy := hr.trans hm.suffix
    obtain ⟨w, rfl⟩ := hy.trans hs.suffix
    obtain ⟨y, rfl⟩ := hy
    have hlen := hm.length_lt.le
    exact .lastMember (hn.elsewhere (hu.mono List.suffix_rfl (hlen.trans hs.length_lt.le)))
      (ih (fun _ hnil => absurd hnil hm.cut.ne_nil) rfl rfl (hu.mono hn.suffix hlen)
        (List.suffix_append y r)) hm.elsewhere
  | member hn hs hc hm ih ih' =>
    subst hv hz
    have hy' := hr.trans hm.suffix
    have hy := hy'.trans hc.suffix
    obtain ⟨w, rfl⟩ := hy.trans hs.suffix
    obtain ⟨y, rfl⟩ := hy
    obtain ⟨y', rfl⟩ := hy'
    have hlen := hm.length_lt.le.trans hc.length_lt.le
    exact .member (hn.elsewhere (hu.mono List.suffix_rfl (hlen.trans hs.length_lt.le)))
      (ih (fun _ hnil => absurd hnil hc.cut.ne_nil) rfl rfl (hu.mono hn.suffix hlen)
        (List.suffix_append y r)) hc.elsewhere
      (ih' (by rintro ⟨⟩) rfl rfl (hu.mono (hc.suffix.trans (hs.suffix.trans hn.suffix)) le_rfl) hr)
  | lastElem hs hm ih =>
    subst hv hz
    obtain ⟨y, rfl⟩ := hr.trans hm.suffix
    exact .lastElem (ih (fun _ hnil => absurd hnil hm.cut.ne_nil) rfl rfl
      (hu.mono List.suffix_rfl hm.length_lt.le) (List.suffix_append y r)) hm.elsewhere
  | elem hs hc hm ih ih' =>
    subst hv hz
    have hy' := hr.trans hm.suffix
    obtain ⟨y, rfl⟩ := hy'.trans hc.suffix
    obtain ⟨y', rfl⟩ := hy'
    exact .elem (ih (fun _ hnil => absurd hnil hc.cut.ne_nil) rfl rfl
      (hu.mono List.suffix_rfl (hm.length_lt.le.trans hc.length_lt.le))
      (List.suffix_append y r)) hc.elsewhere
      (ih' (by rintro ⟨⟩) rfl rfl (hu.mono (hc.suffix.trans hs.suffix) le_rfl) hr)

/-- A raw value that has been read is read again whatever follows it. -/
lemma ReadsValue.elsewhere {s : Bytes} (h : ReadsValue v (.json s) r) (hlen : 3 ≤ r.length) :
    ReadsValue (s ++ r') (.json s) r' := by
  obtain ⟨c, w, hn, h⟩ := h
  rcases h with ⟨-, t, -, h⟩ | ⟨hc, hs, t, ht, h⟩ | ⟨-, h, -⟩ | ⟨-, h, -⟩ | ⟨-, h, -⟩
  · cases h
  · cases h
    have hskip : Skips .value (s ++ r) ([] ++ r) := by
      rw [← skips_dropWhile, hn, ht] at hs
      exact hs
    obtain ⟨t, rfl⟩ : ∃ t, s = c :: t := by
      cases s with
      | nil =>
        have hlt := hskip.length_lt
        omega
      | cons d t => exact ⟨t, by rw [(List.cons.inj ht).1]⟩
    obtain rfl : w = t ++ r := (List.cons.inj ht).2
    have hfront : Next c (c :: t ++ r) (t ++ r) := next_cons_of_next hn
    refine ⟨c, t ++ r', hfront.elsewhere,
      .inr (.inl ⟨hc, hskip.elsewhere (unbroken_of_length hlen) ?_, c :: t, rfl, rfl⟩)⟩
    intro _ _ c' w' hn'
    obtain ⟨rfl, -⟩ := hn'.unique hfront.cut
    exact hc
  · cases h
  · cases h
  · unfold numberValue at h
    split_ifs at h

/-! ### Cells in their place -/

variable {item : Bytes → α → Bytes → Prop} {close : UInt8}

/-- Behind an item of a list there is at least the closing bracket. -/
lemma Listed.exists_item (hi : IsItem item close) {l : List α} (h : Listed item close v l r)
    {a : α} (ha : a ∈ l) : ∃ v' w, item v' a w ∧ r.length < w.length := by
  induction h with
  | last hb hw =>
    rw [List.mem_singleton] at ha
    rw [ha]
    exact ⟨_, _, hb, hw.length_lt⟩
  | more hb hw hl ih =>
    rcases List.mem_cons.mp ha with rfl | ha
    · exact ⟨_, _, hb, (hl.length_lt hi).trans hw.length_lt⟩
    · exact ih ha

lemma Bracketed.exists_item (hi : IsItem item close) {l : List α} (h : Bracketed item close v l r)
    {a : α} (ha : a ∈ l) : ∃ v' w, item v' a w ∧ r.length < w.length := by
  rcases h with ⟨-, rfl⟩ | h
  · cases ha
  · exact h.exists_item hi ha

/-- Behind a cell of a response there are the brackets of its row, of the object and of the list. -/
lemma exists_readsCell {b : Bytes} {rows : List Row} (h : (walk b decodeRows).out = .ok rows)
    {row : Row} (hrow : row ∈ rows) {c : Cell} (hc : c ∈ row) :
    ∃ v w, ReadsCell v c w ∧ 3 ≤ w.length := by
  rcases out_decodeRows_iff.mp h with ⟨y, r, -, hrows⟩ | ⟨rfl, -⟩
  · obtain ⟨v₁, w₁, ⟨v₂, ls, -, hls, rfl⟩, hlen₁⟩ := hrows.exists_item isItem_readsRow hrow
    obtain ⟨cs, hcs, hc⟩ := List.mem_flatten.mp hc
    obtain ⟨v₃, w₃, hmember, hlen₃⟩ := hls.exists_item isItem_rowMember hcs
    cases hmember with
    | cells hn hx hcells =>
      obtain ⟨v₄, w₄, hcell, hlen₄⟩ := hcells.exists_item isItem_readsCell hc
      exact ⟨v₄, w₄, hcell, by omega⟩
    | other => cases hc
  · cases hrow

end JsonParser

end MongrelDB
