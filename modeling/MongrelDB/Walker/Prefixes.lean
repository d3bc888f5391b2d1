import MongrelDB.Walker.Elsewhere

/-!
# What is read goes on

What has been read of the beginning of a text is read of the whole text. Numbers and words must not
be at the end of that beginning, since they may go on, and no escape may be cut off in it; then a
list that is closed, and the scan that has come to it, are the same however the text continues.
-/

namespace MongrelDB

open Text Traced Prog Json

namespace JsonParser

variable {α : Type} {t u v w x y r : Bytes}

/-! ### Reading on -/

lemma Next.append {c : UInt8} (h : Next c v w) (t : Bytes) : Next c (v ++ t) (w ++ t) := by
  have h' : Next c (v ++ []) (w ++ []) := by simpa using h
  exact h'.elsewhere

lemma Quoted.append {s : Bytes} (h : Quoted v s r) (hu : Unbroken v r) (t : Bytes) :
    Quoted (v ++ t) s (r ++ t) := by
  have h' : Quoted (v ++ []) s (r ++ []) := by simpa using h
  exact h'.elsewhere (by simpa using hu)

lemma Named.append {k : Bytes} (h : Named v k w) (hu : Unbroken v w) (t : Bytes) :
    Named (v ++ t) k (w ++ t) := by
  have h' : Named (v ++ []) k (w ++ []) := by simpa using h
  exact h'.elsewhere (by simpa using hu)

/-- A walk that has come to its end without a broken escape goes on. A bare value that reaches the
end of the text is left out, since a number or a word may get longer there. -/
lemma Skips.append {k : Kind} (h : Skips k v r) (hu : Unbroken v r)
    (hr : k = .value → r = [] → ∀ c w, Next c v w → c = lbrace ∨ c = lbracket) (t : Bytes) :
    Skips k (v ++ t) (r ++ t) := by
  have h' : Skips k (v ++ []) (r ++ []) := by simpa using h
  exact h'.elsewhere (by simpa using hu) hr

/-- A run that has come to its end within the text does not get longer. -/
lemma dropWhile_append_of_ne {p : UInt8 → Bool} (h : v.dropWhile p ≠ []) (t : Bytes) :
    (v ++ t).dropWhile p = v.dropWhile p ++ t ∧ (v ++ t).takeWhile p = v.takeWhile p := by
  have hdrop : (v ++ t).dropWhile p = v.dropWhile p ++ t := by
    rw [List.dropWhile_append, if_neg (by simpa using h)]
  exact ⟨hdrop, (dropWhile_cut hdrop).2⟩

lemma head?_next_append (h : v.dropWhile isSpace ≠ []) (t : Bytes) :
    ((v ++ t).dropWhile isSpace).head? = (v.dropWhile isSpace).head? := by
  rw [(dropWhile_append_of_ne h t).1, List.head?_append_of_ne_nil _ h]

/-- What is read as `a`, with something behind it, is read as `a` however the text goes on. -/
def Extends (item : Bytes → α → Bytes → Prop) : Prop :=
  ∀ v a w, item v a w → w <:+ v ∧
    ∀ t, Unbroken v w → w ≠ [] → item (v ++ t) a (w ++ t)

/-- What is read as `a` has an end that can be seen. -/
def Closes (item : Bytes → α → Bytes → Prop) : Prop :=
  ∀ v a w, item v a w → w <:+ v ∧ ∀ t, Unbroken v w → item (v ++ t) a (w ++ t)

lemma Closes.extends {item : Bytes → α → Bytes → Prop} (h : Closes item) : Extends item := by
  intro v a w hi
  obtain ⟨hw, happend⟩ := h v a w hi
  exact ⟨hw, fun t hu _ => happend t hu⟩

lemma Skips.exists_next (h : Skips .value v r) : ∃ c w, Next c v w := by
  cases h with
  | string h | emptyObj h | obj h | emptyArr h | arr h | word h | number h => exact ⟨_, _, h⟩

/-! ### Values and cells -/

lemma ReadsValue.next {a : Value} (h : ReadsValue v a r) : v.dropWhile isSpace ≠ [] := by
  obtain ⟨c, w, hn, -⟩ := h
  rw [hn]
  exact List.cons_ne_nil c w

/-- A value goes on if there is something behind it. -/
lemma extends_readsValue : Extends ReadsValue := by
  intro v a r h
  obtain ⟨s, hs, -⟩ := reads_readValue.complete a r h
  refine ⟨⟨s, hs.symm⟩, fun t hu hr => ?_⟩
  obtain ⟨c, w, hn, h⟩ := h
  refine ⟨c, w ++ t, hn.append t, ?_⟩
  rcases h with ⟨rfl, s, hq, rfl⟩ | ⟨hc, hs, s, hw, rfl⟩ | ⟨hc, rfl, rfl⟩ | ⟨rfl, rfl, rfl⟩ |
    ⟨hc, rfl, rfl⟩
  -- a string, the text of an object or an array, `true` or `false`, `null`, a number
  · exact .inl ⟨rfl, s, hq.append (hu.mono hn.suffix le_rfl) t, rfl⟩
  · have hw' : c :: (w ++ t) = s ++ (r ++ t) := by
      rw [← List.append_assoc, ← hw, List.cons_append]
    exact .inr (.inl ⟨hc, hs.append hu (fun _ h => absurd h hr) t, s, hw', rfl⟩)
  · obtain ⟨hdrop, htake⟩ := dropWhile_append_of_ne hr t
    exact .inr (.inr (.inl ⟨hc, by rw [htake], hdrop.symm⟩))
  · obtain ⟨hdrop, -⟩ := dropWhile_append_of_ne hr t
    exact .inr (.inr (.inr (.inl ⟨rfl, rfl, hdrop.symm⟩)))
  · obtain ⟨hdrop, htake⟩ := dropWhile_append_of_ne hr t
    exact .inr (.inr (.inr (.inr ⟨hc, by rw [htake], hdrop.symm⟩)))

lemma afterComma_append (h : (afterComma v).dropWhile isSpace ≠ []) (t : Bytes) :
    afterComma (v ++ t) = afterComma v ++ t := by
  have hne : v.dropWhile isSpace ≠ [] := by
    intro he
    rw [afterComma, he] at h
    exact h rfl
  obtain ⟨hdrop, -⟩ := dropWhile_append_of_ne hne t
  have hhead := head?_next_append hne t
  by_cases hc : (v.dropWhile isSpace).head? = some comma
  · rw [afterComma, if_pos (hhead.trans hc), afterComma, if_pos hc, hdrop,
      List.tail_append_of_ne_nil hne]
  · rw [afterComma, if_neg (hhead ▸ hc), afterComma, if_neg hc, hdrop]

lemma afterComma_suffix (v : Bytes) : afterComma v <:+ v := by
  unfold afterComma
  split_ifs
  · exact (List.tail_suffix _).trans (List.dropWhile_suffix _)
  · exact List.dropWhile_suffix _

/-- A cell goes on if there is something behind it: its value is the last thing in it. -/
lemma extends_readsCell : Extends ReadsCell := by
  intro v c r h
  obtain ⟨hr, happend⟩ := extends_readsValue _ _ _ h.value
  have hafter := (afterComma_suffix _).trans
    ((List.dropWhile_suffix isNumberChar).trans (List.dropWhile_suffix isSpace (l := v)))
  refine ⟨hr.trans hafter, fun t hu hne => ?_⟩
  have hvalue := happend t (hu.mono hafter le_rfl) hne
  have hnext := h.value.next
  -- there is a number, and something behind it
  have hspace : v.dropWhile isSpace ≠ [] := by
    intro he
    have hhead := h.head
    rw [he] at hhead
    cases hhead
  have hnumber : (v.dropWhile isSpace).dropWhile isNumberChar ≠ [] := by
    intro he
    rw [he] at hnext
    exact hnext rfl
  obtain ⟨hdrop, -⟩ := dropWhile_append_of_ne hspace t
  obtain ⟨hdrop', htake⟩ := dropWhile_append_of_ne hnumber t
  refine ⟨?_, ?_, ?_⟩
  · rw [hdrop, List.head?_append_of_ne_nil _ hspace]
    exact h.head
  · rw [hdrop, htake]
    exact h.columnId
  · rw [hdrop, hdrop', afterComma_append hnext]
    exact hvalue

/-! ### Lists and rows -/

variable {item : Bytes → α → Bytes → Prop} {close : UInt8}

/-- A list has an end that can be seen, even if its items have none: there is a comma or the closing
bracket behind each. -/
lemma closes_listed (hi : Extends item) : Closes (Listed item close) := by
  intro v l r h
  induction h with
  | last ha hw =>
    obtain ⟨hv, happend⟩ := hi _ _ _ ha
    refine ⟨hw.suffix.trans hv, fun t hu => ?_⟩
    exact .last (happend t (hu.mono List.suffix_rfl hw.length_lt.le) hw.ne_nil) (hw.append t)
  | more ha hw _ ih =>
    obtain ⟨hv, happend⟩ := hi _ _ _ ha
    obtain ⟨hx, hlist⟩ := ih
    have hlen := hx.length_le.trans hw.length_lt.le
    refine ⟨(hx.trans hw.suffix).trans hv, fun t hu => ?_⟩
    exact .more (happend t (hu.mono List.suffix_rfl hlen) hw.ne_nil) (hw.append t)
      (hlist t (hu.mono (hw.suffix.trans hv) le_rfl))

lemma closes_bracketed (hi : Extends item) : Closes (Bracketed item close) := by
  intro v l r h
  rcases h with ⟨hr, rfl⟩ | h
  · exact ⟨hr.suffix, fun t _ => .inl ⟨hr.append t, rfl⟩⟩
  · obtain ⟨hr, happend⟩ := closes_listed hi _ _ _ h
    exact ⟨hr, fun t hu => .inr (happend t hu)⟩

lemma extends_rowMember : Extends RowMember := by
  intro v cs r h
  cases h with
  | cells hn hx hc =>
    obtain ⟨hr, happend⟩ := closes_bracketed extends_readsCell _ _ _ hc
    have hw := hr.trans hx.suffix
    refine ⟨hw.trans hn.suffix, fun t hu _ => ?_⟩
    exact .cells (hn.append (hu.mono List.suffix_rfl hw.length_le) t) (hx.append t)
      (happend t (hu.mono (hx.suffix.trans hn.suffix) le_rfl))
  | @other _ k w hn hk hs =>
    refine ⟨hs.suffix.trans hn.suffix, fun t hu hne => ?_⟩
    have hs' := hs.append (hu.mono hn.suffix le_rfl) (fun _ he => absurd he hne) t
    refine .other (hn.append (hu.mono List.suffix_rfl hs.length_lt.le) t) ?_ hs'
    rintro ⟨rfl, x, hx⟩
    obtain ⟨c, y, hy⟩ := hs.exists_next
    obtain ⟨rfl, -⟩ := hx.unique (hy.append t)
    exact hk ⟨rfl, y, hy⟩

/-- A row has an end that can be seen. -/
lemma closes_readsRow : Closes ReadsRow := by
  rintro v row r ⟨w, ls, hw, hl, rfl⟩
  obtain ⟨hr, happend⟩ := closes_bracketed extends_rowMember _ _ _ hl
  refine ⟨hr.trans hw.suffix, fun t hu => ?_⟩
  exact ⟨w ++ t, ls, hw.append t, happend t (hu.mono hw.suffix le_rfl), rfl⟩

lemma closes_readsName : Closes ReadsName := by
  rintro v s r ⟨w, hw, hq⟩
  refine ⟨hq.suffix.trans hw.suffix, fun t hu => ?_⟩
  exact ⟨w ++ t, hw.append t, hq.append (hu.mono hw.suffix le_rfl) t⟩

/-! ### Scans -/

variable {hit : Bytes → Option UInt8 → Bool}

lemma Skips.dropWhile_ne_nil (h : Skips .value w x) : w.dropWhile isSpace ≠ [] := by
  obtain ⟨c, y, hy⟩ := h.exists_next
  rw [hy]
  exact List.cons_ne_nil c y

/-- A scan that has come to its member comes to the same member however the text goes on. -/
lemma Reaches.append (hnone : ∀ k, hit k none = false) {z : Bytes} (h : Reaches hit v z)
    (hu : Unbroken v []) (t : Bytes) : Reaches hit (v ++ t) (z ++ t) := by
  induction h with
  | @here v k w hn hh =>
    have hne : w.dropWhile isSpace ≠ [] := by
      intro he
      rw [he, List.head?_nil, hnone] at hh
      cases hh
    rw [← (dropWhile_append_of_ne hne t).1]
    exact .here (hn.append (hu.mono List.suffix_rfl (Nat.zero_le _)) t)
      (by rwa [head?_next_append hne])
  | later hn hh hs hx _ ih =>
    have hcomma : ∀ {x y : Bytes}, Next comma x y → x ≠ [] := Next.ne_nil
    have hw := hu.mono hn.suffix (le_refl ([] : Bytes).length)
    refine .later (hn.append (hu.mono List.suffix_rfl (Nat.zero_le _)) t) ?_
      (hs.append (hw.mono List.suffix_rfl (Nat.zero_le _)) (fun _ he => absurd he (hcomma hx)) t)
      (hx.append t) (ih (hw.mono (hx.suffix.trans hs.suffix) le_rfl))
    rwa [head?_next_append hs.dropWhile_ne_nil]

/-- A scan that has seen the end of the object without its member will not find it. -/
lemma Absent.append (h : Absent hit v) (hu : Unbroken v []) (t : Bytes) : Absent hit (v ++ t) := by
  induction h with
  | last hn hh hs hx =>
    refine .last (hn.append (hu.mono List.suffix_rfl (Nat.zero_le _)) t) ?_
      (hs.append (hu.mono hn.suffix (Nat.zero_le _)) (fun _ he => absurd he hx.ne_nil) t)
      (hx.append t)
    rwa [head?_next_append hs.dropWhile_ne_nil]
  | later hn hh hs hx _ ih =>
    refine .later (hn.append (hu.mono List.suffix_rfl (Nat.zero_le _)) t) ?_
      (hs.append (hu.mono hn.suffix (Nat.zero_le _)) (fun _ he => absurd he hx.ne_nil) t)
      (hx.append t) (ih (hu.mono ((hx.suffix.trans hs.suffix).trans hn.suffix) le_rfl))
    rwa [head?_next_append hs.dropWhile_ne_nil]

end JsonParser

end MongrelDB
