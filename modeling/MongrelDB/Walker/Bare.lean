import MongrelDB.Walker.Cells
import MongrelDB.Walker.Relaxed

/-!
# Column ids without a comma

The rows of a response are walked twice: as one value, in search of what follows them, and cell by
cell. The second walk goes on where the comma behind a column id is missing, and the first does not.
There is no other difference: a list of rows that never lacks that comma is moved over by both, and
both come to the same place.
-/

namespace MongrelDB

open Text Traced Prog Json

namespace JsonParser

variable {α : Type}

/-! ### Lists with bad items -/

/-- The walk over a list comes to a bad item. -/
inductive ComesTo (item : Bytes → α → Bytes → Prop) (bad : Bytes → Prop) : Bytes → Prop
  | here {v} : bad v → ComesTo item bad v
  | later {v a w x} : item v a w → Next comma w x → ComesTo item bad x → ComesTo item bad v

/-- Where an item is not bad, another walk passes it (`pass`) and goes on behind the comma; where
it is bad, the other walk does not come to the end of the list (`whole`). -/
structure Rewalks (item : Bytes → α → Bytes → Prop) (close : UInt8) (bad : Bytes → Prop)
    (pass whole : Bytes → Bytes → Prop) : Prop where
  not_bad : ∀ {v x}, Next close v x → ¬bad v
  stuck : ∀ {v r}, bad v → ¬whole v r
  item : ∀ {v a w}, item v a w → Stops isWordChar w → ¬bad v → pass v w
  last : ∀ {v w r}, pass v w → Next close w r → whole v r
  more : ∀ {v w x r}, pass v w → Next comma w x → whole x r → whole v r
  rest : ∀ {v w x r}, pass v w → Next comma w x → whole v r → whole x r

variable {v w x r : Bytes}

lemma Next.stops_word {c : UInt8} (h : Next c v w) (hc : isWordChar c = false) :
    Stops isWordChar v := by
  obtain ⟨⟨t, ht⟩, rfl⟩ := h.exists_ws
  cases t with
  | nil => exact stops_cons.mpr hc
  | cons d t =>
    have hd := ht d List.mem_cons_self
    simp only [isSpace, Bool.or_eq_true, beq_iff_eq] at hd
    rw [List.cons_append, stops_cons]
    rcases hd with ((rfl | rfl) | rfl) | rfl <;> decide

section Rewalk

variable {item : Bytes → α → Bytes → Prop} {close : UInt8} {bad : Bytes → Prop}
  {pass whole : Bytes → Bytes → Prop}

lemma not_comesTo_of_next (hr : Rewalks item close bad pass whole) (hi : IsItem item close)
    (h : Next close v x) : ¬ComesTo item bad v := by
  rintro (hb | ⟨ha, -, -⟩)
  · exact hr.not_bad h hb
  · exact hi.not_close h ha

/-- A list without bad items is walked in the other way as well. -/
lemma whole_of_listed (hr : Rewalks item close bad pass whole) (hc : isWordChar close = false)
    {l : List α} (h : Listed item close v l r) (hb : ¬ComesTo item bad v) : whole v r := by
  induction h with
  | last ha hw => exact hr.last (hr.item ha (hw.stops_word hc) fun h => hb (.here h)) hw
  | more ha hw _ ih =>
    exact hr.more (hr.item ha (hw.stops_word (by decide)) fun h => hb (.here h)) hw
      (ih fun h => hb (.later ha hw h))

/-- A list with a bad item is not. -/
lemma not_whole_of_comesTo (hr : Rewalks item close bad pass whole) (h : ComesTo item bad v) :
    ¬whole v r := by
  induction h with
  | here hb => exact hr.stuck hb
  | @later v a w x ha hw _ ih =>
    by_cases hb : bad v
    · exact hr.stuck hb
    · exact fun h => ih (hr.rest (hr.item ha (hw.stops_word (by decide)) hb) hw h)

end Rewalk

/-! ### Values -/

lemma dropWhile_eq_of_stops {p q : UInt8 → Bool} (hpq : ∀ c, p c = true → q c = true)
    (h : Stops q (v.dropWhile p)) : v.dropWhile q = v.dropWhile p := by
  have hrun := dropWhile_run (p := q) (t := v.takeWhile p)
    (fun c hc => hpq c (List.mem_takeWhile_imp hc)) h
  rwa [List.takeWhile_append_dropWhile] at hrun

/-- A value that is read and ends where a word would end is skipped. -/
lemma ReadsValue.skips {a : Value} (h : ReadsValue v a r) (hr : Stops isWordChar r) :
    Skips .value v r := by
  obtain ⟨c, w, hn, h⟩ := h
  have hletter : ∀ c, isLetter c = true → isWordChar c = true := fun c hc => by
    simp [isWordChar, hc]
  have hlower : ∀ c, isLower c = true → isWordChar c = true := fun c hc =>
    hletter c (by simp [isLetter, hc])
  rcases h with ⟨rfl, s, hq, -⟩ | ⟨-, hs, -⟩ | ⟨hc, -, rfl⟩ | ⟨rfl, -, rfl⟩ | ⟨hc, -, rfl⟩
  · exact .string hn hq
  · exact hs
  · rw [← dropWhile_eq_of_stops hletter hr]
    exact .word hn (hc.imp_right .inl)
  · rw [← dropWhile_eq_of_stops hlower hr]
    exact .word hn (.inr (.inr rfl))
  · exact .number hn hc

lemma skips_elems_iff : Skips .elems v r ↔ ∃ x, Skips .value v x ∧
    (Next rbracket x r ∨ ∃ y, Next comma x y ∧ Skips .elems y r) := by
  constructor
  · generalize hk : Kind.elems = k
    intro h
    cases h with
    | lastElem h hx => exact ⟨_, h, .inl hx⟩
    | elem h hx hy => exact ⟨_, h, .inr ⟨_, hx, hy⟩⟩
    | _ => cases hk
  · rintro ⟨x, h, hx | ⟨y, hx, hy⟩⟩
    · exact .lastElem h hx
    · exact .elem h hx hy

lemma skips_elems_rest (h : Skips .value v w) (hw : Next comma w x) (hv : Skips .elems v r) :
    Skips .elems x r := by
  obtain ⟨y, hy, hn | ⟨z, hz, hr⟩⟩ := skips_elems_iff.mp hv
  · obtain rfl := h.unique hy
    exact absurd (hw.unique hn).1 (by decide)
  · obtain rfl := h.unique hy
    obtain ⟨-, rfl⟩ := hw.unique hz
    exact hr

lemma skips_members_iff : Skips .members v r ↔ ∃ k w x, Named v k w ∧ Skips .value w x ∧
    (Next rbrace x r ∨ ∃ y, Next comma x y ∧ Skips .members y r) := by
  constructor
  · generalize hk : Kind.members = k
    intro h
    cases h with
    | lastMember hn h hx => exact ⟨_, _, _, hn, h, .inl hx⟩
    | member hn h hx hy => exact ⟨_, _, _, hn, h, .inr ⟨_, hx, hy⟩⟩
    | _ => cases hk
  · rintro ⟨k, w, x, hn, h, hx | ⟨y, hx, hy⟩⟩
    · exact .lastMember hn h hx
    · exact .member hn h hx hy

/-- Behind its bracket an array with a bad item is not skipped. -/
lemma not_skips_array {item : Bytes → α → Bytes → Prop} {bad : Bytes → Prop}
    {pass : Bytes → Bytes → Prop} (hr : Rewalks item rbracket bad pass (Skips .elems))
    (hi : IsItem item rbracket) (hw : Next lbracket v w) (hb : ComesTo item bad w) :
    ¬Skips .value v r := by
  intro h
  rcases hw.skips_iff.mp h with ⟨h, -⟩ | ⟨h, -⟩ | ⟨-, hn | hs⟩ | ⟨h, -⟩ | ⟨h, -⟩
  · exact absurd h (by decide)
  · exact absurd h (by decide)
  · exact not_comesTo_of_next hr hi hn hb
  · exact not_whole_of_comesTo hr hb hs
  · exact absurd h (by decide)
  · exact absurd h (by decide)

/-! ### Cells -/

/-- The text behind the column id. -/
def behindId (v : Bytes) : Bytes := (v.dropWhile isSpace).dropWhile isNumberChar

/-- A column id and a value without a comma between them. -/
def BareCell (v : Bytes) : Prop := (∃ c r, ReadsCell v c r) ∧ ∀ w, ¬Next comma (behindId v) w

lemma skips_behindId (h : startsNumber (v.dropWhile isSpace).head? = true) :
    Skips .value v (behindId v) := by
  cases hv : v.dropWhile isSpace with
  | nil => rw [hv] at h; cases h
  | cons c w =>
    rw [hv, List.head?_cons] at h
    rw [behindId, hv, List.dropWhile_cons_of_pos (isNumberChar_of_startsNumber h)]
    exact .number hv h

/-- A cell with its comma, as two elements of an array. -/
def PassesCell (v w : Bytes) : Prop :=
  ∃ x, Skips .value v (behindId v) ∧ Next comma (behindId v) x ∧ Skips .value x w

lemma rewalks_cells : Rewalks ReadsCell rbracket BareCell PassesCell (Skips .elems) where
  not_bad h hb := by
    obtain ⟨⟨c, r, hc⟩, -⟩ := hb
    exact isItem_readsCell.not_close h hc
  stuck := by
    rintro v r ⟨⟨c, w, hc⟩, hbare⟩ hs
    obtain ⟨x, hx, hn | ⟨y, hy, -⟩⟩ := skips_elems_iff.mp hs
    · -- a bracket in place of the value
      obtain rfl := hx.unique (skips_behindId hc.head)
      have hval := hc.value
      rw [← behindId, afterComma, if_neg, hn] at hval
      · exact not_readsValue (next_cons_of_next hn) (by decide) hval
      · exact fun h => (List.head?_eq_some_iff.mp h).elim hbare
    · obtain rfl := hx.unique (skips_behindId hc.head)
      exact hbare y hy
  item := by
    rintro v c w hc hw hbare
    obtain ⟨x, hx⟩ : ∃ x, Next comma (behindId v) x := by
      by_contra hn
      exact hbare ⟨⟨c, w, hc⟩, fun x hx => hn ⟨x, hx⟩⟩
    have hval := hc.value.skips hw
    rw [← behindId, afterComma, hx, if_pos List.head?_cons] at hval
    exact ⟨x, skips_behindId hc.head, hx, hval⟩
  last := by
    rintro v w r ⟨x, hid, hx, hval⟩ hw
    exact .elem hid hx (.lastElem hval hw)
  more := by
    rintro v w y r ⟨x, hid, hx, hval⟩ hw hr
    exact .elem hid hx (.elem hval hw hr)
  rest := by
    rintro v w y r ⟨x, hid, hx, hval⟩ hw hs
    exact skips_elems_rest hval hw (skips_elems_rest hid hx hs)

/-! ### Rows -/

/-- Cells, of which one has no comma. -/
def BareMember (v : Bytes) : Prop :=
  ∃ w x, Named v (ascii "cells") w ∧ Next lbracket w x ∧ ComesTo ReadsCell BareCell x

def PassesMember (v w : Bytes) : Prop := ∃ k x, Named v k x ∧ Skips .value x w

lemma skips_cells {cs : Row} (hw : Next lbracket v w) (h : ReadsCells w cs r)
    (hb : ¬ComesTo ReadsCell BareCell w) : Skips .value v r := by
  rcases h with ⟨hr, -⟩ | h
  · exact .emptyArr hw hr
  · exact .arr hw (whole_of_listed rewalks_cells (by decide) h hb)

lemma rewalks_members : Rewalks RowMember rbrace BareMember PassesMember (Skips .members) where
  not_bad := by
    rintro v x h ⟨w, y, ⟨z, -, hz, -⟩, -⟩
    exact absurd (h.unique hz).1 (by decide)
  stuck := by
    rintro v r ⟨w, x, hn, hx, hb⟩ hs
    obtain ⟨k, w', y, hn', hy, -⟩ := skips_members_iff.mp hs
    obtain ⟨-, rfl⟩ := hn.unique hn'
    exact not_skips_array rewalks_cells isItem_readsCell hx hb hy
  item := by
    intro v cs w h _ hb
    cases h with
    | cells hn hx hc => exact ⟨_, _, hn, skips_cells hx hc fun h => hb ⟨_, _, hn, hx, h⟩⟩
    | other hn _ hs => exact ⟨_, _, hn, hs⟩
  last := by
    rintro v w r ⟨k, x, hn, hs⟩ hw
    exact .lastMember hn hs hw
  more := by
    rintro v w y r ⟨k, x, hn, hs⟩ hw hr
    exact .member hn hs hw hr
  rest := by
    rintro v w y r ⟨k, x, hn, hs⟩ hw hv
    obtain ⟨k', x', z, hn', hs', hz⟩ := skips_members_iff.mp hv
    obtain ⟨-, rfl⟩ := hn.unique hn'
    obtain rfl := hs.unique hs'
    rcases hz with hz | ⟨y', hy', hr⟩
    · exact absurd (hw.unique hz).1 (by decide)
    · obtain ⟨-, rfl⟩ := hw.unique hy'
      exact hr

/-- A row in which a column id has no comma. -/
def BareRow (v : Bytes) : Prop := ∃ w, Next lbrace v w ∧ ComesTo RowMember BareMember w

lemma rewalks_rows : Rewalks ReadsRow rbracket BareRow (Skips .value) (Skips .elems) where
  not_bad := by
    rintro v x h ⟨w, hw, -⟩
    exact absurd (h.unique hw).1 (by decide)
  stuck := by
    rintro v r ⟨w, hw, hb⟩ hs
    obtain ⟨x, hx, -⟩ := skips_elems_iff.mp hs
    rcases hw.skips_iff.mp hx with ⟨h, -⟩ | ⟨-, hr | hr⟩ | ⟨h, -⟩ | ⟨h, -⟩ | ⟨h, -⟩
    · exact absurd h (by decide)
    · exact not_comesTo_of_next rewalks_members isItem_rowMember hr hb
    · exact not_whole_of_comesTo rewalks_members hb hr
    · exact absurd h (by decide)
    · exact absurd h (by decide)
    · exact absurd h (by decide)
  item := by
    rintro v row w ⟨x, ls, hx, hl, -⟩ _ hb
    rcases hl with ⟨hr, -⟩ | hl
    · exact .emptyObj hx hr
    · exact .obj hx (whole_of_listed rewalks_members (by decide) hl fun h => hb ⟨x, hx, h⟩)
  last := .lastElem
  more := .elem
  rest := skips_elems_rest

/-- Behind the bracket of the rows the walk comes to a column id that has no comma behind it. -/
def BareRows (y : Bytes) : Prop := ComesTo ReadsRow BareRow y

lemma skips_rows {rows : List Row} (h : Listed ReadsRow rbracket w rows r) (hb : ¬BareRows w) :
    Skips .elems w r := whole_of_listed rewalks_rows (by decide) h hb

end JsonParser

end MongrelDB
