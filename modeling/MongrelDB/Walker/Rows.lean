import MongrelDB.Client.Http
import MongrelDB.Walker.Members

/-!
# The loops over cells, rows and names

The decoders of `query` and `table_names` stop at the first thing they do not expect, so what they
end with is all there is to say about them: each loop reads a list with commas between its items, up
to the closing bracket (`Listed`), of cells, of the members of a row, of rows or of names.
-/

namespace MongrelDB

open Text Traced Prog

namespace JsonParser

variable {α β γ : Type} {u v w x y r : Bytes}

/-! ### Checked steps -/

/-- A step whose error is thrown right after it. -/
lemma Reads.checked {x : Walk α} {f : α → Walk β} {msg : String} {G : α → Bytes → Prop}
    {H : α → Bytes → β → Bytes → Prop} (hx : Reads tape x v G)
    (hf : ∀ a w, G a w → Reads tape.firm (f a) w (H a w)) :
    Reads tape.firm (x >>= fun a => isOk >>= fun ok => if !ok then throwQuery msg else f a) v
      fun b r => ∃ a w, G a w ∧ H a w b r where
  complete := by
    rintro b r ⟨a, w, hg, hh⟩
    exact Steps.checked (hx.complete a w hg) ((hf a w hg).complete b r hh)
  sound u b p h _ := by
    have hends : Ends (x >>= fun a => isOk >>= fun ok => if !ok then throwQuery msg else f a) v
        fun b _ => ∃ r a w, G a w ∧ H a w b r := by
      refine Ends.checked hx (by rintro p b p' ⟨⟩) fun a w hg u b p ho => ?_
      obtain ⟨r, hr⟩ := (hf a w hg).exists_of_out ho
      exact ⟨r, a, w, hg, hr⟩
    exact hends u b p h

/-- A comma leads to another round, the closing bracket out of the loop. -/
lemma reads_separator {close : UInt8} (hne : close ≠ comma) (hs : isSpace close = false) {a b : β}
    {msg : String} :
    Reads tape.firm (peek >>= fun o => if o == some comma then expect comma >>= fun _ => pure a
      else if o == some close then expect close >>= fun _ => pure b else throwQuery msg) v
      fun c r => (Next comma v r ∧ c = a) ∨ (Next close v r ∧ c = b) :=
  reads_either (fun _ => steps_expect (dropWhile_eq_self (stops_cons.mpr rfl)))
    (fun _ => steps_expect (dropWhile_eq_self (stops_cons.mpr hs))) (fun _ => reads_stop) hne

/-! ### Lists -/

/-- Items with commas between them, up to the closing bracket. -/
inductive Listed (item : Bytes → α → Bytes → Prop) (close : UInt8) :
    Bytes → List α → Bytes → Prop
  | last {v a w r} : item v a w → Next close w r → Listed item close v [a] r
  | more {v a w x l r} : item v a w → Next comma w x → Listed item close x l r →
      Listed item close v (a :: l) r

/-- A list that may be empty. -/
def Bracketed (item : Bytes → α → Bytes → Prop) (close : UInt8) (v : Bytes) (l : List α)
    (r : Bytes) : Prop :=
  (Next close v r ∧ l = []) ∨ Listed item close v l r

/-- A round that takes an item and what separates it from the next. -/
def ListedRound (item : Bytes → α → Bytes → Prop) (close : UInt8) (grow : γ → α → γ) (g : γ)
    (v : Bytes) (b : Round γ γ) (r : Bytes) : Prop :=
  ∃ a w, item v a w ∧
    ((Next comma w r ∧ b = .again (grow g a)) ∨ (Next close w r ∧ b = .done (grow g a)))

/-- What the loops need of the items: they are read over white space, and the closing bracket is
not the beginning of one. -/
structure IsItem (item : Bytes → α → Bytes → Prop) (close : UInt8) : Prop where
  length_le : ∀ {v a w}, item v a w → w.length ≤ v.length
  dropWhile : ∀ {v a w}, item (v.dropWhile isSpace) a w ↔ item v a w
  not_close : ∀ {v x a w}, Next close v x → ¬item v a w

variable {item : Bytes → α → Bytes → Prop} {close : UInt8} {grow : γ → α → γ}

lemma rounds_listed {g b : γ} : Rounds (ListedRound item close grow) g v b r ↔
    ∃ l, Listed item close v l r ∧ b = l.foldl grow g := by
  constructor
  · intro h
    induction h with
    | done h =>
      obtain ⟨a, w, ha, ⟨-, ⟨⟩⟩ | ⟨hw, ⟨⟩⟩⟩ := h
      exact ⟨[a], .last ha hw, rfl⟩
    | again h _ ih =>
      obtain ⟨a, w, ha, ⟨hw, ⟨⟩⟩ | ⟨-, ⟨⟩⟩⟩ := h
      obtain ⟨l, hl, rfl⟩ := ih
      exact ⟨a :: l, .more ha hw hl, rfl⟩
  · rintro ⟨l, hl, rfl⟩
    induction hl generalizing g with
    | last ha hw => exact .done ⟨_, _, ha, .inr ⟨hw, rfl⟩⟩
    | more ha hw _ ih => exact .again ⟨_, _, ha, .inl ⟨hw, rfl⟩⟩ ih

lemma listed_dropWhile (hi : IsItem item close) {l : List α} :
    Listed item close (v.dropWhile isSpace) l r ↔ Listed item close v l r := by
  constructor <;> intro h
  · cases h with
    | last ha hw => exact .last (hi.dropWhile.mp ha) hw
    | more ha hw hl => exact .more (hi.dropWhile.mp ha) hw hl
  · cases h with
    | last ha hw => exact .last (hi.dropWhile.mpr ha) hw
    | more ha hw hl => exact .more (hi.dropWhile.mpr ha) hw hl

lemma Listed.length_lt (hi : IsItem item close) {l : List α} (h : Listed item close v l r) :
    r.length < v.length := by
  induction h with
  | last ha hw => exact lt_of_lt_of_le hw.length_lt (hi.length_le ha)
  | more ha hw _ ih => exact ih.trans (lt_of_lt_of_le hw.length_lt (hi.length_le ha))

lemma Bracketed.length_lt (hi : IsItem item close) {l : List α} (h : Bracketed item close v l r) :
    r.length < v.length := by
  rcases h with ⟨h, -⟩ | h
  · exact h.length_lt
  · exact h.length_lt hi

lemma not_listed_of_next (hi : IsItem item close) {l : List α} (h : Next close v x) :
    ¬Listed item close v l r := by
  rintro (⟨ha, -⟩ | ⟨ha, -, -⟩)
  · exact hi.not_close h ha
  · exact hi.not_close h ha

/-- A loop whose rounds take an item each reads a list. -/
lemma reads_listed (hi : IsItem item close) {body : γ → Walk (Round γ γ)}
    (hb : ∀ g v, Reads tape.firm (body g) v (ListedRound item close grow g v)) (g : γ) :
    Reads tape.firm (iterate body g) v
      fun b r => ∃ l, Listed item close v l r ∧ b = l.foldl grow g := by
  refine (reads_iterate_firm hb ?_ g).congr fun b r => rounds_listed
  rintro g v g' w ⟨a, x, ha, ⟨hx, -⟩ | ⟨-, ⟨⟩⟩⟩
  exact lt_of_lt_of_le hx.length_lt (hi.length_le ha)

/-- The end of an empty list. -/
lemma reads_bracketed_empty (hi : IsItem item close) (g : γ) (hv : Next close v w) :
    Reads tape.firm (expect close >>= fun _ => pure g) (close :: w)
      fun b r => ∃ l, Bracketed item close v l r ∧ b = l.foldl grow g := by
  have h : Steps tape.firm (expect close >>= fun _ => pure g) (close :: w) g w :=
    (steps_expect (next_cons_of_next hv)).trans steps_pure
  refine (Steps.reads h).congr fun b r => ⟨?_, ?_⟩
  · rintro ⟨rfl, rfl⟩
    exact ⟨[], .inl ⟨hv, rfl⟩, rfl⟩
  · rintro ⟨l, ⟨hr, rfl⟩ | hl, rfl⟩
    · exact ⟨rfl, (hr.unique hv).2⟩
    · exact absurd hl (not_listed_of_next hi hv)

/-- A list that is not empty. -/
lemma reads_bracketed_listed (hi : IsItem item close) {body : γ → Walk (Round γ γ)}
    (hb : ∀ g v, Reads tape.firm (body g) v (ListedRound item close grow g v)) (g : γ)
    (hv : ∀ w, ¬Next close v w) : Reads tape.firm (iterate body g) (v.dropWhile isSpace)
      fun b r => ∃ l, Bracketed item close v l r ∧ b = l.foldl grow g := by
  refine (reads_listed hi hb g).congr fun b r => ?_
  simp only [Bracketed, listed_dropWhile hi, hv, false_and, false_or]

lemma foldl_push (l l' : List α) : l.foldl (fun l a => l ++ [a]) l' = l' ++ l := by
  induction l generalizing l' with
  | nil => simp
  | cons a l ih => simp [ih]

lemma foldl_append (l : List (List α)) (l' : List α) : l.foldl (· ++ ·) l' = l' ++ l.flatten := by
  induction l generalizing l' with
  | nil => simp
  | cons a l ih => simp [ih]

/-! ### Cells -/

/-- The text behind the comma, if there is one. -/
def afterComma (v : Bytes) : Bytes :=
  if (v.dropWhile isSpace).head? = some comma then (v.dropWhile isSpace).tail
  else v.dropWhile isSpace

/-- A number and a value, with or without a comma between them. -/
structure ReadsCell (v : Bytes) (c : Cell) (r : Bytes) : Prop where
  head : startsNumber (v.dropWhile isSpace).head? = true
  columnId : c.columnId = strtoll ((v.dropWhile isSpace).takeWhile isNumberChar)
  value : ReadsValue (afterComma ((v.dropWhile isSpace).dropWhile isNumberChar)) c.value r

/-- The part of a round behind the comma. -/
lemma reads_cellValue (row : Row) (colid : Int64) : Reads tape.firm (do
      let v ← readValue
      if !(← isOk) then throwQuery "mongreldb: malformed cell value"
      else do
        let row := row ++ [⟨colid, v⟩]
        let ch ← peek
        if ch == some comma then
          expect comma
          return .again row
        else if ch == some rbracket then
          expect rbracket
          return .done row
        else throwQuery "mongreldb: malformed cells") v fun (b : Round Row Row) r =>
      ∃ a x, ReadsValue v a x ∧ ((Next comma x r ∧ b = .again (row ++ [⟨colid, a⟩])) ∨
        (Next rbracket x r ∧ b = .done (row ++ [⟨colid, a⟩]))) :=
  Reads.checked reads_readValue fun _ _ _ => reads_separator (by decide) rfl

lemma reads_cellRound (row : Row) : Reads tape.firm (cellRound row) v
    (ListedRound ReadsCell rbracket (fun row c => row ++ [c]) row v) := by
  refine Steps.bind (a := (v.dropWhile isSpace).head?) (w := v.dropWhile isSpace) steps_peek ?_
  by_cases hs : startsNumber (v.dropWhile isSpace).head? = true
  swap
  · rw [if_pos (by simpa using hs)]
    exact reads_stop.congr fun b r => ⟨False.elim, fun ⟨a, w, ha, _⟩ => hs ha.head⟩
  rw [if_neg (by simpa using hs)]
  obtain ⟨w, hw⟩ : ∃ w, w = (v.dropWhile isSpace).dropWhile isNumberChar := ⟨_, rfl⟩
  obtain ⟨colid, hcolid⟩ : ∃ i, i = strtoll ((v.dropWhile isSpace).takeWhile isNumberChar) :=
    ⟨_, rfl⟩
  refine Reads.congr (G := fun b r => ∃ a x, ReadsValue (afterComma w) a x ∧
    ((Next comma x r ∧ b = .again (row ++ [⟨colid, a⟩])) ∨
      (Next rbracket x r ∧ b = .done (row ++ [⟨colid, a⟩])))) ?_ fun b r => ⟨?_, ?_⟩
  · refine Steps.bind (a := _) (w := _) steps_readNumberRaw ?_
    rw [← hw]
    simp only [← hcolid]
    refine Steps.bind (a := (w.dropWhile isSpace).head?) (w := w.dropWhile isSpace) steps_peek ?_
    by_cases hc : (w.dropWhile isSpace).head? = some comma
    · obtain ⟨x, hx⟩ : ∃ x, Next comma w x := List.head?_eq_some_iff.mp hc
      rw [if_pos (by simpa using hc), show afterComma w = x by rw [afterComma, if_pos hc, hx]; rfl,
        hx]
      exact Steps.bind (a := ()) (w := x) (steps_expect (next_cons_of_next hx))
        (reads_cellValue row colid)
    · rw [if_neg (by simpa using hc), show afterComma w = w.dropWhile isSpace by
        rw [afterComma, if_neg hc]]
      exact reads_cellValue row colid
  · rintro ⟨a, x, ha, hx⟩
    exact ⟨⟨colid, a⟩, x, ⟨hs, hcolid, by rwa [← hw]⟩, hx⟩
  · rintro ⟨⟨i, a⟩, x, ⟨-, hi, ha⟩, hx⟩
    obtain rfl : i = colid := hi.trans hcolid.symm
    exact ⟨a, x, by rwa [hw], hx⟩

lemma afterComma_length_le (v : Bytes) : (afterComma v).length ≤ v.length := by
  have hd := (List.dropWhile_sublist isSpace (l := v)).length_le
  unfold afterComma
  split_ifs
  · exact (List.tail_sublist _).length_le.trans hd
  · exact hd

lemma ReadsValue.length_le {a : Value} (h : ReadsValue v a r) : r.length ≤ v.length := by
  obtain ⟨t, hv, -⟩ := reads_readValue.complete a r h
  simp [hv]

lemma isItem_readsCell : IsItem ReadsCell rbracket where
  length_le h := h.value.length_le.trans <| (afterComma_length_le _).trans <|
    (List.dropWhile_sublist _).length_le.trans (List.dropWhile_sublist _).length_le
  dropWhile {v a w} := by
    have hd := dropWhile_dropWhile v
    constructor <;> rintro ⟨hh, hc, hv⟩
    · rw [hd] at hh hc hv
      exact ⟨hh, hc, hv⟩
    · exact ⟨by rwa [hd], by rwa [hd], by rwa [hd]⟩
  not_close h ha := by
    have hh := ha.head
    rw [h, List.head?_cons] at hh
    exact absurd hh (by decide)

/-- The cells of a row, behind the opening bracket. -/
def ReadsCells (v : Bytes) (cs : Row) (r : Bytes) : Prop := Bracketed ReadsCell rbracket v cs r

lemma reads_readCells (row : Row) (hv : Next lbracket v w) : Reads tape.firm (readCells row) v
    fun row' r => ∃ cs, ReadsCells w cs r ∧ row' = row ++ cs := by
  have hcongr : ∀ row' r, (∃ cs, Bracketed ReadsCell rbracket w cs r ∧
      row' = cs.foldl (fun row c => row ++ [c]) row) ↔
        ∃ cs, ReadsCells w cs r ∧ row' = row ++ cs := by
    simp only [foldl_push, ReadsCells, implies_true]
  refine Reads.congr ?_ hcongr
  refine Steps.bind (a := ()) (w := w) (steps_expect hv) ?_
  refine Steps.bind (a := (w.dropWhile isSpace).head?) (w := w.dropWhile isSpace) steps_peek ?_
  by_cases hc : (w.dropWhile isSpace).head? = some rbracket
  · obtain ⟨x, hx⟩ : ∃ x, Next rbracket w x := List.head?_eq_some_iff.mp hc
    rw [if_pos (by simpa using hc), hx]
    exact reads_bracketed_empty isItem_readsCell row hx
  · rw [if_neg (by simpa using hc)]
    exact reads_bracketed_listed isItem_readsCell (fun g v => reads_cellRound g) row
      fun x hx => hc (by rw [hx]; rfl)

/-! ### Rows -/

/-- The name of a member, where its opening quote has been seen. -/
lemma reads_checkedName {f : Bytes → Walk β} {msg : String} {H : Bytes → Bytes → β → Bytes → Prop}
    (hw : Next quote v w) (hf : ∀ k x, Named v k x → Reads tape.firm (f k) x (H k x)) :
    Reads tape.firm (readStringRaw >>= fun k => isOk >>= fun ok =>
      if !ok then throwQuery msg
      else expect colon >>= fun _ => isOk >>= fun ok => if !ok then throwQuery msg else f k)
      (quote :: w) fun b r => ∃ k x, Named v k x ∧ H k x b r := by
  refine (Reads.checked reads_readStringRaw fun k y hk =>
    Reads.checked (f := fun _ => f k) reads_expect fun _ x hx =>
      hf k x ⟨w, y, hw, hk, hx⟩).congr fun b r => ⟨?_, ?_⟩
  · rintro ⟨k, y, hk, -, x, hx, hb⟩
    exact ⟨k, x, ⟨w, y, hw, hk, hx⟩, hb⟩
  · rintro ⟨k, x, ⟨w', y, hw', hk, hx⟩, hb⟩
    obtain ⟨-, rfl⟩ := hw'.unique hw
    exact ⟨k, y, hk, (), x, hx, hb⟩

/-- A member of a row: the cells, or something that is passed over. -/
inductive RowMember : Bytes → Row → Bytes → Prop
  | cells {v w x cs r} : Named v (ascii "cells") w → Next lbracket w x → ReadsCells x cs r →
      RowMember v cs r
  | other {v k w r} : Named v k w → ¬(k = ascii "cells" ∧ ∃ x, Next lbracket w x) →
      Skips .value w r → RowMember v [] r

lemma isItem_rowMember : IsItem RowMember rbrace where
  length_le h := by
    cases h with
    | cells hn hx hc =>
      exact ((hc.length_lt isItem_readsCell).trans (hx.length_lt.trans hn.length_lt)).le
    | other hn _ hs => exact (hs.length_lt.trans hn.length_lt).le
  dropWhile {v a w} := by
    have hd := dropWhile_dropWhile v
    constructor <;> intro h
    · cases h with
      | cells hn hx hc => exact .cells (hn.congr hd) hx hc
      | other hn hk hs => exact .other (hn.congr hd) hk hs
    · cases h with
      | cells hn hx hc => exact .cells (hn.congr hd.symm) hx hc
      | other hn hk hs => exact .other (hn.congr hd.symm) hk hs
  not_close h ha := by
    have hn : ∀ {k w}, ¬Named _ k w := fun ⟨_, _, hq, _⟩ => absurd (h.unique hq).1 (by decide)
    cases ha with
    | cells ha _ _ => exact hn ha
    | other ha _ _ => exact hn ha

/-- The separator behind the cells, where the brace is looked for first. -/
lemma reads_brace (row : Row) : Reads tape.firm (peek >>= fun ch =>
      if ch == some rbrace then expect rbrace >>= fun _ => pure (.done row)
      else if ch == some comma then expect comma >>= fun _ => pure (.again row)
      else throwQuery "mongreldb: malformed row") v fun (b : Round Row Row) r =>
        (Next comma v r ∧ b = .again row) ∨ (Next rbrace v r ∧ b = .done row) :=
  (reads_either (fun _ => steps_expect (dropWhile_eq_self (stops_cons.mpr rfl)))
    (fun _ => steps_expect (dropWhile_eq_self (stops_cons.mpr rfl))) (fun _ => reads_stop)
    (by decide)).congr fun _ _ => or_comm

lemma reads_rowMemberRound (row : Row) : Reads tape.firm (rowMemberRound row) v
    (ListedRound RowMember rbrace (· ++ ·) row v) := by
  refine Steps.bind (a := (v.dropWhile isSpace).head?) (w := v.dropWhile isSpace) steps_peek ?_
  by_cases hq : (v.dropWhile isSpace).head? = some quote
  swap
  · rw [if_pos (by simpa using hq)]
    have hn : ∀ {k w}, ¬Named v k w := fun ⟨x, _, hx, _⟩ => hq (by rw [hx]; rfl)
    refine reads_stop.congr fun b r => ⟨False.elim, fun ⟨a, w, ha, _⟩ => ?_⟩
    cases ha with
    | cells ha _ _ => exact hn ha
    | other ha _ _ => exact hn ha
  obtain ⟨w, hw⟩ : ∃ w, Next quote v w := List.head?_eq_some_iff.mp hq
  rw [if_neg (by simpa using hq), hw]
  refine (reads_checkedName (H := fun k x b r => ∃ a y,
    ((k = ascii "cells" ∧ ∃ z, Next lbracket x z ∧ ReadsCells z a y) ∨
      (¬(k = ascii "cells" ∧ ∃ z, Next lbracket x z) ∧ Skips .value x y ∧ a = [])) ∧
    ((Next comma y r ∧ b = .again (row ++ a)) ∨ (Next rbrace y r ∧ b = .done (row ++ a)))) hw
      fun k x hn => ?_).congr fun b r => ⟨?_, ?_⟩
  · obtain ⟨z, hz, hzx, hit⟩ := (sees_keyIs (ascii "cells") lbracket).steps k x
    refine Steps.bind (a := _) (w := z) hz ?_
    -- the cells of the row, or a member that is passed
    by_cases hc : k = ascii "cells" ∧ ∃ y, Next lbracket x y
    · obtain ⟨rfl, y, hy⟩ := hc
      have ht : (ascii "cells" == ascii "cells" && (x.dropWhile isSpace).head? == some lbracket)
          = true := by rw [hy]; rfl
      rw [if_pos ht, hit ht, hy]
      refine (Reads.bind_firm (reads_readCells row (next_cons_of_next hy)) fun row' y' _ =>
        reads_brace row').congr fun b r => ⟨?_, ?_⟩
      · rintro ⟨row', y', ⟨cs, hcs, rfl⟩, hb⟩
        exact ⟨cs, y', .inl ⟨rfl, y, hy, hcs⟩, hb⟩
      · rintro ⟨cs, y', ⟨-, y₁, hy₁, hcs⟩ | ⟨hk, -⟩, hb⟩
        · obtain ⟨-, rfl⟩ := hy₁.unique hy
          exact ⟨_, y', ⟨cs, hcs, rfl⟩, hb⟩
        · exact absurd ⟨rfl, y, hy⟩ hk
    · have ht : ¬(k == ascii "cells" && (x.dropWhile isSpace).head? == some lbracket) = true := by
        intro ht
        simp only [Bool.and_eq_true, beq_iff_eq, List.head?_eq_some_iff] at ht
        exact hc ht
      rw [if_neg ht]
      refine (Reads.checked reads_skipValue fun _ y _ => reads_separator (by decide) rfl).congr
        fun b r => ⟨?_, ?_⟩
      · rintro ⟨-, y, hs, hb⟩
        exact ⟨[], y, .inr ⟨hc, hs.congr hzx, rfl⟩, by rwa [List.append_nil]⟩
      · rintro ⟨a, y, ⟨rfl, hk⟩ | ⟨-, hs, rfl⟩, hb⟩
        · exact absurd ⟨rfl, hk.imp fun _ => And.left⟩ hc
        · exact ⟨(), y, hs.congr hzx.symm, by rwa [List.append_nil] at hb⟩
  · rintro ⟨k, x, hn, a, y, ⟨rfl, z, hz, ha⟩ | ⟨hk, ha, rfl⟩, hb⟩
    · exact ⟨a, y, .cells hn hz ha, hb⟩
    · exact ⟨[], y, .other hn hk ha, hb⟩
  · rintro ⟨a, y, ha, hb⟩
    cases ha with
    | cells hn hx hc => exact ⟨_, _, hn, _, y, .inl ⟨rfl, _, hx, hc⟩, hb⟩
    | other hn hk hs => exact ⟨_, _, hn, _, y, .inr ⟨hk, hs, rfl⟩, hb⟩

/-- A row: the cells of all its members. -/
def ReadsRow (v : Bytes) (row : Row) (r : Bytes) : Prop :=
  ∃ w ls, Next lbrace v w ∧ Bracketed RowMember rbrace w ls r ∧ row = ls.flatten

lemma isItem_readsRow : IsItem ReadsRow rbracket where
  length_le := by
    rintro v a r ⟨w, ls, hw, hl, -⟩
    exact ((hl.length_lt isItem_rowMember).trans hw.length_lt).le
  dropWhile {v a r} := by simp only [ReadsRow, Next, dropWhile_dropWhile]
  not_close := by
    rintro v x a r h ⟨w, ls, hw, -⟩
    exact absurd (h.unique hw).1 (by decide)

lemma reads_readRow (hv : Next lbrace v w) : Reads tape.firm readRow v (ReadsRow v) := by
  refine Reads.congr (G := fun row r => ∃ ls, Bracketed RowMember rbrace w ls r ∧
    row = ls.foldl (· ++ ·) []) ?_ fun row r => ?_
  · refine Steps.bind (a := ()) (w := w) (steps_expect hv) ?_
    refine Steps.bind (a := (w.dropWhile isSpace).head?) (w := w.dropWhile isSpace) steps_peek ?_
    by_cases hc : (w.dropWhile isSpace).head? = some rbrace
    · obtain ⟨x, hx⟩ : ∃ x, Next rbrace w x := List.head?_eq_some_iff.mp hc
      rw [if_neg (by simpa using hc), hx]
      exact reads_bracketed_empty isItem_rowMember [] hx
    · rw [if_pos (by simpa using hc)]
      exact reads_bracketed_listed isItem_rowMember (fun g v => reads_rowMemberRound g) []
        fun x hx => hc (by rw [hx]; rfl)
  · simp only [foldl_append, List.nil_append]
    constructor
    · rintro ⟨ls, hl, hrow⟩
      exact ⟨w, ls, hv, hl, hrow⟩
    · rintro ⟨w', ls, hw, hl, hrow⟩
      obtain ⟨-, rfl⟩ := hw.unique hv
      exact ⟨ls, hl, hrow⟩

lemma reads_rowRound (rows : List Row) : Reads tape.firm (rowRound rows) v
    (ListedRound ReadsRow rbracket (fun rows row => rows ++ [row]) rows v) := by
  refine Steps.bind (a := (v.dropWhile isSpace).head?) (w := v.dropWhile isSpace) steps_peek ?_
  by_cases hb : (v.dropWhile isSpace).head? = some lbrace
  · obtain ⟨w, hw⟩ : ∃ w, Next lbrace v w := List.head?_eq_some_iff.mp hb
    rw [if_neg (by simpa using hb)]
    refine Reads.bind_firm ((reads_readRow (w := w) ?_).congr fun row r => ?_) fun row x _ =>
      reads_separator (by decide) rfl
    · rwa [Next, dropWhile_dropWhile]
    · exact isItem_readsRow.dropWhile
  · rw [if_pos (by simpa using hb)]
    refine reads_stop.congr fun b r => ⟨False.elim, ?_⟩
    rintro ⟨a, x, ⟨w, ls, hw, -⟩, -⟩
    exact hb (by rw [hw]; rfl)

/-! ### Names -/

def ReadsName (v s r : Bytes) : Prop := ∃ w, Next quote v w ∧ Quoted w s r

lemma isItem_readsName : IsItem ReadsName rbracket where
  length_le := by
    rintro v a r ⟨w, hw, hq⟩
    exact (hq.length_lt.trans hw.length_lt).le
  dropWhile {v a r} := by simp only [ReadsName, Next, dropWhile_dropWhile]
  not_close := by
    rintro v x a r h ⟨w, hw, -⟩
    exact absurd (h.unique hw).1 (by decide)

lemma reads_namesRound (names : List Bytes) : Reads tape.firm (namesRound names) v
    (ListedRound ReadsName rbracket (fun names s => names ++ [s]) names v) := by
  refine Steps.bind (a := (v.dropWhile isSpace).head?) (w := v.dropWhile isSpace) steps_peek ?_
  by_cases hb : (v.dropWhile isSpace).head? = some quote
  · obtain ⟨w, hw⟩ : ∃ w, Next quote v w := List.head?_eq_some_iff.mp hb
    rw [if_neg (by simpa using hb), hw]
    refine (Reads.checked reads_readStringRaw fun s x _ => reads_separator (by decide) rfl).congr
      fun b r => ⟨?_, ?_⟩
    · rintro ⟨s, x, hq, hx⟩
      exact ⟨s, x, ⟨w, hw, hq⟩, hx⟩
    · rintro ⟨s, x, ⟨w', hw', hq⟩, hx⟩
      obtain ⟨-, rfl⟩ := hw'.unique hw
      exact ⟨s, x, hq, hx⟩
  · rw [if_pos (by simpa using hb)]
    refine reads_stop.congr fun b r => ⟨False.elim, ?_⟩
    rintro ⟨a, x, ⟨w, hw, -⟩, -⟩
    exact hb (by rw [hw]; rfl)

end JsonParser

end MongrelDB
