import MongrelDB.Walker.Extract
import MongrelDB.Walker.Rows
import MongrelDB.Walker.ScanSafety

/-!
# What the responses of queries and table lists are decoded to

`decodeRows` looks for the `rows` of the object the body begins with and reads the list behind the
bracket; where there are none it returns no rows. `decodeNames` reads the list a body begins with,
and no names where it begins with something else. Neither looks at what follows the list.
-/

namespace MongrelDB

open Text Traced Prog JsonParser

variable {α : Type} {b u v y : Bytes}

/-! ### Lists -/

/-- The list behind a bracket, whose end is only looked at if it is empty. -/
def decodeList (round : List α → Walk (Round (List α) (List α))) : Walk (List α) := do
  expect lbracket
  if (← peek) == some rbracket then return []
  iterate round []

section List

variable {item : Bytes → α → Bytes → Prop} {round : List α → Walk (Round (List α) (List α))}

lemma reads_decodeList (hi : IsItem item rbracket)
    (hr : ∀ l v, Reads tape.firm (round l) v (ListedRound item rbracket (fun l a => l ++ [a]) l v))
    (hv : Next lbracket v y) : Reads tape.firm (decodeList round) v fun l r =>
      (l = [] ∧ r = y.dropWhile isSpace ∧ ∃ x, Next rbracket y x) ∨ Listed item rbracket y l r := by
  refine Steps.bind (a := ()) (w := y) (steps_expect hv) ?_
  refine Steps.bind (a := (y.dropWhile isSpace).head?) (w := y.dropWhile isSpace) steps_peek ?_
  by_cases hc : (y.dropWhile isSpace).head? = some rbracket
  · have hnext : ∃ x, Next rbracket y x := List.head?_eq_some_iff.mp hc
    rw [if_pos (by simpa using hc)]
    refine reads_pure.congr fun l r => ?_
    simp only [hnext, and_true, not_listed_of_next hi hnext.choose_spec, or_false]
  · have hnext : ¬∃ x, Next rbracket y x := fun ⟨x, hx⟩ => hc (by rw [hx]; rfl)
    rw [if_neg (by simpa using hc)]
    refine (reads_listed hi hr []).congr fun l r => ?_
    simp only [foldl_push, List.nil_append, listed_dropWhile hi, hnext, and_false, false_or,
      exists_eq_right']

/-- The list is what is read, whatever the reader has been over before. -/
lemma out_decodeList_iff (hi : IsItem item rbracket)
    (hr : ∀ l v, Reads tape.firm (round l) v (ListedRound item rbracket (fun l a => l ++ [a]) l v))
    (hv : Next lbracket v y) {l : List α} :
    (∃ p, (decodeList round).out (tape.cut u v) = .ok (l, p)) ↔
      ∃ r, Bracketed item rbracket y l r := by
  have hread := reads_decodeList hi hr hv
  constructor
  · rintro ⟨p, hp⟩
    obtain ⟨r, ⟨rfl, -, x, hx⟩ | hl⟩ := hread.exists_of_out hp
    · exact ⟨x, .inl ⟨hx, rfl⟩⟩
    · exact ⟨r, .inr hl⟩
  · rintro ⟨r, ⟨hx, rfl⟩ | hl⟩
    · obtain ⟨t, -, ht⟩ := hread.complete [] _ (.inl ⟨rfl, rfl, r, hx⟩)
      exact ⟨_, ht u⟩
    · obtain ⟨t, -, ht⟩ := hread.complete l r (.inr hl)
      exact ⟨_, ht u⟩

end List

lemma map_fst_eq_ok_iff {x : Except Stop (α × JsonParser)} {a : α} :
    x.map Prod.fst = .ok a ↔ ∃ p, x = .ok (a, p) := by
  cases x with
  | error e => exact ⟨by rintro ⟨⟩, by rintro ⟨p, ⟨⟩⟩⟩
  | ok r =>
    obtain ⟨a', p⟩ := r
    constructor
    · rintro ⟨⟩
      exact ⟨p, rfl⟩
    · rintro ⟨p', ⟨⟩⟩
      rfl

/-! ### Rows -/

/-- Behind `y` is the list of rows that the decoder of a query looks for. -/
def RowsAt (b y : Bytes) : Prop :=
  ReachesIn (fun k c => k == ascii "rows" && c == some lbracket) b (lbracket :: y)

lemma sees_rows : Sees (fun k => keyIs k (ascii "rows") lbracket)
    fun k c => k == ascii "rows" && c == some lbracket := sees_keyIs _ _

lemma leads_decodeRows (h : RowsAt b y) :
    Leads tape decodeRows b (decodeList rowRound) (lbracket :: y) := by
  obtain ⟨w, hb, hr⟩ := h
  obtain ⟨x, hx⟩ := hr.next
  have hx' : w.dropWhile isSpace = (quote :: x).dropWhile isSpace := by
    rw [hx, next_cons_of_next hx]
  refine (steps_peek_next hb).leads ?_
  rw [if_neg (by simp)]
  refine (steps_expect (next_cons_of_next hb)).leads ((steps_peek_next hx).leads ?_)
  rw [if_neg (by simp)]
  have hfind : Steps tape (iterate (fun _ => findRowsRound) ()) (quote :: x) true (lbracket :: y) :=
    (leads_scan_of_reaches sees_rows (hr.congr hx')).steps steps_pure
  exact hfind.leads leads_refl

lemma out_decodeRows_of_rowsAt (h : RowsAt b y) {rows : List Row} :
    (walk b decodeRows).out = .ok rows ↔ ∃ r, Bracketed ReadsRow rbracket y rows r := by
  obtain ⟨t, -, ht⟩ := out_walk_of_leads (leads_decodeRows h)
  rw [ht, map_fst_eq_ok_iff, out_decodeList_iff isItem_readsRow (fun l _ => reads_rowRound l)
    (dropWhile_eq_self (stops_cons.mpr rfl))]

/-- The search for the rows comes to an end. -/
lemma exists_out_findRows (u v : Bytes) :
    ∃ found p, (iterate (fun _ => findRowsRound) ()).out (tape.cut u v) = .ok (found, p) := by
  have hsafe : Safe (fun _ => False) (iterate (fun _ => findRowsRound) ()) (tape.cut u v)
      fun _ _ => True := safe_members (fun _ _ => safe_keyIs) fun _ _ _ => safe_pure trivial
  have hmeets := hsafe (by simp [tape_cut])
  cases ho : (iterate (fun _ => findRowsRound) ()).out (tape.cut u v) with
  | ok r => exact ⟨r.1, r.2, rfl⟩
  | error e => exact (hmeets.error e ho).elim

/-- Without a list of rows nothing is thrown. -/
lemma out_decodeRows_of_not (h : ∀ y, ¬RowsAt b y) : (walk b decodeRows).out = .ok [] := by
  by_cases hb : (b.dropWhile isSpace).head? = some lbrace
  swap
  · refine out_walk (r := b.dropWhile isSpace) (steps_peek.trans ?_)
    rw [if_pos (by simpa using hb)]
    exact steps_pure
  obtain ⟨w, hw⟩ : ∃ w, Next lbrace b w := List.head?_eq_some_iff.mp hb
  by_cases hc : (w.dropWhile isSpace).head? = some rbrace
  · refine out_walk (r := w.dropWhile isSpace) ((steps_peek_next hw).trans ?_)
    rw [if_neg (by simp)]
    refine (steps_expect (next_cons_of_next hw)).trans (steps_peek.trans ?_)
    rw [if_pos (by simpa using hc)]
    exact steps_pure
  have hleads : Leads tape decodeRows b (iterate (fun _ => findRowsRound) () >>= fun found =>
      if !found then pure [] else decodeList rowRound) (w.dropWhile isSpace) := by
    refine (steps_peek_next hw).leads ?_
    rw [if_neg (by simp)]
    refine (steps_expect (next_cons_of_next hw)).leads (steps_peek.leads ?_)
    rw [if_neg (by simpa using hc)]
    exact leads_refl
  obtain ⟨t, -, ht⟩ := out_walk_of_leads hleads
  obtain ⟨found, p, hfound⟩ := exists_out_findRows t (w.dropWhile isSpace)
  have hnot : found = false := by
    rcases ends_scan sees_rows _ _ _ hfound with h' | h' | ⟨h', -⟩ | ⟨z, u, hz, -⟩
    · exact h'
    · exact h'
    · exact h'
    · obtain ⟨⟨k, hk⟩, -⟩ := hz.isHit
      obtain ⟨y, rfl⟩ : ∃ y, z = lbracket :: y :=
        List.head?_eq_some_iff.mp (by simpa using (Bool.and_eq_true_iff.mp hk).2)
      exact absurd ⟨w, hw, hz.congr (dropWhile_dropWhile w)⟩ (h y)
  rw [ht, out_bind_ok hfound, hnot]
  rfl

theorem out_decodeRows_iff {rows : List Row} : (walk b decodeRows).out = .ok rows ↔
    (∃ y r, RowsAt b y ∧ Bracketed ReadsRow rbracket y rows r) ∨
      (rows = [] ∧ ∀ y, ¬RowsAt b y) := by
  constructor
  · intro ho
    by_cases h : ∃ y, RowsAt b y
    · obtain ⟨y, hy⟩ := h
      obtain ⟨r, hr⟩ := (out_decodeRows_of_rowsAt hy).mp ho
      exact .inl ⟨y, r, hy, hr⟩
    · have hn : ∀ y, ¬RowsAt b y := fun y hy => h ⟨y, hy⟩
      rw [out_decodeRows_of_not hn] at ho
      cases ho
      exact .inr ⟨rfl, hn⟩
  · rintro (⟨y, r, hy, hr⟩ | ⟨rfl, hn⟩)
    · exact (out_decodeRows_of_rowsAt hy).mpr ⟨r, hr⟩
    · exact out_decodeRows_of_not hn

/-- What the decoder of a query returns, or stops with, is decided by the rows alone. -/
lemma exists_out_decodeQuery (b : Bytes) : ∃ flag, (decodeQuery b).out =
    (walk b decodeRows).out.map fun rows => ⟨rows, flag⟩ := by
  have hbool : SafeCall (fun _ => False) (getBool b (ascii "truncated") false) :=
    safeCall_getBool
  obtain ⟨r, hr⟩ := exists_out_of_safeCall hbool
  refine ⟨r.2, ?_⟩
  rw [decodeQuery, Run.out_bind_ok hr]
  cases ho : (walk b decodeRows).out with
  | ok rows => exact Run.out_bind_ok ho _
  | error e => exact Run.out_bind_error ho _

/-! ### Names -/

theorem out_decodeNames_iff {names : List Bytes} : (walk b decodeNames).out = .ok names ↔
    (∃ y r, Next lbracket b y ∧ Bracketed ReadsName rbracket y names r) ∨
      (names = [] ∧ ∀ y, ¬Next lbracket b y) := by
  by_cases hb : (b.dropWhile isSpace).head? = some lbracket
  · obtain ⟨y, hy⟩ : ∃ y, Next lbracket b y := List.head?_eq_some_iff.mp hb
    have hleads : Leads tape decodeNames b (decodeList namesRound) (lbracket :: y) := by
      refine (steps_peek_next hy).leads ?_
      rw [if_neg (by simp)]
      exact leads_refl
    obtain ⟨t, -, ht⟩ := out_walk_of_leads hleads
    rw [ht, map_fst_eq_ok_iff, out_decodeList_iff isItem_readsName (fun l _ => reads_namesRound l)
      (dropWhile_eq_self (stops_cons.mpr rfl))]
    constructor
    · rintro ⟨r, hr⟩
      exact .inl ⟨y, r, hy, hr⟩
    · rintro (⟨y', r, hy', hr⟩ | ⟨-, hn⟩)
      · obtain ⟨-, rfl⟩ := hy'.unique hy
        exact ⟨r, hr⟩
      · exact absurd hy (hn y)
  · have hn : ∀ y, ¬Next lbracket b y := fun y hy => hb (by rw [hy]; rfl)
    have ho : (walk b decodeNames).out = .ok [] := by
      refine out_walk (r := b.dropWhile isSpace) (steps_peek.trans ?_)
      rw [if_pos (by simpa using hb)]
      exact steps_pure
    rw [ho]
    constructor
    · rintro ⟨⟩
      exact .inr ⟨rfl, hn⟩
    · rintro (⟨y, r, hy, -⟩ | ⟨rfl, -⟩)
      · exact absurd hy (hn y)
      · rfl

end MongrelDB
