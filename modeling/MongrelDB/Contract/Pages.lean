import MongrelDB.Encoder.Values
import MongrelDB.Walker.Bare

/-!
# The two walks over the rows

`query` takes the flag `truncated` from a scan that skips the rows and then reads the rows with a
walker of its own. Both come to the same place unless a column id lacks its comma: the walker does
without, the scan breaks off there, and a flag behind the rows is not found.
-/

namespace MongrelDB

open Text Traced Prog Json JsonParser

/-! ### Positions -/

/-- From there `skip_value` comes to where the walker of the rows comes. The walker stops in front
of the bracket that closes an empty list. -/
def Agree (s : Bytes) (i : Nat) : Prop :=
  ∀ rows p, (decodeList rowRound).out ⟨s, i, true⟩ = .ok (rows, p) →
    (rows ≠ [] → skipValue.out ⟨s, i, true⟩ = .ok ((), p)) ∧
      (rows = [] → skipValue.out ⟨s, i, true⟩ = .ok ((), { p with i := p.i + 1 }))

/-- A non-empty list of rows as the walker reads it, which need not be JSON. -/
def RowsText (y : Bytes) : Prop := ∃ rows r, Listed ReadsRow rbracket y rows r

variable {s v w x y z r : Bytes} {i : Nat}

/-- Where a walk that throws on every error comes to. -/
lemma out_iff_of_firm {α : Type} {x : Walk α} {G : α → Bytes → Prop}
    (h : Reads tape.firm x (s.drop i) G) (hi : i ≤ s.length) {a : α} {p : JsonParser} :
    x.out ⟨s, i, true⟩ = .ok (a, p) ↔
      ∃ t r, s.drop i = t ++ r ∧ G a r ∧ p = ⟨s, i + t.length, true⟩ := by
  have hread : Reads tape x (s.drop i) G := ⟨h.complete, fun u a p ho _ => h.exists_of_out ho⟩
  refine ⟨fun ho => (out_iff_of_reads hread hi).mp ⟨ho, ?_⟩,
    fun h => ((out_iff_of_reads hread hi).mpr h).1⟩
  rw [← cut_take_drop hi] at ho
  obtain ⟨r, hr⟩ := h.exists_of_out ho
  obtain ⟨t, -, ht⟩ := h.complete a r hr
  have ht' : x.out (tape.cut (s.take i) (s.drop i)) = .ok (a, tape.cut (s.take i ++ t) r) := ht _
  rw [ht'] at ho
  cases ho
  rfl

lemma agree_iff (h : s[i]? = some lbracket) :
    Agree s i ↔ (RowsText (s.drop (i + 1)) → ¬BareRows (s.drop (i + 1))) := by
  obtain ⟨hlt, hc⟩ := List.getElem?_eq_some_iff.mp h
  have hi := hlt.le
  have hnext : Next lbracket (s.drop i) (s.drop (i + 1)) := by
    rw [List.drop_eq_getElem_cons hlt, hc]
    exact next_cons rfl _
  have hread := reads_decodeList isItem_readsRow (fun l _ => reads_rowRound l) hnext
  have hskip : ∀ {t r}, s.drop i = t ++ r → Skips .value (s.drop i) r →
      skipValue.out ⟨s, i, true⟩ = .ok ((), ⟨s, i + t.length, true⟩) := fun ht hs =>
    ((out_iff_of_reads reads_skipValue hi).mpr ⟨_, _, ht, hs, rfl⟩).1
  constructor
  · rintro ha ⟨rows, r, hl⟩ hb
    obtain ⟨t, ht, -⟩ := hread.complete rows r (.inr hl)
    have hrows : rows ≠ [] := by
      rintro rfl
      cases hl
    have ho := (ha rows _ ((out_iff_of_firm hread hi).mpr ⟨t, r, ht, .inr hl, rfl⟩)).1 hrows
    obtain ⟨-, r', -, hs, -⟩ := (out_iff_of_reads reads_skipValue hi).mp ⟨ho, rfl⟩
    exact not_skips_array rewalks_rows isItem_readsRow hnext hb hs
  · intro hb rows p ho
    obtain ⟨t, r, ht, hg, rfl⟩ := (out_iff_of_firm hread hi).mp ho
    rcases hg with ⟨rfl, rfl, x, hx⟩ | hl
    · refine ⟨fun h => absurd rfl h, fun _ => ?_⟩
      rw [show i + t.length + 1 = i + (t ++ [rbracket]).length by simp [Nat.add_assoc]]
      exact hskip (by rw [ht, hx]; simp) (.emptyArr hnext hx)
    · have hs := skips_rows hl (hb ⟨rows, r, hl⟩)
      refine ⟨fun _ => hskip ht (.arr hnext hs), ?_⟩
      rintro rfl
      cases hl

/-! ### Pages -/

/-- A member of an object, as it is written. -/
structure Member where
  key : Key
  pre : Ws
  val : Cst
  post : Ws

def Member.render (m : Member) : Bytes :=
  m.key.render ++ (m.pre.text ++ (m.val.render ++ m.post.text))

def Member.pair (m : Member) : Bytes × Cst := (m.key.name.decode, m.val)

/-- Members in front of another one. -/
def frontText (l : List Member) : Bytes := l.flatMap fun m => m.render ++ [comma]

/-- What follows the rows: other members or none, and the end of the object. -/
def backText (post : Ws) (back : Option Members) (trail : Bytes) : Bytes :=
  post.text ++ back.elim (rbrace :: trail) fun ms => comma :: (ms.render ++ rbrace :: trail)

/-- A response whose rows the walker reads, from whatever text. The other members are JSON, and none
in front of the rows is an array of that name. -/
structure Page where
  lead : Ws
  front : List Member
  name : Key
  gap : Ws
  list : Bytes
  post : Ws
  back : Option Members
  trail : Bytes
  rows : List Row
  isRows : name.name.decode = ascii "rows"
  first : ∀ m ∈ front, ¬(m.key.name.decode = ascii "rows" ∧ m.val.elems.isSome = true)
  walked : Bracketed ReadsRow rbracket (list ++ backText post back trail) rows
    (backText post back trail)

/-- The text behind the bracket of the rows. -/
def Page.rowsText (p : Page) : Bytes := p.list ++ backText p.post p.back p.trail

def Page.render (p : Page) : Bytes :=
  p.lead.text ++ lbrace :: (frontText p.front ++
    (p.name.render ++ (p.gap.text ++ lbracket :: p.rowsText)))

/-- The first boolean called `truncated`. -/
def truncatedIn (l : List (Bytes × Cst)) : Option Bool :=
  l.findSome? fun m => if m.1 == ascii "truncated" then m.2.asBool else none

/-- What the page says of itself, in whatever place. -/
def Page.truncated (p : Page) : Bool :=
  (truncatedIn (p.front.map Member.pair ++ p.back.elim [] Members.toList)).getD false

variable {hit : Bytes → Option UInt8 → Bool}

/-- A scan over members in front comes to the first that is wanted, or goes on behind them. -/
lemma scan_front (l : List Member) (z : Bytes) :
    (∀ v, firstHit hit (l.map Member.pair) = some v →
      ∃ t, Delimited t ∧ Reaches hit (frontText l ++ z) (v.render ++ t)) ∧
    (firstHit hit (l.map Member.pair) = none →
      (∀ x, Reaches hit (frontText l ++ z) x ↔ Reaches hit z x) ∧
        (Absent hit (frontText l ++ z) ↔ Absent hit z)) := by
  induction l with
  | nil => exact ⟨by rintro v ⟨⟩, fun _ => ⟨fun _ => .rfl, .rfl⟩⟩
  | cons m l ih =>
    obtain ⟨k, pre, v, post⟩ := m
    have hrender : frontText (⟨k, pre, v, post⟩ :: l) ++ z =
        k.render ++ (pre.text ++ (v.render ++ (post.text ++ comma :: (frontText l ++ z)))) := by
      simp [frontText, Member.render]
    rw [hrender, List.map_cons, Member.pair]
    cases hh : hit k.name.decode v.render.head? with
    | true =>
      rw [firstHit_cons_pos hh]
      refine ⟨?_, by rintro ⟨⟩⟩
      rintro _ ⟨⟩
      exact ⟨_, delimited_comma post _, reaches_member k pre v hh _⟩
    | false =>
      obtain ⟨hr, ha⟩ := passed_member k pre v post hh (frontText l ++ z)
      rw [firstHit_cons_neg hh, ha]
      simp only [hr]
      exact ih

/-! ### The rows of a page -/

variable {p : Page}

lemma Page.next_lbrace : Next lbrace p.render (frontText p.front ++
    (p.name.render ++ (p.gap.text ++ lbracket :: p.rowsText))) :=
  next_ws p.lead (by decide) _

lemma Page.named : Named (p.name.render ++ (p.gap.text ++ lbracket :: p.rowsText)) (ascii "rows")
    (p.gap.text ++ lbracket :: p.rowsText) := by
  rw [← p.isRows]
  exact named_render p.name _

lemma Page.next_lbracket : Next lbracket (p.gap.text ++ lbracket :: p.rowsText) p.rowsText :=
  next_ws p.gap (by decide) _

lemma firstHit_eq_none {l : List (Bytes × Cst)} :
    firstHit hit l = none ↔ ∀ m ∈ l, hit m.1 m.2.render.head? = false := by
  simp [firstHit, List.find?_eq_none]

lemma Page.rowsAt : RowsAt p.render p.rowsText := by
  have hfront : firstHit (fun k c => k == ascii "rows" && c == some lbracket)
      (p.front.map Member.pair) = none := by
    rw [firstHit_eq_none, List.forall_mem_map]
    intro m hm
    rw [head_elems, ← Bool.not_eq_true, Bool.and_eq_true, beq_iff_eq]
    exact p.first m hm
  refine ⟨_, Page.next_lbrace, (((scan_front p.front _).2 hfront).1 _).mpr ?_⟩
  have hr : Reaches (fun k c => k == ascii "rows" && c == some lbracket) _ _ :=
    .here p.named (by rw [p.next_lbracket]; rfl)
  rwa [p.next_lbracket] at hr

lemma Page.out_decodeRows : (walk p.render decodeRows).out = .ok p.rows :=
  (out_decodeRows_of_rowsAt Page.rowsAt).mpr ⟨_, p.walked⟩

/-! ### Its flag -/

/-- The test for a boolean called `truncated`. -/
def isFlag (k : Bytes) (c : Option UInt8) : Bool :=
  k == ascii "truncated" && (c == some 0x74 || c == some 0x66)

/-- The first boolean of that name, found by its first byte. -/
lemma firstHit_isFlag (l : List (Bytes × Cst)) :
    (firstHit isFlag l).bind Cst.asBool = truncatedIn l := by
  have hsel : ∀ v : Cst, (fun c : Option UInt8 => c == some 0x74 || c == some 0x66)
      v.render.head? = v.asBool.isSome := head_bool
  exact firstHit_bind hsel l

lemma truncatedIn_eq_none {l : List (Bytes × Cst)} (h : firstHit isFlag l = none) :
    truncatedIn l = none := by
  rw [← firstHit_isFlag, h]
  rfl

lemma truncatedIn_eq_some {l : List (Bytes × Cst)} {v : Cst} (h : firstHit isFlag l = some v) :
    ∃ b, v.asBool = some b ∧ truncatedIn l = some b := by
  obtain ⟨m, hm, rfl⟩ := Option.map_eq_some_iff.mp h
  have hflag := List.find?_some hm
  obtain ⟨b, hb⟩ := Option.isSome_iff_exists.mp
    ((head_bool m.2).symm.trans (Bool.and_eq_true_iff.mp hflag).2)
  refine ⟨b, hb, ?_⟩
  rw [← firstHit_isFlag, h]
  exact hb

lemma getBool_of_reaches {body t : Bytes} {v : Cst} {b : Bool} (hv : v.asBool = some b)
    (ht : Delimited t) (h : ReachesIn isFlag body (v.render ++ t)) :
    (getBool body (ascii "truncated") false).out = .ok (true, b) := by
  obtain ⟨u, -, hu⟩ : ∃ u, body = u ++ (v.render ++ t) ∧
      (getBool body (ascii "truncated") false).out =
        (takeBool.out (tape.cut u (v.render ++ t))).map Prod.fst :=
    out_scan_of_reaches (sees_boolHere _) h
  obtain ⟨w, -, hw⟩ := steps_takeBool hv ht
  rw [hu, hw u]
  rfl

lemma Page.truncated_of_front {b : Bool} (h : truncatedIn (p.front.map Member.pair) = some b) :
    p.truncated = b := by
  rw [truncatedIn] at h
  rw [Page.truncated, truncatedIn, List.findSome?_append, h]
  rfl

lemma Page.truncated_of_back (h : truncatedIn (p.front.map Member.pair) = none) :
    p.truncated = (truncatedIn (p.back.elim [] Members.toList)).getD false := by
  rw [truncatedIn] at h
  rw [Page.truncated, truncatedIn, List.findSome?_append, h]
  rfl

lemma isFlag_rows {c : Option UInt8} : isFlag (ascii "rows") c = false := by
  rw [isFlag, show (ascii "rows" == ascii "truncated") = false by decide, Bool.false_and]

lemma Page.skips (hb : ¬BareRows p.rowsText) :
    Skips .value (p.gap.text ++ lbracket :: p.rowsText) (backText p.post p.back p.trail) := by
  rcases p.walked with ⟨hr, -⟩ | hl
  · exact .emptyArr p.next_lbracket hr
  · exact .arr p.next_lbracket (skips_rows hl hb)

/-- A scan that passes the rows finds the flag wherever it is. -/
lemma Page.getBool_of_skipped (hfront : firstHit isFlag (p.front.map Member.pair) = none)
    (hb : ¬BareRows p.rowsText) : ∃ found, (getBool p.render (ascii "truncated") false).out =
      .ok (found, p.truncated) := by
  obtain ⟨hreach, habsent⟩ := (scan_front p.front
    (p.name.render ++ (p.gap.text ++ lbracket :: p.rowsText))).2 hfront
  have hs := p.skips hb
  rw [p.truncated_of_back (truncatedIn_eq_none hfront)]
  cases hback : p.back with
  | none =>
    rw [hback] at hs
    have hend : Next rbrace (backText p.post none p.trail) p.trail := next_ws p.post (by decide) _
    exact ⟨true, out_scan_of_absent (sees_boolHere _) ⟨_, p.next_lbrace,
      habsent.mpr (.last p.named isFlag_rows hs hend)⟩⟩
  | some ms =>
    rw [hback] at hs
    have hmore : Next comma (backText p.post (some ms) p.trail) (ms.render ++ rbrace :: p.trail) :=
      next_ws p.post (by decide) _
    obtain ⟨hhit, hnone⟩ := @scan_members isFlag ms p.trail
    cases hv : firstHit isFlag ms.toList with
    | some v =>
      obtain ⟨t, ht, hr⟩ := hhit v hv
      obtain ⟨b, hb, htrunc⟩ := truncatedIn_eq_some hv
      refine ⟨true, ?_⟩
      rw [Option.elim_some, htrunc]
      exact getBool_of_reaches hb ht ⟨_, p.next_lbrace,
        (hreach _).mpr (.later p.named isFlag_rows hs hmore hr)⟩
    | none =>
      refine ⟨true, ?_⟩
      rw [Option.elim_some, truncatedIn_eq_none hv]
      exact out_scan_of_absent (sees_boolHere _) ⟨_, p.next_lbrace,
        habsent.mpr (.later p.named isFlag_rows hs hmore (hnone hv))⟩

/-- A scan that breaks off at the rows finds nothing. -/
lemma Page.getBool_of_bare (hfront : firstHit isFlag (p.front.map Member.pair) = none)
    (hb : BareRows p.rowsText) :
    (getBool p.render (ascii "truncated") false).out = .ok (false, false) := by
  obtain ⟨hreach, habsent⟩ := (scan_front p.front
    (p.name.render ++ (p.gap.text ++ lbracket :: p.rowsText))).2 hfront
  have hstuck : ∀ {x}, ¬Skips .value (p.gap.text ++ lbracket :: p.rowsText) x :=
    not_skips_array rewalks_rows isItem_readsRow p.next_lbracket hb
  have hsafe : SafeCall (fun _ => False) (getBool p.render (ascii "truncated") false) :=
    safeCall_getBool
  obtain ⟨a, ha⟩ := exists_out_of_safeCall hsafe
  rw [ha]
  rcases scan_ends (sees_boolHere _) ha with rfl | ⟨-, w, hw, h⟩ | ⟨z, -, -, ⟨w, hw, h⟩, -⟩
  · rfl
  · obtain ⟨-, rfl⟩ := p.next_lbrace.unique hw
    cases habsent.mp h with
    | last hn _ hs _ | later hn _ hs _ _ =>
      obtain ⟨-, rfl⟩ := p.named.unique hn
      exact absurd hs hstuck
  · obtain ⟨-, rfl⟩ := p.next_lbrace.unique hw
    cases (hreach z).mp h with
    | here hn hh =>
      obtain ⟨rfl, -⟩ := p.named.unique hn
      exact absurd (hh.symm.trans isFlag_rows) (by decide)
    | later hn _ hs _ _ =>
      obtain ⟨-, rfl⟩ := p.named.unique hn
      exact absurd hs hstuck

/-- Whatever the flag is, the rows are returned. -/
lemma Page.out_decodeQuery {found flag : Bool}
    (h : (getBool p.render (ascii "truncated") false).out = .ok (found, flag)) :
    (decodeQuery p.render).out = .ok ⟨p.rows, flag⟩ := by
  rw [decodeQuery, Run.out_bind_ok h]
  exact Run.out_bind_ok p.out_decodeRows _

lemma Page.out_decodeQuery_iff : (decodeQuery p.render).out = .ok ⟨p.rows, p.truncated⟩ ↔
    (BareRows p.rowsText → (truncatedIn (p.front.map Member.pair)).isSome = true ∨
      p.truncated = false) := by
  cases hfront : firstHit isFlag (p.front.map Member.pair) with
  | some v =>
    obtain ⟨t, ht, hr⟩ := (scan_front p.front
      (p.name.render ++ (p.gap.text ++ lbracket :: p.rowsText))).1 v hfront
    obtain ⟨b, hb, htrunc⟩ := truncatedIn_eq_some hfront
    rw [p.out_decodeQuery (getBool_of_reaches hb ht ⟨_, p.next_lbrace, hr⟩),
      p.truncated_of_front htrunc, htrunc]
    simp
  | none =>
    rw [truncatedIn_eq_none hfront]
    by_cases hb : BareRows p.rowsText
    · rw [p.out_decodeQuery (p.getBool_of_bare hfront hb)]
      simp only [Except.ok.injEq, Result.mk.injEq, true_and, hb, Option.isSome_none,
        Bool.false_eq_true, false_or, forall_const]
      exact eq_comm
    · obtain ⟨found, hfound⟩ := p.getBool_of_skipped hfront hb
      rw [p.out_decodeQuery hfound]
      simp [hb]

/-- When the two walks agree. Over the rows they come to the same place unless these are read in
spite of a column id without a comma, and the flag is the one of the page unless it stands behind
such rows and is set. -/
theorem rows_agree_iff (s : Bytes) (i : Nat) (h : s[i]? = some lbracket) :
    (Agree s i ↔ (RowsText (s.drop (i + 1)) → ¬BareRows (s.drop (i + 1)))) ∧
    ∀ p : Page, (decodeQuery p.render).out = .ok ⟨p.rows, p.truncated⟩ ↔
      (BareRows p.rowsText → (truncatedIn (p.front.map Member.pair)).isSome = true ∨
        p.truncated = false) :=
  ⟨agree_iff h, fun _ => Page.out_decodeQuery_iff⟩

/-- A run of the walker over the rows is one through the grammar of what it reads. -/
lemma bracketed_of_out {list back : Bytes} {rows : List Row} (hrows : rows ≠ [])
    (h : (decodeList rowRound).out ⟨lbracket :: (list ++ back), 0, true⟩ =
      .ok (rows, ⟨lbracket :: (list ++ back), list.length + 1, true⟩)) :
    Bracketed ReadsRow rbracket (list ++ back) rows back := by
  have hnext : Next lbracket (lbracket :: (list ++ back)) (list ++ back) := next_cons rfl _
  have hread := reads_decodeList isItem_readsRow (fun l _ => reads_rowRound l) hnext
  obtain ⟨t, r, ht, hwalked, hp⟩ := (out_iff_of_firm hread (Nat.zero_le _)).mp h
  have hlen : t.length = list.length + 1 := by
    have := congrArg JsonParser.i hp
    simpa using this.symm
  obtain ⟨-, rfl⟩ := List.append_inj (show lbracket :: list ++ back = t ++ r from ht)
    (by simp [hlen])
  exact .inr (hwalked.resolve_left fun hnil => hrows hnil.1)

/-- The flag of a page that is cut short. -/
def flagMembers : Members := membersOf (named "truncated" (.bool true)) []

/-- The page of one row that is written as `list`, with the flag behind it. -/
def flaggedPage (list : Bytes)
    (h : (decodeList rowRound).out ⟨lbracket :: (list ++ backText Ws.none (some flagMembers) []), 0,
      true⟩ = .ok ([[⟨1, .int64 2⟩]],
        ⟨lbracket :: (list ++ backText Ws.none (some flagMembers) []), list.length + 1, true⟩)) :
    Page where
  lead := Ws.none
  front := []
  name := Key.compact (escapeLit (ascii "rows"))
  gap := Ws.none
  list := list
  post := Ws.none
  back := some flagMembers
  trail := []
  rows := [[⟨1, .int64 2⟩]]
  isRows := escapeLit_decode _
  first := by rintro m ⟨⟩
  walked := bracketed_of_out (List.cons_ne_nil _ _) h

def commaPage : Page := flaggedPage (ascii "\x7b\"cells\":[1,2]\x7d]") (by decide +kernel)

def barePage : Page := flaggedPage (ascii "\x7b\"cells\":[1 2]\x7d]") (by decide +kernel)

/-- With its comma a list of rows is walked in both ways and the flag behind it is found. Without it
the flag is lost. -/
theorem rows_agree_pages :
    barePage.render = ascii "\x7b\"rows\":[\x7b\"cells\":[1 2]\x7d],\"truncated\":true\x7d" ∧
    (Agree commaPage.render 8 ∧
      (decodeQuery commaPage.render).out = .ok ⟨[[⟨1, .int64 2⟩]], true⟩) ∧
    ¬Agree barePage.render 8 ∧
      (decodeQuery barePage.render).out ≠ .ok ⟨[[⟨1, .int64 2⟩]], true⟩ := by
  obtain ⟨hagree, hflag⟩ := rows_agree_iff commaPage.render 8 (by decide +kernel)
  obtain ⟨hagree', hflag'⟩ := rows_agree_iff barePage.render 8 (by decide +kernel)
  have hcomma : ¬BareRows commaPage.rowsText := by
    intro hb
    have ho : skipValue.out ⟨lbracket :: commaPage.rowsText, 0, true⟩ =
        .ok ((), ⟨lbracket :: commaPage.rowsText, 17, true⟩) := by decide +kernel
    obtain ⟨-, r, -, hs, -⟩ := (out_iff_of_reads reads_skipValue (Nat.zero_le _)).mp ⟨ho, rfl⟩
    exact not_skips_array rewalks_rows isItem_readsRow (next_cons rfl _) hb hs
  have hbare : ¬Agree barePage.render 8 := by
    intro h
    have ho := (h [[⟨1, .int64 2⟩]] ⟨barePage.render, 25, true⟩ (by decide +kernel)).1 (by decide)
    exact absurd ho (by decide +kernel)
  refine ⟨by decide +kernel, ⟨hagree.mpr fun _ => ?_, ?_⟩, hbare, fun h => ?_⟩
  · have hdrop : commaPage.render.drop 9 = commaPage.rowsText := by decide +kernel
    rwa [hdrop]
  · exact (hflag commaPage).mpr fun hb => absurd hb hcomma
  · have hdrop : barePage.render.drop 9 = barePage.rowsText := by decide +kernel
    rw [hagree', hdrop, Classical.not_imp, not_not] at hbare
    rcases (hflag' barePage).mp h hbare.2 with hfront | hfalse
    · cases hfront
    · revert hfalse
      decide +kernel

/-- Without the comma the rows are the same, and the flag behind them is not. -/
theorem rows_disagree_bare :
    ¬Agree (ascii "\x7b\"rows\":[\x7b\"cells\":[1 2]\x7d],\"truncated\":true\x7d") 8 ∧
    (decodeQuery (ascii "\x7b\"rows\":[\x7b\"cells\":[1 2]\x7d],\"truncated\":true\x7d")).out =
      .ok ⟨[[⟨1, .int64 2⟩]], false⟩ ∧
    (decodeQuery (ascii "\x7b\"rows\":[\x7b\"cells\":[1,2]\x7d],\"truncated\":true\x7d")).out =
      .ok ⟨[[⟨1, .int64 2⟩]], true⟩ := by
  refine ⟨fun h => ?_, by decide +kernel, by decide +kernel⟩
  have ho := (h [[⟨1, .int64 2⟩]]
    ⟨ascii "\x7b\"rows\":[\x7b\"cells\":[1 2]\x7d],\"truncated\":true\x7d", 25, true⟩
    (by decide +kernel)).1 (by decide)
  exact absurd ho (by decide +kernel)

end MongrelDB
