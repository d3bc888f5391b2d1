import MongrelDB.Contract.Errors
import MongrelDB.Contract.Fragments
import MongrelDB.Walker.Prefixes

/-!
# Responses that were cut off

Of a response that was cut off only a beginning is read. Members that are found in it, and lists
that are read to their end, are those of the whole response, so a page of rows is never a part of
one. Numbers and words at the very end of what has arrived may have been longer, and an escape that
was cut off may have been the end of nothing.
-/

namespace MongrelDB

open Text Traced Prog Json JsonParser

variable {α : Type} {p t z key : Bytes}

/-! ### Members -/

section Scan

variable {here : Bytes → Walk Bool} {hit : Bytes → Option UInt8 → Bool} {take : Walk (Bool × α)}
  {a out : α}

lemma ReachesIn.append (hnone : ∀ k, hit k none = false) (h : ReachesIn hit p z)
    (hp : Unbroken p []) (t : Bytes) : ReachesIn hit (p ++ t) (z ++ t) := by
  obtain ⟨w, hw, hr⟩ := h
  exact ⟨w ++ t, hw.append t, hr.append hnone (hp.mono hw.suffix le_rfl) t⟩

lemma AbsentIn.append (h : AbsentIn hit p) (hp : Unbroken p []) (t : Bytes) :
    AbsentIn hit (p ++ t) := by
  obtain ⟨w, hw, ha⟩ := h
  exact ⟨w ++ t, hw.append t, ha.append (hp.mono hw.suffix le_rfl) t⟩

/-- What has been found stays found if it is taken in the same way. -/
lemma scan_append (hs : Sees here hit) (hnone : ∀ k, hit k none = false) (hp : Unbroken p [])
    (htake : ∀ z u q, ReachesIn hit p z → take.out (tape.cut u z) = .ok ((true, a), q) →
      ∀ u, ∃ q, take.out (tape.cut u (z ++ t)) = .ok ((true, a), q))
    (h : (walk p (scanMembers here take out)).out = .ok (true, a)) :
    (walk (p ++ t) (scanMembers here take out)).out = .ok (true, a) := by
  rcases scan_ends hs h with h | ⟨h, ha⟩ | ⟨z, u, q, hr, ho⟩
  · cases h
  · obtain rfl := (Prod.mk.inj h).2
    exact out_scan_of_absent hs (ha.append hp t)
  · obtain ⟨u', -, hout⟩ :
        ∃ u', _ ∧ (walk (p ++ t) (scanMembers here take out)).out = _ :=
      out_scan_of_reaches hs (hr.append hnone hp t)
    obtain ⟨q', hq⟩ := htake z u q hr ho u'
    rw [hout, hq]
    rfl

/-- A value that is taken in one way, with this text behind it or not. -/
lemma take_append_of_steps {b : Bool × α} {r r' : Bytes} (h : Steps tape take z b r)
    (h' : Steps tape take (z ++ t) b r') {u : Bytes} {q : JsonParser}
    (ho : take.out (tape.cut u z) = .ok ((true, a), q)) :
    ∀ u, ∃ q, take.out (tape.cut u (z ++ t)) = .ok ((true, a), q) := by
  obtain ⟨s, -, hs⟩ := h
  obtain ⟨s', -, hs'⟩ := h'
  rw [hs u] at ho
  cases ho
  exact fun u => ⟨_, hs' u⟩

end Scan

lemma getString_append (hp : Unbroken p []) {out s : Bytes}
    (h : (getString p key out).out = .ok (true, s)) (t : Bytes) :
    (getString (p ++ t) key out).out = .ok (true, s) := by
  refine scan_append (sees_keyIs key quote) (fun k => by simp) hp (fun z u q hr ho => ?_) h
  obtain ⟨w, hw, hr⟩ := hr
  obtain ⟨⟨k, hk⟩, -⟩ := hr.isHit
  obtain ⟨z, rfl⟩ : ∃ y, z = quote :: y :=
    List.head?_eq_some_iff.mp (by simpa using (Bool.and_eq_true_iff.mp hk).2)
  obtain ⟨r, hq⟩ := quoted_of_takeString ho
  have hz : z <:+ p := (List.suffix_cons quote z).trans (hr.suffix.trans hw.suffix)
  have htake : ∀ {y r : Bytes}, Quoted y s r → Steps tape takeString (quote :: y) (true, s) r :=
    fun hq => (reads_readStringRaw.complete _ _ hq).trans (steps_isOk.trans steps_pure)
  exact take_append_of_steps (htake hq)
    (htake (hq.append (hp.mono hz (Nat.zero_le _)) t)) ho

/-- The text of a value that is skipped is taken. -/
lemma steps_takeRaw_of_skips {out s r : Bytes} (h : Skips .value (s ++ r) r) :
    Steps tape (takeRaw out) (s ++ r) (true, s) r := by
  obtain ⟨s', hs, hskip⟩ := reads_skipValue.complete () r h
  obtain rfl : s = s' := List.append_cancel_right hs
  refine ⟨s, rfl, fun u => ?_⟩
  have hok : isOk.out (tape.cut (u ++ s) r) = .ok (true, tape.cut (u ++ s) r) := rfl
  rw [takeRaw, out_bind_ok out_cursor, out_bind_ok (hskip u), out_bind_ok hok,
    if_neg (by simp), out_bind_ok out_cursor, out_bind_ok out_substr]
  rfl

lemma scan_takeRaw_append {opening : UInt8} (ho : opening = lbrace ∨ opening = lbracket)
    (hp : Unbroken p []) {out s : Bytes}
    (h : (walk p (scanMembers (fun k => keyIs k key opening) (takeRaw out) out)).out =
      .ok (true, s)) (t : Bytes) :
    (walk (p ++ t) (scanMembers (fun k => keyIs k key opening) (takeRaw out) out)).out =
      .ok (true, s) := by
  refine scan_append (sees_keyIs key opening) (fun k => by simp) hp (fun z u q hr htake => ?_) h
  obtain ⟨w, hw, hr⟩ := hr
  obtain ⟨⟨k, hk⟩, hdrop⟩ := hr.isHit
  obtain ⟨r, rfl, hskip⟩ := skips_of_takeRaw htake
  have hhead : (s ++ r).head? = some opening := by simpa using (Bool.and_eq_true_iff.mp hk).2
  have hz : Unbroken (s ++ r) r := hp.mono (hr.suffix.trans hw.suffix) (Nat.zero_le _)
  have hopen : ∀ c x, Next c (s ++ r) x → c = lbrace ∨ c = lbracket := by
    intro c x hc
    rw [Next, hdrop] at hc
    rw [hc, List.head?_cons, Option.some.injEq] at hhead
    exact hhead ▸ ho
  have happend : Skips .value (s ++ (r ++ t)) (r ++ t) := by
    rw [← List.append_assoc]
    exact hskip.append hz (fun _ _ => hopen) t
  have hsteps : Steps tape (takeRaw out) (s ++ r ++ t) (true, s) (r ++ t) := by
    rw [List.append_assoc]
    exact steps_takeRaw_of_skips happend
  exact take_append_of_steps (steps_takeRaw_of_skips hskip) hsteps htake

/-! ### Numbers and words -/

/-- The text ends neither in a number nor in a word. -/
def EndsToken (p : Bytes) : Prop :=
  ∀ c, p.getLast? = some c → isNumberChar c = false ∧ isLetter c = false

/-- A run that ends in front of the end of the text is the same in a longer text. -/
lemma takeWhile_append_of_last {q : UInt8 → Bool} (hz : z <:+ p) (hne : z ≠ [])
    (hlast : ∀ c, p.getLast? = some c → q c = false) (t : Bytes) :
    (z ++ t).takeWhile q = z.takeWhile q := by
  refine (dropWhile_append_of_ne (fun hnil => ?_) t).2
  obtain ⟨u, rfl⟩ := hz
  have hq := List.dropWhile_eq_nil_iff.mp hnil (z.getLast hne) (List.getLast_mem hne)
  rw [hlast (z.getLast hne) (by rw [List.getLast?_append_of_ne_nil u hne,
    List.getLast?_eq_some_getLast hne])] at hq
  cases hq

lemma ReachesIn.suffix {hit : Bytes → Option UInt8 → Bool} (h : ReachesIn hit p z) : z <:+ p := by
  obtain ⟨w, hw, hr⟩ := h
  exact hr.suffix.trans hw.suffix

lemma ReachesIn.ne_nil {hit : Bytes → Option UInt8 → Bool} (hnone : ∀ k, hit k none = false)
    (h : ReachesIn hit p z) : z ≠ [] := by
  rintro rfl
  obtain ⟨w, -, hr⟩ := h
  obtain ⟨⟨k, hk⟩, -⟩ := hr.isHit
  rw [List.head?_nil, hnone] at hk
  cases hk

/-- What `get_uint64` makes of the text of a number. -/
def uint64Read (out : UInt64) (raw : Bytes) : Bool × UInt64 :=
  if (strtoull raw).2.isEmpty then (true, (strtoull raw).1) else (false, out)

lemma steps_takeUint64_raw (out : UInt64) (z : Bytes) : Steps tape (takeUint64 out) z
    (uint64Read out (z.takeWhile isNumberChar)) (z.dropWhile isNumberChar) := by
  refine steps_readNumberRaw.trans (steps_isOk.trans ?_)
  rw [if_neg (by simp)]
  unfold uint64Read
  obtain ⟨n, rest⟩ := strtoull (z.takeWhile isNumberChar)
  cases rest with
  | nil => exact steps_pure
  | cons c rest => exact steps_pure

section Token

variable (hp : Unbroken p []) (hend : EndsToken p)
include hp hend

lemma getNumber_append {out d : Binary64} (h : (getNumber p key out).out = .ok (true, d))
    (t : Bytes) : (getNumber (p ++ t) key out).out = .ok (true, d) := by
  have hnone : ∀ k, (k == key && startsNumber none) = false := fun k => Bool.and_false _
  refine scan_append (sees_numberHere key) hnone hp (fun z u q hr ho => ?_) h
  have htake : ∀ z, Steps tape takeNumber z (true, Binary64.strtod (z.takeWhile isNumberChar))
      (z.dropWhile isNumberChar) := fun z => steps_readNumberRaw.trans (steps_isOk.trans steps_pure)
  have happend := htake (z ++ t)
  rw [takeWhile_append_of_last hr.suffix (hr.ne_nil hnone) fun c hc => (hend c hc).1] at happend
  exact take_append_of_steps (htake z) happend ho

lemma getInt_append {plat : Platform} {out i : Int64}
    (h : (getInt plat p key out).out = .ok (true, i)) (t : Bytes) :
    (getInt plat (p ++ t) key out).out = .ok (true, i) := by
  have hsafe : SafeCall (fun _ => False) (getNumber p key ⟨0⟩) := safeCall_getNumber
  obtain ⟨⟨found, d⟩, hd⟩ := exists_out_of_safeCall hsafe
  rw [getInt, Run.out_bind_ok hd] at h
  cases found with
  | false => cases h
  | true =>
    rw [getInt, Run.out_bind_ok (getNumber_append hp hend hd t)]
    exact h

lemma getUint64_append {out n : UInt64} (h : (getUint64 p key out).out = .ok (true, n))
    (t : Bytes) : (getUint64 (p ++ t) key out).out = .ok (true, n) := by
  have hnone : ∀ k, (k == key && (none : Option UInt8).elim false isDigit) = false :=
    fun k => Bool.and_false _
  refine scan_append (sees_digitHere key) hnone hp (fun z u q hr ho => ?_) h
  have happend := steps_takeUint64_raw out (z ++ t)
  rw [takeWhile_append_of_last hr.suffix (hr.ne_nil hnone) fun c hc => (hend c hc).1] at happend
  exact take_append_of_steps (steps_takeUint64_raw out z) happend ho

lemma getBool_append {out b : Bool} (h : (getBool p key out).out = .ok (true, b)) (t : Bytes) :
    (getBool (p ++ t) key out).out = .ok (true, b) := by
  refine scan_append (sees_boolHere key) (fun k => by simp) hp (fun z u q hr ho => ?_) h
  obtain ⟨⟨k, hk⟩, hz⟩ := hr.choose_spec.2.isHit
  obtain ⟨c, y, rfl, hc⟩ : ∃ c y, z = c :: y ∧ (c = 0x74 ∨ c = 0x66) := by
    cases z with
    | nil => simp at hk
    | cons c y => exact ⟨c, y, rfl, by simpa using (Bool.and_eq_true_iff.mp hk).2⟩
  have htake : ∀ y, Next c (c :: y) y → Steps tape takeBool (c :: y)
      (true, c :: y.takeWhile isLetter == ascii "true") (y.dropWhile isLetter) := fun y hy =>
    (reads_readValue.complete _ _ ⟨c, y, hy, .inr (.inr (.inl ⟨hc, rfl, rfl⟩))⟩).trans
      (Steps.trans steps_pure (steps_isOk.trans steps_pure))
  have hletter : isLetter c = true := by rcases hc with rfl | rfl <;> decide
  have hrun := takeWhile_append_of_last hr.suffix (List.cons_ne_nil c y)
    (fun c hc => (hend c hc).2) t
  rw [List.cons_append, List.takeWhile_cons, List.takeWhile_cons, if_pos hletter,
    if_pos hletter] at hrun
  have happend := htake (y ++ t) (Next.append hz t)
  rw [(List.cons.inj hrun).2] at happend
  exact take_append_of_steps (htake y hz) happend ho

end Token

/-! ### Lists -/

lemma decodeRows_append (hp : Unbroken p []) {rows : List Row}
    (h : (walk p decodeRows).out = .ok rows) (t : Bytes) :
    rows = [] ∨ (walk (p ++ t) decodeRows).out = .ok rows := by
  rcases out_decodeRows_iff.mp h with ⟨y, r, hy, hrows⟩ | ⟨rfl, -⟩
  · obtain ⟨-, happend⟩ := closes_bracketed closes_readsRow.extends _ _ _ hrows
    have hy' : RowsAt (p ++ t) (y ++ t) := ReachesIn.append (fun k => by simp) hy hp t
    have hsuffix : y <:+ p := (List.suffix_cons lbracket y).trans (ReachesIn.suffix hy)
    exact .inr (out_decodeRows_iff.mpr
      (.inl ⟨y ++ t, r ++ t, hy', happend t (hp.mono hsuffix (Nat.zero_le _))⟩))
  · exact .inl rfl

lemma decodeNames_append (hp : Unbroken p []) {names : List Bytes}
    (h : (walk p decodeNames).out = .ok names) (t : Bytes) :
    names = [] ∨ (walk (p ++ t) decodeNames).out = .ok names := by
  rcases out_decodeNames_iff.mp h with ⟨y, r, hy, hnames⟩ | ⟨rfl, -⟩
  · obtain ⟨-, happend⟩ := closes_bracketed closes_readsName.extends _ _ _ hnames
    exact .inr (out_decodeNames_iff.mpr
      (.inl ⟨y ++ t, r ++ t, hy.append t, happend t (hp.mono hy.suffix (Nat.zero_le _))⟩))
  · exact .inl rfl

/-- Whatever is read of a beginning that ends in no escape is what the whole response says. A page
of rows or a list of names is whole or empty, and strings and raw members are whole if they are
found; so are numbers and words, if the beginning does not end in one. -/
theorem answers_stand (p t : Bytes) (hp : Unbroken p []) :
    (∀ rows flag, (decodeQuery p).out = .ok ⟨rows, flag⟩ →
      rows = [] ∨ ∃ flag', (decodeQuery (p ++ t)).out = .ok ⟨rows, flag'⟩) ∧
    (∀ names, (walk p decodeNames).out = .ok names →
      names = [] ∨ (walk (p ++ t) decodeNames).out = .ok names) ∧
    (∀ key out s, (getString p key out).out = .ok (true, s) →
      (getString (p ++ t) key out).out = .ok (true, s)) ∧
    (∀ key out s, (getObjectRaw p key out).out = .ok (true, s) →
      (getObjectRaw (p ++ t) key out).out = .ok (true, s)) ∧
    (∀ key out s, (getArrayRaw p key out).out = .ok (true, s) →
      (getArrayRaw (p ++ t) key out).out = .ok (true, s)) ∧
    (EndsToken p →
      (∀ plat key out i, (getInt plat p key out).out = .ok (true, i) →
        (getInt plat (p ++ t) key out).out = .ok (true, i)) ∧
      (∀ key out n, (getUint64 p key out).out = .ok (true, n) →
        (getUint64 (p ++ t) key out).out = .ok (true, n)) ∧
      ∀ key out b, (getBool p key out).out = .ok (true, b) →
        (getBool (p ++ t) key out).out = .ok (true, b)) := by
  refine ⟨fun rows flag h => ?_, fun names h => decodeNames_append hp h t,
    fun key out s h => getString_append hp h t,
    fun key out s h => scan_takeRaw_append (.inl rfl) hp h t,
    fun key out s h => scan_takeRaw_append (.inr rfl) hp h t, fun hend => ⟨?_, ?_, ?_⟩⟩
  · obtain ⟨f, hf⟩ := exists_out_decodeQuery p
    obtain ⟨f', hf'⟩ := exists_out_decodeQuery (p ++ t)
    rw [hf] at h
    cases ho : (walk p decodeRows).out with
    | error e =>
      rw [ho] at h
      cases h
    | ok rows' =>
      rw [ho] at h
      cases h
      refine (decodeRows_append hp ho t).imp_right fun h' => ⟨f', ?_⟩
      rw [hf', h']
      rfl
  · exact fun plat key out i h => getInt_append hp hend h t
  · exact fun key out n h => getUint64_append hp hend h t
  · exact fun key out b h => getBool_append hp hend h t

/-- A page of which the flag behind the rows has not arrived. -/
def cutPage : Bytes := ascii "\x7b\"rows\":[\x7b\"cells\":[1,2]\x7d],\"trunc"

theorem answers_stand_page :
    (decodeQuery cutPage).out = .ok ⟨[[⟨1, .int64 2⟩]], false⟩ ∧
      ∃ flag, (decodeQuery (cutPage ++ ascii "ated\":true\x7d")).out =
        .ok ⟨[[⟨1, .int64 2⟩]], flag⟩ := by
  have hout : (decodeQuery cutPage).out = .ok ⟨[[⟨1, .int64 2⟩]], false⟩ := by decide +kernel
  have hstand := answers_stand cutPage (ascii "ated\":true\x7d") (unbroken_of_notMem (by decide))
  exact ⟨hout, (hstand.1 _ _ hout).resolve_left (by rintro ⟨⟩)⟩

end MongrelDB
