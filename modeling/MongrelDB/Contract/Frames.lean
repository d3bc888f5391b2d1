import MongrelDB.Walker.Nesting

/-!
# The depth of the recursion

From every state calls of `skip_value` are nested a fixed number of times deep, which is the nesting
of the value if it is a JSON value, and is never more than one for every opening bracket that is
left. Nothing but the text bounds it.
-/

namespace MongrelDB

open Text Traced Prog Json JsonParser

/-- The calls of `skip_value` are nested `d` deep: no smaller depth is enough, and with a larger one
nothing changes. -/
structure Frames (p : JsonParser) (d : Nat) : Prop where
  enough : ∀ n, d ≤ n → skipValueN n p = skipValue p
  spent : ∀ n < d, (skipValueN n).out p = .error .spent

variable {p : JsonParser} {v w : Bytes} {d n : Nat}

lemma skipValue_eq : skipValue p = skipValueN (p.s.length + 1) p := rfl

lemma truncates_skipValueN_of_le {m n : Nat} (h : m ≤ n) :
    Truncates .spent (skipValueN m) (skipValueN n) := truncates_of_le truncates_skipValueN h

/-- There is such a depth, and no more brackets than that are opened. -/
lemma exists_frames (hp : p.i ≤ p.s.length) :
    ∃ d, Frames p d ∧ d ≤ openings (p.s.drop p.i) + 1 := by
  have hbound : openings (p.s.drop p.i) ≤ p.s.length := by
    have hcount : openings (p.s.drop p.i) ≤ (p.s.drop p.i).length := List.countP_le_length
    rw [List.length_drop] at hcount
    omega
  have hmost : (skipValueN (openings (p.s.drop p.i) + 1)).out p ≠ .error .spent := by
    intro h
    have hsafe : Safe (fun _ => False) (skipValueN (openings (p.s.drop p.i) + 1)) p
        fun _ _ => True := safe_skipValueN_openings (Nat.lt_succ_self _)
    exact (hsafe hp).error _ h
  classical
  have hex : ∃ n, (skipValueN n).out p ≠ .error .spent := ⟨_, hmost⟩
  have hle : Nat.find hex ≤ openings (p.s.drop p.i) + 1 := Nat.find_min' hex hmost
  refine ⟨Nat.find hex, ⟨fun n hn => ?_, fun n hn => not_not.mp (Nat.find_min hex hn)⟩, hle⟩
  have hsame : ∀ m, Nat.find hex ≤ m → skipValueN (Nat.find hex) p = skipValueN m p := fun m hm =>
    (truncates_skipValueN_of_le hm p).resolve_left (Nat.find_spec hex)
  rw [skipValue_eq, ← hsame n hn, ← hsame (p.s.length + 1) (by omega)]

lemma Frames.le_iff (h : Frames p d) (hp : p.i ≤ p.s.length) :
    d ≤ n ↔ (skipValueN n).out p ≠ .error .spent := by
  constructor
  · intro hn he
    have hsame : (skipValueN n).out p = skipValue.out p := congrArg Run.out (h.enough n hn)
    rw [hsame] at he
    have hsafe : Safe (fun _ => False) skipValue p fun _ _ => True := safe_skipValue
    exact (hsafe hp).error _ he
  · intro hne
    by_contra hlt
    exact hne (h.spent n (Nat.lt_of_not_le hlt))

/-! ### Brackets that are opened one in the other -/

section Brackets

variable {c : UInt8}

lemma out_current_of (h : p.s[p.i]? = some c) : current.out p = .ok (c, p) := by
  have hcursor : cursor.out p = .ok (p.i, p) := rfl
  rw [current, out_bind_ok hcursor, charAt, out_bind_ok (out_get _), out_bind_ok (out_emit _ _), h]
  rfl

lemma out_inside_of (h : p.s[p.i]? = some c) : inside.out p = .ok (true, p) := by
  obtain ⟨hlt, -⟩ := List.getElem?_eq_some_iff.mp h
  rw [inside, out_bind_ok (out_get _), decide_eq_true hlt]
  rfl

/-- In front of anything else, white space is passed at once. -/
lemma out_skipWs_of (h : p.s[p.i]? = some c) (hc : isSpace c = false) :
    skipWs.out p = .ok ((), p) := by
  rw [skipWs, advanceWhile, iterate, out_bind_ok (out_get _)]
  apply out_loop_done
  rw [out_bind_ok (out_inside_of h), if_neg (by decide), out_bind_ok (out_current_of h),
    if_neg (by simp [hc])]
  rfl

lemma out_peek_of (h : p.s[p.i]? = some c) (hc : isSpace c = false) :
    peek.out p = .ok (some c, p) := by
  rw [peek, out_bind_ok (out_skipWs_of h hc), out_bind_ok (out_inside_of h), if_pos rfl,
    out_bind_ok (out_current_of h)]
  rfl

/-- An array whose first element needs more than `n` frames needs more than one further. -/
lemma spent_array (hopen : p.s[p.i]? = some lbracket) (hfirst : p.s[p.i + 1]? = some c)
    (hc : isSpace c = false) (hne : c ≠ rbracket)
    (h : (skipValueN n).out { p with i := p.i + 1 } = .error .spent) :
    (skipValueN (n + 1)).out p = .error .spent := by
  have hcursor : ∀ p : JsonParser, cursor.out p = .ok (p.i, p) := fun _ => rfl
  have hadvance : advance.out p = .ok ((), { p with i := p.i + 1 }) := rfl
  have hskip : ∀ entry, (cursor >>= fun i => emit (.nested entry i) >>= fun _ =>
      skipValueN n).out { p with i := p.i + 1 } = .error .spent := by
    intro entry
    rw [out_bind_ok (hcursor _), out_bind_ok (out_emit _ _)]
    exact h
  rw [skipValueN, out_bind_ok (hcursor p), out_bind_ok (out_peek_of hopen (by decide)),
    if_neg (by decide), if_neg (by decide), if_pos (by decide), out_bind_ok hadvance,
    out_bind_ok (out_skipWs_of hfirst hc), out_bind_ok (out_peek_of hfirst hc),
    if_neg (by simpa using hne), iterate, out_bind_ok (out_get _)]
  exact out_loop_error (out_bind_error (hskip _))

/-- So many brackets in a row need as many frames, whatever the flag. -/
lemma spent_brackets (h : ∀ k ≤ n, p.s[p.i + k]? = some lbracket) :
    (skipValueN n).out p = .error .spent := by
  induction n generalizing p with
  | zero => rfl
  | succ n ih =>
    have hrest : (skipValueN n).out { p with i := p.i + 1 } = .error .spent := by
      apply ih
      intro k hk
      have hnext := h (k + 1) (by omega)
      rwa [Nat.add_comm k, ← Nat.add_assoc] at hnext
    exact spent_array (h 0 (Nat.zero_le _)) (h 1 (by omega)) (by decide) (by decide) hrest

lemma Frames.le_of_brackets {pre t : Bytes} {ok : Bool} {k : Nat}
    (h : Frames ⟨pre ++ (List.replicate k lbracket ++ t), pre.length, ok⟩ d) : k ≤ d := by
  cases k with
  | zero => exact Nat.zero_le d
  | succ k =>
    by_contra hlt
    apply (h.le_iff (by simp)).mp (Nat.lt_succ_iff.mp (Nat.lt_of_not_le hlt))
    apply spent_brackets
    intro j hj
    have hlen : j < (List.replicate (k + 1) lbracket).length := by
      rw [List.length_replicate]
      omega
    change (pre ++ (List.replicate (k + 1) lbracket ++ t))[pre.length + j]? = _
    rw [List.getElem?_append_right (by omega), Nat.add_sub_cancel_left,
      List.getElem?_append_left hlen, List.getElem?_replicate_of_lt (by simpa using hlen)]

end Brackets

/-! ### JSON values -/

lemma Frames.eq_nesting {u : Bytes} (pre : Ws) (v : Cst) {r : Bytes} (hr : Delimited r)
    (h : Frames (tape.cut u (pre.text ++ (v.render ++ r))) d) : d = v.nesting := by
  have hp : (tape.cut u (pre.text ++ (v.render ++ r))).i ≤
      (tape.cut u (pre.text ++ (v.render ++ r))).s.length := by simp [tape_cut]
  have hiff : ∀ n, d ≤ n ↔ v.nesting ≤ n := by
    intro n
    rw [h.le_iff hp]
    constructor
    · intro hne
      have hsame : (skipValueN n).out _ = skipValue.out _ :=
        congrArg Run.out (h.enough n ((h.le_iff hp).mpr hne))
      obtain ⟨t, -, hout⟩ := reads_skipValue.complete () r (skips_render v pre hr)
      obtain ⟨r', hin⟩ := (reads_skipsIn n _).sound u () _ (hsame.trans (hout u)) rfl
      exact ((skipsIn_render v n pre hr).mp hin).2
    · intro hn he
      obtain ⟨t, -, hout⟩ := (reads_skipsIn n _).complete () r
        ((skipsIn_render v n pre hr).mpr ⟨rfl, hn⟩)
      rw [hout u] at he
      cases he
  exact le_antisymm ((hiff _).mpr le_rfl) ((hiff _).mp le_rfl)

/-- From every state calls of `skip_value` are nested one definite number of times deep. There are
no more of them than opening brackets that are left and one; brackets in a row need one each; and a
JSON value needs as many as it is nested deep, unless something has failed before. -/
theorem skipValue_frames (pre body : Bytes) (ok : Bool) :
    ∃ d, Frames ⟨pre ++ body, pre.length, ok⟩ d ∧ d ≤ openings body + 1 ∧
      (∀ k t, body = List.replicate k lbracket ++ t → k ≤ d) ∧
      (ok = true → ∀ (w : Ws) (v : Cst) (r : Bytes), Delimited r →
        body = w.text ++ (v.render ++ r) → d = v.nesting) := by
  have hp : (JsonParser.mk (pre ++ body) pre.length ok).i ≤ (pre ++ body).length := by simp
  obtain ⟨d, hd, hle⟩ := exists_frames hp
  have hdrop : (pre ++ body).drop pre.length = body := List.drop_left
  refine ⟨d, hd, hdrop ▸ hle, ?_, ?_⟩
  · rintro k t rfl
    exact hd.le_of_brackets
  · rintro rfl w v r hr rfl
    exact Frames.eq_nesting w v hr hd

end MongrelDB
