import MongrelDB.Client.Extract
import MongrelDB.Walker.Values

/-!
# Scanning the members of an object

What a scan over members comes to on any text: it `Reaches` the value of a member that is the wanted
one, or it passes all of them (`Absent`), or it breaks off.
-/

namespace MongrelDB

open Text Traced Prog

namespace JsonParser

variable {α β : Type} {u v w x y : Bytes}

/-! ### Values at the end of a walk -/

/-- Whatever value a walk from the unread text `v` ends with, `Q` holds of it and the state. -/
def Ends (x : Walk α) (v : Bytes) (Q : α → JsonParser → Prop) : Prop :=
  ∀ u a p, x.out (tape.cut u v) = .ok (a, p) → Q a p

lemma ends_pure {a : α} {Q : α → JsonParser → Prop} (h : ∀ p, Q a p) : Ends (pure a) v Q := by
  rintro u _ p ⟨⟩
  exact h _

lemma ends_bind_of_steps {x : Walk α} {f : α → Walk β} {a : α} {Q : β → JsonParser → Prop}
    (hx : Steps tape x v a w) (hf : Ends (f a) w Q) : Ends (x >>= f) v Q := by
  intro u b p h
  obtain ⟨t, -, ht⟩ := hx
  rw [out_bind_ok (ht u)] at h
  exact hf _ b p h

/-- A step whose error is noticed right after it. -/
lemma Ends.checked {x : Walk α} {f : α → Walk β} {stuck : Walk β} {G : α → Bytes → Prop}
    {Q : β → JsonParser → Prop} (hx : Reads tape x v G)
    (hstuck : ∀ p b p', stuck.out p = .ok (b, p') → Q b p')
    (hf : ∀ a w, G a w → Ends (f a) w Q) :
    Ends (x >>= fun a => isOk >>= fun ok => if !ok then stuck else f a) v Q := by
  intro u b p h
  obtain ⟨a, p₁, h₁, h₂⟩ := out_bind_eq_ok h
  obtain ⟨ok, p₂, h₂, h₃⟩ := out_bind_eq_ok h₂
  cases h₂
  by_cases hok : p₁.ok = true
  · rw [if_neg (by simp [hok])] at h₃
    obtain ⟨w, hg⟩ := hx.sound u a p₁ h₁ hok
    obtain ⟨t, -, ht⟩ := hx.complete a w hg
    rw [ht u] at h₁
    cases h₁
    exact hf a w hg _ b p h₃
  · rw [if_pos (by simpa using hok)] at h₃
    exact hstuck _ b p h₃

/-- A step that goes well passes the check after it. -/
lemma Steps.checked {x : Walk α} {f : α → Walk β} {stuck : Walk β} {a : α} {b : β} {r : Bytes}
    (hx : Steps tape x v a w) (hf : Steps tape (f a) w b r) :
    Steps tape (x >>= fun a => isOk >>= fun ok => if !ok then stuck else f a) v b r := by
  refine hx.trans (steps_isOk.trans ?_)
  rwa [if_neg (by simp)]

/-! ### Members -/

/-- The test for the wanted member is one on its name and on the first character of its value. -/
structure Sees (here : Bytes → Walk Bool) (hit : Bytes → Option UInt8 → Bool) : Prop where
  steps : ∀ k v, ∃ w, Steps tape (here k) v (hit k (v.dropWhile isSpace).head?) w ∧
    w.dropWhile isSpace = v.dropWhile isSpace ∧
    (hit k (v.dropWhile isSpace).head? = true → w = v.dropWhile isSpace)

lemma sees_keyIs (key : Bytes) (c : UInt8) :
    Sees (fun k => keyIs k key c) fun k h => k == key && h == some c where
  steps k v := by
    by_cases hk : k = key
    · refine ⟨v.dropWhile isSpace, ?_, dropWhile_dropWhile v, fun _ => rfl⟩
      rw [keyIs, if_pos (by simpa using hk)]
      refine steps_peek.trans ?_
      simp only [hk, beq_self_eq_true, Bool.true_and]
      exact steps_pure
    · refine ⟨v, ?_, rfl, by simp [hk]⟩
      rw [keyIs, if_neg (by simpa using hk)]
      simp only [show (k == key) = false by simpa using hk, Bool.false_and]
      exact steps_pure

/-- A scan of the members comes to the value of one that is wanted. -/
inductive Reaches (hit : Bytes → Option UInt8 → Bool) : Bytes → Bytes → Prop
  | here {v k w} : Named v k w → hit k (w.dropWhile isSpace).head? = true →
      Reaches hit v (w.dropWhile isSpace)
  | later {v k w x y z} : Named v k w → hit k (w.dropWhile isSpace).head? = false →
      Skips .value w x → Next comma x y → Reaches hit y z → Reaches hit v z

/-- A scan of the members passes all of them and comes to the closing brace. -/
inductive Absent (hit : Bytes → Option UInt8 → Bool) : Bytes → Prop
  | last {v k w x y} : Named v k w → hit k (w.dropWhile isSpace).head? = false →
      Skips .value w x → Next rbrace x y → Absent hit v
  | later {v k w x y} : Named v k w → hit k (w.dropWhile isSpace).head? = false →
      Skips .value w x → Next comma x y → Absent hit y → Absent hit v

variable {here : Bytes → Walk Bool} {hit : Bytes → Option UInt8 → Bool} {take : Walk β} {stuck : β}
  {ended : Bool → β}

lemma Reaches.congr {v' z : Bytes} (hv : v.dropWhile isSpace = v'.dropWhile isSpace)
    (h : Reaches hit v z) : Reaches hit v' z := by
  cases h with
  | here hn hh => exact .here (hn.congr hv) hh
  | later hn hh hs hx hr => exact .later (hn.congr hv) hh hs hx hr

lemma Absent.congr {v' : Bytes} (hv : v.dropWhile isSpace = v'.dropWhile isSpace)
    (h : Absent hit v) : Absent hit v' := by
  cases h with
  | last hn hh hs hx => exact .last (hn.congr hv) hh hs hx
  | later hn hh hs hx ha => exact .later (hn.congr hv) hh hs hx ha

lemma Reaches.next {z : Bytes} (h : Reaches hit w z) : ∃ x, Next quote w x := by
  cases h with
  | here hn _ | later hn _ _ _ _ =>
    obtain ⟨x, -, hx, -⟩ := hn
    exact ⟨x, hx⟩

/-- A value that a scan has reached is the wanted one. -/
lemma Reaches.isHit {z : Bytes} (h : Reaches hit v z) :
    (∃ k, hit k z.head? = true) ∧ z.dropWhile isSpace = z := by
  induction h with
  | here _ hh => exact ⟨⟨_, hh⟩, dropWhile_dropWhile _⟩
  | later _ _ _ _ _ ih => exact ih

/-- A member that is not wanted is passed. -/
lemma reaches_iff_of_passed {k : Bytes} (hn : Named v k w)
    (hh : hit k (w.dropWhile isSpace).head? = false) (hs : Skips .value w x) (hx : Next comma x y) :
    Reaches hit v z ↔ Reaches hit y z := by
  refine ⟨fun h => ?_, .later hn hh hs hx⟩
  cases h with
  | here hn' hh' =>
    obtain ⟨rfl, rfl⟩ := hn.unique hn'
    rw [hh] at hh'
    cases hh'
  | later hn' _ hs' hx' h =>
    obtain ⟨rfl, rfl⟩ := hn.unique hn'
    obtain rfl := hs.unique hs'
    obtain ⟨-, rfl⟩ := hx.unique hx'
    exact h

lemma absent_iff_of_passed {k : Bytes} (hn : Named v k w)
    (hh : hit k (w.dropWhile isSpace).head? = false) (hs : Skips .value w x) (hx : Next comma x y) :
    Absent hit v ↔ Absent hit y := by
  refine ⟨fun h => ?_, .later hn hh hs hx⟩
  cases h with
  | last hn' _ hs' hx' =>
    obtain ⟨rfl, rfl⟩ := hn.unique hn'
    obtain rfl := hs.unique hs'
    exact absurd (hx.unique hx').1 (by decide)
  | later hn' _ hs' hx' h =>
    obtain ⟨rfl, rfl⟩ := hn.unique hn'
    obtain rfl := hs.unique hs'
    obtain ⟨-, rfl⟩ := hx.unique hx'
    exact h

lemma Absent.next (h : Absent hit w) : ∃ x, Next quote w x := by
  cases h with
  | last hn _ _ _ | later hn _ _ _ _ =>
    obtain ⟨x, -, hx, -⟩ := hn
    exact ⟨x, hx⟩

/-- A scan that passes all members comes to none. -/
lemma Absent.not_reaches {z : Bytes} (h : Absent hit v) : ¬Reaches hit v z := by
  induction h with
  | last hn hh hs hx =>
    intro hr
    cases hr with
    | here hn' hh' =>
      obtain ⟨rfl, rfl⟩ := hn'.unique hn
      exact absurd (hh.symm.trans hh') (by decide)
    | later hn' _ hs' hx' _ =>
      obtain ⟨rfl, rfl⟩ := hn'.unique hn
      obtain rfl := hs'.unique hs
      exact absurd (hx'.unique hx).1 (by decide)
  | later hn hh hs hx _ ih =>
    rw [reaches_iff_of_passed hn hh hs hx]
    exact ih

/-- What a round does with a member that is not the wanted one. -/
def passBy (stuck : β) (ended : Bool → β) : Walk (Round Unit β) := do
  skipValue
  if !(← isOk) then return .done stuck
  let ch ← peek
  if ch == some comma then
    expect comma
    return .again ()
  return .done (ended (ch == some rbrace))

/-- A round up to the test and what it decides. -/
lemma leads_memberRound (hs : Sees here hit) {k : Bytes} (hn : Named v k w) :
    ∃ x, x.dropWhile isSpace = w.dropWhile isSpace ∧
      (hit k (w.dropWhile isSpace).head? = true → x = w.dropWhile isSpace) ∧
      Leads tape (memberRound here take stuck ended) v
        (if hit k (w.dropWhile isSpace).head? then take >>= fun a => pure (.done a)
          else passBy stuck ended) x := by
  obtain ⟨x, y, hx, hk, hw⟩ := hn
  obtain ⟨z, hz, hzw, hit⟩ := hs.steps k w
  refine ⟨z, hzw, hit, (steps_peek_next hx).leads ?_⟩
  rw [if_neg (by simp)]
  refine (reads_readStringRaw.complete k y hk).leads (steps_isOk.leads ?_)
  rw [if_neg (by simp)]
  refine (steps_expect hw).leads (steps_isOk.leads ?_)
  rw [if_neg (by simp)]
  exact hz.leads leads_refl

lemma steps_passBy_comma (h : Skips .value w x) (hx : Next comma x y) :
    Steps tape (passBy stuck ended) w (.again ()) y := by
  refine (reads_skipValue.complete () x h).trans (steps_isOk.trans ?_)
  rw [if_neg (by simp)]
  refine (steps_peek_next hx).trans ?_
  rw [if_pos (by simp)]
  exact (steps_expect (next_cons_of_next hx)).trans steps_pure

lemma steps_passBy_end (h : Skips .value w x) (hx : ∀ y, ¬Next comma x y) :
    Steps tape (passBy stuck ended) w (.done (ended ((x.dropWhile isSpace).head? == some rbrace)))
      (x.dropWhile isSpace) := by
  refine (reads_skipValue.complete () x h).trans (steps_isOk.trans ?_)
  rw [if_neg (by simp)]
  refine steps_peek.trans ?_
  rw [if_neg]
  · exact steps_pure
  · exact fun hc => (List.head?_eq_some_iff.mp (by simpa using hc)).elim hx

/-! ### The whole scan -/

/-- One round passes a member that is not wanted. -/
lemma out_loop_passed {k : Bytes} (hs : Sees here hit) (hn : Named v k w)
    (hh : hit k (w.dropWhile isSpace).head? = false) (hsk : Skips .value w x)
    (hx : Next comma x y) :
    y.length < v.length ∧ ∃ t, v = t ++ y ∧ ∀ u n,
      (loop .spent (fun p p' : JsonParser => .again p.i p'.i)
        (fun _ => memberRound here take stuck ended) (n + 1) ()).out (tape.cut u v) =
      (loop .spent (fun p p' : JsonParser => .again p.i p'.i)
        (fun _ => memberRound here take stuck ended) n ()).out (tape.cut (u ++ t) y) := by
  obtain ⟨w', hw, -, hl⟩ := leads_memberRound hs hn
  rw [hh, if_neg (by simp)] at hl
  obtain ⟨t, hv, ht⟩ := hl.steps (steps_passBy_comma (hsk.congr hw.symm) hx)
  exact ⟨hx.length_lt.trans (hsk.length_lt.trans hn.length_lt), t, hv,
    fun u n => out_loop_again (ht u)⟩

/-- The scan goes on as `take` does from the value that it reaches. -/
lemma leads_scan_of_reaches (hs : Sees here hit) {z : Bytes} (h : Reaches hit v z) :
    Leads tape (iterate (fun _ => memberRound here take stuck ended) ()) v take z := by
  suffices hloop : ∃ t, v = t ++ z ∧ ∀ u n, v.length < n →
      (loop .spent (fun p p' : JsonParser => .again p.i p'.i)
        (fun _ => memberRound here take stuck ended) n ()).out (tape.cut u v)
          = take.out (tape.cut (u ++ t) z) by
    obtain ⟨t, hv, ht⟩ := hloop
    exact ⟨t, hv, fun u => out_iterate_of_loop (ht u)⟩
  induction h with
  | here hn hh =>
    obtain ⟨x, -, hx, hl⟩ := leads_memberRound hs hn
    rw [hx hh, if_pos hh] at hl
    obtain ⟨t, hv, ht⟩ := hl
    refine ⟨t, hv, fun u n hn => ?_⟩
    obtain ⟨n, rfl⟩ : ∃ k, n = k + 1 := ⟨n - 1, by omega⟩
    exact out_loop_last (ht u)
  | later hn hh hsk hx _ ih =>
    obtain ⟨hlt, t, hv, ht⟩ := out_loop_passed hs hn hh hsk hx
    obtain ⟨t', hy, ht'⟩ := ih
    refine ⟨t ++ t', by rw [hv, hy, List.append_assoc], fun u n hn => ?_⟩
    obtain ⟨n, rfl⟩ : ∃ k, n = k + 1 := ⟨n - 1, by omega⟩
    rw [ht, ht' (u ++ t) n (by omega), List.append_assoc]

lemma steps_scan_of_absent (hs : Sees here hit) (h : Absent hit v) :
    ∃ r, Steps tape (iterate (fun _ => memberRound here take stuck ended) ()) v (ended true) r := by
  suffices hloop : ∃ t r, v = t ++ r ∧ ∀ u n, v.length < n →
      (loop .spent (fun p p' : JsonParser => .again p.i p'.i)
        (fun _ => memberRound here take stuck ended) n ()).out (tape.cut u v)
          = .ok (ended true, tape.cut (u ++ t) r) by
    obtain ⟨t, r, hv, ht⟩ := hloop
    exact ⟨r, t, hv, fun u => out_iterate_of_loop (ht u)⟩
  induction h with
  | last hn hh hsk hx =>
    obtain ⟨w', hw, -, hl⟩ := leads_memberRound hs hn
    rw [hh, if_neg (by simp)] at hl
    have hc : ∀ y, ¬Next comma _ y := fun y hy => absurd (hx.unique hy).1 (by decide)
    obtain ⟨t, hv, ht⟩ := hl.steps (steps_passBy_end (hsk.congr hw.symm) hc)
    refine ⟨t, _, hv, fun u n hn => ?_⟩
    obtain ⟨n, rfl⟩ : ∃ k, n = k + 1 := ⟨n - 1, by omega⟩
    rw [out_loop_done (ht u), hx]
    rfl
  | later hn hh hsk hx _ ih =>
    obtain ⟨hlt, t, hv, ht⟩ := out_loop_passed hs hn hh hsk hx
    obtain ⟨t', r, hy, ht'⟩ := ih
    refine ⟨t ++ t', r, by rw [hv, hy, List.append_assoc], fun u n hn => ?_⟩
    obtain ⟨n, rfl⟩ : ∃ k, n = k + 1 := ⟨n - 1, by omega⟩
    rw [ht, ht' (u ++ t) n (by omega), List.append_assoc]

/-- What a round can come to. -/
def RoundEnds (hit : Bytes → Option UInt8 → Bool) (take : Walk β) (stuck : β) (ended : Bool → β)
    (v : Bytes) (b : Round Unit β) (p : JsonParser) : Prop :=
  b = .done stuck ∨ b = .done (ended false) ∨
  (∃ k w, Named v k w ∧ hit k (w.dropWhile isSpace).head? = false ∧ ∃ x y, Skips .value w x ∧
    ((Next rbrace x y ∧ b = .done (ended true)) ∨
      (Next comma x y ∧ b = .again () ∧ ∃ u, p = tape.cut u y))) ∨
  ∃ k w, Named v k w ∧ hit k (w.dropWhile isSpace).head? = true ∧ ∃ a u, b = .done a ∧
    take.out (tape.cut u (w.dropWhile isSpace)) = .ok (a, p)

lemma ends_memberRound (hs : Sees here hit) :
    Ends (memberRound here take stuck ended) v (RoundEnds hit take stuck ended v) := by
  have hstuck : ∀ p b p', (pure (.done stuck) : Walk (Round Unit β)).out p = .ok (b, p') →
      RoundEnds hit take stuck ended v b p' := by
    rintro p _ p' ⟨⟩
    exact .inl rfl
  refine ends_bind_of_steps steps_peek ?_
  by_cases hq : (v.dropWhile isSpace).head? = some quote
  swap
  · rw [if_pos (by simpa using hq)]
    exact ends_pure fun p => .inl rfl
  rw [if_neg (by simpa using hq)]
  obtain ⟨x, hx⟩ : ∃ x, Next quote v x := List.head?_eq_some_iff.mp hq
  rw [hx]
  refine Ends.checked reads_readStringRaw hstuck fun k y hk => ?_
  refine Ends.checked reads_expect hstuck fun _ w hw => ?_
  have hn : Named v k w := ⟨x, y, hx, hk, hw⟩
  obtain ⟨z, hz, hzw, hit'⟩ := hs.steps k w
  refine ends_bind_of_steps hz ?_
  cases hh : hit k (w.dropWhile isSpace).head? with
  | true =>
    rw [if_pos rfl, hit' hh]
    intro u b p ho
    obtain ⟨a, p₁, h₁, h₂⟩ := out_bind_eq_ok ho
    cases h₂
    exact .inr (.inr (.inr ⟨k, w, hn, hh, a, u, rfl, h₁⟩))
  | false =>
    rw [if_neg (by simp)]
    refine Ends.checked reads_skipValue hstuck fun _ x hx => ?_
    have hskip : Skips .value w x := hx.congr hzw
    refine ends_bind_of_steps steps_peek ?_
    by_cases hc : (x.dropWhile isSpace).head? = some comma
    · obtain ⟨y, hy⟩ : ∃ y, Next comma x y := List.head?_eq_some_iff.mp hc
      rw [if_pos (by simpa using hc), hy]
      refine ends_bind_of_steps (steps_expect (next_cons_of_next hy)) ?_
      rintro u _ p ⟨⟩
      exact .inr (.inr (.inl ⟨k, w, hn, hh, x, y, hskip, .inr ⟨hy, rfl, u, rfl⟩⟩))
    · rw [if_neg (by simpa using hc)]
      by_cases hb : (x.dropWhile isSpace).head? = some rbrace
      · obtain ⟨y, hy⟩ : ∃ y, Next rbrace x y := List.head?_eq_some_iff.mp hb
        have he : ((x.dropWhile isSpace).head? == some rbrace) = true := by simpa using hb
        rw [he]
        exact ends_pure fun p => .inr (.inr (.inl ⟨k, w, hn, hh, x, y, hskip, .inl ⟨hy, rfl⟩⟩))
      · have he : ((x.dropWhile isSpace).head? == some rbrace) = false := by simpa using hb
        rw [he]
        exact ends_pure fun p => .inr (.inl rfl)

/-- A scan breaks off, or passes all members, or ends as `take` does from a value it reaches. -/
lemma ends_scan (hs : Sees here hit) :
    Ends (iterate (fun _ => memberRound here take stuck ended) ()) v fun a p =>
      a = stuck ∨ a = ended false ∨ (a = ended true ∧ Absent hit v) ∨
        ∃ z u, Reaches hit v z ∧ take.out (tape.cut u z) = .ok (a, p) := by
  intro u a p h
  rw [iterate, out_bind_ok (out_get _)] at h
  refine loop_rel (R := fun _ s a p => ∀ u v, s = tape.cut u v →
    a = stuck ∨ a = ended false ∨ (a = ended true ∧ Absent hit v) ∨
      ∃ z u, Reaches hit v z ∧ take.out (tape.cut u z) = .ok (a, p)) ?_ ?_ h u v rfl
  · rintro _ s b p hb u v rfl
    rcases ends_memberRound hs _ _ _ hb with hb | hb
      | ⟨k, w, hn, hh, x, y, hsk, ⟨hy, hb⟩ | ⟨-, hb, -⟩⟩
      | ⟨k, w, hn, hh, a, u', hb, ho⟩
    · cases hb
      exact .inl rfl
    · cases hb
      exact .inr (.inl rfl)
    · cases hb
      exact .inr (.inr (.inl ⟨rfl, .last hn hh hsk hy⟩))
    · cases hb
    · cases hb
      exact .inr (.inr (.inr ⟨_, u', .here hn hh, ho⟩))
  · rintro _ s g p₁ b p hb ih u v rfl
    rcases ends_memberRound hs _ _ _ hb with hb | hb
      | ⟨k, w, hn, hh, x, y, hsk, ⟨-, hb⟩ | ⟨hy, -, u', rfl⟩⟩
      | ⟨k, w, hn, hh, a, u', hb, ho⟩
    · cases hb
    · cases hb
    · cases hb
    · rcases ih u' y rfl with hb | hb | ⟨hb, ha⟩ | ⟨z, u₁, hr, ho⟩
      · exact .inl hb
      · exact .inr (.inl hb)
      · exact .inr (.inr (.inl ⟨hb, .later hn hh hsk hy ha⟩))
      · exact .inr (.inr (.inr ⟨z, u₁, .later hn hh hsk hy hr, ho⟩))
    · cases hb

end JsonParser

end MongrelDB
