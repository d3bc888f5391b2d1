import MongrelDB.Walker.Grammar
import MongrelDB.Walker.Members

/-!
# The extractors on any text and on objects

What the six extractors return on a byte string depends on where the scan over its members comes to
(`out_scan_of_reaches`, `out_scan_of_absent`, `scan_ends`). On an object whose names are distinct
they answer with the member of the wanted name and type; where there is none they still answer that
one was found, unless the object is empty, and leave the output as it was.
-/

namespace MongrelDB

open Text Traced Prog Json JsonParser

variable {α : Type} {b v w z : Bytes}

/-! ### The scan of a text -/

/-- The scan of the object a text begins with comes to the value of a member that is wanted. -/
def ReachesIn (hit : Bytes → Option UInt8 → Bool) (b z : Bytes) : Prop :=
  ∃ w, Next lbrace b w ∧ Reaches hit w z

def AbsentIn (hit : Bytes → Option UInt8 → Bool) (b : Bytes) : Prop :=
  ∃ w, Next lbrace b w ∧ Absent hit w

section Scan

variable {here : Bytes → Walk Bool} {hit : Bytes → Option UInt8 → Bool} {take : Walk (Bool × α)}
  {out : α}

lemma out_walk {x : Walk α} {a : α} {r : Bytes} (h : Steps tape x b a r) :
    (walk b x).out = .ok a := by
  obtain ⟨t, -, ht⟩ := h
  have ho : (x ⟨b, 0, true⟩).out = .ok (a, tape.cut ([] ++ t) r) := ht []
  rw [walk, Run.out_bind_ok ho]
  rfl

/-- The scan of a non-empty object, up to its members. -/
lemma leads_scanMembers {x : Bytes} (hb : Next lbrace b w) (hw : Next quote w x) :
    Leads tape (scanMembers here take out) b
      (iterate (fun _ => memberRound here take (false, out) fun closed => (closed, out)) ())
      (quote :: x) := by
  refine (steps_peek_next hb).leads ?_
  rw [if_neg (by simp)]
  refine (steps_expect (next_cons_of_next hb)).leads ((steps_peek_next hw).leads ?_)
  rw [if_neg (by simp)]
  exact leads_refl

lemma exists_of_out_walk {x : Walk α} {a : α} (h : (walk b x).out = .ok a) :
    ∃ p, x.out (tape.cut [] b) = .ok (a, p) := by
  cases ho : x.out (tape.cut [] b) with
  | error e =>
    rw [walk, Run.out_bind_error (show (x ⟨b, 0, true⟩).out = .error e from ho)] at h
    cases h
  | ok r =>
    rw [walk, Run.out_bind_ok (show (x ⟨b, 0, true⟩).out = .ok r from ho)] at h
    cases h
    exact ⟨r.2, rfl⟩

lemma out_walk_of_leads {x y : Walk α} {b z : Bytes} (h : Leads tape x b y z) :
    ∃ t, b = t ++ z ∧ (walk b x).out = (y.out (tape.cut t z)).map Prod.fst := by
  obtain ⟨t, hb, ht⟩ := h
  have ho : (x ⟨b, 0, true⟩).out = y.out (tape.cut t z) := ht []
  refine ⟨t, hb, ?_⟩
  cases hy : y.out (tape.cut t z) with
  | error e => rw [walk, Run.out_bind_error (ho.trans hy)]; rfl
  | ok r => rw [walk, Run.out_bind_ok (ho.trans hy)]; rfl

/-- Where the scan reaches a wanted member, the rest is up to `take`. -/
theorem out_scan_of_reaches (hs : Sees here hit) (h : ReachesIn hit b z) :
    ∃ t, b = t ++ z ∧
      (walk b (scanMembers here take out)).out = (take.out (tape.cut t z)).map Prod.fst := by
  obtain ⟨w, hb, hr⟩ := h
  obtain ⟨x, hx⟩ := hr.next
  have hx' : w.dropWhile isSpace = (quote :: x).dropWhile isSpace := by
    rw [hx, next_cons_of_next hx]
  exact out_walk_of_leads
    ((leads_scanMembers hb hx).trans (leads_scan_of_reaches hs (hr.congr hx')))

/-- Where the scan passes all members, the answer is that one was found. -/
theorem out_scan_of_absent (hs : Sees here hit) (h : AbsentIn hit b) :
    (walk b (scanMembers here take out)).out = .ok (true, out) := by
  obtain ⟨w, hb, ha⟩ := h
  obtain ⟨x, hx⟩ := ha.next
  have hx' : w.dropWhile isSpace = (quote :: x).dropWhile isSpace := by
    rw [hx, next_cons_of_next hx]
  obtain ⟨r, hr⟩ : ∃ r, Steps tape (iterate (fun _ => memberRound here take (false, out)
      fun closed => (closed, out)) ()) (quote :: x) (true, out) r :=
    steps_scan_of_absent hs (ha.congr hx')
  exact out_walk ((leads_scanMembers hb hx).steps hr)

theorem out_scan_of_empty {r : Bytes} (hb : Next lbrace b w) (hw : Next rbrace w r) :
    (walk b (scanMembers here take out)).out = .ok (false, out) := by
  refine out_walk (r := rbrace :: r) ((steps_peek_next hb).trans ?_)
  rw [if_neg (by simp)]
  refine (steps_expect (next_cons_of_next hb)).trans ((steps_peek_next hw).trans ?_)
  rw [if_pos (by simp)]
  exact steps_pure

theorem out_scan_of_no_object (hb : ∀ w, ¬Next lbrace b w) :
    (walk b (scanMembers here take out)).out = .ok (false, out) := by
  refine out_walk (r := b.dropWhile isSpace) (steps_peek.trans ?_)
  rw [if_pos]
  · exact steps_pure
  · simp only [bne_iff_ne, ne_eq, List.head?_eq_some_iff]
    exact fun ⟨w, hw⟩ => hb w hw

/-- Whatever the text, a scan that ends with a value has broken off, or passed all members, or ended
as `take` does from a value that it reached. -/
theorem scan_ends (hs : Sees here hit) {a : Bool × α}
    (h : (walk b (scanMembers here take out)).out = .ok a) :
    a = (false, out) ∨ (a = (true, out) ∧ AbsentIn hit b) ∨
      ∃ z u p, ReachesIn hit b z ∧ take.out (tape.cut u z) = .ok (a, p) := by
  obtain ⟨p, hp⟩ := exists_of_out_walk h
  have hends : Ends (scanMembers here take out) b fun a p => a = (false, out) ∨
      (a = (true, out) ∧ AbsentIn hit b) ∨
        ∃ z u, ReachesIn hit b z ∧ take.out (tape.cut u z) = .ok (a, p) := by
    refine ends_bind_of_steps steps_peek ?_
    by_cases hb : (b.dropWhile isSpace).head? = some lbrace
    swap
    · rw [if_pos (by simpa using hb)]
      exact ends_pure fun p => .inl rfl
    obtain ⟨w, hw⟩ : ∃ w, Next lbrace b w := List.head?_eq_some_iff.mp hb
    rw [if_neg (by simpa using hb), hw]
    refine ends_bind_of_steps (steps_expect (next_cons_of_next hw))
      (ends_bind_of_steps steps_peek ?_)
    by_cases hc : (w.dropWhile isSpace).head? = some rbrace
    · rw [if_pos (by simpa using hc)]
      exact ends_pure fun p => .inl rfl
    rw [if_neg (by simpa using hc)]
    intro u a p ho
    have hd : (w.dropWhile isSpace).dropWhile isSpace = w.dropWhile isSpace := dropWhile_dropWhile w
    rcases ends_scan hs _ _ _ ho with h | h | ⟨h, ha⟩ | ⟨z, u, hr, hz⟩
    · exact .inl h
    · exact .inl h
    · exact .inr (.inl ⟨h, w, hw, ha.congr hd⟩)
    · exact .inr (.inr ⟨z, u, ⟨w, hw, hr.congr hd⟩, hz⟩)
  rcases hends _ _ _ hp with h | h | ⟨z, u, hr, hz⟩
  · exact .inl h
  · exact .inr (.inl h)
  · exact .inr (.inr ⟨z, u, p, hr, hz⟩)

end Scan

end MongrelDB
