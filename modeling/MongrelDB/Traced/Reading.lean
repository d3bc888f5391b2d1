import MongrelDB.Traced.Basic

/-!
# What a program reads from a tape

A tape is a state with a part that has been read and a part that has not; a state may also be spoilt
by an error, which no program of interest mends. From the unread text `v`, a program `Steps` to a
value and the text it leaves unread, and it `Reads` a relation if its unspoilt runs from there are
exactly those that the relation allows. The rules follow the way programs are put together, so that
what a program reads can be found along its text.
-/

namespace Traced

variable {ω ε σ τ α β γ : Type}

structure Tape (σ τ : Type) where
  /-- the state between what has been read and what has not -/
  cut : List τ → List τ → σ
  /-- no error has happened -/
  good : σ → Prop

/-- The tape on which no state counts as spoilt: what a program reads on it is all that it can end
with. -/
def Tape.firm (tape : Tape σ τ) : Tape σ τ := ⟨tape.cut, fun _ => True⟩

namespace Prog

/-- A spoilt state stays spoilt. -/
def Flagged (tape : Tape σ τ) (x : Prog σ ω ε α) : Prop :=
  ∀ p a p', x.out p = .ok (a, p') → tape.good p' → tape.good p

/-- From the unread text `v` the program returns `a` and leaves `w` unread. -/
def Steps (tape : Tape σ τ) (x : Prog σ ω ε α) (v : List τ) (a : α) (w : List τ) : Prop :=
  ∃ t, v = t ++ w ∧ ∀ u, x.out (tape.cut u v) = .ok (a, tape.cut (u ++ t) w)

/-- From the unread text `v` the program goes on as `y` does from `w`. -/
def Leads (tape : Tape σ τ) (x : Prog σ ω ε α) (v : List τ) (y : Prog σ ω ε α) (w : List τ) :
    Prop :=
  ∃ t, v = t ++ w ∧ ∀ u, x.out (tape.cut u v) = y.out (tape.cut (u ++ t) w)

/-- From the unread text `v` the program returns values and leaves texts as `G` has them, or it
spoils the state or stops. -/
structure Reads (tape : Tape σ τ) (x : Prog σ ω ε α) (v : List τ) (G : α → List τ → Prop) :
    Prop where
  complete : ∀ a r, G a r → Steps tape x v a r
  sound : ∀ u a p, x.out (tape.cut u v) = .ok (a, p) → tape.good p → ∃ r, G a r

variable {tape : Tape σ τ} {x y : Prog σ ω ε α} {f : α → Prog σ ω ε β} {v w : List τ}

/-! ### Spoilt states -/

@[simp] lemma flagged_pure {a : α} : Flagged tape (pure a : Prog σ ω ε α) := by
  rintro p _ _ ⟨⟩ h
  exact h

lemma flagged_firm : Flagged tape.firm x := fun _ _ _ _ _ => trivial

@[simp] lemma flagged_get : Flagged tape (get : Prog σ ω ε σ) := by
  rintro p _ _ ⟨⟩ h
  exact h

@[simp] lemma flagged_emit {e : ω} : Flagged tape (emit e : Prog σ ω ε Unit) := by
  rintro p _ _ ⟨⟩ h
  exact h

@[simp] lemma flagged_stop {e : ε} : Flagged tape (stop e : Prog σ ω ε α) := by
  rintro p _ _ ⟨⟩

@[simp] lemma Flagged.bind (hx : Flagged tape x) (hf : ∀ a, Flagged tape (f a)) :
    Flagged tape (x >>= f) := by
  intro p b p' h hp'
  obtain ⟨a, p₁, h₁, h₂⟩ := out_bind_eq_ok h
  exact hx p a p₁ h₁ (hf a p₁ b p' h₂ hp')

@[simp] lemma Flagged.ite {c : Prop} [Decidable c] (hx : Flagged tape x) (hy : Flagged tape y) :
    Flagged tape (if c then x else y) := by
  split_ifs
  · exact hx
  · exact hy

@[simp] lemma flagged_loop {spent : ε} {mark : σ → σ → ω} {body : γ → Prog σ ω ε (Round γ β)}
    (hb : ∀ g, Flagged tape (body g)) (n : Nat) (g : γ) :
    Flagged tape (loop spent mark body n g) := by
  intro p b p' h
  exact loop_rel (R := fun _ s _ s' => tape.good s' → tape.good s)
    (fun g s b s' h => hb g s (.done b) s' h)
    (fun g s g' s₁ b s' h ih hs' => hb g s (.again g') s₁ h (ih hs')) h

/-! ### Rules -/

lemma steps_pure {a : α} : Steps tape (pure a : Prog σ ω ε α) v a v :=
  ⟨[], rfl, fun u => by rw [List.append_nil]; rfl⟩

lemma Steps.trans {a : α} {b : β} {r : List τ} (hx : Steps tape x v a w)
    (hf : Steps tape (f a) w b r) : Steps tape (x >>= f) v b r := by
  obtain ⟨t, hv, ht⟩ := hx
  obtain ⟨t', hw, ht'⟩ := hf
  refine ⟨t ++ t', by rw [hv, hw, List.append_assoc], fun u => ?_⟩
  rw [out_bind_ok (ht u), ht' (u ++ t), List.append_assoc]

lemma leads_refl : Leads tape x v x v := ⟨[], rfl, fun u => by rw [List.append_nil]⟩

lemma Steps.leads {a : α} {z : Prog σ ω ε β} {r : List τ} (hx : Steps tape x v a w)
    (hf : Leads tape (f a) w z r) : Leads tape (x >>= f) v z r := by
  obtain ⟨t, hv, ht⟩ := hx
  obtain ⟨t', hw, ht'⟩ := hf
  refine ⟨t ++ t', by rw [hv, hw, List.append_assoc], fun u => ?_⟩
  rw [out_bind_ok (ht u), ht' (u ++ t), List.append_assoc]

lemma Leads.trans {z : Prog σ ω ε α} {r : List τ} (hx : Leads tape x v y w)
    (hy : Leads tape y w z r) : Leads tape x v z r := by
  obtain ⟨t, hv, ht⟩ := hx
  obtain ⟨t', hw, ht'⟩ := hy
  exact ⟨t ++ t', by rw [hv, hw, List.append_assoc], fun u => by
    rw [ht u, ht' (u ++ t), List.append_assoc]⟩

lemma Leads.steps {a : α} {r : List τ} (hx : Leads tape x v y w) (hy : Steps tape y w a r) :
    Steps tape x v a r := by
  obtain ⟨t, hv, ht⟩ := hx
  obtain ⟨t', hw, ht'⟩ := hy
  exact ⟨t ++ t', by rw [hv, hw, List.append_assoc], fun u => by
    rw [ht u, ht' (u ++ t), List.append_assoc]⟩

lemma Reads.congr {G G' : α → List τ → Prop} (h : Reads tape x v G)
    (hG : ∀ a r, G a r ↔ G' a r) : Reads tape x v G' where
  complete a r hr := h.complete a r ((hG a r).mpr hr)
  sound u a p ho hp := (h.sound u a p ho hp).imp fun r => (hG a r).mp

lemma steps_emit {e : ω} : Steps tape (emit e : Prog σ ω ε Unit) v () v :=
  ⟨[], rfl, fun u => by rw [List.append_nil]; rfl⟩

lemma reads_stop {e : ε} : Reads tape (stop e : Prog σ ω ε α) v fun _ _ => False where
  complete _ _ := False.elim
  sound := by rintro u a p ⟨⟩

/-- A step that is known is the only one. -/
lemma Steps.reads {a : α} (h : Steps tape x v a w) :
    Reads tape x v fun b r => b = a ∧ r = w where
  complete := by
    rintro _ _ ⟨rfl, rfl⟩
    exact h
  sound u b p ho _ := by
    obtain ⟨t, -, ht⟩ := h
    rw [ht u] at ho
    cases ho
    exact ⟨w, rfl, rfl⟩

lemma reads_pure {a : α} : Reads tape (pure a : Prog σ ω ε α) v fun b r => b = a ∧ r = v :=
  steps_pure.reads

/-- What is known of the first step is used up by it. -/
lemma Steps.bind {a : α} {G : β → List τ → Prop} (hx : Steps tape x v a w)
    (hf : Reads tape (f a) w G) : Reads tape (x >>= f) v G where
  complete b r hr := hx.trans (hf.complete b r hr)
  sound u b p h hp := by
    obtain ⟨t, -, ht⟩ := hx
    rw [out_bind_ok (ht u)] at h
    exact hf.sound (u ++ t) b p h hp

lemma Reads.bind {G : α → List τ → Prop} {H : α → List τ → β → List τ → Prop}
    (hx : Reads tape x v G) (hflag : ∀ a, Flagged tape (f a))
    (hf : ∀ a w, G a w → Reads tape (f a) w (H a w)) :
    Reads tape (x >>= f) v fun b r => ∃ a w, G a w ∧ H a w b r where
  complete := by
    rintro b r ⟨a, w, hg, hh⟩
    exact (hx.complete a w hg).trans ((hf a w hg).complete b r hh)
  sound u b p h hp := by
    obtain ⟨a, p₁, h₁, h₂⟩ := out_bind_eq_ok h
    obtain ⟨w, hg⟩ := hx.sound u a p₁ h₁ (hflag a _ _ _ h₂ hp)
    obtain ⟨t, -, ht⟩ := hx.complete a w hg
    rw [ht u] at h₁
    cases h₁
    obtain ⟨r, hr⟩ := (hf a w hg).sound _ _ _ h₂ hp
    exact ⟨r, a, w, hg, hr⟩

/-- On the firm tape nothing is lost between two steps. -/
lemma Reads.bind_firm {G : α → List τ → Prop} {H : α → List τ → β → List τ → Prop}
    (hx : Reads tape.firm x v G) (hf : ∀ a w, G a w → Reads tape.firm (f a) w (H a w)) :
    Reads tape.firm (x >>= f) v fun b r => ∃ a w, G a w ∧ H a w b r :=
  hx.bind (fun _ => flagged_firm) hf

/-- What a program ends with on the firm tape is what it reads. -/
lemma Reads.exists_of_out {G : α → List τ → Prop} (hx : Reads tape.firm x v G) {u : List τ} {a : α}
    {p : σ} (h : x.out (tape.cut u v) = .ok (a, p)) : ∃ r, G a r := hx.sound u a p h trivial

/-- A first step that cannot succeed. -/
lemma Reads.bind_false (hx : Reads tape x v fun _ _ => False) (hflag : ∀ a, Flagged tape (f a)) :
    Reads tape (x >>= f) v fun _ _ => False :=
  (hx.bind (H := fun _ _ _ _ => False) hflag fun _ _ h => h.elim).congr fun _ _ => by simp

/-! ### Loops -/

/-- The rounds of a loop, from the first to the one that is done. -/
inductive Rounds (B : γ → List τ → Round γ β → List τ → Prop) : γ → List τ → β → List τ → Prop
  | done {g v b r} : B g v (.done b) r → Rounds B g v b r
  | again {g g' v w b r} : B g v (.again g') w → Rounds B g' w b r → Rounds B g v b r

variable {spent : ε} {mark : σ → σ → ω} {body : γ → Prog σ ω ε (Round γ β)}
  {B : γ → List τ → Round γ β → List τ → Prop}

/-- A bound that exceeds the length of the text is never reached if every further round reads. -/
lemma out_loop_of_rounds {I : List τ → Prop} (hb : ∀ g v, I v → Reads tape (body g) v (B g v))
    (hI : ∀ g v g' w, I v → B g v (.again g') w → I w ∧ w.length < v.length) {g : γ} {v r : List τ}
    {b : β} (h : Rounds B g v b r) (hv : I v) :
    ∃ t, v = t ++ r ∧ ∀ u n, v.length < n →
      (loop spent mark body n g).out (tape.cut u v) = .ok (b, tape.cut (u ++ t) r) := by
  induction h with
  | done h =>
    obtain ⟨t, hv, ht⟩ := (hb _ _ hv).complete _ _ h
    refine ⟨t, hv, fun u n hn => ?_⟩
    obtain ⟨n, rfl⟩ : ∃ k, n = k + 1 := ⟨n - 1, by omega⟩
    exact out_loop_done (ht u)
  | again h _ ih =>
    obtain ⟨hw, hlt⟩ := hI _ _ _ _ hv h
    obtain ⟨t, hv, ht⟩ := (hb _ _ hv).complete _ _ h
    obtain ⟨t', hw, ht'⟩ := ih hw
    refine ⟨t ++ t', by rw [hv, hw, List.append_assoc], fun u n hn => ?_⟩
    obtain ⟨n, rfl⟩ : ∃ k, n = k + 1 := ⟨n - 1, by omega⟩
    rw [out_loop_again (ht u), ht' (u ++ t) n (by omega), List.append_assoc]

lemma rounds_of_out_loop {I : List τ → Prop} (hb : ∀ g v, I v → Reads tape (body g) v (B g v))
    (hI : ∀ g v g' w, I v → B g v (.again g') w → I w) (hflag : ∀ g, Flagged tape (body g))
    {n : Nat} {g : γ} {p p' : σ} {b : β}
    (h : (loop spent mark body n g).out p = .ok (b, p')) (hp' : tape.good p') :
    ∀ u v, p = tape.cut u v → I v → ∃ r, Rounds B g v b r := by
  refine (loop_rel (R := fun g s b s' => tape.good s' → tape.good s ∧ ∀ u v, s = tape.cut u v →
    I v → ∃ r, Rounds B g v b r) ?_ ?_ h hp').2
  · intro g s b s' h hs'
    refine ⟨hflag g _ _ _ h hs', fun u v hs hv => ?_⟩
    subst hs
    obtain ⟨r, hB⟩ := (hb g v hv).sound u _ _ h hs'
    exact ⟨r, .done hB⟩
  · intro g s g' s₁ b s' h ih hs'
    obtain ⟨hs₁, ih⟩ := ih hs'
    refine ⟨hflag g _ _ _ h hs₁, fun u v hs hv => ?_⟩
    subst hs
    obtain ⟨w, hB⟩ := (hb g v hv).sound u _ _ h hs₁
    obtain ⟨t, -, ht⟩ := (hb g v hv).complete _ _ hB
    rw [ht u] at h
    cases h
    obtain ⟨r, hR⟩ := ih _ _ rfl (hI g v g' w hv hB)
    exact ⟨r, .again hB hR⟩

end Prog

end Traced
