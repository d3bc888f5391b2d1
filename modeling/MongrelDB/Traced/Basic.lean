import Mathlib.Tactic.Common

/-!
# Programs that log what they do

A `Run` ends with a value or stops early, and carries the log of the events it caused. A `Prog` is
a stateful program whose runs are of that kind. What a program computes (`out`) and what it does on
the way (`log`) are projections of the same run, so a functional specification can ignore the log,
and a statement about every single step of a run can be made about the log.

Loops are iterated with a bound on the number of rounds; `loop_meets` discharges the bound from a
variant that decreases in every round.
-/

namespace Traced

variable {ω ε σ α β γ : Type}

/-! ### Runs -/

structure Run (ω ε α : Type) where
  log : List ω
  out : Except ε α

namespace Run

def bind (x : Run ω ε α) (f : α → Run ω ε β) : Run ω ε β :=
  match x.out with
  | .ok a => ⟨x.log ++ (f a).log, (f a).out⟩
  | .error e => ⟨x.log, .error e⟩

instance : Monad (Run ω ε) where
  pure a := ⟨[], .ok a⟩
  bind := bind

def emit (e : ω) : Run ω ε Unit := ⟨[e], .ok ()⟩

def stop (e : ε) : Run ω ε α := ⟨[], .error e⟩

/-- What the run ends with is replaced, where a stop is caught for instance. -/
def mapOut (f : Except ε α → Except ε β) (x : Run ω ε α) : Run ω ε β := ⟨x.log, f x.out⟩

/-- The run goes on with its value, or with the handler of what it stopped with. -/
def handle {ε' : Type} (x : Run ω ε α) (handler : ε → Run ω ε' β) (rest : α → Run ω ε' β) :
    Run ω ε' β :=
  let y := match x.out with
    | .ok a => rest a
    | .error e => handler e
  ⟨x.log ++ y.log, y.out⟩

@[simp] lemma out_pure (a : α) : (pure a : Run ω ε α).out = .ok a := rfl

@[simp] lemma out_emit (e : ω) : (emit e : Run ω ε Unit).out = .ok () := rfl

@[simp] lemma out_stop (e : ε) : (stop e : Run ω ε α).out = .error e := rfl

lemma out_bind_ok {x : Run ω ε α} {a : α} (h : x.out = .ok a) (f : α → Run ω ε β) :
    (x >>= f).out = (f a).out := by
  change (bind x f).out = _
  simp [bind, h]

lemma out_bind_error {x : Run ω ε α} {e : ε} (h : x.out = .error e) (f : α → Run ω ε β) :
    (x >>= f).out = .error e := by
  change (bind x f).out = _
  simp [bind, h]

lemma mem_log_bind {x : Run ω ε α} {f : α → Run ω ε β} {e : ω} :
    e ∈ (x >>= f).log ↔ e ∈ x.log ∨ ∃ a, x.out = .ok a ∧ e ∈ (f a).log := by
  change e ∈ (bind x f).log ↔ _
  cases hx : x.out with
  | error e => simp [bind, hx]
  | ok a => simp [bind, hx]

/-- What holds of every event of the run, and of the value or the stop it ends with. -/
structure Meets (x : Run ω ε α) (safe : ω → Prop) (good : α → Prop) (bad : ε → Prop) : Prop where
  log : ∀ e ∈ x.log, safe e
  ok : ∀ a, x.out = .ok a → good a
  error : ∀ e, x.out = .error e → bad e

variable {safe : ω → Prop} {bad : ε → Prop}

lemma meets_pure {a : α} {good : α → Prop} (h : good a) :
    (pure a : Run ω ε α).Meets safe good bad :=
  ⟨by simp [pure], by rintro _ ⟨⟩; exact h, by rintro _ ⟨⟩⟩

lemma meets_emit {e : ω} {good : Unit → Prop} (he : safe e) (h : good ()) :
    (emit e : Run ω ε Unit).Meets safe good bad :=
  ⟨by simpa [emit] using he, by rintro _ ⟨⟩; exact h, by rintro _ ⟨⟩⟩

lemma meets_stop {e : ε} {good : α → Prop} (h : bad e) :
    (stop e : Run ω ε α).Meets safe good bad :=
  ⟨by simp [stop], by rintro _ ⟨⟩, by rintro _ ⟨⟩; exact h⟩

lemma Meets.bind {x : Run ω ε α} {f : α → Run ω ε β} {good : α → Prop} {good' : β → Prop}
    (hx : x.Meets safe good bad) (hf : ∀ a, good a → (f a).Meets safe good' bad) :
    (x >>= f).Meets safe good' bad := by
  change (Run.bind x f).Meets safe good' bad
  cases ho : x.out with
  | error e =>
    have hb : Run.bind x f = ⟨x.log, .error e⟩ := by simp [Run.bind, ho]
    rw [hb]
    exact ⟨hx.log, by rintro _ ⟨⟩, by rintro _ ⟨⟩; exact hx.error e ho⟩
  | ok a =>
    have hb : Run.bind x f = ⟨x.log ++ (f a).log, (f a).out⟩ := by simp [Run.bind, ho]
    have ha := hf a (hx.ok a ho)
    rw [hb]
    refine ⟨fun e he => ?_, ha.ok, ha.error⟩
    rcases List.mem_append.mp he with he | he
    · exact hx.log e he
    · exact ha.log e he

lemma Meets.mono {x : Run ω ε α} {good good' : α → Prop} (hx : x.Meets safe good bad)
    (h : ∀ a, good a → good' a) : x.Meets safe good' bad :=
  ⟨hx.log, fun a ha => h a (hx.ok a ha), hx.error⟩

end Run

/-! ### Stateful programs -/

def Prog (σ ω ε α : Type) := σ → Run ω ε (α × σ)

namespace Prog

instance : Monad (Prog σ ω ε) where
  pure a := fun s => pure (a, s)
  bind x f := fun s => x s >>= fun r => f r.1 r.2

/-- What the program computes from a state. -/
def out (x : Prog σ ω ε α) (s : σ) : Except ε (α × σ) := (x s).out

def get : Prog σ ω ε σ := fun s => pure (s, s)

def set (s : σ) : Prog σ ω ε Unit := fun _ => pure ((), s)

def emit (e : ω) : Prog σ ω ε Unit := fun s => do
  Run.emit e
  pure ((), s)

def stop (e : ε) : Prog σ ω ε α := fun _ => Run.stop e

@[simp] lemma out_pure (a : α) (s : σ) : (pure a : Prog σ ω ε α).out s = .ok (a, s) := rfl

@[simp] lemma out_get (s : σ) : (get : Prog σ ω ε σ).out s = .ok (s, s) := rfl

@[simp] lemma out_set (s s' : σ) : (set s' : Prog σ ω ε Unit).out s = .ok ((), s') := rfl

@[simp] lemma out_emit (e : ω) (s : σ) : (emit e : Prog σ ω ε Unit).out s = .ok ((), s) := rfl

@[simp] lemma out_stop (e : ε) (s : σ) : (stop e : Prog σ ω ε α).out s = .error e := rfl

lemma out_bind_ok {x : Prog σ ω ε α} {f : α → Prog σ ω ε β} {s s' : σ} {a : α}
    (h : x.out s = .ok (a, s')) : (x >>= f).out s = (f a).out s' :=
  Run.out_bind_ok h _

lemma out_bind_error {x : Prog σ ω ε α} {f : α → Prog σ ω ε β} {s : σ} {e : ε}
    (h : x.out s = .error e) : (x >>= f).out s = .error e :=
  Run.out_bind_error h _

/-- A run that ends with a value has ended its first part with one. -/
lemma out_bind_eq_ok {x : Prog σ ω ε α} {f : α → Prog σ ω ε β} {s s' : σ} {b : β}
    (h : (x >>= f).out s = .ok (b, s')) :
    ∃ a s₁, x.out s = .ok (a, s₁) ∧ (f a).out s₁ = .ok (b, s') := by
  cases hx : x.out s with
  | error e => rw [out_bind_error hx] at h; cases h
  | ok r => exact ⟨r.1, r.2, rfl, by rwa [out_bind_ok hx] at h⟩

/-! ### Loops -/

/-- The end of a round: another one from a new loop variable, or the result of the loop. -/
inductive Round (γ β : Type) where
  | again (g : γ)
  | done (b : β)

/-- At most `n` rounds of `body`. Going into another round is logged with the states at the
beginning and at the end of the round. -/
def loop (spent : ε) (mark : σ → σ → ω) (body : γ → Prog σ ω ε (Round γ β)) :
    Nat → γ → Prog σ ω ε β
  | 0, _ => stop spent
  | n + 1, g => do
    let s ← get
    match ← body g with
    | .done b => pure b
    | .again g' =>
      emit (mark s (← get))
      loop spent mark body n g'

variable {spent : ε} {mark : σ → σ → ω} {body : γ → Prog σ ω ε (Round γ β)}

lemma out_loop_done {n : Nat} {g : γ} {s s' : σ} {b : β}
    (h : (body g).out s = .ok (.done b, s')) :
    (loop spent mark body (n + 1) g).out s = .ok (b, s') := by
  rw [loop, out_bind_ok (out_get s), out_bind_ok h]
  rfl

lemma out_loop_again {n : Nat} {g g' : γ} {s s' : σ} (h : (body g).out s = .ok (.again g', s')) :
    (loop spent mark body (n + 1) g).out s = (loop spent mark body n g').out s' := by
  rw [loop, out_bind_ok (out_get s), out_bind_ok h]
  simp only
  rw [out_bind_ok (out_get s'), out_bind_ok (out_emit _ s')]

lemma out_loop_error {n : Nat} {g : γ} {s : σ} {e : ε} (h : (body g).out s = .error e) :
    (loop spent mark body (n + 1) g).out s = .error e := by
  rw [loop, out_bind_ok (out_get s), out_bind_error h]

/-- A round that is sure to be the last gives the loop its result. -/
lemma out_loop_last {x : Prog σ ω ε β} {n : Nat} {g : γ} {s s' : σ}
    (h : (body g).out s = (x >>= fun b => pure (.done b)).out s') :
    (loop spent mark body (n + 1) g).out s = x.out s' := by
  rcases hx : x.out s' with e | ⟨b, t⟩
  · rw [out_bind_error hx] at h
    exact out_loop_error h
  · rw [out_bind_ok hx] at h
    exact out_loop_done h

/-- What relates the ends of every loop that ends with a value: it relates the ends of a last
round, and it is carried backwards over a round that is not the last. -/
lemma loop_rel {R : γ → σ → β → σ → Prop}
    (hdone : ∀ g s b s', (body g).out s = .ok (.done b, s') → R g s b s')
    (hagain : ∀ g s g' s₁ b s', (body g).out s = .ok (.again g', s₁) → R g' s₁ b s' → R g s b s')
    {n : Nat} {g : γ} {s s' : σ} {b : β}
    (h : (loop spent mark body n g).out s = .ok (b, s')) : R g s b s' := by
  induction n generalizing g s with
  | zero => cases h
  | succ n ih =>
    cases hb : (body g).out s with
    | error e => rw [out_loop_error hb] at h; cases h
    | ok r =>
      obtain ⟨r, s₁⟩ := r
      cases r with
      | done b' =>
        rw [out_loop_done hb] at h
        cases h
        exact hdone g s b s' hb
      | again g' =>
        rw [out_loop_again hb] at h
        exact hagain g s g' s₁ b s' hb (ih h)

/-! ### Rules of pre- and postconditions -/

/-- From the state `s` every event is safe, a value comes with the postcondition, and a stop is one
of the allowed ones. -/
def Meets (x : Prog σ ω ε α) (s : σ) (safe : ω → Prop) (post : α → σ → Prop) (bad : ε → Prop) :
    Prop := (x s).Meets safe (fun r => post r.1 r.2) bad

variable {safe : ω → Prop} {bad : ε → Prop}

lemma meets_pure {a : α} {s : σ} {post : α → σ → Prop} (h : post a s) :
    (pure a : Prog σ ω ε α).Meets s safe post bad := Run.meets_pure h

lemma meets_get {s : σ} {post : σ → σ → Prop} (h : post s s) :
    (get : Prog σ ω ε σ).Meets s safe post bad := Run.meets_pure h

lemma meets_set {s s' : σ} {post : Unit → σ → Prop} (h : post () s') :
    (set s' : Prog σ ω ε Unit).Meets s safe post bad := Run.meets_pure h

lemma meets_emit {e : ω} {s : σ} {post : Unit → σ → Prop} (he : safe e) (h : post () s) :
    (emit e : Prog σ ω ε Unit).Meets s safe post bad :=
  Run.Meets.bind (Run.meets_emit he trivial) fun _ (_ : True) => Run.meets_pure h

lemma meets_get_eq {s : σ} :
    (get : Prog σ ω ε σ).Meets s safe (fun a s' => a = s ∧ s' = s) bad := meets_get ⟨rfl, rfl⟩

lemma meets_emit_eq {e : ω} {s : σ} (he : safe e) :
    (emit e : Prog σ ω ε Unit).Meets s safe (fun _ s' => s' = s) bad := meets_emit he rfl

lemma meets_stop {e : ε} {s : σ} {post : α → σ → Prop} (h : bad e) :
    (stop e : Prog σ ω ε α).Meets s safe post bad := Run.meets_stop h

lemma Meets.bind {x : Prog σ ω ε α} {f : α → Prog σ ω ε β} {s : σ} {post : α → σ → Prop}
    {post' : β → σ → Prop} (hx : x.Meets s safe post bad)
    (hf : ∀ a s', post a s' → (f a).Meets s' safe post' bad) :
    (x >>= f).Meets s safe post' bad :=
  Run.Meets.bind hx fun r hr => hf r.1 r.2 hr

lemma Meets.mono {x : Prog σ ω ε α} {s : σ} {post post' : α → σ → Prop}
    (hx : x.Meets s safe post bad) (h : ∀ a s', post a s' → post' a s') :
    x.Meets s safe post' bad :=
  Run.Meets.mono hx fun r hr => h r.1 r.2 hr

/-- The loop rule: an invariant, and a variant that every further round makes smaller. -/
lemma loop_meets {I : γ → σ → Prop} {μ : σ → Nat} {post : β → σ → Prop}
    (hbody : ∀ g s, I g s → (body g).Meets s safe (fun r s' => match r with
      | .done b => post b s'
      | .again g' => I g' s' ∧ safe (mark s s') ∧ μ s' < μ s) bad)
    {n : Nat} {g : γ} {s : σ} (hI : I g s) (hn : μ s < n) :
    (loop spent mark body n g).Meets s safe post bad := by
  induction n generalizing g s with
  | zero => exact absurd hn (Nat.not_lt_zero _)
  | succ n ih =>
    rw [loop]
    refine meets_get_eq.bind ?_
    rintro _ _ ⟨rfl, rfl⟩
    refine (hbody g _ hI).bind fun r s' hr => ?_
    cases r with
    | done b => exact meets_pure hr
    | again g' =>
      obtain ⟨hI', hsafe, hμ⟩ := hr
      refine meets_get_eq.bind ?_
      rintro a s₁ ⟨ha, hs₁⟩
      rw [ha, hs₁]
      refine (meets_emit_eq hsafe).bind ?_
      rintro _ s₂ hs₂
      rw [hs₂]
      exact ih hI' (by omega)

end Prog

end Traced
