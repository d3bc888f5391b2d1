import MongrelDB.Traced.Basic
import Mathlib.Algebra.GroupWithZero.Nat

/-!
# Programs that pay for what they do

Every event has a price. A program is given a number of credits and pays for the events it logs; a
postcondition may speak about the credits that are left. A bound on the price of a whole run is
proved step by step, and a loop is paid for by an invariant that says how many credits each of its
rounds finds.
-/

namespace Traced

variable {ω ε σ α β γ : Type} {price : ω → Nat}

namespace Run

/-- The price of the events of the run. -/
def cost (price : ω → Nat) (x : Run ω ε α) : Nat := (x.log.map price).sum

@[simp] lemma cost_stop (e : ε) : (stop e : Run ω ε α).cost price = 0 := rfl

@[simp] lemma cost_emit (e : ω) : (emit e : Run ω ε Unit).cost price = price e := by
  simp [cost, emit]

lemma cost_bind_ok {x : Run ω ε α} {a : α} (h : x.out = .ok a) (f : α → Run ω ε β) :
    (x >>= f).cost price = x.cost price + (f a).cost price := by
  change (bind x f).cost price = _
  simp [bind, h, cost]

lemma cost_bind_error {x : Run ω ε α} {e : ε} (h : x.out = .error e) (f : α → Run ω ε β) :
    (x >>= f).cost price = x.cost price := by
  change (bind x f).cost price = _
  simp [bind, h, cost]

/-- With `c` credits the run can be paid for, and the postcondition holds of the value and of the
credits that are left. -/
structure Pays (price : ω → Nat) (x : Run ω ε α) (c : Nat) (post : α → Nat → Prop) : Prop where
  cost_le : x.cost price ≤ c
  left : ∀ a, x.out = .ok a → post a (c - x.cost price)

variable {c : Nat}

/-- What is left after the first part pays for the second. -/
lemma Pays.bind {x : Run ω ε α} {f : α → Run ω ε β} {post : α → Nat → Prop}
    {post' : β → Nat → Prop} (hx : x.Pays price c post)
    (hf : ∀ a c', post a c' → (f a).Pays price c' post') : (x >>= f).Pays price c post' := by
  have hle := hx.cost_le
  cases ho : x.out with
  | error e =>
    constructor
    · rwa [cost_bind_error ho]
    · intro b hb
      rw [out_bind_error ho] at hb
      cases hb
  | ok a =>
    have ha := hf a _ (hx.left a ho)
    have hle' := ha.cost_le
    constructor
    · rw [cost_bind_ok ho]
      omega
    · intro b hb
      rw [out_bind_ok ho] at hb
      rw [cost_bind_ok ho, Nat.sub_add_eq]
      exact ha.left b hb

lemma Pays.mono {x : Run ω ε α} {post post' : α → Nat → Prop} (hx : x.Pays price c post)
    (h : ∀ a c', post a c' → post' a c') : x.Pays price c post' :=
  ⟨hx.cost_le, fun a ha => h a _ (hx.left a ha)⟩

/-- What else is known of the value. -/
lemma Pays.and_meets {x : Run ω ε α} {post : α → Nat → Prop} {safe : ω → Prop} {good : α → Prop}
    {bad : ε → Prop} (hx : x.Pays price c post) (h : x.Meets safe good bad) :
    x.Pays price c fun a c' => good a ∧ post a c' :=
  ⟨hx.cost_le, fun a ha => ⟨h.ok a ha, hx.left a ha⟩⟩

end Run

namespace Prog

/-- From the state `s` and with `c` credits. -/
def Pays (price : ω → Nat) (x : Prog σ ω ε α) (s : σ) (c : Nat) (post : α → σ → Nat → Prop) :
    Prop := (x s).Pays price c fun r => post r.1 r.2

variable {s : σ} {c : Nat}

lemma Pays.bind {x : Prog σ ω ε α} {f : α → Prog σ ω ε β} {post : α → σ → Nat → Prop}
    {post' : β → σ → Nat → Prop} (hx : x.Pays price s c post)
    (hf : ∀ a s' c', post a s' c' → (f a).Pays price s' c' post') :
    (x >>= f).Pays price s c post' :=
  Run.Pays.bind hx fun r c' hr => hf r.1 r.2 c' hr

lemma Pays.mono {x : Prog σ ω ε α} {post post' : α → σ → Nat → Prop} (hx : x.Pays price s c post)
    (h : ∀ a s' c', post a s' c' → post' a s' c') : x.Pays price s c post' :=
  Run.Pays.mono hx fun r c' hr => h r.1 r.2 c' hr

lemma Pays.and_meets {x : Prog σ ω ε α} {post : α → σ → Nat → Prop} {safe : ω → Prop}
    {good : α → σ → Prop} {bad : ε → Prop} (hx : x.Pays price s c post)
    (h : x.Meets s safe good bad) : x.Pays price s c fun a s' c' => good a s' ∧ post a s' c' :=
  Run.Pays.and_meets hx h

end Prog

end Traced
