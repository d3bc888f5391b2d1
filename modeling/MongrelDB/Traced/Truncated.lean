import MongrelDB.Traced.Basic

/-!
# Programs with a budget

A program that has a bound on something (the depth of a recursion, say) does the same as one with a
larger bound, unless it stops for want of it. `Truncates` says so of two programs, and it passes
through sequences, branches and loops.
-/

namespace Traced

variable {ω ε σ α β γ : Type}

namespace Prog

/-- The program `x` does what `y` does, or it stops with `e`. -/
def Truncates (e : ε) (x y : Prog σ ω ε α) : Prop := ∀ s, x.out s = .error e ∨ x s = y s

variable {e : ε} {x y z : Prog σ ω ε α} {f f' : α → Prog σ ω ε β}

lemma truncates_refl : Truncates e x x := fun _ => .inr rfl

lemma truncates_stop : Truncates e (stop e) y := fun _ => .inl rfl

lemma Truncates.trans (h : Truncates e x y) (h' : Truncates e y z) : Truncates e x z := by
  intro s
  rcases h s with hx | hx
  · exact .inl hx
  · rw [out, hx]
    exact h' s

lemma Truncates.bind (hx : Truncates e x y) (hf : ∀ a, Truncates e (f a) (f' a)) :
    Truncates e (x >>= f) (y >>= f') := by
  intro s
  rcases hx s with h | h
  · exact .inl (out_bind_error h)
  cases ho : x.out s with
  | error e' =>
    right
    have ho' : (y s).out = .error e' := h ▸ ho
    change Run.bind (x s) _ = Run.bind (y s) _
    rw [h]
    simp only [Run.bind, ho']
  | ok r =>
    obtain ⟨a, s'⟩ := r
    rcases hf a s' with hfa | hfa
    · exact .inl ((out_bind_ok ho).trans hfa)
    · right
      have ho' : (y s).out = .ok (a, s') := h ▸ ho
      change Run.bind (x s) _ = Run.bind (y s) _
      rw [h]
      simp only [Run.bind, ho', hfa]

lemma Truncates.ite {p : Prop} [Decidable p] {x' y' : Prog σ ω ε α} (h : Truncates e x y)
    (h' : Truncates e x' y') : Truncates e (if p then x else x') (if p then y else y') := by
  split
  · exact h
  · exact h'

lemma truncates_loop {spent : ε} {mark : σ → σ → ω} {body body' : γ → Prog σ ω ε (Round γ β)}
    (h : ∀ g, Truncates e (body g) (body' g)) (n : Nat) (g : γ) :
    Truncates e (loop spent mark body n g) (loop spent mark body' n g) := by
  induction n generalizing g with
  | zero => exact truncates_refl
  | succ n ih =>
    rw [loop, loop]
    apply truncates_refl.bind
    intro s
    apply (h g).bind
    intro r
    cases r with
    | done b => exact truncates_refl
    | again g' =>
      apply truncates_refl.bind
      intro s'
      apply truncates_refl.bind
      intro _
      exact ih g'

/-- A family of programs with budgets that each truncate the next. -/
lemma truncates_of_le {x : Nat → Prog σ ω ε α} (h : ∀ n, Truncates e (x n) (x (n + 1))) {m n : Nat}
    (hmn : m ≤ n) : Truncates e (x m) (x n) := by
  induction hmn with
  | refl => exact truncates_refl
  | step _ ih => exact ih.trans (h _)

end Prog

end Traced
