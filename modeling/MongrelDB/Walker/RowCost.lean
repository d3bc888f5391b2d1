import MongrelDB.Walker.Cost

/-!
# The scans and the decoders are linear

A round that moves the cursor can be charged to what it moves over, at a rate that its own steps
add to. Each level of the row walker charges its rounds in this way, so that the rate grows with the
number of levels and not with the text.
-/

namespace MongrelDB

open Text Traced Prog JsonParser

variable {α β γ : Type} {p : JsonParser} {k b : Nat}

/-- A round pays for its steps with what it moves over, if it is to go on. Its own price per byte is
raised by what a round costs that moves over nothing. -/
lemma Costs.round {x : Walk (Round γ β)} (hx : Costs k b x p)
    (hs : Safe Stop.IsQueryException x p (Moves p)) :
    RoundCosts (k + b + 1) b (fun _ _ => True) x p := by
  intro hp c hc
  have hrest : k * (p.s.length - p.i) ≤ (k + b + 1) * (p.s.length - p.i) :=
    Nat.mul_le_mul_right _ (by omega)
  apply (hx.pays hs hp (by omega)).mono
  intro r p' c' ⟨⟨ho, hr⟩, hc'⟩
  have hbounds := ho.bounds
  have hle : (b + 1) * (p'.s.length - p'.i) ≤ (b + 1) * (p.s.length - p.i) :=
    Nat.mul_le_mul_left _ (by omega)
  refine ⟨ho, ?_⟩
  cases r with
  | done b =>
    rw [Nat.add_assoc, Nat.add_mul k, Nat.add_mul k]
    simp only
    omega
  | again g =>
    have hlt : p.i < p'.i := hr
    have hlt : (b + 1) * (p'.s.length - p'.i) + (b + 1) ≤ (b + 1) * (p.s.length - p.i) := by
      rw [← Nat.mul_succ]
      exact Nat.mul_le_mul_left _ (by omega)
    rw [Nat.add_assoc, Nat.add_mul k, Nat.add_mul k]
    exact ⟨trivial, by omega⟩

section Scan

variable {here : Bytes → Walk Bool} {H : JsonParser → Prop}

end Scan

/-! ### Extractors -/

end MongrelDB
