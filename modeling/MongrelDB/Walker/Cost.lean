import MongrelDB.Traced.Credit
import MongrelDB.Walker.RowSafety

/-!
# Every walk takes a number of steps that is linear in the text

A step is a read, a move of the cursor, an assignment to the flag, a substring, each byte that a
substring copies, a further round or a nested call. `Costs k b x p` says that the walk `x` from the
state `p` takes at most `k` steps for each byte it moves over and `b` more, and no more than `k`
steps for each byte that is left and `b` more if it stops early.
-/

namespace MongrelDB

open Text Traced Prog JsonParser

/-- Every event is one step, and a substring one more for each byte that it copies. -/
def step : Event → Nat
  | .substr start len size => 1 + min len (size - start)
  | _ => 1

variable {α β γ : Type} {p : JsonParser} {k b : Nat}

def Costs (k b : Nat) (x : Walk α) (p : JsonParser) : Prop :=
  p.i ≤ p.s.length → ∀ c, k * (p.s.length - p.i) + b ≤ c → x.Pays step p c fun _ p' c' =>
    c + k * (p'.s.length - p'.i) ≤ c' + k * (p.s.length - p.i) + b

/-- The same of a round of a loop with an invariant, where going into another round is a step, and
where what is moved over pays for all of a round that is not the last. -/
def RoundCosts (k b : Nat) (I : γ → JsonParser → Prop) (x : Walk (Round γ β)) (p : JsonParser) :
    Prop :=
  p.i ≤ p.s.length → ∀ c, k * (p.s.length - p.i) + b ≤ c → x.Pays step p c fun r p' c' =>
    Onward p p' ∧ match r with
      | .done _ => c + k * (p'.s.length - p'.i) ≤ c' + k * (p.s.length - p.i) + b
      | .again g => I g p' ∧ c + k * (p'.s.length - p'.i) + 1 ≤ c' + k * (p.s.length - p.i)

lemma Onward.bounds {p p' : JsonParser} (h : Onward p p') :
    p.i ≤ p'.i ∧ p'.i ≤ p.s.length ∧ p'.s.length = p.s.length := by
  have hin := h.inText
  rw [h.text] at hin
  exact ⟨h.le, hin, by rw [h.text]⟩

lemma Costs.pays {x : Walk α} {c : Nat} {Q : α → JsonParser → Prop} (hx : Costs k b x p)
    (hs : Safe Stop.IsQueryException x p Q) (hp : p.i ≤ p.s.length)
    (hc : k * (p.s.length - p.i) + b ≤ c) :
    x.Pays step p c fun a p' c' => (Onward p p' ∧ Q a p') ∧
      c + k * (p'.s.length - p'.i) ≤ c' + k * (p.s.length - p.i) + b :=
  (hx hp c hc).and_meets (hs hp)

/-- A higher rate for what is moved over. -/
lemma Costs.mono {k' b' : Nat} {x : Walk α} {Q : α → JsonParser → Prop} (hx : Costs k b x p)
    (hs : Safe Stop.IsQueryException x p Q) (hk : k ≤ k') (hb : b ≤ b') : Costs k' b' x p := by
  intro hp c hc
  have hrest : k * (p.s.length - p.i) ≤ k' * (p.s.length - p.i) := Nat.mul_le_mul_right _ hk
  apply (hx.pays hs hp (by omega)).mono
  intro a p' c' ⟨⟨ho, _⟩, hc'⟩
  obtain ⟨d, rfl⟩ := Nat.exists_eq_add_of_le hk
  have hle : d * (p'.s.length - p'.i) ≤ d * (p.s.length - p.i) := by
    have := ho.bounds
    exact Nat.mul_le_mul_left d (by omega)
  rw [Nat.add_mul, Nat.add_mul]
  omega

namespace JsonParser

end JsonParser

end MongrelDB
