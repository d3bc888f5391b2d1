import MongrelDB.Traced.Basic

/-!
# Sessions with a server

An operation is a run that is given an oracle for the answers to its requests and that logs the
requests it makes. In a session the operations are run one after the other against a server, which
has a state that every request changes.

The abstract counterpart of an operation is an `Exchange`, which makes one request at most. A
session of operations that refine exchanges is a session of these exchanges (`play_eq`), so that
what the server receives is known from the operations alone.
-/

namespace Traced

variable {ω ε σ ρ τ ι α β γ : Type}

/-! ### Requests of a run -/

namespace Run

protected lemma bind_assoc (x : Run ω ε α) (f : α → Run ω ε β) (g : β → Run ω ε γ) :
    x >>= f >>= g = x >>= fun a => f a >>= g := by
  obtain ⟨log, out⟩ := x
  cases out with
  | error e => rfl
  | ok a => cases hf : (f a).out <;> simp [Bind.bind, bind, hf]

protected lemma bind_pure (x : Run ω ε α) : x >>= pure = x := by
  obtain ⟨log, out⟩ := x
  cases out <;> simp [Bind.bind, bind, pure]

lemma out_bind_eq_ok {x : Run ω ε α} {f : α → Run ω ε β} {b : β} (h : (x >>= f).out = .ok b) :
    ∃ a, x.out = .ok a ∧ (f a).out = .ok b := by
  cases hx : x.out with
  | error e =>
    rw [out_bind_error hx] at h
    cases h
  | ok a => exact ⟨a, rfl, (out_bind_ok hx f).symm.trans h⟩

lemma handle_ok {ε' : Type} {x : Run ω ε α} {a : α} (h : x.out = .ok a)
    (handler : ε → Run ω ε' β) (rest : α → Run ω ε' β) :
    x.handle handler rest = ⟨x.log ++ (rest a).log, (rest a).out⟩ := by
  simp [handle, h]

lemma handle_error {ε' : Type} {x : Run ω ε α} {e : ε} (h : x.out = .error e)
    (handler : ε → Run ω ε' β) (rest : α → Run ω ε' β) :
    x.handle handler rest = ⟨x.log ++ (handler e).log, (handler e).out⟩ := by
  simp [handle, h]

variable {asks : ω → Option ρ}

/-- The requests that the run makes, in order. -/
def sent (asks : ω → Option ρ) (x : Run ω ε α) : List ρ := x.log.filterMap asks

@[simp] lemma sent_pure (a : α) : (pure a : Run ω ε α).sent asks = [] := rfl

@[simp] lemma sent_stop (e : ε) : (stop e : Run ω ε α).sent asks = [] := rfl

lemma sent_eq_nil {x : Run ω ε α} (h : ∀ e ∈ x.log, asks e = none) : x.sent asks = [] := by
  rw [sent, List.filterMap_eq_nil_iff]
  exact h

/-- After the first part no more requests are made. -/
lemma sent_bind {x : Run ω ε α} {f : α → Run ω ε β} (hf : ∀ a, (f a).sent asks = []) :
    (x >>= f).sent asks = x.sent asks := by
  change (bind x f).sent asks = _
  cases hx : x.out with
  | error e => simp [bind, hx, sent]
  | ok a =>
    have hrest : (f a).log.filterMap asks = [] := hf a
    simp [bind, hx, sent, hrest]

end Run

/-! ### Servers -/

/-- What a server answers, and the state that a request leaves it in. -/
structure Server (σ ρ τ : Type) where
  answer : σ → ρ → τ
  next : σ → ρ → σ

/-- The state after these requests. -/
def Server.after (sv : Server σ ρ τ) (s : σ) (rs : List ρ) : σ := rs.foldl sv.next s

@[simp] lemma Server.after_nil (sv : Server σ ρ τ) (s : σ) : sv.after s [] = s := rfl

@[simp] lemma Server.after_cons (sv : Server σ ρ τ) (s : σ) (r : ρ) (rs : List ρ) :
    sv.after s (r :: rs) = sv.after (sv.next s r) rs := rfl

lemma Server.after_append (sv : Server σ ρ τ) (s : σ) (rs rs' : List ρ) :
    sv.after s (rs ++ rs') = sv.after (sv.after s rs) rs' := List.foldl_append ..

/-! ### Exchanges -/

/-- An operation that is closed without a request, or that makes one and ends with what it makes of
the answer. -/
inductive Exchange (ρ τ β : Type) where
  | closed (b : β)
  | ask (r : ρ) (f : τ → β)

namespace Exchange

variable {delivered : τ → Bool}

/-- The request, if there is one. -/
def request : Exchange ρ τ β → Option ρ
  | closed _ => none
  | .ask r _ => some r

def map (g : α → β) : Exchange ρ τ α → Exchange ρ τ β
  | closed a => closed (g a)
  | ask r f => ask r fun t => g (f t)

@[simp] lemma request_map (g : α → β) (e : Exchange ρ τ α) : (e.map g).request = e.request := by
  cases e <;> rfl

def out (oracle : ρ → τ) : Exchange ρ τ β → β
  | closed b => b
  | .ask r f => f (oracle r)

/-- The request that is received: some answers say that it was not delivered. -/
def received (delivered : τ → Bool) (oracle : ρ → τ) : Exchange ρ τ β → List ρ
  | closed _ => []
  | .ask r _ => if delivered (oracle r) then [r] else []

lemma received_sublist (oracle : ρ → τ) (e : Exchange ρ τ β) :
    (e.received delivered oracle).Sublist e.request.toList := by
  cases e with
  | closed b => exact List.Sublist.refl _
  | ask r f =>
    simp only [received, request, Option.toList_some]
    split
    · exact List.Sublist.refl _
    · exact List.nil_sublist _

end Exchange

/-- Whatever the oracle, the run ends as the exchange does and makes its requests. -/
def Refines (asks : ω → Option ρ) (delivered : τ → Bool) (x : (ρ → τ) → Run ω ε α)
    (e : Exchange ρ τ (Except ε α)) : Prop :=
  ∀ oracle, (x oracle).out = e.out oracle ∧
    (x oracle).sent asks = e.received delivered oracle

lemma Refines.mapOut {asks : ω → Option ρ} {delivered : τ → Bool} {x : (ρ → τ) → Run ω ε α}
    {e : Exchange ρ τ (Except ε α)} (h : Refines asks delivered x e)
    (g : Except ε α → Except ε β) :
    Refines asks delivered (fun oracle => (x oracle).mapOut g) (e.map g) := by
  intro oracle
  obtain ⟨hout, hsent⟩ := h oracle
  cases e with
  | closed a => exact ⟨congrArg g hout, hsent⟩
  | ask r f => exact ⟨congrArg g hout, hsent⟩

/-! ### Sessions -/

/-- What each operation of a session ended with, the requests that were received on the way, and the
state the server is left in. -/
structure Session (σ ρ ι : Type) (β : ι → Type) where
  results : List ((i : ι) × β i)
  received : List ρ
  state : σ

/-- One operation, and then a session. -/
def Session.cons {β : ι → Type} (i : ι) (b : β i) (rs : List ρ) (t : Session σ ρ ι β) :
    Session σ ρ ι β :=
  ⟨⟨i, b⟩ :: t.results, rs ++ t.received, t.state⟩

section Sessions

variable {β : ι → Type} {asks : ω → Option ρ} {delivered : τ → Bool}
  {run : (i : ι) → (ρ → τ) → Run ω ε (β i)} {exchange : (i : ι) → Exchange ρ τ (Except ε (β i))}

/-- A session of runs. -/
def play (asks : ω → Option ρ) (sv : Server σ ρ τ) (run : (i : ι) → (ρ → τ) → Run ω ε (β i)) :
    σ → List ι → Session σ ρ ι fun i => Except ε (β i)
  | s, [] => ⟨[], [], s⟩
  | s, i :: is =>
    let x := run i (sv.answer s)
    .cons i x.out (x.sent asks) (play asks sv run (sv.after s (x.sent asks)) is)

/-- A session of exchanges. -/
def playExchanges (delivered : τ → Bool) (sv : Server σ ρ τ)
    (exchange : (i : ι) → Exchange ρ τ (Except ε (β i))) :
    σ → List ι → Session σ ρ ι fun i => Except ε (β i)
  | s, [] => ⟨[], [], s⟩
  | s, i :: is =>
    let rs := (exchange i).received delivered (sv.answer s)
    .cons i ((exchange i).out (sv.answer s)) rs
      (playExchanges delivered sv exchange (sv.after s rs) is)

/-- A session of runs is the session of the exchanges that they refine. -/
theorem play_eq (h : ∀ i, Refines asks delivered (run i) (exchange i)) (sv : Server σ ρ τ) (s : σ)
    (is : List ι) : play asks sv run s is = playExchanges delivered sv exchange s is := by
  induction is generalizing s with
  | nil => rfl
  | cons i is ih =>
    obtain ⟨hout, hsent⟩ := h i (sv.answer s)
    simp only [play, playExchanges, hout, hsent, ih]

variable (delivered) (sv : Server σ ρ τ) (s : σ) (is : List ι)

/-- Every operation has its turn, in order. -/
lemma map_results_playExchanges :
    (playExchanges delivered sv exchange s is).results.map Sigma.fst = is := by
  induction is generalizing s with
  | nil => rfl
  | cons i is ih => simp [playExchanges, Session.cons, ih]

lemma state_playExchanges : (playExchanges delivered sv exchange s is).state =
    sv.after s (playExchanges delivered sv exchange s is).received := by
  induction is generalizing s with
  | nil => rfl
  | cons i is ih =>
    simp only [playExchanges, Session.cons, Server.after_append]
    exact ih _

/-- Nothing is received that no operation asks for, no request is received twice, and the order is
that of the operations. -/
lemma received_playExchanges_sublist :
    (playExchanges delivered sv exchange s is).received.Sublist
      (is.filterMap fun i => (exchange i).request) := by
  induction is generalizing s with
  | nil => exact List.Sublist.refl _
  | cons i is ih =>
    have hhead : ((exchange i).received delivered (sv.answer s)).Sublist
        (exchange i).request.toList := (exchange i).received_sublist _
    have hcons : (i :: is).filterMap (fun i => (exchange i).request) =
        (exchange i).request.toList ++ is.filterMap fun i => (exchange i).request := by
      rw [List.filterMap_cons]
      cases (exchange i).request <;> rfl
    rw [hcons]
    exact hhead.append (ih _)

/-- When all requests get through, the requests of all operations are received. -/
lemma received_playExchanges_eq (h : ∀ s r, delivered (sv.answer s r) = true) :
    (playExchanges delivered sv exchange s is).received =
      is.filterMap fun i => (exchange i).request := by
  induction is generalizing s with
  | nil => rfl
  | cons i is ih =>
    simp only [playExchanges, Session.cons, ih]
    cases hi : exchange i with
    | closed b => simp [Exchange.received, Exchange.request, hi]
    | ask r f => simp [Exchange.received, Exchange.request, hi, h]

/-- The requests of the operations that end with a result of some kind have been received, if a
result of that kind comes with an answer only. -/
lemma sublist_received_playExchanges (good : (i : ι) → Except ε (β i) → Bool)
    (hgood : ∀ i oracle, good i ((exchange i).out oracle) = true →
      (exchange i).received delivered oracle = (exchange i).request.toList) :
    ((playExchanges delivered sv exchange s is).results.filterMap fun r =>
      if good r.1 r.2 then (exchange r.1).request else none).Sublist
      (playExchanges delivered sv exchange s is).received := by
  induction is generalizing s with
  | nil => exact List.Sublist.refl _
  | cons i is ih =>
    simp only [playExchanges, Session.cons, List.filterMap_cons]
    split_ifs with h
    · rw [hgood i _ h]
      cases hr : (exchange i).request with
      | none => exact ih _
      | some r => exact (ih _).cons_cons r
    · exact (ih _).trans (List.sublist_append_right _ _)

end Sessions

end Traced
