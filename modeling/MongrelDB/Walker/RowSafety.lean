import MongrelDB.Client.Status
import MongrelDB.Walker.ScanSafety

/-!
# The decoders of rows, names and statuses are safe

Every loop of the decoders moves the cursor in each round that is not its last, and the only way in
which they stop early is a `QueryException`.
-/

namespace MongrelDB

open Text Traced Prog JsonParser

variable {p : JsonParser}

/-- A round that is not the last has moved the cursor. -/
def Moves {γ β : Type} (p : JsonParser) (r : Round γ β) (p' : JsonParser) : Prop :=
  match r with
  | .done _ => True
  | .again _ => p.i < p'.i

/-- A loop whose rounds move the cursor ends, since the text does. -/
lemma safe_iterate_moves {γ β : Type} {body : γ → Walk (Round γ β)} {g : γ}
    (hbody : ∀ g p', Safe Stop.IsQueryException (body g) p' (Moves p')) :
    Safe Stop.IsQueryException (iterate body g) p fun _ _ => True := by
  refine safe_iterate (I := fun _ _ => True) trivial fun g p' _ _ => (hbody g p').mono ?_
  rintro (g' | b) p'' _ h
  · exact ⟨trivial, h⟩
  · trivial

/-- A character that has been looked at is moved over. -/
lemma safe_expect_char {c : UInt8} (h : Sights (· == some c) p) :
    Safe Stop.IsQueryException (expect c) p fun _ p' => p.i < p'.i := by
  obtain ⟨c', hget, hc⟩ := h
  obtain rfl : c' = c := by simpa using hc
  obtain ⟨hlt, hget⟩ := List.getElem?_eq_some_iff.mp hget
  refine safe_skipWs.bind fun _ p₁ ho₁ _ => ?_
  rcases Nat.lt_or_eq_of_le ho₁.le with hmoved | hstays
  · -- the cursor has moved already
    refine safe_inside.bind_read fun b hb => ?_
    split
    · exact safe_fail.mono fun _ p₂ ho₂ _ => lt_of_lt_of_le hmoved ho₂.le
    · next hin =>
      refine (safe_current (by simpa [hb] using hin)).bind_read fun d _ => ?_
      split
      · exact (safe_advance (by simpa [hb] using hin)).mono fun _ p₂ ho₂ _ =>
          lt_of_lt_of_le hmoved ho₂.le
      · exact safe_fail.mono fun _ p₂ ho₂ _ => lt_of_lt_of_le hmoved ho₂.le
  · have hin : p₁.i < p₁.s.length := by rw [ho₁.text, ← hstays]; exact hlt
    refine safe_inside.bind_read fun b hb => ?_
    rw [if_neg (by simpa [hb] using hin)]
    refine (safe_current hin).bind_read fun d hd => ?_
    have hdc : d = c' := by rw [hd, ← hget]; simp [ho₁.text, hstays]
    rw [if_pos (by simpa using hdc)]
    exact (safe_advance hin).mono fun _ p₂ _ h => by omega

/-- The end of a round: whatever leads to another one moves the cursor. -/
lemma safe_separator {γ β : Type} {c₁ c₂ : UInt8} {r₁ r₂ : Round γ β} {msg : String} :
    Safe Stop.IsQueryException (peek >>= fun ch =>
      if ch == some c₁ then expect c₁ >>= fun _ => pure r₁
      else if ch == some c₂ then expect c₂ >>= fun _ => pure r₂ else throwQuery msg) p
      (Moves p) := by
  have hmoves : ∀ (r : Round γ β) p', p.i < p'.i → Moves p r p' := by
    rintro (g | b) p' hlt
    · exact hlt
    · trivial
  have hexpect : ∀ {c : UInt8} {r : Round γ β} {ch : Option UInt8} {p₁ : JsonParser}, Onward p p₁ →
      (∀ d, ch = some d → p₁.s[p₁.i]? = some d) → ch = some c →
        Safe Stop.IsQueryException (expect c >>= fun _ => pure r) p₁ (Moves p) := by
    intro c r ch p₁ ho₁ hch hc
    refine (safe_expect_char ⟨c, hch c hc, by simp⟩).bind fun _ p₂ _ hlt => ?_
    exact safe_pure (hmoves _ _ (lt_of_le_of_lt ho₁.le hlt))
  refine safe_peek_char.bind fun ch p₁ ho₁ ⟨_, hch⟩ => ?_
  split
  · next hc => exact hexpect ho₁ hch (by simpa using hc)
  split
  · next hc => exact hexpect ho₁ hch (by simpa using hc)
  · exact safe_throwQuery

/-- What comes before the end of a round does not move the cursor back. -/
lemma Safe.before {α γ β : Type} {x : Walk α} {f : α → Walk (Round γ β)} {Q : α → JsonParser → Prop}
    (hx : Safe Stop.IsQueryException x p Q)
    (hf : ∀ a p', Q a p' → Safe Stop.IsQueryException (f a) p' (Moves p')) :
    Safe Stop.IsQueryException (x >>= f) p (Moves p) := by
  refine hx.bind fun a p' ho hq => (hf a p' hq).mono fun r p'' _ hr => ?_
  cases r with
  | done b => trivial
  | again g => exact lt_of_le_of_lt ho.le hr

/-! ### Rows -/

lemma safe_cellValue (row : Row) (colid : Int64) : Safe Stop.IsQueryException (do
      let v ← readValue
      if !(← isOk) then throwQuery "mongreldb: malformed cell value"
      else do
        let row := row ++ [⟨colid, v⟩]
        let ch ← peek
        if ch == some comma then
          expect comma
          return .again row
        else if ch == some rbracket then
          expect rbracket
          return .done row
        else throwQuery "mongreldb: malformed cells") p
      (Moves (γ := Row) (β := Row) p) := by
  refine safe_readValue.before fun v p₁ _ => safe_isOk.before fun ok p₂ _ => ?_
  split
  · exact safe_throwQuery
  · exact safe_separator

lemma safe_cellRound (row : Row) : Safe Stop.IsQueryException (cellRound row) p (Moves p) := by
  refine safe_peek.before fun ch p₁ _ => ?_
  split
  · exact safe_throwQuery
  refine safe_readNumberRaw.before fun num p₂ _ => safe_peek.before fun ch p₃ _ => ?_
  split
  · exact safe_expect.before fun _ p₄ _ => safe_cellValue row _
  · exact safe_cellValue row _

lemma safe_readCells (row : Row) :
    Safe Stop.IsQueryException (readCells row) p fun _ _ => True := by
  refine safe_expect.bind fun _ _ _ _ => safe_peek.bind fun _ _ _ _ => ?_
  split
  · exact safe_expect.bind fun _ _ _ _ => safe_pure trivial
  · exact safe_iterate_moves fun g _ => safe_cellRound g

lemma safe_rowMemberRound (row : Row) :
    Safe Stop.IsQueryException (rowMemberRound row) p (Moves p) := by
  refine safe_peek.before fun ch p₁ h₁ => ?_
  split
  · exact safe_throwQuery
  next hq =>
  have hin : p₁.i < p₁.s.length := h₁ (by rintro rfl; simp at hq)
  refine (safe_readStringRaw hin).before fun k p₂ _ => safe_isOk.before fun ok p₃ _ => ?_
  split
  · exact safe_throwQuery
  refine safe_expect.before fun _ p₄ _ => safe_isOk.before fun ok p₅ _ => ?_
  split
  · exact safe_throwQuery
  refine safe_keyIs.before fun b p₆ _ => ?_
  split
  · exact (safe_readCells row).before fun row p₇ _ => safe_separator
  · refine safe_skipValue.before fun _ p₇ _ => safe_isOk.before fun ok p₈ _ => ?_
    split
    · exact safe_throwQuery
    · exact safe_separator

/-- One row, from its brace on. -/
lemma safe_readRow : Safe Stop.IsQueryException readRow p fun _ _ => True := by
  refine safe_expect.bind fun _ _ _ _ => safe_peek.bind fun _ _ _ _ => ?_
  split
  · exact safe_iterate_moves fun g _ => safe_rowMemberRound g
  · exact safe_expect.bind fun _ _ _ _ => safe_pure trivial

lemma safe_rowRound (rows : List Row) :
    Safe Stop.IsQueryException (rowRound rows) p (Moves p) := by
  refine safe_peek.before fun ch p₁ _ => ?_
  split
  · exact safe_throwQuery
  · exact safe_readRow.before fun row p₂ _ => safe_separator

lemma safe_findRows : Safe Stop.IsQueryException (iterate (fun _ => findRowsRound) ()) p
    fun _ _ => True :=
  safe_members (fun _ _ => safe_keyIs) fun _ _ _ => safe_pure trivial

/-- The rows of a response: the scan for the member `rows` and the list behind it. -/
lemma safe_decodeRows : Safe Stop.IsQueryException decodeRows p fun _ _ => True := by
  refine safe_peek.bind fun _ _ _ _ => ?_
  split
  · exact safe_pure trivial
  refine safe_expect.bind fun _ _ _ _ => safe_peek.bind fun _ _ _ _ => ?_
  split
  · exact safe_pure trivial
  refine safe_findRows.bind fun _ _ _ _ => ?_
  split
  · exact safe_pure trivial
  refine safe_expect.bind fun _ _ _ _ => safe_peek.bind fun _ _ _ _ => ?_
  split
  · exact safe_pure trivial
  · exact safe_iterate_moves fun g _ => safe_rowRound g

/-! ### Names -/

lemma safe_namesRound (names : List Bytes) :
    Safe Stop.IsQueryException (namesRound names) p (Moves p) := by
  refine safe_peek.before fun ch p₁ h₁ => ?_
  split
  · exact safe_throwQuery
  next hq =>
  have hin : p₁.i < p₁.s.length := h₁ (by rintro rfl; simp at hq)
  refine (safe_readStringRaw hin).before fun k p₂ _ => safe_isOk.before fun ok p₃ _ => ?_
  split
  · exact safe_throwQuery
  · exact safe_separator

lemma safe_decodeNames : Safe Stop.IsQueryException decodeNames p fun _ _ => True := by
  refine safe_peek.bind fun _ _ _ _ => ?_
  split
  · exact safe_pure trivial
  refine safe_expect.bind fun _ _ _ _ => safe_peek.bind fun _ _ _ _ => ?_
  split
  · exact safe_pure trivial
  · exact safe_iterate_moves fun g _ => safe_namesRound g

/-! ### Statuses -/

variable {bad : Stop → Prop} {plat : Platform} {json : Bytes}

lemma SafeCall.ite {α : Type} {x y : Call α} {c : Prop} [Decidable c] (hx : SafeCall bad x)
    (hy : SafeCall bad y) : SafeCall bad (if c then x else y) := by
  split_ifs
  · exact hx
  · exact hy

lemma safeCall_parseCommitHlc : SafeCall bad (parseCommitHlc plat json) :=
  safeCall_getUint64.bind fun _ => safeCall_pure.ite <| safeCall_getInt.bind fun _ =>
    safeCall_getInt.bind fun _ => safeCall_pure

lemma safeCall_parseDurableOutcome : SafeCall bad (parseDurableOutcome plat json) := by
  refine SafeCall.ite safeCall_pure ?_
  refine safeCall_getBool.bind fun _ => safeCall_getInt.bind fun _ =>
    safeCall_getUint64.bind fun _ => safeCall_getString.bind fun _ =>
    safeCall_getObjectRaw.bind fun _ => ?_
  refine SafeCall.ite (safeCall_parseCommitHlc.bind fun _ => ?_) (safeCall_pure.bind fun _ => ?_)
  all_goals
    exact safeCall_getInt.bind fun _ => safeCall_getInt.bind fun _ => safeCall_getInt.bind fun _ =>
      safeCall_getInt.bind fun _ => safeCall_getString.bind fun _ =>
        safeCall_getString.bind fun _ => safeCall_getString.bind fun _ => safeCall_pure

/-- No extractor throws, so the status of a query is decoded from any text. -/
lemma safeCall_parseQueryStatusJson : SafeCall bad (parseQueryStatusJson plat json) := by
  refine safeCall_getString.bind fun _ => safeCall_getString.bind fun _ =>
    safeCall_getString.bind fun _ => safeCall_getString.bind fun _ =>
      safeCall_getString.bind fun _ => safeCall_getBool.bind fun _ => safeCall_getInt.bind fun _ =>
        safeCall_getUint64.bind fun _ => safeCall_getString.bind fun _ =>
          safeCall_getObjectRaw.bind fun _ => ?_
  refine SafeCall.ite (safeCall_parseCommitHlc.bind fun _ => ?_) (safeCall_pure.bind fun _ => ?_)
  all_goals
    refine safeCall_getInt.bind fun _ => safeCall_getInt.bind fun _ => safeCall_getInt.bind fun _ =>
      safeCall_getInt.bind fun _ => safeCall_getString.bind fun _ =>
        safeCall_getString.bind fun _ => safeCall_getBool.bind fun _ =>
          safeCall_getObjectRaw.bind fun _ => ?_
    refine SafeCall.ite (safeCall_parseDurableOutcome.bind fun _ => ?_)
      (safeCall_pure.bind fun _ => ?_)
    all_goals
      refine safeCall_getObjectRaw.bind fun _ => ?_
      exact SafeCall.ite (safeCall_parseDurableOutcome.bind fun _ => safeCall_pure)
        (safeCall_pure.bind fun _ => safeCall_pure)

/-! ### Bodies -/

lemma safeCall_decodeNames {body : Bytes} :
    SafeCall Stop.IsQueryException (walk body decodeNames) := safeCall_walk safe_decodeNames

lemma safeCall_decodeRows {body : Bytes} :
    SafeCall Stop.IsQueryException (walk body decodeRows) := safeCall_walk safe_decodeRows

lemma safeCall_decodeQuery : SafeCall Stop.IsQueryException (decodeQuery body) :=
  safeCall_getBool.bind fun _ => safeCall_decodeRows.bind fun _ => safeCall_pure

end MongrelDB
