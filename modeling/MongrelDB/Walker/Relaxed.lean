import MongrelDB.Walker.Grammar

/-!
# The grammar that the walker skips by

`Relaxed` is a grammar of values with looser tokens than those of JSON texts, given by what a value
consists of and what follows it: a number or a word goes as far as it can. What `skip_value` moves
over is exactly optional white space and one value of this grammar (`skips_value_iff`).
-/

namespace MongrelDB

open Text Traced Prog Json

namespace JsonParser

/-- A name and the colon behind it, followed by `r`. -/
inductive RelaxedName : Bytes → Bytes → Prop
  | intro (before after : Ws) {t s r : Bytes} :
      Quoted (t ++ (after.text ++ colon :: r)) s (after.text ++ colon :: r) →
      RelaxedName (before.text ++ quote :: (t ++ (after.text ++ [colon]))) r

/-- A value, the elements of an array or the members of an object, followed by `r`. -/
inductive Relaxed : Kind → Bytes → Bytes → Prop
  | string {t s r} : Quoted (t ++ r) s r → Relaxed .value (quote :: t) r
  | number {c t r} : startsNumber (some c) = true → (∀ d ∈ t, isNumberChar d = true) →
      Stops isNumberChar r → Relaxed .value (c :: t) r
  | word {c t r} : c = 0x74 ∨ c = 0x66 ∨ c = 0x6E → (∀ d ∈ t, isWordChar d = true) →
      Stops isWordChar r → Relaxed .value (c :: t) r
  | emptyArr (w : Ws) {r} : Relaxed .value (lbracket :: (w.text ++ [rbracket])) r
  | arr {t r} : Relaxed .elems t (rbracket :: r) → Relaxed .value (lbracket :: (t ++ [rbracket])) r
  | emptyObj (w : Ws) {r} : Relaxed .value (lbrace :: (w.text ++ [rbrace])) r
  | obj {t r} : Relaxed .members t (rbrace :: r) → Relaxed .value (lbrace :: (t ++ [rbrace])) r
  | lastElem (pre post : Ws) {t r} : Relaxed .value t (post.text ++ r) →
      Relaxed .elems (pre.text ++ (t ++ post.text)) r
  | elem (pre post : Ws) {t t' r} : Relaxed .value t (post.text ++ comma :: (t' ++ r)) →
      Relaxed .elems t' r → Relaxed .elems (pre.text ++ (t ++ (post.text ++ comma :: t'))) r
  | lastMember (pre post : Ws) {k t r} : RelaxedName k (pre.text ++ (t ++ (post.text ++ r))) →
      Relaxed .value t (post.text ++ r) → Relaxed .members (k ++ (pre.text ++ (t ++ post.text))) r
  | member (pre post : Ws) {k t t' r} :
      RelaxedName k (pre.text ++ (t ++ (post.text ++ comma :: (t' ++ r)))) →
      Relaxed .value t (post.text ++ comma :: (t' ++ r)) → Relaxed .members t' r →
      Relaxed .members (k ++ (pre.text ++ (t ++ (post.text ++ comma :: t')))) r

variable {v w r t k : Bytes}

/-! ### What is in the grammar is skipped -/

lemma Named.of_relaxed (h : RelaxedName k r) : ∃ s, Named (k ++ r) s r := by
  obtain ⟨before, after, hq⟩ := h
  refine ⟨_, _, _, ?_, hq, next_ws after (by decide) r⟩
  simpa using next_ws before (c := quote) (by decide) _

lemma isSpace_of_startsNumber {c : UInt8} (h : startsNumber (some c) = true) :
    isSpace c = false := by
  simp only [startsNumber, Option.elim_some, Bool.or_eq_true, beq_iff_eq] at h
  rcases h with rfl | h
  · decide
  · exact not_isSpace_of_isValueHead (by simp [isValueHead, h])

/-- The walker comes to the end of the value, or of the brackets around elements or members. -/
def Kind.Skipped : Kind → Bytes → Bytes → Prop
  | .value, t, r => ∀ pre : Ws, Skips .value (pre.text ++ (t ++ r)) r
  | .elems, t, r => ∀ r', r = rbracket :: r' → Skips .elems (t ++ r) r'
  | .members, t, r => ∀ r', r = rbrace :: r' → Skips .members (t ++ r) r'

lemma Relaxed.skipped {kind : Kind} (h : Relaxed kind t r) : kind.Skipped t r := by
  induction h with
  | string hq => exact fun pre => .string (next_ws pre (by decide) _) hq
  | @number c t r hc ht hr =>
    intro pre
    have h := Skips.number (next_ws pre (isSpace_of_startsNumber hc) (t ++ r)) hc
    rwa [dropWhile_run ht hr] at h
  | @word c t r hc ht hr =>
    intro pre
    have hsp : isSpace c = false := by
      rcases hc with rfl | rfl | rfl <;> decide
    have h := Skips.word (next_ws pre hsp (t ++ r)) hc
    rwa [dropWhile_run ht hr] at h
  | emptyArr w =>
    intro pre
    refine .emptyArr (next_ws pre (by decide) _) ?_
    simpa using next_ws w (c := rbracket) (by decide) _
  | arr _ ih =>
    intro pre
    refine .arr (next_ws pre (by decide) _) ?_
    simpa using ih _ rfl
  | emptyObj w =>
    intro pre
    refine .emptyObj (next_ws pre (by decide) _) ?_
    simpa using next_ws w (c := rbrace) (by decide) _
  | obj _ ih =>
    intro pre
    refine .obj (next_ws pre (by decide) _) ?_
    simpa using ih _ rfl
  -- a list is passed from any text that begins with it
  | lastElem pre post _ ih =>
    rintro r rfl
    refine .lastElem ?_ (next_ws post (by decide) r)
    simpa using ih pre
  | elem pre post _ _ ih ih' =>
    rintro r rfl
    refine .elem ?_ (next_ws post (by decide) _) (ih' r rfl)
    simpa using ih pre
  | lastMember pre post hk _ ih =>
    rintro r rfl
    obtain ⟨s, hs⟩ := Named.of_relaxed hk
    refine .lastMember (k := s) ?_ (ih pre) (next_ws post (by decide) r)
    simpa using hs
  | member pre post hk _ _ ih ih' =>
    rintro r rfl
    obtain ⟨s, hs⟩ := Named.of_relaxed hk
    refine .member (k := s) ?_ (ih pre) (next_ws post (by decide) _) (ih' r rfl)
    simpa using hs

/-! ### What is skipped is in the grammar -/

lemma Next.exists_ws {c : UInt8} (h : Next c v w) : ∃ pre : Ws, v = pre.text ++ c :: w := by
  refine ⟨⟨v.takeWhile isSpace, fun c hc => List.mem_takeWhile_imp hc⟩, ?_⟩
  rw [← h, List.takeWhile_append_dropWhile]

lemma Quoted.exists_eq {s : Bytes} (h : Quoted v s r) : ∃ t, v = t ++ r := by
  obtain ⟨t, ht, -⟩ := reads_readStringRaw.complete s r h
  match t, ht with
  | [], ht => exact absurd (congrArg List.length ht) (by have := h.length_lt; simp; omega)
  | c :: t, ht => exact ⟨t, (List.cons.inj ht).2⟩

lemma Named.exists_eq {s : Bytes} (h : Named v s w) : ∃ k, v = k ++ w ∧ RelaxedName k w := by
  obtain ⟨x, y, hx, hq, hy⟩ := h
  obtain ⟨before, rfl⟩ := hx.exists_ws
  obtain ⟨after, rfl⟩ := hy.exists_ws
  obtain ⟨t, rfl⟩ := hq.exists_eq
  exact ⟨_, by simp, .intro before after hq⟩

/-- What is skipped consists of white space and a value, or of what is between brackets. -/
def Kind.Parsed : Kind → Bytes → Bytes → Prop
  | .value, v, r => ∃ (pre : Ws) (t : Bytes), v = pre.text ++ (t ++ r) ∧ Relaxed .value t r
  | .elems, v, r => ∃ t, v = t ++ rbracket :: r ∧ Relaxed .elems t (rbracket :: r)
  | .members, v, r => ∃ t, v = t ++ rbrace :: r ∧ Relaxed .members t (rbrace :: r)

lemma Skips.parsed {kind : Kind} (h : Skips kind v r) : kind.Parsed v r := by
  induction h with
  | string hv hq =>
    obtain ⟨pre, rfl⟩ := hv.exists_ws
    obtain ⟨t, rfl⟩ := hq.exists_eq
    exact ⟨pre, _, rfl, .string hq⟩
  | emptyObj hv hw =>
    obtain ⟨pre, rfl⟩ := hv.exists_ws
    obtain ⟨w, rfl⟩ := hw.exists_ws
    exact ⟨pre, _, by simp, .emptyObj w⟩
  | obj hv _ ih =>
    obtain ⟨pre, rfl⟩ := hv.exists_ws
    obtain ⟨t, rfl, ht⟩ := ih
    exact ⟨pre, _, by simp, .obj ht⟩
  | emptyArr hv hw =>
    obtain ⟨pre, rfl⟩ := hv.exists_ws
    obtain ⟨w, rfl⟩ := hw.exists_ws
    exact ⟨pre, _, by simp, .emptyArr w⟩
  | arr hv _ ih =>
    obtain ⟨pre, rfl⟩ := hv.exists_ws
    obtain ⟨t, rfl, ht⟩ := ih
    exact ⟨pre, _, by simp, .arr ht⟩
  -- a run of characters ends where the text ends or with another character
  | @word v c w hv hc =>
    obtain ⟨pre, rfl⟩ := hv.exists_ws
    refine ⟨pre, c :: w.takeWhile isWordChar, ?_, .word hc (fun d hd => ?_) ?_⟩
    · rw [List.cons_append, List.takeWhile_append_dropWhile]
    · exact List.mem_takeWhile_imp hd
    · exact stops_dropWhile _ w
  | @number v c w hv hc =>
    obtain ⟨pre, rfl⟩ := hv.exists_ws
    refine ⟨pre, c :: w.takeWhile isNumberChar, ?_, .number hc (fun d hd => ?_) ?_⟩
    · rw [List.cons_append, List.takeWhile_append_dropWhile]
    · exact List.mem_takeWhile_imp hd
    · exact stops_dropWhile _ w
  | lastElem _ hr ih =>
    obtain ⟨pre, t, rfl, ht⟩ := ih
    obtain ⟨post, rfl⟩ := hr.exists_ws
    exact ⟨_, by simp, .lastElem pre post ht⟩
  | elem _ hy _ ih ih' =>
    obtain ⟨pre, t, rfl, ht⟩ := ih
    obtain ⟨t', rfl, ht'⟩ := ih'
    obtain ⟨post, rfl⟩ := hy.exists_ws
    exact ⟨_, by simp, .elem pre post ht ht'⟩
  | lastMember hn _ hr ih =>
    obtain ⟨k, rfl, hk⟩ := hn.exists_eq
    obtain ⟨pre, t, rfl, ht⟩ := ih
    obtain ⟨post, rfl⟩ := hr.exists_ws
    exact ⟨_, by simp, .lastMember pre post hk ht⟩
  | member hn _ hy _ ih ih' =>
    obtain ⟨k, rfl, hk⟩ := hn.exists_eq
    obtain ⟨pre, t, rfl, ht⟩ := ih
    obtain ⟨t', rfl, ht'⟩ := ih'
    obtain ⟨post, rfl⟩ := hy.exists_ws
    exact ⟨_, by simp, .member pre post hk ht ht'⟩

/-- White space and one value of the grammar are skipped, and nothing else is. -/
theorem skips_value_iff :
    Skips .value v r ↔ ∃ (pre : Ws) (t : Bytes), v = pre.text ++ (t ++ r) ∧ Relaxed .value t r := by
  constructor
  · exact Skips.parsed
  · rintro ⟨pre, t, rfl, ht⟩
    exact ht.skipped pre

lemma Relaxed.ne_nil {t r : Bytes} (h : Relaxed .value t r) : t ≠ [] := by
  rintro rfl
  have hlt := (h.skipped Ws.none).length_lt
  simp [Ws.none] at hlt

/-- A JSON value is one of the grammar, whatever may follow it. -/
lemma relaxed_render (v : Cst) (hr : Delimited r) : Relaxed .value v.render r := by
  obtain ⟨pre, t, ht, hrel⟩ := skips_value_iff.mp (skips_render v Ws.none hr)
  have hv : v.render = pre.text ++ t := by
    have h : v.render ++ r = pre.text ++ t ++ r := by simpa [Ws.none] using ht
    exact List.append_cancel_right h
  have hpre : pre.text = [] := by
    have hstop := v.stops_isSpace []
    rw [hv] at hstop
    cases hp : pre.text with
    | nil => rfl
    | cons c w =>
      rw [hp] at hstop
      have hc := pre.isSpace c (by simp [hp])
      rw [stops_cons.mp hstop] at hc
      cases hc
  rw [hv, hpre]
  exact hrel

end JsonParser

end MongrelDB
