import MongrelDB.Json.Compact

/-!
# Braces in JSON texts

A scanner that tells what is inside a string literal from what is not and counts the braces outside.
Over a JSON text it ends where it began (`Doc.run_render`). A text in which an opened brace is never
closed is therefore no JSON text, whatever else it consists of.
-/

namespace Json

open Text

/-- Where the scanner is: outside of strings, in one, or behind a backslash in one. -/
inductive Mode where
  | plain
  | str
  | escape
  deriving DecidableEq

/-- The state of the scanner; `depth` is the number of braces that are open. -/
structure Scan where
  mode : Mode
  depth : Int

def Scan.step (s : Scan) (c : UInt8) : Scan :=
  match s.mode with
  | .plain =>
    if c = quote then ⟨.str, s.depth⟩
    else if c = lbrace then ⟨.plain, s.depth + 1⟩
    else if c = rbrace then ⟨.plain, s.depth - 1⟩
    else s
  | .str =>
    if c = quote then ⟨.plain, s.depth⟩
    else if c = backslash then ⟨.escape, s.depth⟩
    else s
  | .escape => ⟨.str, s.depth⟩

def Scan.run (s : Scan) (b : Bytes) : Scan := b.foldl Scan.step s

@[simp] lemma Scan.run_nil (s : Scan) : s.run [] = s := rfl

@[simp] lemma Scan.run_cons (s : Scan) (c : UInt8) (b : Bytes) :
    s.run (c :: b) = (s.step c).run b := rfl

@[simp] lemma Scan.run_append (s : Scan) (b b' : Bytes) : s.run (b ++ b') = (s.run b).run b' :=
  List.foldl_append

/-! ### JSON texts -/

variable {b b' : Bytes} {k : Int}

/-- Outside of strings, what has neither quotes nor braces is passed over. -/
lemma Scan.run_plain (hb : ∀ c ∈ b, c ≠ quote ∧ c ≠ lbrace ∧ c ≠ rbrace) :
    Scan.run ⟨.plain, k⟩ b = ⟨.plain, k⟩ := by
  induction b with
  | nil => rfl
  | cons c b ih =>
    obtain ⟨⟨hq, hl, hr⟩, hb⟩ := List.forall_mem_cons.mp hb
    rw [Scan.run_cons, Scan.step]
    simp only [if_neg hq, if_neg hl, if_neg hr]
    exact ih hb

/-- In a string, what has neither quotes nor backslashes is passed over. -/
lemma Scan.run_str (hb : ∀ c ∈ b, c ≠ quote ∧ c ≠ backslash) :
    Scan.run ⟨.str, k⟩ b = ⟨.str, k⟩ := by
  induction b with
  | nil => rfl
  | cons c b ih =>
    obtain ⟨⟨hq, hs⟩, hb⟩ := List.forall_mem_cons.mp hb
    rw [Scan.run_cons, Scan.step]
    simp only [if_neg hq, if_neg hs]
    exact ih hb

lemma Ws.run_text (w : Ws) : Scan.run ⟨.plain, k⟩ w.text = ⟨.plain, k⟩ := by
  apply Scan.run_plain
  intro c hc
  have hs := w.isSpace c hc
  refine ⟨?_, ?_, ?_⟩ <;> rintro rfl <;> exact absurd hs (by decide)

lemma NumLit.run_render (n : NumLit) : Scan.run ⟨.plain, k⟩ n.render = ⟨.plain, k⟩ := by
  apply Scan.run_plain
  intro c hc
  have hn := n.isNumberByte c hc
  refine ⟨?_, ?_, ?_⟩ <;> rintro rfl <;> exact absurd hn (by decide)

lemma HexDigit.char_ne (h : HexDigit) : h.char ≠ quote ∧ h.char ≠ backslash := by
  obtain ⟨c, v, hc⟩ := h
  constructor <;> rintro rfl <;> cases hc

lemma StrItem.run_render (i : StrItem) : Scan.run ⟨.str, k⟩ i.render = ⟨.str, k⟩ := by
  cases i with
  | raw c h =>
    apply Scan.run_str
    intro d hd
    obtain rfl := List.mem_singleton.mp hd
    constructor <;> rintro rfl <;> exact absurd h (by decide)
  | short c v h => rfl
  | unicode h =>
    have htext : ∀ c ∈ h.text, c ≠ quote ∧ c ≠ backslash := by
      simp only [Hex4.text, List.forall_mem_cons, List.not_mem_nil, false_implies, implies_true,
        and_true]
      exact ⟨h.a.char_ne, h.b.char_ne, h.c.char_ne, h.d.char_ne⟩
    change Scan.run ⟨.str, k⟩ h.text = _
    exact Scan.run_str htext

lemma StrLit.run_render (s : StrLit) : Scan.run ⟨.plain, k⟩ s.render = ⟨.plain, k⟩ := by
  have hbody : Scan.run ⟨.str, k⟩ s.body = ⟨.str, k⟩ := by
    induction s with
    | nil => rfl
    | cons i s ih => rw [StrLit.body_cons, Scan.run_append, i.run_render, ih]
  rw [StrLit.render, Scan.run_cons, Scan.run_append]
  change (Scan.run ⟨.str, k⟩ s.body).run [quote] = _
  rw [hbody]
  rfl

lemma Key.run_render (key : Key) : Scan.run ⟨.plain, k⟩ key.render = ⟨.plain, k⟩ := by
  simp only [Key.render, Scan.run_append, Ws.run_text, StrLit.run_render]
  rfl

mutual
lemma Cst.run_render (v : Cst) (k : Int) : Scan.run ⟨.plain, k⟩ v.render = ⟨.plain, k⟩ := by
  match v with
  | .null => rfl
  | .bool true => rfl
  | .bool false => rfl
  | .num n => exact n.run_render
  | .str s => exact s.run_render
  | .emptyArr w =>
    rw [Cst.render, Scan.run_cons, Scan.run_append]
    change (Scan.run ⟨.plain, k⟩ w.text).run [rbracket] = _
    rw [w.run_text]
    rfl
  | .arr es =>
    rw [Cst.render, Scan.run_cons, Scan.run_append]
    change (Scan.run ⟨.plain, k⟩ es.render).run [rbracket] = _
    rw [es.run_render]
    rfl
  | .emptyObj w =>
    rw [Cst.render, Scan.run_cons, Scan.run_append]
    change (Scan.run ⟨.plain, k + 1⟩ w.text).run [rbrace] = _
    rw [w.run_text]
    simp [Scan.step]
  | .obj ms =>
    rw [Cst.render, Scan.run_cons, Scan.run_append]
    change (Scan.run ⟨.plain, k + 1⟩ ms.render).run [rbrace] = _
    rw [ms.run_render]
    simp [Scan.step]

lemma Elems.run_render (es : Elems) (k : Int) :
    Scan.run ⟨.plain, k⟩ es.render = ⟨.plain, k⟩ := by
  match es with
  | .last pre v post =>
    simp only [Elems.render, Scan.run_append, Ws.run_text, v.run_render k]
  | .cons pre v post es =>
    simp only [Elems.render, Scan.run_append, Ws.run_text, v.run_render k, Scan.run_cons]
    exact es.run_render k

lemma Members.run_render (ms : Members) (k : Int) :
    Scan.run ⟨.plain, k⟩ ms.render = ⟨.plain, k⟩ := by
  match ms with
  | .last key pre v post =>
    simp only [Members.render, Scan.run_append, Key.run_render, Ws.run_text, v.run_render k]
  | .cons key pre v post ms =>
    simp only [Members.render, Scan.run_append, Key.run_render, Ws.run_text, v.run_render k,
      Scan.run_cons]
    exact ms.run_render k
end

/-- A JSON text closes every brace that it opens. -/
theorem Doc.run_render (d : Doc) : Scan.run ⟨.plain, k⟩ d.render = ⟨.plain, k⟩ := by
  simp only [Doc.render, Scan.run_append, Ws.run_text, d.val.run_render]

lemma Denotes.run {t : Tree} (h : Denotes b t) : Scan.run ⟨.plain, k⟩ b = ⟨.plain, k⟩ := by
  obtain ⟨d, rfl, -⟩ := h
  exact d.run_render

lemma run_memberText {m : StrLit × Bytes} {m' : Bytes × Tree} (h : DenotesMember m m') :
    Scan.run ⟨.plain, k⟩ (memberText m.1 m.2) = ⟨.plain, k⟩ := by
  rw [memberText, Scan.run_append, StrLit.run_render]
  exact h.2.run

lemma run_joined {l : List (StrLit × Bytes)} {ms : List (Bytes × Tree)}
    (h : List.Forall₂ DenotesMember l ms) :
    Scan.run ⟨.plain, k⟩ (joined (l.map fun m => memberText m.1 m.2)) = ⟨.plain, k⟩ := by
  induction h with
  | nil => rfl
  | @cons m m' l ms hm hl ih =>
    cases l with
    | nil => exact run_memberText hm
    | cons m₁ l =>
      rw [List.map_cons, List.map_cons, joined, Scan.run_append, run_memberText hm]
      exact ih

/-! ### Texts that are cut off -/

/-- Text without braces and backslashes. -/
def Flat (b : Bytes) : Prop := ∀ c ∈ b, c ≠ lbrace ∧ c ≠ rbrace ∧ c ≠ backslash

/-- Text without braces and backslashes that no string literal goes beyond, whether it begins in one
or not. -/
structure Level (b : Bytes) : Prop where
  flat : Flat b
  run : ∀ s : Scan, s.mode ≠ .escape → s.run b = s

lemma Flat.append (h : Flat b) (h' : Flat b') : Flat (b ++ b') := by
  intro c hc
  rcases List.mem_append.mp hc with hc | hc
  · exact h c hc
  · exact h' c hc

lemma Level.append (h : Level b) (h' : Level b') : Level (b ++ b') where
  flat := h.flat.append h'.flat
  run s hs := by rw [Scan.run_append, h.run s hs, h'.run s hs]

/-- A byte that is nowhere special. -/
def isInert (c : UInt8) : Bool := c != quote && c != lbrace && c != rbrace && c != backslash

lemma flat_of_inert (h : b.all isInert = true) : Flat b := by
  intro c hc
  have hi := List.all_eq_true.mp h c hc
  simp only [isInert, Bool.and_eq_true, bne_iff_ne] at hi
  exact ⟨hi.1.1.2, hi.1.2, hi.2⟩

lemma level_of_inert (h : b.all isInert = true) : Level b where
  flat := flat_of_inert h
  run := by
    rintro ⟨mode, k⟩ hs
    simp only [List.all_eq_true, isInert, Bool.and_eq_true, bne_iff_ne] at h
    cases mode with
    | plain => exact Scan.run_plain fun c hc => ⟨(h c hc).1.1.1, (h c hc).1.1.2, (h c hc).1.2⟩
    | str => exact Scan.run_str fun c hc => ⟨(h c hc).1.1.1, (h c hc).2⟩
    | escape => exact absurd rfl hs

lemma level_quoted (h : b.all isInert = true) : Level (quote :: (b ++ [quote])) where
  flat := by
    have hq : Flat [quote] := by simp [Flat]
    exact hq.append ((flat_of_inert h).append hq)
  run := by
    rintro ⟨mode, k⟩ hs
    rw [Scan.run_cons, Scan.run_append]
    cases mode with
    | plain =>
      change (Scan.run ⟨.str, k⟩ b).run [quote] = _
      rw [(level_of_inert h).run _ (by simp)]
      rfl
    | str =>
      change (Scan.run ⟨.plain, k⟩ b).run [quote] = _
      rw [(level_of_inert h).run _ (by simp)]
      rfl
    | escape => exact absurd rfl hs

lemma level_joined {l : List Bytes} (h : ∀ t ∈ l, Level t) : Level (joined l) := by
  induction l with
  | nil => exact level_of_inert rfl
  | cons t l ih =>
    obtain ⟨ht, hl⟩ := List.forall_mem_cons.mp h
    cases l with
    | nil => exact ht
    | cons u l => exact ht.append ((level_of_inert (b := [comma]) rfl).append (ih hl))

/-- Flat text leaves the depth as it is, wherever it is cut off. -/
lemma Flat.depth_run (h : Flat b) {s : Scan} (hs : s.mode ≠ .escape) :
    (s.run b).depth = s.depth ∧ (s.run b).mode ≠ .escape := by
  induction b generalizing s with
  | nil => exact ⟨rfl, hs⟩
  | cons c b ih =>
    obtain ⟨⟨hl, hr, hb⟩, h⟩ := List.forall_mem_cons.mp h
    obtain ⟨mode, k⟩ := s
    have hstep : (Scan.step ⟨mode, k⟩ c).depth = k ∧ (Scan.step ⟨mode, k⟩ c).mode ≠ .escape := by
      cases mode with
      | plain => simp only [Scan.step, if_neg hl, if_neg hr]; split <;> simp
      | str => simp only [Scan.step, if_neg hb]; split <;> simp
      | escape => exact absurd rfl hs
    obtain ⟨hd, hm⟩ := ih h hstep.2
    rw [Scan.run_cons]
    exact ⟨hd.trans hstep.1, hm⟩

/-- A byte closes at most one brace. -/
lemma Scan.depth_run_ge (s : Scan) (b : Bytes) : s.depth - b.length ≤ (s.run b).depth := by
  induction b generalizing s with
  | nil => simp
  | cons c b ih =>
    have hstep : s.depth - 1 ≤ (s.step c).depth := by
      unfold Scan.step
      split
      · split_ifs <;> simp
        omega
      · split_ifs <;> simp
      · simp
    have := ih (s.step c)
    rw [Scan.run_cons, List.length_cons]
    push_cast
    omega

/-- Text that closes the braces it opens if it is whole, and leaves one open if it is cut off. -/
structure Cut (b : Bytes) (whole : Prop) : Prop where
  mode : ∀ s : Scan, s.mode ≠ .escape → (s.run b).mode ≠ .escape
  depth : ∀ s : Scan, s.mode ≠ .escape → s.depth ≤ (s.run b).depth
  closed : whole → ∀ k, Scan.run ⟨.plain, k⟩ b = ⟨.plain, k⟩
  opened : ¬whole → ∀ k, k + 1 ≤ (Scan.run ⟨.plain, k⟩ b).depth

lemma cut_nil : Cut [] True where
  mode _ hs := hs
  depth _ _ := le_rfl
  closed _ _ := rfl
  opened h := absurd trivial h

lemma Cut.append {w w' : Prop} (h : Cut b w) (h' : Cut b' w') : Cut (b ++ b') (w ∧ w') where
  mode s hs := by
    rw [Scan.run_append]
    exact h'.mode _ (h.mode s hs)
  depth s hs := by
    rw [Scan.run_append]
    exact (h.depth s hs).trans (h'.depth _ (h.mode s hs))
  closed hw k := by rw [Scan.run_append, h.closed hw.1, h'.closed hw.2]
  opened hw k := by
    rw [Scan.run_append]
    by_cases hb : w
    · rw [h.closed hb]
      exact h'.opened (fun hb' => hw ⟨hb, hb'⟩) k
    · exact (h.opened hb k).trans (h'.depth _ (h.mode _ (by simp)))

/-- The first `n` bytes of a text between braces that stands behind some other text. -/
lemma cut_take {p i : Bytes} (hp : Level p) (hi : Level i) {n : Nat} (hn : p.length < n) :
    Cut ((p ++ lbrace :: (i ++ [rbrace])).take n) (p.length + 1 + i.length < n) := by
  obtain ⟨m, rfl⟩ : ∃ m, n = p.length + (m + 1) := ⟨n - p.length - 1, by omega⟩
  have htake : (p ++ lbrace :: (i ++ [rbrace])).take (p.length + (m + 1)) =
      p ++ lbrace :: (i ++ [rbrace]).take m := by
    rw [List.take_length_add_append, List.take_succ_cons]
  rw [htake]
  -- behind the first brace the scanner is one level deeper, or still in a string
  have hopen : ∀ s : Scan, s.mode ≠ .escape → (s.step lbrace).mode = s.mode ∧
      s.depth ≤ (s.step lbrace).depth := by
    rintro ⟨mode, k⟩ hs
    cases mode with
    | plain => simp [Scan.step]
    | str => simp [Scan.step]
    | escape => exact absurd rfl hs
  have hplain : ∀ k, Scan.step ⟨.plain, k⟩ lbrace = ⟨.plain, k + 1⟩ := fun _ => rfl
  by_cases hm : m ≤ i.length
  · have hflat : Flat (i.take m) := fun c hc => hi.flat c (List.mem_of_mem_take hc)
    rw [List.take_append_of_le_length hm]
    refine ⟨fun s hs => ?_, fun s hs => ?_, fun hw => absurd hw (by omega), fun _ k => ?_⟩
    · rw [Scan.run_append, hp.run s hs, Scan.run_cons]
      obtain ⟨hmode, hdepth⟩ := hopen s hs
      exact (hflat.depth_run (by rwa [hmode])).2
    · rw [Scan.run_append, hp.run s hs, Scan.run_cons]
      obtain ⟨hmode, hdepth⟩ := hopen s hs
      rwa [(hflat.depth_run (by rwa [hmode])).1]
    · rw [Scan.run_append, hp.run ⟨.plain, k⟩ (by simp), Scan.run_cons, hplain]
      exact le_of_eq (hflat.depth_run (s := ⟨.plain, k + 1⟩) (by simp)).1.symm
  · have hall : (i ++ [rbrace]).take m = i ++ [rbrace] := by
      apply List.take_of_length_le
      rw [List.length_append, List.length_singleton]
      omega
    rw [hall]
    have hrun : ∀ s : Scan, s.mode ≠ .escape → s.run (p ++ lbrace :: (i ++ [rbrace])) = s := by
      intro s hs
      obtain ⟨hmode, -⟩ := hopen s hs
      rw [Scan.run_append, hp.run s hs, Scan.run_cons, Scan.run_append, hi.run _ (by rwa [hmode])]
      obtain ⟨mode, k⟩ := s
      cases mode with
      | plain => simp [Scan.step]
      | str => simp [Scan.step]
      | escape => exact absurd rfl hs
    refine ⟨fun s hs => ?_, fun s hs => ?_, fun _ k => ?_, fun hw => absurd hw (by omega)⟩
    · rwa [hrun s hs]
    · rw [hrun s hs]
    · exact hrun _ (by simp)

/-- If what is behind a text that is cut off closes no more braces than those before it opened, one
remains open. -/
theorem Cut.render_ne {a c : Bytes} {w : Prop} (h : Cut b w) (hw : ¬w)
    (ha : Scan.run ⟨.plain, 0⟩ a = ⟨.plain, c.length⟩) (d : Doc) : d.render ≠ a ++ (b ++ c) := by
  intro hd
  have hrun : Scan.run ⟨.plain, 0⟩ d.render = ⟨.plain, 0⟩ := d.run_render
  rw [hd, Scan.run_append, ha, Scan.run_append] at hrun
  have hopened := h.opened hw c.length
  have hge := Scan.depth_run_ge (Scan.run ⟨.plain, c.length⟩ b) c
  rw [hrun] at hge
  simp only at hge
  omega

end Json
