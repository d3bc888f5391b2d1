import MongrelDB.Text.Bytes

/-!
# Paths of RFC 3986

Percent-encoding (section 2.1), the path of a URI (appendix B) and the removal of dot segments
(section 5.2.4). A path is read as its segments, each with the slash in front of it:
`removeDotSegments_pathOf` says what the removal does to them. An ordinary segment stays where it
is.
-/

namespace Uri

open Text

/-! ### Percent-encoding -/

@[simp] abbrev hash : UInt8 := 0x23
@[simp] abbrev percent : UInt8 := 0x25
@[simp] abbrev question : UInt8 := 0x3F

/-- `unreserved` -/
def unreserved (c : UInt8) : Bool :=
  isLetter c || isDigit c || c == minus || c == dot || c == 0x5F || c == 0x7E

def isUpperHex (c : UInt8) : Bool := isDigit c || (0x41 ≤ c && c ≤ 0x46)

/-- Unreserved characters and complete triples with upper-case digits. -/
inductive Encoded : Bytes → Prop where
  | nil : Encoded []
  | plain {c : UInt8} {r : Bytes} : unreserved c = true → Encoded r → Encoded (c :: r)
  | triple {a b : UInt8} {r : Bytes} : isUpperHex a = true → isUpperHex b = true → Encoded r →
      Encoded (percent :: a :: b :: r)

/-- Decoding that takes a percent sign only with its two digits. -/
def percentDecode : Bytes → Option Bytes
  | [] => some []
  | c :: r =>
    if c = percent then
      match r with
      | a :: b :: r => do
        let hi ← hexVal a
        let lo ← hexVal b
        return (16 * hi + lo).toUInt8 :: (← percentDecode r)
      | _ => none
    else (percentDecode r).map (c :: ·)

lemma percentDecode_plain {c : UInt8} (hc : c ≠ percent) (r : Bytes) :
    percentDecode (c :: r) = (percentDecode r).map (c :: ·) := by
  rcases r with - | ⟨a, - | ⟨b, r⟩⟩
  all_goals rw [percentDecode.eq_def]; exact if_neg hc

lemma percentDecode_triple {a b : UInt8} {hi lo : Nat} (ha : hexVal a = some hi)
    (hb : hexVal b = some lo) (r : Bytes) :
    percentDecode (percent :: a :: b :: r) =
      (percentDecode r).map ((16 * hi + lo).toUInt8 :: ·) := by
  rw [percentDecode, if_pos rfl, ha, hb]
  cases percentDecode r <;> rfl

lemma unreserved_of_isUpperHex {c : UInt8} (h : isUpperHex c = true) : unreserved c = true := by
  unfold isUpperHex at h
  unfold unreserved isLetter isLower isUpper
  simp only [Bool.or_eq_true, Bool.and_eq_true, decide_eq_true_eq, UInt8.le_iff_toNat_le,
    UInt8.reduceToNat] at h ⊢
  rcases h with h | h
  · simp [h]
  · exact .inl (.inl (.inl (.inl (.inl (.inr ⟨h.1, by omega⟩)))))

lemma Encoded.unreserved_or_percent {s : Bytes} (hs : Encoded s) {c : UInt8} (hc : c ∈ s) :
    unreserved c = true ∨ c = percent := by
  induction hs with
  | nil => cases hc
  | plain h _ ih =>
    rcases List.mem_cons.mp hc with rfl | hc
    · exact .inl h
    · exact ih hc
  | triple ha hb _ ih =>
    simp only [List.mem_cons] at hc
    obtain rfl | rfl | rfl | hc := hc
    · exact .inr rfl
    · exact .inl (unreserved_of_isUpperHex ha)
    · exact .inl (unreserved_of_isUpperHex hb)
    · exact ih hc

lemma Encoded.notMem {s : Bytes} (hs : Encoded s) {c : UInt8} (hc : unreserved c = false)
    (hp : c ≠ percent) : c ∉ s := by
  intro h
  rcases hs.unreserved_or_percent h with h | h
  · rw [hc] at h
    cases h
  · exact hp h

/-! ### Segments -/

/-- The path with these segments. -/
def pathOf (segs : List Bytes) : Bytes := segs.flatMap (slash :: ·)

@[simp] lemma pathOf_nil : pathOf [] = [] := rfl

@[simp] lemma pathOf_cons (s : Bytes) (segs : List Bytes) :
    pathOf (s :: segs) = slash :: (s ++ pathOf segs) := by
  simp [pathOf]

@[simp] lemma pathOf_append (l l' : List Bytes) : pathOf (l ++ l') = pathOf l ++ pathOf l' :=
  List.flatMap_append

/-- Segments of a path have no slash of their own. -/
def Slashless (segs : List Bytes) : Prop := ∀ s ∈ segs, slash ∉ s

@[simp] lemma slashless_nil : Slashless [] := by simp [Slashless]

@[simp] lemma slashless_cons {s : Bytes} {segs : List Bytes} :
    Slashless (s :: segs) ↔ slash ∉ s ∧ Slashless segs := by
  simp [Slashless]

@[simp] lemma slashless_append {l l' : List Bytes} :
    Slashless (l ++ l') ↔ Slashless l ∧ Slashless l' := by
  simp [Slashless, or_imp, forall_and]

lemma Slashless.dropLast {segs : List Bytes} (h : Slashless segs) : Slashless segs.dropLast :=
  fun s hs => h s (List.dropLast_subset segs hs)

lemma stops_pathOf (segs : List Bytes) : Stops (· != slash) (pathOf segs) := by
  cases segs with
  | nil => simp
  | cons s segs => simp

/-- A segment ends in front of the next slash. -/
lemma segment_unique {s t r r' : Bytes} (hs : slash ∉ s) (ht : slash ∉ t)
    (hr : Stops (· != slash) r) (hr' : Stops (· != slash) r') (he : s ++ r = t ++ r') : s = t := by
  have hrun : ∀ {s : Bytes}, slash ∉ s → ∀ c ∈ s, (c != slash) = true := by
    intro s hs c hc
    simpa using fun h : c = slash => hs (h ▸ hc)
  rw [← takeWhile_run (hrun hs) hr, he, takeWhile_run (hrun ht) hr']

/-- A path has only one list of segments. -/
lemma pathOf_inj {l l' : List Bytes} (h : Slashless l) (h' : Slashless l')
    (he : pathOf l = pathOf l') : l = l' := by
  induction l generalizing l' with
  | nil =>
    cases l' with
    | nil => rfl
    | cons s' l' => simp at he
  | cons s l ih =>
    cases l' with
    | nil => simp at he
    | cons s' l' =>
      rw [slashless_cons] at h h'
      have he : s ++ pathOf l = s' ++ pathOf l' := by simpa using he
      obtain rfl := segment_unique h.1 h'.1 (stops_pathOf l) (stops_pathOf l') he
      rw [ih h.2 h'.2 (List.append_cancel_left he)]

/-! ### The path of a URI -/

def endsPath (c : UInt8) : Bool := c == question || c == hash

def endsAuthority (c : UInt8) : Bool := c == slash || endsPath c

def afterScheme (uri : Bytes) : Bytes :=
  match uri.dropWhile fun c => c != colon && !endsAuthority c with
  | [] => uri
  | c :: r => if c = colon ∧ uri.head? ≠ some colon then r else uri

def afterAuthority (hier : Bytes) : Bytes :=
  if (ascii "//").isPrefixOf hier then (hier.drop 2).dropWhile fun c => !endsAuthority c else hier

/-- The path component. -/
def path (uri : Bytes) : Bytes := (afterAuthority (afterScheme uri)).takeWhile fun c => !endsPath c

/-- The text of a segment of a path. -/
def IsSegment (s : Bytes) : Prop := ∀ c ∈ s, endsAuthority c = false

instance (s : Bytes) : Decidable (IsSegment s) :=
  decidable_of_iff (s.all fun c => !endsAuthority c) (by simp [IsSegment])

/-- A URI without query and fragment, to which segments are added. -/
structure Base where
  scheme : Bytes
  authority : Bytes
  segments : List Bytes
  scheme_ne_nil : scheme ≠ []
  isSegment_scheme : IsSegment scheme
  colon_notMem : colon ∉ scheme
  isSegment_authority : IsSegment authority
  isSegment : ∀ s ∈ segments, IsSegment s

def Base.text (b : Base) : Bytes :=
  b.scheme ++ ascii "://" ++ b.authority ++ pathOf b.segments

lemma IsSegment.slash_notMem {s : Bytes} (h : IsSegment s) : slash ∉ s := fun hs =>
  absurd (h _ hs) (by decide)

lemma slashless_of_isSegment {segs : List Bytes} (h : ∀ s ∈ segs, IsSegment s) : Slashless segs :=
  fun s hs => (h s hs).slash_notMem

lemma Encoded.isSegment {s : Bytes} (h : Encoded s) : IsSegment s := by
  intro c hc
  have hne : ∀ d : UInt8, unreserved d = false → d ≠ percent → c ≠ d := fun d hd hp hcd =>
    h.notMem hd hp (hcd ▸ hc)
  simp [endsAuthority, endsPath, hne slash (by decide) (by decide),
    hne question (by decide) (by decide), hne hash (by decide) (by decide)]

lemma endsPath_pathOf {segs : List Bytes} (h : ∀ s ∈ segs, IsSegment s) :
    ∀ c ∈ pathOf segs, (!endsPath c) = true := by
  intro c hc
  obtain ⟨s, hs, hc⟩ := List.mem_flatMap.mp hc
  rcases List.mem_cons.mp hc with rfl | hc
  · rfl
  · have := h s hs c hc
    simp_all [endsAuthority]

lemma afterScheme_append {scheme : Bytes} (hne : scheme ≠ []) (hs : IsSegment scheme)
    (hc : colon ∉ scheme) (r : Bytes) : afterScheme (scheme ++ colon :: r) = r := by
  have hrun : ∀ c ∈ scheme, (c != colon && !endsAuthority c) = true := by
    intro c h
    simpa [hs c h] using fun he : c = colon => hc (he ▸ h)
  have hhead : (scheme ++ colon :: r).head? ≠ some colon := by
    cases scheme with
    | nil => exact absurd rfl hne
    | cons c t => simpa using fun he : c = colon => hc (he ▸ List.mem_cons_self)
  rw [afterScheme, dropWhile_run hrun (by simp)]
  exact if_pos ⟨rfl, hhead⟩

lemma afterAuthority_append {authority : Bytes} (ha : IsSegment authority) (segs : List Bytes) :
    afterAuthority (ascii "//" ++ (authority ++ pathOf segs)) = pathOf segs := by
  have hstop : Stops (fun c => !endsAuthority c) (pathOf segs) := by
    cases segs with
    | nil => simp
    | cons s segs => simp [endsAuthority]
  rw [afterAuthority, if_pos (by simp [ascii])]
  exact dropWhile_run (fun c hc => by simp [ha c hc]) hstop

lemma path_text_append (b : Base) {segs : List Bytes} (h : ∀ s ∈ segs, IsSegment s) :
    path (b.text ++ pathOf segs) = pathOf (b.segments ++ segs) := by
  have htext : b.text ++ pathOf segs =
      b.scheme ++ colon :: (ascii "//" ++ (b.authority ++ pathOf (b.segments ++ segs))) := by
    simp [Base.text, ascii]
  rw [path, htext, afterScheme_append b.scheme_ne_nil b.isSegment_scheme b.colon_notMem,
    afterAuthority_append b.isSegment_authority]
  refine List.takeWhile_eq_self_iff.mpr (endsPath_pathOf fun s hs => ?_)
  rcases List.mem_append.mp hs with hs | hs
  · exact b.isSegment s hs
  · exact h s hs

/-! ### Dot segments -/

/-- The output without its last segment and the slash before it. -/
def dropSegment (out : Bytes) : Bytes := ((out.reverse.dropWhile (· != slash)).drop 1).reverse

/-- The loop over the input, whose cases are A to E of section 5.2.4. -/
def removeDots : Nat → Bytes → Bytes → Bytes
  | 0, out, _ => out
  | n + 1, out, input =>
    if (ascii "../").isPrefixOf input then removeDots n out (input.drop 3)
    else if (ascii "./").isPrefixOf input then removeDots n out (input.drop 2)
    else if (ascii "/./").isPrefixOf input then removeDots n out (input.drop 2)
    else if input = ascii "/." then removeDots n out [slash]
    else if (ascii "/../").isPrefixOf input then removeDots n (dropSegment out) (input.drop 3)
    else if input = ascii "/.." then removeDots n (dropSegment out) [slash]
    else if input = ascii "." ∨ input = ascii ".." then removeDots n out []
    else match input with
      | [] => out
      | c :: r => removeDots n (out ++ c :: r.takeWhile (· != slash)) (r.dropWhile (· != slash))

/-- Every round takes a byte of the input at least. -/
def removeDotSegments (path : Bytes) : Bytes := removeDots path.length [] path

/-- The dot segments of a path resolved against the segments before them. -/
def resolve (out : List Bytes) : List Bytes → List Bytes
  | [] => out
  | s :: segs =>
    if s = ascii "." then resolve out segs
    else if s = ascii ".." then resolve out.dropLast segs
    else resolve (out ++ [s]) segs

/-- At the end of a path a dot segment leaves its slash. -/
def normalize (out : List Bytes) : List Bytes → List Bytes
  | [] => out
  | [s] =>
    if s = ascii "." then out ++ [[]]
    else if s = ascii ".." then out.dropLast ++ [[]]
    else out ++ [s]
  | s :: t :: segs =>
    if s = ascii "." then normalize out (t :: segs)
    else if s = ascii ".." then normalize out.dropLast (t :: segs)
    else normalize (out ++ [s]) (t :: segs)

lemma dropSegment_append {out s : Bytes} (hs : slash ∉ s) :
    dropSegment (out ++ slash :: s) = out := by
  have hrun : ∀ c ∈ s.reverse, (c != slash) = true := by
    intro c hc
    simpa using fun h : c = slash => hs (h ▸ List.mem_reverse.mp hc)
  rw [dropSegment, List.reverse_append, List.reverse_cons, List.append_assoc,
    dropWhile_run hrun (by simp)]
  simp

lemma dropSegment_pathOf {out : List Bytes} (h : Slashless out) :
    dropSegment (pathOf out) = pathOf out.dropLast := by
  rcases List.eq_nil_or_concat out with rfl | ⟨l, s, rfl⟩
  · rfl
  · rw [List.concat_eq_append, slashless_append, slashless_cons] at h
    rw [List.concat_eq_append, pathOf_append, List.dropLast_concat]
    simpa using @dropSegment_append (pathOf l) _ h.2.1

section Rounds

variable {n : Nat} {out s r : Bytes}

lemma removeDots_nil : removeDots n out [] = out := by
  cases n <;> rfl

lemma removeDots_dot : removeDots (n + 1) out (slash :: dot :: slash :: r) =
    removeDots n out (slash :: r) := by
  simp [removeDots, ascii]

lemma removeDots_dotDot : removeDots (n + 1) out (slash :: dot :: dot :: slash :: r) =
    removeDots n (dropSegment out) (slash :: r) := by
  simp [removeDots, ascii]

/-- A segment that is no dot segment is moved to the output. -/
lemma removeDots_segment (hs : slash ∉ s) (hdot : s ≠ ascii ".") (hdots : s ≠ ascii "..")
    (hr : Stops (· != slash) r) :
    removeDots (n + 1) out (slash :: (s ++ r)) = removeDots n (out ++ slash :: s) r := by
  have hrun : ∀ c ∈ s, (c != slash) = true := by
    intro c hc
    simpa using fun h : c = slash => hs (h ▸ hc)
  have hne : ∀ {t x : Bytes}, slash ∉ t → s ≠ t → Stops (· != slash) x →
      slash :: (s ++ r) ≠ slash :: (t ++ x) := fun ht hst hx he =>
    hst (segment_unique hs ht hr hx (List.tail_eq_of_cons_eq he))
  have hcur : ¬(ascii "/./").isPrefixOf (slash :: (s ++ r)) = true := by
    rintro h
    obtain ⟨x, hx⟩ := List.isPrefixOf_iff_prefix.mp h
    exact hne (t := ascii ".") (x := slash :: x) (by decide) hdot (by simp) hx.symm
  have hup : ¬(ascii "/../").isPrefixOf (slash :: (s ++ r)) = true := by
    rintro h
    obtain ⟨x, hx⟩ := List.isPrefixOf_iff_prefix.mp h
    exact hne (t := ascii "..") (x := slash :: x) (by decide) hdots (by simp) hx.symm
  have hcurEnd : slash :: (s ++ r) ≠ ascii "/." := hne (x := []) (by decide) hdot (by simp)
  have hupEnd : slash :: (s ++ r) ≠ ascii "/.." := hne (x := []) (by decide) hdots (by simp)
  rw [removeDots, if_neg (by simp [ascii]), if_neg (by simp [ascii]), if_neg hcur, if_neg hcurEnd,
    if_neg hup, if_neg hupEnd, if_neg (by simp [ascii])]
  simp only [takeWhile_run hrun hr, dropWhile_run hrun hr]

end Rounds

/-- A slash that ends the input. -/
lemma removeDots_slash {n : Nat} {out : Bytes} : removeDots (n + 1) out [slash] = out ++ [slash] :=
  (removeDots_segment (s := []) (r := []) (by simp) (by decide) (by decide) (by simp)).trans
    removeDots_nil

lemma removeDots_pathOf {n : Nat} {out segs : List Bytes} (hout : Slashless out)
    (hsegs : Slashless segs) (hn : (pathOf segs).length ≤ n) :
    removeDots n (pathOf out) (pathOf segs) = pathOf (normalize out segs) := by
  fun_induction normalize out segs generalizing n with
  | case1 out => exact removeDots_nil
  | case2 out =>
    obtain ⟨n, rfl⟩ : ∃ m, n = m + 2 := ⟨n - 2, by simp [ascii] at hn; omega⟩
    rw [pathOf_append]
    exact removeDots_slash
  | case3 out =>
    obtain ⟨n, rfl⟩ : ∃ m, n = m + 2 := ⟨n - 2, by simp [ascii] at hn; omega⟩
    rw [pathOf_append, ← dropSegment_pathOf hout]
    exact removeDots_slash
  | case4 out s h h' =>
    obtain ⟨n, rfl⟩ : ∃ m, n = m + 1 := ⟨n - 1, by simp at hn; omega⟩
    rw [pathOf_cons, removeDots_segment (slashless_cons.mp hsegs).1 h h' (stops_pathOf _)]
    simpa using removeDots_nil
  | case5 out t segs ih =>
    obtain ⟨n, rfl⟩ : ∃ m, n = m + 1 := ⟨n - 1, by simp at hn; omega⟩
    have hsegs' := (slashless_cons.mp hsegs).2
    exact removeDots_dot.trans (ih hout hsegs' (by simp [ascii] at hn ⊢; omega))
  | case6 out t segs h ih =>
    obtain ⟨n, rfl⟩ : ∃ m, n = m + 1 := ⟨n - 1, by simp at hn; omega⟩
    refine removeDots_dotDot.trans ?_
    rw [dropSegment_pathOf hout]
    exact ih hout.dropLast (slashless_cons.mp hsegs).2 (by simp [ascii] at hn ⊢; omega)
  | case7 out s t segs h h' ih =>
    obtain ⟨n, rfl⟩ : ∃ m, n = m + 1 := ⟨n - 1, by simp at hn; omega⟩
    have hs : slash ∉ s ∧ Slashless (t :: segs) := slashless_cons.mp hsegs
    rw [pathOf_cons, removeDots_segment hs.1 h h' (stops_pathOf _)]
    have hmoved : pathOf out ++ slash :: s = pathOf (out ++ [s]) := by simp
    rw [hmoved]
    exact ih (by simpa using ⟨hout, hs.1⟩) hs.2 (by simp at hn ⊢; omega)

/-- What the removal of dot segments makes of the segments of a path. -/
theorem removeDotSegments_pathOf {segs : List Bytes} (h : Slashless segs) :
    removeDotSegments (pathOf segs) = pathOf (normalize [] segs) :=
  removeDots_pathOf slashless_nil h le_rfl

/-! ### Ordinary segments -/

/-- A segment that the removal leaves where it is. -/
def Ordinary (s : Bytes) : Prop := s ≠ ascii "." ∧ s ≠ ascii ".."

instance (s : Bytes) : Decidable (Ordinary s) := inferInstanceAs (Decidable (_ ∧ _))

lemma slashless_resolve {out segs : List Bytes} (hout : Slashless out) (h : Slashless segs) :
    Slashless (resolve out segs) := by
  fun_induction resolve out segs with
  | case1 out => exact hout
  | case2 out segs ih => exact ih hout (slashless_cons.mp h).2
  | case3 out segs _ ih => exact ih hout.dropLast (slashless_cons.mp h).2
  | case4 out s segs _ _ ih =>
    obtain ⟨hs, h⟩ := slashless_cons.mp h
    exact ih (by simpa using ⟨hout, hs⟩) h

lemma slashless_normalize {out segs : List Bytes} (hout : Slashless out) (h : Slashless segs) :
    Slashless (normalize out segs) := by
  fun_induction normalize out segs with
  | case1 out => exact hout
  | case2 out => simpa using hout
  | case3 out => simpa using hout.dropLast
  | case4 out s => simpa using ⟨hout, (slashless_cons.mp h).1⟩
  | case5 out t segs ih => exact ih hout (slashless_cons.mp h).2
  | case6 out t segs _ ih => exact ih hout.dropLast (slashless_cons.mp h).2
  | case7 out s t segs _ _ ih =>
    obtain ⟨hs, h⟩ := slashless_cons.mp h
    exact ih (by simpa using ⟨hout, hs⟩) h

lemma normalize_append {out : List Bytes} (base segs : List Bytes) (h : segs ≠ []) :
    normalize out (base ++ segs) = normalize (resolve out base) segs := by
  induction base generalizing out with
  | nil => rfl
  | cons s base ih =>
    obtain ⟨t, l, hl⟩ : ∃ t l, base ++ segs = t :: l :=
      List.exists_cons_of_ne_nil (by simp [h])
    rw [List.cons_append, hl, normalize, resolve, ← hl]
    split_ifs <;> exact ih

lemma resolve_ordinary {out segs : List Bytes} (h : ∀ s ∈ segs, Ordinary s) :
    resolve out segs = out ++ segs := by
  induction segs generalizing out with
  | nil => simp [resolve]
  | cons s segs ih =>
    obtain ⟨hs, h⟩ := List.forall_mem_cons.mp h
    rw [resolve, if_neg hs.1, if_neg hs.2, ih h]
    simp

lemma normalize_ordinary {out segs : List Bytes} (h : ∀ s ∈ segs, Ordinary s) :
    normalize out segs = out ++ segs := by
  fun_induction normalize out segs with
  | case1 out => simp
  | case2 out => exact absurd rfl (h _ (by simp)).1
  | case3 out => exact absurd rfl (h _ (by simp)).2
  | case4 out s => rfl
  | case5 out t segs => exact absurd rfl (h _ (by simp)).1
  | case6 out t segs => exact absurd rfl (h _ (by simp)).2
  | case7 out s t segs _ _ ih =>
    rw [ih fun s hs => h s (List.mem_cons_of_mem _ hs)]
    simp

/-- What is left of the segments from a dot segment on. -/
def afterDots (after : List Bytes) : List Bytes := if after = [] then [[]] else after

lemma normalize_dot {out after : List Bytes} (h : ∀ s ∈ after, Ordinary s) :
    normalize out (ascii "." :: after) = out ++ afterDots after := by
  cases after with
  | nil => rfl
  | cons s after => exact normalize_ordinary h

lemma normalize_dotDot {out after : List Bytes} (h : ∀ s ∈ after, Ordinary s) :
    normalize out (ascii ".." :: after) = out.dropLast ++ afterDots after := by
  cases after with
  | nil => rfl
  | cons s after => exact normalize_ordinary h

end Uri
