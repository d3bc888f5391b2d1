import MongrelDB.Walker.Objects

/-!
# When the extractors keep their contract

A caller expects of an extractor that on an object it answers whether there is a member of the
wanted name and type, that it then hands out the value of that member, and that it leaves the output
alone whenever it answers that there is none (`Extracts`). A missing member is reported as found
unless the object is empty, and a string that is not closed is handed out although none is found;
on all other texts the contract is kept.
-/

namespace MongrelDB

open Text Traced Prog Json JsonParser

/-- What a caller expects of an extractor on a text: `value` is the member of the wanted name and
type, and `read` is how the output is read. -/
def Extracts {α β : Type} (get : α → Call (Bool × α)) (body : Bytes) (value : Obj → Option β)
    (read : α → β) : Prop :=
  (∀ d : ObjDoc, d.render = body → d.obj.distinct = true → ∀ out, ∃ found out',
    (get out).out = .ok (found, out') ∧ (found = true ↔ (value d.obj).isSome = true) ∧
      ∀ b, value d.obj = some b → read out' = b) ∧
  ∀ out out', (get out).out = .ok (false, out') → out' = out

/-- If the text is an object with distinct names, it is empty or has the member. -/
def Present {β : Type} (body : Bytes) (value : Obj → Option β) : Prop :=
  ∀ d : ObjDoc, d.render = body → d.obj.distinct = true →
    d.obj.isEmpty = true ∨ (value d.obj).isSome = true

/-- An extractor that answers as on objects keeps the contract where the member is present, if it
leaves the output alone when it finds none. -/
lemma extracts_iff {α : Type} {get : α → Call (Bool × α)} {body : Bytes}
    (value : Obj → Option α) (a : α)
    (hobj : ∀ d : ObjDoc, d.render = body → d.obj.distinct = true → ∀ out,
      (get out).out = .ok (answer d.obj (value d.obj) out)) :
    Extracts get body value id ↔
      Present body value ∧ ∀ out out', (get out).out = .ok (false, out') → out' = out := by
  constructor
  · rintro ⟨h, hout⟩
    refine ⟨fun d hd hdist => ?_, hout⟩
    obtain ⟨found, out', ho, hfound, -⟩ := h d hd hdist a
    rw [hobj d hd hdist] at ho
    cases ho
    cases hv : value d.obj with
    | some b => exact .inr rfl
    | none => exact .inl (by simpa [hv] using hfound)
  · rintro ⟨h, hout⟩
    refine ⟨fun d hd hdist out => ⟨_, _, hobj d hd hdist out, ?_, ?_⟩, hout⟩
    · rcases h d hd hdist with he | hs
      · simp [he]
      · simp [hs]
    · intro b hb
      simp [hb]

/-! ### Where nothing is found -/

section Unchanged

variable {body key : Bytes}

lemma getNumber_unchanged {out out' : Binary64}
    (h : (getNumber body key out).out = .ok (false, out')) : out' = out := by
  rcases scan_ends (sees_numberHere key) h with h | ⟨h, -⟩ | ⟨z, u, p, -, ho⟩
  · exact congrArg Prod.snd h
  · cases h
  · have htake : Steps tape takeNumber z (true, Binary64.strtod (z.takeWhile isNumberChar))
        (z.dropWhile isNumberChar) := steps_readNumberRaw.trans (steps_isOk.trans steps_pure)
    obtain ⟨t, -, ht⟩ := htake
    rw [ht u] at ho
    cases ho

lemma getUint64_unchanged {out out' : UInt64}
    (h : (getUint64 body key out).out = .ok (false, out')) : out' = out := by
  rcases scan_ends (sees_digitHere key) h with h | ⟨h, -⟩ | ⟨z, u, p, -, ho⟩
  · exact congrArg Prod.snd h
  · cases h
  · have htake : Ends (takeUint64 out) z fun a _ => a = (false, out) ∨ a.1 = true := by
      refine ends_bind_of_steps steps_readNumberRaw (ends_bind_of_steps steps_isOk ?_)
      rw [if_neg (by simp)]
      cases strtoull (z.takeWhile isNumberChar) with
      | mk n rest =>
        simp only
        split
        · exact ends_pure fun _ => .inl rfl
        · exact ends_pure fun _ => .inr rfl
    rcases htake u _ _ ho with h | h
    · exact congrArg Prod.snd h
    · cases h

lemma getBool_unchanged {out out' : Bool}
    (h : (getBool body key out).out = .ok (false, out')) : out' = out := by
  rcases scan_ends (sees_boolHere key) h with h | ⟨h, -⟩ | ⟨z, u, p, ⟨w, -, hr⟩, ho⟩
  · exact congrArg Prod.snd h
  · cases h
  · obtain ⟨⟨k, hk⟩, hz⟩ := hr.isHit
    -- the word is read whatever it is
    obtain ⟨c, z, rfl, hc⟩ : ∃ c y, z = c :: y ∧ (c = 0x74 ∨ c = 0x66) := by
      cases z with
      | nil => simp at hk
      | cons c y => exact ⟨c, y, rfl, by simpa using (Bool.and_eq_true_iff.mp hk).2⟩
    have hread : ReadsValue (c :: z) (.bool (c :: z.takeWhile isLetter == ascii "true"))
        (z.dropWhile isLetter) := ⟨c, z, hz, .inr (.inr (.inl ⟨hc, rfl, rfl⟩))⟩
    have htake : Steps tape takeBool (c :: z) (true, c :: z.takeWhile isLetter == ascii "true")
        (z.dropWhile isLetter) :=
      (reads_readValue.complete _ _ hread).trans (Steps.trans steps_pure
        (steps_isOk.trans steps_pure))
    obtain ⟨t, -, ht⟩ := htake
    rw [ht u] at ho
    cases ho

lemma takeRaw_unchanged {out out' u z : Bytes} {p : JsonParser}
    (h : (takeRaw out).out (tape.cut u z) = .ok ((false, out'), p)) : out' = out := by
  rw [takeRaw, out_bind_ok out_cursor] at h
  obtain ⟨_, p₁, -, h⟩ := out_bind_eq_ok h
  obtain ⟨ok, p₂, -, h⟩ := out_bind_eq_ok h
  cases ok with
  | false => cases h; rfl
  | true =>
    rw [if_neg (by simp)] at h
    obtain ⟨_, p₃, -, h⟩ := out_bind_eq_ok h
    obtain ⟨_, p₄, -, h⟩ := out_bind_eq_ok h
    cases h

lemma getObjectRaw_unchanged {out out' : Bytes}
    (h : (getObjectRaw body key out).out = .ok (false, out')) : out' = out := by
  rcases scan_ends (sees_keyIs key lbrace) h with h | ⟨h, -⟩ | ⟨z, u, p, -, ho⟩
  · exact congrArg Prod.snd h
  · cases h
  · exact takeRaw_unchanged ho

lemma getArrayRaw_unchanged {out out' : Bytes}
    (h : (getArrayRaw body key out).out = .ok (false, out')) : out' = out := by
  rcases scan_ends (sees_keyIs key lbracket) h with h | ⟨h, -⟩ | ⟨z, u, p, -, ho⟩
  · exact congrArg Prod.snd h
  · cases h
  · exact takeRaw_unchanged ho

/-- The scan for a string member does not come to a string that no quote closes. -/
def NoOpenString (body key : Bytes) : Prop :=
  ∀ z, ReachesIn (fun k c => k == key && c == some quote) body (quote :: z) → ∃ s r, Quoted z s r

lemma getString_unchanged_iff :
    (∀ out out', (getString body key out).out = .ok (false, out') → out' = out) ↔
      NoOpenString body key := by
  constructor
  · intro h z hz
    by_contra hopen
    have hscan : ∀ out, ∃ t, body = t ++ quote :: z ∧
        (getString body key out).out = (takeString.out (tape.cut t (quote :: z))).map Prod.fst :=
      fun out => out_scan_of_reaches (sees_keyIs key quote) hz
    obtain ⟨t, hbody, -⟩ := hscan []
    obtain ⟨s, p, hs⟩ := exists_out_readStringRaw t z
    have hok : p.ok = false := by
      by_contra hp
      obtain ⟨r, hq⟩ := reads_readStringRaw.sound t s p hs (Bool.eq_true_of_not_eq_false hp)
      exact hopen ⟨s, r, hq⟩
    have htake : takeString.out (tape.cut t (quote :: z)) = .ok ((false, s), p) := by
      rw [takeString, out_bind_ok hs, out_bind_ok (show isOk.out p = .ok (false, p) by
        rw [← hok]; rfl)]
      rfl
    -- the contents of the open string are handed out, whatever the output was
    obtain ⟨t', hbody', ho⟩ := hscan (s ++ [0])
    obtain rfl : t = t' := List.append_cancel_right (hbody.symm.trans hbody')
    rw [htake] at ho
    have := congrArg List.length (h _ _ ho)
    simp at this
  · intro h out out' ho
    rcases scan_ends (sees_keyIs key quote) ho with ho | ⟨ho, -⟩ | ⟨z, u, p, hr, ho⟩
    · exact congrArg Prod.snd ho
    · cases ho
    · obtain ⟨⟨k, hk⟩, -⟩ := hr.choose_spec.2.isHit
      obtain ⟨z, rfl⟩ : ∃ y, z = quote :: y :=
        List.head?_eq_some_iff.mp (by simpa using (Bool.and_eq_true_iff.mp hk).2)
      obtain ⟨s, r, hq⟩ := h z hr
      have htake : Steps tape takeString (quote :: z) (true, s) r :=
        (reads_readStringRaw.complete s r hq).trans (steps_isOk.trans steps_pure)
      obtain ⟨t, -, ht⟩ := htake
      rw [ht u] at ho
      cases ho

end Unchanged

/-! ### The contract -/

/-- There is a number of that name which is not negative, and which is below `2 ^ 64` if it is an
integer. -/
def UintPresent (o : Obj) (key : Bytes) : Prop :=
  ∃ n, (o.lookup key).bind Cst.asUnsigned = some n ∧
    (n.isInt = true → readNat n.int.text < 2 ^ 64)

def PresentUint (body key : Bytes) : Prop :=
  ∀ d : ObjDoc, d.render = body → d.obj.distinct = true →
    d.obj.isEmpty = true ∨ UintPresent d.obj key

lemma extracts_uint64_iff (body key : Bytes) :
    Extracts (getUint64 body key) body (fun o => o.uintAt key) UInt64.toNat ↔
      PresentUint body key := by
  constructor
  · rintro ⟨h, -⟩ d hd hdist
    obtain ⟨found, out', ho, hfound, hval⟩ := h d hd hdist 0
    rw [← hd, getUint64_object hdist] at ho
    simp only [Obj.uintAt] at hfound hval
    cases hn : (d.obj.lookup key).bind Cst.asUnsigned with
    | none =>
      rw [hn] at ho hfound
      cases ho
      exact .inl (by simpa using hfound)
    | some n =>
      refine .inr ⟨n, hn, fun hi => ?_⟩
      rw [hn] at ho hval
      simp only [uint64Answer, hi, if_true] at ho
      cases ho
      have hv := hval (readNat n.int.text) (by simp [hi])
      rw [← hv]
      exact UInt64.toNat_lt _
  · intro h
    refine ⟨fun d hd hdist out => ?_, fun out out' => getUint64_unchanged⟩
    rw [← hd, getUint64_object hdist]
    simp only [Obj.uintAt]
    rcases h d hd hdist with he | ⟨n, hn, hlt⟩
    · have hn : (d.obj.lookup key).bind Cst.asUnsigned = none := by
        cases hobj : d.obj with
        | empty w => rfl
        | members ms => rw [hobj] at he; cases he
      rw [hn]
      exact ⟨_, _, rfl, by simp [he], by simp⟩
    · rw [hn]
      cases hi : n.isInt with
      | false => exact ⟨false, out, by simp [uint64Answer, hi], by simp [hi], by simp [hi]⟩
      | true =>
        have hlt := hlt hi
        refine ⟨true, UInt64.ofNat (readNat n.int.text), ?_, by simp [hi], ?_⟩
        · simp only [uint64Answer, hi, if_true, if_neg (Nat.not_le.mpr hlt)]
        · rintro b hb
          obtain rfl : readNat n.int.text = b := by simpa [hi] using hb
          exact UInt64.toNat_ofNat_of_lt' hlt

lemma extracts_string_iff (body key : Bytes) :
    Extracts (getString body key) body (fun o => o.strAt key) id ↔
      Present body (fun o => o.strAt key) ∧ NoOpenString body key := by
  rw [← getString_unchanged_iff]
  exact extracts_iff _ [] fun d hd hdist out => by rw [← hd, getString_object hdist]

lemma extracts_number_iff (body key : Bytes) :
    Extracts (getNumber body key) body (fun o => (o.numAt key).map NumLit.toBinary64) id ↔
      Present body fun o => o.numAt key := by
  rw [extracts_iff (fun o => (o.numAt key).map NumLit.toBinary64) ⟨0⟩
    fun d hd hdist out => by rw [← hd, getNumber_object hdist]]
  simp only [Present, Option.isSome_map]
  exact and_iff_left fun _ _ => getNumber_unchanged

lemma extracts_bool_iff (body key : Bytes) :
    Extracts (getBool body key) body (fun o => o.boolAt key) id ↔
      Present body fun o => o.boolAt key := by
  rw [extracts_iff _ false fun d hd hdist out => by rw [← hd, getBool_object hdist]]
  exact and_iff_left fun _ _ => getBool_unchanged

lemma extracts_objectRaw_iff (body key : Bytes) :
    Extracts (getObjectRaw body key) body (fun o => (o.objAt key).map Obj.render) id ↔
      Present body fun o => o.objAt key := by
  rw [extracts_iff (fun o => (o.objAt key).map Obj.render) []
    fun d hd hdist out => by rw [← hd, getObjectRaw_object hdist]]
  simp only [Present, Option.isSome_map]
  exact and_iff_left fun _ _ => getObjectRaw_unchanged

lemma extracts_arrayRaw_iff (body key : Bytes) :
    Extracts (getArrayRaw body key) body (fun o => (o.arrAt key).map Cst.render) id ↔
      Present body fun o => o.arrAt key := by
  rw [extracts_iff (fun o => (o.arrAt key).map Cst.render) []
    fun d hd hdist out => by rw [← hd, getArrayRaw_object hdist]]
  simp only [Present, Option.isSome_map]
  exact and_iff_left fun _ _ => getArrayRaw_unchanged

/-- When the six extractors keep their contract, for every byte string and every key. -/
theorem extractors_contract_iff (body key : Bytes) :
    (Extracts (getString body key) body (fun o => o.strAt key) id ↔
      Present body (fun o => o.strAt key) ∧ NoOpenString body key) ∧
    (Extracts (getNumber body key) body (fun o => (o.numAt key).map NumLit.toBinary64) id ↔
      Present body fun o => o.numAt key) ∧
    (Extracts (getUint64 body key) body (fun o => o.uintAt key) UInt64.toNat ↔
      PresentUint body key) ∧
    (Extracts (getBool body key) body (fun o => o.boolAt key) id ↔
      Present body fun o => o.boolAt key) ∧
    (Extracts (getObjectRaw body key) body (fun o => (o.objAt key).map Obj.render) id ↔
      Present body fun o => o.objAt key) ∧
    (Extracts (getArrayRaw body key) body (fun o => (o.arrAt key).map Cst.render) id ↔
      Present body fun o => o.arrAt key) :=
  ⟨extracts_string_iff body key, extracts_number_iff body key, extracts_uint64_iff body key,
    extracts_bool_iff body key, extracts_objectRaw_iff body key, extracts_arrayRaw_iff body key⟩

/-- In an object with a single member of another name, each extractor says that it has found
something. -/
theorem extractors_contract_fails :
    let body := ascii "\x7b\"a\":null\x7d"
    let key := ascii "b"
    ¬Extracts (getString body key) body (fun o => o.strAt key) id ∧
      ¬Extracts (getNumber body key) body (fun o => (o.numAt key).map NumLit.toBinary64) id ∧
      ¬Extracts (getUint64 body key) body (fun o => o.uintAt key) UInt64.toNat ∧
      ¬Extracts (getBool body key) body (fun o => o.boolAt key) id ∧
      ¬Extracts (getObjectRaw body key) body (fun o => (o.objAt key).map Obj.render) id ∧
      ¬Extracts (getArrayRaw body key) body (fun o => (o.arrAt key).map Cst.render) id := by
  intro body key
  let d : ObjDoc :=
    ⟨Ws.none, .members (.last ⟨Ws.none, [.raw 0x61 rfl], Ws.none⟩ Ws.none .null Ws.none), Ws.none⟩
  have hd : d.render = body := by decide
  have hdist : d.obj.distinct = true := by decide
  have hkey : d.obj.lookup key = none := by decide
  have habsent : ∀ {β : Type} (value : Obj → Option β),
      value d.obj = none → ¬Present body value := by
    intro β value hv h
    rcases h d hd hdist with h | h
    · cases h
    · rw [hv] at h
      cases h
  rw [extracts_string_iff, extracts_number_iff, extracts_uint64_iff, extracts_bool_iff,
    extracts_objectRaw_iff, extracts_arrayRaw_iff]
  refine ⟨fun h => habsent _ ?_ h.1, habsent _ ?_, ?_, habsent _ ?_, habsent _ ?_, habsent _ ?_⟩
  · simp only [Obj.strAt, hkey, Option.bind_none, Option.map_none]
  · simp only [Obj.numAt, hkey, Option.bind_none]
  · intro h
    rcases h d hd hdist with h | ⟨n, hn, -⟩
    · cases h
    · rw [hkey] at hn
      cases hn
  · simp only [Obj.boolAt, hkey, Option.bind_none]
  · simp only [Obj.objAt, hkey, Option.bind_none]
  · simp only [Obj.arrAt, hkey, Option.bind_none]

end MongrelDB
