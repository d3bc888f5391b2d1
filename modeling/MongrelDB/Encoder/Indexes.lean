import MongrelDB.Encoder.Bodies
import MongrelDB.Json.Balance

/-!
# What the serializer writes for indexes

The JSON value that an index stands for. The tuning numbers of an ANN index go through buffers of
fixed size. Where they fit, the serializer's text denotes this value. Where they do not, the last
brace of the object they are in is cut off, and the text is no JSON text.
-/

namespace MongrelDB

open Text Json

/-- A tuning field, or the default that zero selects. -/
def tuned {α : Type} [DecidableEq α] [OfNat α 0] (n default : α) : α :=
  if n ≠ 0 then n else default

def uint64Tree (n : UInt64) : Tree := .num (uint64Text n)

/-- The token of a count or a size is a literal without fraction and exponent that stands for the
number. -/
lemma decimal_value (n : Nat) :
    ∃ l : NumLit, l.render = decimal n ∧ l.isInt = true ∧ l.value = n := by
  refine ⟨intLit n, ?_, rfl, ?_⟩
  · rw [intLit_render, decimalInt, if_neg (by omega), Int.natAbs_natCast]
  · rw [NumLit.value_of_isInt rfl, intLit_intValue, Int.cast_natCast]

def diskannMembers (index : Index) : List (Bytes × Tree) :=
  [(ascii "r", uint64Tree (tuned index.diskannR 64)),
    (ascii "l", uint64Tree (tuned index.diskannL 128)),
    (ascii "beam_width", uint64Tree (tuned index.diskannBeamWidth 8)),
    (ascii "alpha", .num (decimal (tuned index.diskannAlpha 120).toNat))]

def ivfMembers (index : Index) : List (Bytes × Tree) :=
  [(ascii "nlist", uint64Tree (tuned index.ivfNlist 256)),
    (ascii "nprobe", uint64Tree (tuned index.ivfNprobe 8))]

def productMembers (index : Index) : List (Bytes × Tree) :=
  [(ascii "training_samples", uint64Tree (tuned index.pqTrainingSamples 256000)),
    (ascii "seed", uint64Tree (tuned index.pqSeed 0x9E3779B97F4A7C15)),
    (ascii "rerank_factor", uint64Tree (tuned index.pqRerankFactor 5))]

/-- The settings that every ANN index has; the default algorithm goes without saying. -/
def annHeadMembers (index : Index) : List (Bytes × Tree) :=
  (ascii "m", uint64Tree index.annM) ::
    (ascii "ef_construction", uint64Tree index.annEfConstruction) ::
    (ascii "ef_search", uint64Tree index.annEfSearch) ::
    (ascii "quantization", .str index.annQuantization.wire) ::
    (if index.annAlgorithm ≠ .hnsw then [(ascii "algorithm", .str index.annAlgorithm.wire)]
      else [])

/-- The settings of the algorithm. -/
def algorithmMembers (index : Index) : List (Bytes × Tree) :=
  match index.annAlgorithm with
  | .diskann => [(ascii "diskann", .obj (diskannMembers index))]
  | .ivf => [(ascii "ivf", .obj (ivfMembers index))]
  | .hnsw => []

/-- The settings of the quantization. -/
def quantizationMembers (index : Index) : List (Bytes × Tree) :=
  if index.annQuantization = .product then [(ascii "product", .obj (productMembers index))] else []

/-- The options of an index, if its kind has any. -/
def optionsMembers (index : Index) : List (Bytes × Tree) :=
  match index.kind with
  | .ann => [(ascii "options", .obj [(ascii "ann", .obj
      (annHeadMembers index ++ (algorithmMembers index ++ quantizationMembers index)))])]
  | .minHash => [(ascii "options", .obj [(ascii "minhash", .obj
      [(ascii "permutations", uint64Tree index.minhashPermutations),
        (ascii "bands", uint64Tree index.minhashBands)])])]
  | .learnedRange => [(ascii "options", .obj [(ascii "learned_range", .obj
      [(ascii "epsilon", uint64Tree index.learnedRangeEpsilon)])])]
  | _ => []

/-- The settings that every index has. -/
def indexHeadMembers (index : Index) : List (Bytes × Tree) :=
  (ascii "name", .str index.name) :: (ascii "column_id", intTree index.columnId) ::
    (ascii "kind", .str index.kind.wire) ::
    (match index.predicate with
      | some predicate => [(ascii "predicate", .str predicate)]
      | none => [])

/-- The members of the object that stands for an index. -/
def indexMembers (index : Index) : List (Bytes × Tree) :=
  indexHeadMembers index ++ optionsMembers index

/-! ### Names -/

lemma distinct_singleton (name : Bytes) {t : Tree} (h : t.Distinct) :
    (Tree.obj [(name, t)]).Distinct :=
  .obj (List.nodup_singleton name) (by simpa using h)

lemma distinct_diskannMembers (index : Index) : (Tree.obj (diskannMembers index)).Distinct := by
  have hnames : [ascii "r", ascii "l", ascii "beam_width", ascii "alpha"].Nodup := by decide
  exact .obj hnames (by simp [diskannMembers, uint64Tree, Tree.Distinct.num])

lemma distinct_ivfMembers (index : Index) : (Tree.obj (ivfMembers index)).Distinct := by
  have hnames : [ascii "nlist", ascii "nprobe"].Nodup := by decide
  exact .obj hnames (by simp [ivfMembers, uint64Tree, Tree.Distinct.num])

lemma distinct_productMembers (index : Index) : (Tree.obj (productMembers index)).Distinct := by
  have hnames : [ascii "training_samples", ascii "seed", ascii "rerank_factor"].Nodup := by decide
  exact .obj hnames (by simp [productMembers, uint64Tree, Tree.Distinct.num])

lemma distinct_annMembers (index : Index) : (Tree.obj (annHeadMembers index ++
    (algorithmMembers index ++ quantizationMembers index))).Distinct := by
  have hhead : ∀ m ∈ annHeadMembers index, m.2.Distinct := by
    unfold annHeadMembers
    split <;> simp [uint64Tree, Tree.Distinct.num, Tree.Distinct.str]
  have halgorithm : ∀ m ∈ algorithmMembers index, m.2.Distinct := by
    unfold algorithmMembers
    split <;> simp [distinct_diskannMembers, distinct_ivfMembers]
  have hquantization : ∀ m ∈ quantizationMembers index, m.2.Distinct := by
    unfold quantizationMembers
    split <;> simp [distinct_productMembers]
  have hall : [ascii "m", ascii "ef_construction", ascii "ef_search", ascii "quantization",
      ascii "algorithm", ascii "diskann", ascii "ivf", ascii "product"].Nodup := by decide
  refine .obj (hall.sublist ?_) ?_
  · unfold annHeadMembers algorithmMembers quantizationMembers
    cases index.annAlgorithm <;> cases index.annQuantization <;> simp
  · simp only [List.forall_mem_append]
    exact ⟨hhead, halgorithm, hquantization⟩

lemma distinct_optionsMembers (index : Index) : ∀ m ∈ optionsMembers index, m.2.Distinct := by
  unfold optionsMembers
  cases index.kind with
  | ann => simpa using distinct_singleton _ (distinct_annMembers index)
  | minHash =>
    have hnames : [ascii "permutations", ascii "bands"].Nodup := by decide
    have hminhash : (Tree.obj [(ascii "permutations", uint64Tree index.minhashPermutations),
        (ascii "bands", uint64Tree index.minhashBands)]).Distinct :=
      .obj hnames (by simp [uint64Tree, Tree.Distinct.num])
    simpa using distinct_singleton _ hminhash
  | learnedRange =>
    have hepsilon : (uint64Tree index.learnedRangeEpsilon).Distinct := .num _
    simpa using distinct_singleton _ (distinct_singleton _ hepsilon)
  | _ => simp

/-- No two members of one object of an index have the same name. -/
lemma distinct_indexMembers (index : Index) : (Tree.obj (indexMembers index)).Distinct := by
  have hhead : ∀ m ∈ indexHeadMembers index, m.2.Distinct := by
    unfold indexHeadMembers
    split <;> simp [intTree, Tree.Distinct.num, Tree.Distinct.str]
  have hall : [ascii "name", ascii "column_id", ascii "kind", ascii "predicate",
      ascii "options"].Nodup := by decide
  refine .obj (hall.sublist ?_) ?_
  · unfold indexMembers indexHeadMembers optionsMembers
    cases index.predicate <;> cases index.kind <;> simp
  · rw [indexMembers, List.forall_mem_append]
    exact ⟨hhead, distinct_optionsMembers index⟩

/-! ### The texts of an index -/

def diskannTexts (index : Index) : List (StrLit × Bytes) :=
  [member "r" (uint64Text (tuned index.diskannR 64)),
    member "l" (uint64Text (tuned index.diskannL 128)),
    member "beam_width" (uint64Text (tuned index.diskannBeamWidth 8)),
    member "alpha" (decimal (tuned index.diskannAlpha 120).toNat)]

def ivfTexts (index : Index) : List (StrLit × Bytes) :=
  [member "nlist" (uint64Text (tuned index.ivfNlist 256)),
    member "nprobe" (uint64Text (tuned index.ivfNprobe 8))]

def productTexts (index : Index) : List (StrLit × Bytes) :=
  [member "training_samples" (uint64Text (tuned index.pqTrainingSamples 256000)),
    member "seed" (uint64Text (tuned index.pqSeed 0x9E3779B97F4A7C15)),
    member "rerank_factor" (uint64Text (tuned index.pqRerankFactor 5))]

def annHeadTexts (index : Index) : List (StrLit × Bytes) :=
  member "m" (uint64Text index.annM) ::
    member "ef_construction" (uint64Text index.annEfConstruction) ::
    member "ef_search" (uint64Text index.annEfSearch) ::
    member "quantization" (jsonEscape index.annQuantization.wire) ::
    (if index.annAlgorithm ≠ .hnsw then [member "algorithm" (jsonEscape index.annAlgorithm.wire)]
      else [])

def predicateTexts (index : Index) : List (StrLit × Bytes) :=
  match index.predicate with
  | some predicate => [member "predicate" (jsonEscape predicate)]
  | none => []

def indexHeadTexts (index : Index) : List (StrLit × Bytes) :=
  member "name" (jsonEscape index.name) :: member "column_id" (int64Text index.columnId) ::
    member "kind" (jsonEscape index.kind.wire) :: predicateTexts index

/-- A member whose text is the object of these members, as a buffer of that size keeps it. -/
def bufferText (size : Nat) (name : String) (l : List (StrLit × Bytes)) : Bytes :=
  inBuffer size (laterText [member name (objectText l)])

lemma diskannText_eq (index : Index) :
    diskannText index = bufferText 96 "diskann" (diskannTexts index) := by
  simp only [diskannText, bufferText, diskannTexts, objectText_member, laterText_member,
    laterText_nil, List.cons_append, List.append_assoc, List.append_nil]
  rfl

lemma ivfText_eq (index : Index) : ivfText index = bufferText 64 "ivf" (ivfTexts index) := by
  simp only [ivfText, bufferText, ivfTexts, objectText_member, laterText_member,
    laterText_nil, List.cons_append, List.append_assoc, List.append_nil]
  rfl

lemma productText_eq (index : Index) :
    productText index = bufferText 96 "product" (productTexts index) := by
  simp only [productText, bufferText, productTexts, objectText_member, laterText_member,
    laterText_nil, List.cons_append, List.append_assoc, List.append_nil]
  rfl

def algorithmText (index : Index) : Bytes :=
  match index.annAlgorithm with
  | .diskann => bufferText 96 "diskann" (diskannTexts index)
  | .ivf => bufferText 64 "ivf" (ivfTexts index)
  | .hnsw => []

def quantizationText (index : Index) : Bytes :=
  if index.annQuantization = .product then bufferText 96 "product" (productTexts index) else []

/-- The text of an object with these members up to its last brace. -/
def openText (l : List (StrLit × Bytes)) : Bytes :=
  lbrace :: joined (l.map fun m => memberText m.1 m.2)

@[simp] lemma openText_member (name : String) (text : Bytes) (l : List (StrLit × Bytes)) :
    openText (member name text :: l) =
      lbrace :: (jsonEscape (ascii name) ++ colon :: (text ++ laterText l)) := by
  rw [openText, List.map_cons, joined_cons, List.flatMap_map, memberText_member, laterText]
  simp

lemma laterText_predicateTexts (index : Index) : laterText (predicateTexts index) =
    match index.predicate with
    | some predicate => ascii ",\"predicate\":" ++ jsonEscape predicate
    | none => [] := by
  unfold predicateTexts
  cases index.predicate with
  | some predicate => exact laterText_singleton "predicate" _
  | none => exact laterText_nil

lemma AnnQuantization.jsonEscape_wire (q : AnnQuantization) :
    jsonEscape q.wire = quote :: (q.wire ++ [quote]) := by
  cases q <;> rfl

/-- The text of an ANN index; the texts that go through a buffer come last. -/
lemma annIndexText_eq {index : Index} (h : index.kind = .ann) :
    serializeIndexJson index = openText (indexHeadTexts index) ++
      (ascii ",\"options\":\x7b\"ann\":" ++ (openText (annHeadTexts index) ++
        (algorithmText index ++ (quantizationText index ++ ascii "\x7d\x7d\x7d")))) := by
  have hlast : ∀ b : Bytes, b ++ ascii "\x7d\x7d\x7d" = b ++ (ascii "\x7d\x7d" ++ [rbrace]) :=
    fun _ => rfl
  have halg : laterText (if index.annAlgorithm ≠ .hnsw then
      [member "algorithm" (jsonEscape index.annAlgorithm.wire)] else []) ++ algorithmText index =
        if index.annAlgorithm ≠ .hnsw then
          ascii ",\"algorithm\":\"" ++ (index.annAlgorithm.wire ++ (ascii "\"" ++
            (match index.annAlgorithm with
              | .diskann => diskannText index
              | .ivf => ivfText index
              | .hnsw => [])))
        else [] := by
    unfold algorithmText
    rw [diskannText_eq, ivfText_eq]
    cases index.annAlgorithm with
    | hnsw => rfl
    | diskann =>
      rw [if_pos (by decide), if_pos (by decide), laterText_singleton]
      rfl
    | ivf =>
      rw [if_pos (by decide), if_pos (by decide), laterText_singleton]
      rfl
  rw [serializeIndexJson, indexOptionsText, h]
  simp only [h, indexHeadTexts, annHeadTexts, openText_member, laterText_member,
    laterText_predicateTexts, hlast, AnnQuantization.jsonEscape_wire, quantizationText,
    ← productText_eq, List.cons_append, List.append_assoc]
  rw [← List.append_assoc (laterText _) (algorithmText index), halg]
  rfl

/-! ### What fits in the buffers -/

/-- The tuning numbers that go through a buffer have no more digits than it has room for. -/
structure Index.Fits (index : Index) : Prop where
  diskann : index.kind = .ann → index.annAlgorithm = .diskann →
    (uint64Text (tuned index.diskannR 64)).length +
      (uint64Text (tuned index.diskannL 128)).length +
      (uint64Text (tuned index.diskannBeamWidth 8)).length +
      (decimal (tuned index.diskannAlpha 120).toNat).length ≤ 50
  ivf : index.kind = .ann → index.annAlgorithm = .ivf →
    (uint64Text (tuned index.ivfNlist 256)).length +
      (uint64Text (tuned index.ivfNprobe 8)).length ≤ 36
  product : index.kind = .ann → index.annQuantization = .product →
    (uint64Text (tuned index.pqTrainingSamples 256000)).length +
      (uint64Text (tuned index.pqSeed 0x9E3779B97F4A7C15)).length +
      (uint64Text (tuned index.pqRerankFactor 5)).length ≤ 38

/-- The number of bytes that go into the buffer, the terminator aside. -/
def bufferLength (name : String) (l : List (StrLit × Bytes)) : Nat :=
  (laterText [member name (objectText l)]).length

lemma bufferLength_diskann (index : Index) : bufferLength "diskann" (diskannTexts index) =
    45 + ((uint64Text (tuned index.diskannR 64)).length +
      (uint64Text (tuned index.diskannL 128)).length +
      (uint64Text (tuned index.diskannBeamWidth 8)).length +
      (decimal (tuned index.diskannAlpha 120).toNat).length) := by
  have hnames : (jsonEscape (ascii "diskann")).length = 9 ∧ (jsonEscape (ascii "r")).length = 3 ∧
      (jsonEscape (ascii "l")).length = 3 ∧ (jsonEscape (ascii "beam_width")).length = 12 ∧
      (jsonEscape (ascii "alpha")).length = 7 := ⟨rfl, rfl, rfl, rfl, rfl⟩
  simp only [bufferLength, diskannTexts, laterText_member, objectText_member, laterText_nil,
    List.length_cons, List.length_append, List.length_nil, hnames]
  omega

lemma bufferLength_ivf (index : Index) : bufferLength "ivf" (ivfTexts index) =
    27 + ((uint64Text (tuned index.ivfNlist 256)).length +
      (uint64Text (tuned index.ivfNprobe 8)).length) := by
  have hnames : (jsonEscape (ascii "ivf")).length = 5 ∧ (jsonEscape (ascii "nlist")).length = 7 ∧
      (jsonEscape (ascii "nprobe")).length = 8 := ⟨rfl, rfl, rfl⟩
  simp only [bufferLength, ivfTexts, laterText_member, objectText_member, laterText_nil,
    List.length_cons, List.length_append, List.length_nil, hnames]
  omega

lemma bufferLength_product (index : Index) : bufferLength "product" (productTexts index) =
    57 + ((uint64Text (tuned index.pqTrainingSamples 256000)).length +
      (uint64Text (tuned index.pqSeed 0x9E3779B97F4A7C15)).length +
      (uint64Text (tuned index.pqRerankFactor 5)).length) := by
  have hnames : (jsonEscape (ascii "product")).length = 9 ∧
      (jsonEscape (ascii "training_samples")).length = 18 ∧ (jsonEscape (ascii "seed")).length = 6 ∧
      (jsonEscape (ascii "rerank_factor")).length = 15 := ⟨rfl, rfl, rfl, rfl⟩
  simp only [bufferLength, productTexts, laterText_member, objectText_member, laterText_nil,
    List.length_cons, List.length_append, List.length_nil, hnames]
  omega

/-- The buffers are large enough exactly for the indexes that fit. -/
lemma fits_iff {index : Index} (h : index.kind = .ann) : index.Fits ↔
    (index.annAlgorithm = .diskann → bufferLength "diskann" (diskannTexts index) < 96) ∧
    (index.annAlgorithm = .ivf → bufferLength "ivf" (ivfTexts index) < 64) ∧
    (index.annQuantization = .product → bufferLength "product" (productTexts index) < 96) := by
  rw [bufferLength_diskann, bufferLength_ivf, bufferLength_product]
  constructor
  · intro hf
    refine ⟨fun ha => ?_, fun ha => ?_, fun hq => ?_⟩
    · have := hf.diskann h ha
      omega
    · have := hf.ivf h ha
      omega
    · have := hf.product h hq
      omega
  · rintro ⟨hd, hi, hp⟩
    refine ⟨fun _ ha => ?_, fun _ ha => ?_, fun _ hq => ?_⟩
    · have := hd ha
      omega
    · have := hi ha
      omega
    · have := hp hq
      omega

/-! ### Indexes that fit -/

def algorithmTexts (index : Index) : List (StrLit × Bytes) :=
  match index.annAlgorithm with
  | .diskann => [member "diskann" (objectText (diskannTexts index))]
  | .ivf => [member "ivf" (objectText (ivfTexts index))]
  | .hnsw => []

def quantizationTexts (index : Index) : List (StrLit × Bytes) :=
  if index.annQuantization = .product then [member "product" (objectText (productTexts index))]
  else []

def optionsTexts (index : Index) : List (StrLit × Bytes) :=
  match index.kind with
  | .ann => [member "options" (objectText [member "ann" (objectText
      (annHeadTexts index ++ (algorithmTexts index ++ quantizationTexts index)))])]
  | .minHash => [member "options" (objectText [member "minhash" (objectText
      [member "permutations" (uint64Text index.minhashPermutations),
        member "bands" (uint64Text index.minhashBands)])])]
  | .learnedRange => [member "options" (objectText [member "learned_range" (objectText
      [member "epsilon" (uint64Text index.learnedRangeEpsilon)])])]
  | _ => []

/-- The texts of the members of an index. -/
def indexTexts (index : Index) : List (StrLit × Bytes) :=
  indexHeadTexts index ++ optionsTexts index

lemma bufferText_eq {size : Nat} {name : String} {l : List (StrLit × Bytes)}
    (h : bufferLength name l < size) :
    bufferText size name l = laterText [member name (objectText l)] := by
  apply List.take_of_length_le
  rw [bufferLength] at h
  omega

lemma algorithmText_eq {index : Index} (hk : index.kind = .ann) (h : index.Fits) :
    algorithmText index = laterText (algorithmTexts index) := by
  obtain ⟨hd, hi, -⟩ := (fits_iff hk).mp h
  unfold algorithmText algorithmTexts
  cases ha : index.annAlgorithm with
  | hnsw => rfl
  | diskann => exact bufferText_eq (hd ha)
  | ivf => exact bufferText_eq (hi ha)

lemma quantizationText_eq {index : Index} (hk : index.kind = .ann) (h : index.Fits) :
    quantizationText index = laterText (quantizationTexts index) := by
  obtain ⟨-, -, hp⟩ := (fits_iff hk).mp h
  unfold quantizationText quantizationTexts
  split
  · exact bufferText_eq (hp ‹_›)
  · rfl

lemma openText_append {l : List (StrLit × Bytes)} (hl : l ≠ []) (l' : List (StrLit × Bytes)) :
    openText (l ++ l') = openText l ++ laterText l' := by
  cases l with
  | nil => exact absurd rfl hl
  | cons m l => simp [openText, laterText, joined_cons, List.flatMap_map]

lemma objectText_append {l : List (StrLit × Bytes)} (hl : l ≠ []) (l' : List (StrLit × Bytes)) :
    objectText (l ++ l') = openText l ++ (laterText l' ++ [rbrace]) := by
  rw [← List.append_assoc, ← openText_append hl]
  rfl

/-- An index that fits is written as the object of its members. -/
lemma serializeIndexJson_eq {index : Index} (h : index.Fits) :
    serializeIndexJson index = objectText (indexTexts index) := by
  have hhead : indexHeadTexts index ≠ [] := List.cons_ne_nil _ _
  rw [indexTexts, objectText_append hhead, optionsTexts]
  cases hk : index.kind with
  | ann =>
    have hann : annHeadTexts index ≠ [] := List.cons_ne_nil _ _
    rw [annIndexText_eq hk, algorithmText_eq hk h, quantizationText_eq hk h, laterText_singleton,
      objectText_member, objectText_append hann, laterText_append, laterText_nil]
    simp only [List.cons_append, List.append_assoc]
    rfl
  | minHash =>
    rw [serializeIndexJson, indexOptionsText, hk]
    simp only [hk, indexHeadTexts, openText_member, laterText_member, laterText_predicateTexts,
      objectText_member, laterText_nil, List.cons_append, List.append_assoc, List.append_nil]
    rfl
  | learnedRange =>
    rw [serializeIndexJson, indexOptionsText, hk]
    simp only [hk, indexHeadTexts, openText_member, laterText_member, laterText_predicateTexts,
      objectText_member, laterText_nil, List.cons_append, List.append_assoc, List.append_nil]
    rfl
  | _ =>
    rw [serializeIndexJson, indexOptionsText, hk]
    simp only [hk, indexHeadTexts, openText_member, laterText_member, laterText_predicateTexts,
      laterText_nil, List.cons_append, List.append_assoc, List.append_nil]
    rfl

lemma denotes_decimal (n : Nat) : Denotes (decimal n) (.num (decimal n)) := by
  obtain ⟨l, hl, -⟩ := decimal_value n
  rw [← hl]
  exact denotes_num l

lemma denotes_uint64Text (n : UInt64) : Denotes (uint64Text n) (uint64Tree n) := denotes_decimal _

lemma denotes_diskannTexts (index : Index) :
    List.Forall₂ DenotesMember (diskannTexts index) (diskannMembers index) :=
  .cons (denotes_member _ (denotes_uint64Text _)) (.cons (denotes_member _ (denotes_uint64Text _))
    (.cons (denotes_member _ (denotes_uint64Text _))
    (.cons (denotes_member _ (denotes_decimal _)) .nil)))

lemma denotes_ivfTexts (index : Index) :
    List.Forall₂ DenotesMember (ivfTexts index) (ivfMembers index) :=
  .cons (denotes_member _ (denotes_uint64Text _))
    (.cons (denotes_member _ (denotes_uint64Text _)) .nil)

lemma denotes_productTexts (index : Index) :
    List.Forall₂ DenotesMember (productTexts index) (productMembers index) :=
  .cons (denotes_member _ (denotes_uint64Text _)) (.cons (denotes_member _ (denotes_uint64Text _))
    (.cons (denotes_member _ (denotes_uint64Text _)) .nil))

lemma denotes_annHeadTexts (index : Index) :
    List.Forall₂ DenotesMember (annHeadTexts index) (annHeadMembers index) := by
  refine .cons (denotes_member _ (denotes_uint64Text _)) (.cons
    (denotes_member _ (denotes_uint64Text _)) (.cons (denotes_member _ (denotes_uint64Text _))
    (.cons (denotes_member _ (denotes_jsonEscape _)) ?_)))
  split
  · exact .cons (denotes_member _ (denotes_jsonEscape _)) .nil
  · exact .nil

lemma denotes_indexHeadTexts (index : Index) :
    List.Forall₂ DenotesMember (indexHeadTexts index) (indexHeadMembers index) := by
  refine .cons (denotes_member _ (denotes_jsonEscape _)) (.cons
    (denotes_member _ (denotes_int64Text _)) (.cons (denotes_member _ (denotes_jsonEscape _)) ?_))
  unfold predicateTexts
  cases index.predicate with
  | some predicate => exact .cons (denotes_member _ (denotes_jsonEscape _)) .nil
  | none => exact .nil

/-- A member whose text is that of an object. -/
lemma denotes_object (name : String) {l : List (StrLit × Bytes)} {ms : List (Bytes × Tree)}
    (h : List.Forall₂ DenotesMember l ms) : List.Forall₂ DenotesMember
      [member name (objectText l)] [(ascii name, .obj ms)] :=
  .cons (denotes_member _ (denotesObj_objectText h).denotes) .nil

lemma denotes_optionsTexts (index : Index) :
    List.Forall₂ DenotesMember (optionsTexts index) (optionsMembers index) := by
  unfold optionsTexts optionsMembers
  cases index.kind with
  | ann =>
    refine denotes_object _ (denotes_object _ (List.rel_append (denotes_annHeadTexts index)
      (List.rel_append ?_ ?_)))
    · unfold algorithmTexts algorithmMembers
      cases index.annAlgorithm with
      | diskann => exact denotes_object _ (denotes_diskannTexts index)
      | ivf => exact denotes_object _ (denotes_ivfTexts index)
      | hnsw => exact .nil
    · unfold quantizationTexts quantizationMembers
      split
      · exact denotes_object _ (denotes_productTexts index)
      · exact .nil
  | minHash =>
    exact denotes_object _ (denotes_object _ (.cons (denotes_member _ (denotes_uint64Text _))
      (.cons (denotes_member _ (denotes_uint64Text _)) .nil)))
  | learnedRange =>
    exact denotes_object _ (denotes_object _
      (.cons (denotes_member _ (denotes_uint64Text _)) .nil))
  | _ => exact .nil

theorem denotesObj_serializeIndexJson {index : Index} (h : index.Fits) :
    DenotesObj (serializeIndexJson index) (indexMembers index) := by
  rw [serializeIndexJson_eq h]
  exact denotesObj_objectText
    (List.rel_append (denotes_indexHeadTexts index) (denotes_optionsTexts index))

/-! ### Indexes that do not fit -/

lemma inert_decimal (n : Nat) : (decimal n).all isInert = true := by
  apply List.all_eq_true.mpr
  intro c hc
  have hd := isDigit_of_mem_decimal hc
  simp only [isInert, Bool.and_eq_true, bne_iff_ne]
  refine ⟨⟨⟨?_, ?_⟩, ?_⟩, ?_⟩ <;> rintro rfl <;> exact absurd hd (by decide)

lemma level_memberText {name : String}
    (hq : jsonEscape (ascii name) = quote :: (ascii name ++ [quote]))
    (hname : (ascii name).all isInert = true) {text : Bytes} (htext : text.all isInert = true) :
    Level (memberText (member name text).1 (member name text).2) := by
  rw [memberText_member, hq]
  exact (level_quoted hname).append ((level_of_inert (b := [colon]) rfl).append
    (level_of_inert htext))

/-- What a buffer keeps is cut off if it does not fit. -/
lemma cut_bufferText (size : Nat) (name : String) {l : List (StrLit × Bytes)}
    (hq : jsonEscape (ascii name) = quote :: (ascii name ++ [quote]))
    (hname : (ascii name).all isInert = true) (hsize : (ascii name).length + 5 < size)
    (hl : ∀ m ∈ l, Level (memberText m.1 m.2)) :
    Cut (bufferText size name l) (bufferLength name l < size) := by
  obtain ⟨p, hp, hlength, htext⟩ : ∃ p, Level p ∧ p.length = (ascii name).length + 4 ∧
      ∀ text, laterText [member name text] = p ++ text := by
    refine ⟨comma :: (quote :: (ascii name ++ [quote]) ++ [colon]), ?_, by simp, fun text => ?_⟩
    · exact (level_of_inert (b := [comma]) rfl).append
        ((level_quoted hname).append (level_of_inert (b := [colon]) rfl))
    · rw [laterText_singleton, hq]
      simp
  have hi : Level (joined (l.map fun m => memberText m.1 m.2)) := by
    apply level_joined
    intro t ht
    obtain ⟨m, hm, rfl⟩ := List.mem_map.mp ht
    exact hl m hm
  have hwhole : bufferLength name l < size ↔
      p.length + 1 + (joined (l.map fun m => memberText m.1 m.2)).length < size - 1 := by
    simp only [bufferLength, htext, objectText, List.length_append, List.length_cons,
      List.length_nil]
    omega
  rw [hwhole, bufferText, inBuffer, htext]
  exact cut_take hp hi (by omega)

lemma cut_algorithmText (index : Index) : Cut (algorithmText index)
    ((index.annAlgorithm = .diskann → bufferLength "diskann" (diskannTexts index) < 96) ∧
      (index.annAlgorithm = .ivf → bufferLength "ivf" (ivfTexts index) < 64)) := by
  unfold algorithmText
  cases index.annAlgorithm with
  | hnsw => simpa using cut_nil
  | diskann =>
    have hl : ∀ m ∈ diskannTexts index, Level (memberText m.1 m.2) := by
      simp only [diskannTexts, List.forall_mem_cons, List.not_mem_nil, false_implies, implies_true,
        and_true]
      exact ⟨level_memberText rfl rfl (inert_decimal _), level_memberText rfl rfl (inert_decimal _),
        level_memberText rfl rfl (inert_decimal _), level_memberText rfl rfl (inert_decimal _)⟩
    simpa using cut_bufferText 96 "diskann" rfl rfl (by decide) hl
  | ivf =>
    have hl : ∀ m ∈ ivfTexts index, Level (memberText m.1 m.2) := by
      simp only [ivfTexts, List.forall_mem_cons, List.not_mem_nil, false_implies, implies_true,
        and_true]
      exact ⟨level_memberText rfl rfl (inert_decimal _), level_memberText rfl rfl (inert_decimal _)⟩
    simpa using cut_bufferText 64 "ivf" rfl rfl (by decide) hl

lemma cut_quantizationText (index : Index) : Cut (quantizationText index)
    (index.annQuantization = .product → bufferLength "product" (productTexts index) < 96) := by
  unfold quantizationText
  split
  · have hl : ∀ m ∈ productTexts index, Level (memberText m.1 m.2) := by
      simp only [productTexts, List.forall_mem_cons, List.not_mem_nil, false_implies, implies_true,
        and_true]
      exact ⟨level_memberText rfl rfl (inert_decimal _), level_memberText rfl rfl (inert_decimal _),
        level_memberText rfl rfl (inert_decimal _)⟩
    have hcut := cut_bufferText 96 "product" rfl rfl (by decide) hl
    simpa [‹index.annQuantization = .product›] using hcut
  · simpa [‹¬index.annQuantization = .product›] using cut_nil

lemma run_openText {l : List (StrLit × Bytes)} {ms : List (Bytes × Tree)}
    (h : List.Forall₂ DenotesMember l ms) (k : Int) :
    Scan.run ⟨.plain, k⟩ (openText l) = ⟨.plain, k + 1⟩ := by
  rw [openText, Scan.run_cons]
  exact run_joined h

/-- An index that does not fit is written as no JSON text. -/
theorem render_ne_serializeIndexJson {index : Index} (h : ¬index.Fits) (d : Doc) :
    d.render ≠ serializeIndexJson index := by
  have hk : index.kind = .ann := by
    by_contra hk
    exact h ⟨fun hk' => absurd hk' hk, fun hk' => absurd hk' hk, fun hk' => absurd hk' hk⟩
  have hcut := (cut_algorithmText index).append (cut_quantizationText index)
  rw [and_assoc, ← fits_iff hk] at hcut
  have hopen : Scan.run ⟨.plain, 0⟩ (openText (indexHeadTexts index) ++
      (ascii ",\"options\":\x7b\"ann\":" ++ openText (annHeadTexts index))) = ⟨.plain, 3⟩ := by
    rw [Scan.run_append, run_openText (denotes_indexHeadTexts index), Scan.run_append]
    exact run_openText (denotes_annHeadTexts index) 2
  have hne := hcut.render_ne (c := ascii "\x7d\x7d\x7d") h hopen d
  rw [annIndexText_eq hk]
  simpa only [List.append_assoc] using hne

end MongrelDB
