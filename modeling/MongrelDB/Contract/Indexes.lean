import MongrelDB.Contract.Tables
import MongrelDB.Json.Refused

/-!
# What `serialize_index_json` says about an index

The text of an index is complete exactly if its tuning numbers fit in the buffers they go through.
Two indexes that fit have the same text exactly if they agree on what is written, which leaves out
the number of subvectors and of bits of a product quantization.
-/

namespace MongrelDB

open Text Json

variable {a b : Index}

/-! ### Complete texts -/

/-- An index is written as one object in which all numbers are complete if and only if it fits. -/
theorem serializeIndexJson_complete_iff (index : Index) :
    DenotesObj (serializeIndexJson index) (indexMembers index) ↔ index.Fits := by
  constructor
  · rintro ⟨d, hd, -⟩
    by_contra h
    exact render_ne_serializeIndexJson h d.toDoc hd
  · exact denotesObj_serializeIndexJson

/-- A DiskANN index with the largest numbers that its fields hold. -/
def hugeIndex : Index :=
  { name := ascii "i", columnId := 1, kind := .ann, annAlgorithm := .diskann,
    diskannR := 18446744073709551615, diskannL := 18446744073709551615,
    diskannBeamWidth := 18446744073709551615 }

/-- The last setting and a brace of this index are missing. -/
theorem serializeIndexJson_cut :
    serializeIndexJson hugeIndex =
      ascii "\x7b\"name\":\"i\",\"column_id\":1,\"kind\":\"ann\",\"options\":\x7b\"ann\":\x7b" ++
      ascii "\"m\":16,\"ef_construction\":64,\"ef_search\":64,\"quantization\":\"binary_sign\"," ++
      ascii "\"algorithm\":\"diskann\",\"diskann\":\x7b\"r\":18446744073709551615," ++
      ascii "\"l\":18446744073709551615,\"beam_width\":18446744073709551615\x7d\x7d\x7d" ∧
    ∀ d : Doc, d.render ≠ serializeIndexJson hugeIndex :=
  ⟨by decide +kernel, render_ne_of_parse (by decide +kernel)⟩

/-! ### What is read for an index -/

/-- The indexes agree on the settings that are written; a zero stands for its default. -/
structure Index.WrittenAlike (a b : Index) : Prop where
  name : a.name = b.name
  columnId : a.columnId = b.columnId
  kind : a.kind = b.kind
  predicate : a.predicate = b.predicate
  ann : a.kind = .ann → a.annM = b.annM ∧ a.annEfConstruction = b.annEfConstruction ∧
    a.annEfSearch = b.annEfSearch ∧ a.annQuantization = b.annQuantization ∧
    a.annAlgorithm = b.annAlgorithm
  diskann : a.kind = .ann → a.annAlgorithm = .diskann →
    tuned a.diskannR 64 = tuned b.diskannR 64 ∧ tuned a.diskannL 128 = tuned b.diskannL 128 ∧
    tuned a.diskannBeamWidth 8 = tuned b.diskannBeamWidth 8 ∧
    tuned a.diskannAlpha 120 = tuned b.diskannAlpha 120
  ivf : a.kind = .ann → a.annAlgorithm = .ivf →
    tuned a.ivfNlist 256 = tuned b.ivfNlist 256 ∧ tuned a.ivfNprobe 8 = tuned b.ivfNprobe 8
  product : a.kind = .ann → a.annQuantization = .product →
    tuned a.pqTrainingSamples 256000 = tuned b.pqTrainingSamples 256000 ∧
    tuned a.pqSeed 0x9E3779B97F4A7C15 = tuned b.pqSeed 0x9E3779B97F4A7C15 ∧
    tuned a.pqRerankFactor 5 = tuned b.pqRerankFactor 5
  minHash : a.kind = .minHash → a.minhashPermutations = b.minhashPermutations ∧
    a.minhashBands = b.minhashBands
  learnedRange : a.kind = .learnedRange → a.learnedRangeEpsilon = b.learnedRangeEpsilon

/-- The subvectors and bits of a product quantization, which are not defaulted and defaulted to
eight. -/
def Index.SameCodebook (a b : Index) : Prop :=
  a.pqNumSubvectors = b.pqNumSubvectors ∧ tuned a.pqBits 8 = tuned b.pqBits 8

/-- The indexes agree on all settings that are read for their kind, algorithm and quantization. -/
structure Index.Alike (a b : Index) : Prop extends a.WrittenAlike b where
  codebook : a.kind = .ann → a.annQuantization = .product → a.SameCodebook b

/-! ### Texts determine what is written -/

lemma uint64Tree_inj {m n : UInt64} : uint64Tree m = uint64Tree n ↔ m = n := by
  rw [uint64Tree, uint64Tree, Tree.num.injEq, uint64Text, uint64Text, decimal_inj, UInt64.toNat_inj]

lemma IndexKind.wire_inj {k l : IndexKind} : k.wire = l.wire ↔ k = l := by
  cases k <;> cases l <;> decide

lemma AnnQuantization.wire_inj {q r : AnnQuantization} : q.wire = r.wire ↔ q = r := by
  cases q <;> cases r <;> decide

lemma eq_of_algorithmMembers (halg : a.annAlgorithm = b.annAlgorithm)
    (h : algorithmMembers a = algorithmMembers b) :
    (a.annAlgorithm = .diskann → tuned a.diskannR 64 = tuned b.diskannR 64 ∧
      tuned a.diskannL 128 = tuned b.diskannL 128 ∧
      tuned a.diskannBeamWidth 8 = tuned b.diskannBeamWidth 8 ∧
      tuned a.diskannAlpha 120 = tuned b.diskannAlpha 120) ∧
    (a.annAlgorithm = .ivf → tuned a.ivfNlist 256 = tuned b.ivfNlist 256 ∧
      tuned a.ivfNprobe 8 = tuned b.ivfNprobe 8) := by
  constructor
  · intro ha
    simp only [algorithmMembers, ← halg, ha, diskannMembers, List.cons.injEq, Prod.mk.injEq,
      Tree.obj.injEq, Tree.num.injEq, uint64Tree_inj, decimal_inj, UInt32.toNat_inj, true_and,
      and_true] at h
    exact h
  · intro ha
    simp only [algorithmMembers, ← halg, ha, ivfMembers, List.cons.injEq, Prod.mk.injEq,
      Tree.obj.injEq, uint64Tree_inj, true_and, and_true] at h
    exact h

lemma eq_of_quantizationMembers (hq : a.annQuantization = b.annQuantization)
    (h : quantizationMembers a = quantizationMembers b) (hp : a.annQuantization = .product) :
    tuned a.pqTrainingSamples 256000 = tuned b.pqTrainingSamples 256000 ∧
      tuned a.pqSeed 0x9E3779B97F4A7C15 = tuned b.pqSeed 0x9E3779B97F4A7C15 ∧
      tuned a.pqRerankFactor 5 = tuned b.pqRerankFactor 5 := by
  simp only [quantizationMembers, ← hq, hp, if_true, productMembers, List.cons.injEq,
    Prod.mk.injEq, Tree.obj.injEq, uint64Tree_inj, true_and, and_true] at h
  exact h

lemma eq_of_annHeadMembers (h : annHeadMembers a ++ (algorithmMembers a ++ quantizationMembers a) =
    annHeadMembers b ++ (algorithmMembers b ++ quantizationMembers b)) :
    (a.annM = b.annM ∧ a.annEfConstruction = b.annEfConstruction ∧
      a.annEfSearch = b.annEfSearch ∧ a.annQuantization = b.annQuantization ∧
      a.annAlgorithm = b.annAlgorithm) ∧
    algorithmMembers a = algorithmMembers b ∧ quantizationMembers a = quantizationMembers b := by
  have hnames := congrArg (List.map (·.1)) h
  have halg : a.annAlgorithm = b.annAlgorithm := by
    unfold annHeadMembers algorithmMembers quantizationMembers at hnames
    cases ha : a.annAlgorithm <;> cases hb : b.annAlgorithm <;>
      cases hqa : a.annQuantization <;> cases hqb : b.annQuantization <;>
      simp [ha, hb, hqa, hqb, ascii] at hnames ⊢
  simp only [annHeadMembers, halg, List.cons_append, List.cons.injEq, Prod.mk.injEq, true_and,
    uint64Tree_inj, Tree.str.injEq, AnnQuantization.wire_inj, List.append_cancel_left_eq] at h
  obtain ⟨hm, hc, hs, hq, h⟩ := h
  have hlength : (algorithmMembers a).length = (algorithmMembers b).length := by
    rw [algorithmMembers, algorithmMembers, halg]
    cases b.annAlgorithm <;> rfl
  exact ⟨⟨hm, hc, hs, hq, halg⟩, List.append_inj h hlength⟩

/-- The members of two indexes determine what is written for them. -/
lemma writtenAlike_of_indexMembers (h : indexMembers a = indexMembers b) : a.WrittenAlike b := by
  simp only [indexMembers, indexHeadMembers, List.cons_append, List.cons.injEq, Prod.mk.injEq,
    true_and, Tree.str.injEq, intTree_inj, IndexKind.wire_inj] at h
  obtain ⟨hname, hid, hkind, h⟩ := h
  have hlength : (optionsMembers a).length = (optionsMembers b).length := by
    rw [optionsMembers, optionsMembers, hkind]
    cases b.kind <;> rfl
  obtain ⟨hpredicate, hoptions⟩ := List.append_inj' h hlength
  have hann : a.kind = .ann →
      annHeadMembers a ++ (algorithmMembers a ++ quantizationMembers a) =
        annHeadMembers b ++ (algorithmMembers b ++ quantizationMembers b) := by
    intro hk
    simp only [optionsMembers, ← hkind, hk, List.cons.injEq, Prod.mk.injEq, Tree.obj.injEq,
      true_and, and_true] at hoptions
    exact hoptions
  refine ⟨hname, hid, hkind, ?_, fun hk => ?_, fun hk => ?_, fun hk => ?_, fun hk => ?_,
    fun hk => ?_, fun hk => ?_⟩
  · cases ha : a.predicate <;> cases hb : b.predicate <;> simp [ha, hb] at hpredicate ⊢
    exact hpredicate
  · exact (eq_of_annHeadMembers (hann hk)).1
  · obtain ⟨hhead, halg, -⟩ := eq_of_annHeadMembers (hann hk)
    exact (eq_of_algorithmMembers hhead.2.2.2.2 halg).1
  · obtain ⟨hhead, halg, -⟩ := eq_of_annHeadMembers (hann hk)
    exact (eq_of_algorithmMembers hhead.2.2.2.2 halg).2
  · obtain ⟨hhead, -, hq⟩ := eq_of_annHeadMembers (hann hk)
    exact eq_of_quantizationMembers hhead.2.2.2.1 hq
  · simp only [optionsMembers, ← hkind, hk, List.cons.injEq, Prod.mk.injEq, Tree.obj.injEq,
      uint64Tree_inj, true_and, and_true] at hoptions
    exact hoptions
  · simp only [optionsMembers, ← hkind, hk, List.cons.injEq, Prod.mk.injEq, Tree.obj.injEq,
      uint64Tree_inj, true_and, and_true] at hoptions
    exact hoptions

lemma indexTexts_of_writtenAlike (h : a.WrittenAlike b) : indexTexts a = indexTexts b := by
  have hhead : indexHeadTexts a = indexHeadTexts b := by
    rw [indexHeadTexts, indexHeadTexts, predicateTexts, predicateTexts, h.name, h.columnId, h.kind,
      h.predicate]
  have hoptions : optionsTexts a = optionsTexts b := by
    unfold optionsTexts
    rw [← h.kind]
    cases hk : a.kind with
    | ann =>
      obtain ⟨hm, hc, hs, hq, halg⟩ := h.ann hk
      have hann : annHeadTexts a = annHeadTexts b := by
        rw [annHeadTexts, annHeadTexts, hm, hc, hs, hq, halg]
      have halgorithm : algorithmTexts a = algorithmTexts b := by
        unfold algorithmTexts
        rw [← halg]
        cases ha : a.annAlgorithm with
        | hnsw => rfl
        | diskann =>
          obtain ⟨hr, hl, hbeam, halpha⟩ := h.diskann hk ha
          simp only [diskannTexts, hr, hl, hbeam, halpha]
        | ivf =>
          obtain ⟨hnlist, hnprobe⟩ := h.ivf hk ha
          simp only [ivfTexts, hnlist, hnprobe]
      have hquantization : quantizationTexts a = quantizationTexts b := by
        unfold quantizationTexts
        rw [← hq]
        split
        · obtain ⟨htraining, hseed, hrerank⟩ := h.product hk ‹_›
          simp only [productTexts, htraining, hseed, hrerank]
        · rfl
      simp only [hann, halgorithm, hquantization]
    | minHash => simp only [h.minHash hk]
    | learnedRange => simp only [h.learnedRange hk]
    | _ => rfl
  rw [indexTexts, indexTexts, hhead, hoptions]

/-- Two indexes that fit are written in the same way if and only if they agree on what is
written. -/
lemma serializeIndexJson_eq_iff (ha : a.Fits) (hb : b.Fits) :
    serializeIndexJson a = serializeIndexJson b ↔ a.WrittenAlike b := by
  constructor
  · intro h
    have hparse := (denotesObj_serializeIndexJson ha).denotes.parse
    rw [h, (denotesObj_serializeIndexJson hb).denotes.parse] at hparse
    exact writtenAlike_of_indexMembers (Tree.obj.inj (Option.some.inj hparse)).symm
  · intro h
    rw [serializeIndexJson_eq ha, serializeIndexJson_eq hb, indexTexts_of_writtenAlike h]

/-- Indexes with one text agree on all settings that are read for them if and only if the codebooks
of product quantizations that are otherwise written alike do. -/
theorem serializeIndexJson_alike_iff (ha : a.Fits) (hb : b.Fits) :
    (serializeIndexJson a = serializeIndexJson b → a.Alike b) ↔
      (a.WrittenAlike b → a.kind = .ann → a.annQuantization = .product → a.SameCodebook b) := by
  rw [serializeIndexJson_eq_iff ha hb]
  constructor
  · intro h hw
    exact (h hw).codebook
  · intro h hw
    exact ⟨hw, h hw⟩

/-- DiskANN indexes with a default that is left open and with one that is spelled out. -/
def openIndex : Index :=
  { name := ascii "i", columnId := 1, kind := .ann, annAlgorithm := .diskann }

def spelledIndex : Index :=
  { name := ascii "i", columnId := 1, kind := .ann, annAlgorithm := .diskann, diskannR := 64 }

theorem serializeIndexJson_alike_open : openIndex.Alike spelledIndex := by
  refine (serializeIndexJson_alike_iff ⟨fun _ _ => ?_, ?_, ?_⟩ ⟨fun _ _ => ?_, ?_, ?_⟩).mpr ?_ ?_
  · decide +kernel
  · rintro - ⟨⟩
  · rintro - ⟨⟩
  · decide +kernel
  · rintro - ⟨⟩
  · rintro - ⟨⟩
  · rintro - - ⟨⟩
  · decide +kernel

/-- Product quantizations with different codebooks. -/
def productIndex (subvectors : UInt16) : Index :=
  { name := ascii "i", columnId := 1, kind := .ann, annQuantization := .product,
    pqNumSubvectors := subvectors }

theorem serializeIndexJson_codebook :
    serializeIndexJson (productIndex 8) = serializeIndexJson (productIndex 16) ∧
      ¬(productIndex 8).Alike (productIndex 16) := by
  refine ⟨by decide +kernel, fun h => ?_⟩
  exact absurd (h.codebook rfl rfl).1 (by decide)

end MongrelDB
