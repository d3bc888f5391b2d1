import MongrelDB.Contract.Requests

/-!
# What the write callback keeps of a transfer

The buffer holds the chunks that were taken and never more than `kMaxResponseBytes` bytes. As
libcurl ends a transfer at the first chunk that is not taken, a body that is decoded is the whole
body.
-/

namespace MongrelDB

open Text Traced

/-- A chunk as libcurl hands it over, and whether the append of it throws. -/
structure Chunk where
  ptr : Bytes
  size : UInt64
  nmemb : UInt64
  throws : Bool
  length_ptr : ptr.length = size.toNat * nmemb.toNat
  length_lt : ptr.length < 2 ^ 64

namespace Chunk

def write (ch : Chunk) (out : Bytes) : UInt64 × Bytes :=
  writeCb ch.ptr ch.size ch.nmemb ch.throws out

/-- There is room for the chunk and the append does not throw. -/
def Fits (ch : Chunk) (out : Bytes) : Prop :=
  out.length + ch.ptr.length ≤ kMaxResponseBytes ∧ ch.throws = false

instance (ch : Chunk) (out : Bytes) : Decidable (ch.Fits out) := inferInstanceAs (Decidable (_ ∧ _))

/-- The length of the chunk is returned. -/
def Taken (ch : Chunk) (out : Bytes) : Prop := (ch.write out).1.toNat = ch.ptr.length

instance (ch : Chunk) (out : Bytes) : Decidable (ch.Taken out) :=
  inferInstanceAs (Decidable (_ = _))

end Chunk

/-- The buffer after these chunks. -/
def bufferFrom (out : Bytes) : List Chunk → Bytes
  | [] => out
  | ch :: chs => bufferFrom (ch.write out).2 chs

/-- The chunks of these that were taken. -/
def takenFrom (out : Bytes) : List Chunk → List Chunk
  | [] => []
  | ch :: chs =>
    if ch.Taken out then ch :: takenFrom (ch.write out).2 chs else takenFrom (ch.write out).2 chs

/-- A transfer, which libcurl ends with an error at the first chunk that is not taken. -/
def transfer (out : Bytes) : List Chunk → CurlCode × Bytes
  | [] => (.ok, out)
  | ch :: chs =>
    if ch.Taken out then transfer (ch.write out).2 chs else (.writeError, (ch.write out).2)

/-! ### One chunk -/

variable {ch : Chunk} {out : Bytes}

lemma toNat_toUInt64_of_le {n : Nat} (h : n ≤ kMaxResponseBytes) : n.toUInt64.toNat = n :=
  UInt64.toNat_ofNat_of_lt' (h.trans_lt (by decide))

/-- The capacity that is left does not wrap around. -/
lemma toNat_remaining (h : out.length ≤ kMaxResponseBytes) :
    (kMaxResponseBytes.toUInt64 - out.length.toUInt64).toNat =
      kMaxResponseBytes - out.length := by
  have hout : out.length.toUInt64.toNat = out.length := toNat_toUInt64_of_le h
  have hmax : kMaxResponseBytes.toUInt64.toNat = kMaxResponseBytes := rfl
  rw [UInt64.toNat_sub_of_le _ _ (by rw [UInt64.le_iff_toNat_le]; omega), hout, hmax]

lemma Chunk.toNat_count (ch : Chunk) : (ch.size * ch.nmemb).toNat = ch.ptr.length := by
  rw [UInt64.toNat_mul, ← ch.length_ptr, Nat.mod_eq_of_lt ch.length_lt]

/-- The comparisons of the callback are those of the lengths. -/
lemma Chunk.refused_iff (hout : out.length ≤ kMaxResponseBytes) :
    (out.length.toUInt64 > kMaxResponseBytes.toUInt64 ∨
      ch.size * ch.nmemb > kMaxResponseBytes.toUInt64 - out.length.toUInt64) ↔
    ¬out.length + ch.ptr.length ≤ kMaxResponseBytes := by
  have hmax : kMaxResponseBytes.toUInt64.toNat = kMaxResponseBytes := rfl
  rw [gt_iff_lt, gt_iff_lt, UInt64.lt_iff_toNat_lt, UInt64.lt_iff_toNat_lt, toNat_remaining hout,
    toNat_toUInt64_of_le hout, ch.toNat_count, hmax]
  omega

lemma write_eq (hout : out.length ≤ kMaxResponseBytes) :
    ch.write out = if ch.Fits out then (ch.ptr.length.toUInt64, out ++ ch.ptr) else (0, out) := by
  have hcount : ch.size * ch.nmemb = ch.ptr.length.toUInt64 := by
    rw [← ch.toNat_count]
    exact UInt64.ofNat_toNat.symm
  have hptr : ch.ptr.take (ch.size * ch.nmemb).toNat = ch.ptr := by
    rw [ch.toNat_count, List.take_length]
  unfold Chunk.write writeCb
  simp only [ch.refused_iff hout, hptr]
  by_cases hlen : out.length + ch.ptr.length ≤ kMaxResponseBytes
  · rw [if_neg (not_not.mpr hlen), hcount]
    cases ht : ch.throws with
    | true => simp [Chunk.Fits, ht]
    | false => simp [Chunk.Fits, ht, hlen]
  · rw [if_pos hlen, if_neg fun h => hlen h.1]

lemma length_write_le (hout : out.length ≤ kMaxResponseBytes) :
    (ch.write out).2.length ≤ kMaxResponseBytes := by
  rw [write_eq hout]
  split_ifs with h
  · simpa using h.1
  · exact hout

/-- A chunk that is taken is taken as a whole. -/
lemma write_of_taken (hout : out.length ≤ kMaxResponseBytes) (h : ch.Taken out) :
    (ch.write out).2 = out ++ ch.ptr := by
  rw [Chunk.Taken, write_eq hout] at h
  rw [write_eq hout]
  split_ifs at h ⊢ with hfits
  · rfl
  · have hnil : ch.ptr = [] := List.length_eq_zero_iff.mp h.symm
    simp [hnil]

lemma write_of_not_taken (hout : out.length ≤ kMaxResponseBytes) (h : ¬ch.Taken out) :
    (ch.write out).2 = out := by
  rw [Chunk.Taken, write_eq hout] at h
  rw [write_eq hout]
  split_ifs at h ⊢ with hfits
  · have := hfits.1
    exact absurd (toNat_toUInt64_of_le (by omega)) h
  · rfl

/-! ### All chunks -/

variable {chs : List Chunk}

lemma length_bufferFrom_le (hout : out.length ≤ kMaxResponseBytes) :
    (bufferFrom out chs).length ≤ kMaxResponseBytes := by
  induction chs generalizing out with
  | nil => exact hout
  | cons ch chs ih => exact ih (length_write_le hout)

lemma bufferFrom_eq (hout : out.length ≤ kMaxResponseBytes) :
    bufferFrom out chs = out ++ (takenFrom out chs).flatMap Chunk.ptr := by
  induction chs generalizing out with
  | nil => simp [bufferFrom, takenFrom]
  | cons ch chs ih =>
    rw [bufferFrom, takenFrom, ih (length_write_le hout)]
    split_ifs with h
    · rw [List.flatMap_cons, write_of_taken hout h, List.append_assoc]
    · rw [write_of_not_taken hout h]

/-- A transfer without an error has taken all chunks. -/
lemma transfer_spec (hout : out.length ≤ kMaxResponseBytes) :
    transfer out chs = (.ok, out ++ chs.flatMap Chunk.ptr) ∨
      (transfer out chs).1 = .writeError := by
  induction chs generalizing out with
  | nil => simp [transfer]
  | cons ch chs ih =>
    rw [transfer]
    split_ifs with h
    · have hlen : (ch.write out).2.length ≤ kMaxResponseBytes := length_write_le hout
      have := ih hlen
      rwa [write_of_taken hout h, List.append_assoc, ← List.flatMap_cons,
        ← write_of_taken hout h] at this
    · exact .inr rfl

/-! ### Requests -/

/-- What libcurl reports of a request whose body comes in these chunks. It has errors of its own,
but does not pass over one of the callback. -/
def Reports (chs : List Chunk) : Transfer → Prop
  | .initFailed => False
  | .performed rc _ response =>
    response = (transfer [] chs).2 ∧ ((transfer [] chs).1 ≠ .ok → rc = (transfer [] chs).1)

lemma out_request_of_error {c : Client} {method : String} {path : Bytes} {content : Option Bytes}
    {rc : CurlCode} {code : Int} {response : Bytes}
    (h : c.curl (c.requestOf method path content) = .performed rc code response)
    (hrc : rc ≠ .ok) :
    ∃ text, (c.request method path content).out = .error (.thrown (.query text)) := by
  rw [Client.request, ← Client.requestOf]
  simp only [h]
  rw [Run.out_bind_ok (Run.out_emit _)]
  by_cases hsize : rc = .filesizeExceeded ∨ rc = .writeError ∨ response.length > kMaxResponseBytes
  · rw [if_pos hsize]
    exact ⟨_, rfl⟩
  · rw [if_neg hsize]
    cases rc with
    | ok => exact absurd rfl hrc
    | filesizeExceeded => exact absurd (.inl rfl) hsize
    | writeError => exact absurd (.inr (.inl rfl)) hsize
    | other strerror => exact ⟨_, rfl⟩

/-- After any chunks the buffer holds those that were taken. It is never longer than the cap, the
capacity that is left is exact, and the next chunk is taken if and only if it fits. A response that
is decoded has all chunks, and any other ends in an exception. -/
theorem transfer_whole (chs : List Chunk) :
    bufferFrom [] chs = (takenFrom [] chs).flatMap Chunk.ptr ∧
      (bufferFrom [] chs).length ≤ kMaxResponseBytes ∧
      (kMaxResponseBytes.toUInt64 - (bufferFrom [] chs).length.toUInt64).toNat =
        kMaxResponseBytes - (bufferFrom [] chs).length ∧
      (∀ ch : Chunk, ch.write (bufferFrom [] chs) =
        if ch.Fits (bufferFrom [] chs) then
          (ch.ptr.length.toUInt64, bufferFrom [] chs ++ ch.ptr)
        else (0, bufferFrom [] chs)) ∧
      ∀ (c : Client) method path content,
        Reports chs (c.curl (c.requestOf method path content)) →
          (∃ code, c.curl (c.requestOf method path content) =
            .performed .ok code (chs.flatMap Chunk.ptr)) ∨
          ∃ text, (c.request method path content).out = .error (.thrown (.query text)) := by
  have hnil : ([] : Bytes).length ≤ kMaxResponseBytes := Nat.zero_le _
  have hlen : (bufferFrom [] chs).length ≤ kMaxResponseBytes := length_bufferFrom_le hnil
  refine ⟨bufferFrom_eq hnil, hlen, toNat_remaining hlen, fun ch => write_eq hlen,
    fun c method path content h => ?_⟩
  cases hc : c.curl (c.requestOf method path content) with
  | initFailed =>
    rw [hc] at h
    exact h.elim
  | performed rc code response =>
    rw [hc] at h
    obtain ⟨rfl, hrc⟩ := h
    by_cases hok : rc = .ok
    · subst hok
      have hspec : transfer [] chs = _ ∨ _ := transfer_spec hnil
      rcases hspec with ht | ht
      · exact .inl ⟨code, by rw [ht, List.nil_append]⟩
      · cases hrc (by rw [ht]; decide) |>.trans ht
    · exact .inr (out_request_of_error hc hok)

/-- One byte, of which the append may throw. -/
def byteChunk (c : UInt8) (throws : Bool) : Chunk := ⟨[c], 1, 1, throws, rfl, by simp⟩

/-- A chunk that has room in an empty buffer alone. -/
def largeChunk : Chunk :=
  ⟨List.replicate kMaxResponseBytes 0x20, 1, 268435456, false, List.length_replicate, by
    rw [List.length_replicate]
    decide⟩

lemma length_largeChunk : largeChunk.ptr.length = kMaxResponseBytes := List.length_replicate

/-- A client whose responses come in a brace and then in chunks that are not taken. -/
def cutClient : Client :=
  ⟨⟨fun _ => [], fun _ => 0, fun _ => 0⟩, [], fun _ => .performed .writeError 200 (ascii "\x7b")⟩

/-- Behind an open brace the large chunk has no room, and a closing one is taken when its append
does not throw. The request of such a transfer ends at the large chunk, with an exception. -/
theorem transfer_whole_chunks :
    let chs := [byteChunk lbrace false, largeChunk, byteChunk rbrace true, byteChunk rbrace false]
    bufferFrom [] chs = ascii "\x7b\x7d" ∧
      ∃ text, (cutClient.request "GET" (ascii "/health") none).out =
        .error (.thrown (.query text)) := by
  intro chs
  have hopen : (byteChunk lbrace false).write [] = (1, ascii "\x7b") := by decide +kernel
  have hlarge : largeChunk.write (ascii "\x7b") = (0, ascii "\x7b") := by
    obtain ⟨-, -, -, hnext, -⟩ := transfer_whole [byteChunk lbrace false]
    rw [bufferFrom, hopen, bufferFrom] at hnext
    refine (hnext largeChunk).trans (if_neg fun hfits => ?_)
    have hroom := hfits.1
    have hlen : (ascii "\x7b").length = 1 := by decide
    rw [length_largeChunk, hlen] at hroom
    omega
  have hthrows : (byteChunk rbrace true).write (ascii "\x7b") = (0, ascii "\x7b") := by
    decide +kernel
  have hclose : (byteChunk rbrace false).write (ascii "\x7b") = (1, ascii "\x7b\x7d") := by
    decide +kernel
  have hlargeTaken : ¬largeChunk.Taken (ascii "\x7b") := by
    rw [Chunk.Taken, hlarge, length_largeChunk]
    decide
  have htransfer : transfer [] chs = (.writeError, ascii "\x7b") := by
    have hopenTaken : (byteChunk lbrace false).Taken [] := by
      rw [Chunk.Taken, hopen]
      rfl
    rw [transfer, if_pos hopenTaken, hopen, transfer, if_neg hlargeTaken, hlarge]
  obtain ⟨-, -, -, -, hrequest⟩ := transfer_whole chs
  constructor
  · simp only [chs, bufferFrom, hopen, hlarge, hthrows, hclose]
  · have hreports : Reports chs
        (cutClient.curl (cutClient.requestOf "GET" (ascii "/health") none)) :=
      ⟨by rw [htransfer], fun _ => by rw [htransfer]⟩
    rcases hrequest cutClient "GET" (ascii "/health") none hreports with ⟨code, h⟩ | h
    · cases h
    · exact h

end MongrelDB
