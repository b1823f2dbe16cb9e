import VarahaCache.Transport.Chunks
import VarahaCache.Transport.Connection

/-!
# Request bodies

What `read_body` takes on its way to a body, what it makes of a chunked
body, and where it leaves the connection. The sum of the body read so far
and the size of the next chunk is one of machine words, and the size is the
client's: once the sum wraps around, the limit is no limit.
-/

namespace VarahaCache

open Text List Wire

/-! ## What it takes -/

/-- What `read_body` computes and asks memory for: a line, the sum `body.len()
+ chunk_size`, and a buffer behind the bytes held already. -/
inductive Work
  | line (length : Nat)
  | sum (held size : Nat)
  | buffer (held size : Nat)
deriving DecidableEq

/-- The work of one round of the loop over the chunks. -/
def chunkWork (maxSize : Nat) (body stream : List UInt8) : List Work :=
  .line (Lib.readUntil 10 stream).1.length ::
    match readLine stream with
    | .error _ => []
    | .ok (sizeLine, rest) =>
      match requestChunkSize sizeLine with
      | .error _ => []
      | .ok 0 => [.line (Lib.readUntil 10 rest).1.length]
      | .ok size =>
        .sum body.length size ::
          if maxSize < Words.wrappingAdd 64 body.length size then []
          else [.buffer body.length size]

def chunksWork (maxSize : Nat) (body stream : List UInt8) : List Work :=
  match _hread : readChunk requestChunkSize (some maxSize) body stream with
  | .ok (.data chunk rest) =>
    chunkWork maxSize body stream ++ chunksWork maxSize (body ++ chunk) rest
  | _ => chunkWork maxSize body stream
termination_by stream.length
decreasing_by exact readChunk_length _hread

def readBodyWork (msg : HttpMessage) (maxSize : Nat) (stream : List UInt8) : List Work :=
  match msg.bodyStatus with
  | .length =>
    let length := ((msg.getHeader "Content-Length").bind parseUsize).getD 0
    if length = 0 ∨ maxSize < length then [] else [.buffer 0 length]
  | .chunked => chunksWork maxSize [] stream
  | _ => []

/-- No sum leaves the machine word, and nothing is longer than the limit. -/
def Work.Bounded (maxSize : Nat) : Work → Prop
  | .line length => length ≤ maxSize
  | .sum held size => held + size < 2 ^ 64
  | .buffer held size => held + size ≤ maxSize

instance (maxSize : Nat) : DecidablePred (Work.Bounded maxSize) := fun work =>
  match work with
  | .line length => inferInstanceAs (Decidable (length ≤ maxSize))
  | .sum held size => inferInstanceAs (Decidable (held + size < 2 ^ 64))
  | .buffer held size => inferInstanceAs (Decidable (held + size ≤ maxSize))

variable {body stream : List UInt8} {maxSize held size : Nat}

theorem sum_of_buffer_mem_chunkWork (h : .buffer held size ∈ chunkWork maxSize body stream) :
    .sum held size ∈ chunkWork maxSize body stream ∧ Words.wrappingAdd 64 held size ≤ maxSize := by
  unfold chunkWork at h ⊢
  split at h
  · simp at h
  split at h
  · simp at h
  · simp at h
  · split_ifs at h with hmax
    · simp at h
    simp only [mem_cons, not_mem_nil, reduceCtorEq, false_or, or_false, Work.buffer.injEq] at h
    obtain ⟨rfl, rfl⟩ := h
    exact ⟨by simp, by omega⟩

theorem sum_of_buffer_mem_chunksWork (h : .buffer held size ∈ chunksWork maxSize body stream) :
    .sum held size ∈ chunksWork maxSize body stream ∧ Words.wrappingAdd 64 held size ≤ maxSize := by
  fun_induction chunksWork maxSize body stream with
  | case1 body stream chunk rest hread ih =>
    rcases mem_append.mp h with h | h
    · obtain ⟨hsum, hmax⟩ := sum_of_buffer_mem_chunkWork h
      exact ⟨mem_append_left _ hsum, hmax⟩
    · obtain ⟨hsum, hmax⟩ := ih h
      exact ⟨mem_append_right _ hsum, hmax⟩
  | case2 body stream hlast => exact sum_of_buffer_mem_chunkWork h

def chunkedPost : HttpMessage :=
  { (HttpMessage.newRequest .post "/" .http11).setHeader "Transfer-Encoding" "chunked" with
    bodyStatus := .chunked }

/-! ## Chunked bodies -/

theorem requestChunkSize_of_digits {size : List Char}
    (hsize : ∀ c ∈ size, (toDigit 16 c).isSome) (hne : size ≠ []) :
    requestChunkSize (String.ofList size ++ "\r\n") =
      if radixToNat 16 size < 2 ^ 64 then .ok (radixToNat 16 size)
      else .error (.httpParse "invalid chunk size: number too large to fit in target type") := by
  rw [requestChunkSize, fromStrRadix_size hsize hne]
  split
  · rfl
  · rfl

theorem readChunk_plain {maxSize : Nat} (hmax : maxSize < 2 ^ 64) {body : List UInt8}
    (hlimit : body.length ≤ maxSize) {c : Chunk} (hplain : c.extension = []) (rest : List UInt8) :
    readChunk requestChunkSize (some maxSize) body (c.bytes ++ rest) =
      if 2 ^ 64 ≤ c.data.length then
        .error (.httpParse "invalid chunk size: number too large to fit in target type")
      else if 2 ^ 64 ≤ body.length + c.data.length then .error .panicked
      else if maxSize < body.length + c.data.length then .error .requestTooLarge
      else if isizeMax < body.length + c.data.length then .error .panicked
      else .ok (.data c.data rest) := by
  have hsize := requestChunkSize_of_digits c.size_digits c.size_ne
  rw [c.size_value] at hsize
  by_cases hover : 2 ^ 64 ≤ c.data.length
  · have hbytes : c.bytes ++ rest = sizeLine c.size [] ++ (c.data ++ (crlf ++ rest)) := by
      simp [Chunk.bytes, hplain]
    rw [if_neg (by omega)] at hsize
    rw [if_pos hover, hbytes, readChunk, readLine_size c.size_digits]
    simp only [hsize]
  rw [if_pos (by omega)] at hsize
  rw [if_neg hover, readChunk_of_size hplain hsize]
  simp only [Option.any_some, decide_eq_true_eq]
  by_cases hwrap : 2 ^ 64 ≤ body.length + c.data.length
  · -- the sum wraps around to less than the body
    have hsum : Words.wrappingAdd 64 body.length c.data.length =
        body.length + c.data.length - 2 ^ 64 := by
      rw [Words.wrappingAdd, Nat.mod_eq_sub_mod hwrap, Nat.mod_eq_of_lt (by omega)]
    have halloc : isizeMax < body.length + c.data.length := by
      simp only [isizeMax]
      omega
    rw [hsum, if_neg (by omega), if_pos halloc, if_pos hwrap]
  · rw [Words.wrappingAdd_of_lt (by omega), if_neg hwrap]

/-- Up to the chunk that goes over the limit, no sum leaves the machine word
and the body is no longer than a vector can be. -/
def Countable (maxSize : Nat) : Nat → List Chunk → Prop
  | held, [] => held ≤ isizeMax
  | held, c :: more =>
    held ≤ isizeMax ∧ held + c.data.length < 2 ^ 64 ∧
      (held + c.data.length ≤ maxSize → Countable maxSize (held + c.data.length) more)

theorem Countable.held_le {maxSize held : Nat} {chunks : List Chunk}
    (h : Countable maxSize held chunks) : held ≤ isizeMax := by
  cases chunks with
  | nil => exact h
  | cons c more => exact h.1

/-- A run on chunks, in front of whatever ends the loop: all of them
within the limit, one error over it, and another if they cannot be counted. -/
theorem readChunks_plain {maxSize : Nat} (hmax : maxSize < 2 ^ 64) {tail rest : List UInt8}
    (htail : ∀ body, readChunk requestChunkSize (some maxSize) body tail = .ok (.last rest))
    (chunks : List Chunk) (hplain : ∀ c ∈ chunks, c.extension = []) (body : List UInt8)
    (hbody : body.length ≤ isizeMax) (hlimit : body.length ≤ maxSize) :
    let total := body.length + (chunks.flatMap Chunk.data).length
    let read := readChunks requestChunkSize (some maxSize) body (chunks.flatMap Chunk.bytes ++ tail)
    (Countable maxSize body.length chunks →
      read = if total ≤ maxSize then .ok (body ++ chunks.flatMap Chunk.data, rest)
        else .error .requestTooLarge) ∧
    (¬ Countable maxSize body.length chunks → ∃ e, read = .error e ∧ e ≠ .requestTooLarge) := by
  induction chunks generalizing body with
  | nil =>
    have hread : readChunks requestChunkSize (some maxSize) body tail = .ok (body, rest) := by
      rw [readChunks_eq, htail]
    simpa [Countable, hbody, hlimit] using hread
  | cons c more ih =>
    obtain ⟨hc, hmore⟩ := forall_mem_cons.mp hplain
    have hbytes : (c :: more).flatMap Chunk.bytes ++ tail =
        c.bytes ++ (more.flatMap Chunk.bytes ++ tail) := by simp
    have hround := readChunk_plain hmax hlimit hc (more.flatMap Chunk.bytes ++ tail)
    rw [hbytes, readChunks_eq, hround, flatMap_cons, length_append]
    simp only [Countable, hbody, true_and]
    by_cases hwrap : 2 ^ 64 ≤ body.length + c.data.length
    · refine ⟨fun hcount => absurd hcount.1 (by omega), fun _ => ?_⟩
      by_cases hsize : 2 ^ 64 ≤ c.data.length
      · rw [if_pos hsize]
        exact ⟨_, rfl, by simp⟩
      · rw [if_neg hsize, if_pos hwrap]
        exact ⟨_, rfl, by simp⟩
    rw [if_neg (by omega), if_neg hwrap]
    by_cases hover : maxSize < body.length + c.data.length
    · rw [if_pos hover]
      refine ⟨fun _ => by rw [if_neg (by omega)], fun hcount => absurd ?_ hcount⟩
      exact ⟨by omega, fun hle => absurd hle (by omega)⟩
    rw [if_neg hover]
    by_cases halloc : isizeMax < body.length + c.data.length
    · rw [if_pos halloc]
      refine ⟨fun hcount => ?_, fun _ => ⟨_, rfl, by simp⟩⟩
      exact absurd (hcount.2 (by omega)).held_le (by omega)
    rw [if_neg halloc]
    have hlater := ih hmore (body ++ c.data) (by rw [length_append]; omega)
      (by rw [length_append]; omega)
    simp only [length_append, append_assoc] at hlater
    rw [← Nat.add_assoc]
    refine ⟨fun hcount => hlater.1 (hcount.2 (by omega)), fun hcount => hlater.2 ?_⟩
    exact fun hmore => hcount ⟨by omega, fun _ => hmore⟩

/-! What is held while the loop does not panic is within the limit. -/

theorem buffer_le_of_mem_chunkWork
    (hbody : body.length ≤ isizeMax) (h : .buffer held size ∈ chunkWork maxSize body stream)
    (hread : readChunk requestChunkSize (some maxSize) body stream ≠ .error .panicked) :
    held + size ≤ maxSize := by
  unfold chunkWork at h
  unfold readChunk at hread
  split at h
  · simp at h
  rename_i sizeLine rest hline
  simp only [hline] at hread
  split at h
  · simp at h
  · simp at h
  · rename_i size' hne hsize
    split_ifs at h with hmax
    · simp at h
    simp only [mem_cons, not_mem_nil, reduceCtorEq, false_or, or_false, Work.buffer.injEq] at h
    obtain ⟨rfl, rfl⟩ := h
    rw [hsize] at hread
    split at hread
    · rename_i heq
      cases heq
    · rename_i heq
      exact absurd (Except.ok.inj heq) hne
    · rename_i size' _ heq
      obtain rfl : size = size' := Except.ok.inj heq
      simp only [Option.any_some, decide_eq_true_eq, if_neg hmax] at hread
      have halloc : size ≤ isizeMax := by
        by_contra hover
        rw [if_pos (by omega)] at hread
        exact hread rfl
      have hlt : body.length + size < 2 ^ 64 := by
        simp only [isizeMax] at hbody halloc
        omega
      rw [Words.wrappingAdd_of_lt hlt] at hmax
      omega

theorem buffer_le_of_mem_chunksWork
    (hbody : body.length ≤ isizeMax) (h : .buffer held size ∈ chunksWork maxSize body stream)
    (hread : readChunks requestChunkSize (some maxSize) body stream ≠ .error .panicked) :
    held + size ≤ maxSize := by
  fun_induction chunksWork maxSize body stream with
  | case1 body stream chunk rest hchunk ih =>
    rw [readChunks_eq, hchunk] at hread
    rcases mem_append.mp h with h | h
    · exact buffer_le_of_mem_chunkWork hbody h (by simp [hchunk])
    refine ih ?_ h hread
    obtain ⟨_, size', _, _, _, hdata⟩ := readChunk_ok hchunk
    rcases hdata with ⟨_, _, _, _, hlast⟩ | ⟨_, hlen, _, hroom, hdata⟩
    · cases hlast
    cases hdata
    rw [length_append, length_take]
    omega
  | case2 body stream hlast =>
    refine buffer_le_of_mem_chunkWork hbody h fun hpanic => hread ?_
    rw [readChunks_eq, hpanic]

theorem readChunk_last (m : ChunkedBody) (maxSize : Nat) (body rest : List UInt8) :
    readChunk requestChunkSize (some maxSize) body
      (sizeLine m.lastSize [] ++ (crlf ++ rest)) = .ok (.last rest) := by
  have hzero : requestChunkSize (String.ofList m.lastSize ++ "\r\n") = .ok 0 := by
    rw [requestChunkSize_of_digits (digits_lastSize m) (lastSize_ne m), value_lastSize]
    rfl
  rw [readChunk_of_zero (readLine_size (digits_lastSize m) _) hzero, readLine_blank]
  rfl

theorem readChunks_isPlain {m : ChunkedBody} (hplain : m.IsPlain) {maxSize : Nat}
    (hmax : maxSize < 2 ^ 64) (rest : List UInt8) :
    let read := readChunks requestChunkSize (some maxSize) [] (m.bytes ++ rest)
    (Countable maxSize 0 m.chunks →
      read = if m.body.length ≤ maxSize then .ok (m.body, rest) else .error .requestTooLarge) ∧
    (¬ Countable maxSize 0 m.chunks → ∃ e, read = .error e ∧ e ≠ .requestTooLarge) := by
  have hbytes : m.bytes ++ rest = m.chunks.flatMap Chunk.bytes ++
      (sizeLine m.lastSize [] ++ (crlf ++ rest)) := by
    simp [ChunkedBody.bytes, ChunkedBody.trailerBytes, hplain.last, hplain.trailer]
  have hdata : m.chunks.flatMap Chunk.data = m.body := rfl
  have hrun := readChunks_plain hmax (fun body => readChunk_last m maxSize body rest) m.chunks
    hplain.chunks [] (Nat.zero_le _) (Nat.zero_le _)
  simpa only [length_nil, Nat.zero_add, nil_append, hdata, ← hbytes] using hrun

/-- A body within the limit is returned and what follows it is left; another
is refused, and never was more of it held than the limit. -/
def DecodesExactly (msg : HttpMessage) (maxSize : Nat) (m : ChunkedBody)
    (rest : List UInt8) : Prop :=
  (m.body.length ≤ maxSize →
    readBody msg maxSize (m.bytes ++ rest) =
      .ok (if m.body = [] then none else some m.body, rest)) ∧
  (maxSize < m.body.length →
    readBody msg maxSize (m.bytes ++ rest) = .error .requestTooLarge ∧
      ∀ held size, .buffer held size ∈ readBodyWork msg maxSize (m.bytes ++ rest) →
        held + size ≤ maxSize)

/-- **Chunked request bodies decode exactly** EXACTLY when they can be counted
in machine words. -/
theorem decodesExactly_iff_countable {msg : HttpMessage} (hstatus : msg.bodyStatus = .chunked)
    {m : ChunkedBody} (hplain : m.IsPlain) (maxSize : UInt64) (rest : List UInt8) :
    DecodesExactly msg maxSize.toNat m rest ↔ Countable maxSize.toNat 0 m.chunks := by
  have hread : readBody msg maxSize.toNat (m.bytes ++ rest) =
      (readChunks requestChunkSize (some maxSize.toNat) [] (m.bytes ++ rest)).map fun r =>
        (if r.1 = [] then none else some r.1, r.2) := by
    rw [readBody, hstatus]
  have hwork : readBodyWork msg maxSize.toNat (m.bytes ++ rest) =
      chunksWork maxSize.toNat [] (m.bytes ++ rest) := by
    rw [readBodyWork, hstatus]
  obtain ⟨hcounted, huncounted⟩ := readChunks_isPlain hplain maxSize.toNat_lt rest
  unfold DecodesExactly
  rw [hread, hwork]
  constructor
  · rintro ⟨hwithin, hover⟩
    by_contra hcount
    obtain ⟨e, herror, hne⟩ := huncounted hcount
    rw [herror] at hwithin hover
    rcases Nat.lt_or_ge maxSize.toNat m.body.length with hlt | hle
    · exact hne (Except.error.inj (hover hlt).1)
    · cases hwithin hle
  intro hcount
  have hresult := hcounted hcount
  refine ⟨fun hle => ?_, fun hlt => ?_⟩
  · rw [hresult, if_pos hle]
    rfl
  rw [if_neg (by omega)] at hresult
  refine ⟨by rw [hresult]; rfl, fun held size hmem => ?_⟩
  exact buffer_le_of_mem_chunksWork (Nat.zero_le _) hmem (by simp [hresult])

/-- Two chunks, and what they are cut from. -/
theorem decodesExactly_two_chunks : let m : ChunkedBody :=
      { chunks := [⟨['0', '3'], [], [97, 98, 99], by simp; decide, rfl, .inl rfl, by simp⟩,
          ⟨['A'], [], [100, 100, 100, 100, 100, 100, 100, 100, 100, 100], by simp; decide, rfl,
            .inl rfl, by simp⟩]
        zeros := 1, extension := [], trailer := [], extension_ok := .inl rfl
        trailer_ok := by simp }
    m.bytes = asBytes "03\r\nabc\r\nA\r\ndddddddddd\r\n00\r\n\r\n" ∧
      DecodesExactly chunkedPost (UInt64.toNat 100) m (asBytes "GET /") := by
  refine ⟨by decide +kernel, ?_⟩
  refine (decodesExactly_iff_countable rfl ⟨by simp, rfl, rfl⟩ 100 (asBytes "GET /")).mpr ?_
  simp [Countable, isizeMax]

theorem exists_chunk {size : List Char} (hsize : ∀ c ∈ size, (toDigit 16 c).isSome)
    (hpos : radixToNat 16 size ≠ 0) :
    ∃ c : Chunk, c.extension = [] ∧ c.data.length = radixToNat 16 size := by
  refine ⟨⟨size, [], replicate (radixToNat 16 size) 120, hsize, ?_, .inl rfl, ?_⟩, rfl, ?_⟩
  · rw [length_replicate]
  · rwa [ne_eq, replicate_eq_nil_iff]
  · rw [length_replicate]

/-- A body of one byte and 2⁶⁴ - 1 more, over any limit, is not refused. -/
theorem not_decodesExactly_wraps :
    ∃ m : ChunkedBody, m.IsPlain ∧ m.chunks.map (fun c => c.data.length) = [1, 2 ^ 64 - 1] ∧
      readBody chunkedPost 67108864 (m.bytes ++ []) = .error .panicked ∧
      ¬ DecodesExactly chunkedPost 67108864 m [] := by
  have hdigits : ∀ c ∈ replicate 16 'f', (toDigit 16 c).isSome := by
    intro c hc
    rw [eq_of_mem_replicate hc]
    decide
  have hvalue : radixToNat 16 (replicate 16 'f') = 2 ^ 64 - 1 := by decide +kernel
  have hunit : radixToNat 16 ['1'] = 1 := by decide +kernel
  have hdigit : ∀ c ∈ [ '1'], (toDigit 16 c).isSome := by
    intro c hc
    rw [mem_singleton.mp hc]
    decide
  obtain ⟨one, honePlain, hone⟩ := exists_chunk hdigit (by simp [hunit])
  obtain ⟨huge, hhugePlain, hhuge⟩ := exists_chunk hdigits (by rw [hvalue]; norm_num)
  rw [hunit] at hone
  rw [hvalue] at hhuge
  let m : ChunkedBody :=
    { chunks := [one, huge], zeros := 0, extension := [], trailer := []
      extension_ok := .inl rfl, trailer_ok := by simp }
  have hbytes : m.bytes ++ [] = one.bytes ++
      (huge.bytes ++ (sizeLine m.lastSize [] ++ m.trailerBytes)) := by
    simp [m, ChunkedBody.bytes]
  have hmax : 67108864 < 2 ^ 64 := by norm_num
  have hnone : ([] : List UInt8).length ≤ 67108864 := Nat.zero_le _
  have hfits : one.data.length ≤ 67108864 := by omega
  have hfirst := readChunk_plain hmax hnone honePlain
    (huge.bytes ++ (sizeLine m.lastSize [] ++ m.trailerBytes))
  have hsecond := readChunk_plain hmax hfits hhugePlain (sizeLine m.lastSize [] ++ m.trailerBytes)
  rw [hone, length_nil, if_neg (by norm_num), if_neg (by norm_num), if_neg (by norm_num),
    if_neg (by norm_num [isizeMax])] at hfirst
  rw [hone, hhuge, if_neg (by norm_num), if_pos (by norm_num)] at hsecond
  have hpanic : readChunks requestChunkSize (some 67108864) [] (m.bytes ++ []) =
      .error .panicked := by
    rw [hbytes, readChunks_eq, hfirst]
    dsimp only
    rw [nil_append, readChunks_eq, hsecond]
  have hread : readBody chunkedPost 67108864 (m.bytes ++ []) = .error .panicked := by
    rw [readBody, show chunkedPost.bodyStatus = .chunked from rfl]
    rw [hpanic]
    rfl
  have hplain : ∀ c ∈ m.chunks, c.extension = [] :=
    forall_mem_cons.mpr ⟨honePlain, forall_mem_singleton.mpr hhugePlain⟩
  have hlengths : m.chunks.map (fun c => c.data.length) = [1, 2 ^ 64 - 1] := by
    rw [map_cons, map_singleton, hone, hhuge]
  refine ⟨m, ⟨hplain, rfl, rfl⟩, hlengths, hread, ?_⟩
  intro hdecodes
  have hlength : 67108864 < m.body.length := by
    have hbody : m.body = one.data ++ huge.data := by simp [m, ChunkedBody.body]
    rw [hbody, length_append, hone, hhuge]
    norm_num
  have hlarge := (hdecodes.2 hlength).1
  rw [hread] at hlarge
  cases hlarge

end VarahaCache
