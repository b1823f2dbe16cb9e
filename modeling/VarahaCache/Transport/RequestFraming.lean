import VarahaCache.Transport.RequestBody

/-!
# Where a request ends

The body `read_body` takes behind a head, against the one HTTP/1.1 assigns
to it. Of the field lines with one name the program keeps the last, and it
looks at a Content-Length before it looks at the transfer coding; of a
chunked body it knows the chunks alone.
-/

namespace VarahaCache

open Text List Wire

/-! ## What the program goes by -/

def ParsedRequest.fields (req : ParsedRequest) : List (String × List UInt8) :=
  req.headers.map fun h => (h.name, h.value)

/-- The last value of the field lines with a name, empty if it is not UTF-8.
-/
def keptValue (name : String) (fields : List (String × List UInt8)) : Option String :=
  (fieldValues name fields).getLast?.map fun value => (fromUtf8 value).getD ""

variable {fields : List (String × List UInt8)}

theorem keptValue_eq_none {name : String} :
    keptValue name fields = none ↔ fieldValues name fields = [] := by
  rw [keptValue, Option.map_eq_none_iff, getLast?_eq_none_iff]

theorem ParsedRequest.getHeader_toMessage (req : ParsedRequest) (name : String) :
    req.toMessage.getHeader name = keptValue name req.fields := by
  have hcopy := fun version => getHeader_copy_fields (m := HttpMessage.newRequest
    (.parseMethod (req.method.getD "GET")) (req.path.getD "/") version) rfl req.fields
    (fun value => (fromUtf8 value).getD "") name
  simp only [ParsedRequest.fields, map_map] at hcopy
  exact hcopy _

/-- A Content-Length that is no number is zero. -/
def keptLength (fields : List (String × List UInt8)) : Nat :=
  ((keptValue "Content-Length" fields).bind parseUsize).getD 0

/-- The transfer coding that is kept is the chunked one. -/
def keptChunked (fields : List (String × List UInt8)) : Bool :=
  (keptValue "Transfer-Encoding" fields).any (eqIgnoreAsciiCase · "chunked")

theorem readBody_toMessage (req : ParsedRequest) (maxSize : Nat) (stream : List UInt8) :
    readBody (afterExpect req.toMessage) maxSize stream =
      if fieldValues "Content-Length" req.fields = [] then
        if keptChunked req.fields then
          (readChunks requestChunkSize (some maxSize) [] stream).map fun r =>
            (if r.1 = [] then none else some r.1, r.2)
        else .ok (none, stream)
      else if keptLength req.fields = 0 then .ok (none, stream)
      else if maxSize < keptLength req.fields then .error .requestTooLarge
      else if isizeMax < keptLength req.fields then .error .panicked
      else (readExact (keptLength req.fields) stream).map fun r => (some r.1, r.2) := by
  have hstatus : (afterExpect req.toMessage).bodyStatus =
      requestBodyStatus (afterExpect req.toMessage).headers := req.wellFormed.afterExpect.body
  have hlength : (afterExpect req.toMessage).headers.get "Content-Length" =
      keptValue "Content-Length" req.fields :=
    (getHeader_afterExpect (by decide)).trans (req.getHeader_toMessage _)
  have hcoding : (afterExpect req.toMessage).headers.get "Transfer-Encoding" =
      keptValue "Transfer-Encoding" req.fields :=
    (getHeader_afterExpect (by decide)).trans (req.getHeader_toMessage _)
  rw [requestBodyStatus, hlength, hcoding] at hstatus
  cases hkept : keptValue "Content-Length" req.fields with
  | none =>
    rw [if_pos (keptValue_eq_none.mp hkept)]
    rw [hkept] at hstatus
    rw [readBody, hstatus, keptChunked]
    split_ifs
    · rfl
    · rfl
  | some cl =>
    have hne : fieldValues "Content-Length" req.fields ≠ [] := by
      rw [ne_eq, ← keptValue_eq_none, hkept]
      simp
    have hvalue : keptLength req.fields = (parseUsize cl).getD 0 := by
      rw [keptLength, hkept, Option.bind_some]
    rw [if_neg hne, hvalue, readBody, hstatus, HttpMessage.getHeader, hlength, hkept]
    dsimp only
    rw [announcesBody, Option.bind_some]
    by_cases hzero : (parseUsize cl).getD 0 = 0
    · simp [hzero]
    · simp [hzero, Nat.pos_of_ne_zero hzero]

/-! ## A kept chunked coding is the last one -/

theorem plain_of_chunked {s : String} (h : eqIgnoreAsciiCase s "chunked" = true) :
    ∀ b ∈ asBytes s, b ≠ 44 ∧ ¬ IsBlank b := by
  have hletters : ∀ c ∈ s.toList, c.toLower ∈ "chunked".toList := by
    intro c hc
    have hlower := congrArg String.toList (eqIgnoreAsciiCase_iff.mp h)
    have hword : (toAsciiLowercase "chunked").toList = "chunked".toList := by decide
    rw [hword, toAsciiLowercase, String.toList_ofList] at hlower
    rw [← hlower]
    exact mem_map_of_mem hc
  have hbyte : ∀ c : Char, c.toLower ∉ "chunked".toList → ∀ b : UInt8, b < 128 →
      c.toNat = b.toNat → b ∉ asBytes s := by
    intro c hc b hlt hcode hmem
    rw [asBytes_eq_flatMap, mem_flatMap] at hmem
    obtain ⟨d, hd, hmem⟩ := hmem
    rw [mem_utf8EncodeChar hlt, ← hcode, Char.toNat_inj] at hmem
    exact hc (hmem ▸ hletters d hd)
  intro b hb
  refine ⟨?_, ?_⟩
  · rintro rfl
    exact hbyte ',' (by decide) 44 (by decide) rfl hb
  rintro (rfl | rfl)
  · exact hbyte ' ' (by decide) 32 (by decide) rfl hb
  · exact hbyte '\t' (by decide) 9 (by decide) rfl hb

theorem endsInChunked_of_kept (h : keptChunked fields = true) : endsInChunked fields = true := by
  rw [keptChunked, keptValue] at h
  rcases eq_nil_or_concat' (fieldValues "Transfer-Encoding" fields) with
    hnil | ⟨init, value, hvalues⟩
  · simp [hnil] at h
  rw [hvalues, getLast?_concat, Option.map_some, Option.any_some] at h
  cases hutf8 : fromUtf8 value with
  | none =>
    rw [hutf8] at h
    exact absurd h (by decide)
  | some s =>
    rw [hutf8, Option.getD_some] at h
    have hplain := plain_of_chunked h
    rw [fromUtf8_eq_some.mp hutf8] at hplain
    have hne : value ≠ [] := by
      rintro rfl
      obtain rfl : s = "" := asBytes_eq_nil.mp (fromUtf8_eq_some.mp hutf8)
      exact absurd h (by decide)
    have hsplit : value.splitOn 44 = [value] :=
      splitOnP_eq_singleton fun b hb => by simpa using (hplain b hb).1
    have hfront : value.dropWhile (fun b => decide (IsBlank b)) = value := by
      rw [dropWhile_eq_self_iff]
      exact fun hpos => by simpa using (hplain _ (getElem_mem hpos)).2
    have hback : value.rdropWhile (fun b => decide (IsBlank b)) = value := by
      rw [rdropWhile_eq_self_iff]
      exact fun hpos => by simpa using (hplain _ (getLast_mem hpos)).2
    have hlast : elements (init ++ [value]) = elements init ++ [value] := by
      simp [elements, hsplit, hfront, hback]
    rw [endsInChunked, hvalues, hlast, filter_append]
    simp [hne, isChunkedWord, hutf8, h]

/-! ## What is read of a chunked body -/

theorem requestChunkSize_ok {size : List Char} {extension rest rest' : List UInt8} {line : String}
    {n : Nat} (hsize : ∀ c ∈ size, (toDigit 16 c).isSome) (hne : size ≠ [])
    (hextension : IsExtension extension)
    (hline : readLine (sizeLine size extension ++ rest) = .ok (line, rest'))
    (h : requestChunkSize line = .ok n) :
    extension = [] ∧ rest' = rest ∧ n = radixToNat 16 size := by
  by_cases hplain : extension = []
  · subst hplain
    rw [readLine_size hsize, Except.ok.injEq, Prod.mk.injEq] at hline
    obtain ⟨rfl, rfl⟩ := hline
    rw [requestChunkSize_of_digits hsize hne] at h
    split_ifs at h
    exact ⟨rfl, rfl, (Except.ok.inj h).symm⟩
  · obtain ⟨_, e, herror⟩ := fromStrRadix_extended hsize hextension hplain hline
    rw [requestChunkSize, herror] at h
    cases h

variable {maxSize : Nat} {read : ChunkRead} {m : ChunkedBody} {req : ParsedRequest}
  {body : Option (List UInt8)}

theorem readChunk_bytes_ok {body rest : List UInt8} {c : Chunk}
    (h : readChunk requestChunkSize (some maxSize) body (c.bytes ++ rest) = .ok read) :
    c.extension = [] ∧ read = .data c.data rest := by
  have hbytes : c.bytes ++ rest = sizeLine c.size c.extension ++ (c.data ++ (crlf ++ rest)) := by
    simp [Chunk.bytes]
  rw [hbytes] at h
  obtain ⟨line, n, rest', hline, hsize, hread⟩ := readChunk_ok h
  obtain ⟨hplain, rfl, rfl⟩ :=
    requestChunkSize_ok c.size_digits c.size_ne c.extension_ok hline hsize
  refine ⟨hplain, ?_⟩
  rcases hread with ⟨hzero, _⟩ | ⟨_, _, _, _, rfl⟩
  · rw [c.size_value] at hzero
    exact absurd (length_eq_zero_iff.mp hzero) c.data_ne
  · rw [c.size_value, take_left, ← drop_drop, drop_left]
    rfl

theorem readChunk_last_ok {body rest : List UInt8}
    (h : readChunk requestChunkSize (some maxSize) body
      (sizeLine m.lastSize m.extension ++ (m.trailerBytes ++ rest)) = .ok read) :
    m.extension = [] ∧ ∃ rest', read = .last rest' ∧ (m.trailer = [] → rest' = rest) ∧
      (m.trailer ≠ [] → rest.length < rest'.length) := by
  obtain ⟨line, n, rest', hline, hsize, hread⟩ := readChunk_ok h
  obtain ⟨hplain, rfl, rfl⟩ :=
    requestChunkSize_ok (digits_lastSize m) (lastSize_ne m) m.extension_ok hline hsize
  refine ⟨hplain, ?_⟩
  rcases hread with ⟨_, trailer, rest', htrailer, rfl⟩ | ⟨hpos, _⟩
  · refine ⟨rest', rfl, ?_⟩
    have hrest := (readLine_ok htrailer).2
    cases hlines : m.trailer with
    | nil =>
      have hbytes : m.trailerBytes ++ rest = [] ++ crlf ++ rest := by
        simp [ChunkedBody.trailerBytes, hlines]
      rw [hbytes, readUntil_crlf (by simp)] at hrest
      exact ⟨fun _ => hrest, fun hne => absurd rfl hne⟩
    | cons first more =>
      have hbytes : m.trailerBytes ++ rest =
          first ++ crlf ++ (more.flatMap (· ++ crlf) ++ crlf ++ rest) := by
        simp [ChunkedBody.trailerBytes, hlines]
      have hfirst : 10 ∉ first := by
        have hmem : first ∈ m.trailer := by
          rw [hlines]
          exact mem_cons_self
        exact lf_notMem_fieldLine (m.trailer_ok first hmem)
      rw [hbytes, readUntil_crlf hfirst] at hrest
      refine ⟨fun hnil => absurd hnil (by simp), fun _ => ?_⟩
      rw [hrest]
      simp only [crlf, length_append, length_cons, length_nil]
      omega
  · rw [value_lastSize] at hpos
    exact absurd hpos (Nat.lt_irrefl 0)

/-- What is read of a chunked body is the body, without extensions; a
trailer is not read to its end. -/
theorem readChunks_bytes_ok {bytes rest rest' : List UInt8}
    (h : readChunks requestChunkSize (some maxSize) [] (m.bytes ++ rest) = .ok (bytes, rest')) :
    (∀ c ∈ m.chunks, c.extension = []) ∧ m.extension = [] ∧ bytes = m.body ∧
      (m.trailer = [] → rest' = rest) ∧ (m.trailer ≠ [] → rest.length < rest'.length) := by
  have hrun : ∀ (chunks : List Chunk) (body : List UInt8),
      readChunks requestChunkSize (some maxSize) body (chunks.flatMap Chunk.bytes ++
        (sizeLine m.lastSize m.extension ++ (m.trailerBytes ++ rest))) = .ok (bytes, rest') →
      (∀ c ∈ chunks, c.extension = []) ∧ m.extension = [] ∧
        bytes = body ++ chunks.flatMap Chunk.data ∧
        (m.trailer = [] → rest' = rest) ∧ (m.trailer ≠ [] → rest.length < rest'.length) := by
    intro chunks
    induction chunks with
    | nil =>
      intro body h
      rw [flatMap_nil, nil_append, readChunks_eq] at h
      split at h
      · cases h
      · rename_i rest'' hlast
        cases h
        obtain ⟨hplain, _, hread, htrailer⟩ := readChunk_last_ok hlast
        cases hread
        exact ⟨by simp, hplain, by simp, htrailer⟩
      · rename_i hlast
        obtain ⟨_, _, hread, _⟩ := readChunk_last_ok hlast
        cases hread
    | cons c more ih =>
      intro body h
      rw [flatMap_cons, append_assoc, readChunks_eq] at h
      split at h
      · cases h
      · rename_i hchunk
        cases (readChunk_bytes_ok hchunk).2
      · rename_i hchunk
        obtain ⟨hplain, hread⟩ := readChunk_bytes_ok hchunk
        cases hread
        obtain ⟨hmore, hlast, hbytes, htrailer⟩ := ih _ h
        refine ⟨forall_mem_cons.mpr ⟨hplain, hmore⟩, hlast, ?_, htrailer⟩
        rw [hbytes, flatMap_cons, append_assoc]
  have hbytes : m.bytes ++ rest = m.chunks.flatMap Chunk.bytes ++
      (sizeLine m.lastSize m.extension ++ (m.trailerBytes ++ rest)) := by
    simp [ChunkedBody.bytes]
  rw [hbytes] at h
  exact hrun m.chunks [] h

/-! ## The end of a request -/

/-- The message ends where `read_body` stops reading, or the request is
refused. -/
def FollowsMessage (req : ParsedRequest) (maxSize : Nat) (stream : List UInt8) : Prop :=
  readBody (afterExpect req.toMessage) maxSize stream ≠ .error .panicked ∧
    ∀ body rest, readBody (afterExpect req.toMessage) maxSize stream = .ok (body, rest) →
      (framing req.fields).Assigns stream (body.getD []) rest

/-- The program goes by the framing the message has: a chunked body of
chunks alone, announced by one word and with no length next to it; or one
length, on the last of its lines. -/
def PlainlyFramed (fields : List (String × List UInt8)) (stream rest : List UInt8) : Framing → Prop
  | .chunked => fieldValues "Content-Length" fields = [] ∧ keptChunked fields = true ∧
      ∃ m : ChunkedBody, m.IsPlain ∧ stream = m.bytes ++ rest
  | .length size => keptLength fields = size
  | .nothing => True
  | .invalid => False

theorem append_of_readBody {stream rest : List UInt8}
    (h : readBody (afterExpect req.toMessage) maxSize stream = .ok (body, rest))
    (hchunks : ¬ (fieldValues "Content-Length" req.fields = [] ∧ keptChunked req.fields = true)) :
    stream = body.getD [] ++ rest ∧
      (fieldValues "Content-Length" req.fields ≠ [] →
        (body.getD []).length = keptLength req.fields) := by
  rw [readBody_toMessage] at h
  split_ifs at h with hnone hkept hzero hmax halloc
  · exact absurd ⟨hnone, hkept⟩ hchunks
  · cases h
    exact ⟨rfl, fun hsome => absurd hnone hsome⟩
  · cases h
    exact ⟨rfl, fun _ => hzero.symm⟩
  · obtain ⟨r, hread, heq⟩ := Lib.exists_of_map_ok h
    obtain ⟨hle, htake, hdrop⟩ := readExact_ok hread
    cases heq
    rw [Option.getD_some, htake, hdrop, take_append_drop, length_take]
    exact ⟨rfl, fun _ => by omega⟩

/-- A request that is read ends where HTTP/1.1 says EXACTLY when it is
plainly framed. -/
theorem assigns_iff_plainlyFramed {stream rest : List UInt8}
    (h : readBody (afterExpect req.toMessage) maxSize stream = .ok (body, rest)) :
    (framing req.fields).Assigns stream (body.getD []) rest ↔
      PlainlyFramed req.fields stream rest (framing req.fields) := by
  by_cases hends : endsInChunked req.fields = true
  · have hframing : framing req.fields = .chunked := by rw [framing, if_pos hends]
    rw [hframing]
    by_cases hchunks : fieldValues "Content-Length" req.fields = [] ∧ keptChunked req.fields = true
    · rw [readBody_toMessage, if_pos hchunks.1, if_pos hchunks.2] at h
      obtain ⟨⟨bytes, left⟩, hread, heq⟩ := Lib.exists_of_map_ok h
      rw [Prod.mk.injEq] at heq
      obtain ⟨hbody, rfl⟩ := heq
      have hbytes : body.getD [] = bytes := by
        rw [← hbody]
        split_ifs with hnil
        · exact hnil.symm
        · rfl
      rw [hbytes]
      constructor
      · rintro ⟨m, rfl, _⟩
        obtain ⟨hplain, hlast, _, _, htrailer⟩ := readChunks_bytes_ok hread
        have hnone : m.trailer = [] := by
          by_contra hsome
          exact absurd (htrailer hsome) (Nat.lt_irrefl _)
        exact ⟨hchunks.1, hchunks.2, m, ⟨hplain, hlast, hnone⟩, rfl⟩
      · rintro ⟨_, _, m, hplain, rfl⟩
        exact ⟨m, rfl, (readChunks_bytes_ok hread).2.2.1⟩
    · -- what is taken is no longer than the body, and the message is
      have htaken := (append_of_readBody h hchunks).1
      constructor
      · rintro ⟨m, hstream, hbody⟩
        rw [hbody, hstream, append_cancel_right_eq] at htaken
        have hlength := m.length_body_lt
        rw [htaken] at hlength
        exact absurd hlength (Nat.lt_irrefl _)
      · rintro ⟨hnone, hkept, _⟩
        exact absurd ⟨hnone, hkept⟩ hchunks
  · have hkept : ¬ keptChunked req.fields = true := fun hkept => hends (endsInChunked_of_kept hkept)
    obtain ⟨hstream, hlength⟩ := append_of_readBody h fun hchunks => hkept hchunks.2
    rw [framing, if_neg hends]
    cases hvalues : fieldValues "Content-Length" req.fields with
    | nil =>
      rw [readBody_toMessage, if_pos hvalues, if_neg hkept] at h
      cases h
      exact ⟨fun _ => trivial, fun _ => ⟨rfl, rfl⟩⟩
    | cons value values =>
      have hread := hlength (by simp [hvalues])
      dsimp only
      split
      · rename_i size _
        exact ⟨fun hassigns => hread.symm.trans hassigns.2, fun hsize => ⟨hstream, hread.trans hsize⟩⟩
      · exact Iff.rfl

theorem root_word : ∀ p, some "/" = some p → p ≠ "" ∧ ' ' ∉ p.toList ∧ '\n' ∉ p.toList := by
  rintro p hp
  cases hp
  decide

def smuggling : ParsedRequest where
  method := some "POST"
  path := some "/"
  version := some 1
  headers := [⟨"Content-Length", asBytes "4", isToken_contentLength, by decide⟩,
    ⟨"Transfer-Encoding", asBytes "chunked", isToken_transferEncoding, by decide⟩]
  path_word := root_word

end VarahaCache
