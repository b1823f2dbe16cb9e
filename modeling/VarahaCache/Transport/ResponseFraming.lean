import VarahaCache.Transport.ResponseHead

/-!
# Where a response ends

The body `send_backend_request` takes behind the head of a response, against
the one HTTP/1.1 assigns to it, and what is left on a connection it puts back
into the pool. The client does not ask which method it sent; a chunk size it
cannot read is the last one to it; and what is in its reader's buffer is lost.
-/

namespace VarahaCache

open Text List Option
open Wire (ChunkedBody ResponseHead fieldValues Chunk crlf sizeLine)

/-! ## What the client goes by -/

namespace Wire.ResponseHead

variable (h : ResponseHead)

/-- A Content-Length that is no number is zero. -/
def keptLength : Nat := ((h.kept "Content-Length").bind parseUsize).getD 0

/-- The transfer coding that is kept is the chunked one. -/
def keptChunked : Bool := (h.kept "Transfer-Encoding").any (eqIgnoreAsciiCase · "chunked")

def keptAlive : Bool := !eqIgnoreAsciiCase ((h.kept "Connection").getD "") "close"

end Wire.ResponseHead

/-- The body taken behind a head, whether its length was known, and what is
left. -/
def taken (h : ResponseHead) (tail : List UInt8) :
    Except TransportError (Option (List UInt8) × Bool × List UInt8) :=
  if h.allowsBody then
    if fieldValues "Content-Length" h.fields = [] then
      if h.keptChunked then
        (readChunks responseChunkSize none [] tail).map fun r =>
          (if r.1 = [] then none else some r.1, true, r.2)
      else .ok (if tail = [] then none else some tail, false, [])
    else if h.keptLength = 0 then .ok (none, true, tail)
    else if isizeMax < h.keptLength then .error .panicked
    else (readExact h.keptLength tail).map fun r => (some r.1, true, r.2)
  else .ok (none, true, tail)

variable {h : ResponseHead} {method : HttpMethod} {body : List UInt8} {response : HttpMessage}
  {line : String} {c : Chunk}

theorem responseHasBody_of_status (hstatus : response.status = ⟨UInt16.ofNat h.code⟩) :
    response.responseHasBody = h.allowsBody := by
  have hdigits := h.code_digits
  have hcode : (UInt16.ofNat h.code).toNat = h.code := by
    rw [UInt16.toNat_ofNat']
    omega
  have heq : ∀ n : UInt16, (response.status = ⟨n⟩) ↔ h.code = n.toNat := by
    intro n
    rw [hstatus, HttpStatus.mk.injEq, ← UInt16.toNat_inj, hcode]
  have hnoContent : (response.status = .noContent) ↔ h.code = 204 := heq 204
  have hnotModified : (response.status = .notModified) ↔ h.code = 304 := heq 304
  have hinterim : response.status.isInformational = decide (h.code < 200) := by
    rw [HttpStatus.isInformational, hstatus]
    simp only [UInt16.le_iff_toNat_le, UInt16.lt_iff_toNat_lt, hcode]
    simp [hdigits.1]
  rw [HttpMessage.responseHasBody, ResponseHead.allowsBody, hinterim, Bool.eq_iff_iff]
  simp [hnoContent, hnotModified]

theorem readResponseBody_eq_taken (hstatus : response.status = ⟨UInt16.ofNat h.code⟩)
    (hkept : ∀ name, response.getHeader name = h.kept name) (tail : List UInt8) :
    readResponseBody response tail = taken h tail := by
  rw [readResponseBody, taken, responseHasBody_of_status hstatus, hkept, hkept]
  cases hallows : h.allowsBody with
  | false => rfl
  | true =>
    rw [if_pos rfl, if_pos rfl]
    cases hlength : h.kept "Content-Length" with
    | none =>
      rw [if_pos (ResponseHead.kept_eq_none.mp hlength)]
      rfl
    | some cl =>
      have hne : fieldValues "Content-Length" h.fields ≠ [] := by
        rw [ne_eq, ← ResponseHead.kept_eq_none, hlength]
        simp
      have hvalue : h.keptLength = (parseUsize cl).getD 0 := by
        rw [ResponseHead.keptLength, hlength, bind_some]
      rw [if_neg hne, hvalue]
      by_cases hzero : (parseUsize cl).getD 0 = 0
      · simp [hzero]
      · simp [hzero, Nat.pos_of_ne_zero hzero]

/-! ## The outcome of a call -/

def bufferCapacity : Nat := 8 * 1024

section Call

variable (display : AddrDisplay) (addr : SocketAddr) (request : HttpMessage)
  (body : Option (List UInt8)) (pool : Bool) (h : ResponseHead) (tail : List UInt8)

/-- What a call answered by a head and what follows returns, and what is left
on a connection put back; `ahead` bytes behind those taken are in the reader's
buffer then. -/
def call (ahead : Nat) :
    Except TransportError ((HttpMessage × Option (List UInt8)) × Option (List UInt8)) :=
  sendPooledRequest display (fun _ _ => .ok (h.bytes ++ tail)) addr request body pool ahead

/-- The full body is returned, and a connection put back has exactly what
follows the response to deliver. -/
def Returns (full rest : List UInt8) : Prop := ∀ ahead < bufferCapacity, ∃ response bytes returned,
    call display addr request body pool h tail ahead = .ok ((response, bytes), returned) ∧
      bytes.getD [] = full ∧ ∀ left, returned = some left → left = rest

def Fails : Prop := ∀ ahead < bufferCapacity, ∃ e,
    call display addr request body pool h tail ahead = .error e ∧ e ≠ .panicked

/-- The body assigned to a response is returned, and a malformed or cut off
chunked body is an error. -/
def ReadsWhole : Prop :=
  (∀ full rest, (h.framing request.method).Assigns tail full rest →
    Returns display addr request body pool h tail full rest) ∧
  (h.framing request.method = .chunked →
    (∀ full rest, ¬ Wire.Framing.chunked.Assigns tail full rest) →
      Fails display addr request body pool h tail)

variable {h}

theorem call_of_isText (htext : h.IsText) :
    ∃ response, ∀ ahead, call display addr request body pool h tail ahead =
      (taken h tail).map fun r => ((response, r.1),
        if pool && h.keptAlive && r.2.1 then some (r.2.2.drop ahead) else none) := by
  obtain ⟨response, hstatus, hprotocol, hkept, hread⟩ := readResponse_of_isText htext tail
  refine ⟨response, fun ahead => ?_⟩
  have halive : isKeepAlive response = h.keptAlive := by
    rw [isKeepAlive, hprotocol, hkept]
    rfl
  rw [call, sendPooledRequest]
  dsimp only
  rw [hread, readResponseBody_eq_taken hstatus hkept]
  cases taken h tail with
  | error e => rfl
  | ok r => simp only [Except.map, ResponseRead.returned, halive]

variable {display addr request body pool tail}

theorem call_of_not_isText (htext : ¬ h.IsText) (ahead : Nat) :
    call display addr request body pool h tail ahead =
      .error (.io "stream did not contain valid UTF-8") := by
  rw [call, sendPooledRequest]
  dsimp only
  rw [readResponse_of_not_isText htext]
  rfl

/-- What is returned, for every state of the buffer, says that nothing
follows the response on a connection put back: it could be in the buffer. -/
theorem returns_iff (full rest : List UInt8) :
    Returns display addr request body pool h tail full rest ↔
      h.IsText ∧ ∃ bytes known left, taken h tail = .ok (bytes, known, left) ∧
        bytes.getD [] = full ∧ ((pool && h.keptAlive && known) = true → left = rest ∧ rest = []) := by
  by_cases htext : h.IsText
  · obtain ⟨response, hcall⟩ := call_of_isText display addr request body pool tail htext
    simp only [Returns, hcall, htext, true_and]
    cases taken h tail with
    | error e =>
      constructor
      · intro hreturns
        obtain ⟨_, _, _, heq, _⟩ := hreturns 0 (by decide)
        cases heq
      · rintro ⟨_, _, _, heq, _⟩
        cases heq
    | ok r =>
      obtain ⟨bytes, known, left⟩ := r
      constructor
      · intro hreturns
        obtain ⟨_, _, _, heq, hfull, hleft⟩ := hreturns 0 (by decide)
        obtain ⟨_, _, _, heq', _, hbehind⟩ := hreturns 1 (by decide)
        cases heq
        cases heq'
        refine ⟨bytes, known, left, rfl, hfull, fun hreuse => ?_⟩
        dsimp only at hleft hbehind
        rw [if_pos hreuse] at hleft hbehind
        obtain rfl : left = rest := hleft left rfl
        have hdrop := congrArg length (hbehind _ rfl)
        rw [length_drop] at hdrop
        exact ⟨rfl, length_eq_zero_iff.mp (by omega)⟩
      · rintro ⟨_, _, _, heq, hfull, hleft⟩ ahead _
        cases heq
        refine ⟨response, bytes, _, rfl, hfull, fun left' hreturned => ?_⟩
        split_ifs at hreturned with hreuse
        obtain ⟨rfl, rfl⟩ := hleft hreuse
        rw [drop_nil] at hreturned
        exact (some.inj hreturned).symm
  · simp only [Returns, call_of_not_isText htext, htext, false_and, iff_false]
    intro hreturns
    obtain ⟨_, _, _, heq, _⟩ := hreturns 0 (by decide)
    cases heq

theorem fails_iff :
    Fails display addr request body pool h tail ↔
      (h.IsText → ∃ e, taken h tail = .error e ∧ e ≠ .panicked) := by
  by_cases htext : h.IsText
  · obtain ⟨response, hcall⟩ := call_of_isText display addr request body pool tail htext
    simp only [Fails, hcall, htext, true_imp_iff]
    cases taken h tail with
    | error e =>
      constructor
      · intro hfails
        obtain ⟨e', heq, hne⟩ := hfails 0 (by decide)
        cases heq
        exact ⟨e, rfl, hne⟩
      · rintro ⟨e', heq, hne⟩ _ _
        cases heq
        exact ⟨e, rfl, hne⟩
    | ok r =>
      constructor
      · intro hfails
        obtain ⟨_, heq, _⟩ := hfails 0 (by decide)
        cases heq
      · rintro ⟨_, heq, _⟩
        cases heq
  · simp only [Fails, call_of_not_isText htext, htext, false_imp_iff, iff_true]
    exact fun _ _ => ⟨_, rfl, by simp⟩

end Call

/-! ## What the client reads of a chunked body -/

theorem responseChunkSize_of_digits {size : List Char}
    (hsize : ∀ c ∈ size, (toDigit 16 c).isSome) (hne : size ≠ []) :
    responseChunkSize (String.ofList size ++ "\r\n") =
      .ok (if radixToNat 16 size < 2 ^ 64 then radixToNat 16 size else 0) := by
  rw [responseChunkSize, fromStrRadix_size hsize hne]
  split
  · rfl
  · rfl

theorem responseChunkSize_extended {size : List Char} {extension rest rest' : List UInt8}
    (hsize : ∀ c ∈ size, (toDigit 16 c).isSome) (hextension : Wire.IsExtension extension)
    (hne : extension ≠ [])
    (hline : readLine (sizeLine size extension ++ rest) = .ok (line, rest')) :
    responseChunkSize line = .ok 0 := by
  obtain ⟨_, e, herror⟩ := fromStrRadix_extended hsize hextension hne hline
  rw [responseChunkSize, herror]
  rfl

theorem readChunk_client_ok {rest : List UInt8} {read : ChunkRead}
    (h : readChunk responseChunkSize none body (c.bytes ++ rest) = .ok read) :
    (c.extension = [] ∧ body.length + c.data.length ≤ isizeMax ∧ read = .data c.data rest) ∨
      ∃ rest', read = .last rest' := by
  have hbytes : c.bytes ++ rest =
      sizeLine c.size c.extension ++ (c.data ++ (crlf ++ rest)) := by
    simp [Chunk.bytes]
  have hread := h
  rw [hbytes] at hread
  obtain ⟨line, n, rest', hline, hsize, hread⟩ := readChunk_ok hread
  rcases hread with ⟨_, _, rest'', _, rfl⟩ | ⟨hpos, _, _, _, _⟩
  · exact .inr ⟨rest'', rfl⟩
  -- the size is positive, so that it was alone on its line
  left
  have hplain : c.extension = [] := by
    by_contra hne
    rw [responseChunkSize_extended c.size_digits c.extension_ok hne hline] at hsize
    exact absurd (Except.ok.inj hsize) (by omega)
  have hvalue : responseChunkSize (String.ofList c.size ++ "\r\n") = .ok c.data.length := by
    rw [hplain, readLine_size c.size_digits, Except.ok.injEq, Prod.mk.injEq] at hline
    rw [← hline.1, responseChunkSize_of_digits c.size_digits c.size_ne] at hsize
    rw [responseChunkSize_of_digits c.size_digits c.size_ne]
    split_ifs at hsize ⊢ with hlt
    · rw [c.size_value]
    · exact absurd (Except.ok.inj hsize) (by omega)
  rw [readChunk_of_size hplain hvalue] at h
  simp only [any_none, Bool.false_eq_true, if_false] at h
  split_ifs at h with halloc
  exact ⟨hplain, by omega, (Except.ok.inj h).symm⟩

theorem readChunk_client_of_fits (hplain : c.extension = [])
    (hfits : body.length + c.data.length ≤ isizeMax) (rest : List UInt8) :
    readChunk responseChunkSize none body (c.bytes ++ rest) = .ok (.data c.data rest) := by
  have hlt : c.data.length < 2 ^ 64 := by
    simp only [isizeMax] at hfits
    omega
  have hvalue : responseChunkSize (String.ofList c.size ++ "\r\n") = .ok c.data.length := by
    rw [responseChunkSize_of_digits c.size_digits c.size_ne, c.size_value, if_pos hlt]
  rw [readChunk_of_size hplain hvalue]
  simp only [any_none, Bool.false_eq_true, if_false]
  rw [if_neg (by omega)]

/-- What follows the one line of the trailer that is read. -/
def behindTrailerLine (m : ChunkedBody) (rest : List UInt8) : List UInt8 :=
  match m.trailer with
  | [] => rest
  | _ :: more => more.flatMap (· ++ crlf) ++ (crlf ++ rest)

/-- The line of the last chunk and the first one of the trailer are text. -/
def EndsInText (m : ChunkedBody) : Prop :=
  (fromUtf8 m.extension).isSome ∧ ∀ line ∈ m.trailer.head?, (fromUtf8 line).isSome

instance (m : ChunkedBody) : Decidable (EndsInText m) :=
  inferInstanceAs (Decidable (_ ∧ _))

variable (m : ChunkedBody) {size : Nat}

theorem readLine_trailerBytes (rest : List UInt8) :
    (readLine (m.trailerBytes ++ rest)).map (fun trailer => ChunkRead.last trailer.2) =
      if ∀ line ∈ m.trailer.head?, (fromUtf8 line).isSome then
        .ok (.last (behindTrailerLine m rest))
      else .error (.io "stream did not contain valid UTF-8") := by
  cases hlines : m.trailer with
  | nil =>
    have hbytes : m.trailerBytes ++ rest = asBytes "" ++ [] ++ crlf ++ rest := by
      simp [ChunkedBody.trailerBytes, hlines, asBytes_eq_nil.mpr]
    rw [hbytes, readLine_text (by decide) (by simp)]
    simp [behindTrailerLine, hlines, show fromUtf8 [] = some "" from fromUtf8_eq_some.mpr rfl,
      Except.map]
  | cons first more =>
    have hbytes : m.trailerBytes ++ rest =
        asBytes "" ++ first ++ crlf ++
          (more.flatMap (· ++ crlf) ++ (crlf ++ rest)) := by
      simp [ChunkedBody.trailerBytes, hlines, asBytes_eq_nil.mpr]
    have hfirst : 10 ∉ first := by
      have hmem : first ∈ m.trailer := by
        rw [hlines]
        exact mem_cons_self
      exact lf_notMem_fieldLine (m.trailer_ok first hmem)
    rw [hbytes, readLine_text (by decide) hfirst]
    cases hvalue : fromUtf8 first with
    | none => simp [hvalue, Except.map]
    | some s => simp [hvalue, behindTrailerLine, hlines, Except.map]

theorem readChunk_client_last (body rest : List UInt8) :
    readChunk responseChunkSize none body
        (sizeLine m.lastSize m.extension ++ (m.trailerBytes ++ rest)) =
      if EndsInText m then .ok (.last (behindTrailerLine m rest))
      else .error (.io "stream did not contain valid UTF-8") := by
  have hline := readLine_text (lf_notMem_digits (digits_lastSize m))
    (lf_notMem_extension m.extension_ok) (m.trailerBytes ++ rest)
  change readLine (sizeLine m.lastSize m.extension ++ (m.trailerBytes ++ rest)) = _ at hline
  cases htext : fromUtf8 m.extension with
  | none =>
    rw [htext] at hline
    rw [readChunk, hline, if_neg (by simp [EndsInText, htext])]
  | some s =>
    rw [htext] at hline
    have hzero : responseChunkSize (String.ofList m.lastSize ++ s ++ "\r\n") = .ok 0 := by
      by_cases hplain : m.extension = []
      · rw [hplain, show fromUtf8 [] = some "" from fromUtf8_eq_some.mpr rfl] at htext
        cases htext
        rw [String.append_empty, responseChunkSize_of_digits (digits_lastSize m) (lastSize_ne m),
          value_lastSize]
        rfl
      · exact responseChunkSize_extended (digits_lastSize m) m.extension_ok hplain hline
    rw [readChunk_of_zero hline hzero, readLine_trailerBytes]
    simp [EndsInText, htext]

structure ReadByClient (m : ChunkedBody) : Prop where
  plain : ∀ c ∈ m.chunks, c.extension = []
  fits : m.body.length ≤ isizeMax
  text : EndsInText m

/-- The full body is read EXACTLY when no chunk but the last one has
extensions, there is room for it, and its end is text; one line of the
trailer is read with it. -/
theorem readChunks_client_iff (rest left : List UInt8) :
    readChunks responseChunkSize none [] (m.bytes ++ rest) = .ok (m.body, left) ↔
      ReadByClient m ∧ left = behindTrailerLine m rest := by
  have hrun : ∀ (chunks : List Chunk) (body : List UInt8), body.length ≤ isizeMax →
      (readChunks responseChunkSize none body (chunks.flatMap Chunk.bytes ++
        (sizeLine m.lastSize m.extension ++ (m.trailerBytes ++ rest))) =
          .ok (body ++ chunks.flatMap Chunk.data, left) ↔
        (∀ c ∈ chunks, c.extension = []) ∧
          (body ++ chunks.flatMap Chunk.data).length ≤ isizeMax ∧ EndsInText m ∧
          left = behindTrailerLine m rest) := by
    intro chunks
    induction chunks with
    | nil =>
      intro body hbody
      rw [flatMap_nil, flatMap_nil, nil_append, append_nil, readChunks_eq, readChunk_client_last]
      by_cases htext : EndsInText m
      · simp [htext, hbody, eq_comm]
      · simp [htext]
    | cons c more ih =>
      intro body hbody
      rw [flatMap_cons, flatMap_cons, append_assoc, readChunks_eq]
      by_cases hgood : c.extension = [] ∧ body.length + c.data.length ≤ isizeMax
      · have hlater := ih (body ++ c.data) (by rw [length_append]; exact hgood.2)
        rw [readChunk_client_of_fits hgood.1 hgood.2]
        rw [← append_assoc body, hlater, forall_mem_cons]
        simp [hgood.1]
      -- the loop stops here, and the data of this chunk is missing
      have hright : ¬ ((∀ d ∈ c :: more, d.extension = []) ∧
          (body ++ (c.data ++ more.flatMap Chunk.data)).length ≤ isizeMax ∧
          EndsInText m ∧ left = behindTrailerLine m rest) := by
        rintro ⟨hplain, hfits, _⟩
        refine hgood ⟨hplain c mem_cons_self, ?_⟩
        simp only [length_append] at hfits
        omega
      refine iff_of_false (fun hread => ?_) hright
      split at hread
      · cases hread
      · have hbytes := congrArg (fun r : List UInt8 × List UInt8 => r.1.length)
          (Except.ok.inj hread)
        have hpos : 0 < c.data.length := length_pos_iff.mpr c.data_ne
        simp only [length_append] at hbytes
        omega
      · rename_i hdata
        rcases readChunk_client_ok hdata with ⟨hplain, hfits, _⟩ | ⟨_, hlast⟩
        · exact hgood ⟨hplain, hfits⟩
        · cases hlast
  have hbytes : m.bytes ++ rest = m.chunks.flatMap Chunk.bytes ++
      (sizeLine m.lastSize m.extension ++ (m.trailerBytes ++ rest)) := by
    simp [ChunkedBody.bytes]
  have hstart := hrun m.chunks [] (Nat.zero_le _)
  rw [nil_append, ← hbytes] at hstart
  rw [ChunkedBody.body, hstart]
  constructor
  · rintro ⟨hplain, hfits, htext, hleft⟩
    exact ⟨⟨hplain, hfits, htext⟩, hleft⟩
  · rintro ⟨⟨hplain, hfits, htext⟩, hleft⟩
    exact ⟨hplain, hfits, htext, hleft⟩

/-- The stream ends inside an announced chunk, or a line of it that is read is
not text. -/
inductive CutShort : Nat → List UInt8 → Prop
  | line {held : Nat} {stream : List UInt8} :
      fromUtf8 (Lib.readUntil 10 stream).1 = none → CutShort held stream
  | trailer {held : Nat} {stream rest : List UInt8} {line : String} :
      readLine stream = .ok (line, rest) → responseChunkSize line = .ok 0 →
      fromUtf8 (Lib.readUntil 10 rest).1 = none → CutShort held stream
  | chunk {held size : Nat} {stream rest : List UInt8} {line : String} :
      readLine stream = .ok (line, rest) → responseChunkSize line = .ok size → 0 < size →
      size ≤ isizeMax → rest.length < size + 2 →
      (size ≤ rest.length → held + size ≤ isizeMax) → CutShort held stream
  | next {held size : Nat} {stream rest : List UInt8} {line : String} :
      readLine stream = .ok (line, rest) → responseChunkSize line = .ok size → 0 < size →
      size + 2 ≤ rest.length → held + size ≤ isizeMax →
      CutShort (held + size) (rest.drop (size + 2)) → CutShort held stream

theorem readChunk_client_of_pos {stream rest : List UInt8}
    (hline : readLine stream = .ok (line, rest)) (hsize : responseChunkSize line = .ok size)
    (hpos : 0 < size) :
    readChunk responseChunkSize none body stream =
      if isizeMax < size then .error .panicked
      else if rest.length < size then .error (.io "early eof")
      else if isizeMax < body.length + size then .error .panicked
      else if rest.length < size + 2 then .error (.io "early eof")
      else .ok (.data (rest.take size) (rest.drop (size + 2))) := by
  rw [readChunk, hline]
  dsimp only
  rw [hsize]
  split
  · rename_i heq
    cases heq
  · rename_i heq
    exact absurd (Except.ok.inj heq) (by omega)
  · rename_i size' _ heq
    obtain rfl : size = size' := Except.ok.inj heq
    simp only [any_none, Bool.false_eq_true, if_false, readExact]
    by_cases hshort : rest.length < size
    · rw [if_neg (show ¬ size ≤ rest.length by omega), if_pos hshort]
    rw [if_pos (show size ≤ rest.length by omega), if_neg hshort]
    dsimp only
    rw [length_drop, drop_drop]
    by_cases hmark : rest.length < size + 2
    · rw [if_neg (show ¬ 2 ≤ rest.length - size by omega), if_pos hmark]
      rfl
    · rw [if_pos (show 2 ≤ rest.length - size by omega), if_neg hmark]
      rfl

/-- A chunked body is refused EXACTLY when it is cut short. The cases are
the rounds of the loop. -/
theorem cutShort_iff (body stream : List UInt8) :
    CutShort body.length stream ↔
      ∃ e, readChunks responseChunkSize none body stream = .error e ∧ e ≠ .panicked := by
  constructor
  · have hrun : ∀ held stream, CutShort held stream → ∀ body : List UInt8, body.length = held →
        ∃ e, readChunks responseChunkSize none body stream = .error e ∧ e ≠ .panicked := by
      intro held stream hcut
      induction hcut with
      | line hnone =>
        intro body _
        rw [readChunks_eq, readChunk, readLine, hnone]
        exact ⟨_, rfl, by simp⟩
      | trailer hline hsize hnone =>
        intro body _
        rw [readChunks_eq, readChunk_of_zero hline hsize, readLine, hnone]
        exact ⟨_, rfl, by simp⟩
      | chunk hline hsize hpos halloc hshort hroom =>
        rename_i held size stream rest line
        rintro body rfl
        rw [readChunks_eq, readChunk_client_of_pos hline hsize hpos, if_neg (by omega)]
        by_cases hdata : rest.length < size
        · rw [if_pos hdata]
          exact ⟨_, rfl, by simp⟩
        have hfits := hroom (by omega)
        rw [if_neg hdata, if_neg (by omega), if_pos hshort]
        exact ⟨_, rfl, by simp⟩
      | next hline hsize hpos hlen hroom _ ih =>
        rename_i held size stream rest line
        rintro body rfl
        rw [readChunks_eq, readChunk_client_of_pos hline hsize hpos, if_neg (by omega),
          if_neg (by omega), if_neg (by omega), if_neg (by omega)]
        refine ih _ ?_
        rw [length_append, length_take, Nat.min_eq_left (by omega)]
    exact fun hcut => hrun _ _ hcut body rfl
  rintro ⟨e, herror, hne⟩
  fun_induction readChunks responseChunkSize none body stream with
  | case1 body stream e' hread =>
    cases herror
    cases hline : readLine stream with
    | error e' =>
      refine .line ?_
      rw [readLine] at hline
      split at hline
      · cases hline
      · assumption
    | ok r =>
      obtain ⟨line, rest⟩ := r
      obtain ⟨size, hsize⟩ : ∃ size, responseChunkSize line = .ok size := ⟨_, rfl⟩
      rcases Nat.eq_zero_or_pos size with rfl | hpos
      · rw [readChunk_of_zero hline hsize] at hread
        refine .trailer hline hsize ?_
        rw [readLine] at hread
        split at hread
        · cases hread
        · assumption
      rw [readChunk_client_of_pos hline hsize hpos] at hread
      split_ifs at hread with halloc hdata hroom hmark
      · exact absurd (Except.error.inj hread).symm hne
      · exact .chunk hline hsize hpos (by omega) (by omega) (by omega)
      · exact absurd (Except.error.inj hread).symm hne
      · exact .chunk hline hsize hpos (by omega) hmark fun _ => by omega
  | case2 => cases herror
  | case3 body stream chunk rest hread ih =>
    obtain ⟨line, size, rest', hline, hsize, hdata⟩ := readChunk_ok hread
    rcases hdata with ⟨_, _, _, _, hlast⟩ | ⟨hpos, hlen, _, hroom, hdata⟩
    · cases hlast
    cases hdata
    have hlater := ih herror
    rw [length_append, length_take, Nat.min_eq_left (by omega)] at hlater
    exact .next hline hsize hpos hlen hroom hlater

/-! ## The end of a response -/

/-- The client goes by the framing the response has. Behind a response without
a body nothing is taken for one; a length is the one on the last of its lines;
a chunked body is announced by one word, has extensions behind its last chunk
alone and is there to its end, or it is cut short. On a connection that goes
back into the pool nothing follows. -/
def ReadPlainly (method : HttpMethod) (pool : Bool) (h : ResponseHead) (tail : List UInt8) : Prop :=
  let reuse := pool && h.keptAlive
  match h.framing method with
  | .nothing => h.IsText ∧
      if h.allowsBody then
        if fieldValues "Content-Length" h.fields = [] then
          tail = [] ∨ (h.keptChunked = true ∧ reuse = false ∧
            ∃ left, readChunks responseChunkSize none [] tail = .ok ([], left))
        else h.keptLength = 0 ∧ (reuse = true → tail = [])
      else reuse = true → tail = []
  | .length size => size ≤ tail.length → h.IsText ∧ h.keptLength = size ∧ size ≤ isizeMax ∧
      (reuse = true → tail.length = size)
  | .chunked =>
    (∀ (m : ChunkedBody) (rest : List UInt8), tail = m.bytes ++ rest → h.IsText ∧
      h.keptChunked = true ∧ ReadByClient m ∧ (reuse = true → m.trailer = [] ∧ rest = [])) ∧
    ((∀ (m : ChunkedBody) (rest : List UInt8), tail ≠ m.bytes ++ rest) → h.IsText →
      h.keptChunked = true ∧ CutShort 0 tail)
  | .invalid => True

theorem framing_of_body {framing : Wire.Framing} (hframing : h.framing method = framing)
    (hsome : framing ≠ .nothing) (hvalid : framing ≠ .invalid) :
    h.allowsBody = true ∧ h.framing method =
      match Wire.framing h.fields with
      | .chunked =>
        if fieldValues "Content-Length" h.fields = [] then .chunked else .invalid
      | .length size => .length size
      | .nothing | .invalid => .invalid := by
  by_cases hnone : method = .head ∨ h.allowsBody = false
  · exact absurd (hframing.symm.trans (if_pos hnone)) hsome
  by_cases hconnect : method = .connect ∧ h.code < 300
  · exact absurd (hframing.symm.trans ((if_neg hnone).trans (if_pos hconnect))) hvalid
  rw [ResponseHead.framing, if_neg hnone, if_neg hconnect]
  rw [not_or, Bool.not_eq_false] at hnone
  exact ⟨hnone.2, rfl⟩

theorem framing_length (hframing : h.framing method = .length size) :
    h.allowsBody = true ∧ fieldValues "Content-Length" h.fields ≠ [] := by
  obtain ⟨hallows, heq⟩ := framing_of_body hframing (by simp) (by simp)
  refine ⟨hallows, fun hempty => ?_⟩
  by_cases hends : Wire.endsInChunked h.fields = true <;>
    simp [hframing, Wire.framing, hends, hempty] at heq

theorem framing_chunked (hframing : h.framing method = .chunked) :
    h.allowsBody = true ∧ fieldValues "Content-Length" h.fields = [] := by
  obtain ⟨hallows, heq⟩ := framing_of_body hframing (by simp) (by simp)
  refine ⟨hallows, ?_⟩
  by_contra hne
  rw [hframing, if_neg hne] at heq
  split at heq <;> cases heq

section Whole

variable {display : AddrDisplay} {addr : SocketAddr} {request : HttpMessage}
  {body : Option (List UInt8)} {pool : Bool} {h : ResponseHead} {tail : List UInt8}

theorem returns_of_taken {bytes : Option (List UInt8)} {known : Bool} {left : List UInt8}
    (htaken : taken h tail = .ok (bytes, known, left)) (full rest : List UInt8) :
    Returns display addr request body pool h tail full rest ↔ h.IsText ∧ bytes.getD [] = full ∧
      ((pool && h.keptAlive && known) = true → left = rest ∧ rest = []) := by
  rw [returns_iff, htaken]
  refine and_congr_right fun _ => ⟨?_, fun hread => ⟨bytes, known, left, rfl, hread⟩⟩
  rintro ⟨_, _, _, heq, hread⟩
  cases heq
  exact hread

theorem not_returns_of_error {e : TransportError} (htaken : taken h tail = .error e)
    (full rest : List UInt8) : ¬ Returns display addr request body pool h tail full rest := by
  rw [returns_iff, htaken]
  rintro ⟨_, _, _, _, heq, _⟩
  cases heq

theorem getD_ite_nil (bytes : List UInt8) :
    (if bytes = [] then none else some bytes).getD [] = bytes := by
  split_ifs with hnil
  · exact hnil.symm
  · rfl

theorem returns_length_iff (hallows : h.allowsBody = true)
    (hvalues : fieldValues "Content-Length" h.fields ≠ []) (full rest : List UInt8) :
    Returns display addr request body pool h (full ++ rest) full rest ↔
      h.IsText ∧ h.keptLength = full.length ∧ full.length ≤ isizeMax ∧
        ((pool && h.keptAlive) = true → rest = []) := by
  by_cases hzero : h.keptLength = 0
  · have htaken : taken h (full ++ rest) = .ok (none, true, full ++ rest) := by
      simp [taken, hallows, hvalues, hzero]
    rw [returns_of_taken htaken, hzero, Bool.and_true]
    refine and_congr_right fun _ => ⟨?_, ?_⟩
    · rintro ⟨rfl, hreuse⟩
      exact ⟨rfl, Nat.zero_le _, fun halive => (hreuse halive).2⟩
    rintro ⟨hlength, _, hreuse⟩
    obtain rfl := length_eq_zero_iff.mp hlength.symm
    exact ⟨rfl, fun halive => ⟨rfl, hreuse halive⟩⟩
  by_cases halloc : isizeMax < h.keptLength
  · refine iff_of_false (not_returns_of_error (e := .panicked) ?_ _ _) ?_
    · simp [taken, hallows, hvalues, hzero, halloc]
    · rintro ⟨_, hlength, hfits, _⟩
      omega
  by_cases hshort : h.keptLength ≤ (full ++ rest).length
  · have hread : readExact h.keptLength (full ++ rest) =
        .ok ((full ++ rest).take h.keptLength, (full ++ rest).drop h.keptLength) := by
      rw [readExact, if_pos hshort]
    have htaken : taken h (full ++ rest) = .ok (some ((full ++ rest).take h.keptLength), true,
        (full ++ rest).drop h.keptLength) := by
      simp [taken, hallows, hvalues, hzero, halloc, hread, Except.map]
    rw [returns_of_taken htaken, getD_some, Bool.and_true]
    refine and_congr_right fun _ => ⟨?_, ?_⟩
    · rintro ⟨hfull, hreuse⟩
      have hlength := congrArg length hfull
      rw [length_take, Nat.min_eq_left hshort] at hlength
      exact ⟨hlength, by omega, fun halive => (hreuse halive).2⟩
    · rintro ⟨hlength, _, hreuse⟩
      rw [hlength, take_left, drop_left]
      exact ⟨rfl, fun halive => ⟨rfl, hreuse halive⟩⟩
  · have hread : readExact h.keptLength (full ++ rest) = .error (.io "early eof") := by
      rw [readExact, if_neg hshort]
    refine iff_of_false (not_returns_of_error (e := .io "early eof") ?_ _ _) ?_
    · simp [taken, hallows, hvalues, hzero, halloc, hread, Except.map]
    rintro ⟨_, hlength, _⟩
    rw [length_append] at hshort
    omega

theorem behindTrailerLine_eq_iff (m : ChunkedBody) (rest : List UInt8) :
    behindTrailerLine m rest = rest ↔ m.trailer = [] := by
  rw [behindTrailerLine]
  cases m.trailer with
  | nil => simp
  | cons line more =>
    refine iff_of_false (fun heq => ?_) (by simp)
    have hlength := congrArg length heq
    simp only [crlf, length_append, length_cons, length_nil] at hlength
    omega

theorem taken_of_chunked (hallows : h.allowsBody = true)
    (hvalues : fieldValues "Content-Length" h.fields = []) :
    taken h tail = if h.keptChunked then
        (readChunks responseChunkSize none [] tail).map fun r =>
          (if r.1 = [] then none else some r.1, true, r.2)
      else .ok (if tail = [] then none else some tail, false, []) := by
  simp [taken, hallows, hvalues]

theorem returns_nothing_iff :
    Returns display addr request body pool h tail [] tail ↔ h.IsText ∧
      if h.allowsBody then
        if fieldValues "Content-Length" h.fields = [] then
          tail = [] ∨ (h.keptChunked = true ∧ (pool && h.keptAlive) = false ∧
            ∃ left, readChunks responseChunkSize none [] tail = .ok ([], left))
        else h.keptLength = 0 ∧ ((pool && h.keptAlive) = true → tail = [])
      else (pool && h.keptAlive) = true → tail = [] := by
  have hend : readChunks responseChunkSize none [] [] = .ok ([], []) := by decide +kernel
  cases hallows : h.allowsBody with
  | false =>
    have htaken : taken h tail = .ok (none, true, tail) := by simp [taken, hallows]
    rw [returns_of_taken htaken]
    simp
  | true =>
    rw [if_pos rfl]
    by_cases hvalues : fieldValues "Content-Length" h.fields = []
    · rw [if_pos hvalues]
      have htaken : taken h tail = _ := taken_of_chunked hallows hvalues
      cases hchunked : h.keptChunked with
      | false =>
        rw [hchunked, if_neg Bool.false_ne_true] at htaken
        rw [returns_of_taken htaken, getD_ite_nil]
        simp
      | true =>
        rw [hchunked, if_pos rfl] at htaken
        cases hrun : readChunks responseChunkSize none [] tail with
        | error e =>
          rw [hrun] at htaken
          refine iff_of_false (not_returns_of_error htaken _ _) ?_
          rintro ⟨_, rfl | ⟨_, _, _, heq⟩⟩
          · rw [hend] at hrun
            cases hrun
          · cases heq
        | ok r =>
          obtain ⟨bytes, left⟩ := r
          rw [hrun] at htaken
          rw [returns_of_taken htaken, getD_ite_nil, Bool.and_true]
          refine and_congr_right fun _ => ⟨?_, ?_⟩
          · rintro ⟨rfl, hreuse⟩
            cases halive : pool && h.keptAlive with
            | false => exact .inr ⟨rfl, rfl, left, rfl⟩
            | true => exact .inl (hreuse halive).2
          rintro (rfl | ⟨_, halive, _, heq⟩)
          · rw [hend] at hrun
            cases hrun
            exact ⟨rfl, fun _ => ⟨rfl, rfl⟩⟩
          · cases heq
            exact ⟨rfl, fun hreuse => by simp [halive] at hreuse⟩
    · rw [if_neg hvalues]
      refine (returns_length_iff hallows hvalues [] tail).trans ?_
      simp

theorem returns_chunked_iff (hallows : h.allowsBody = true)
    (hvalues : fieldValues "Content-Length" h.fields = []) (m : ChunkedBody) (rest : List UInt8) :
    Returns display addr request body pool h (m.bytes ++ rest) m.body rest ↔
      h.IsText ∧ h.keptChunked = true ∧ ReadByClient m ∧
        ((pool && h.keptAlive) = true → m.trailer = [] ∧ rest = []) := by
  have htaken : taken h (m.bytes ++ rest) = _ := taken_of_chunked hallows hvalues
  cases hchunked : h.keptChunked with
  | false =>
    -- all there is is returned, and that is more than the body
    rw [hchunked, if_neg Bool.false_ne_true] at htaken
    refine iff_of_false ?_ (by simp)
    rw [returns_of_taken htaken, getD_ite_nil]
    rintro ⟨_, hbody, _⟩
    have hlength := m.length_body_lt
    rw [← hbody, length_append] at hlength
    omega
  | true =>
    rw [hchunked, if_pos rfl] at htaken
    cases hrun : readChunks responseChunkSize none [] (m.bytes ++ rest) with
    | error e =>
      rw [hrun] at htaken
      refine iff_of_false (not_returns_of_error htaken _ _) ?_
      rintro ⟨_, _, hread, _⟩
      rw [(readChunks_client_iff m rest _).mpr ⟨hread, rfl⟩] at hrun
      cases hrun
    | ok r =>
      obtain ⟨bytes, left⟩ := r
      rw [hrun] at htaken
      have hclient := readChunks_client_iff m rest left
      rw [hrun, Except.ok.injEq, Prod.mk.injEq, and_iff_left rfl] at hclient
      rw [returns_of_taken htaken, getD_ite_nil, Bool.and_true, hclient]
      refine and_congr_right fun _ => ⟨?_, ?_⟩
      · rintro ⟨⟨hread, rfl⟩, hreuse⟩
        refine ⟨rfl, hread, fun halive => ?_⟩
        obtain ⟨hleft, hrest⟩ := hreuse halive
        exact ⟨(behindTrailerLine_eq_iff m rest).mp hleft, hrest⟩
      rintro ⟨_, hread, hreuse⟩
      have hleft := (readChunks_client_iff m rest _).mpr ⟨hread, rfl⟩
      rw [hrun] at hleft
      cases hleft
      refine ⟨⟨hread, rfl⟩, fun halive => ?_⟩
      obtain ⟨htrailer, hrest⟩ := hreuse halive
      exact ⟨(behindTrailerLine_eq_iff m rest).mpr htrailer, hrest⟩

theorem fails_chunked_iff (hallows : h.allowsBody = true)
    (hvalues : fieldValues "Content-Length" h.fields = []) :
    Fails display addr request body pool h tail ↔
      (h.IsText → h.keptChunked = true ∧ CutShort 0 tail) := by
  rw [fails_iff, taken_of_chunked hallows hvalues]
  refine imp_congr_right fun _ => ?_
  have hcut := cutShort_iff [] tail
  rw [length_nil] at hcut
  cases h.keptChunked with
  | false => simp
  | true =>
    rw [if_pos rfl, hcut]
    cases readChunks responseChunkSize none [] tail with
    | error e => simp [Except.map]
    | ok r => simp [Except.map]

end Whole

def chunkedHead : ResponseHead :=
  .ok [⟨"Transfer-Encoding", asBytes " chunked", Wire.isToken_transferEncoding,
    by unfold Wire.OnLine; decide⟩]

def extendedBody : ChunkedBody where
  chunks := [⟨[ '5'], asBytes ";x=1", asBytes "hello", by simp; decide, by decide,
    .inr ⟨[], asBytes "x=1", by decide, by simp, by unfold Wire.OnLine; decide⟩, by decide⟩]
  zeros := 0
  extension := []
  trailer := []
  extension_ok := .inl rfl
  trailer_ok := by simp

end VarahaCache
