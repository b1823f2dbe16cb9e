import VarahaCache.Transport.Stream

/-!
# Requests from clients

`read_request`, `read_body` and `should_keepalive` of the HTTP/1.1 server,
and `h2_request_to_message` of the HTTP/2 one. The parser of a request head
is a library's (`httparse`) and so is the one of HTTP/2; what the program
takes from them is a parameter, with what the library promises as fields.
-/

namespace VarahaCache

open Text Lib HttpMessage

/-! ## HTTP/1.1 -/

/-- A header field as `httparse` hands it out. -/
structure ParsedHeader where
  name : String
  value : List UInt8
  name_token : Wire.isToken name = true
  value_line : 10 ∉ value

/-- A request head as `httparse` hands it out. -/
structure ParsedRequest where
  method : Option String
  path : Option String
  version : Option UInt8
  headers : List ParsedHeader
  path_word : ∀ p, path = some p → p ≠ "" ∧ ' ' ∉ p.toList ∧ '\n' ∉ p.toList

/-- What `httparse` makes of the bytes of a head. -/
inductive ParseStatus
  | complete (request : ParsedRequest)
  | incomplete
  | failed (message : String)

def maxHeaderSize : Nat := 64 * 1024

/-- The loop of `read_request`: lines up to a blank one. -/
def readHeadBytes (buf stream : List UInt8) : Except TransportError (List UInt8 × List UInt8) :=
  let segment := (readUntil 10 stream).1
  let rest := (readUntil 10 stream).2
  if _hend : segment = [] then
    .error (if buf = [] then .connectionClosed else .httpParse "incomplete request headers")
  else
    let buf := buf ++ segment
    if [13, 10, 13, 10] <:+ buf ∨ [10, 10] <:+ buf ∨ segment = [13, 10] ∨ segment = [10] then
      .ok (buf, rest)
    else if maxHeaderSize < buf.length then .error .requestTooLarge
    else readHeadBytes buf rest
termination_by stream.length
decreasing_by
  have hlen := length_readUntil 10 stream
  have hpos : 0 < (readUntil 10 stream).1.length := List.length_pos_iff.mpr _hend
  omega

def announcesBody (contentLength : String) : Bool := decide (0 < (parseUsize contentLength).getD 0)

/-- The body a request announces. A Content-Length decides alone. -/
def requestBodyStatus (headers : HeaderMap) : BodyStatus :=
  match headers.get "Content-Length" with
  | some cl => if announcesBody cl then .length else .none
  | none =>
    if (headers.get "Transfer-Encoding").any (eqIgnoreAsciiCase · "chunked") then .chunked
    else .none

/-- The message of a parsed head. A value that is not UTF-8 reads as empty. -/
def ParsedRequest.toMessage (req : ParsedRequest) : HttpMessage :=
  let version := match req.version with
    | some 0 => HttpVersion.http10
    | _ => HttpVersion.http11
  let msg := newRequest (.parseMethod (req.method.getD "GET")) (req.path.getD "/") version
  let msg := msg.copyHeadersExcept []
    (req.headers.map fun h => ⟨h.name, (fromUtf8 h.value).getD ""⟩)
  { msg with bodyStatus := requestBodyStatus msg.headers }

def readRequest (httparse : List UInt8 → ParseStatus) (stream : List UInt8) :
    Except TransportError (HttpMessage × List UInt8) :=
  match readHeadBytes [] stream with
  | .error e => .error e
  | .ok (buf, rest) =>
    match httparse buf with
    | .complete req => .ok (req.toMessage, rest)
    | .incomplete => .error (.httpParse "incomplete HTTP request")
    | .failed e => .error (.httpParse ("HTTP parse error: " ++ e))

/-- A chunk size line, as the server takes it. -/
def requestChunkSize (line : String) : Except TransportError Nat :=
  (fromStrRadix 16 (2 ^ 64) (trim line)).mapError
    fun e => .httpParse ("invalid chunk size: " ++ e.text)

def readBody (msg : HttpMessage) (maxSize : Nat) (stream : List UInt8) :
    Except TransportError (Option (List UInt8) × List UInt8) :=
  match msg.bodyStatus with
  | .length =>
    let length := ((msg.getHeader "Content-Length").bind parseUsize).getD 0
    if length = 0 then .ok (none, stream)
    else if maxSize < length then .error .requestTooLarge
    else if isizeMax < length then .error .panicked
    else (readExact length stream).map fun r => (some r.1, r.2)
  | .chunked =>
    (readChunks requestChunkSize (some maxSize) [] stream).map fun r =>
      (if r.1 = [] then none else some r.1, r.2)
  | _ => .ok (none, stream)

def shouldKeepalive (msg : HttpMessage) : Bool :=
  if msg.protocol = .http10 then
    (msg.getHeader "Connection").any (eqIgnoreAsciiCase · "keep-alive")
  else !(msg.getHeader "Connection").any (eqIgnoreAsciiCase · "close")

/-! ### What is accepted -/

/-- A target without blanks, distinct header names that are tokens, values
without line ends, and the body status its headers make. -/
structure WellFormedRequest (msg : HttpMessage) : Prop where
  url_ne : msg.url ≠ ""
  url_word : ' ' ∉ msg.url.toList ∧ '\n' ∉ msg.url.toList
  distinct : msg.headers.Distinct
  token : ∀ h ∈ msg.headers.headers, Wire.isToken h.name = true
  value : ∀ h ∈ msg.headers.headers, '\n' ∉ h.value.toList
  body : msg.bodyStatus = requestBodyStatus msg.headers

theorem lf_notMem_fromUtf8 {bytes : List UInt8} (h : 10 ∉ bytes) :
    '\n' ∉ ((fromUtf8 bytes).getD "").toList := by
  cases hs : fromUtf8 bytes with
  | none => simp
  | some s =>
    rw [fromUtf8_eq_some] at hs
    intro hmem
    exact h (hs ▸ lf_mem_asBytes.mpr hmem)

theorem ParsedRequest.wellFormed (req : ParsedRequest) : WellFormedRequest req.toMessage := by
  let P : HeaderMap → Prop := fun headers => headers.Distinct ∧
    ∀ h ∈ headers.headers, Wire.isToken h.name = true ∧ '\n' ∉ h.value.toList
  have hset : ∀ headers, P headers →
      ∀ h ∈ req.headers.map fun h => (⟨h.name, (fromUtf8 h.value).getD ""⟩ : Header),
        P (headers.set h.name h.value) := by
    intro headers hp h hmem
    obtain ⟨parsed, _, rfl⟩ := List.mem_map.mp hmem
    refine ⟨hp.1.set _ _, ?_⟩
    intro k hk
    rcases HeaderMap.mem_of_mem_set hk with hk | rfl
    · exact hp.2 k hk
    · exact ⟨parsed.name_token, lf_notMem_fromUtf8 parsed.value_line⟩
  have hurl : req.path.getD "/" ≠ "" ∧ ' ' ∉ (req.path.getD "/").toList ∧
      '\n' ∉ (req.path.getD "/").toList := by
    cases hpath : req.path with
    | none => decide
    | some p => exact req.path_word p hpath
  obtain ⟨headers, hcopy, hp⟩ := copyHeadersExcept_induction (P := P) []
    (newRequest (.parseMethod (req.method.getD "GET")) (req.path.getD "/")
      (match req.version with | some 0 => .http10 | _ => .http11)) _
    ⟨HeaderMap.distinct_new, by simp [newRequest, HeaderMap.new]⟩ hset
  have hmsg : req.toMessage = { newRequest (.parseMethod (req.method.getD "GET"))
      (req.path.getD "/") (match req.version with | some 0 => .http10 | _ => .http11) with
      headers := headers, bodyStatus := requestBodyStatus headers } := by
    unfold ParsedRequest.toMessage
    dsimp only
    rw [hcopy]
  rw [hmsg]
  exact ⟨hurl.1, hurl.2, hp.1, fun h hh => (hp.2 h hh).1, fun h hh => (hp.2 h hh).2, rfl⟩

theorem readHeadBytes_length {buf stream bytes rest : List UInt8}
    (h : readHeadBytes buf stream = .ok (bytes, rest)) : rest.length < stream.length := by
  fun_induction readHeadBytes buf stream with
  | case1 => cases h
  | case2 buf stream segment rest' hne buf' hblank =>
    have hlen : segment.length + rest'.length = stream.length := length_readUntil 10 stream
    have hpos : 0 < segment.length := List.length_pos_iff.mpr hne
    rw [Except.ok.injEq, Prod.mk.injEq] at h
    rw [← h.2]
    omega
  | case3 => cases h
  | case4 buf stream segment rest' hne buf' hblank hsize ih =>
    have hlen : segment.length + rest'.length = stream.length := length_readUntil 10 stream
    have hlater := ih h
    omega

variable {msg : HttpMessage}

theorem readBody_length {maxSize : Nat} {stream rest : List UInt8} {body : Option (List UInt8)}
    (h : readBody msg maxSize stream = .ok (body, rest)) : rest.length ≤ stream.length := by
  unfold readBody at h
  split at h
  · dsimp only at h
    split_ifs at h
    · cases h
      rfl
    obtain ⟨r, hread, heq⟩ := exists_of_map_ok h
    obtain ⟨_, _, hdrop⟩ := readExact_ok hread
    cases heq
    rw [hdrop, List.length_drop]
    omega
  · obtain ⟨r, hread, heq⟩ := exists_of_map_ok h
    have hlen := readChunks_length hread
    cases heq
    exact hlen
  · cases h
    rfl

theorem readRequest_ok {httparse : List UInt8 → ParseStatus} {stream rest : List UInt8}
    (h : readRequest httparse stream = .ok (msg, rest)) :
    WellFormedRequest msg ∧ rest.length < stream.length := by
  unfold readRequest at h
  split at h
  · cases h
  rename_i buf rest' hhead
  split at h
  · rename_i req _
    cases h
    exact ⟨req.wellFormed, readHeadBytes_length hhead⟩
  · cases h
  · cases h

/-! ### A parser

One that does what the library promises, on heads whose lines end in CR LF. -/

def parseHeader (h : Header) : Option ParsedHeader :=
  if hname : Wire.isToken h.name = true then
    if hvalue : 10 ∉ asBytes h.value then some ⟨h.name, asBytes h.value, hname, hvalue⟩ else none
  else none

def parseHead (bytes : List UInt8) : ParseStatus :=
  match Wire.readHead bytes with
  | none => .incomplete
  | some (head, _) =>
    match Wire.requestLine head.start, head.fields.headers.mapM parseHeader with
    | some (method, target), some headers =>
      if htarget : target ≠ "" ∧ ' ' ∉ target.toList ∧ '\n' ∉ target.toList then
        .complete ⟨some method, some target, some 1, headers, fun _ h => Option.some.inj h ▸ htarget⟩
      else .failed "invalid token"
    | _, _ => .failed "invalid token"

/-! ## HTTP/2 -/

/-- A request URI, as the `http` library takes it apart. -/
structure Uri where
  authority : Option String
  pathAndQuery : Option String
  path : String
deriving DecidableEq

/-- The head of an HTTP/2 request, as the `h2` library hands it out. -/
structure RequestParts where
  method : String
  uri : Uri
  headers : List (String × List UInt8)
deriving DecidableEq

/-- `HeaderValue::to_str`: visible ASCII and tabs. -/
def toStr (value : List UInt8) : Option String :=
  if value.all fun b => (32 ≤ b && b < 127) || b == 9 then fromUtf8 value else none

/-- `h2_request_to_message`. Of the URI the path and the query are kept. -/
def h2RequestToMessage (parts : RequestParts) : HttpMessage :=
  let url := parts.uri.pathAndQuery.getD parts.uri.path
  let msg := newRequest (.parseMethod parts.method) url .http2
  let msg := msg.copyHeadersExcept []
    ((parts.headers.filter fun h => h.1.toList.head? ≠ some ':').map fun h =>
      ⟨h.1, (toStr h.2).getD ""⟩)
  if (msg.getHeader "Content-Length").any announcesBody then { msg with bodyStatus := .length }
  else msg

theorem h2RequestToMessage_getHeader {parts : RequestParts} {name : String}
    (h : ∀ field ∈ parts.headers, eqIgnoreAsciiCase field.1 name = false) :
    (h2RequestToMessage parts).getHeader name = none := by
  have hcase : ∀ a b, eqIgnoreAsciiCase a b = true →
      (eqIgnoreAsciiCase a name = false ↔ eqIgnoreAsciiCase b name = false) := by
    intro a b hab
    rw [eqIgnoreAsciiCase_iff] at hab
    simp only [eqIgnoreAsciiCase, hab]
  have hall : ∀ msg : HttpMessage, msg.headers = .new →
      (msg.copyHeadersExcept [] ((parts.headers.filter fun h => h.1.toList.head? ≠ some ':').map
        fun h => ⟨h.1, (toStr h.2).getD ""⟩)).getHeader name = none := by
    intro msg hnew
    refine HeaderMap.get_eq_none.mpr ((forall_mem_copyHeadersExcept
      (p := fun n => eqIgnoreAsciiCase n name = false) hcase).mpr ⟨?_, ?_⟩)
    · simp [hnew, HeaderMap.new]
    intro k hk
    obtain ⟨field, hfield, rfl⟩ := List.mem_map.mp hk
    exact .inr (h field (List.mem_of_mem_filter hfield))
  unfold h2RequestToMessage
  dsimp only
  split
  · exact hall _ rfl
  · exact hall _ rfl

@[simp] theorem h2RequestToMessage_url (parts : RequestParts) :
    (h2RequestToMessage parts).url = parts.uri.pathAndQuery.getD parts.uri.path := by
  obtain ⟨headers, hcopy, _⟩ := copyHeadersExcept_induction (P := fun _ => True) []
    (newRequest (.parseMethod parts.method) (parts.uri.pathAndQuery.getD parts.uri.path) .http2)
    ((parts.headers.filter fun h => h.1.toList.head? ≠ some ':').map fun h =>
      ⟨h.1, (toStr h.2).getD ""⟩) trivial (fun _ _ _ _ => trivial)
  unfold h2RequestToMessage
  dsimp only
  rw [hcopy]
  split <;> rfl

end VarahaCache
