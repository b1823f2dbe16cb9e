import VarahaCache.Transport.Stream

/-!
# Talking to a backend

`send_backend_request` of the HTTP/1.1 client: the bytes it writes, what it
makes of the bytes that come back, and what is left on a connection it puts
back into the pool. A connection is what one request gets to read on it, up to
its end.
-/

namespace VarahaCache

open Text

/-! ## The request -/

/-- How a socket address is written, on one line. -/
structure AddrDisplay where
  text : SocketAddr → String
  line : ∀ addr, '\n' ∉ (text addr).toList

def localDisplay : AddrDisplay := ⟨fun _ => "127.0.0.1:8080", fun _ => by decide⟩

/-- The bytes of a backend request; a body is announced by its length,
whatever the headers say. -/
def requestBytes (display : AddrDisplay) (addr : SocketAddr) (request : HttpMessage)
    (body : Option (List UInt8)) : List UInt8 :=
  asBytes (request.method.name ++ " " ++ request.url ++ " " ++ request.protocol.asStr ++ "\r\n") ++
    request.headers.headers.flatMap (fun h => asBytes (h.name ++ ": " ++ h.value ++ "\r\n")) ++
    (if request.getHeader "Host" = none then asBytes ("Host: " ++ display.text addr ++ "\r\n")
      else []) ++
    match body with
    | some body =>
      asBytes ("Content-Length: " ++ toString body.length ++ "\r\n") ++ asBytes "\r\n" ++ body
    | none => asBytes "\r\n"

/-! ## The response -/

def lineText (line : String) : String := trimEndMatches '\n' (trimEndMatchesStr "\r\n" line)

/-- One header line; a line without a colon is passed over. -/
def setHeaderLine (response : HttpMessage) (text : String) : HttpMessage :=
  match splitOnce ':' text with
  | some (name, value) => response.setHeader (trim name) (trim value)
  | none => response

/-- The header loop: lines up to a blank one or the end of the stream. -/
def readResponseHeaders (response : HttpMessage) (stream : List UInt8) :
    Except TransportError (HttpMessage × List UInt8) :=
  match _hline : readLine stream with
  | .error e => .error e
  | .ok (line, rest) =>
    if _hend : line = "" then .ok (response, rest)
    else if lineText line = "" then .ok (response, rest)
    else readResponseHeaders (setHeaderLine response (lineText line)) rest
termination_by stream.length
decreasing_by
  have hlen := readLine_length _hline
  have hpos := List.length_pos_iff.mpr fun h => _hend (asBytes_eq_nil.mp h)
  omega

/-- A chunk size line, as the client takes it: a bad one ends the body. -/
def responseChunkSize (line : String) : Except TransportError Nat :=
  .ok ((fromStrRadix 16 (2 ^ 64) (trim line)).toOption.getD 0)

/-- The body of a response: none, of the announced length, chunked, or all
there is; whether its length was known, and the bytes left. -/
def readResponseBody (response : HttpMessage) (stream : List UInt8) :
    Except TransportError (Option (List UInt8) × Bool × List UInt8) :=
  if response.responseHasBody then
    match response.getHeader "Content-Length" with
    | some cl =>
      let length := (parseUsize cl).getD 0
      if 0 < length then
        if isizeMax < length then .error .panicked
        else (readExact length stream).map fun r => (some r.1, true, r.2)
      else .ok (none, true, stream)
    | none =>
      if (response.getHeader "Transfer-Encoding").any (eqIgnoreAsciiCase · "chunked") then
        (readChunks responseChunkSize none [] stream).map fun r =>
          (if r.1 = [] then none else some r.1, true, r.2)
      else .ok (if stream = [] then none else some stream, false, [])
  else .ok (none, true, stream)

structure ResponseRead where
  response : HttpMessage
  body : Option (List UInt8)
  bodyLengthKnown : Bool
  rest : List UInt8
deriving DecidableEq

def readResponse (stream : List UInt8) : Except TransportError ResponseRead :=
  match readLine stream with
  | .error e => .error e
  | .ok (line, rest) =>
    if line = "" then .error .connectionClosed
    else
      match splitn 3 ' ' (trimEnd line) with
      | version :: code :: more =>
        match parseU16 code with
        | .error e => .error (.httpParse ("invalid status code: " ++ e.text))
        | .ok code =>
          let response := HttpMessage.newResponse ⟨UInt16.ofNat code⟩
            ((HttpVersion.fromStr version).getD .http11)
          match readResponseHeaders { response with reason := more.headD "" } rest with
          | .error e => .error e
          | .ok (response, rest) =>
            (readResponseBody response rest).map fun r => ⟨response, r.1, r.2.1, r.2.2⟩
      | _ => .error (.httpParse ("invalid status line: " ++ trimEnd line))

def isKeepAlive (response : HttpMessage) : Bool :=
  let connHeader := (response.getHeader "Connection").getD ""
  match response.protocol with
  | .http11 => !eqIgnoreAsciiCase connHeader "close"
  | _ => eqIgnoreAsciiCase connHeader "keep-alive"

/-- What a connection put back into the pool has to deliver: the `ahead` bytes
in the reader's buffer are gone. -/
def ResponseRead.returned (read : ResponseRead) (pool : Bool) (ahead : Nat) : Option (List UInt8) :=
  if pool && isKeepAlive read.response && read.bodyLengthKnown then some (read.rest.drop ahead)
  else none

/-- `send_backend_request`, with or without a pool: the network refuses the
connection or answers the bytes written. -/
def sendPooledRequest (display : AddrDisplay)
    (network : SocketAddr → List UInt8 → Except String (List UInt8)) (addr : SocketAddr)
    (request : HttpMessage) (body : Option (List UInt8)) (pool : Bool) (ahead : Nat) :
    Except TransportError ((HttpMessage × Option (List UInt8)) × Option (List UInt8)) :=
  match network addr (requestBytes display addr request body) with
  | .error e => .error (.io e)
  | .ok answer =>
    (readResponse answer).map fun read => ((read.response, read.body), read.returned pool ahead)

/-- `send_backend_request` as the server calls it, without a pool. -/
def sendBackendRequest (display : AddrDisplay)
    (network : SocketAddr → List UInt8 → Except String (List UInt8)) (addr : SocketAddr)
    (request : HttpMessage) (body : Option (List UInt8)) :
    Except TransportError (HttpMessage × Option (List UInt8)) :=
  (sendPooledRequest display network addr request body false 0).map Prod.fst

/-! ### What is accepted -/

/-- Header names are distinct and headers fit on their lines; a body is not
empty, and there only if the status allows one. -/
structure WellFormedResponse (response : HttpMessage) (body : Option (List UInt8)) : Prop where
  distinct : response.headers.Distinct
  fits : ∀ h ∈ response.headers.headers, Wire.FitsLine h
  body : ∀ bytes, body = some bytes → bytes ≠ [] ∧ response.responseHasBody = true

variable {stream rest : List UInt8} {response : HttpMessage} {line : String}

theorem readLine_chars (h : readLine stream = .ok (line, rest)) :
    ∃ text, '\n' ∉ text ∧ (line.toList = text ∨ line.toList = text ++ ['\n']) := by
  obtain ⟨bytes, hbytes, hread⟩ := Lib.readUntil_fst 10 stream
  rw [← (readLine_ok h).1] at hread
  rcases hread with hread | hread
  · exact ⟨line.toList, fun hmem => hbytes (hread ▸ lf_mem_asBytes.mpr hmem), .inl rfl⟩
  obtain ⟨text, rfl, htext⟩ := asBytes_eq_concat (c := '\n') (by decide) hread
  refine ⟨text.toList, fun hmem => hbytes (htext ▸ lf_mem_asBytes.mpr hmem), .inr ?_⟩
  rw [String.toList_append, String.toList_ofList]

theorem lf_notMem_lineText
    (h : readLine stream = .ok (line, rest)) : '\n' ∉ (lineText line).toList := by
  obtain ⟨text, htext, hline⟩ := readLine_chars h
  let kept := (trimEndMatchesStr "\r\n" line).toList.rdropWhile (· = '\n')
  have hkept : (lineText line).toList = kept := String.toList_ofList
  have hinit : kept <+: line.toList :=
    (List.rdropWhile_prefix _ _).trans (isPrefix_trimEndMatchesStr _ _)
  rw [hkept]
  rcases hline with hline | hline
  · rw [hline] at hinit
    exact fun hmem => htext (hinit.subset hmem)
  rw [hline] at hinit
  rcases List.prefix_concat_iff.mp hinit with heq | hinit
  · -- a line feed at the end would have been dropped
    have hne : kept ≠ [] := by simp [heq]
    have hlast : kept.getLast hne = '\n' := by
      rw [List.getLast_congr hne (by simp) heq, List.getLast_concat]
    exact absurd (decide_eq_true hlast) (List.rdropWhile_last_not _ _ hne)
  · exact fun hmem => htext (hinit.subset hmem)

theorem setHeaderLine_wellFormed {text : String}
    (htext : '\n' ∉ text.toList) (hdistinct : response.headers.Distinct)
    (hfits : ∀ h ∈ response.headers.headers, Wire.FitsLine h) :
    (setHeaderLine response text).headers.Distinct ∧
      ∀ h ∈ (setHeaderLine response text).headers.headers, Wire.FitsLine h := by
  unfold setHeaderLine
  split
  · rename_i name value hsplit
    obtain ⟨hchars, hcolon⟩ := splitOnce_eq_some.mp hsplit
    rw [hchars, List.mem_append, List.mem_cons] at htext
    refine ⟨hdistinct.set _ _, ?_⟩
    intro h hmem
    rcases HeaderMap.mem_of_mem_set hmem with hmem | rfl
    · exact hfits h hmem
    · exact ⟨fun hlf => htext (.inl (mem_of_mem_trim hlf)), fun hc => hcolon (mem_of_mem_trim hc),
        fun hlf => htext (.inr (.inr (mem_of_mem_trim hlf)))⟩
  · exact ⟨hdistinct, hfits⟩

theorem readResponseHeaders_ok {read : HttpMessage}
    (h : readResponseHeaders response stream = .ok (read, rest))
    (hdistinct : response.headers.Distinct)
    (hfits : ∀ h ∈ response.headers.headers, Wire.FitsLine h) :
    read.headers.Distinct ∧ ∀ h ∈ read.headers.headers, Wire.FitsLine h := by
  fun_induction readResponseHeaders response stream with
  | case1 => cases h
  | case2 =>
    cases h
    exact ⟨hdistinct, hfits⟩
  | case3 =>
    cases h
    exact ⟨hdistinct, hfits⟩
  | case4 response stream line rest' hline hend hblank ih =>
    obtain ⟨hdistinct, hfits⟩ := setHeaderLine_wellFormed (lf_notMem_lineText hline) hdistinct hfits
    exact ih h hdistinct hfits

theorem readResponseBody_ok {stream bytes : List UInt8}
    {left : Bool × List UInt8} (h : readResponseBody response stream = .ok (some bytes, left)) :
    bytes ≠ [] ∧ response.responseHasBody = true := by
  unfold readResponseBody at h
  split at h
  · rename_i hbody
    refine ⟨?_, hbody⟩
    split at h
    · dsimp only at h
      split_ifs at h with hpos halloc
      · obtain ⟨r, hread, heq⟩ := Lib.exists_of_map_ok h
        obtain ⟨hle, htake, _⟩ := readExact_ok hread
        cases heq
        rw [htake, ← List.length_pos_iff, List.length_take]
        omega
      · cases h
    split at h
    · obtain ⟨r, _, heq⟩ := Lib.exists_of_map_ok h
      split at heq
      · cases heq
      rename_i hne
      cases heq
      exact hne
    · split at h
      · cases h
      rename_i hne
      cases h
      exact hne
  · cases h

theorem readResponse_ok {stream : List UInt8} {read : ResponseRead}
    (h : readResponse stream = .ok read) : WellFormedResponse read.response read.body := by
  unfold readResponse at h
  split at h
  · cases h
  split at h
  · cases h
  split at h
  · split at h
    · cases h
    dsimp only at h
    split at h
    · cases h
    rename_i response rest hheaders
    obtain ⟨⟨body, left⟩, hbody, heq⟩ := Lib.exists_of_map_ok h
    cases heq
    obtain ⟨hdistinct, hfits⟩ := readResponseHeaders_ok hheaders HeaderMap.distinct_new
      (by simp [HttpMessage.newResponse, HeaderMap.new])
    refine ⟨hdistinct, hfits, ?_⟩
    rintro bytes rfl
    exact readResponseBody_ok hbody
  · cases h

theorem sendBackendRequest_ok {display : AddrDisplay}
    {network : SocketAddr → List UInt8 → Except String (List UInt8)} {addr : SocketAddr}
    {request : HttpMessage} {body respBody : Option (List UInt8)}
    (h : sendBackendRequest display network addr request body = .ok (response, respBody)) :
    WellFormedResponse response respBody := by
  unfold sendBackendRequest sendPooledRequest at h
  split at h
  · cases h
  obtain ⟨sent, hsent, heq⟩ := Lib.exists_of_map_ok h
  obtain ⟨read, hread, rfl⟩ := Lib.exists_of_map_ok hsent
  cases heq
  exact readResponse_ok hread

end VarahaCache
