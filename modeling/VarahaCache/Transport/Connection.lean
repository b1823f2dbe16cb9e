import VarahaCache.Transport.Requests

/-!
# One client connection

The HTTP/1.1 loop of `handle_connection`: read a request, answer an Expect
with an interim response, read the body, call the handler, write its response,
and go on while the connection is kept alive. The handler is given the number
of the request.
-/

namespace VarahaCache

open Text Wire Option

/-- The client waits for the word to send its body. -/
def expectsContinue (request : HttpMessage) : Bool :=
  (request.getHeader "Expect").any (eqIgnoreAsciiCase · "100-continue")

/-- The request as the handler gets it: an Expect that was answered is gone. -/
def afterExpect (request : HttpMessage) : HttpMessage :=
  if expectsContinue request then request.unsetHeader "Expect" else request

variable {msg response : HttpMessage} {answer : HttpMessage × Option (List UInt8)}

theorem getHeader_afterExpect {name : String} (hne : eqIgnoreAsciiCase "Expect" name = false) :
    (afterExpect msg).getHeader name = msg.getHeader name := by
  unfold afterExpect
  split
  · exact msg.headers.get_unset_of_ne hne
  · rfl

theorem WellFormedRequest.afterExpect (h : WellFormedRequest msg) :
    WellFormedRequest (afterExpect msg) := by
  unfold VarahaCache.afterExpect
  split
  · have hmem : ∀ hd ∈ (msg.headers.unset "Expect").headers, hd ∈ msg.headers.headers :=
      fun hd hhd => (HeaderMap.mem_without.mp hhd).1
    refine ⟨h.url_ne, h.url_word, h.distinct.unset _, fun hd hhd => h.token hd (hmem hd hhd),
      fun hd hhd => h.value hd (hmem hd hhd), ?_⟩
    have hlength := msg.headers.get_unset_of_ne
      (show eqIgnoreAsciiCase "Expect" "Content-Length" = false by decide)
    have hcoding := msg.headers.get_unset_of_ne
      (show eqIgnoreAsciiCase "Expect" "Transfer-Encoding" = false by decide)
    show msg.bodyStatus = requestBodyStatus (msg.headers.unset "Expect")
    rw [requestBodyStatus, hlength, hcoding]
    exact h.body
  · exact h

def interimBytes : List UInt8 := asBytes "HTTP/1.1 100 Continue\r\n\r\n"

/-- The bytes of a response; a Content-Length is added for a body if no header
has one. -/
def responseBytes (keepalive : Bool) (response : HttpMessage) (body : Option (List UInt8)) :
    List UInt8 :=
  asBytes (response.protocol.asStr ++ " " ++ toString response.status.code.toNat ++ " " ++
      response.reason ++ "\r\n") ++
    response.headers.headers.flatMap (fun h => asBytes (h.name ++ ": " ++ h.value ++ "\r\n")) ++
    (match body with
      | some body =>
        if response.getHeader "Content-Length" = none then
          asBytes ("Content-Length: " ++ toString body.length ++ "\r\n")
        else []
      | none => []) ++
    (if keepalive then [] else asBytes "Connection: close\r\n") ++
    asBytes "\r\n" ++ body.getD []

/-- The request, whether an interim response went out for it, and its answer,
if its body could be read. -/
structure Round where
  request : HttpMessage
  expects : Bool
  keepalive : Bool
  answer : Option (HttpMessage × Option (List UInt8))
deriving DecidableEq

def roundOf (read : HttpMessage) (answer : Option (HttpMessage × Option (List UInt8))) : Round :=
  ⟨afterExpect read, expectsContinue read, shouldKeepalive read, answer⟩

def Round.bytes (r : Round) : List UInt8 :=
  (if r.expects then interimBytes else []) ++
    match r.answer with
    | some (response, body) => responseBytes r.keepalive response body
    | none => []

/-- A handler, given the number of the request on its connection. -/
abbrev Handler := Nat → HttpMessage → Option (List UInt8) → HttpMessage × Option (List UInt8)

/-- The loop, from the `k`-th request on: its rounds and how it ended. -/
def handleConnection (httparse : List UInt8 → ParseStatus) (maxBodySize : Nat) (handler : Handler)
    (k : Nat) (stream : List UInt8) : List Round × Except TransportError Unit :=
  match _hread : readRequest httparse stream with
  | .error .connectionClosed => ([], .ok ())
  | .error e => ([], .error e)
  | .ok (read, rest) =>
    match _hbody : readBody (afterExpect read) maxBodySize rest with
    | .error e => ([roundOf read none], .error e)
    | .ok (body, rest) =>
      if shouldKeepalive read then
        (handleConnection httparse maxBodySize handler (k + 1) rest).map
          (roundOf read (some (handler k (afterExpect read) body)) :: ·) id
      else ([roundOf read (some (handler k (afterExpect read) body))], .ok ())
termination_by stream.length
decreasing_by
  have hread := (readRequest_ok _hread).2
  have hbody := readBody_length _hbody
  omega

/-- The bytes written back on a connection. -/
def written (rounds : List Round) : List UInt8 := rounds.flatMap Round.bytes

/-- The answers on a connection are the handler's, each to the request
with its number. -/
theorem handleConnection_answer {httparse : List UInt8 → ParseStatus} {maxBodySize : Nat}
    {handler : Handler} {k : Nat} {stream : List UInt8} {round : Round}
    (hanswer : round.answer = some answer) {i : Nat} :
    (handleConnection httparse maxBodySize handler k stream).1[i]? = some round →
      ∃ body, answer = handler (k + i) round.request body := by
  revert i
  fun_induction handleConnection httparse maxBodySize handler k stream with
  | case1 => simp
  | case2 => simp
  | case3 k stream read rest hread e hbody =>
    intro i h
    rw [List.getElem?_singleton] at h
    split at h
    · cases h
      cases hanswer
    · cases h
  | case4 k stream read rest hread body rest' hbody hkeep ih =>
    intro i h
    cases i with
    | zero =>
      cases h
      exact ⟨body, (some.inj hanswer).symm⟩
    | succ i =>
      obtain ⟨body', hbody'⟩ := ih h
      exact ⟨body', by rw [hbody', Nat.add_assoc, Nat.add_comm 1 i]⟩
  | case5 k stream read rest hread body rest' hbody hkeep =>
    intro i h
    rw [List.getElem?_singleton] at h
    split at h
    · rename_i hi
      cases h
      exact ⟨body, by rw [hi]; exact (some.inj hanswer).symm⟩
    · cases h

/-! ## What the client reads

A client that knows what it asked reads a response for every request it
sent whole, after an interim one if it asked for that. -/

/-- What a client knows of a request it sent: the method, whether it waits
for an interim response, and whether it sent all of it. -/
structure Asked where
  method : HttpMethod
  expects : Bool
  complete : Bool
deriving DecidableEq

def Round.asked (r : Round) : Asked := ⟨r.request.method, r.expects, r.answer.isSome⟩

/-- The interim response, and what follows it. -/
def readInterim (bytes : List UInt8) : Option (List UInt8) :=
  match readHead bytes with
  | some (head, rest) => if statusCode head.start = some 100 then some rest else none
  | none => none

/-- The responses to the requests, and the bytes left over. -/
def readResponses : List Asked → List UInt8 → Option (List (Nat × List UInt8) × List UInt8)
  | [], bytes => some ([], bytes)
  | a :: more, bytes =>
    (if a.expects then readInterim bytes else some bytes).bind fun bytes =>
      if a.complete then
        (Wire.readResponse a.method bytes).bind fun r =>
          (readResponses more r.2).map fun rs => (r.1 :: rs.1, rs.2)
      else readResponses more bytes

def answered (answer : HttpMessage × Option (List UInt8)) : Nat × List UInt8 :=
  (answer.1.status.code.toNat, answer.2.getD [])

/-- The client reads exactly one response for every request, in order, each
with its status and body, and nothing is left over. -/
def OneResponseEach (rounds : List Round) : Prop :=
  readResponses (rounds.map Round.asked) (written rounds) =
    some (rounds.filterMap fun r => r.answer.map answered, [])

/-! ### One response -/

structure FitsLines (response : HttpMessage) : Prop where
  fields : ∀ h ∈ response.headers.headers, FitsLine h
  reason : '\n' ∉ response.reason.toList

/-- The length the client is told: by the header, else by the one that is
added for a body. -/
def announcedLength (response : HttpMessage) (body : Option (List UInt8)) : Option Nat :=
  match response.getHeader "Content-Length" with
  | some cl => digits (trim cl)
  | none => body.map List.length

/-- The end of the response is where the client looks for it. -/
def Framed (method : HttpMethod) (answer : HttpMessage × Option (List UInt8)) : Prop :=
  if method = .head ∨ answer.1.status = .noContent ∨ answer.1.status = .notModified then
    answer.2.getD [] = []
  else announcedLength answer.1 answer.2 = some (answer.2.getD []).length

/-- All header fields of a response, with those the connection adds. -/
def responseFields (keepalive : Bool) (response : HttpMessage) (body : Option (List UInt8)) :
    List Header :=
  response.headers.headers ++
    (match body with
      | some body =>
        if response.getHeader "Content-Length" = none then
          [⟨"Content-Length", toString body.length⟩]
        else []
      | none => []) ++
    if keepalive then [] else [⟨"Connection", "close"⟩]

theorem responseBytes_eq (keepalive : Bool) (response : HttpMessage) (body : Option (List UInt8)) :
    responseBytes keepalive response body =
      asBytes (response.protocol.asStr ++ " " ++ toString response.status.code.toNat ++ " " ++
          response.reason ++ "\r\n") ++
        (responseFields keepalive response body).flatMap
          (fun h => asBytes (fieldLine h ++ "\r\n")) ++ asBytes "\r\n" ++ body.getD [] := by
  unfold responseBytes responseFields
  cases body with
  | none => cases keepalive <;> simp [fieldLine]
  | some body =>
    by_cases hcl : response.getHeader "Content-Length" = none <;> cases keepalive <;>
      simp [fieldLine, hcl]

theorem get_responseFields (keepalive : Bool) (response : HttpMessage)
    (body : Option (List UInt8)) :
    ((⟨(responseFields keepalive response body).map asRead⟩ : HeaderMap).get
        "Content-Length").bind digits = announcedLength response body := by
  have hclose : (⟨if keepalive then [] else [⟨"Connection", "close"⟩]⟩ : HeaderMap).get
      "Content-Length" = none := by
    cases keepalive <;> decide
  have hadded : ∀ value, (⟨[⟨"Content-Length", value⟩]⟩ : HeaderMap).get "Content-Length" =
      some value := by
    intro value
    simp [HeaderMap.get, Header.nameEqIgnoreCase, eqIgnoreAsciiCase]
  unfold responseFields announcedLength
  rw [get_asRead, HeaderMap.get_append, HeaderMap.get_append, hclose, or_none]
  cases hcl : response.getHeader "Content-Length" with
  | some cl =>
    rw [show (⟨response.headers.headers⟩ : HeaderMap).get "Content-Length" = some cl from hcl]
    simp
  | none =>
    rw [show (⟨response.headers.headers⟩ : HeaderMap).get "Content-Length" = none from hcl, none_or]
    cases body with
    | none => rfl
    | some body =>
      simp only [if_true, hadded, map_some, bind_some, trim_toString, digits_toString]

theorem fitsLine_responseFields (hfits : FitsLines response) (keepalive : Bool)
    (body : Option (List UInt8)) : ∀ h ∈ responseFields keepalive response body, FitsLine h := by
  have hlength : ∀ n : Nat, FitsLine ⟨"Content-Length", toString n⟩ :=
    fitsLine_number (by decide) (by decide)
  have hclose : FitsLine ⟨"Connection", "close"⟩ := ⟨by decide, by decide, by decide⟩
  intro h hmem
  unfold responseFields at hmem
  rcases List.mem_append.mp hmem with hmem | hmem
  · rcases List.mem_append.mp hmem with hmem | hmem
    · exact hfits.fields h hmem
    split at hmem
    · split at hmem
      · rw [List.mem_singleton.mp hmem]
        exact hlength _
      · cases hmem
    · cases hmem
  · split at hmem
    · cases hmem
    · rw [List.mem_singleton.mp hmem]
      exact hclose

theorem toNat_code_eq_iff (status : HttpStatus) (code : UInt16) :
    status.code.toNat = code.toNat ↔ status = ⟨code⟩ := by
  obtain ⟨c⟩ := status
  rw [HttpStatus.mk.injEq, UInt16.toNat_inj]

theorem readResponse_responseBytes (hfits : FitsLines response)
    (method : HttpMethod) (keepalive : Bool) (body : Option (List UInt8)) (rest : List UInt8) :
    Wire.readResponse method (responseBytes keepalive response body ++ rest) =
      if method = .head ∨ response.status = .noContent ∨ response.status = .notModified then
        some ((response.status.code.toNat, []), body.getD [] ++ rest)
      else (announcedLength response body).bind fun length =>
        (takeBody length (body.getD [] ++ rest)).map fun r =>
          ((response.status.code.toNat, r.1), r.2) := by
  have hversion : ' ' ∉ response.protocol.asStr.toList ∧ '\n' ∉ response.protocol.asStr.toList := by
    cases response.protocol <;> decide
  have hcode : '\n' ∉ (toString response.status.code.toNat).toList := notMem_toString (by decide) _
  let start := response.protocol.asStr ++ " " ++ toString response.status.code.toNat ++ " " ++
    response.reason
  have hstart : start ≠ "" := by
    intro h
    have hlist := congrArg String.toList h
    simp [start] at hlist
  have hlf : '\n' ∉ start.toList := by
    simp only [start, String.toList_append, List.mem_append, not_or]
    exact ⟨⟨⟨⟨hversion.2, by decide⟩, hcode⟩, by decide⟩, hfits.reason⟩
  have hhead := readHead_write hstart hlf (fitsLine_responseFields hfits keepalive body)
    (body.getD [] ++ rest)
  have hstatus : statusCode start = some response.status.code.toNat :=
    statusCode_write _ _ _ hversion.1
  have hnoContent : response.status.code.toNat = 204 ↔ response.status = .noContent :=
    toNat_code_eq_iff response.status 204
  have hnotModified : response.status.code.toNat = 304 ↔ response.status = .notModified :=
    toNat_code_eq_iff response.status 304
  rw [Wire.readResponse, responseBytes_eq, List.append_assoc _ (body.getD []) rest]
  simp only [start] at hhead hstatus
  rw [hhead]
  simp only [bind_eq_bind, bind_some, hstatus, hnoContent, hnotModified, get_responseFields]
  split
  · rfl
  cases announcedLength response body with
  | none => rfl
  | some length =>
    simp only [bind_some]
    cases takeBody length (body.getD [] ++ rest) <;> rfl

/-- A response is read as what it was made of EXACTLY when it ends where the
client looks. -/
theorem readResponse_eq_some_iff
    (hfits : FitsLines answer.1) (method : HttpMethod) (keepalive : Bool) (rest left : List UInt8) :
    Wire.readResponse method (responseBytes keepalive answer.1 answer.2 ++ rest) =
        some (answered answer, left) ↔ Framed method answer ∧ left = rest := by
  rw [readResponse_responseBytes hfits, Framed, answered]
  generalize answer.2.getD [] = body
  split
  · simp only [some.injEq, Prod.mk.injEq, true_and]
    constructor <;> rintro ⟨rfl, rfl⟩ <;> exact ⟨rfl, rfl⟩
  cases announcedLength answer.1 answer.2 with
  | none => simp
  | some length =>
    simp only [bind_some, some.injEq]
    constructor
    · intro h
      obtain ⟨⟨taken, left'⟩, htake, heq⟩ := map_eq_some_iff.mp h
      simp only [Prod.mk.injEq, true_and] at heq
      unfold takeBody at htake
      split at htake
      · rename_i hle
        simp only [some.injEq, Prod.mk.injEq, heq.1, heq.2] at htake
        have hlength : length = body.length := by
          have hlen := congrArg List.length htake.1
          rw [List.length_take] at hlen
          omega
        exact ⟨hlength, by rw [← htake.2, hlength, List.drop_left]⟩
      · cases htake
    · rintro ⟨rfl, rfl⟩
      simp [takeBody]

theorem readInterim_append (rest : List UInt8) : readInterim (interimBytes ++ rest) = some rest := by
  have hcode : statusCode "HTTP/1.1 100 Continue" = some 100 := by decide +kernel
  have hline : "HTTP/1.1 100 Continue" ≠ "" ∧ '\n' ∉ "HTTP/1.1 100 Continue".toList := by decide
  have hnone : ∀ h ∈ ([] : List Header), FitsLine h := by simp
  have hhead := readHead_write hline.1 hline.2 hnone rest
  have hbytes : interimBytes ++ rest = asBytes ("HTTP/1.1 100 Continue" ++ "\r\n") ++
      ([] : List Header).flatMap (fun h => asBytes (fieldLine h ++ "\r\n")) ++
      asBytes "\r\n" ++ rest := by
    rw [List.flatMap_nil, List.append_nil, ← asBytes_append]
    rfl
  rw [readInterim, hbytes, hhead]
  simp [hcode]

/-- A whole connection is read back EXACTLY when every response on it ends
where the client looks. The induction is on the rounds: a response that reads
as it should leaves the bytes of the later ones. -/
theorem oneResponseEach_iff_framed {rounds : List Round}
    (hfits : ∀ r ∈ rounds, ∀ answer, r.answer = some answer → FitsLines answer.1) :
    OneResponseEach rounds ↔
      ∀ r ∈ rounds, ∀ answer, r.answer = some answer → Framed r.request.method answer := by
  unfold OneResponseEach written
  induction rounds with
  | nil => simp [readResponses]
  | cons r rounds ih =>
    obtain ⟨hfirst, hrest⟩ := List.forall_mem_cons.mp hfits
    have hinterim : ∀ bytes : List UInt8,
        (if r.asked.expects then readInterim ((if r.expects then interimBytes else []) ++ bytes)
          else some ((if r.expects then interimBytes else []) ++ bytes)) = some bytes := by
      intro bytes
      cases hexp : r.expects with
      | true => simp [Round.asked, hexp, readInterim_append]
      | false => simp [Round.asked, hexp]
    rw [List.forall_mem_cons, ← ih hrest]
    simp only [List.map_cons, List.flatMap_cons, readResponses, Round.bytes, List.append_assoc,
      hinterim, bind_some]
    cases hanswer : r.answer with
    | none => simp [Round.asked, hanswer]
    | some answer =>
      have hread := readResponse_eq_some_iff (hfirst answer hanswer) r.request.method r.keepalive
        (rounds.flatMap Round.bytes)
      simp only [Round.asked, hanswer, isSome_some, if_true, map_some,
        List.filterMap_cons_some, some.injEq, forall_eq']
      constructor
      · intro h
        obtain ⟨⟨response, left⟩, hresponse, h⟩ := bind_eq_some_iff.mp h
        obtain ⟨⟨responses, left'⟩, hresponses, h⟩ := map_eq_some_iff.mp h
        simp only [Prod.mk.injEq, List.cons.injEq] at h
        obtain ⟨⟨rfl, rfl⟩, rfl⟩ := h
        obtain ⟨hframed, rfl⟩ := (hread left).mp hresponse
        exact ⟨hframed, hresponses⟩
      · rintro ⟨hframed, hlater⟩
        rw [(hread _).mpr ⟨hframed, rfl⟩]
        simp [hlater]

end VarahaCache
