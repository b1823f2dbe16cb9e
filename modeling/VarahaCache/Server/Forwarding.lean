import VarahaCache.Server.Keys
import VarahaCache.Transport.Backend
import VarahaCache.Transport.Connection

/-!
# What the backend is sent

Without VCL a missed request is forwarded with its own headers, all but
Connection and Accept-Encoding, and without its body. Whether the bytes
make one request for what the client asked is decided by the framing and
connection headers the client sent: `oneRequest_iff`.
-/

namespace VarahaCache

open Text List HeaderMap Wire

variable {σ : Type} {request : HttpMessage}

/-! ## The forwarded headers -/

/-- The headers of the client's request that are sent on. -/
def forwarded (request : HttpMessage) : List Header :=
  request.headers.headers.filter fun h => toLowercase h.name ∉ ["connection", "accept-encoding"]

theorem buildBereq_eq (h : request.headers.Distinct) :
    buildBereq request =
      { clientBereq request with headers := ⟨forwarded request⟩ } := by
  obtain ⟨headers, hcopy, _⟩ := HttpMessage.copyHeadersExcept_induction (P := fun _ => True)
    ["connection", "accept-encoding"] (clientBereq request) request.headers.headers trivial
    (fun _ _ _ _ => trivial)
  have hheaders := HttpMessage.copyHeadersExcept_headers ["connection", "accept-encoding"]
    (clientBereq request) h
  rw [hcopy] at hheaders
  rw [buildBereq, hcopy]
  simp only [clientBereq, HttpMessage.newRequest, new, filter_nil, nil_append] at hheaders ⊢
  rw [forwarded, ← hheaders]

theorem toLowercase_of_isToken {name : String} (h : isToken name = true) :
    toLowercase name = toAsciiLowercase name := by
  have hchar : ∀ c ∈ name.toList, lowerChar c = [c.toLower] := by
    intro c hc
    have hne : ∀ u : Char, tokenChar u = false → c.val ≠ u.val := fun u hu hval =>
      not_mem_of_isToken h hu (Char.ext hval ▸ hc)
    have hkelvin : c.val ≠ 0x212A := hne (Char.ofNat 0x212A) (by decide +kernel)
    have hdotted : c.val ≠ 0x130 := hne (Char.ofNat 0x130) (by decide +kernel)
    simp [lowerChar, hkelvin, hdotted]
  rw [toLowercase, toAsciiLowercase, flatMap_congr hchar, map_eq_flatMap]

/-- The header the client writes when the request has no Host. -/
def hostHeader (display : AddrDisplay) (addr : SocketAddr) (request : HttpMessage) : List Header :=
  if request.getHeader "Host" = none then [⟨"Host", display.text addr⟩] else []

theorem requestBytes_eq (display : AddrDisplay) (addr : SocketAddr) (request : HttpMessage) :
    requestBytes display addr request none =
      asBytes (request.method.name ++ " " ++ request.url ++ " " ++ request.protocol.asStr ++ "\r\n") ++
        (request.headers.headers ++ hostHeader display addr request).flatMap
          (fun h => asBytes (fieldLine h ++ "\r\n")) ++ asBytes "\r\n" ++ [] := by
  rw [requestBytes, hostHeader, flatMap_append]
  split <;> simp [fieldLine]

def sentFields (display : AddrDisplay) (addr : SocketAddr) (request : HttpMessage) : List Header :=
  forwarded request ++ hostHeader display addr (buildBereq request)

section Sent

variable {display : AddrDisplay} {addr : SocketAddr} {request : HttpMessage}
  (hwf : WellFormedRequest request) {name : String} {f : Header}
include hwf

theorem mem_forwarded {h : Header} :
    h ∈ forwarded request ↔ h ∈ request.headers.headers ∧
      toAsciiLowercase h.name ≠ "connection" ∧ toAsciiLowercase h.name ≠ "accept-encoding" := by
  simp only [forwarded, mem_filter, mem_cons, not_mem_nil, or_false, not_or, decide_eq_true_eq]
  refine and_congr_right fun hmem => ?_
  rw [toLowercase_of_isToken (hwf.token h hmem)]

theorem get_forwarded (hconn : toAsciiLowercase name ≠ "connection")
    (hcoding : toAsciiLowercase name ≠ "accept-encoding") :
    (⟨forwarded request⟩ : HeaderMap).get name = request.getHeader name := by
  refine get_filter fun hd hmem hname => ?_
  rw [toLowercase_of_isToken (hwf.token hd hmem), eqIgnoreAsciiCase_iff.mp hname]
  simp [hconn, hcoding]

theorem mem_sentFields :
    f ∈ sentFields display addr request ↔ f ∈ forwarded request ∨
      (request.getHeader "Host" = none ∧ f = ⟨"Host", display.text addr⟩) := by
  have hhost : (buildBereq request).getHeader "Host" = request.getHeader "Host" := by
    rw [buildBereq_eq hwf.distinct]
    exact get_forwarded hwf (by decide) (by decide)
  rw [sentFields, hostHeader, hhost, mem_append]
  split <;> simp_all

theorem fitsLine_of_sent (h : f ∈ sentFields display addr request) :
    Wire.FitsLine f ∧ isToken f.name = true := by
  rcases (mem_sentFields hwf).mp h with h | ⟨_, rfl⟩
  · have hmem := ((mem_forwarded hwf).mp h).1
    have htoken := hwf.token f hmem
    exact ⟨⟨not_mem_of_isToken htoken (by decide), not_mem_of_isToken htoken (by decide),
      hwf.value f hmem⟩, htoken⟩
  · have hname : '\n' ∉ "Host".toList ∧ ':' ∉ "Host".toList ∧ isToken "Host" = true := by decide
    exact ⟨⟨hname.1, hname.2.1, display.line addr⟩, hname.2.2⟩

theorem readHead_requestBytes :
    readHead (requestBytes display addr (buildBereq request) none) =
      some (⟨request.method.name ++ " " ++ request.url ++ " " ++ "HTTP/1.1",
        ⟨(sentFields display addr request).map asRead⟩⟩, []) := by
  have hmethod : request.method.name ≠ "" ∧ '\n' ∉ request.method.name.toList := by
    cases request.method <;> decide
  have hstart : request.method.name ++ " " ++ request.url ++ " " ++ "HTTP/1.1" ≠ "" := by
    intro h
    have hlist := congrArg String.toList h
    simp at hlist
  have hlf : '\n' ∉ (request.method.name ++ " " ++ request.url ++ " " ++ "HTTP/1.1").toList := by
    simp [hmethod.2, hwf.url_word.2]
  have hfits : ∀ f ∈ sentFields display addr request, Wire.FitsLine f :=
    fun f hf => (fitsLine_of_sent hwf hf).1
  have hread := readHead_write hstart hlf hfits []
  rw [← hread, requestBytes_eq, buildBereq_eq hwf.distinct, sentFields, buildBereq_eq hwf.distinct]
  rfl

theorem get_sentFields (hhost : eqIgnoreAsciiCase "Host" name = false)
    (hconn : toAsciiLowercase name ≠ "connection")
    (hcoding : toAsciiLowercase name ≠ "accept-encoding") :
    (⟨sentFields display addr request⟩ : HeaderMap).get name = request.getHeader name := by
  have hadded : (⟨hostHeader display addr (buildBereq request)⟩ : HeaderMap).get name = none := by
    rw [get_eq_none, hostHeader]
    split <;> simp [Header.nameEqIgnoreCase, hhost]
  rw [sentFields, get_append, get_forwarded hwf hconn hcoding, hadded, Option.or_none]

end Sent

/-! ## One request -/

/-- The bytes are exactly one HTTP/1.1 request, with the client's body and
none of the headers of its connection. -/
def OneRequest (msg : HttpMessage) (body : Option (List UInt8)) (bytes : List UInt8) : Prop :=
  ∃ head rest, Wire.readHead bytes = some (head, rest) ∧
    (Wire.requestLine head.start).isSome ∧
    (∀ f ∈ head.fields.headers, Wire.isToken f.name = true) ∧
    Wire.readBody head rest = some (body.getD [], []) ∧
    ∀ h ∈ msg.headers.headers, h ∉ msg.headers.filterConnectionHeaders.headers →
      ∀ f ∈ head.fields.headers, f.nameEqIgnoreCase h.name = false

/-- The framing headers announce no body, and of those of the connection only
Connection and Accept-Encoding are there. -/
structure Forwardable (msg request : HttpMessage) : Prop where
  length : ∀ cl, request.getHeader "Content-Length" = some cl → Wire.digits (trim cl) = some 0
  connection : ∀ h ∈ request.headers.headers, msg.headers.isConnectionHeader h.name = true →
    toAsciiLowercase h.name = "connection" ∨ toAsciiLowercase h.name = "accept-encoding"

theorem notMem_filterConnectionHeaders {m : HeaderMap} {h : Header} (hmem : h ∈ m.headers) :
    h ∉ m.filterConnectionHeaders.headers ↔ m.isConnectionHeader h.name = true := by
  simp [filterConnectionHeaders, hmem]

theorem isConnectionHeader_congr (m : HeaderMap) {a b : String}
    (h : eqIgnoreAsciiCase a b = true) : m.isConnectionHeader a = m.isConnectionHeader b := by
  simp only [isConnectionHeader, eqIgnoreAsciiCase_iff.mp h]

section Client

variable {display : AddrDisplay} {addr : SocketAddr} {msg : HttpMessage}
  (hwf : WellFormedRequest msg)
include hwf

omit hwf in
theorem mem_of_mem_afterExpect {h : Header} (hmem : h ∈ (afterExpect msg).headers.headers) :
    h ∈ msg.headers.headers := by
  unfold afterExpect at hmem
  split at hmem
  · exact (mem_without.mp hmem).1
  · exact hmem

/-- The connection headers that get through are those the forwarding does
not drop itself. -/
theorem connection_sent_iff :
    (∀ h ∈ msg.headers.headers, h ∉ msg.headers.filterConnectionHeaders.headers →
      ∀ f ∈ (sentFields display addr (afterExpect msg)).map asRead,
        f.nameEqIgnoreCase h.name = false) ↔
      ∀ h ∈ (afterExpect msg).headers.headers, msg.headers.isConnectionHeader h.name = true →
        toAsciiLowercase h.name = "connection" ∨ toAsciiLowercase h.name = "accept-encoding" := by
  have hwf' := hwf.afterExpect
  constructor
  · intro hnone h hmem hconn
    by_contra hnot
    rw [not_or] at hnot
    have hsent : h ∈ sentFields display addr (afterExpect msg) :=
      (mem_sentFields hwf').mpr (.inl ((mem_forwarded hwf').mpr ⟨hmem, hnot⟩))
    have hmsg := mem_of_mem_afterExpect hmem
    have hname := hnone h hmsg ((notMem_filterConnectionHeaders hmsg).mpr hconn) _
      (mem_map_of_mem hsent)
    simp [asRead, Header.nameEqIgnoreCase, eqIgnoreAsciiCase] at hname
  intro hcond h hmem hfilter f hf
  rw [notMem_filterConnectionHeaders hmem] at hfilter
  obtain ⟨k, hk, rfl⟩ := mem_map.mp hf
  by_contra hname
  have hname : eqIgnoreAsciiCase k.name h.name = true := Bool.eq_true_of_not_eq_false hname
  rcases (mem_sentFields hwf').mp hk with hk | ⟨hhost, rfl⟩
  · obtain ⟨hk, hconn, hcoding⟩ := (mem_forwarded hwf').mp hk
    rw [← isConnectionHeader_congr _ hname] at hfilter
    exact (hcond k hk hfilter).elim hconn hcoding
  -- the Host header is added only if the client sent none
  rw [getHeader_afterExpect (by decide)] at hhost
  have hnone := get_eq_none.mp hhost h hmem
  rw [Header.nameEqIgnoreCase, eqIgnoreAsciiCase] at hnone
  rw [eqIgnoreAsciiCase, beq_iff_eq] at hname
  simp [hname] at hnone

theorem readBody_sent_iff (hcoding : msg.getHeader "Transfer-Encoding" = none) (start : String)
    (bytes : List UInt8) :
    Wire.readBody ⟨start, ⟨(sentFields display addr (afterExpect msg)).map asRead⟩⟩ [] =
        some (bytes, []) ↔
      bytes = [] ∧ ∀ cl, (afterExpect msg).getHeader "Content-Length" = some cl →
        digits (trim cl) = some 0 := by
  have hwf' := hwf.afterExpect
  have hte : (⟨sentFields display addr (afterExpect msg)⟩ : HeaderMap).get "Transfer-Encoding" = _ :=
    get_sentFields hwf' (by decide) (by decide) (by decide)
  have hcl : (⟨sentFields display addr (afterExpect msg)⟩ : HeaderMap).get "Content-Length" = _ :=
    get_sentFields hwf' (by decide) (by decide) (by decide)
  rw [getHeader_afterExpect (by decide), hcoding] at hte
  rw [Wire.readBody]
  simp only [get_asRead, hte, hcl, Option.map_none]
  cases (afterExpect msg).getHeader "Content-Length" with
  | none => simp [eq_comm]
  | some cl =>
    simp only [Option.map_some, Option.some.injEq, forall_eq']
    cases digits (trim cl) with
    | none => simp
    | some n =>
      cases n with
      | zero => simp [takeBody, eq_comm]
      | succ n => simp [takeBody]

end Client

theorem announcesBody_of_digits {cl : String} (h : Wire.digits (trim cl) = some 0) :
    announcesBody cl = false := by
  cases hparse : parseUsize cl with
  | none => simp [announcesBody, hparse]
  | some n =>
    obtain ⟨digits, hcl, _, hall, hvalue⟩ := parseUsize_chars hparse
    have hdigit : ∀ c ∈ digits, c.isDigit = true := all_eq_true.mp hall
    have hblank : ∀ c ∈ cl.toList, isWhitespace c = false := by
      intro c hc
      rcases hcl with hcl | hcl
      · rcases mem_cons.mp (hcl ▸ hc) with rfl | hc
        · decide
        · exact isWhitespace_of_isDigit (hdigit c hc)
      · exact isWhitespace_of_isDigit (hdigit c (hcl ▸ hc))
    rw [trim_eq_self hblank, Wire.digits] at h
    split at h
    · rename_i hcond
      rcases hcl with hcl | hcl
      · exact absurd (all_eq_true.mp hcond.2 '+' (by simp [hcl])) (by decide)
      · rw [hcl, hvalue, Option.some.injEq] at h
        simp [announcesBody, hparse, h]
    · cases h

theorem body_of_no_framing (hwf : WellFormedRequest request)
    (hcoding : request.getHeader "Transfer-Encoding" = none)
    (hlength : ∀ cl, request.getHeader "Content-Length" = some cl → announcesBody cl = false)
    {maxSize : Nat} {stream rest : List UInt8} {body : Option (List UInt8)}
    (h : readBody request maxSize stream = .ok (body, rest)) : body = none := by
  have hstatus : request.bodyStatus = .none := by
    rw [hwf.body, requestBodyStatus]
    cases hcl : request.headers.get "Content-Length" with
    | none => simp [show request.headers.get "Transfer-Encoding" = none from hcoding]
    | some cl => simp [hlength cl hcl]
  simp only [readBody, hstatus, Except.ok.injEq, Prod.mk.injEq] at h
  exact h.1.symm

/-- **When the backend is sent exactly one request.** For every client request
that was read, with its body, the bytes written for it are one HTTP/1.1
request with the client's body and without the headers of its connection
EXACTLY when its Content-Length, if any, is zero and no header of its
connection but Connection and Accept-Encoding came with it. -/
theorem oneRequest_iff (httparse : List UInt8 → ParseStatus) (display : AddrDisplay)
    (env : Env σ) (cache : CacheEngine σ) (tick n maxBodySize : ℕ)
    (stream rest rest' : List UInt8) (msg bereq : HttpMessage) (body : Option (List UInt8))
    (addr : SocketAddr) (hvcl : env.vcl = none)
    (hread : readRequest httparse stream = .ok (msg, rest))
    (hbody : readBody (afterExpect msg) maxBodySize rest = .ok (body, rest'))
    (hsent : .backendRequest addr bereq ∈
      events env (run env (Session.start cache tick (afterExpect msg) body) n)) :
    OneRequest msg body (requestBytes display addr bereq none) ↔
      Forwardable msg (afterExpect msg) := by
  have hwf := (readRequest_ok hread).1
  have hwf' := hwf.afterExpect
  obtain ⟨_, _, _, rfl⟩ := (backendRequest_noVcl hvcl cache tick _ body).mp hsent
  have hhead : Wire.readHead (requestBytes display addr (buildBereq (afterExpect msg)) none) = _ :=
    readHead_requestBytes hwf'
  have hmethod : Wire.isToken (afterExpect msg).method.name = true := by
    cases (afterExpect msg).method <;> decide
  have hline := Wire.requestLine_write hmethod hwf'.url_ne hwf'.url_word.1
  -- a transfer coding is a connection header, so that neither side has one
  have hcoding : (∀ h ∈ (afterExpect msg).headers.headers,
      msg.headers.isConnectionHeader h.name = true →
        toAsciiLowercase h.name = "connection" ∨ toAsciiLowercase h.name = "accept-encoding") →
      msg.getHeader "Transfer-Encoding" = none := by
    intro hcond
    rw [← getHeader_afterExpect (by decide)]
    refine get_eq_none.mpr fun h hmem => ?_
    by_contra hname
    have hname : toAsciiLowercase h.name = toAsciiLowercase "Transfer-Encoding" :=
      eqIgnoreAsciiCase_iff.mp (Bool.eq_true_of_not_eq_false hname)
    have hconn : msg.headers.isConnectionHeader h.name = true := by
      rw [isConnectionHeader, hname]
      have hlower : toAsciiLowercase "Transfer-Encoding" = "transfer-encoding" := by decide
      simp [hlower]
    rcases hcond h hmem hconn with heq | heq <;>
      exact absurd (hname.symm.trans heq) (by decide)
  constructor
  · rintro ⟨head, left, hhead', _, _, hbytes, hconn⟩
    rw [hhead, Option.some.injEq, Prod.mk.injEq] at hhead'
    obtain ⟨rfl, rfl⟩ := hhead'
    have hcond := (connection_sent_iff hwf).mp hconn
    exact ⟨((readBody_sent_iff hwf (hcoding hcond) _ _).mp hbytes).2, hcond⟩
  rintro ⟨hlength, hcond⟩
  have hnone : body = none := by
    refine body_of_no_framing hwf' ?_ (fun cl hcl => announcesBody_of_digits (hlength cl hcl)) hbody
    rw [getHeader_afterExpect (by decide)]
    exact hcoding hcond
  refine ⟨_, _, hhead, by rw [hline]; rfl, ?_, ?_, (connection_sent_iff hwf).mpr hcond⟩
  · intro f hf
    obtain ⟨k, hk, rfl⟩ := mem_map.mp hf
    exact (fitsLine_of_sent hwf' hk).2
  · exact (readBody_sent_iff hwf (hcoding hcond) _ _).mpr ⟨by rw [hnone]; rfl, hlength⟩

/-! ## A request with a body -/

def getAndClose : HttpMessage := (getFrom "a.example" "/").setHeader "Connection" "close"

theorem oneRequest_get : OneRequest getAndClose none (requestBytes localDisplay ⟨.localhost, 8080⟩
      (buildBereq (afterExpect getAndClose)) none) := by
  let env := fixedEnv none 60 byeResponse
  have hread : readRequest parseHead
      (asBytes "GET / HTTP/1.1\r\nHost: a.example\r\nConnection: close\r\n\r\n") =
        .ok (getAndClose, []) := by
    decide +kernel
  have hbody : readBody (afterExpect getAndClose) 100 [] = .ok (none, []) := by decide +kernel
  have hmiss : (lookupOf env (CacheEngine.new () 10) 0 (afterExpect getAndClose)).1 = .miss := by
    decide +kernel
  have hsent := (backendRequest_noVcl (rfl : env.vcl = none) (CacheEngine.new () 10) 0
    (afterExpect getAndClose) none).mpr ⟨rfl, hmiss, rfl, rfl⟩
  refine (oneRequest_iff parseHead localDisplay env (CacheEngine.new () 10) 0 3 100 _ _ _
    getAndClose _ none ⟨.localhost, 8080⟩ rfl hread hbody hsent).mpr ⟨?_, ?_⟩
  · decide +kernel
  · decide +kernel

def postHello : HttpMessage :=
  { (({ getFrom "a.example" "/" with method := .post } : HttpMessage).setHeader
      "Content-Length" "5") with bodyStatus := .length }

/-- The head of a POST is forwarded with its length and the body is not: the
backend waits for five bytes, or takes those of the next request. -/
theorem body_is_not_forwarded : let env := fixedEnv none 60 byeResponse
    let bereq := buildBereq (afterExpect postHello)
    let bytes := requestBytes localDisplay ⟨.localhost, 8080⟩ bereq none
    readRequest parseHead
        (asBytes "POST / HTTP/1.1\r\nHost: a.example\r\nContent-Length: 5\r\n\r\nhello") =
      .ok (postHello, asBytes "hello") ∧
    readBody (afterExpect postHello) 100 (asBytes "hello") = .ok (some (asBytes "hello"), []) ∧
    .backendRequest ⟨.localhost, 8080⟩ bereq ∈ events env (run env
      (Session.start (CacheEngine.new () 10) 0 (afterExpect postHello) (some (asBytes "hello"))) 3) ∧
    bytes = asBytes "POST / HTTP/1.1\r\nHost: a.example\r\nContent-Length: 5\r\n\r\n" ∧
    ¬ OneRequest postHello (some (asBytes "hello")) bytes := by
  intro env bereq bytes
  have hmiss : (lookupOf env (CacheEngine.new () 10) 0 (afterExpect postHello)).1 = .miss := by
    decide +kernel
  have hnone : (Wire.readHead bytes).bind (fun r => Wire.readBody r.1 r.2) = none := by
    decide +kernel
  refine ⟨by decide +kernel, by decide +kernel, ?_, by decide +kernel, ?_⟩
  · exact (backendRequest_noVcl (rfl : env.vcl = none) _ 0 _ _).mpr ⟨rfl, hmiss, rfl, rfl⟩
  · rintro ⟨head, rest, hread, _, _, hbody, _⟩
    simp [hread, hbody] at hnone

end VarahaCache
