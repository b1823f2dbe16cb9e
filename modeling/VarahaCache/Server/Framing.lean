import VarahaCache.Server.NoVcl
import VarahaCache.Transport.Backend
import VarahaCache.Transport.Connection

/-!
# Where responses end

A client on a kept-alive connection finds the end of a response by its method,
its status and its Content-Length. Which answers without VCL end where it
looks is `Framable`, a condition on the request, the object found and the
backend's answer; `oneResponseEach_iff` carries it to whole connections.
-/

namespace VarahaCache

open Text Wire HttpMessage HeaderMap

variable {σ : Type}

/-! ## Lines -/

variable {response : HttpMessage} {body : Option (List UInt8)} {method : HttpMethod}
  {bytes : List UInt8} {request : HttpMessage} {name : String} {ctx : RequestContext}

theorem FitsLines.setHeader (h : FitsLines response) {value : String}
    (hfits : FitsLine ⟨name, value⟩) : FitsLines (response.setHeader name value) := by
  refine ⟨?_, h.reason⟩
  intro hd hmem
  rcases mem_of_mem_set hmem with hmem | rfl
  · exact h.fields hd hmem
  · exact hfits

theorem FitsLines.unsetHeader (h : FitsLines response) (name : String) :
    FitsLines (response.unsetHeader name) :=
  ⟨fun hd hmem => h.fields hd (mem_without.mp hmem).1, h.reason⟩

theorem reason_fits (status : HttpStatus) : '\n' ∉ status.reason.toList := by
  unfold HttpStatus.reason
  split <;> decide +kernel

theorem fitsLines_newResponse (status : HttpStatus) (version : HttpVersion) :
    FitsLines (.newResponse status version) :=
  ⟨by simp [newResponse, HeaderMap.new], reason_fits status⟩

theorem FitsLines.copyHeadersExcept (h : FitsLines response)
    (skip : List String) {source : List Header} (hsource : ∀ hd ∈ source, FitsLine hd) :
    FitsLines (response.copyHeadersExcept skip source) := by
  let P : HeaderMap → Prop := fun headers => ∀ hd ∈ headers.headers, FitsLine hd
  obtain ⟨headers, hcopy, hp⟩ := copyHeadersExcept_induction (P := P) skip response
    source h.fields (by
      intro headers hp k hk hd hmem
      rcases mem_of_mem_set hmem with hmem | rfl
      · exact hp hd hmem
      · exact hsource k hk)
  rw [hcopy]
  exact ⟨hp, h.reason⟩

theorem FitsLines.copyNamed {source response : HttpMessage} (h : FitsLines response)
    (hsource : FitsLines source) {names : List String}
    (hnames : ∀ name ∈ names, '\n' ∉ name.toList ∧ ':' ∉ name.toList) :
    FitsLines (copyNamed source response names) := by
  unfold VarahaCache.copyNamed
  induction names generalizing response with
  | nil => exact h
  | cons name names ih =>
    obtain ⟨hname, hrest⟩ := List.forall_mem_cons.mp hnames
    rw [List.foldl_cons]
    refine ih ?_ hrest
    split
    · rename_i value hvalue
      obtain ⟨hd, hmem, _, rfl⟩ := mem_of_get hvalue
      exact h.setHeader ⟨hname.1, hname.2, (hsource.fields hd hmem).value⟩
    · exact h

theorem FitsLines.setContentLength (h : FitsLines response)
    (body : Option (List UInt8)) : FitsLines (setContentLength response body) := by
  cases body with
  | none => exact h
  | some bytes => exact h.setHeader (fitsLine_number (by decide) (by decide) _)

theorem FitsLines.applyConditional {answer : HttpMessage × Option (List UInt8)}
    (h : FitsLines answer.1) (request : HttpMessage) :
    FitsLines (applyConditional request answer).1 := by
  unfold VarahaCache.applyConditional
  split
  · exact (fitsLines_newResponse _ _).copyNamed h (by decide)
  · exact h

theorem FitsLines.withStatus (h : FitsLines response) (status : HttpStatus) :
    FitsLines { response with status := status, reason := status.reason } :=
  ⟨h.fields, reason_fits status⟩

theorem FitsLines.applyRange {answer : HttpMessage × Option (List UInt8)} (h : FitsLines answer.1)
    (request : HttpMessage) : FitsLines (applyRange request answer).1 := by
  have hname : '\n' ∉ "Content-Range".toList ∧ ':' ∉ "Content-Range".toList := by decide
  have hblank : '\n' ∉ "bytes ".toList ∧ '\n' ∉ "-".toList ∧ '\n' ∉ "/".toList ∧
      '\n' ∉ "bytes */".toList := by decide
  have hnumber : ∀ n : ℕ, '\n' ∉ (toString n).toList := notMem_toString (by decide)
  unfold VarahaCache.applyRange
  split
  · split
    · split
      · refine ((h.withStatus .partialContent).setHeader ⟨hname.1, hname.2, ?_⟩).setHeader
          (fitsLine_number (by decide) (by decide) _)
        simp only [String.toList_append, List.mem_append, not_or]
        exact ⟨⟨⟨⟨⟨hblank.1, hnumber _⟩, hblank.2.1⟩, hnumber _⟩, hblank.2.2.1⟩, hnumber _⟩
      · exact h
      · refine ((h.withStatus .rangeNotSatisfiable).setHeader ⟨hname.1, hname.2, ?_⟩).unsetHeader _
        simp only [String.toList_append, List.mem_append, not_or]
        exact ⟨hblank.2.2.2, hnumber _⟩
    · exact h
  · exact h

/-! ## One answer -/

/-- The client asks for ranges of the body and cannot have them. -/
def RangeFails (request : HttpMessage) (length : ℕ) : Prop :=
  request.method = .get ∧
    ∃ range, request.getHeader "Range" = some range ∧ parseRangeHeader range length = none

/-- A delivery of this status and body ends where the client looks: a body is
not sent to a HEAD request and not lost to a range that fails, and without one
nobody looks for it or the backend's length says so. -/
def FramesBody (request : HttpMessage) (status : HttpStatus) (contentLength : Option String) :
    Option (List UInt8) → Prop
  | some bytes => request.method ≠ .head ∧ ¬ (status = .ok ∧ RangeFails request bytes.length)
  | none => request.method = .head ∨ status = .noContent ∨ status = .notModified ∨
      ∃ cl, contentLength = some cl ∧ digits (trim cl) = some 0

theorem framed_of_length (hmethod : method ≠ .head) (hcontent : response.status ≠ .noContent)
    (hmodified : response.status ≠ .notModified)
    (hlength : response.getHeader "Content-Length" = some (toString bytes.length)) :
    Framed method (response, some bytes) := by
  have hbody : ¬ (method = .head ∨ response.status = .noContent ∨
      response.status = .notModified) := by simp [hmethod, hcontent, hmodified]
  rw [Framed, if_neg hbody, announcedLength, hlength]
  exact (congrArg digits (trim_toString _)).trans (digits_toString _)

theorem framed_none_iff :
    Framed method (response, none) ↔
      method = .head ∨ response.status = .noContent ∨ response.status = .notModified ∨
        ∃ cl, response.getHeader "Content-Length" = some cl ∧ digits (trim cl) = some 0 := by
  by_cases hnobody : method = .head ∨ response.status = .noContent ∨ response.status = .notModified
  · rw [Framed, if_pos hnobody]
    refine iff_of_true rfl ?_
    rcases hnobody with h | h | h
    · exact .inl h
    · exact .inr (.inl h)
    · exact .inr (.inr (.inl h))
  rw [Framed, if_neg hnobody, announcedLength]
  simp only [not_or] at hnobody
  simp only [hnobody.1, hnobody.2.1, hnobody.2.2, false_or]
  cases response.getHeader "Content-Length" with
  | none => simp
  | some cl => simp

theorem not_framed_of_range_fails {response : HttpMessage}
    (hok : response.status = .ok) (hfails : RangeFails request bytes.length) :
    ¬ Framed request.method (applyRange request (response, some bytes)) := by
  obtain ⟨hget, range, hrange, hparse⟩ := hfails
  have hlength : ∀ m : HttpMessage, (m.unsetHeader "Content-Length").getHeader "Content-Length" =
      none := by
    intro m
    exact get_eq_none.mpr fun hd hmem => (mem_without.mp hmem).2
  have hcodes : HttpStatus.rangeNotSatisfiable ≠ .noContent ∧
      HttpStatus.rangeNotSatisfiable ≠ .notModified := by decide
  simp only [applyRange, hrange, hget, hok, true_and, if_true, hparse]
  rw [framed_none_iff, hlength]
  simp [hcodes.1, hcodes.2, unsetHeader, setHeader]

/-- The range step: what it leaves of a body ends where the client looks,
unless the range fails. -/
theorem framed_applyRange {response : HttpMessage} (hmethod : request.method ≠ .head)
    (hcontent : response.status ≠ .noContent) (hmodified : response.status ≠ .notModified)
    (hlength : response.getHeader "Content-Length" = some (toString bytes.length))
    (hkept : ¬ (response.status = .ok ∧ RangeFails request bytes.length)) :
    Framed request.method (applyRange request (response, some bytes)) := by
  have hwhole : Framed request.method (response, some bytes) :=
    framed_of_length hmethod hcontent hmodified hlength
  have hcodes : HttpStatus.partialContent ≠ .noContent ∧
      HttpStatus.partialContent ≠ .notModified := by decide
  unfold applyRange
  split
  · rename_i range body hrange hbody
    cases hbody
    split
    · rename_i hask
      split
      · exact framed_of_length hmethod hcodes.1 hcodes.2 (by rw [getHeader_setHeader]; rfl)
      · exact hwhole
      · rename_i hparse
        exact absurd ⟨hask.2, hask.1, range, hrange, hparse⟩ hkept
    · exact hwhole
  · exact hwhole

theorem applyRange_none (request response : HttpMessage) :
    applyRange request (response, none) = (response, none) := by
  unfold applyRange
  split
  · rename_i hbody
    cases hbody
  · rfl

/-- A delivered body ends where the client looks EXACTLY when `FramesBody`
says so. -/
theorem framed_applyRange_iff {response : HttpMessage}
    {contentLength : Option String}
    (hsome : ∀ bytes, body = some bytes → bytes ≠ [] ∧ response.responseHasBody = true ∧
      response.getHeader "Content-Length" = some (toString bytes.length))
    (hnone : body = none → response.getHeader "Content-Length" = contentLength) :
    Framed request.method (applyRange request (response, body)) ↔
      FramesBody request response.status contentLength body := by
  cases body with
  | none =>
    rw [applyRange_none, framed_none_iff, hnone rfl]
    rfl
  | some bytes =>
    obtain ⟨hne, hhas, hlength⟩ := hsome bytes rfl
    simp only [responseHasBody, Bool.and_eq_true, bne_iff_ne, ne_eq] at hhas
    rw [FramesBody]
    constructor
    · intro hframed
      refine ⟨?_, fun hfails => not_framed_of_range_fails hfails.1 hfails.2 hframed⟩
      intro hhead
      have hsame : applyRange request (response, some bytes) = (response, some bytes) := by
        unfold applyRange
        split
        · rw [if_neg (by simp [hhead])]
        · rfl
      rw [hsame, Framed, if_pos (.inl hhead)] at hframed
      exact hne hframed
    · rintro ⟨hmethod, hkept⟩
      exact framed_applyRange hmethod hhas.1.2 hhas.2 hlength hkept

/-! ## The answers of one request -/

theorem evaluateConditional_congr {response response' : HttpMessage}
    (hetag : response.getHeader "ETag" = response'.getHeader "ETag")
    (hmodified : response.getHeader "Last-Modified" = response'.getHeader "Last-Modified") :
    evaluateConditional request response = evaluateConditional request response' := by
  simp only [evaluateConditional, hetag, hmodified]

theorem getHeader_setContentLength (hname : eqIgnoreAsciiCase "Content-Length" name = false) :
    (setContentLength response body).getHeader name = response.getHeader name := by
  cases body with
  | none => rfl
  | some bytes =>
    rw [setContentLength, getHeader_setHeader, hname]
    rfl

theorem setContentLength_status (response : HttpMessage) (body : Option (List UInt8)) :
    (setContentLength response body).status = response.status := by
  cases body <;> rfl

theorem copyNamed_status (source m : HttpMessage) (names : List String) :
    (copyNamed source m names).status = m.status := by
  unfold copyNamed
  induction names generalizing m with
  | nil => rfl
  | cons name names ih =>
    rw [List.foldl_cons, ih]
    split <;> rfl

/-- A conditional request that is answered 304. -/
def NotModifiedFor (request : HttpMessage) (response : HttpMessage) : Prop :=
  (request.method = .get ∨ request.method = .head) ∧ response.status = .ok ∧
    evaluateConditional request response = true

/-- A delivery ends where the client looks if it is a 304, and otherwise
as its body does. -/
theorem framed_buildResponse_iff
    (hbase : baseResponse (deliverSource ctx) ctx.respBody = (response, body))
    (hbody : ∀ bytes, body = some bytes → bytes ≠ [] ∧ response.responseHasBody = true) :
    Framed ctx.request.method (buildResponse ctx) ↔
      NotModifiedFor ctx.request response ∨
        FramesBody ctx.request response.status (response.getHeader "Content-Length") body := by
  have hcond : evaluateConditional ctx.request (setContentLength response body) =
      evaluateConditional ctx.request response :=
    evaluateConditional_congr (getHeader_setContentLength (by decide))
      (getHeader_setContentLength (by decide))
  simp only [buildResponse, hbase, applyConditional, setContentLength_status, hcond]
  unfold NotModifiedFor
  split
  · rename_i h304
    rw [applyRange_none, framed_none_iff, copyNamed_status]
    exact iff_of_true (.inr (.inr (.inl rfl))) (.inl h304)
  rename_i h304
  rw [or_iff_right h304, ← setContentLength_status response body]
  refine framed_applyRange_iff ?_ ?_
  · rintro bytes rfl
    obtain ⟨hne, hhas⟩ := hbody bytes rfl
    refine ⟨hne, hhas, ?_⟩
    rw [setContentLength, getHeader_setHeader]
    rfl
  · rintro rfl
    rfl

/-! ## A server on one connection -/

/-- What one request is answered with: a runtime without VCL, whose backend is
asked over the network, and the cache. -/
structure Setting (σ : Type) (display : AddrDisplay) where
  env : Env σ
  cache : CacheEngine σ
  tick : ℕ
  network : ℕ → SocketAddr → List UInt8 → Except String (List UInt8)
  noVcl : env.vcl = none
  client : ∀ tick addr bereq, env.sendBackendRequest tick addr bereq =
    (sendBackendRequest display (network tick) addr bereq none).mapError TransportError.text

variable {display : AddrDisplay} {beresp : HttpMessage} {respBody : Option (List UInt8)}

def Setting.answer (w : Setting σ display) (request : HttpMessage) (body : Option (List UInt8)) :
    HttpMessage × Option (List UInt8) :=
  (run w.env (Session.start w.cache w.tick request body) 5).result

/-- The object found, or what the backend answers, makes a response that ends
where the client looks. -/
def Framable (w : Setting σ display) (request : HttpMessage) : Prop :=
  match (lookupOf w.env w.cache w.tick request).1, fetchOf w.env w.tick request with
  | .hit oc, _ => FramesBody request .ok none oc.getBody
  | .grace oc, _ => FramesBody request .ok none oc.getBody
  | _, some (.ok (beresp, respBody)) =>
    NotModifiedFor request beresp ∨
      FramesBody request beresp.status (beresp.getHeader "Content-Length") respBody
  | _, _ => request.method ≠ .head

theorem fitsLines_buildResponse (h : FitsLines (baseResponse (deliverSource ctx) ctx.respBody).1) :
    FitsLines (buildResponse ctx).1 :=
  FitsLines.applyRange (FitsLines.applyConditional (h.setContentLength _) _) _

theorem getHeader_baseResponse (hd : beresp.headers.Distinct) (respBody : Option (List UInt8))
    (hcache : eqIgnoreAsciiCase "X-Cache" name = false)
    (hskip : toLowercase name ∉ ["connection", "transfer-encoding"]) :
    (baseResponse (.backend beresp) respBody).1.getHeader name = beresp.getHeader name := by
  have hheaders := copyHeadersExcept_headers ["connection", "transfer-encoding"]
    ((newResponse beresp.status .http11).setHeader "X-Cache" "MISS") hd
  have hkept : (⟨beresp.headers.headers.filter fun h =>
      toLowercase h.name ∉ ["connection", "transfer-encoding"]⟩ : HeaderMap).get name =
        beresp.getHeader name := by
    refine get_filter fun hd _ hname => ?_
    rw [toLowercase_congr hname]
    simpa using hskip
  have hown : ∀ keep : Header → Bool, (⟨((newResponse beresp.status
      .http11).setHeader "X-Cache" "MISS").headers.headers.filter keep⟩ : HeaderMap).get name =
        none := by
    intro keep
    refine get_eq_none.mpr fun hd hmem => ?_
    have hd' := List.mem_of_mem_filter hmem
    simp only [setHeader, newResponse, HeaderMap.set, HeaderMap.unset,
      HeaderMap.new, List.filter_nil, List.nil_append, List.mem_singleton] at hd'
    rw [hd']
    exact hcache
  show (HeaderMap.mk _).get name = _
  rw [show (baseResponse (.backend beresp) respBody).1.headers.headers = _ from hheaders,
    get_append, hown, hkept, Option.none_or]

theorem framed_synthAnswer_iff {status : HttpStatus} {text : String}
    (hcontent : status ≠ .noContent) (hmodified : status ≠ .notModified) (htext : text ≠ "") :
    Framed method (synthAnswer status text) ↔ method ≠ .head := by
  constructor
  · rintro hframed rfl
    rw [Framed, if_pos (.inl rfl)] at hframed
    exact htext (asBytes_eq_nil.mp hframed)
  intro hmethod
  refine framed_of_length hmethod hcontent hmodified ?_
  rw [getHeader_setHeader]
  rfl

theorem fitsLines_synthAnswer (status : HttpStatus) (text : String) :
    FitsLines (synthAnswer status text).1 :=
  ((fitsLines_newResponse status .http11).setHeader ⟨by decide, by decide, by decide⟩).setHeader
    (fitsLine_number (by decide) (by decide) _)

theorem framed_object_iff (env : Env σ) (request : HttpMessage) (body : Option (List UInt8))
    (oc : ObjCore) :
    let answer := buildResponse { missed env request body with obj := some oc }
    FitsLines answer.1 ∧ (Framed request.method answer ↔ FramesBody request .ok none oc.getBody) := by
  intro answer
  let ctx : RequestContext := { missed env request body with obj := some oc }
  have hbase : baseResponse (deliverSource ctx) ctx.respBody =
      ((newResponse .ok .http11).setHeader "X-Cache" "HIT", oc.getBody) := rfl
  have hfits : FitsLines ((newResponse .ok .http11).setHeader "X-Cache" "HIT") :=
    (fitsLines_newResponse _ _).setHeader ⟨by decide, by decide, by decide⟩
  have hbody : ∀ bytes, oc.getBody = some bytes → bytes ≠ [] ∧
      ((newResponse .ok .http11).setHeader "X-Cache" "HIT").responseHasBody = true := by
    intro bytes h
    unfold ObjCore.getBody at h
    split at h
    · cases h
    rename_i hne
    cases h
    exact ⟨hne, by decide⟩
  have hframed : Framed request.method answer ↔ _ := framed_buildResponse_iff hbase hbody
  have hcond : ¬ NotModifiedFor request ((newResponse .ok .http11).setHeader "X-Cache" "HIT") := by
    have hetag : ((newResponse .ok .http11).setHeader "X-Cache" "HIT").getHeader "ETag" =
      none := by decide
    have hdate : ((newResponse .ok .http11).setHeader "X-Cache" "HIT").getHeader
      "Last-Modified" = none := by decide
    simp [NotModifiedFor, evaluateConditional, hetag, hdate]
  have hlength : ((newResponse .ok .http11).setHeader "X-Cache" "HIT").getHeader
      "Content-Length" = none := by decide
  rw [hlength] at hframed
  exact ⟨fitsLines_buildResponse hfits, hframed.trans (or_iff_right hcond)⟩

theorem framed_backend_iff (env : Env σ) (request : HttpMessage) (body : Option (List UInt8))
    (hwf : WellFormedResponse beresp respBody) :
    let answer := buildResponse
      { missed env request body with beresp := some beresp, respBody := respBody }
    FitsLines answer.1 ∧ (Framed request.method answer ↔ NotModifiedFor request beresp ∨
      FramesBody request beresp.status (beresp.getHeader "Content-Length") respBody) := by
  intro answer
  let ctx : RequestContext :=
    { missed env request body with beresp := some beresp, respBody := respBody }
  let base := (baseResponse (.backend beresp) respBody).1
  have hbase : baseResponse (deliverSource ctx) ctx.respBody = (base, respBody) := rfl
  have hfits : FitsLines base := ((fitsLines_newResponse beresp.status .http11).setHeader
      ⟨by decide, by decide, by decide⟩).copyHeadersExcept _ hwf.fits
  have hstatus : base.status = beresp.status := copyHeadersExcept_status _ _ _
  have hhas : base.responseHasBody = beresp.responseHasBody := by
    simp only [responseHasBody, hstatus]
  have hget : ∀ name, eqIgnoreAsciiCase "X-Cache" name = false →
      toLowercase name ∉ ["connection", "transfer-encoding"] →
      base.getHeader name = beresp.getHeader name := fun name hcache hskip =>
    getHeader_baseResponse hwf.distinct respBody hcache hskip
  have hbody : ∀ bytes, respBody = some bytes → bytes ≠ [] ∧ base.responseHasBody = true := by
    rw [hhas]
    exact hwf.body
  have hframed : Framed request.method answer ↔ _ := framed_buildResponse_iff hbase hbody
  have hcond : evaluateConditional request base = evaluateConditional request beresp :=
    evaluateConditional_congr (hget _ (by decide) (by decide +kernel))
      (hget _ (by decide) (by decide +kernel))
  rw [hstatus, hget "Content-Length" (by decide) (by decide +kernel)] at hframed
  refine ⟨fitsLines_buildResponse hfits, hframed.trans (or_congr_left ?_)⟩
  show NotModifiedFor request base ↔ _
  simp only [NotModifiedFor, hstatus, hcond]

theorem wellFormed_fetch {w : Setting σ display}
    (h : fetchOf w.env w.tick request = some (.ok (beresp, respBody))) :
    WellFormedResponse beresp respBody := by
  obtain ⟨addr, _, hsend⟩ := Option.map_eq_some_iff.mp h
  rw [w.client] at hsend
  exact sendBackendRequest_ok (Lib.ok_of_mapError_ok hsend)

/-- One answer fits on its lines, and ends where the client looks EXACTLY
when the request is `Framable`. -/
theorem framed_answer_iff (w : Setting σ display) (request : HttpMessage)
    (body : Option (List UInt8)) :
    FitsLines (w.answer request body).1 ∧
      (Framed request.method (w.answer request body) ↔ Framable w request) := by
  obtain ⟨answer, hhandle, hcases⟩ := answer_noVcl w.noVcl w.cache w.tick request body
  have hanswer : w.answer request body = answer := (handleRequest_eq_some.mp hhandle).2.1
  have hcodes : HttpStatus.serviceUnavailable ≠ .noContent ∧
      HttpStatus.serviceUnavailable ≠ .notModified ∧ HttpStatus.badGateway ≠ .noContent ∧
      HttpStatus.badGateway ≠ .notModified := by decide
  rw [hanswer, Framable]
  rcases lookupOf_cases w.env w.cache w.tick request with ⟨oc, h⟩ | h
  · rcases h with h | h <;> simp only [h] at hcases ⊢ <;> rw [hcases] <;>
      exact framed_object_iff w.env request body oc
  cases hfetch : fetchOf w.env w.tick request with
  | none =>
    simp only [h, hfetch] at hcases ⊢
    rw [hcases]
    exact ⟨fitsLines_synthAnswer _ _, framed_synthAnswer_iff hcodes.1 hcodes.2.1 (by decide)⟩
  | some fetched =>
    cases fetched with
    | error e =>
      simp only [h, hfetch] at hcases ⊢
      have htext : "Backend fetch failed: " ++ e ≠ "" := by
        intro hempty
        have hlist := congrArg String.toList hempty
        simp at hlist
      rw [hcases]
      exact ⟨fitsLines_synthAnswer _ _, framed_synthAnswer_iff hcodes.2.2.1 hcodes.2.2.2 htext⟩
    | ok response =>
      obtain ⟨beresp, respBody⟩ := response
      simp only [h, hfetch] at hcases ⊢
      rw [hcases]
      exact framed_backend_iff w.env request body (wellFormed_fetch hfetch)

/-- **When a connection carries one response for each request.** Whatever a
client sends and whatever cache and backend each request meets, the client
reads exactly one response per request, in order, with nothing left over,
EXACTLY when every request that is answered is `Framable` in its setting. -/
theorem oneResponseEach_iff (httparse : List UInt8 → ParseStatus) (maxBodySize : ℕ)
    (world : ℕ → Setting σ display) (stream : List UInt8) :
    let rounds := (handleConnection httparse maxBodySize (fun k => (world k).answer) 0 stream).1
    OneResponseEach rounds ↔ ∀ k round, rounds[k]? = some round → round.answer.isSome →
      Framable (world k) round.request := by
  intro rounds
  have hone : ∀ k round answer, rounds[k]? = some round → round.answer = some answer →
      FitsLines answer.1 ∧
        (Framed round.request.method answer ↔ Framable (world k) round.request) := by
    intro k round answer hround hanswer
    obtain ⟨body, rfl⟩ := handleConnection_answer hanswer hround
    rw [Nat.zero_add]
    exact framed_answer_iff (world k) round.request body
  have hfits : ∀ r ∈ rounds, ∀ answer, r.answer = some answer → FitsLines answer.1 := by
    intro r hr answer hanswer
    obtain ⟨k, hk⟩ := List.mem_iff_getElem?.mp hr
    exact (hone k r answer hk hanswer).1
  rw [oneResponseEach_iff_framed hfits]
  constructor
  · intro hframed k round hround hsome
    obtain ⟨answer, hanswer⟩ := Option.isSome_iff_exists.mp hsome
    exact (hone k round answer hround hanswer).2.mp
      (hframed round (List.mem_of_getElem? hround) answer hanswer)
  intro hframable r hr answer hanswer
  obtain ⟨k, hk⟩ := List.mem_iff_getElem?.mp hr
  exact (hone k r answer hk hanswer).2.mpr
    (hframable k r hk (Option.isSome_iff_exists.mpr ⟨answer, hanswer⟩))

/-! ## Two connections -/

def offline : Setting Unit localDisplay where
  env := { fixedEnv none 60 byeResponse with
    sendBackendRequest := fun _ addr bereq =>
      (sendBackendRequest localDisplay (fun _ _ => .error "connection refused") addr bereq
        none).mapError TransportError.text }
  cache := warmCache
  tick := 0
  network := fun _ _ _ => .error "connection refused"
  noVcl := rfl
  client := fun _ _ _ => rfl

/-- A HEAD request is answered with the object's body, and a range behind its
end with no length: the first client has two bytes left over, the second waits
for the connection to close. -/
theorem responses_desynchronise : let rounds := fun text =>
      (handleConnection parseHead 100 (fun _ => offline.answer) 0 (asBytes text)).1
    let head := rounds "HEAD / HTTP/1.1\r\nHost: a.example\r\n\r\n"
    let range := rounds "GET / HTTP/1.1\r\nHost: a.example\r\nRange: bytes=9-\r\n\r\n"
    written head =
      asBytes "HTTP/1.1 200 OK\r\nX-Cache: HIT\r\nContent-Length: 2\r\n\r\nhi" ∧
    ¬ OneResponseEach head ∧
    written range = asBytes ("HTTP/1.1 416 Range Not Satisfiable\r\nX-Cache: HIT\r\n" ++
      "Content-Range: bytes */2\r\n\r\n") ∧
    ¬ OneResponseEach range := by
  unfold OneResponseEach
  decide +kernel

end VarahaCache
