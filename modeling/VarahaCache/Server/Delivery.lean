import VarahaCache.Server.Request

/-!
# Building the client response

The parts of `state_deliver` that come before `vcl_deliver`: the response
is based on the cached object if the request holds one, else on the
backend response; then the content length is set, a conditional request
may turn it into a 304, and a range request into a 206 or a 416.
-/

namespace VarahaCache

open Text

/-! ## Conditional requests -/

def monthNumber (name : String) : Option Int64 :=
  match toAsciiLowercase name with
  | "jan" => some 1
  | "feb" => some 2
  | "mar" => some 3
  | "apr" => some 4
  | "may" => some 5
  | "jun" => some 6
  | "jul" => some 7
  | "aug" => some 8
  | "sep" => some 9
  | "oct" => some 10
  | "nov" => some 11
  | "dec" => some 12
  | _ => none

/-- The days before each month of a common year. -/
def monthDays : List Int64 := [0, 31, 59, 90, 120, 151, 181, 212, 243, 273, 304, 334]

/-- An HTTP date such as `Sun, 06 Nov 1994 08:49:37 GMT`, as a Unix timestamp
in wrapping 64 bits. -/
def parseHttpDate (s : String) : Option Int64 :=
  let parts := splitWhitespace (trim s)
  if parts.length < 6 then none
  else do
    let day ← parseI64 (trimEndMatches ',' (parts.getD 1 ""))
    let month ← monthNumber (parts.getD 2 "")
    let year ← parseI64 (parts.getD 3 "")
    let timeParts := split ':' (parts.getD 4 "")
    if timeParts.length ≠ 3 then none
    let hour ← parseI64 (timeParts.getD 0 "")
    let min ← parseI64 (timeParts.getD 1 "")
    let sec ← parseI64 (timeParts.getD 2 "")
    let daysFromYear :=
      (year - 1970) * 365 + (year - 1969) / 4 - (year - 1901) / 100 + (year - 1601) / 400
    let isLeap := (year % 4 == 0 && year % 100 != 0) || year % 400 == 0
    let leapAdd := if isLeap && 2 < month then 1 else 0
    let totalDays := daysFromYear + monthDays.getD (month - 1).toNatClampNeg 0 + day - 1 + leapAdd
    return totalDays * 86400 + hour * 3600 + min * 60 + sec

/-- Not modified: an entity tag matches, or the date is not later than the
client's. -/
def evaluateConditional (req response : HttpMessage) : Bool :=
  let tagMatches := match req.getHeader "If-None-Match", response.getHeader "ETag" with
    | some ifNoneMatch, some etag =>
      trim ifNoneMatch == "*" ||
        (split ',' (trim ifNoneMatch)).any fun tag => trim tag == trim etag
    | _, _ => false
  let notNewer := match req.getHeader "If-Modified-Since", response.getHeader "Last-Modified" with
    | some ifModifiedSince, some lastModified =>
      match parseHttpDate ifModifiedSince, parseHttpDate lastModified with
      | some ims, some lm => decide (lm ≤ ims)
      | _, _ => false
    | _, _ => false
  tagMatches || notNewer

/-! ## Range requests -/

/-- One range of the header: a suffix, an open or a closed one. -/
def parseRange (contentLength : Nat) (part : String) : Option (Nat × Nat) :=
  match stripPrefix "-" part with
  | some suffix => do
    let suffixLen ← parseUsize suffix
    if suffixLen = 0 ∨ contentLength < suffixLen then none
    else some (contentLength - suffixLen, contentLength - 1)
  | none =>
    match splitOnce '-' part with
    | some (startStr, endStr) => do
      let start ← parseUsize startStr
      if endStr = "" then
        if contentLength ≤ start then none else some (start, contentLength - 1)
      else do
        let stop ← parseUsize endStr
        if stop < start ∨ contentLength ≤ start then none
        else some (start, min stop (contentLength - 1))
    | none => none

/-- All ranges of a `bytes=` header; one bad range spoils the header. -/
def parseRangeHeader (rangeValue : String) (contentLength : Nat) : Option (List (Nat × Nat)) :=
  match stripPrefix "bytes=" (trim rangeValue) with
  | some spec =>
    (split ',' spec).mapM fun part =>
      if trim part = "" then none else parseRange contentLength (trim part)
  | none => none

example : parseRangeHeader "bytes=0-1, -2" 5 = some [(0, 1), (3, 4)] := by decide +kernel

/-! ## The response -/

/-- What a delivery takes its response from. -/
inductive DeliverSource
  | object (oc : ObjCore)
  | backend (beresp : HttpMessage)
  | nothing
deriving DecidableEq

/-- A cached object comes first, whatever else the request holds. -/
def deliverSource (ctx : RequestContext) : DeliverSource :=
  match ctx.obj, ctx.beresp with
  | some oc, _ => .object oc
  | none, some beresp => .backend beresp
  | none, none => .nothing

/-- The response and body before any client header is looked at. -/
def baseResponse (source : DeliverSource) (respBody : Option (List UInt8)) :
    HttpMessage × Option (List UInt8) :=
  match source with
  | .object oc => ((HttpMessage.newResponse .ok .http11).setHeader "X-Cache" "HIT", oc.getBody)
  | .backend beresp =>
    (((HttpMessage.newResponse beresp.status .http11).setHeader "X-Cache" "MISS").copyHeadersExcept
      ["connection", "transfer-encoding"] beresp.headers.headers, respBody)
  | .nothing =>
    ((HttpMessage.newResponse .internalServerError .http11).setHeader "X-Cache" "ERROR", respBody)

def setContentLength (response : HttpMessage) : Option (List UInt8) → HttpMessage
  | some body => response.setHeader "Content-Length" (toString body.length)
  | none => response

def copyNamed (source m : HttpMessage) (names : List String) : HttpMessage :=
  names.foldl (fun m name =>
    match source.getHeader name with
    | some value => m.setHeader name value
    | none => m) m

def applyConditional (request : HttpMessage) (r : HttpMessage × Option (List UInt8)) :
    HttpMessage × Option (List UInt8) :=
  if (request.method = .get ∨ request.method = .head) ∧ r.1.status = .ok ∧
      evaluateConditional request r.1 then
    (copyNamed r.1 (HttpMessage.newResponse .notModified .http11)
      ["ETag", "Last-Modified", "Cache-Control", "Expires", "Vary", "X-Cache"], none)
  else r

/-- The 206 or 416 of a range request; several ranges get the whole. -/
def applyRange (request : HttpMessage) (r : HttpMessage × Option (List UInt8)) :
    HttpMessage × Option (List UInt8) :=
  match request.getHeader "Range", r.2 with
  | some range, some body =>
    if request.method = .get ∧ r.1.status = .ok then
      match parseRangeHeader range body.length with
      | some [(start, stop)] =>
        let sliced := (body.drop start).take (stop + 1 - start)
        let response := { r.1 with
          status := .partialContent, reason := HttpStatus.partialContent.reason }
        let response := response.setHeader "Content-Range"
          ("bytes " ++ toString start ++ "-" ++ toString stop ++ "/" ++ toString body.length)
        (response.setHeader "Content-Length" (toString sliced.length), some sliced)
      | some _ => r
      | none =>
        let response := { r.1 with
          status := .rangeNotSatisfiable, reason := HttpStatus.rangeNotSatisfiable.reason }
        let response := response.setHeader "Content-Range" ("bytes */" ++ toString body.length)
        (response.unsetHeader "Content-Length", none)
    else r
  | _, _ => r

/-- The response as `vcl_deliver` first sees it. -/
def buildResponse (ctx : RequestContext) : HttpMessage × Option (List UInt8) :=
  let r := baseResponse (deliverSource ctx) ctx.respBody
  applyRange ctx.request (applyConditional ctx.request (setContentLength r.1 r.2, r.2))

/-- No header of the request asks for less than the whole response. -/
def Unconditional (request : HttpMessage) : Prop :=
  request.getHeader "If-None-Match" = none ∧ request.getHeader "If-Modified-Since" = none ∧
    request.getHeader "Range" = none

theorem buildResponse_of_unconditional {ctx : RequestContext} (h : Unconditional ctx.request) :
    buildResponse ctx = (setContentLength (baseResponse (deliverSource ctx) ctx.respBody).1
          (baseResponse (deliverSource ctx) ctx.respBody).2,
        (baseResponse (deliverSource ctx) ctx.respBody).2) := by
  obtain ⟨hmatch, hsince, hrange⟩ := h
  have hcond : ∀ response, evaluateConditional ctx.request response = false := by
    intro response
    simp [evaluateConditional, hmatch, hsince]
  simp [buildResponse, applyConditional, applyRange, hcond, hrange]

end VarahaCache
