import VarahaCache.Server.Forwarding
import VarahaCache.Server.Framing
import VarahaCache.Transport.RequestFraming
import VarahaCache.Transport.ResponseHead

/-!
# Repeated headers

A header may stand in a message more than once: every cookie is set on a line
of its own. Requests, backend responses and deliveries are copied with
`set_header`, which replaces what has its name, so that of several values the
last one is left.
-/

namespace VarahaCache

open Text List Wire HttpMessage

/-! ## One value under each name -/

theorem HeaderMap.Distinct.getAll_eq {m : HeaderMap} (h : m.Distinct) (name : String) :
    m.getAll name = (m.get name).toList := by
  have hsame : (m.headers.filter (·.nameEqIgnoreCase name)).Pairwise fun _ _ => False := by
    refine (h.filter (·.nameEqIgnoreCase name)).imp_of_mem fun {a b} ha hb hdiffer => ?_
    have hname := eq_of_beq (mem_filter.mp ha).2
    have hname' := eq_of_beq (mem_filter.mp hb).2
    rw [Header.nameEqIgnoreCase, eqIgnoreAsciiCase, hname, hname', beq_self_eq_true] at hdiffer
    cases hdiffer
  rw [HeaderMap.get_eq_head?, HeaderMap.getAll]
  rcases hfilter : m.headers.filter (·.nameEqIgnoreCase name) with _ | ⟨a, _ | ⟨b, more⟩⟩
  · rw [hfilter]
    rfl
  · rw [hfilter]
    rfl
  · rw [hfilter] at hsame
    exact ((pairwise_cons.mp hsame).1 b mem_cons_self).elim

theorem toList_getLast?_eq_iff {α : Type*} (l : List α) : l.getLast?.toList = l ↔ l.length ≤ 1 := by
  rcases l with _ | ⟨a, _ | ⟨b, more⟩⟩
  · simp
  · simp
  · refine iff_of_false (fun heq => ?_) (by simp)
    have hlength := congrArg length heq
    cases hlast : (a :: b :: more).getLast? with
    | none => simp [hlast] at hlength
    | some c => simp [hlast] at hlength

/-! ## What is delivered -/

theorem HttpMessage.getHeader_congr (m : HttpMessage) {a b : String}
    (h : eqIgnoreAsciiCase a b = true) : m.getHeader a = m.getHeader b := by
  have hname : ∀ k : Header, k.nameEqIgnoreCase a = k.nameEqIgnoreCase b := by
    intro k
    rw [Header.nameEqIgnoreCase, Header.nameEqIgnoreCase, eqIgnoreAsciiCase, eqIgnoreAsciiCase,
      eq_of_beq h]
  simp only [getHeader, HeaderMap.get, hname]

theorem getHeader_copyNamed (source m : HttpMessage) (names : List String) (name : String) :
    (copyNamed source m names).getHeader name =
      if names.any (eqIgnoreAsciiCase · name) then (source.getHeader name).or (m.getHeader name)
      else m.getHeader name := by
  unfold copyNamed
  induction names generalizing m with
  | nil => rfl
  | cons first names ih =>
    rw [foldl_cons, ih, any_cons]
    by_cases hfirst : eqIgnoreAsciiCase first name = true
    · rw [getHeader_congr source hfirst, hfirst, Bool.true_or, if_pos rfl]
      cases source.getHeader name with
      | none => simp
      | some value => simp [getHeader_setHeader, hfirst]
    rw [Bool.not_eq_true] at hfirst
    rw [hfirst, Bool.false_or]
    cases source.getHeader first with
    | none => rfl
    | some value => simp [getHeader_setHeader, hfirst]

/-- The names the delivery writes itself or does not pass on. -/
def ownNames : List String := ["Connection", "Transfer-Encoding", "Content-Length", "X-Cache"]

/-- A header name that is none of those. -/
def PassedOn (name : String) : Prop :=
  isToken name = true ∧ ∀ own ∈ ownNames, eqIgnoreAsciiCase own name = false

def metadataNames : List String := ["ETag", "Last-Modified", "Cache-Control", "Expires", "Vary"]

def writtenRange (request response : HttpMessage) (body : Option (List UInt8)) : Option String :=
  match request.getHeader "Range", body with
  | some range, some bytes =>
    if request.method = .get ∧ response.status = .ok then
      match parseRangeHeader range bytes.length with
      | some [(start, stop)] => some
          ("bytes " ++ toString start ++ "-" ++ toString stop ++ "/" ++ toString bytes.length)
      | some _ => none
      | none => some ("bytes */" ++ toString bytes.length)
    else none
  | _, _ => none

variable {name : String}

theorem getHeader_applyRange (request response : HttpMessage) (body : Option (List UInt8))
    (hlength : eqIgnoreAsciiCase "Content-Length" name = false) :
    (applyRange request (response, body)).1.getHeader name =
      if eqIgnoreAsciiCase "Content-Range" name then
        (writtenRange request response body).or (response.getHeader name)
      else response.getHeader name := by
  have hunset : ∀ m : HttpMessage, (m.unsetHeader "Content-Length").getHeader name =
      m.getHeader name := fun m => m.headers.get_unset_of_ne hlength
  unfold applyRange writtenRange
  cases request.getHeader "Range" with
  | none => simp
  | some range =>
    cases body with
    | none => simp
    | some bytes =>
      dsimp only
      by_cases hserve : request.method = .get ∧ response.status = .ok
      · rw [if_pos hserve, if_pos hserve]
        rcases parseRangeHeader range bytes.length with _ | _ | ⟨⟨start, stop⟩, _ | _⟩
        · rw [hunset, getHeader_setHeader]
          rfl
        · simp
        · rw [getHeader_setHeader, hlength, getHeader_setHeader]
          rfl
        · simp
      · rw [if_neg hserve, if_neg hserve]
        simp

theorem distinct_copyNamed (source : HttpMessage) {m : HttpMessage} (h : m.headers.Distinct)
    (names : List String) : (copyNamed source m names).headers.Distinct := by
  unfold copyNamed
  induction names generalizing m with
  | nil => exact h
  | cons name names ih =>
    rw [foldl_cons]
    refine ih ?_
    split
    · exact h.set _ _
    · exact h

theorem distinct_buildResponse (ctx : RequestContext) : (buildResponse ctx).1.headers.Distinct := by
  have hbase : (baseResponse (deliverSource ctx) ctx.respBody).1.headers.Distinct := by
    unfold baseResponse
    split
    · exact HeaderMap.distinct_new.set _ _
    · rename_i beresp _
      obtain ⟨headers, heq, hdistinct⟩ := copyHeadersExcept_induction
        (P := HeaderMap.Distinct) ["connection", "transfer-encoding"]
        ((newResponse beresp.status .http11).setHeader "X-Cache" "MISS")
        beresp.headers.headers (HeaderMap.distinct_new.set _ _) fun _ h k _ => h.set _ _
      rw [heq]
      exact hdistinct
    · exact HeaderMap.distinct_new.set _ _
  have hlength : ∀ body, (setContentLength (baseResponse (deliverSource ctx) ctx.respBody).1
      body).headers.Distinct := by
    intro body
    cases body with
    | none => exact hbase
    | some bytes => exact hbase.set _ _
  have hcond : ∀ r : HttpMessage × Option (List UInt8), r.1.headers.Distinct →
      (applyConditional ctx.request r).1.headers.Distinct := by
    intro r hr
    unfold applyConditional
    split
    · exact distinct_copyNamed _ HeaderMap.distinct_new _
    · exact hr
  have hrange : ∀ r : HttpMessage × Option (List UInt8), r.1.headers.Distinct →
      (applyRange ctx.request r).1.headers.Distinct := by
    intro r hr
    unfold applyRange
    split
    · split
      · split
        · exact (hr.set _ _).set _ _
        · exact hr
        · exact (hr.set _ _).unset _
      · exact hr
    · exact hr
  exact hrange _ (hcond _ (hlength _))

theorem PassedOn.skip (h : PassedOn name) :
    toLowercase name ∉ ["connection", "transfer-encoding"] := by
  rw [toLowercase_of_isToken h.1]
  have hconnection := h.2 "Connection" (by decide)
  have hcoding := h.2 "Transfer-Encoding" (by decide)
  simp only [eqIgnoreAsciiCase, beq_eq_false_iff_ne] at hconnection hcoding
  rw [mem_pair, not_or]
  exact ⟨Ne.symm hconnection, Ne.symm hcoding⟩

instance (request response : HttpMessage) : Decidable (NotModifiedFor request response) :=
  inferInstanceAs (Decidable (_ ∧ _))

/-- What is delivered of the backend's headers: in a 304 the metadata,
otherwise all, with the delivery's own Content-Range. -/
theorem getHeader_buildResponse {ctx : RequestContext} {beresp : HttpMessage}
    (hobj : ctx.obj = none) (hberesp : ctx.beresp = some beresp)
    (hdistinct : beresp.headers.Distinct) (hname : PassedOn name) :
    (buildResponse ctx).1.getHeader name =
      if NotModifiedFor ctx.request beresp then
        if metadataNames.any (eqIgnoreAsciiCase · name) then beresp.getHeader name else none
      else if eqIgnoreAsciiCase "Content-Range" name then
        (writtenRange ctx.request beresp ctx.respBody).or (beresp.getHeader name)
      else beresp.getHeader name := by
  have hsource : deliverSource ctx = .backend beresp := by
    simp [deliverSource, hobj, hberesp]
  let base := (baseResponse (.backend beresp) ctx.respBody).1
  let whole := setContentLength base ctx.respBody
  have hbuild : buildResponse ctx =
      applyRange ctx.request (applyConditional ctx.request (whole, ctx.respBody)) := by
    rw [buildResponse, hsource]
    rfl
  have hstatus : whole.status = beresp.status := by
    rw [setContentLength_status]
    exact copyHeadersExcept_status _ _ _
  have hget : ∀ other, PassedOn other → whole.getHeader other = beresp.getHeader other := by
    intro other hother
    rw [getHeader_setContentLength (hother.2 _ (by decide))]
    exact getHeader_baseResponse hdistinct _ (hother.2 _ (by decide)) hother.skip
  have hcond : evaluateConditional ctx.request whole = evaluateConditional ctx.request beresp :=
    evaluateConditional_congr (hget _ ⟨by decide, by decide⟩) (hget _ ⟨by decide, by decide⟩)
  have hlength := hname.2 "Content-Length" (by decide)
  have hcache := hname.2 "X-Cache" (by decide)
  have hconditional : applyConditional ctx.request (whole, ctx.respBody) =
      if NotModifiedFor ctx.request beresp then
        (copyNamed whole (newResponse .notModified .http11)
          ["ETag", "Last-Modified", "Cache-Control", "Expires", "Vary", "X-Cache"], none)
      else (whole, ctx.respBody) := by
    simp only [applyConditional, hstatus, hcond]
    rfl
  rw [hbuild, hconditional]
  by_cases h304 : NotModifiedFor ctx.request beresp
  · rw [if_pos h304, if_pos h304, applyRange_none, getHeader_copyNamed, hget name hname]
    simp [metadataNames, hcache, getHeader, newResponse, HeaderMap.new, HeaderMap.get]
  have hrange : writtenRange ctx.request whole ctx.respBody =
      writtenRange ctx.request beresp ctx.respBody := by
    simp only [writtenRange, hstatus]
  rw [if_neg h304, if_neg h304, getHeader_applyRange _ _ _ hlength, hget name hname, hrange]

/-! ## Whether all values arrive -/

namespace Wire.ResponseHead

/-- The values a head has under a name, without the white space around
them. -/
def values (h : ResponseHead) (name : String) : List String :=
  (fieldValues name h.fields).map fun value => trim ((fromUtf8 value).getD "")

theorem kept_eq_getLast? (h : ResponseHead) (name : String) :
    h.kept name = (h.values name).getLast? := by
  rw [kept, values, getLast?_map]

theorem values_congr (h : ResponseHead) {a b : String} (hname : eqIgnoreAsciiCase a b = true) :
    h.values a = h.values b := by
  simp only [values, fieldValues, eqIgnoreAsciiCase, eq_of_beq hname]

end Wire.ResponseHead

/-- The headers of a request reach the message made of it, and those of a
backend's response the one delivered. -/
structure HeadersSurvive (req : ParsedRequest) (head : ResponseHead)
    (delivered : HttpMessage) : Prop where
  request : ∀ name, 2 ≤ (fieldValues name req.fields).length →
    (req.toMessage.headers.getAll name).map asBytes = fieldValues name req.fields
  response : ∀ name, PassedOn name → delivered.headers.getAll name = head.values name

/-- What is delivered has all the headers it is made from: a 304 is made from
metadata alone, and a Content-Range the delivery writes is the one that was
there. -/
def Complete (request beresp : HttpMessage) (body : Option (List UInt8))
    (head : ResponseHead) : Prop :=
  if NotModifiedFor request beresp then
    ∀ name, PassedOn name → head.values name ≠ [] →
      metadataNames.any (eqIgnoreAsciiCase · name) = true
  else ∀ written, writtenRange request beresp body = some written →
    head.values "Content-Range" = [written]

theorem request_survives_iff (req : ParsedRequest) :
    (∀ name, 2 ≤ (fieldValues name req.fields).length →
      (req.toMessage.headers.getAll name).map asBytes = fieldValues name req.fields) ↔
      ∀ name, (fieldValues name req.fields).length ≤ 1 := by
  refine forall_congr' fun name => ⟨fun hall => ?_, fun hone hmany => by omega⟩
  by_contra hmany
  have hlength := congrArg length (hall (by omega))
  rw [req.wellFormed.distinct.getAll_eq, length_map] at hlength
  have hone : (req.toMessage.headers.get name).toList.length ≤ 1 := by
    cases req.toMessage.headers.get name <;> simp
  omega

section Delivered

variable {request beresp : HttpMessage} {body : Option (List UInt8)} {head : ResponseHead}
  {ctx : RequestContext}

/-- What survives the delivery of a response that was read from a head. -/
theorem response_survives_iff (hobj : ctx.obj = none) (hberesp : ctx.beresp = some beresp)
    (hdistinct : beresp.headers.Distinct) (hkept : ∀ name, beresp.getHeader name = head.kept name) :
    (∀ name, PassedOn name → (buildResponse ctx).1.headers.getAll name = head.values name) ↔
      (∀ name, PassedOn name → (head.values name).length ≤ 1) ∧
        Complete ctx.request beresp ctx.respBody head := by
  have hall : ∀ name, PassedOn name → ((buildResponse ctx).1.headers.getAll name =
      if NotModifiedFor ctx.request beresp then
        if metadataNames.any (eqIgnoreAsciiCase · name) then (head.values name).getLast?.toList else []
      else if eqIgnoreAsciiCase "Content-Range" name then
        ((writtenRange ctx.request beresp ctx.respBody).or (head.values name).getLast?).toList
      else (head.values name).getLast?.toList) := by
    intro name hname
    have hget := getHeader_buildResponse hobj hberesp hdistinct hname
    rw [hkept, ResponseHead.kept_eq_getLast?, getHeader] at hget
    rw [(distinct_buildResponse ctx).getAll_eq, hget]
    split_ifs
    · rfl
    · rfl
    · rfl
    · rfl
  unfold Complete
  by_cases h304 : NotModifiedFor ctx.request beresp
  · simp only [h304, if_true] at hall ⊢
    constructor
    · intro hsurvive
      refine ⟨fun name hname => ?_, fun name hname hsome => ?_⟩
      · have heq := (hall name hname).symm.trans (hsurvive name hname)
        split_ifs at heq
        · exact (toList_getLast?_eq_iff _).mp heq
        · simp [← heq]
      by_contra hother
      have heq := (hall name hname).symm.trans (hsurvive name hname)
      rw [if_neg hother] at heq
      exact hsome heq.symm
    · rintro ⟨hone, hmeta⟩ name hname
      rw [hall name hname]
      split_ifs with hother
      · exact (toList_getLast?_eq_iff _).mpr (hone name hname)
      · by_contra hsome
        exact hother (hmeta name hname (Ne.symm hsome))
  simp only [h304, if_false] at hall ⊢
  constructor
  · intro hsurvive
    have heq := fun name hname => (hall name hname).symm.trans (hsurvive name hname)
    refine ⟨fun name hname => ?_, fun written hwritten => ?_⟩
    · have hvalues := heq name hname
      split_ifs at hvalues
      · rw [← hvalues]
        cases (writtenRange ctx.request beresp ctx.respBody).or (head.values name).getLast? <;> simp
      · exact (toList_getLast?_eq_iff _).mp hvalues
    · have hvalues := heq "Content-Range" ⟨by decide, by decide⟩
      rw [if_pos (by decide), hwritten] at hvalues
      exact hvalues.symm
  · rintro ⟨hone, hrange⟩ name hname
    rw [hall name hname]
    have hlast := (toList_getLast?_eq_iff _).mpr (hone name hname)
    split_ifs with hcr
    · cases hwritten : writtenRange ctx.request beresp ctx.respBody with
      | none => exact hlast
      | some written =>
        rw [← ResponseHead.values_congr head hcr, hrange written hwritten]
        rfl
    · exact hlast

end Delivered

section Survive

variable {σ : Type} {display : AddrDisplay}

/-- What the backend answers a request of the server with. -/
def Setting.Answers (w : Setting σ display) (request : HttpMessage) (stream : List UInt8) : Prop :=
  ∃ addr, w.env.backendAddr = some addr ∧
    w.network (w.tick + 3) addr (requestBytes display addr (buildBereq request) none) = .ok stream

/-- **Repeated headers survive** EXACTLY when there are none: neither in the
request nor, on a miss, in the response of the backend, which must lose
nothing to a 304 or to a range either. -/
theorem headersSurvive_iff (w : Setting σ display) (req : ParsedRequest) (request : HttpMessage)
    (body : Option (List UInt8)) (head : ResponseHead) (tail : List UInt8) (read : ResponseRead)
    (htext : head.IsText) (hmiss : (lookupOf w.env w.cache w.tick request).1 = .miss)
    (hanswers : w.Answers request (head.bytes ++ tail))
    (hread : readResponse (head.bytes ++ tail) = .ok read) :
    HeadersSurvive req head (w.answer request body).1 ↔
      (∀ name, (fieldValues name req.fields).length ≤ 1) ∧
      (∀ name, PassedOn name → (head.values name).length ≤ 1) ∧
        Complete request read.response read.body head := by
  obtain ⟨addr, haddr, hnetwork⟩ := hanswers
  have hfetch : fetchOf w.env w.tick request = some (.ok (read.response, read.body)) := by
    rw [fetchOf, haddr, Option.map_some, w.client, sendBackendRequest, sendPooledRequest, hnetwork]
    dsimp only
    rw [hread]
    rfl
  obtain ⟨answer, hhandle, hcase⟩ := answer_of_missed w.noVcl w.cache w.tick request body hmiss
  have hanswer : w.answer request body = answer := (handleRequest_eq_some.mp hhandle).2.1
  rw [hfetch] at hcase
  obtain ⟨response, _, _, hkept, heq⟩ := readResponse_of_isText htext tail
  rw [hread] at heq
  obtain ⟨_, _, hsame⟩ := Lib.exists_of_map_ok heq.symm
  have hkept' : ∀ name, read.response.getHeader name = head.kept name := by
    rw [← hsame]
    exact hkept
  let ctx : RequestContext :=
    { missed w.env request body with beresp := some read.response, respBody := read.body }
  have hobj : ctx.obj = none := rfl
  have hdelivered := response_survives_iff hobj rfl (readResponse_ok hread).distinct hkept'
  have hboth : HeadersSurvive req head (w.answer request body).1 ↔ _ ∧ _ :=
    ⟨fun h => ⟨h.request, h.response⟩, fun h => ⟨h.1, h.2⟩⟩
  rw [hboth, request_survives_iff, hanswer, hcase, hdelivered]
  rfl

end Survive

def answering (stream : List UInt8) : Setting Unit localDisplay where
  env := { fixedEnv none 60 byeResponse with
    sendBackendRequest := fun _ addr bereq =>
      (sendBackendRequest localDisplay (fun _ _ => .ok stream) addr bereq none).mapError
        TransportError.text }
  cache := CacheEngine.new () 10
  tick := 0
  network := fun _ _ _ => .ok stream
  noVcl := rfl
  client := fun _ _ _ => rfl

def cookieHead (cookies : List FieldLine) : ResponseHead :=
  .ok (⟨"Content-Length", asBytes " 0", isToken_contentLength, by unfold OnLine; decide⟩ :: cookies)

def cookieA : FieldLine := ⟨"Set-Cookie", asBytes " a=1", by decide, by unfold OnLine; decide⟩

def cookieB : FieldLine := ⟨"Set-Cookie", asBytes " b=2", by decide, by unfold OnLine; decide⟩

def plainRequest : ParsedRequest where
  method := some "GET"
  path := some "/"
  version := some 1
  headers := []
  path_word := root_word

/-- One cookie is delivered. -/
theorem headersSurvive_one_cookie : HeadersSurvive plainRequest (cookieHead [cookieA])
      ((answering ((cookieHead [cookieA]).bytes ++ [])).answer getRoot none).1 := by
  refine (headersSurvive_iff (answering ((cookieHead [cookieA]).bytes ++ [])) plainRequest getRoot
    none (cookieHead [cookieA]) []
    ⟨{ newResponse .ok .http11 with
      headers := ⟨[⟨"Content-Length", "0"⟩, ⟨"Set-Cookie", "a=1"⟩]⟩ }, none, true, []⟩
    ⟨by decide +kernel, by decide +kernel⟩ (by decide +kernel) ⟨_, rfl, rfl⟩
    (by decide +kernel)).mpr ⟨?_, ?_, ?_⟩
  · intro name
    exact Nat.zero_le 1
  · intro name hname
    have hlength := hname.2 "Content-Length" (by decide)
    have hfields : (cookieHead [cookieA]).fields =
        [("Content-Length", asBytes " 0"), ("Set-Cookie", asBytes " a=1")] := rfl
    rw [ResponseHead.values, length_map, fieldValues, length_map, hfields,
      filter_cons_of_neg (by simp [hlength])]
    exact length_filter_le _ _
  · unfold Complete
    rw [if_neg (by decide +kernel)]
    intro written hwritten
    exact absurd hwritten (by simp [writtenRange])

def acceptTwice : ParsedRequest where
  method := some "GET"
  path := some "/"
  version := some 1
  headers := [⟨"Accept", asBytes "text/html", by decide, by decide⟩,
    ⟨"accept", asBytes "image/png", by decide, by decide⟩]
  path_word := root_word

/-- Of two cookies the second is delivered, and of two Accept headers the
second is read. -/
theorem not_headersSurvive_cookies :
    let delivered := ((answering (cookieHead [cookieA, cookieB]).bytes).answer getRoot none).1
    (cookieHead [cookieA, cookieB]).values "Set-Cookie" = ["a=1", "b=2"] ∧
      delivered.headers.getAll "Set-Cookie" = ["b=2"] ∧
      fieldValues "Accept" acceptTwice.fields = [asBytes "text/html", asBytes "image/png"] ∧
      acceptTwice.toMessage.headers.getAll "Accept" = ["image/png"] ∧
      ¬ HeadersSurvive acceptTwice (cookieHead [cookieA, cookieB]) delivered := by
  intro delivered
  have hvalues : (cookieHead [cookieA, cookieB]).values "Set-Cookie" = ["a=1", "b=2"] := by
    decide +kernel
  have hdelivered : delivered.headers.getAll "Set-Cookie" = ["b=2"] := by decide +kernel
  refine ⟨hvalues, hdelivered, by decide +kernel, by decide +kernel, fun hsurvive => ?_⟩
  have heq := hsurvive.response "Set-Cookie" ⟨by decide, by decide⟩
  rw [hvalues, hdelivered] at heq
  exact absurd heq (by decide)

end VarahaCache
