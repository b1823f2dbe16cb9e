import VarahaCache.Http.Range
import VarahaCache.Lib.Intervals
import VarahaCache.Server.Framing

/-!
# Range requests

`parse_range_header` as it is written, with subtractions that may fail, and
against the members `RangeMember.read` finds: where the parser of `rv-http`
skips a member that cannot be satisfied and takes an overlong suffix for the
whole body, this one gives the header up, and the delivery answers 416. A 206
is a slice of the body.
-/

namespace VarahaCache

open Text Words Intervals List HttpMessage
open RangeMember (Satisfiable Overlong)

variable {σ : Type}

/-! ## The parser of the request path -/

/-- The loop body: the range one part adds, or `none` to return. -/
def rangePart (contentLength : ℕ) (part : String) : Checked (Option (ℕ × ℕ)) :=
  if part = "" then .ok none
  else
    match stripPrefix "-" part with
    | some suffix =>
      match parseUsize suffix with
      | none => .ok none
      | some suffixLen =>
        if suffixLen = 0 ∨ contentLength < suffixLen then .ok none
        else (checkedSub contentLength suffixLen).bind fun start =>
          (checkedSub contentLength 1).map fun last => some (start, last)
    | none =>
      match splitOnce '-' part with
      | none => .ok none
      | some (startStr, endStr) =>
        match parseUsize startStr with
        | none => .ok none
        | some start =>
          if endStr = "" then
            if contentLength ≤ start then .ok none
            else (checkedSub contentLength 1).map fun last => some (start, last)
          else
            match parseUsize endStr with
            | none => .ok none
            | some stop =>
              if stop < start ∨ contentLength ≤ start then .ok none
              else (checkedSub contentLength 1).map fun last => some (start, min stop last)

/-- The loop over the parts, with the ranges so far. -/
def rangeLoop (contentLength : ℕ) : List String → List (ℕ × ℕ) → Checked (Option (List (ℕ × ℕ)))
  | [], ranges => .ok (if ranges = [] then none else some ranges)
  | part :: parts, ranges =>
    match rangePart contentLength (trim part) with
    | .error e => .error e
    | .ok none => .ok none
    | .ok (some range) => rangeLoop contentLength parts (ranges ++ [range])

/-- `parse_range_header`, its subtractions checked. -/
def parseRangeHeaderChecked (rangeValue : String) (contentLength : ℕ) :
    Checked (Option (List (ℕ × ℕ))) :=
  match stripPrefix "bytes=" (trim rangeValue) with
  | none => .ok none
  | some spec => rangeLoop contentLength (split ',' spec) []

/-- No subtraction fails: each is behind a test that a byte is there. -/
theorem rangePart_eq (n : ℕ) (part : String) :
    rangePart n part = .ok (if part = "" then none else parseRange n part) := by
  unfold rangePart parseRange
  by_cases hpart : part = ""
  · rw [if_pos hpart, if_pos hpart]
  rw [if_neg hpart, if_neg hpart]
  cases stripPrefix "-" part with
  | some suffix =>
    cases hlen : parseUsize suffix with
    | none => simp [hlen]
    | some len =>
      by_cases h : len = 0 ∨ n < len
      · simp [hlen, h]
      · simp [hlen, h, checkedSub_of_le (show len ≤ n by omega),
          checkedSub_of_le (show 1 ≤ n by omega), Except.map, Except.bind]
  | none =>
    cases splitOnce '-' part with
    | none => rfl
    | some cut =>
      obtain ⟨startStr, endStr⟩ := cut
      cases hstart : parseUsize startStr with
      | none => simp [hstart]
      | some start =>
        by_cases hend : endStr = ""
        · by_cases h : n ≤ start
          · simp [hstart, hend, h]
          · simp [hstart, hend, h, checkedSub_of_le (show 1 ≤ n by omega), Except.map]
        cases hstop : parseUsize endStr with
        | none => simp [hstart, hend, hstop]
        | some stop =>
          by_cases h : stop < start ∨ n ≤ start
          · simp [hstart, hend, hstop, h]
          · simp [hstart, hend, hstop, h, checkedSub_of_le (show 1 ≤ n by omega), Except.map]

theorem rangeLoop_eq (n : ℕ) (parts : List String) (ranges : List (ℕ × ℕ))
    (hne : parts ≠ [] ∨ ranges ≠ []) :
    rangeLoop n parts ranges =
      .ok ((parts.mapM fun part => if trim part = "" then none else parseRange n (trim part)).map
        (ranges ++ ·)) := by
  induction parts generalizing ranges with
  | nil =>
    have hranges : ranges ≠ [] := by simpa using hne
    simp [rangeLoop, hranges]
  | cons part parts ih =>
    rw [rangeLoop, rangePart_eq, mapM_cons]
    cases hpart : (if trim part = "" then none else parseRange n (trim part)) with
    | none => rfl
    | some range =>
      dsimp only
      rw [ih (ranges ++ [range]) (by simp)]
      cases parts.mapM fun part => if trim part = "" then none else parseRange n (trim part)
      · rfl
      · simp

/-- The checked parser never stops, and gives what the plain one gives. -/
theorem parseRangeHeaderChecked_eq (rangeValue : String) (n : ℕ) :
    parseRangeHeaderChecked rangeValue n = .ok (parseRangeHeader rangeValue n) := by
  unfold parseRangeHeaderChecked parseRangeHeader
  cases stripPrefix "bytes=" (trim rangeValue) with
  | none => rfl
  | some spec =>
    have hparts : split ',' spec ≠ [] := by simp [split]
    dsimp only
    rw [rangeLoop_eq n _ _ (.inl hparts)]
    simp

/-! ## Against the members of the header -/

theorem parseRange_eq (n : ℕ) (part : String) :
    parseRange n part =
      (RangeMember.read part).bind fun m =>
        if m.Satisfiable n ∧ ¬ m.Overlong n then some (m.range n) else none := by
  unfold parseRange RangeMember.read
  cases stripPrefix "-" part with
  | some suffix =>
    cases hlen : parseUsize suffix with
    | none => simp [hlen]
    | some len =>
      by_cases h : len = 0 ∨ n < len
      · simp [hlen, h, Satisfiable, Overlong]
        omega
      · simp [hlen, h, Satisfiable, Overlong, RangeMember.range]
        omega
  | none =>
    cases splitOnce '-' part with
    | none => rfl
    | some cut =>
      obtain ⟨startStr, endStr⟩ := cut
      cases hstart : parseUsize startStr with
      | none => simp [hstart]
      | some start =>
        by_cases hend : endStr = ""
        · by_cases h : n ≤ start
          · simp [hstart, hend, h, Satisfiable, Overlong]
          · simp [hstart, hend, h, Satisfiable, Overlong,
              RangeMember.range, Nat.not_le.mp h]
        cases hstop : parseUsize endStr with
        | none => simp [hstart, hend, hstop]
        | some stop =>
          by_cases h : stop < start ∨ n ≤ start
          · have h' : ¬ (start ≤ stop ∧ start < n) := by omega
            simp [hstart, hend, hstop, h, Satisfiable, Overlong, h']
          have h' : start ≤ stop ∧ start < n := by omega
          simp [hstart, hend, hstop, h, Satisfiable,
            Overlong, RangeMember.range, h']

/-- Every part is a member that is satisfiable, and no suffix longer than the
body. -/
def Served (n : ℕ) (parts : List String) : Prop :=
  ∀ part ∈ parts, ∃ m, RangeMember.read part = some m ∧ m.Satisfiable n ∧ ¬ m.Overlong n

variable {parts : List String} {rangeValue range : String} {n : ℕ} {m : RangeMember}

theorem parseRangeHeader_of_none (h : rangeParts rangeValue = none) (n : ℕ) :
    parseRangeHeader rangeValue n = none := by
  have hstrip : stripPrefix "bytes=" (trim rangeValue) = none := Option.map_eq_none_iff.mp h
  rw [parseRangeHeader, hstrip]

theorem parseRangeHeader_of_parts (h : rangeParts rangeValue = some parts) (n : ℕ) :
    parseRangeHeader rangeValue n = parts.mapM (parseRange n) := by
  obtain ⟨spec, hspec, rfl⟩ := Option.map_eq_some_iff.mp h
  have hempty : parseRange n "" = none := by rw [parseRange_eq, RangeMember.read_empty]; rfl
  rw [parseRangeHeader, hspec]
  dsimp only
  induction split ',' spec with
  | nil => rfl
  | cons part parts ih =>
    rw [map_cons, mapM_cons, mapM_cons, ih]
    by_cases hpart : trim part = ""
    · rw [if_pos hpart, hpart, hempty]
    · rw [if_neg hpart]

theorem parseRange_of_served {part : String} (hread : RangeMember.read part = some m)
    (hsat : m.Satisfiable n) (hlong : ¬ m.Overlong n) : parseRange n part = some (m.range n) := by
  rw [parseRange_eq, hread, Option.bind_some, if_pos ⟨hsat, hlong⟩]

theorem parseRangeHeader_of_served (h : rangeParts rangeValue = some parts) (hs : Served n parts) :
    parseRangeHeader rangeValue n = some ((rangeMembers parts).map (RangeMember.range n)) := by
  rw [parseRangeHeader_of_parts h]
  clear h
  induction parts with
  | nil => rfl
  | cons part parts ih =>
    obtain ⟨⟨m, hread, hsat, hlong⟩, hrest⟩ := forall_mem_cons.mp hs
    rw [mapM_cons, parseRange_of_served hread hsat hlong, ih hrest, rangeMembers_cons, hread]
    rfl

theorem parseRangeHeader_of_not_served (h : rangeParts rangeValue = some parts)
    (hs : ¬ Served n parts) : parseRangeHeader rangeValue n = none := by
  rw [parseRangeHeader_of_parts h]
  clear h
  induction parts with
  | nil => exact absurd (fun part hpart => by simp at hpart) hs
  | cons part parts ih =>
    rw [mapM_cons]
    by_cases hpart : ∃ m, RangeMember.read part = some m ∧ m.Satisfiable n ∧ ¬ m.Overlong n
    · obtain ⟨m, hread, hsat, hlong⟩ := hpart
      have hrest : ¬ Served n parts := fun hrest =>
        hs (forall_mem_cons.mpr ⟨⟨m, hread, hsat, hlong⟩, hrest⟩)
      rw [parseRange_of_served hread hsat hlong, ih hrest]
      rfl
    have hnone : parseRange n part = none := by
      rw [parseRange_eq]
      cases hread : RangeMember.read part with
      | none => rfl
      | some m =>
        rw [Option.bind_some, if_neg fun h => hpart ⟨m, hread, h.1, h.2⟩]
    rw [hnone]
    rfl

theorem Served.of_mem (h : Served n parts)
    (hm : m ∈ rangeMembers parts) : m.Satisfiable n ∧ ¬ m.Overlong n := by
  obtain ⟨part, hpart, hread⟩ := mem_rangeMembers.mp hm
  obtain ⟨m', hread', htaken⟩ := h part hpart
  rw [hread, Option.some.injEq] at hread'
  exact hread' ▸ htaken

theorem rangeParts_ne_nil (h : rangeParts rangeValue = some parts) : parts ≠ [] := by
  obtain ⟨spec, _, rfl⟩ := Option.map_eq_some_iff.mp h
  simp [split]

theorem parseRangeHeader_bounds {ranges : List (ℕ × ℕ)}
    (h : parseRangeHeader rangeValue n = some ranges) :
    ranges ≠ [] ∧ ∀ range ∈ ranges, range.1 ≤ range.2 ∧ range.2 < n := by
  cases hparts : rangeParts rangeValue with
  | none => rw [parseRangeHeader_of_none hparts] at h; cases h
  | some parts =>
    by_cases hs : Served n parts
    · rw [parseRangeHeader_of_served hparts hs, Option.some.injEq] at h
      subst h
      constructor
      · obtain ⟨part, hpart⟩ := exists_mem_of_ne_nil _ (rangeParts_ne_nil hparts)
        obtain ⟨m, hread, _⟩ := hs part hpart
        exact ne_nil_of_mem (mem_map_of_mem (mem_rangeMembers.mpr ⟨part, hpart, hread⟩))
      intro range hrange
      obtain ⟨m, hm, rfl⟩ := mem_map.mp hrange
      obtain ⟨hsat, hlong⟩ := hs.of_mem hm
      -- nothing is taken from an empty body
      have hn : 0 < n := by
        cases m <;> simp only [Satisfiable, Overlong] at hsat hlong <;>
          omega
      exact RangeMember.bounds hn hsat
    · rw [parseRangeHeader_of_not_served hparts hs] at h
      cases h

def rangeText (first last : ℕ) : String := "bytes=" ++ (toString first ++ "-" ++ toString last)

theorem rangeParts_rangeText (first last : ℕ) :
    rangeParts (rangeText first last) = some [toString first ++ "-" ++ toString last] := by
  have hchars : ∀ c ∈ (toString first ++ "-" ++ toString last).toList, c.isDigit = true ∨ c = '-' := by
    intro c hc
    simp only [String.toList_append, mem_append] at hc
    rcases hc with (hc | hc) | hc
    · exact .inl (isDigit_of_mem_toString hc)
    · exact .inr (by simpa using hc)
    · exact .inl (isDigit_of_mem_toString hc)
  have hblank : ∀ c ∈ (toString first ++ "-" ++ toString last).toList, isWhitespace c = false := by
    intro c hc
    rcases hchars c hc with hc | rfl
    · exact isWhitespace_of_isDigit hc
    · decide
  have htext : ∀ c ∈ (rangeText first last).toList, isWhitespace c = false := by
    intro c hc
    rw [rangeText, String.toList_append, mem_append] at hc
    rcases hc with hc | hc
    · have hunit : "bytes=".toList.all (fun c => !isWhitespace c) = true := by decide
      simpa using all_eq_true.mp hunit c hc
    · exact hblank c hc
  have hcomma : ',' ∉ (toString first ++ "-" ++ toString last).toList := by
    intro hc
    rcases hchars _ hc with hc | hc <;> revert hc <;> decide
  rw [rangeParts, trim_eq_self htext, rangeText, stripPrefix_append, Option.map_some,
    split_of_notMem hcomma, map_singleton, trim_eq_self hblank]

theorem read_rangeText {first last : ℕ} (hfirst : first < 2 ^ 64) (hlast : last < 2 ^ 64) :
    RangeMember.read (toString first ++ "-" ++ toString last) = some (.between first last) := by
  have hdash : '-' ∉ (toString first).toList := notMem_toString (by decide) first
  -- the text starts with a digit of `first`, so it is not a suffix
  have hsuffix : stripPrefix "-" (toString first ++ "-" ++ toString last) = none := by
    refine stripPrefix_eq_none fun h => ?_
    obtain ⟨c, digits, hlist⟩ := exists_cons_of_ne_nil (toList_toString_ne_nil first)
    rw [String.toList_append, String.toList_append, hlist, cons_append, cons_append] at h
    have hc : '-' = c := (cons_prefix_cons.mp h).1
    exact hdash (by rw [hlist, hc]; exact mem_cons_self)
  have hcut : splitOnce '-' (toString first ++ "-" ++ toString last) =
      some (toString first, toString last) := splitOnce_eq_some.mpr ⟨by simp, hdash⟩
  have hend : toString last ≠ "" := fun h => toList_toString_ne_nil last (congrArg String.toList h)
  simp only [RangeMember.read, hsuffix, hcut, Option.bind_some, if_neg hend,
    parseUsize_toString hfirst, parseUsize_toString hlast, Option.map_some]

theorem parseRangeHeader_rangeText {first last n : ℕ} (hle : first ≤ last) (hlt : last < n)
    (hn : n < 2 ^ 64) : parseRangeHeader (rangeText first last) n = some [(first, last)] := by
  have hread := read_rangeText (show first < 2 ^ 64 by omega) (show last < 2 ^ 64 by omega)
  have hsat : (RangeMember.between first last).Satisfiable n := ⟨hle, by omega⟩
  have hserved : Served n [toString first ++ "-" ++ toString last] := by
    intro part hpart
    rw [mem_singleton] at hpart
    exact ⟨.between first last, hpart ▸ hread, hsat, id⟩
  rw [parseRangeHeader_of_served (rangeParts_rangeText first last) hserved, rangeMembers_cons, hread]
  have hmin : min last (n - 1) = last := by omega
  simp [rangeMembers, RangeMember.range, hmin]

/-! ## Deliveries -/

/-- A 200 response with a body, delivered to a GET request: no VCL, no
conditional headers, and a length that is a `usize`. -/
structure BodyDelivery (σ : Type) where
  env : Env σ
  tick : ℕ
  ctx : RequestContext
  body : List UInt8
  noVcl : env.vcl = none
  get : ctx.request.method = .get
  noTags : ctx.request.getHeader "If-None-Match" = none
  noDates : ctx.request.getHeader "If-Modified-Since" = none
  ok : (baseResponse (deliverSource ctx) ctx.respBody).1.status = .ok
  source : (baseResponse (deliverSource ctx) ctx.respBody).2 = some body
  sized : body.length < 2 ^ 64

namespace BodyDelivery

def answer (d : BodyDelivery σ) : RequestContext := (stateDeliver d.env d.tick d.ctx).1

/-- The same delivery to a request without a Range header. -/
def answerWhole (d : BodyDelivery σ) : RequestContext :=
  (stateDeliver d.env d.tick { d.ctx with request := d.ctx.request.unsetHeader "Range" }).1

/-- The response before the Range header is looked at. -/
def whole (d : BodyDelivery σ) : HttpMessage × Option (List UInt8) :=
  (setContentLength (baseResponse (deliverSource d.ctx) d.ctx.respBody).1 (some d.body), some d.body)

variable (d : BodyDelivery σ)

theorem buildResponse_eq {request : HttpMessage} (htags : request.getHeader "If-None-Match" = none)
    (hdates : request.getHeader "If-Modified-Since" = none) :
    buildResponse { d.ctx with request := request } = applyRange request d.whole := by
  have hcond : ∀ response, evaluateConditional request response = false := by
    intro response
    simp [evaluateConditional, htags, hdates]
  have hsource : deliverSource { d.ctx with request := request } = deliverSource d.ctx := rfl
  simp only [buildResponse, applyConditional, hcond, hsource, d.source, whole, Bool.false_eq_true,
    and_false, if_false]

theorem answer_eq :
    d.answer = finishDeliver d.env { d.ctx with respBody := none }
      (applyRange d.ctx.request d.whole).1 (applyRange d.ctx.request d.whole).2 := by
  rw [answer, stateDeliver_noVcl d.noVcl, ← d.buildResponse_eq d.noTags d.noDates]

theorem answerWhole_eq : d.answerWhole = finishDeliver d.env
      { d.ctx with request := d.ctx.request.unsetHeader "Range", respBody := none }
      d.whole.1 d.whole.2 := by
  have hother : ∀ name, eqIgnoreAsciiCase "Range" name = false →
      (d.ctx.request.unsetHeader "Range").getHeader name = d.ctx.request.getHeader name :=
    fun name hne => d.ctx.request.headers.get_unset_of_ne hne
  have hrange : (d.ctx.request.unsetHeader "Range").getHeader "Range" = none :=
    HeaderMap.get_eq_none.mpr fun hd hmem => (HeaderMap.mem_without.mp hmem).2
  rw [answerWhole, stateDeliver_noVcl d.noVcl, d.buildResponse_eq
    ((hother _ (by decide)).trans d.noTags) ((hother _ (by decide)).trans d.noDates)]
  simp [applyRange, hrange]

theorem whole_status : d.whole.1.status = .ok := by
  rw [whole, setContentLength_status, d.ok]

theorem finishDeliver_status (env : Env σ) (ctx : RequestContext) (response : HttpMessage)
    (respBody : Option (List UInt8)) :
    (finishDeliver env ctx response respBody).response.map status = some response.status := by
  unfold finishDeliver
  split <;> rfl

theorem applyRange_of_none (h : d.ctx.request.getHeader "Range" = none) :
    applyRange d.ctx.request d.whole = d.whole := by
  simp [applyRange, h]

variable {range : String}

theorem applyRange_single {first last : ℕ} (h : d.ctx.request.getHeader "Range" = some range)
    (hparse : parseRangeHeader range d.body.length = some [(first, last)]) :
    (applyRange d.ctx.request d.whole).1.status = .partialContent ∧
      (applyRange d.ctx.request d.whole).2 = some (slice d.body first last) ∧
      (applyRange d.ctx.request d.whole).1.getHeader "Content-Length" =
        some (toString (last - first + 1)) ∧
      (applyRange d.ctx.request d.whole).1.getHeader "Content-Range" =
        some ("bytes " ++ toString first ++ "-" ++ toString last ++ "/" ++
          toString d.body.length) := by
  obtain ⟨hle, hlt⟩ := (parseRangeHeader_bounds hparse).2 _ mem_cons_self
  have hlen : (slice d.body first last).length = last - first + 1 := by
    rw [length_slice hlt]
    omega
  have hslice : (d.body.drop first).take (last + 1 - first) = slice d.body first last := rfl
  have happly : applyRange d.ctx.request d.whole =
      (((({ d.whole.1 with
            status := .partialContent, reason := HttpStatus.partialContent.reason } :
            HttpMessage).setHeader "Content-Range"
          ("bytes " ++ toString first ++ "-" ++ toString last ++ "/" ++
            toString d.body.length)).setHeader "Content-Length" (toString (last - first + 1))),
        some (slice d.body first last)) := by
    simp only [applyRange, h, whole, d.get, setContentLength_status, d.ok, hparse, and_self,
      if_true, hslice, hlen]
  rw [happly]
  refine ⟨rfl, rfl, ?_, ?_⟩
  · rw [getHeader_setHeader, if_pos (by decide)]
  · rw [getHeader_setHeader, if_neg (by decide), getHeader_setHeader, if_pos (by decide)]

theorem applyRange_fails (h : d.ctx.request.getHeader "Range" = some range)
    (hparse : parseRangeHeader range d.body.length = none) :
    (applyRange d.ctx.request d.whole).1.status = .rangeNotSatisfiable := by
  simp only [applyRange, h, whole, d.get, setContentLength_status, d.ok, hparse, and_self, if_true]
  rfl

theorem applyRange_several {ranges : List (ℕ × ℕ)}
    (h : d.ctx.request.getHeader "Range" = some range)
    (hparse : parseRangeHeader range d.body.length = some ranges) (hlen : ranges.length ≠ 1) :
    applyRange d.ctx.request d.whole = d.whole := by
  simp only [applyRange, h, whole, d.get, setContentLength_status, d.ok, hparse, and_self, if_true]
  split
  · rename_i heq
    cases heq
    exact absurd rfl hlen
  · rfl
  · rename_i heq
    cases heq

theorem applyRange_cases (h : d.ctx.request.getHeader "Range" = some range) :
    (∃ first last, parseRangeHeader range d.body.length = some [(first, last)] ∧
        (applyRange d.ctx.request d.whole).1.status = .partialContent) ∨
      (∃ ranges, parseRangeHeader range d.body.length = some ranges ∧
        applyRange d.ctx.request d.whole = d.whole) ∨
      (parseRangeHeader range d.body.length = none ∧
        (applyRange d.ctx.request d.whole).1.status = .rangeNotSatisfiable) := by
  cases hparse : parseRangeHeader range d.body.length with
  | none => exact .inr (.inr ⟨rfl, d.applyRange_fails h hparse⟩)
  | some ranges =>
    by_cases hlen : ranges.length = 1
    · obtain ⟨⟨first, last⟩, rfl⟩ := length_eq_one_iff.mp hlen
      exact .inl ⟨first, last, rfl, (d.applyRange_single h hparse).1⟩
    · exact .inr (.inl ⟨ranges, rfl, d.applyRange_several h hparse hlen⟩)

theorem status_answer :
    d.answer.response.map status = some (applyRange d.ctx.request d.whole).1.status := by
  rw [answer_eq, finishDeliver_status]

theorem answer_of_noGzip (h : d.ctx.doGzip = false) :
    d.answer.response = some (applyRange d.ctx.request d.whole).1 ∧
      d.answer.respBody = (applyRange d.ctx.request d.whole).2 := by
  rw [answer_eq]
  simp only [finishDeliver, h, and_self]

theorem flatMap_respBody {body : List UInt8} {start : ℕ} {tiles : List (ℕ × ℕ)}
    (htiles : Tiles body.length start tiles) {deliveries : List (BodyDelivery σ)}
    (hranges : deliveries.map (fun d => d.ctx.request.getHeader "Range") =
      tiles.map fun tile => some (rangeText tile.1 tile.2))
    (hsame : ∀ d ∈ deliveries, d.body = body ∧ d.ctx.doGzip = false) :
    (∀ d ∈ deliveries, d.answer.response.map status = some .partialContent) ∧
      deliveries.flatMap (fun d => d.answer.respBody.getD []) = body.drop start := by
  rw [← htiles.flatMap_slice]
  have hbounds := htiles.bounds
  clear htiles
  induction deliveries generalizing tiles with
  | nil =>
    have hnil : tiles = [] := by simpa using hranges.symm
    simp [hnil]
  | cons d deliveries ih =>
    cases tiles with
    | nil => simp at hranges
    | cons tile tiles =>
      obtain ⟨hrange, hrest⟩ := cons.inj hranges
      obtain ⟨⟨hle, hlt⟩, hboundsRest⟩ := forall_mem_cons.mp hbounds
      obtain ⟨⟨rfl, hgzip⟩, hsameRest⟩ := forall_mem_cons.mp hsame
      obtain ⟨hstatus, hbody⟩ := ih hrest hsameRest hboundsRest
      have hparse := parseRangeHeader_rangeText hle hlt d.sized
      obtain ⟨h206, hslice, -⟩ := d.applyRange_single hrange hparse
      refine ⟨forall_mem_cons.mpr ⟨?_, hstatus⟩, ?_⟩
      · rw [status_answer, h206]
      · rw [flatMap_cons, flatMap_cons, hbody, (d.answer_of_noGzip hgzip).2, hslice]
        rfl

end BodyDelivery

/-- **Range answers are slices of the body.** The parser gives up or returns
ranges inside the body, and no subtraction on the way fails; a 206 is the
slice its Content-Range names; the answers to consecutive ranges make up the
body. -/
theorem rangeAnswers_slices :
    (∀ rangeValue n, ∃ parsed, parseRangeHeaderChecked rangeValue n = .ok parsed ∧
      ∀ ranges, parsed = some ranges →
        ranges ≠ [] ∧ ∀ range ∈ ranges, range.1 ≤ range.2 ∧ range.2 < n) ∧
    (∀ d : BodyDelivery σ, d.ctx.doGzip = false → ∀ response, d.answer.response = some response →
      response.status = .partialContent →
        ∃ rangeValue first last, d.ctx.request.getHeader "Range" = some rangeValue ∧
          parseRangeHeader rangeValue d.body.length = some [(first, last)] ∧
          d.answer.respBody = some (slice d.body first last) ∧
          response.getHeader "Content-Length" = some (toString (last - first + 1)) ∧
          response.getHeader "Content-Range" =
            some ("bytes " ++ toString first ++ "-" ++ toString last ++ "/" ++
              toString d.body.length)) ∧
    ∀ (body : List UInt8) (tiles : List (ℕ × ℕ)) (deliveries : List (BodyDelivery σ)),
      Tiles body.length 0 tiles →
      deliveries.map (fun d => d.ctx.request.getHeader "Range") =
        tiles.map (fun tile => some (rangeText tile.1 tile.2)) →
      (∀ d ∈ deliveries, d.body = body ∧ d.ctx.doGzip = false) →
        (∀ d ∈ deliveries, d.answer.response.map status = some .partialContent) ∧
          deliveries.flatMap (fun d => d.answer.respBody.getD []) = body := by
  refine ⟨?_, ?_, ?_⟩
  · intro rangeValue n
    exact ⟨_, parseRangeHeaderChecked_eq rangeValue n, fun ranges h => parseRangeHeader_bounds h⟩
  · intro d hgzip response hresponse hstatus
    obtain ⟨hanswer, hbody⟩ := d.answer_of_noGzip hgzip
    rw [hanswer, Option.some.injEq] at hresponse
    subst hresponse
    cases hrange : d.ctx.request.getHeader "Range" with
    | none =>
      rw [d.applyRange_of_none hrange, d.whole_status] at hstatus
      cases hstatus
    | some rangeValue =>
      rcases d.applyRange_cases hrange with ⟨first, last, hparse, -⟩ | ⟨_, -, hwhole⟩ | ⟨-, h416⟩
      · obtain ⟨-, hslice, hlength, hcontent⟩ := d.applyRange_single hrange hparse
        exact ⟨rangeValue, first, last, rfl, hparse, hbody.trans hslice, hlength, hcontent⟩
      · rw [hwhole, d.whole_status] at hstatus
        cases hstatus
      · rw [h416] at hstatus
        cases hstatus
  · intro body tiles deliveries htiles hranges hsame
    exact BodyDelivery.flatMap_respBody htiles hranges hsame

/-! ## The rules -/

/-- The HTTP rules for one delivery: no member fails to resolve, both
parsers select what the header asks for, a 416 says that the header is well
formed and asks for nothing there is, and a header that is not well formed
changes nothing. -/
structure RangeRules (d : BodyDelivery σ) (range : String) : Prop where
  noUnderflow : ∀ specs, RangeSet.parse range = .ok specs →
    ∀ spec ∈ specs, ∃ resolved, spec.resolve d.body.length = .ok resolved
  parsers : 1 ≤ d.body.length →
    RangeSet.selected range d.body.length = wantedRanges range d.body.length ∧
      (parseRangeHeader range d.body.length).getD [] = wantedRanges range d.body.length
  unsatisfiable : 1 ≤ d.body.length →
    d.answer.response.map status = some .rangeNotSatisfiable →
      ∃ specs, RangeSet.parse range = .ok specs ∧
        ∀ spec ∈ specs, ∀ resolved, spec.resolve d.body.length ≠ .ok (.ok resolved)
  ignored : 1 ≤ d.body.length → (∃ e, RangeSet.parse range = .error e) →
    d.answer.response = d.answerWhole.response ∧ d.answer.respBody = d.answerWhole.respBody

/-- Of an empty body nothing may be asked; otherwise the header is well
formed, and either no member is satisfiable or all parts are, without an
overlong suffix. -/
def RangesConform (range : String) (n : ℕ) : Prop :=
  if n = 0 then
    ∀ parts, rangeParts range = some parts → RangeSet.WellFormed parts →
      ∀ m ∈ rangeMembers parts, ¬ m.Satisfiable 0
  else
    ∃ parts, rangeParts range = some parts ∧ RangeSet.WellFormed parts ∧
      ((∀ m ∈ rangeMembers parts, ¬ m.Satisfiable n) ∨ Served n parts)

theorem Served.wellFormed
    (hparts : rangeParts range = some parts) (h : Served n parts) : RangeSet.WellFormed parts := by
  constructor
  · obtain ⟨part, hpart⟩ := exists_mem_of_ne_nil _ (rangeParts_ne_nil hparts)
    refine ⟨part, hpart, ?_⟩
    rintro rfl
    obtain ⟨m, hread, -⟩ := h _ hpart
    rw [RangeMember.read_empty] at hread
    cases hread
  · intro part hpart _
    obtain ⟨m, hread, -⟩ := h part hpart
    rw [hread]
    rfl

theorem parseRangeHeader_of_malformed {e : RangeError}
    (h : RangeSet.parse range = .error e) (n : ℕ) : parseRangeHeader range n = none := by
  cases hparts : rangeParts range with
  | none => exact parseRangeHeader_of_none hparts n
  | some parts =>
    refine parseRangeHeader_of_not_served hparts fun hserved => ?_
    have hok := RangeSet.parse_eq_ok.mpr ⟨parts, hparts, hserved.wellFormed hparts, rfl⟩
    rw [hok] at h
    cases h

theorem wantedRanges_of_wellFormed
    (hparts : rangeParts range = some parts) (hwf : RangeSet.WellFormed parts) (n : ℕ) :
    wantedRanges range n =
      ((rangeMembers parts).filter fun m => m.Satisfiable n).map (RangeMember.range n) := by
  rw [wantedRanges, hparts]
  exact if_pos hwf

theorem wantedRanges_eq_nil
    (hparts : rangeParts range = some parts) (hwf : RangeSet.WellFormed parts) :
    wantedRanges range n = [] ↔ ∀ m ∈ rangeMembers parts, ¬ m.Satisfiable n := by
  rw [wantedRanges_of_wellFormed hparts hwf]
  simp

theorem RangeRules.conform {d : BodyDelivery σ}
    (hrange : d.ctx.request.getHeader "Range" = some range) (h : RangeRules d range) :
    RangesConform range d.body.length := by
  unfold RangesConform
  split
  · rename_i hempty
    intro parts hparts hwf m hm hsat
    have hparse := RangeSet.parse_eq_ok.mpr ⟨parts, hparts, hwf, rfl⟩
    obtain ⟨resolved, hresolved⟩ := h.noUnderflow _ hparse _ (mem_map_of_mem hm)
    rw [hempty, m.resolve_spec, if_pos hsat] at hresolved
    cases hresolved
  rename_i hne
  have hn : 1 ≤ d.body.length := Nat.pos_of_ne_zero hne
  cases hparse : RangeSet.parse range with
  | error e =>
    -- a malformed header is answered with a 416, not with the whole
    have hwhole := congrArg (Option.map status) (h.ignored hn ⟨e, hparse⟩).1
    rw [d.status_answer, d.applyRange_fails hrange (parseRangeHeader_of_malformed hparse _),
      d.answerWhole_eq, BodyDelivery.finishDeliver_status, d.whole_status] at hwhole
    cases hwhole
  | ok specs =>
    obtain ⟨parts, hparts, hwf, -⟩ := RangeSet.parse_eq_ok.mp hparse
    refine ⟨parts, hparts, hwf, ?_⟩
    by_cases hserved : Served d.body.length parts
    · exact .inr hserved
    left
    have hnone := parseRangeHeader_of_not_served hparts hserved
    have hwanted := (h.parsers hn).2
    rw [hnone] at hwanted
    exact (wantedRanges_eq_nil hparts hwf).mp hwanted.symm

theorem RangesConform.rules {d : BodyDelivery σ}
    (hrange : d.ctx.request.getHeader "Range" = some range)
    (h : RangesConform range d.body.length) : RangeRules d range := by
  unfold RangesConform at h
  split at h
  · rename_i hempty
    refine ⟨?_, fun hn => by omega, fun hn => by omega, fun hn => by omega⟩
    intro specs hparse spec hspec
    obtain ⟨parts, hparts, hwf, rfl⟩ := RangeSet.parse_eq_ok.mp hparse
    obtain ⟨m, hm, rfl⟩ := mem_map.mp hspec
    rw [hempty, m.resolve_spec, if_neg (h parts hparts hwf m hm)]
    exact ⟨_, rfl⟩
  rename_i hne
  have hn : 1 ≤ d.body.length := Nat.pos_of_ne_zero hne
  obtain ⟨parts, hparts, hwf, hcases⟩ := h
  have hparse := RangeSet.parse_eq_ok.mpr ⟨parts, hparts, hwf, rfl⟩
  have hparsers : (parseRangeHeader range d.body.length).getD [] =
      wantedRanges range d.body.length := by
    by_cases hserved : Served d.body.length parts
    · have hall : (rangeMembers parts).filter (fun m => m.Satisfiable d.body.length) =
          rangeMembers parts :=
        filter_eq_self.mpr fun m hm => by simpa using (hserved.of_mem hm).1
      rw [parseRangeHeader_of_served hparts hserved, wantedRanges_of_wellFormed hparts hwf, hall]
      rfl
    · rw [parseRangeHeader_of_not_served hparts hserved]
      exact ((wantedRanges_eq_nil hparts hwf).mpr (hcases.resolve_right hserved)).symm
  refine ⟨?_, fun _ => ⟨RangeSet.selected_eq range hn, hparsers⟩, ?_, ?_⟩
  · intro specs hspecs spec hspec
    rw [hparse, Except.ok.injEq] at hspecs
    subst hspecs
    obtain ⟨m, -, rfl⟩ := mem_map.mp hspec
    rw [m.resolve_spec, checkedSub_of_le hn]
    split <;> exact ⟨_, rfl⟩
  · intro _ h416
    refine ⟨_, hparse, ?_⟩
    rw [d.status_answer, Option.some.injEq] at h416
    have hgiven : parseRangeHeader range d.body.length = none := by
      rcases d.applyRange_cases hrange with ⟨_, _, -, h206⟩ | ⟨_, -, hwhole⟩ | ⟨hnone, -⟩
      · rw [h206] at h416
        cases h416
      · rw [hwhole, d.whole_status] at h416
        cases h416
      · exact hnone
    rw [hgiven] at hparsers
    have hnone := (wantedRanges_eq_nil hparts hwf).mp hparsers.symm
    intro spec hspec resolved
    obtain ⟨m, hm, rfl⟩ := mem_map.mp hspec
    rw [m.resolve_spec, if_neg (hnone m hm)]
    simp
  · rintro _ ⟨e, he⟩
    rw [hparse] at he
    cases he

/-- **The rules are kept exactly for the conforming headers.** -/
theorem rangeRules_iff (d : BodyDelivery σ) (range : String)
    (hrange : d.ctx.request.getHeader "Range" = some range) :
    RangeRules d range ↔ RangesConform range d.body.length :=
  ⟨RangeRules.conform hrange, RangesConform.rules hrange⟩

def rangeSample (body : List UInt8) (hsized : body.length < 2 ^ 64) (range : String) :
    BodyDelivery Unit where
  env := fixedEnv none 60 byeResponse
  tick := 0
  ctx := { RequestContext.new (getRoot.setHeader "Range" range) with
    state := .deliver, beresp := some byeResponse.1, respBody := some body }
  body := body
  noVcl := rfl
  get := rfl
  noTags := getRoot.getHeader_setHeader "Range" range "If-None-Match"
  noDates := getRoot.getHeader_setHeader "Range" range "If-Modified-Since"
  ok := rfl
  source := rfl
  sized := hsized

theorem rangeRules_iff_three :
    (rangeSample [1, 2, 3] (by decide) "bytes=1-").ctx.request.getHeader "Range" = some "bytes=1-" ∧
      (RangeRules (rangeSample [1, 2, 3] (by decide) "bytes=1-") "bytes=1-" ↔
        RangesConform "bytes=1-" 3) :=
  ⟨by decide, rangeRules_iff (rangeSample [1, 2, 3] (by decide) "bytes=1-") "bytes=1-" (by decide)⟩

/-- One member out of reach spoils the header, an overlong suffix is refused,
a header that is no byte range gets a 416, and a suffix of an empty body
underflows. -/
theorem rangeRules_broken :
    ¬ RangeRules (rangeSample [1, 2, 3] (by decide) "bytes=0-0,9-") "bytes=0-0,9-" ∧
      ¬ RangeRules (rangeSample [1, 2, 3] (by decide) "bytes=-9") "bytes=-9" ∧
      ¬ RangeRules (rangeSample [1, 2, 3] (by decide) "items=0-1") "items=0-1" ∧
      ¬ RangeRules (rangeSample [] (by decide) "bytes=-1") "bytes=-1" := by
  refine ⟨fun h => ?_, fun h => ?_, fun h => ?_, fun h => ?_⟩
  · have hlost : (parseRangeHeader "bytes=0-0,9-" 3).getD [] ≠ wantedRanges "bytes=0-0,9-" 3 := by
      decide +kernel
    exact hlost (h.parsers (by decide)).2
  · have hlost : (parseRangeHeader "bytes=-9" 3).getD [] ≠ wantedRanges "bytes=-9" 3 := by
      decide +kernel
    exact hlost (h.parsers (by decide)).2
  · have h416 : (rangeSample [1, 2, 3] (by decide) "items=0-1").answer.response ≠
        (rangeSample [1, 2, 3] (by decide) "items=0-1").answerWhole.response := by
      decide +kernel
    exact h416 (h.ignored (by decide) ⟨.invalidRange, by decide +kernel⟩).1
  · have hparse : RangeSet.parse "bytes=-1" = .ok [⟨none, some 1⟩] := by decide +kernel
    obtain ⟨resolved, hresolved⟩ := h.noUnderflow _ hparse _ mem_cons_self
    cases hresolved

end VarahaCache
