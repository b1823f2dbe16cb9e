import VarahaCache.Http.Message

/-!
# Conditional requests, as `rv-http` has them

`rfc2616::evaluate_conditional` with its entity tag comparison and its date
parser, which takes all three date formats. The request path has functions
of the same names of its own; the ones here are in their own namespace.
-/

namespace VarahaCache.Rfc2616

open Text

/-! ## Dates -/

def monthNumber : String → Option Nat
  | "Jan" => some 1
  | "Feb" => some 2
  | "Mar" => some 3
  | "Apr" => some 4
  | "May" => some 5
  | "Jun" => some 6
  | "Jul" => some 7
  | "Aug" => some 8
  | "Sep" => some 9
  | "Oct" => some 10
  | "Nov" => some 11
  | "Dec" => some 12
  | _ => none

/-- A date as seconds since 1970, years counted from March. The parts are
32-bit numbers, so nothing overflows. -/
def componentsToTimestamp (year month day hour min sec : Nat) : Int :=
  let y : Int := if month ≤ 2 then year - 1 else year
  let m : Int := if month ≤ 2 then month + 12 else month
  let days := 365 * y + y.tdiv 4 - y.tdiv 100 + y.tdiv 400 + (153 * (m - 3) + 2).tdiv 5 + day -
    719469
  days * 86400 + hour * 3600 + min * 60 + sec

/-- `HH:MM:SS`. -/
def parseTime (s : String) : Option (Nat × Nat × Nat) := do
  let timeParts := split ':' s
  if timeParts.length ≠ 3 then none
  let hour ← parseU32 (timeParts.getD 0 "")
  let min ← parseU32 (timeParts.getD 1 "")
  let sec ← parseU32 (timeParts.getD 2 "")
  return (hour, min, sec)

/-- `Sun, 06 Nov 1994 08:49:37 GMT`. -/
def parseRfc1123 (s : String) : Option VtimReal := do
  let parts := splitWhitespace s
  if parts.length ≠ 6 ∨ parts.getD 5 "" ≠ "GMT" then none
  let day ← parseU32 (parts.getD 1 "")
  let month ← monthNumber (parts.getD 2 "")
  let year ← parseU32 (parts.getD 3 "")
  let (hour, min, sec) ← parseTime (parts.getD 4 "")
  return (componentsToTimestamp year month day hour min sec : ℚ)

/-- `Sunday, 06-Nov-94 08:49:37 GMT`. -/
def parseRfc850 (s : String) : Option VtimReal := do
  let (_, rest) ← splitOnceStr ", " s
  let parts := splitWhitespace rest
  if parts.length ≠ 3 ∨ parts.getD 2 "" ≠ "GMT" then none
  let dateParts := split '-' (parts.getD 0 "")
  if dateParts.length ≠ 3 then none
  let day ← parseU32 (dateParts.getD 0 "")
  let month ← monthNumber (dateParts.getD 1 "")
  let year ← parseU32 (dateParts.getD 2 "")
  let year := if year < 100 then (if year < 70 then year + 2000 else year + 1900) else year
  let (hour, min, sec) ← parseTime (parts.getD 1 "")
  return (componentsToTimestamp year month day hour min sec : ℚ)

/-- `Sun Nov  6 08:49:37 1994`. -/
def parseAsctime (s : String) : Option VtimReal := do
  let parts := splitWhitespace s
  if parts.length ≠ 5 then none
  let month ← monthNumber (parts.getD 1 "")
  let day ← parseU32 (parts.getD 2 "")
  let year ← parseU32 (parts.getD 4 "")
  let (hour, min, sec) ← parseTime (parts.getD 3 "")
  return (componentsToTimestamp year month day hour min sec : ℚ)

def parseHttpDate (s : String) : Option VtimReal :=
  let s := trim s
  (parseRfc1123 s).or ((parseRfc850 s).or (parseAsctime s))

/-! ## The decision -/

def stripWeak (tag : String) : String := (stripPrefix "W/" tag).getD tag

def etagMatches (inmHeader etag : String) : Bool :=
  (split ',' inmHeader).any fun candidate => stripWeak (trim candidate) == stripWeak etag

/-- The modification date is not later than the one the client has. -/
def notNewer (req : HttpMessage) (respLastModified : Option String) : Bool :=
  match req.getHeader "If-Modified-Since", respLastModified with
  | some ims, some lm =>
    match parseHttpDate ims, parseHttpDate lm with
    | some imsTime, some lmTime => decide (lmTime ≤ imsTime)
    | _, _ => false
  | _, _ => false

/-- Not modified. An If-None-Match decides alone, whatever the dates say. -/
def evaluateConditional (req : HttpMessage) (respEtag respLastModified : Option String) : Bool :=
  match req.getHeader "If-None-Match" with
  | some inm =>
    match respEtag with
    | some etag => trim inm == "*" || etagMatches inm etag
    | none => false
  | none => notNewer req respLastModified

end VarahaCache.Rfc2616
