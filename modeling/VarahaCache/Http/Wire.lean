import VarahaCache.Http.Message
import VarahaCache.Lib.Lines

/-!
# Messages on the wire

What the bytes of an HTTP/1.1 connection mean to the other end: a head of
lines, and a body as long as the head says. None of this is the program's
code; the bytes the program writes are judged by it. `readHead_write` is the
link: a message with fields that fit on a line reads back as it was written.
-/

namespace VarahaCache.Wire

open Text

/-! ## Heads -/

def tokenChar (c : Char) : Bool := c.isAlphanum || c ∈ "!#$%&'*+-.^_`|~".toList

def isToken (s : String) : Bool := s ≠ "" && s.toList.all tokenChar

/-- The head of a message: its first line and its fields. -/
structure Head where
  start : String
  fields : HeaderMap
deriving DecidableEq

/-- A field line: a name, a colon and a value, which may have space around it. -/
def parseField (line : String) : Option Header :=
  (splitOnce ':' line).map fun field => ⟨field.1, trim field.2⟩

def parseHead (lines : List (List UInt8)) : Option Head :=
  match lines.mapM fromUtf8 with
  | some (start :: fields) => (fields.mapM parseField).map fun fields => ⟨start, ⟨fields⟩⟩
  | _ => none

def readHead (bytes : List UInt8) : Option (Head × List UInt8) := do
  let (lines, rest) ← Lib.readHead 13 10 bytes
  let head ← parseHead lines
  return (head, rest)

/-! ## Bodies -/

def digits (s : String) : Option Nat :=
  if s ≠ "" ∧ s.toList.all Char.isDigit then some (digitsToNat s.toList) else none

def takeBody (length : Nat) (bytes : List UInt8) : Option (List UInt8 × List UInt8) :=
  if length ≤ bytes.length then some (bytes.take length, bytes.drop length) else none

/-- The size line of a chunk, and what follows it. -/
def readSize (bytes : List UInt8) : Option (Nat × List UInt8) := do
  let (line, rest) ← Lib.readMarked 13 10 bytes
  let text ← fromUtf8 line
  let size ← (fromStrRadix 16 (2 ^ 64) text).toOption
  return (size, rest)

theorem readSize_length {bytes rest : List UInt8} {size : Nat}
    (h : readSize bytes = some (size, rest)) : rest.length < bytes.length := by
  obtain ⟨⟨line, rest'⟩, hline, h⟩ := Option.bind_eq_some_iff.mp h
  obtain ⟨text, _, h⟩ := Option.bind_eq_some_iff.mp h
  obtain ⟨size', _, h⟩ := Option.bind_eq_some_iff.mp h
  cases h
  exact Lib.readMarked_length _ _ hline

/-- A chunked body: chunks up to the empty one, then the trailer. -/
def readChunked (bytes : List UInt8) : Option (List UInt8 × List UInt8) :=
  match _h : readSize bytes with
  | none => none
  | some (0, rest) => (Lib.readHead 13 10 rest).map fun trailer => ([], trailer.2)
  | some (size, rest) =>
    if rest.length < size + 2 ∨ (rest.drop size).take 2 ≠ [13, 10] then none
    else (readChunked (rest.drop (size + 2))).map fun r => (rest.take size ++ r.1, r.2)
termination_by bytes.length
decreasing_by
  have := readSize_length _h
  simp only [List.length_drop]
  omega

/-- The body of a request: chunked, of the announced length, or none. -/
def readBody (head : Head) (bytes : List UInt8) : Option (List UInt8 × List UInt8) :=
  match head.fields.get "Transfer-Encoding", head.fields.get "Content-Length" with
  | some coding, _ => if eqIgnoreAsciiCase coding "chunked" then readChunked bytes else none
  | none, some length => (digits length).bind fun n => takeBody n bytes
  | none, none => some ([], bytes)

/-! ## Start lines -/

/-- The method and the target of an HTTP/1.1 request line. -/
def requestLine (line : String) : Option (String × String) :=
  match split ' ' line with
  | [method, target, version] =>
    if isToken method ∧ target ≠ "" ∧ version = "HTTP/1.1" then some (method, target) else none
  | _ => none

def statusCode (line : String) : Option Nat :=
  match splitn 3 ' ' line with
  | _ :: code :: _ => digits code
  | _ => none

/-- A response to a request of the given method, read by status and
Content-Length alone: the code, the body and what follows. -/
def readResponse (method : HttpMethod) (bytes : List UInt8) :
    Option ((Nat × List UInt8) × List UInt8) := do
  let (head, rest) ← readHead bytes
  let code ← statusCode head.start
  if method = .head ∨ code = 204 ∨ code = 304 then some ((code, []), rest)
  else do
    let length ← (head.fields.get "Content-Length").bind digits
    let (body, rest) ← takeBody length rest
    return ((code, body), rest)

/-! ## What is written reads back -/

theorem mapM_map_eq_some {α β γ : Type} {write : α → β} {read : β → Option γ} {back : α → γ}
    {l : List α} (h : ∀ a ∈ l, read (write a) = some (back a)) :
    (l.map write).mapM read = some (l.map back) := by
  induction l with
  | nil => rfl
  | cons a l ih =>
    obtain ⟨ha, hl⟩ := List.forall_mem_cons.mp h
    simp [ha, ih hl]

structure FitsLine (h : Header) : Prop where
  name : '\n' ∉ h.name.toList
  colon : ':' ∉ h.name.toList
  value : '\n' ∉ h.value.toList

/-- The line of a header, as the program writes it. -/
def fieldLine (h : Header) : String := h.name ++ ": " ++ h.value

/-- A header as it is read: the space around the value is not part of it. -/
def asRead (h : Header) : Header := ⟨h.name, trim h.value⟩

theorem parseField_fieldLine {h : Header} (hfits : FitsLine h) :
    parseField (fieldLine h) = some (asRead h) := by
  have hsplit : splitOnce ':' (fieldLine h) = some (h.name, String.ofList (' ' :: h.value.toList)) :=
    splitOnce_eq_some.mpr ⟨by simp [fieldLine], hfits.colon⟩
  have htrim : trim (String.ofList (' ' :: h.value.toList)) = trim h.value := by
    simp [trim, trimBoth, isWhitespace]
  rw [parseField, hsplit, Option.map_some, htrim, asRead]

theorem readHead_write {start : String} {headers : List Header} (hstart : start ≠ "")
    (hlf : '\n' ∉ start.toList) (hfits : ∀ h ∈ headers, FitsLine h) (rest : List UInt8) :
    readHead (asBytes (start ++ "\r\n") ++
        headers.flatMap (fun h => asBytes (fieldLine h ++ "\r\n")) ++ asBytes "\r\n" ++ rest) =
      some (⟨start, ⟨headers.map asRead⟩⟩, rest) := by
  have hcrlf : asBytes "\r\n" = [13, 10] := by decide
  have hlines : ∀ line ∈ asBytes start :: headers.map (fun h => asBytes (fieldLine h)),
      line ≠ [] ∧ 10 ∉ line := by
    intro line hline
    rcases List.mem_cons.mp hline with rfl | hline
    · exact ⟨fun h => hstart (asBytes_eq_nil.mp h), fun h => hlf (lf_mem_asBytes.mp h)⟩
    obtain ⟨h, hmem, rfl⟩ := List.mem_map.mp hline
    refine ⟨fun hnil => ?_, fun hmem' => ?_⟩
    · have hempty := congrArg String.toList (asBytes_eq_nil.mp hnil)
      simp [fieldLine] at hempty
    · have hchar := lf_mem_asBytes.mp hmem'
      simp [fieldLine, (hfits h hmem).name, (hfits h hmem).value] at hchar
  have hread := Lib.readHead_append (show (13 : UInt8) ≠ 10 by decide) hlines rest
  have hbytes : asBytes (start ++ "\r\n") ++
      headers.flatMap (fun h => asBytes (fieldLine h ++ "\r\n")) ++ asBytes "\r\n" ++ rest =
      (asBytes start :: headers.map (fun h => asBytes (fieldLine h))).flatMap (· ++ [13, 10]) ++
        13 :: 10 :: rest := by
    simp [asBytes_append, hcrlf, List.flatMap_map]
  have hutf8 : ((start :: headers.map fieldLine).map asBytes).mapM fromUtf8 =
      some ((start :: headers.map fieldLine).map id) :=
    mapM_map_eq_some fun s _ => fromUtf8_eq_some.mpr rfl
  have hfields : (headers.map fieldLine).mapM parseField = some (headers.map asRead) :=
    mapM_map_eq_some fun h hmem => parseField_fieldLine (hfits h hmem)
  have hlinesEq : asBytes start :: headers.map (fun h => asBytes (fieldLine h)) =
      (start :: headers.map fieldLine).map asBytes := by simp
  rw [hbytes, readHead, hread]
  simp only [Option.bind_eq_bind, Option.bind_some]
  rw [parseHead, hlinesEq, hutf8, List.map_id]
  simp [hfields]

theorem get_asRead (headers : List Header) (name : String) :
    (⟨headers.map asRead⟩ : HeaderMap).get name = ((⟨headers⟩ : HeaderMap).get name).map trim := by
  simp only [HeaderMap.get, List.find?_map, Option.map_map]
  rfl

theorem fitsLine_number {name : String} (hname : '\n' ∉ name.toList) (hcolon : ':' ∉ name.toList)
    (n : Nat) : FitsLine ⟨name, toString n⟩ :=
  ⟨hname, hcolon, notMem_toString (by decide) n⟩

theorem digits_toString (n : Nat) : digits (toString n) = some n := by
  have hne : toString n ≠ "" := fun h => toList_toString_ne_nil n (congrArg String.toList h)
  rw [digits, if_pos ⟨hne, List.all_eq_true.mpr fun _ hc => isDigit_of_mem_toString hc⟩,
    digitsToNat_toString]

theorem statusCode_write (version reason : String) (code : Nat) (hversion : ' ' ∉ version.toList) :
    statusCode (version ++ " " ++ toString code ++ " " ++ reason) = some code := by
  have hfirst : splitOnce ' ' (version ++ " " ++ toString code ++ " " ++ reason) =
      some (version, toString code ++ " " ++ reason) :=
    splitOnce_eq_some.mpr ⟨by simp, hversion⟩
  have hspace : ' ' ∉ (toString code).toList := notMem_toString (by decide) code
  have hsecond : splitOnce ' ' (toString code ++ " " ++ reason) = some (toString code, reason) :=
    splitOnce_eq_some.mpr ⟨by simp, hspace⟩
  simp only [statusCode, splitn, hfirst, hsecond, digits_toString]

theorem not_mem_of_isToken {s : String} (h : isToken s = true) {c : Char}
    (hc : tokenChar c = false) : c ∉ s.toList := by
  intro hmem
  simp only [isToken, Bool.and_eq_true, List.all_eq_true] at h
  rw [h.2 c hmem] at hc
  cases hc

theorem requestLine_write {method target : String} (hmethod : isToken method = true)
    (htarget : target ≠ "") (hspace : ' ' ∉ target.toList) :
    requestLine (method ++ " " ++ target ++ " " ++ "HTTP/1.1") = some (method, target) := by
  have hlists : List.splitOn ' ' ([' '].intercalate
      [method.toList, target.toList, "HTTP/1.1".toList]) = _ :=
    List.splitOn_intercalate ' '
      (by simp [hspace, not_mem_of_isToken hmethod (c := ' ') (by decide)]) (by simp)
  have hsplit : split ' ' (method ++ " " ++ target ++ " " ++ "HTTP/1.1") =
      [method, target, "HTTP/1.1"] := by
    have hchars : (method ++ " " ++ target ++ " " ++ "HTTP/1.1").toList =
        [' '].intercalate [method.toList, target.toList, "HTTP/1.1".toList] := by
      simp [List.intercalate, List.intersperse]
    rw [split, hchars, hlists]
    simp
  rw [requestLine, hsplit]
  simp [hmethod, htarget]

end VarahaCache.Wire
