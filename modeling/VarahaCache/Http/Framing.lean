import VarahaCache.Http.Wire

/-!
# The end of a message

What HTTP/1.1 says about where a message ends. A chunked body is given by
its parts and the bytes they make, so that nothing here reads anything: a
reader of such bodies is judged by whether it gets the parts back. Which
body a head announces is a function of all its field lines.
-/

namespace VarahaCache.Wire

open Text

/-! ## Chunked bodies -/

def crlf : List UInt8 := [13, 10]

def OnLine (bytes : List UInt8) : Prop := 10 ∉ bytes ∧ 13 ∉ bytes

def IsBlank (b : UInt8) : Prop := b = 32 ∨ b = 9

/-- What may follow the size of a chunk on its line: nothing, or extensions
behind a semicolon. -/
def IsExtension (bytes : List UInt8) : Prop :=
  bytes = [] ∨ ∃ blanks more, bytes = blanks ++ 59 :: more ∧ (∀ b ∈ blanks, IsBlank b) ∧ OnLine more

/-- A field line: a name, a colon and the rest. -/
def IsFieldLine (line : List UInt8) : Prop :=
  ∃ name value, line = asBytes name ++ 58 :: value ∧ isToken name = true ∧ OnLine value

/-- The line that begins a chunk: its size and what may follow that. -/
def sizeLine (size : List Char) (extension : List UInt8) : List UInt8 :=
  asBytes (String.ofList size) ++ extension ++ crlf

/-- A chunk but the last. Its size is in hexadecimal digits of either case,
with any zeros in front. -/
structure Chunk where
  size : List Char
  extension : List UInt8
  data : List UInt8
  size_digits : ∀ c ∈ size, (toDigit 16 c).isSome
  size_value : radixToNat 16 size = data.length
  extension_ok : IsExtension extension
  data_ne : data ≠ []

namespace Chunk

def bytes (c : Chunk) : List UInt8 := sizeLine c.size c.extension ++ c.data ++ crlf

theorem size_ne (c : Chunk) : c.size ≠ [] := by
  intro h
  have hvalue := c.size_value
  rw [h] at hvalue
  exact c.data_ne (List.length_eq_zero_iff.mp hvalue.symm)

end Chunk

/-- The chunks, the zeros of the last one behind the first and its extensions,
and the trailer. -/
structure ChunkedBody where
  chunks : List Chunk
  zeros : Nat
  extension : List UInt8
  trailer : List (List UInt8)
  extension_ok : IsExtension extension
  trailer_ok : ∀ line ∈ trailer, IsFieldLine line

namespace ChunkedBody

def lastSize (m : ChunkedBody) : List Char := List.replicate (m.zeros + 1) '0'

def trailerBytes (m : ChunkedBody) : List UInt8 := m.trailer.flatMap (· ++ crlf) ++ crlf

def bytes (m : ChunkedBody) : List UInt8 :=
  m.chunks.flatMap Chunk.bytes ++ sizeLine m.lastSize m.extension ++ m.trailerBytes

def body (m : ChunkedBody) : List UInt8 := m.chunks.flatMap Chunk.data

/-- Neither extensions nor a trailer. -/
structure IsPlain (m : ChunkedBody) : Prop where
  chunks : ∀ c ∈ m.chunks, c.extension = []
  last : m.extension = []
  trailer : m.trailer = []

theorem length_body_lt (m : ChunkedBody) : m.body.length < m.bytes.length := by
  have hchunks : ∀ chunks : List Chunk,
      (chunks.flatMap Chunk.data).length ≤ (chunks.flatMap Chunk.bytes).length := by
    intro chunks
    induction chunks with
    | nil => exact Nat.le_refl 0
    | cons c chunks ih =>
      simp only [List.flatMap_cons, List.length_append, Chunk.bytes]
      omega
  have hall := hchunks m.chunks
  simp only [body, bytes, sizeLine, crlf, List.length_append, List.length_cons, List.length_nil]
  omega

end ChunkedBody

/-! ## What a head announces -/

/-- The values of the field lines with a name, in order. -/
def fieldValues (name : String) (fields : List (String × List UInt8)) : List (List UInt8) :=
  (fields.filter fun field => eqIgnoreAsciiCase field.1 name).map Prod.snd

/-- Setting one header after another keeps the last value of each name. -/
theorem getHeader_copy_fields {m : HttpMessage} (hm : m.headers = .new)
    (fields : List (String × List UInt8)) (text : List UInt8 → String) (name : String) :
    (m.copyHeadersExcept [] (fields.map fun field => ⟨field.1, text field.2⟩)).getHeader name =
      (fieldValues name fields).getLast?.map text := by
  have hget : ∀ m : HttpMessage, m.getHeader name = (m.headers.getAll name).head? :=
    fun m => m.headers.get_eq_head? name
  have hsame : ((fun h : Header => h.nameEqIgnoreCase name) ∘
      fun field : String × List UInt8 => ⟨field.1, text field.2⟩) =
      fun field => eqIgnoreAsciiCase field.1 name := rfl
  have hnone : m.headers.getAll name = [] := by
    rw [hm]
    rfl
  rw [hget, HttpMessage.getAll_copyHeadersExcept [] _ _ List.not_mem_nil, fieldValues,
    List.filter_map, hsame, List.getLast?_map, List.getLast?_map, hnone]
  cases (fields.filter fun field => eqIgnoreAsciiCase field.1 name).getLast? <;> rfl

instance (b : UInt8) : Decidable (IsBlank b) := inferInstanceAs (Decidable (_ ∨ _))

/-- The elements of a list that may stand on several lines. -/
def elements (values : List (List UInt8)) : List (List UInt8) :=
  values.flatMap fun value =>
    (value.splitOn 44).map fun element => (element.dropWhile IsBlank).rdropWhile IsBlank

def isChunkedWord (element : List UInt8) : Bool :=
  (fromUtf8 element).any (eqIgnoreAsciiCase · "chunked")

/-- The last transfer coding is the chunked one. -/
def endsInChunked (fields : List (String × List UInt8)) : Bool :=
  ((elements (fieldValues "Transfer-Encoding" fields)).filter (· ≠ [])).getLast?.any isChunkedWord

/-- The number all elements are, if they are one. -/
def agreed : List (Option Nat) → Option Nat
  | some n :: more => if ∀ m ∈ more, m = some n then some n else none
  | _ => none

/-- Where the body ends, by the head: behind the last chunk, behind so many
bytes, or at once. -/
inductive Framing
  | chunked
  | length (size : Nat)
  | nothing
  | invalid
deriving DecidableEq

/-- The framing a head announces. A length next to the chunked coding counts
for nothing; lengths that are no number or differ are invalid. -/
def framing (fields : List (String × List UInt8)) : Framing :=
  if endsInChunked fields then .chunked
  else
    match fieldValues "Content-Length" fields with
    | [] => .nothing
    | values =>
      match agreed ((elements values).map fun element => (fromUtf8 element).bind digits) with
      | some size => .length size
      | none => .invalid

/-- The body and what follows the message, in a stream behind the head. -/
def Framing.Assigns (stream body rest : List UInt8) : Framing → Prop
  | .chunked => ∃ m : ChunkedBody, stream = m.bytes ++ rest ∧ body = m.body
  | .length size => stream = body ++ rest ∧ body.length = size
  | .nothing => stream = rest ∧ body = []
  | .invalid => False

/-! ## Responses -/

structure FieldLine where
  name : String
  value : List UInt8
  name_token : isToken name = true
  value_line : OnLine value

theorem isToken_contentLength : isToken "Content-Length" = true := by decide

theorem isToken_transferEncoding : isToken "Transfer-Encoding" = true := by decide

def FieldLine.bytes (f : FieldLine) : List UInt8 := asBytes (f.name ++ ":") ++ f.value ++ crlf

structure ResponseHead where
  code : Nat
  reason : List UInt8
  lines : List FieldLine
  code_digits : 100 ≤ code ∧ code < 1000
  reason_line : OnLine reason

namespace ResponseHead

def fields (h : ResponseHead) : List (String × List UInt8) := h.lines.map fun f => (f.name, f.value)

def statusLine (h : ResponseHead) : List UInt8 :=
  asBytes ("HTTP/1.1 " ++ toString h.code ++ " ") ++ h.reason ++ crlf

def bytes (h : ResponseHead) : List UInt8 := h.statusLine ++ h.lines.flatMap FieldLine.bytes ++ crlf

def allowsBody (h : ResponseHead) : Bool := 200 ≤ h.code && h.code ≠ 204 && h.code ≠ 304

/-- The framing of a response to a request. What ends with the connection
alone, becomes a tunnel or may not be sent is left out. -/
def framing (method : HttpMethod) (h : ResponseHead) : Framing :=
  if method = .head ∨ h.allowsBody = false then .nothing
  else if method = .connect ∧ h.code < 300 then .invalid
  else
    match Wire.framing h.fields with
    | .chunked => if fieldValues "Content-Length" h.fields = [] then .chunked else .invalid
    | .length size => .length size
    | .nothing | .invalid => .invalid

end ResponseHead

end VarahaCache.Wire
