import VarahaCache.Http.Framing
import VarahaCache.Lib.Outcome
import VarahaCache.Lib.Words

/-!
# Reading from a connection

`TransportError` and the reads of `rv-transport`, over the bytes the peer
sends until it closes the connection. A read returns what it took and the
bytes left. The chunked body is one loop for both ends: the server refuses a
bad size line and a body over its limit, the client does neither.
-/

namespace VarahaCache

open Text Lib

/-- The errors of the transport, and `panicked`: the task ends there, and
nobody is told why. -/
inductive TransportError
  | io (message : String)
  | httpParse (message : String)
  | connectionClosed
  | requestTooLarge
  | panicked
deriving DecidableEq, Repr

def TransportError.text : TransportError → String
  | .io message => "I/O error: " ++ message
  | .httpParse message => "HTTP parse error: " ++ message
  | .connectionClosed => "connection closed"
  | .requestTooLarge => "request too large"
  | .panicked => "capacity overflow"

/-- `read_line`: up to a line feed or the end of the stream. -/
def readLine (stream : List UInt8) : Except TransportError (String × List UInt8) :=
  match fromUtf8 (readUntil 10 stream).1 with
  | some line => .ok (line, (readUntil 10 stream).2)
  | none => .error (.io "stream did not contain valid UTF-8")

def readExact (length : Nat) (stream : List UInt8) :
    Except TransportError (List UInt8 × List UInt8) :=
  if length ≤ stream.length then .ok (stream.take length, stream.drop length)
  else .error (.io "early eof")

variable {stream : List UInt8} {line : String}

theorem readLine_ok {rest : List UInt8} (h : readLine stream = .ok (line, rest)) :
    asBytes line = (readUntil 10 stream).1 ∧ rest = (readUntil 10 stream).2 := by
  unfold readLine at h
  split at h
  · rename_i line' hline
    cases h
    exact ⟨fromUtf8_eq_some.mp hline, rfl⟩
  · cases h

theorem readLine_length {rest : List UInt8} (h : readLine stream = .ok (line, rest)) :
    (asBytes line).length + rest.length = stream.length := by
  obtain ⟨hline, rfl⟩ := readLine_ok h
  rw [hline, length_readUntil]

theorem readUntil_crlf {line : List UInt8} (hline : 10 ∉ line) (rest : List UInt8) :
    readUntil 10 (line ++ Wire.crlf ++ rest) = (line ++ Wire.crlf, rest) := by
  have hmem : (10 : UInt8) ∉ line ++ [13] := by simp [hline]
  have hread := readUntil_append_cons hmem rest
  simpa [Wire.crlf] using hread

theorem readLine_crlf {text : String} (htext : '\n' ∉ text.toList) (rest : List UInt8) :
    readLine (asBytes text ++ Wire.crlf ++ rest) = .ok (text ++ "\r\n", rest) := by
  have hutf8 : fromUtf8 (asBytes text ++ Wire.crlf) = some (text ++ "\r\n") :=
    fromUtf8_eq_some.mpr (asBytes_append text "\r\n")
  rw [readLine, readUntil_crlf (fun hmem => htext (lf_mem_asBytes.mp hmem)), hutf8]

theorem readLine_blank (rest : List UInt8) : readLine (Wire.crlf ++ rest) = .ok ("\r\n", rest) := by
  have hempty : '\n' ∉ "".toList := by decide
  exact readLine_crlf hempty rest

theorem readExact_ok {length : Nat} {bytes rest : List UInt8}
    (h : readExact length stream = .ok (bytes, rest)) :
    length ≤ stream.length ∧ bytes = stream.take length ∧ rest = stream.drop length := by
  unfold readExact at h
  split at h
  · rename_i hle
    cases h
    exact ⟨hle, rfl, rfl⟩
  · cases h

theorem readExact_append (bytes rest : List UInt8) :
    readExact bytes.length (bytes ++ rest) = .ok (bytes, rest) := by
  simp [readExact]

/-! ## Chunks -/

/-- `isize::MAX`: no vector is longer, and asking for a longer one panics. -/
def isizeMax : Nat := 2 ^ 63 - 1

/-- A round of the loop over the chunks finds the last one, or another. -/
inductive ChunkRead
  | last (rest : List UInt8)
  | data (chunk rest : List UInt8)
deriving DecidableEq

/-- One round of the loop. The sum with the length of the body wraps around.
-/
def readChunk (chunkSize : String → Except TransportError Nat) (maxSize : Option Nat)
    (body stream : List UInt8) : Except TransportError ChunkRead :=
  match readLine stream with
  | .error e => .error e
  | .ok (sizeLine, rest) =>
    match chunkSize sizeLine with
    | .error e => .error e
    | .ok 0 => (readLine rest).map fun trailer => .last trailer.2
    | .ok size =>
      if maxSize.any (· < Words.wrappingAdd 64 body.length size) then .error .requestTooLarge
      else if isizeMax < size then .error .panicked
      else
        match readExact size rest with
        | .error e => .error e
        | .ok (chunk, rest) =>
          if isizeMax < body.length + size then .error .panicked
          else (readExact 2 rest).map fun crlf => .data chunk crlf.2

variable {chunkSize : String → Except TransportError Nat} {maxSize : Option Nat} {read : ChunkRead}

theorem readChunk_ok {body : List UInt8} (h : readChunk chunkSize maxSize body stream = .ok read) :
    ∃ sizeLine size rest, readLine stream = .ok (sizeLine, rest) ∧
      chunkSize sizeLine = .ok size ∧
      ((size = 0 ∧ ∃ trailer rest', readLine rest = .ok (trailer, rest') ∧ read = .last rest') ∨
        (0 < size ∧ size + 2 ≤ rest.length ∧
          maxSize.any (· < Words.wrappingAdd 64 body.length size) = false ∧
          body.length + size ≤ isizeMax ∧
          read = .data (rest.take size) (rest.drop (size + 2)))) := by
  unfold readChunk at h
  split at h
  · cases h
  rename_i sizeLine rest hline
  split at h
  · cases h
  · rename_i hsize
    obtain ⟨⟨trailer, rest'⟩, htrailer, hread⟩ := exists_of_map_ok h
    exact ⟨sizeLine, 0, rest, hline, hsize, .inl ⟨rfl, trailer, rest', htrailer, hread.symm⟩⟩
  · rename_i size hne hsize
    split_ifs at h with hmax halloc hgrow
    · -- the chunk is read, and the body has no room for it
      split at h
      · cases h
      · cases h
    split at h
    · cases h
    rename_i chunk after hchunk
    obtain ⟨⟨crlf, after'⟩, hcrlf, hread⟩ := exists_of_map_ok h
    obtain ⟨hlen, rfl, rfl⟩ := readExact_ok hchunk
    obtain ⟨htwo, rfl, rfl⟩ := readExact_ok hcrlf
    rw [List.length_drop] at htwo
    refine ⟨sizeLine, size, rest, hline, hsize, .inr ⟨?_, by omega, by simpa using hmax,
      by omega, ?_⟩⟩
    · exact Nat.pos_of_ne_zero hne
    · rw [← hread, List.drop_drop]

theorem readChunk_length {body : List UInt8}
    (h : readChunk chunkSize maxSize body stream = .ok read) :
    match read with
    | .last rest => rest.length ≤ stream.length
    | .data _ rest => rest.length < stream.length := by
  obtain ⟨sizeLine, size, rest, hline, _, hread⟩ := readChunk_ok h
  have hfirst := readLine_length hline
  rcases hread with ⟨_, trailer, rest', htrailer, rfl⟩ | ⟨hpos, hlen, _, _, rfl⟩
  · have hsecond := readLine_length htrailer
    omega
  · simp only [List.length_drop]
    omega

/-- The chunks behind what is read already, up to the empty one and the line
behind it. -/
def readChunks (chunkSize : String → Except TransportError Nat) (maxSize : Option Nat)
    (body stream : List UInt8) : Except TransportError (List UInt8 × List UInt8) :=
  match _hread : readChunk chunkSize maxSize body stream with
  | .error e => .error e
  | .ok (.last rest) => .ok (body, rest)
  | .ok (.data chunk rest) => readChunks chunkSize maxSize (body ++ chunk) rest
termination_by stream.length
decreasing_by exact readChunk_length _hread

theorem readChunks_eq (chunkSize : String → Except TransportError Nat) (maxSize : Option Nat)
    (body stream : List UInt8) :
    readChunks chunkSize maxSize body stream =
      match readChunk chunkSize maxSize body stream with
      | .error e => .error e
      | .ok (.last rest) => .ok (body, rest)
      | .ok (.data chunk rest) => readChunks chunkSize maxSize (body ++ chunk) rest := by
  rw [readChunks]
  split
  all_goals
    rename_i hread
    rw [hread]

theorem readChunks_length {body bytes rest : List UInt8}
    (h : readChunks chunkSize maxSize body stream = .ok (bytes, rest)) :
    rest.length ≤ stream.length := by
  fun_induction readChunks chunkSize maxSize body stream with
  | case1 => cases h
  | case2 body stream rest' hread =>
    cases h
    exact readChunk_length hread
  | case3 body stream chunk rest' hread ih =>
    have hfirst : rest'.length < stream.length := readChunk_length hread
    exact (ih h).trans hfirst.le

end VarahaCache
