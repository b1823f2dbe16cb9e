import VarahaCache.Transport.Stream

/-!
# Chunks on the wire

What the loop over the chunks makes of the lines of a chunked body. A size
alone on its line is read as it is meant; behind one with extensions there is
a semicolon, and no number is read.
-/

namespace VarahaCache

open Text Wire

theorem lf_notMem_extension {extension : List UInt8} (h : IsExtension extension) :
    10 ∉ extension := by
  rcases h with rfl | ⟨blanks, more, rfl, hblanks, hmore⟩
  · simp
  intro hmem
  rcases List.mem_append.mp hmem with hmem | hmem
  · rcases hblanks _ hmem with hb | hb
    · exact absurd hb (by decide)
    · exact absurd hb (by decide)
  rcases List.mem_cons.mp hmem with hb | hmem
  · exact absurd hb (by decide)
  · exact hmore.1 hmem

theorem lf_notMem_fieldLine {line : List UInt8} (h : IsFieldLine line) : 10 ∉ line := by
  obtain ⟨name, value, rfl, htoken, hvalue⟩ := h
  intro hmem
  rcases List.mem_append.mp hmem with hmem | hmem
  · exact not_mem_of_isToken htoken (by decide) (lf_mem_asBytes.mp hmem)
  rcases List.mem_cons.mp hmem with hb | hmem
  · exact absurd hb (by decide)
  · exact hvalue.1 hmem

section SizeLine

variable {size : List Char} {extension : List UInt8} (hsize : ∀ c ∈ size, (toDigit 16 c).isSome)
include hsize

theorem lf_notMem_digits : '\n' ∉ (String.ofList size).toList := by
  intro hmem
  rw [String.toList_ofList] at hmem
  exact absurd (toDigit_isSome (hsize _ hmem)).1 (by decide)

theorem readUntil_sizeLine (hextension : IsExtension extension) (rest : List UInt8) :
    Lib.readUntil 10 (sizeLine size extension ++ rest) = (sizeLine size extension, rest) := by
  refine readUntil_crlf ?_ rest
  rw [List.mem_append, not_or]
  exact ⟨fun hmem => lf_notMem_digits hsize (lf_mem_asBytes.mp hmem), lf_notMem_extension hextension⟩

theorem readLine_size (rest : List UInt8) :
    readLine (sizeLine size [] ++ rest) = .ok (String.ofList size ++ "\r\n", rest) := by
  rw [sizeLine, List.append_nil]
  exact readLine_crlf (lf_notMem_digits hsize) rest

theorem fromStrRadix_size (hne : size ≠ []) :
    fromStrRadix 16 (2 ^ 64) (trim (String.ofList size ++ "\r\n")) =
      if radixToNat 16 size < 2 ^ 64 then .ok (radixToNat 16 size) else .error .posOverflow := by
  have hline : String.ofList size ++ "\r\n" = String.ofList (size ++ ['\r', '\n']) := by
    rw [String.ofList_append]
  have hblank : ∀ c ∈ ['\r', '\n'], isWhitespace c = true := by
    intro c hc
    rcases List.mem_pair.mp hc with rfl | rfl
    · rfl
    · rfl
  rw [hline, trim_append_blank (fun c hc => (toDigit_isSome (hsize c hc)).1) hblank,
    fromStrRadix_of_digits hne hsize]

theorem fromStrRadix_extended (hextension : IsExtension extension) (hne : extension ≠ [])
    {line : String} {rest rest' : List UInt8}
    (h : readLine (sizeLine size extension ++ rest) = .ok (line, rest')) :
    rest' = rest ∧ ∃ e, fromStrRadix 16 (2 ^ 64) (trim line) = .error e := by
  obtain ⟨hline, hrest⟩ := readLine_ok h
  rw [readUntil_sizeLine hsize hextension] at hline hrest
  refine ⟨hrest, ?_⟩
  have hsemicolon : ';' ∈ line.toList := by
    obtain ⟨blanks, more, hbytes, _⟩ := hextension.resolve_left hne
    have hmem : 59 ∈ asBytes line := by
      rw [hline, sizeLine, hbytes]
      simp
    rw [asBytes_eq_flatMap, List.mem_flatMap] at hmem
    obtain ⟨c, hc, hbyte⟩ := hmem
    rw [mem_utf8EncodeChar (by decide)] at hbyte
    rwa [← Char.toNat_inj.mp (show c.toNat = ';'.toNat from hbyte)]
  cases hread : fromStrRadix 16 (2 ^ 64) (trim line) with
  | error e => exact ⟨e, rfl⟩
  | ok n =>
    rcases (fromStrRadix_ok hread).1 ';' (mem_trim_of_mem hsemicolon (by decide)) with hc | hc
    · exact absurd hc (by decide)
    · exact absurd rfl (toDigit_isSome hc).2.2.2.1

end SizeLine

theorem digits_lastSize (m : ChunkedBody) : ∀ c ∈ m.lastSize, (toDigit 16 c).isSome := by
  intro c hc
  rw [List.eq_of_mem_replicate hc]
  decide

theorem value_lastSize (m : ChunkedBody) : radixToNat 16 m.lastSize = 0 := by
  have hzeros : ∀ n, radixToNat 16 (List.replicate n '0') = 0 := by
    intro n
    induction n with
    | zero => rfl
    | succ n ih => exact ih
  exact hzeros _

theorem lastSize_ne (m : ChunkedBody) : m.lastSize ≠ [] := by simp [ChunkedBody.lastSize]

section Rounds

variable {chunkSize : String → Except TransportError Nat} {maxSize : Option Nat}
  {body : List UInt8}

theorem readChunk_of_size {c : Chunk} (hplain : c.extension = [])
    (hsize : chunkSize (String.ofList c.size ++ "\r\n") = .ok c.data.length) (rest : List UInt8) :
    readChunk chunkSize maxSize body (c.bytes ++ rest) =
      if maxSize.any (· < Words.wrappingAdd 64 body.length c.data.length) then
        .error .requestTooLarge
      else if isizeMax < body.length + c.data.length then .error .panicked
      else .ok (.data c.data rest) := by
  have hbytes : c.bytes ++ rest = sizeLine c.size [] ++ (c.data ++ (crlf ++ rest)) := by
    simp [Chunk.bytes, hplain]
  have hpos : c.data.length ≠ 0 := fun h => c.data_ne (List.length_eq_zero_iff.mp h)
  have hcrlf : readExact 2 (crlf ++ rest) = .ok (crlf, rest) := readExact_append Wire.crlf rest
  rw [hbytes, readChunk, readLine_size c.size_digits]
  dsimp only
  rw [hsize]
  split
  · rename_i heq
    cases heq
  · rename_i heq
    exact absurd (Except.ok.inj heq) hpos
  · rename_i size hne heq
    obtain rfl : c.data.length = size := Except.ok.inj heq
    rw [readExact_append]
    dsimp only
    rw [hcrlf]
    by_cases halloc : isizeMax < c.data.length
    · rw [if_pos halloc, if_pos (show isizeMax < body.length + c.data.length by omega)]
    · rw [if_neg halloc]
      rfl

theorem readChunk_of_zero {stream rest : List UInt8} {line : String}
    (hline : readLine stream = .ok (line, rest)) (hsize : chunkSize line = .ok 0) :
    readChunk chunkSize maxSize body stream =
      (readLine rest).map fun trailer => .last trailer.2 := by
  rw [readChunk, hline]
  simp only [hsize]

end Rounds

end VarahaCache
