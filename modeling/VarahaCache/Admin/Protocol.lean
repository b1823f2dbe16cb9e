import VarahaCache.Lib.Words
import VarahaCache.Text

/-!
# The wire protocol of the admin CLI

A response is a line with the status and the length of the body in bytes, and
the body on the lines behind it.
-/

namespace VarahaCache.Admin

open Text List
open String (toList_append)

inductive AdminError
  | commandFailed (message : String)
  | invalidCommand (message : String)
  | authError (message : String)
  | ioError (message : String)
  | internalError (message : String)
deriving DecidableEq

def AdminError.text : AdminError → String
  | .commandFailed message => "command failed: " ++ message
  | .invalidCommand message => "invalid command: " ++ message
  | .authError message => "authentication error: " ++ message
  | .ioError message => "I/O error: " ++ message
  | .internalError message => "internal error: " ++ message

inductive CliStatus
  | ok | syntaxError | unknownCommand | unimplemented | tooFewParams | truncated | notAvailable
  | error | close
deriving DecidableEq

def CliStatus.code : CliStatus → ℕ
  | .ok => 200
  | .syntaxError => 100
  | .unknownCommand => 101
  | .unimplemented => 102
  | .tooFewParams => 104
  | .truncated => 300
  | .notAvailable => 400
  | .error => 500
  | .close => 999

def CliStatus.fromCode : ℕ → Option CliStatus
  | 200 => some .ok
  | 100 => some .syntaxError
  | 101 => some .unknownCommand
  | 102 => some .unimplemented
  | 104 => some .tooFewParams
  | 300 => some .truncated
  | 400 => some .notAvailable
  | 500 => some .error
  | 999 => some .close
  | _ => none

@[simp] theorem CliStatus.fromCode_code (status : CliStatus) :
    CliStatus.fromCode status.code = some status := by
  cases status <;> rfl

structure CliResponse where
  status : CliStatus
  body : String
deriving DecidableEq

def CliResponse.ok (body : String) : CliResponse := ⟨.ok, body⟩

def encodeResponse (response : CliResponse) : List UInt8 :=
  let bodyBytes := asBytes response.body
  asBytes (toString response.status.code ++ " " ++ toString bodyBytes.length ++ "\n") ++ bodyBytes ++
    [10]

/-! ## Decoding -/

/-- The status and the length of the body, from the first line. -/
def decodeHeader (header : String) : Except AdminError (CliStatus × ℕ) :=
  match splitn 2 ' ' header with
  | [] => .error (.invalidCommand "missing status code")
  | [_] => .error (.invalidCommand "missing length")
  | statusStr :: lengthStr :: _ => do
    let statusCode ← (parseU16 statusStr).mapError fun e =>
      .invalidCommand ("invalid status code: " ++ e.text)
    let bodyLen ← (usizeFromStr lengthStr).mapError fun e =>
      .invalidCommand ("invalid body length: " ++ e.text)
    match CliStatus.fromCode statusCode with
    | some status => .ok (status, bodyLen)
    | none => .error (.invalidCommand ("unknown status code: " ++ toString statusCode))

/-- `&text[start..end]`, `start` being a character's; `none` is a panic. -/
def slice (text : String) (start stop : ℕ) : Option String :=
  if start ≤ stop then fromUtf8 (((asBytes text).drop start).take (stop - start)) else none

/-- `decode_response`; `none` is a panic. The end of the body is a `usize`;
the text of an error in UTF-8 is a parameter. -/
def decodeResponse (utf8Error : List UInt8 → String) (data : List UInt8) :
    Option (Except AdminError CliResponse) :=
  match fromUtf8 data with
  | none => some (.error (.invalidCommand ("invalid UTF-8: " ++ utf8Error data)))
  | some text =>
    match splitOnce '\n' text with
    | none => some (.error (.invalidCommand "missing header newline"))
    | some (header, _) =>
      match decodeHeader header with
      | .error e => some (.error e)
      | .ok (status, bodyLen) =>
        let bodyStart := (asBytes header).length + 1
        let bodyEnd := Words.wrappingAdd 64 bodyStart bodyLen
        if data.length < bodyEnd then
          some (.error (.invalidCommand ("body length " ++ toString bodyLen ++
            " exceeds available data (" ++ toString (data.length - bodyStart) ++ ")")))
        else (slice text bodyStart bodyEnd).map fun body => .ok ⟨status, body⟩

def headerLine (code length : ℕ) : String := toString code ++ " " ++ toString length

/-- A response as it goes over the wire, whatever its code. -/
def wireResponse (code : ℕ) (body : String) : List UInt8 :=
  asBytes (headerLine code (asBytes body).length) ++ 10 :: (asBytes body ++ [10])

theorem encodeResponse_eq (response : CliResponse) :
    encodeResponse response = wireResponse response.status.code response.body := by
  rw [encodeResponse, wireResponse, headerLine]
  simp only [asBytes_append, append_assoc]
  rfl

variable (code length : ℕ)

theorem splitn_headerLine :
    splitn 2 ' ' (headerLine code length) = [toString code, toString length] := by
  have hsplit : splitOnce ' ' (headerLine code length) = some (toString code, toString length) := by
    rw [splitOnce_eq_some, headerLine, toList_append, toList_append, append_assoc]
    exact ⟨rfl, notMem_toString (by decide) code⟩
  rw [splitn, hsplit]
  rfl

theorem lf_notMem_headerLine : '\n' ∉ (headerLine code length).toList := by
  rw [headerLine, toList_append, toList_append, mem_append, mem_append,
    not_or, not_or]
  exact ⟨⟨notMem_toString (by decide) code, by decide⟩, notMem_toString (by decide) length⟩

theorem decodeHeader_headerLine {code length : ℕ} (hcode : code < 2 ^ 16)
    (hlength : length < 2 ^ 64) :
    decodeHeader (headerLine code length) =
      match CliStatus.fromCode code with
      | some status => .ok (status, length)
      | none => .error (.invalidCommand ("unknown status code: " ++ toString code)) := by
  rw [decodeHeader, splitn_headerLine]
  simp only [parseU16_toString hcode, usizeFromStr, fromStrRadix_toString hlength]
  rfl

theorem wireResponse_eq_asBytes (code : ℕ) (body : String) :
    wireResponse code body =
      asBytes (headerLine code (asBytes body).length ++ "\n" ++ body ++ "\n") := by
  simp only [asBytes_append, append_assoc]
  rfl

theorem splitOnce_headerLine (rest : String) :
    splitOnce '\n' (headerLine code length ++ "\n" ++ rest) =
      some (headerLine code length, rest) := by
  rw [splitOnce_eq_some, toList_append, toList_append, append_assoc]
  exact ⟨rfl, lf_notMem_headerLine code length⟩

theorem slice_append (before body after : String) :
    slice (before ++ body ++ after) (asBytes before).length
      ((asBytes before).length + (asBytes body).length) = some body := by
  rw [slice, if_pos (Nat.le_add_right _ _), Nat.add_sub_cancel_left, asBytes_append, asBytes_append,
    append_assoc, drop_left, take_left, fromUtf8_eq_some]

theorem length_headerLine_le {code length : ℕ} (hcode : code < 2 ^ 16) (hlength : length < 2 ^ 64) :
    (asBytes (headerLine code length)).length ≤ 104 := by
  have hbytes := length_asBytes_le (headerLine code length)
  have hstatus : (toString code).toList.length ≤ 5 :=
    (Nat.length_repr_le_iff (by decide)).mpr (hcode.trans (by norm_num))
  have hnumber : (toString length).toList.length ≤ 20 :=
    (Nat.length_repr_le_iff (by decide)).mpr (hlength.trans (by norm_num))
  have hblank : " ".toList.length = 1 := rfl
  simp only [headerLine, toList_append, length_append] at hbytes ⊢
  omega

/-- A response reads back when its code is known, and else is refused,
whatever follows. -/
theorem decodeResponse_wireResponse (utf8Error : List UInt8 → String) {code : ℕ} {body : String}
    (hcode : code < 2 ^ 16) (rest : String)
    (hfits : (wireResponse code body ++ asBytes rest).length < 2 ^ 64) :
    decodeResponse utf8Error (wireResponse code body ++ asBytes rest) =
      some (match CliStatus.fromCode code with
        | some status => .ok ⟨status, body⟩
        | none => .error (.invalidCommand ("unknown status code: " ++ toString code))) := by
  generalize hlength : (asBytes body).length = length
  have htext : wireResponse code body ++ asBytes rest =
      asBytes (headerLine code length ++ "\n" ++ body ++ ("\n" ++ rest)) := by
    rw [wireResponse_eq_asBytes, hlength, ← asBytes_append, String.append_assoc]
  have hsize : (wireResponse code body ++ asBytes rest).length =
      (asBytes (headerLine code length)).length + 1 + length + 1 + (asBytes rest).length := by
    rw [wireResponse, hlength]
    simp only [length_append, length_cons, length_nil, hlength]
    omega
  have hstart : (asBytes (headerLine code length ++ "\n")).length =
      (asBytes (headerLine code length)).length + 1 := by
    rw [asBytes_append, length_append]
    rfl
  have hbody := slice_append (headerLine code length ++ "\n") body ("\n" ++ rest)
  rw [hstart, hlength] at hbody
  have hsplit := splitOnce_headerLine code length (body ++ ("\n" ++ rest))
  rw [← String.append_assoc] at hsplit
  rw [decodeResponse, fromUtf8_eq_some.mpr htext.symm]
  simp only [hsplit, decodeHeader_headerLine hcode (show length < 2 ^ 64 by omega)]
  cases CliStatus.fromCode code with
  | none => rfl
  | some status =>
    simp only
    rw [Words.wrappingAdd_of_lt (by omega), if_neg (by omega), hbody]
    rfl

/-- **Responses survive the wire**, any text behind them. -/
theorem decodeResponse_encodeResponse (utf8Error : List UInt8 → String) (response : CliResponse)
    (rest : String) (hfits : (encodeResponse response ++ asBytes rest).length < 2 ^ 64) :
    decodeResponse utf8Error (encodeResponse response ++ asBytes rest) = some (.ok response) := by
  have hcode : response.status.code < 2 ^ 16 := by
    cases response.status <;> decide
  rw [encodeResponse_eq] at hfits ⊢
  rw [decodeResponse_wireResponse utf8Error hcode rest hfits, CliStatus.fromCode_code]

theorem decodeResponse_encodeResponse_accent :
    decodeResponse (fun _ => "") (encodeResponse ⟨.error, "é\n200 1\n"⟩ ++ asBytes "ü") =
      some (.ok ⟨.error, "é\n200 1\n"⟩) :=
  decodeResponse_encodeResponse (fun _ => "") ⟨.error, "é\n200 1\n"⟩ "ü" (by decide +kernel)

/-! ## Panics -/

/-- The length neither overflows nor ends inside a character. -/
def LengthOk (data : List UInt8) : Prop :=
  ∀ text header rest status bodyLen, fromUtf8 data = some text →
    splitOnce '\n' text = some (header, rest) → decodeHeader header = .ok (status, bodyLen) →
    let bodyStart := (asBytes header).length + 1
    bodyStart + bodyLen < 2 ^ 64 ∧
      (bodyStart + bodyLen ≤ data.length → (fromUtf8 ((data.drop bodyStart).take bodyLen)).isSome)

theorem decodeHeader_lt {header : String} {status : CliStatus} {bodyLen : ℕ}
    (h : decodeHeader header = .ok (status, bodyLen)) : bodyLen < 2 ^ 64 := by
  rw [decodeHeader] at h
  split at h
  · cases h
  · cases h
  · rename_i statusStr lengthStr _ _
    cases hcode : parseU16 statusStr with
    | error e => simp [hcode, Except.mapError, bind, Except.bind] at h
    | ok code =>
      cases hread : usizeFromStr lengthStr with
      | error e => simp [hcode, hread, Except.mapError, bind, Except.bind] at h
      | ok n =>
        simp only [hcode, hread, Except.mapError, bind, Except.bind] at h
        split at h
        · cases h
          exact (fromStrRadix_ok hread).2
        · cases h

/-- Behind the header: the sum wraps to an end before the start, or it does
not. -/
theorem isSome_slice_iff {text : String} {start length : ℕ} (hstart : start ≤ (asBytes text).length)
    (hsize : (asBytes text).length < 2 ^ 64) (hlength : length < 2 ^ 64) :
    (if (asBytes text).length < Words.wrappingAdd 64 start length then True
      else (slice text start (Words.wrappingAdd 64 start length)).isSome) ↔
    start + length < 2 ^ 64 ∧ (start + length ≤ (asBytes text).length →
      (fromUtf8 (((asBytes text).drop start).take length)).isSome) := by
  rcases Nat.lt_or_ge (start + length) (2 ^ 64) with hlt | hge
  · rw [Words.wrappingAdd_of_lt hlt, slice, if_pos (Nat.le_add_right _ _), Nat.add_sub_cancel_left]
    split
    · exact iff_of_true trivial ⟨hlt, fun hle => by omega⟩
    · next hle => exact ⟨fun h => ⟨hlt, fun _ => h⟩, fun h => h.2 (Nat.le_of_not_lt hle)⟩
  have hwraps : Words.wrappingAdd 64 start length = start + length - 2 ^ 64 := by
    rw [Words.wrappingAdd, Nat.mod_eq_sub_mod hge, Nat.mod_eq_of_lt (by omega)]
  rw [hwraps, if_neg (by omega), slice, if_neg (by omega)]
  exact iff_of_false (by simp) fun h => absurd h.1 (Nat.not_lt.mpr hge)

/-- **`decode_response` panics EXACTLY when** the header is read and its length is
not in order. -/
theorem decodeResponse_isSome_iff (utf8Error : List UInt8 → String) {data : List UInt8}
    (hsize : data.length < 2 ^ 64) : (decodeResponse utf8Error data).isSome ↔ LengthOk data := by
  rw [decodeResponse]
  cases htext : fromUtf8 data with
  | none =>
    refine iff_of_true rfl fun _ _ _ _ _ htext' => ?_
    rw [htext] at htext'
    cases htext'
  | some text =>
    obtain rfl := fromUtf8_eq_some.mp htext
    cases hsplit : splitOnce '\n' text with
    | none =>
      refine iff_of_true (by simp [hsplit]) fun _ _ _ _ _ htext' hsplit' => ?_
      cases htext.symm.trans htext'
      rw [hsplit] at hsplit'
      cases hsplit'
    | some parts =>
      obtain ⟨header, rest⟩ := parts
      cases hheader : decodeHeader header with
      | error e =>
        refine iff_of_true (by simp [hsplit, hheader]) fun _ _ _ _ _ htext' hsplit' hheader' => ?_
        cases htext.symm.trans htext'
        cases hsplit.symm.trans hsplit'
        cases hheader.symm.trans hheader'
      | ok read =>
        obtain ⟨status, bodyLen⟩ := read
        have hstart : (asBytes header).length + 1 ≤ (asBytes text).length := by
          have hbytes : text = header ++ "\n" ++ rest := by
            rw [← String.toList_inj, (splitOnce_eq_some.mp hsplit).1, toList_append,
              toList_append, append_assoc]
            rfl
          rw [hbytes, asBytes_append, asBytes_append, length_append, length_append]
          exact Nat.le_add_right _ _
        have hiff := isSome_slice_iff hstart hsize (decodeHeader_lt hheader)
        simp only [hsplit, hheader]
        constructor
        · intro h _ _ _ _ _ htext' hsplit' hheader'
          cases htext.symm.trans htext'
          cases hsplit.symm.trans hsplit'
          cases hheader.symm.trans hheader'
          refine hiff.mp ?_
          split at h
          · next hshort => exact (if_pos hshort).mpr trivial
          · next hlong => simpa [hlong] using h
        · intro h
          have hslice := hiff.mpr (h text header rest status bodyLen htext hsplit hheader)
          split
          · rfl
          · next hlong => simpa [hlong] using hslice

theorem decodeResponse_isSome_iff_pong :
    (decodeResponse (fun _ => "") (asBytes "200 4\nPONG\n")).isSome ↔
      LengthOk (asBytes "200 4\nPONG\n") :=
  decodeResponse_isSome_iff (fun _ => "") (by decide +kernel)

/-- A length that overflows, and one that ends inside a character. -/
theorem decodeResponse_panics :
    decodeResponse (fun _ => "") (asBytes "200 18446744073709551615\n") = none ∧
      decodeResponse (fun _ => "") (asBytes "200 1\né") = none := by
  decide +kernel

end VarahaCache.Admin
