import VarahaCache.Transport.Backend
import VarahaCache.Transport.Chunks

/-!
# The head of a response

What the client makes of the head of an HTTP/1.1 response. It reads lines of
text, so that a head with other bytes in it is an error; of the field lines
with one name it keeps the last.
-/

namespace VarahaCache

open Text List Wire
open String (toList_append ofList toList_ofList)

theorem isWhitespace_of_tokenChar {c : Char} (h : tokenChar c = true) : isWhitespace c = false := by
  rw [tokenChar, Bool.or_eq_true] at h
  rcases h with h | h
  · have hval : (65 ≤ c.val.toNat ∧ c.val.toNat ≤ 90) ∨ (97 ≤ c.val.toNat ∧ c.val.toNat ≤ 122) ∨
        (48 ≤ c.val.toNat ∧ c.val.toNat ≤ 57) := by
      simp only [Char.isAlphanum, Char.isAlpha, Char.isUpper, Char.isLower, Char.isDigit,
        Bool.or_eq_true, Bool.and_eq_true, decide_eq_true_eq, UInt32.le_iff_toNat_le] at h
      simpa [or_assoc] using h
    simp only [isWhitespace, UInt32.le_iff_toNat_le, ← UInt32.toNat_inj, UInt32.reduceToNat,
      decide_eq_false_iff_not]
    omega
  · simp at h
    rcases h with rfl | rfl | rfl | rfl | rfl | rfl | rfl | rfl | rfl | rfl | rfl | rfl | rfl |
      rfl | rfl
    all_goals rfl

/-! ## Lines -/

theorem fromUtf8_line (start : String) (value : List UInt8) :
    fromUtf8 (asBytes start ++ value ++ crlf) =
      (fromUtf8 value).map fun s => start ++ s ++ "\r\n" := by
  cases hvalue : fromUtf8 value with
  | some s =>
    rw [Option.map_some, fromUtf8_eq_some, asBytes_append, asBytes_append,
      fromUtf8_eq_some.mp hvalue]
    rfl
  | none =>
    cases hline : fromUtf8 (asBytes start ++ value ++ crlf) with
    | none => rfl
    | some line =>
      have hbytes := fromUtf8_eq_some.mp hline
      rw [append_assoc] at hbytes
      obtain ⟨more, _, hmore⟩ := asBytes_eq_append hbytes
      have hlf : asBytes more = (value ++ [13]) ++ [UInt8.ofNat '\n'.toNat] := by
        rw [hmore, append_assoc]
        rfl
      obtain ⟨text, _, htext⟩ := asBytes_eq_concat (by decide) hlf
      obtain ⟨s, _, hs⟩ := asBytes_eq_concat (c := '\r') (by decide) htext
      rw [fromUtf8_eq_some.mpr hs] at hvalue
      cases hvalue

variable {value : List UInt8} {name : String}

theorem readLine_text {start : String} (hstart : '\n' ∉ start.toList)
    (hvalue : 10 ∉ value) (rest : List UInt8) :
    readLine (asBytes start ++ value ++ crlf ++ rest) =
      match fromUtf8 value with
      | some s => .ok (start ++ s ++ "\r\n", rest)
      | none => .error (.io "stream did not contain valid UTF-8") := by
  have hline : 10 ∉ asBytes start ++ value := by
    rw [mem_append, not_or]
    exact ⟨fun hmem => hstart (lf_mem_asBytes.mp hmem), hvalue⟩
  rw [readLine, readUntil_crlf hline, fromUtf8_line]
  cases fromUtf8 value <;> rfl

/-! ## The status line -/

theorem splitn_statusLine (code : Nat) (reason : String) :
    ∃ more, splitn 3 ' ' (trimEnd ("HTTP/1.1 " ++ toString code ++ " " ++ reason ++ "\r\n")) =
      "HTTP/1.1" :: toString code :: more := by
  have hblank : ' ' ∉ (toString code).toList := notMem_toString (by decide) code
  obtain ⟨init, last, hdigits⟩ := (eq_nil_or_concat' (toString code).toList).resolve_left
    (toList_toString_ne_nil code)
  have hlast : isWhitespace last = false := by
    refine isWhitespace_of_isDigit (isDigit_of_mem_toString (n := code) ?_)
    rw [hdigits]
    simp
  obtain ⟨kept, hkept, htrim⟩ := trimEnd_append (a := "HTTP/1.1 ".toList ++ init)
    (b := ' ' :: reason.toList ++ ['\r', '\n']) hlast
  have hline : "HTTP/1.1 " ++ toString code ++ " " ++ reason ++ "\r\n" =
      ofList ("HTTP/1.1 ".toList ++ init ++ last :: (' ' :: reason.toList ++ ['\r', '\n'])) := by
    refine String.toList_injective ?_
    rw [toList_append, toList_append, toList_append, toList_append,
      hdigits, toList_ofList]
    simp
  have hrest : "HTTP/1.1 ".toList ++ init ++ last :: kept =
      "HTTP/1.1".toList ++ ' ' :: ((toString code).toList ++ kept) := by
    rw [hdigits]
    simp
  have hfirst : splitOnce ' ' (ofList ("HTTP/1.1 ".toList ++ init ++ last :: kept)) =
      some ("HTTP/1.1", ofList ((toString code).toList ++ kept)) := by
    refine splitOnce_eq_some.mpr ⟨toList_ofList.trans (hrest.trans ?_), by decide⟩
    exact congrArg (fun l => "HTTP/1.1".toList ++ ' ' :: l) toList_ofList.symm
  rw [hline, htrim, splitn, hfirst]
  dsimp only
  rw [splitn]
  cases kept with
  | nil =>
    rw [append_nil, String.ofList_toList, splitOnce_eq_none.mpr hblank]
    exact ⟨[], rfl⟩
  | cons c kept =>
    obtain rfl : c = ' ' := (cons_prefix_cons.mp hkept).1
    have hsecond : splitOnce ' ' (ofList ((toString code).toList ++ ' ' :: kept)) =
        some (toString code, ofList kept) := by
      refine splitOnce_eq_some.mpr ⟨?_, hblank⟩
      rw [toList_ofList, toList_ofList]
    rw [hsecond]
    exact ⟨_, rfl⟩

/-! ## The header lines -/

theorem readResponseHeaders_eq (response : HttpMessage) (stream : List UInt8) :
    readResponseHeaders response stream =
      match readLine stream with
      | .error e => .error e
      | .ok (line, rest) =>
        if lineText line = "" then .ok (response, rest)
        else readResponseHeaders (setHeaderLine response (lineText line)) rest := by
  rw [readResponseHeaders]
  split
  · rename_i hline
    rw [hline]
  rename_i line rest hline
  rw [hline]
  by_cases hend : line = ""
  · subst hend
    rfl
  · rw [dif_neg hend]

theorem lineText_field {text : String} (hcr : '\r' ∉ text.toList) (hlf : '\n' ∉ text.toList) :
    lineText (text ++ "\r\n") = text := by
  have honce : ¬ "\r\n".toList <:+ text.toList := fun hsuffix => hcr (hsuffix.subset (by decide))
  rw [lineText, trimEndMatchesStr_append (by decide) honce, trimEndMatches_eq_self hlf]

theorem setHeaderLine_field (response : HttpMessage)
    (hname : isToken name = true) (value : String) :
    setHeaderLine response (name ++ ":" ++ value) = response.setHeader name (trim value) := by
  have hsplit : splitOnce ':' (name ++ ":" ++ value) = some (name, value) :=
    splitOnce_eq_some.mpr ⟨by simp, not_mem_of_isToken hname (by decide)⟩
  have hblank : ∀ c ∈ name.toList, isWhitespace c = false := by
    intro c hc
    rw [isToken, Bool.and_eq_true, all_eq_true] at hname
    exact isWhitespace_of_tokenChar (hname.2 c hc)
  rw [setHeaderLine, hsplit]
  dsimp only
  rw [trim_eq_self hblank]

theorem notMem_of_fromUtf8 {s : String} (h : fromUtf8 value = some s)
    {c : Char} (hc : c.toNat < 128) (hmem : UInt8.ofNat c.toNat ∉ value) : c ∉ s.toList := by
  intro hchar
  have hsmall : (UInt8.ofNat c.toNat).toNat = c.toNat := by
    rw [UInt8.toNat_ofNat']
    omega
  have hbyte : UInt8.ofNat c.toNat < 128 := by
    rw [UInt8.lt_iff_toNat_lt, hsmall]
    exact hc
  rw [← fromUtf8_eq_some.mp h, asBytes_eq_flatMap, mem_flatMap] at hmem
  exact hmem ⟨c, hchar, (mem_utf8EncodeChar hbyte).mpr hsmall.symm⟩

theorem readResponseHeaders_lines (lines : List FieldLine) (response : HttpMessage)
    (tail : List UInt8) :
    readResponseHeaders response (lines.flatMap FieldLine.bytes ++ (crlf ++ tail)) =
      if ∀ f ∈ lines, (fromUtf8 f.value).isSome then
        .ok (response.copyHeadersExcept []
          (lines.map fun f => ⟨f.name, trim ((fromUtf8 f.value).getD "")⟩), tail)
      else .error (.io "stream did not contain valid UTF-8") := by
  induction lines generalizing response with
  | nil =>
    have hempty : lineText "\r\n" = "" := by decide
    rw [flatMap_nil, nil_append, readResponseHeaders_eq, readLine_blank]
    simp [hempty, HttpMessage.copyHeadersExcept]
  | cons f lines ih =>
    have hbytes : (f :: lines).flatMap FieldLine.bytes ++ (crlf ++ tail) =
        asBytes (f.name ++ ":") ++ f.value ++ crlf ++
          (lines.flatMap FieldLine.bytes ++ (crlf ++ tail)) := by
      simp [FieldLine.bytes]
    have hname : '\n' ∉ (f.name ++ ":").toList := by
      rw [toList_append, mem_append, not_or]
      exact ⟨not_mem_of_isToken f.name_token (by decide), by decide⟩
    rw [hbytes, readResponseHeaders_eq, readLine_text hname f.value_line.1]
    cases hvalue : fromUtf8 f.value with
    | none => simp [hvalue]
    | some s =>
      have hcr : '\r' ∉ (f.name ++ ":" ++ s).toList := by
        rw [toList_append, toList_append, mem_append, mem_append, not_or, not_or]
        exact ⟨⟨not_mem_of_isToken f.name_token (by decide), by decide⟩,
          notMem_of_fromUtf8 hvalue (by decide) f.value_line.2⟩
      have hlf : '\n' ∉ (f.name ++ ":" ++ s).toList := by
        rw [toList_append, mem_append, not_or]
        exact ⟨hname, notMem_of_fromUtf8 hvalue (by decide) f.value_line.1⟩
      have hne : f.name ++ ":" ++ s ≠ "" := by
        intro hnil
        have hlist := congrArg String.toList hnil
        simp at hlist
      dsimp only
      rw [lineText_field hcr hlf, if_neg hne, setHeaderLine_field _ f.name_token, ih]
      simp [hvalue, HttpMessage.copyHeadersExcept]

/-! ## The head -/

def Wire.ResponseHead.IsText (h : ResponseHead) : Prop :=
  (fromUtf8 h.reason).isSome ∧ ∀ f ∈ h.lines, (fromUtf8 f.value).isSome

/-- The last value of the field lines with a name, without the white space
around it. -/
def Wire.ResponseHead.kept (h : ResponseHead) (name : String) : Option String :=
  (fieldValues name h.fields).getLast?.map fun value => trim ((fromUtf8 value).getD "")

variable {h : ResponseHead}

theorem Wire.ResponseHead.kept_eq_none :
    h.kept name = none ↔ fieldValues name h.fields = [] := by
  rw [ResponseHead.kept, Option.map_eq_none_iff, getLast?_eq_none_iff]

theorem bytes_append (h : ResponseHead) (tail : List UInt8) :
    h.bytes ++ tail = asBytes ("HTTP/1.1 " ++ toString h.code ++ " ") ++ h.reason ++ crlf ++
      (h.lines.flatMap FieldLine.bytes ++ (crlf ++ tail)) := by
  simp [ResponseHead.bytes, ResponseHead.statusLine]

theorem lf_notMem_statusLine (code : Nat) :
    '\n' ∉ ("HTTP/1.1 " ++ toString code ++ " ").toList := by
  rw [toList_append, toList_append, mem_append, mem_append, not_or, not_or]
  exact ⟨⟨by decide, notMem_toString (by decide) _⟩, by decide⟩

theorem readResponse_statusLine {reason : String}
    (hreason : fromUtf8 h.reason = some reason) (tail : List UInt8) :
    ∃ text, readResponse (h.bytes ++ tail) =
      match readResponseHeaders
        { HttpMessage.newResponse ⟨UInt16.ofNat h.code⟩ .http11 with reason := text }
        (h.lines.flatMap FieldLine.bytes ++ (crlf ++ tail)) with
      | .error e => .error e
      | .ok (response, rest) =>
        (readResponseBody response rest).map fun r => ⟨response, r.1, r.2.1, r.2.2⟩ := by
  obtain ⟨more, hsplit⟩ := splitn_statusLine h.code reason
  have hne : "HTTP/1.1 " ++ toString h.code ++ " " ++ reason ++ "\r\n" ≠ "" := by
    intro hnil
    have hlist := congrArg String.toList hnil
    simp at hlist
  have hcode : h.code < 2 ^ 16 := lt_trans h.code_digits.2 (by norm_num)
  have hversion : (HttpVersion.fromStr "HTTP/1.1").getD .http11 = .http11 := by decide
  refine ⟨more.headD "", ?_⟩
  rw [bytes_append, readResponse, readLine_text (lf_notMem_statusLine h.code) h.reason_line.1,
    hreason]
  dsimp only
  rw [if_neg hne, hsplit]
  dsimp only
  rw [parseU16_toString hcode]
  exact hversion ▸ rfl

theorem readResponse_of_isText (htext : h.IsText) (tail : List UInt8) :
    ∃ response : HttpMessage, response.status = ⟨UInt16.ofNat h.code⟩ ∧
      response.protocol = .http11 ∧ (∀ name, response.getHeader name = h.kept name) ∧
      readResponse (h.bytes ++ tail) =
        (readResponseBody response tail).map fun r => ⟨response, r.1, r.2.1, r.2.2⟩ := by
  obtain ⟨reason, hreason⟩ := Option.isSome_iff_exists.mp htext.1
  obtain ⟨text, hread⟩ := readResponse_statusLine hreason tail
  rw [readResponseHeaders_lines, if_pos htext.2] at hread
  refine ⟨_, ?_, ?_, ?_, hread⟩
  · rw [HttpMessage.copyHeadersExcept_status]
    rfl
  · obtain ⟨_, hcopy, _⟩ := HttpMessage.copyHeadersExcept_induction (P := fun _ => True) []
      { HttpMessage.newResponse ⟨UInt16.ofNat h.code⟩ .http11 with reason := text }
      (h.lines.map fun f => ⟨f.name, trim ((fromUtf8 f.value).getD "")⟩) trivial
      fun _ _ _ _ => trivial
    rw [hcopy]
    rfl
  · intro name
    have hcopy := getHeader_copy_fields
      (m := { HttpMessage.newResponse ⟨UInt16.ofNat h.code⟩ .http11 with reason := text }) rfl
      h.fields (fun value => trim ((fromUtf8 value).getD "")) name
    rw [ResponseHead.kept, ← hcopy, ResponseHead.fields, map_map]
    rfl

theorem readResponse_of_not_isText (htext : ¬ h.IsText) (tail : List UInt8) :
    readResponse (h.bytes ++ tail) = .error (.io "stream did not contain valid UTF-8") := by
  cases hreason : fromUtf8 h.reason with
  | none =>
    rw [bytes_append, readResponse, readLine_text (lf_notMem_statusLine h.code) h.reason_line.1,
      hreason]
  | some reason =>
    obtain ⟨text, hread⟩ := readResponse_statusLine hreason tail
    have hlines : ¬ ∀ f ∈ h.lines, (fromUtf8 f.value).isSome :=
      fun hlines => htext ⟨by rw [hreason]; rfl, hlines⟩
    rw [hread, readResponseHeaders_lines, if_neg hlines]

/-- `200 OK` with these field lines. -/
def Wire.ResponseHead.ok (lines : List FieldLine) : ResponseHead where
  code := 200
  reason := asBytes "OK"
  lines := lines
  code_digits := by decide
  reason_line := by unfold OnLine; decide

end VarahaCache
