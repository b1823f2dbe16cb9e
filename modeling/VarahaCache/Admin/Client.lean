import VarahaCache.Admin.Server

/-!
# The client of the admin CLI

`StatClient` of `rv-tools` is written apart from the server it talks to. Here
the two are put together: a conversation is what each of them sends when
what the other one sends is all it receives. The client knows the codes of
`from_code`, and the server opens with one that is not among them.
-/

namespace VarahaCache.Admin

open Text Serving List Lib

/-! ## The client -/

/-- What `connect_with_auth` fails with, or a panic of the thread. -/
inductive StatError
  | io (message : String)
  | parseInt (e : ParseIntError)
  | utf8 (message : String)
  | admin (e : AdminError)
  | message (text : String)
  | panicked
deriving DecidableEq

/-- What the client is given: SHA-256, and the text of an error in UTF-8. -/
structure StatClient where
  sha256 : List UInt8 → List UInt8
  utf8Error : List UInt8 → String

namespace StatClient

variable (client : StatClient)

/-- `read_line`: byte after byte up to a line feed, which is dropped. -/
def readLine (stream : List UInt8) : Except StatError (String × List UInt8) :=
  match stream.span (· ≠ 10) with
  | (_, []) => .error (.io "failed to fill whole buffer")
  | (line, _ :: rest) =>
    match fromUtf8 line with
    | some text => .ok (text, rest)
    | none => .error (.utf8 (client.utf8Error line))

/-- The length of the body, from the first line. -/
def bodyLength (header : String) : Except StatError ℕ :=
  match splitn 2 ' ' header with
  | [] => .error (.message "missing status code in response header")
  | [_] => .error (.message "missing length in response header")
  | statusStr :: lengthStr :: _ => do
    let _ ← (parseU16 statusStr).mapError .parseInt
    (usizeFromStr (trim lengthStr)).mapError .parseInt

/-- The body and the line feed behind it are read, and decoded. -/
def readBody (header : String) (bodyLen : ℕ) (stream : List UInt8) :
    Except StatError (CliResponse × List UInt8) :=
  let size := Words.wrappingAdd 64 bodyLen 1
  if isizeMax < size then .error .panicked
  else if stream.length < size then .error (.io "failed to fill whole buffer")
  else
    match decodeResponse client.utf8Error (asBytes header ++ 10 :: stream.take size) with
    | none => .error .panicked
    | some (.error e) => .error (.admin e)
    | some (.ok response) => .ok (response, stream.drop size)

def readResponse (stream : List UInt8) : Except StatError (CliResponse × List UInt8) := do
  let (header, rest) ← client.readLine stream
  let bodyLen ← bodyLength header
  client.readBody header bodyLen rest

/-- The bytes of pairs of digits; a last digit alone is dropped. -/
def hexPairs : List Char → List UInt8
  | hi :: lo :: rest =>
    UInt8.ofNat ((fromStrRadix 16 (2 ^ 8) (String.ofList [hi, lo])).toOption.getD 0) ::
      hexPairs rest
  | _ => []

def hexDecode (hex : String) : List UInt8 := hexPairs hex.toList

def answer (secret : String) (challenge : CliResponse) : List UInt8 :=
  asBytes (computeAuthResponse client.sha256 (hexDecode (trim challenge.body)) (asBytes secret) ++
    "\n")

/-- The result of the authentication, and the rest of the stream. -/
def readResult (stream : List UInt8) : Except StatError (List UInt8) := do
  let (result, rest) ← client.readResponse stream
  if result.status ≠ .ok then .error (.message ("authentication failed: " ++ result.body))
  else .ok rest

/-- `connect_with_auth` on a new stream, and what it sends. -/
def connectWithAuth (secret : String) (stream : List UInt8) :
    Except StatError (List UInt8) × List UInt8 :=
  match client.readResponse stream with
  | .error e => (.error e, [])
  | .ok (challenge, rest) => (client.readResult rest, client.answer secret challenge)

/-! ## What the client reads -/

theorem toDigit_digitChar : ∀ d < 16, toDigit 16 (Nat.digitChar d) = some d := by decide

theorem fromStrRadix_hexByte (b : UInt8) :
    fromStrRadix 16 (2 ^ 8) (String.ofList (hexByte b)) = .ok b.toNat := by
  have hb := b.toNat_lt
  have hhigh := toDigit_digitChar (b.toNat / 16) (by omega)
  have hlow := toDigit_digitChar (b.toNat % 16) (by omega)
  have hvalue : radixToNat 16 (hexByte b) = b.toNat := by
    simp only [radixToNat, hexByte, foldl_cons, foldl_nil, hhigh, hlow, Option.getD_some]
    omega
  have hdigits : ∀ c ∈ hexByte b, (toDigit 16 c).isSome := by
    simp [hexByte, hhigh, hlow]
  have hne : hexByte b ≠ [] := cons_ne_nil _ _
  rw [fromStrRadix_of_digits hne hdigits, hvalue, if_pos hb]

theorem hexDecode_hexEncode (bytes : List UInt8) : hexDecode (hexEncode bytes) = bytes := by
  rw [hexDecode, hexEncode, String.toList_ofList]
  induction bytes with
  | nil => rfl
  | cons b bytes ih =>
    have hbyte := fromStrRadix_hexByte b
    rw [hexByte] at hbyte
    rw [flatMap_cons, hexByte, cons_append, cons_append, nil_append, hexPairs, ih, hbyte]
    exact congrArg (· :: bytes) UInt8.ofNat_toNat

theorem readLine_append {line : String} (hline : '\n' ∉ line.toList) (rest : List UInt8) :
    client.readLine (asBytes line ++ 10 :: rest) = .ok (line, rest) := by
  have hall : ∀ b ∈ asBytes line, decide (b ≠ 10) = true := by
    intro b hb
    refine decide_eq_true fun heq => hline ?_
    exact lf_mem_asBytes.mp (heq ▸ hb)
  have hspan : (asBytes line ++ 10 :: rest).span (· ≠ 10) = (asBytes line, 10 :: rest) := by
    rw [span_eq_takeWhile_dropWhile, takeWhile_append_of_pos hall, dropWhile_append_of_pos hall]
    simp
  rw [readLine, hspan]
  simp only [fromUtf8_eq_some.mpr rfl]

theorem bodyLength_headerLine {code length : ℕ} (hcode : code < 2 ^ 16) (hlength : length < 2 ^ 64) :
    bodyLength (headerLine code length) = .ok length := by
  rw [bodyLength, splitn_headerLine]
  simp only [parseU16_toString hcode, trim_toString, usizeFromStr, fromStrRadix_toString hlength]
  rfl

theorem readResponse_wireResponse {code : ℕ} {body : String} (hcode : code < 2 ^ 16)
    (hbody : (asBytes body).length < isizeMax) (rest : List UInt8) :
    client.readResponse (wireResponse code body ++ rest) =
      match CliStatus.fromCode code with
      | some status => .ok (⟨status, body⟩, rest)
      | none => .error (.admin (.invalidCommand ("unknown status code: " ++ toString code))) := by
  rw [isizeMax] at hbody
  have hheader := length_headerLine_le hcode (show (asBytes body).length < 2 ^ 64 by omega)
  have hempty : asBytes "" = [] := rfl
  have hfits : (wireResponse code body ++ asBytes "").length < 2 ^ 64 := by
    rw [wireResponse, hempty]
    simp only [length_append, length_cons, length_nil]
    omega
  have hdecode := decodeResponse_wireResponse client.utf8Error hcode "" hfits
  rw [wireResponse, hempty, append_nil] at hdecode
  have hwire : wireResponse code body ++ rest =
      asBytes (headerLine code (asBytes body).length) ++ 10 :: ((asBytes body ++ [10]) ++ rest) := by
    rw [wireResponse, append_assoc, cons_append]
  have hsize : Words.wrappingAdd 64 (asBytes body).length 1 = (asBytes body ++ [10]).length := by
    rw [Words.wrappingAdd_of_lt (by omega), length_append, length_singleton]
  have hroom : ¬ isizeMax < (asBytes body ++ [10]).length := by
    rw [length_append, length_singleton, isizeMax]
    omega
  have hcomplete : ¬ (asBytes body ++ [10] ++ rest).length < (asBytes body ++ [10]).length := by
    simp only [length_append]
    omega
  rw [readResponse, hwire, client.readLine_append (lf_notMem_headerLine _ _)]
  show (do
    let bodyLen ← bodyLength (headerLine code (asBytes body).length)
    client.readBody _ bodyLen _) = _
  rw [bodyLength_headerLine hcode (by omega)]
  show client.readBody _ _ _ = _
  rw [readBody]
  simp only [hsize, if_neg hroom, if_neg hcomplete, take_left, drop_left, hdecode]
  cases CliStatus.fromCode code with
  | none => rfl
  | some status => rfl

end StatClient

/-! ## Conversations -/

section Conversations

variable {α ρ ρ' : Type*}

/-- What two parties send when each receives all that the other sends. A party is
its result and what it sends, for everything it may receive. -/
structure Conversation (left : List α → ρ × List α) (right : List α → ρ' × List α) where
  toLeft : List α
  toRight : List α
  left_sends : (left toLeft).2 = toRight
  right_sends : (right toRight).2 = toLeft

/-- One exchange: the left party opens with `hello`, the right one replies
to that before it reads on; there is a conversation, and it ends in one way.
-/
theorem Conversation.exchange {left : List α → ρ × List α} {right : List α → ρ' × List α}
    {hello reply rest : List α} {a : ρ}
    (hhello : ∀ received, ∃ tail, (left received).2 = hello ++ tail)
    (hreply : ∀ tail, (right (hello ++ tail)).2 = reply) (hleft : left reply = (a, hello ++ rest)) :
    Nonempty (Conversation left right) ∧ ∀ c : Conversation left right,
        (left c.toLeft).1 = a ∧ (right c.toRight).1 = (right (hello ++ rest)).1 := by
  refine ⟨⟨⟨reply, hello ++ rest, by rw [hleft], hreply rest⟩⟩, fun c => ?_⟩
  obtain ⟨tail, htail⟩ := hhello c.toLeft
  have hto : c.toLeft = reply := by rw [← c.right_sends, ← c.left_sends, htail, hreply]
  have hfrom : c.toRight = hello ++ rest := by rw [← c.left_sends, hto, hleft]
  rw [hto, hfrom, hleft]
  exact ⟨rfl, rfl⟩

end Conversations

namespace AdminServer

open Connection (writeAll)

variable (server : AdminServer)

/-- `authenticate` behind the challenge. -/
def awaitResponse (challenge : List UInt8) (secret : String) : Serving Unit := do
  let responseLine ← Connection.readLine
  if responseLine = "" then
    throw (.authError "client disconnected during authentication")
  else if verifyAuth server.sha256 challenge (asBytes secret) (trim responseLine) then
    writeAll (encodeResponse (.ok "Authentication successful."))
  else
    writeAll (encodeResponse ⟨.close, "Authentication failed."⟩)
    throw (.authError "authentication failed")

/-- `authenticate`, with the code of the challenge left open. -/
def authenticateWith (code : ℕ) (challenge : List UInt8) (secret : String) : Serving Unit := do
  writeAll (wireResponse code (hexEncodeChallenge challenge))
  server.awaitResponse challenge secret

theorem authenticate_eq (challenge : List UInt8) (secret : String) :
    server.authenticate challenge secret = server.authenticateWith 107 challenge secret := by
  have hcode : headerLine 107 (asBytes (hexEncodeChallenge challenge)).length =
      "107 " ++ toString (asBytes (hexEncodeChallenge challenge)).length := rfl
  rw [authenticate, authenticateWith, wireResponse_eq_asBytes, hcode, awaitResponse]

/-- A part of the handler on a reliable stream, when this is all that the
client sends. -/
def facing (part : Serving Unit) (incoming : List UInt8) : Except AdminError Unit × List UInt8 :=
  let served := part.on (.accepted incoming false fun _ => true)
  (served.1, served.2.sent.flatten)

/-- The client and this part of the handler, with one secret, both end with
success. -/
def Interoperate (part : Serving Unit) (client : StatClient) (secret : String) : Prop :=
  Nonempty (Conversation (facing part) (client.connectWithAuth secret)) ∧
    ∀ c : Conversation (facing part) (client.connectWithAuth secret),
      (facing part c.toLeft).1 = .ok () ∧ ∃ rest, (client.connectWithAuth secret c.toRight).1 = .ok rest

theorem writeAll_on {c : Connection} (haccepts : c.accepts c.sent.length = true)
    (message : List UInt8) :
    (writeAll message).on c = (.ok (), { c with sent := c.sent ++ [message] }) := by
  simp [writeAll, on_bind, haccepts]

variable {server} {code : ℕ} {challenge : List UInt8} {secret : String}

theorem facing_authenticateWith (incoming : List UInt8) :
    facing (server.authenticateWith code challenge secret) incoming =
      Prod.map id (fun c => c.sent.flatten) ((server.awaitResponse challenge secret).on
        ⟨incoming, false, fun _ => true, [wireResponse code (hexEncodeChallenge challenge)], []⟩) := by
  rw [facing, authenticateWith, on_bind, writeAll_on rfl]
  rfl

theorem sent_awaitResponse (c : Connection) :
    ∃ later, ((server.awaitResponse challenge secret).on c).2.sent = c.sent ++ later := by
  have hwrite : ∀ (c : Connection) message, ∃ later, ((writeAll message).on c).2.sent =
      c.sent ++ later := by
    intro c message
    by_cases haccepts : c.accepts c.sent.length
    · exact ⟨[message], by rw [writeAll_on haccepts]⟩
    · exact ⟨[], by simp [writeAll, on_bind, haccepts]⟩
  rw [awaitResponse, on_bind]
  rcases Connection.readLine_on c with ⟨e, hc⟩ | ⟨line, rest, -, hc⟩
  · exact ⟨[], by rw [hc, append_nil]⟩
  rw [hc]
  dsimp only
  split
  · exact ⟨[], by rw [on_throw, append_nil]⟩
  split
  · exact hwrite _ _
  rw [on_bind]
  obtain ⟨later, hlater⟩ := hwrite { c with incoming := rest }
    (encodeResponse ⟨.close, "Authentication failed."⟩)
  refine ⟨later, ?_⟩
  rw [← hlater]
  split
  · rename_i hsent
    rw [hsent, on_throw]
  · rename_i hsent
    rw [hsent]

theorem facing_begins (incoming : List UInt8) :
    ∃ tail, (facing (server.authenticateWith code challenge secret) incoming).2 =
      wireResponse code (hexEncodeChallenge challenge) ++ tail := by
  obtain ⟨later, hlater⟩ := @sent_awaitResponse server challenge secret
    ⟨incoming, false, fun _ => true, [wireResponse code (hexEncodeChallenge challenge)], []⟩
  rw [facing_authenticateWith, Prod.map_snd, hlater]
  exact ⟨later.flatten, rfl⟩

theorem facing_nothing :
    facing (server.authenticateWith code challenge secret) [] =
      (.error (.authError "client disconnected during authentication"),
        wireResponse code (hexEncodeChallenge challenge) ++ []) := by
  rw [facing_authenticateWith]
  rfl

theorem readLine_lf {text : String} (htext : '\n' ∉ text.toList) :
    readLine (asBytes (text ++ "\n")) = .ok (text ++ "\n", []) := by
  have hread : readUntil 10 (asBytes (text ++ "\n")) = (asBytes (text ++ "\n"), []) := by
    rw [asBytes_append]
    exact readUntil_append_cons (fun h => htext (lf_mem_asBytes.mp h)) []
  rw [readLine, hread, fromUtf8_eq_some.mpr rfl]

theorem facing_answer : facing (server.authenticateWith code challenge secret)
        (asBytes (computeAuthResponse server.sha256 challenge (asBytes secret) ++ "\n")) =
      (.ok (), wireResponse code (hexEncodeChallenge challenge) ++
        encodeResponse (.ok "Authentication successful.")) := by
  have hplain : ∀ c ∈ (computeAuthResponse server.sha256 challenge (asBytes secret)).toList,
      isWhitespace c = false := fun _ hc => not_isWhitespace_hexEncode hc
  have hverify : verifyAuth server.sha256 challenge (asBytes secret)
      (trim (computeAuthResponse server.sha256 challenge (asBytes secret) ++ "\n")) = true := by
    have hblank : ∀ c ∈ ['\n'], isWhitespace c = true := by simp [isWhitespace]
    have htrim := trim_append_blank hplain hblank
    rw [String.ofList_append, String.ofList_toList] at htrim
    rw [verifyAuth_iff, trim_trim]
    exact htrim
  generalize computeAuthResponse server.sha256 challenge (asBytes secret) = response
    at hplain hverify ⊢
  have hline := readLine_lf fun h => absurd (hplain _ h) (by decide)
  have hne : response ++ "\n" ≠ "" := by
    intro h
    simpa using congrArg String.toList h
  rw [facing_authenticateWith, awaitResponse, on_bind,
    Connection.readLine_on_ok (fun h => Bool.false_ne_true h.1) hline]
  simp only
  rw [if_neg hne, if_pos hverify, writeAll_on rfl]
  simp

end AdminServer

/-! ## The client and the server -/

namespace StatClient

open AdminServer

variable (client : StatClient) {code : ℕ} {challenge : List UInt8} (secret : String)

theorem length_hexEncodeChallenge_lt (hchallenge : challenge.length = 32) :
    (asBytes (hexEncodeChallenge challenge)).length < isizeMax := by
  have hbytes := length_asBytes_le (hexEncodeChallenge challenge)
  have hchars : (hexEncodeChallenge challenge).toList.length = 64 := by
    rw [hexEncodeChallenge, hexEncode, String.toList_ofList, length_flatMap]
    simp [hexByte, hchallenge]
  rw [isizeMax]
  omega

theorem connectWithAuth_challenge (hcode : code < 2 ^ 16) (hchallenge : challenge.length = 32)
    (tail : List UInt8) :
    client.connectWithAuth secret (wireResponse code (hexEncodeChallenge challenge) ++ tail) =
      match CliStatus.fromCode code with
      | some _ => (client.readResult tail,
          asBytes (computeAuthResponse client.sha256 challenge (asBytes secret) ++ "\n"))
      | none =>
          (.error (.admin (.invalidCommand ("unknown status code: " ++ toString code))), []) := by
  have hbody : hexDecode (trim (hexEncodeChallenge challenge)) = challenge := by
    rw [hexEncodeChallenge, trim_eq_self fun _ hc => not_isWhitespace_hexEncode hc,
      hexDecode_hexEncode]
  rw [connectWithAuth, client.readResponse_wireResponse hcode
    (length_hexEncodeChallenge_lt hchallenge)]
  cases CliStatus.fromCode code with
  | none => rfl
  | some status =>
    dsimp only [answer]
    rw [hbody]

theorem readResult_successful :
    client.readResult (encodeResponse (.ok "Authentication successful.")) = .ok [] := by
  have hread : client.readResponse (wireResponse 200 "Authentication successful." ++ []) = _ :=
    client.readResponse_wireResponse (by decide) (by decide +kernel) []
  rw [append_nil] at hread
  rw [readResult, encodeResponse_eq]
  show (client.readResponse (wireResponse 200 "Authentication successful.") >>= _) = _
  rw [hread]
  rfl

end StatClient

open AdminServer

theorem ends_unknown (server : AdminServer) (utf8Error : List UInt8 → String) {code : ℕ}
    (hcode : code < 2 ^ 16) (hunknown : CliStatus.fromCode code = none) {challenge : List UInt8}
    (hchallenge : challenge.length = 32) (secret : String) :
    let part := server.authenticateWith code challenge secret
    let client := StatClient.connectWithAuth ⟨server.sha256, utf8Error⟩ secret
    Nonempty (Conversation (facing part) client) ∧ ∀ c : Conversation (facing part) client,
      (facing part c.toLeft).1 =
          .error (.authError "client disconnected during authentication") ∧
        (client c.toRight).1 =
          .error (.admin (.invalidCommand ("unknown status code: " ++ toString code))) := by
  have hclient := StatClient.connectWithAuth_challenge ⟨server.sha256, utf8Error⟩ secret hcode
    hchallenge
  simp only [hunknown] at hclient
  obtain ⟨hsome, hends⟩ := Conversation.exchange facing_begins
    (fun tail => congrArg Prod.snd (hclient tail)) facing_nothing
  refine ⟨hsome, fun c => ⟨(hends c).1, ?_⟩⟩
  rw [(hends c).2, hclient]

/-- **The two sides work together EXACTLY when the client knows the code** the
server opens with. -/
theorem interoperate_iff_known (server : AdminServer) (utf8Error : List UInt8 → String)
    (code : UInt16) {challenge : List UInt8} (hchallenge : challenge.length = 32)
    (secret : String) :
    Interoperate (server.authenticateWith code.toNat challenge secret)
        ⟨server.sha256, utf8Error⟩ secret ↔
      (CliStatus.fromCode code.toNat).isSome := by
  cases hknown : CliStatus.fromCode code.toNat with
  | none =>
    obtain ⟨⟨c⟩, hends⟩ := ends_unknown server utf8Error code.toNat_lt hknown hchallenge secret
    refine iff_of_false (fun h => ?_) (by decide)
    have hserver := (h.2 c).1
    rw [(hends c).1] at hserver
    cases hserver
  | some status =>
    have hclient := StatClient.connectWithAuth_challenge ⟨server.sha256, utf8Error⟩ secret
      code.toNat_lt hchallenge
    simp only [hknown] at hclient
    have hreply : ∀ tail, (StatClient.connectWithAuth ⟨server.sha256, utf8Error⟩ secret
        (wireResponse code.toNat (hexEncodeChallenge challenge) ++ tail)).2 =
          asBytes (computeAuthResponse server.sha256 challenge (asBytes secret) ++ "\n") := by
      intro tail
      rw [hclient]
    obtain ⟨hsome, hends⟩ := Conversation.exchange facing_begins hreply facing_answer
    refine iff_of_true ⟨hsome, fun c => ⟨(hends c).1, [], ?_⟩⟩ rfl
    rw [(hends c).2, hclient]
    exact StatClient.readResult_successful _

/-- With the code of an ordinary response. -/
theorem interoperate_iff_known_ok : Interoperate
      (authenticateWith ⟨some "s", id, fun _ _ => .ok ""⟩ 200 (replicate 32 0) "s")
      ⟨id, fun _ => "invalid utf-8 sequence"⟩ "s" :=
  (interoperate_iff_known ⟨some "s", id, fun _ _ => .ok ""⟩ (fun _ => "invalid utf-8 sequence") 200
    length_replicate "s").mpr rfl

/-- With the code the server has. -/
theorem not_interoperate_authenticate :
    let part := authenticate ⟨some "s", id, fun _ _ => .ok ""⟩ (replicate 32 0) "s"
    let client : StatClient := ⟨id, fun _ => "invalid utf-8 sequence"⟩
    ¬ Interoperate part client "s" ∧ ∃ c : Conversation (facing part) (client.connectWithAuth "s"),
        (client.connectWithAuth "s" c.toRight).1 =
          .error (.admin (.invalidCommand "unknown status code: 107")) := by
  rw [authenticate_eq]
  obtain ⟨⟨c⟩, hends⟩ := ends_unknown ⟨some "s", id, fun _ _ => .ok ""⟩
    (fun _ => "invalid utf-8 sequence") (show 107 < 2 ^ 16 by decide) rfl length_replicate "s"
  refine ⟨fun h => ?_, c, (hends c).2⟩
  have hserver := (h.2 c).1
  rw [(hends c).1] at hserver
  cases hserver

end VarahaCache.Admin
