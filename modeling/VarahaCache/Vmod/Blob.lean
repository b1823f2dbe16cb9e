import VarahaCache.Lib.Hex
import VarahaCache.Text

/-!
# The blob module

Bytes as hexadecimal digits, percent-encoded or in base 64, and back.
-/

namespace VarahaCache.Vmod

open Text List Lib

inductive VmodError
  | invalidArgument (message : String)
deriving DecidableEq

inductive BlobEncoding
  | base64 | hex | url

/-- `BASE64_STANDARD`, which decodes what it encodes. -/
structure Base64 where
  encode : List UInt8 → String
  decode : String → Except String (List UInt8)
  decode_encode : ∀ data, decode (encode data) = .ok data

/-- The bytes the URL encoding lets pass. -/
def unreserved (byte : UInt8) : Bool :=
  (Char.ofNat byte.toNat).isAlphanum || byte = 45 || byte = 95 || byte = 46 || byte = 126

def upperDigit (n : ℕ) : Char := n.digitChar.toUpper

def urlByte (byte : UInt8) : List Char :=
  if unreserved byte then [Char.ofNat byte.toNat]
  else ['%', upperDigit (byte.toNat / 16), upperDigit (byte.toNat % 16)]

def encodeData (base64 : Base64) : BlobEncoding → List UInt8 → String
  | .base64, data => base64.encode data
  | .hex, data => hexEncode data
  | .url, data => String.ofList (data.flatMap urlByte)

/-- `(hi << 4) | lo`. -/
def byteOf (hi lo : ℕ) : UInt8 := UInt8.ofNat hi <<< 4 ||| UInt8.ofNat lo

def hexDigit (c : Char) : Except VmodError ℕ :=
  match toDigit 16 c with
  | some digit => .ok digit
  | none => .error (.invalidArgument ("invalid hex char: " ++ String.ofList [c]))

/-- The loop of `decode_hex`, which stops where no pair of characters is left. -/
def hexPairs : List Char → Except VmodError (List UInt8)
  | hi :: lo :: rest => do
    let hi ← hexDigit hi
    let lo ← hexDigit lo
    return byteOf hi lo :: (← hexPairs rest)
  | _ => .ok []

def decodeHex (s : String) : Except VmodError (List UInt8) :=
  if (asBytes (trim s)).length % 2 ≠ 0 then
    .error (.invalidArgument "hex string must have even length")
  else hexPairs (trim s).toList

def percentDigit (c : Char) : Except VmodError ℕ :=
  match toDigit 16 c with
  | some digit => .ok digit
  | none => .error (.invalidArgument "invalid percent encoding")

/-- The loop of `decode_url`. -/
def urlChars : List Char → Except VmodError (List UInt8)
  | [] => .ok []
  | c :: rest =>
    if c = '%' then
      match rest with
      | hi :: lo :: rest => do
        let hi ← percentDigit hi
        let lo ← percentDigit lo
        return byteOf hi lo :: (← urlChars rest)
      | [hi] => do
        let _ ← percentDigit hi
        throw (.invalidArgument "truncated percent encoding")
      | [] => .error (.invalidArgument "truncated percent encoding")
    else return String.utf8EncodeChar c ++ (← urlChars rest)

def decodeUrl (s : String) : Except VmodError (List UInt8) := urlChars s.toList

/-! ## Round trips -/

theorem byteOf_div_mod (b : UInt8) : byteOf (b.toNat / 16) (b.toNat % 16) = b := by
  have hall : ∀ n < 256, byteOf (n / 16) (n % 16) = UInt8.ofNat n := by decide +kernel
  rw [hall _ b.toNat_lt, UInt8.ofNat_toNat]

theorem toDigit_digitChar : ∀ n < 16, toDigit 16 n.digitChar = some n := by decide

theorem toDigit_upperDigit : ∀ n < 16, toDigit 16 (upperDigit n) = some n := by decide

theorem trim_hexEncode (data : List UInt8) : trim (hexEncode data) = hexEncode data := by
  refine trim_eq_self fun c hc => ?_
  obtain ⟨n, hn, rfl⟩ := mem_hexEncode hc
  exact (toDigit_isSome (by rw [toDigit_digitChar n hn]; rfl)).1

theorem length_hexEncode (data : List UInt8) :
    (asBytes (hexEncode data)).length = 2 * data.length := by
  have hbyte : ∀ n < 256, ((hexByte (UInt8.ofNat n)).flatMap String.utf8EncodeChar).length = 2 := by
    decide +kernel
  rw [asBytes_eq_flatMap, hexEncode, String.toList_ofList]
  induction data with
  | nil => rfl
  | cons b data ih =>
    have htwo := hbyte _ b.toNat_lt
    rw [UInt8.ofNat_toNat] at htwo
    rw [flatMap_cons, flatMap_append, length_append, ih, htwo, length_cons]
    omega

theorem decodeHex_hexEncode (data : List UInt8) : decodeHex (hexEncode data) = .ok data := by
  rw [decodeHex, trim_hexEncode, if_neg (by rw [length_hexEncode]; omega), hexEncode,
    String.toList_ofList]
  induction data with
  | nil => rfl
  | cons b data ih =>
    have hb := b.toNat_lt
    rw [flatMap_cons, hexByte, cons_append, cons_append, nil_append,
      hexPairs, ih, hexDigit, hexDigit, toDigit_digitChar _ (by omega),
      toDigit_digitChar _ (by omega)]
    simp only [bind, Except.bind, byteOf_div_mod]
    rfl

theorem utf8EncodeChar_of_unreserved {b : UInt8} (h : unreserved b) :
    Char.ofNat b.toNat ≠ '%' ∧ String.utf8EncodeChar (Char.ofNat b.toNat) = [b] := by
  have hall : ∀ n < 256, unreserved (UInt8.ofNat n) = true →
      Char.ofNat n ≠ '%' ∧ String.utf8EncodeChar (Char.ofNat n) = [UInt8.ofNat n] := by
    decide +kernel
  have hb := hall _ b.toNat_lt
  rw [UInt8.ofNat_toNat] at hb
  exact hb h

theorem urlChars_urlByte (b : UInt8) (rest : List Char) :
    urlChars (urlByte b ++ rest) = (urlChars rest).map (b :: ·) := by
  have hb := b.toNat_lt
  rw [urlByte]
  split
  · next h =>
      obtain ⟨hpercent, hbytes⟩ := utf8EncodeChar_of_unreserved h
      rw [singleton_append, urlChars.eq_def]
      simp only [if_neg hpercent, hbytes]
      rfl
  · rw [cons_append, cons_append, singleton_append, urlChars, if_pos rfl,
      percentDigit, percentDigit, toDigit_upperDigit _ (by omega), toDigit_upperDigit _ (by omega)]
    simp only [bind, Except.bind, byteOf_div_mod]
    rfl

theorem decodeUrl_encodeData (base64 : Base64) (data : List UInt8) :
    decodeUrl (encodeData base64 .url data) = .ok data := by
  rw [decodeUrl, encodeData, String.toList_ofList]
  induction data with
  | nil => rw [flatMap_nil, urlChars]
  | cons b data ih =>
    rw [flatMap_cons, urlChars_urlByte, ih]
    rfl

/-- **Blob encodings are lossless**: what is encoded reads back, so no two byte
strings have one encoding. -/
theorem blob_lossless (base64 : Base64) :
    (∀ data, decodeHex (encodeData base64 .hex data) = .ok data) ∧
      (∀ data, decodeUrl (encodeData base64 .url data) = .ok data) ∧
      ∀ encoding, Function.Injective (encodeData base64 encoding) := by
  refine ⟨decodeHex_hexEncode, decodeUrl_encodeData base64, fun encoding a b h => ?_⟩
  cases encoding with
  | base64 =>
    have hdecode := congrArg base64.decode h
    rw [encodeData, encodeData, base64.decode_encode, base64.decode_encode] at hdecode
    exact Except.ok.inj hdecode
  | hex => exact hexEncode_injective h
  | url =>
    have hdecode := congrArg decodeUrl h
    rw [decodeUrl_encodeData, decodeUrl_encodeData] at hdecode
    exact Except.ok.inj hdecode

/-! ## Strictness -/

/-- An even number of hexadecimal digits. -/
def IsHex (text : List Char) : Prop := text.length % 2 = 0 ∧ ∀ c ∈ text, (toDigit 16 c).isSome

instance (text : List Char) : Decidable (IsHex text) := inferInstanceAs (Decidable (_ ∧ _))

/-- Such digits, and behind them one character of two or four bytes. -/
def StrayEnd (text : List Char) : Prop :=
  ∃ digits c, text = digits ++ [c] ∧ IsHex digits ∧ c.utf8Size % 2 = 0

/-- A text is decoded strictly: only digits are accepted, two for a byte. -/
def DecodesStrictly (s : String) : Prop :=
  ((∃ bytes, decodeHex s = .ok bytes) ↔ IsHex (trim s).toList) ∧
    ∀ bytes, decodeHex s = .ok bytes → (trim s).toList.length = 2 * bytes.length

variable {text digits rest : List Char} {bytes : List UInt8}

theorem isHex_cons_cons {hi lo : Char} : IsHex (hi :: lo :: text) ↔
    (toDigit 16 hi).isSome ∧ (toDigit 16 lo).isSome ∧ IsHex text := by
  have hparity : (hi :: lo :: text).length % 2 = text.length % 2 := Nat.add_mod_right text.length 2
  rw [IsHex, IsHex, forall_mem_cons, forall_mem_cons, hparity]
  tauto

theorem hexPairs_cons_cons {hi lo : Char} :
    hexPairs (hi :: lo :: text) = .ok bytes ↔ ∃ m n later, toDigit 16 hi = some m ∧
      toDigit 16 lo = some n ∧ hexPairs text = .ok later ∧ bytes = byteOf m n :: later := by
  rw [hexPairs, hexDigit, hexDigit]
  cases toDigit 16 hi with
  | none => simp [bind, Except.bind]
  | some m =>
    cases toDigit 16 lo with
    | none => simp [bind, Except.bind]
    | some n =>
      cases hexPairs text with
      | error e => simp [bind, Except.bind]
      | ok later => simp [bind, Except.bind, pure, Except.pure, eq_comm]

/-- What the loop reads: pairs of digits, up to a character without a
partner. -/
theorem hexPairs_ok (h : hexPairs text = .ok bytes) :
    bytes.length = text.length / 2 ∧
      ∃ digits rest, text = digits ++ rest ∧ rest.length ≤ 1 ∧ IsHex digits := by
  induction text using hexPairs.induct generalizing bytes with
  | case1 hi lo text ih =>
    obtain ⟨m, n, later, hhi, hlo, hlater, rfl⟩ := hexPairs_cons_cons.mp h
    obtain ⟨hlen, digits, rest, rfl, hrest, hdigits⟩ := ih hlater
    refine ⟨?_, hi :: lo :: digits, rest, rfl, hrest, isHex_cons_cons.mpr ⟨?_, ?_, hdigits⟩⟩
    · simp only [length_cons, hlen]
      omega
    · rw [hhi]
      rfl
    · rw [hlo]
      rfl
  | case2 text hshort =>
    have hlen : text.length ≤ 1 := by
      rcases text with _ | ⟨c, _ | ⟨d, text⟩⟩
      · simp
      · simp
      · exact absurd rfl (hshort c d text)
    rw [hexPairs.eq_2 text hshort] at h
    cases h
    exact ⟨by rw [length_nil]; omega, [], text, rfl, hlen, rfl, by simp⟩

theorem exists_hexPairs (h : IsHex digits) (hrest : rest.length ≤ 1) :
    ∃ bytes, hexPairs (digits ++ rest) = .ok bytes := by
  induction digits using hexPairs.induct with
  | case1 hi lo digits ih =>
    obtain ⟨hhi, hlo, hdigits⟩ := isHex_cons_cons.mp h
    obtain ⟨m, hm⟩ := Option.isSome_iff_exists.mp hhi
    obtain ⟨n, hn⟩ := Option.isSome_iff_exists.mp hlo
    obtain ⟨later, hlater⟩ := ih hdigits
    exact ⟨_, hexPairs_cons_cons.mpr ⟨m, n, later, hm, hn, hlater, rfl⟩⟩
  | case2 digits hshort =>
    rcases digits with _ | ⟨c, _ | ⟨d, digits⟩⟩
    · refine ⟨[], hexPairs.eq_2 _ ?_⟩
      rintro hi lo more rfl
      simp at hrest
    · exact absurd h.1 (by simp)
    · exact absurd rfl (hshort c d digits)

theorem utf8Size_of_toDigit {c : Char} (h : (toDigit 16 c).isSome) : c.utf8Size = 1 := by
  rw [Char.utf8Size_eq_one_iff, UInt32.le_iff_toNat_le]
  by_contra hlarge
  have hlarge' : 127 < c.val.toNat := Nat.not_le.mp hlarge
  have hdigit : ¬ c.isDigit = true := by
    intro hc
    have hle : 48 ≤ c.val ∧ c.val ≤ 57 := by simpa [Char.isDigit] using hc
    exact absurd (show c.val.toNat ≤ 57 from hle.2) (by omega)
  have hlower : ¬ ('a' ≤ c ∧ c ≤ 'z') := fun hc => absurd (show c.val.toNat ≤ 122 from hc.2) (by omega)
  have hupper : ¬ ('A' ≤ c ∧ c ≤ 'Z') := fun hc => absurd (show c.val.toNat ≤ 90 from hc.2) (by omega)
  simp [toDigit, hdigit, hlower, hupper] at h

theorem length_asBytes_append {s : String} (h : s.toList = digits ++ rest) (hdigits : IsHex digits) :
    (asBytes s).length = digits.length + (rest.map Char.utf8Size).sum := by
  have hone : digits.map Char.utf8Size = digits.map fun _ => 1 :=
    map_congr_left fun c hc => utf8Size_of_toDigit (hdigits.2 c hc)
  rw [asBytes_eq_flatMap, length_flatMap, h]
  simp only [String.length_utf8EncodeChar, map_append, sum_append]
  rw [hone]
  simp

theorem decodeHex_ok_iff (s : String) :
    (∃ bytes, decodeHex s = .ok bytes) ↔ IsHex (trim s).toList ∨ StrayEnd (trim s).toList := by
  rw [decodeHex]
  constructor
  · rintro ⟨bytes, h⟩
    split at h
    · cases h
    rename_i heven
    obtain ⟨-, digits, rest, htext, hrest, hdigits⟩ := hexPairs_ok h
    have hlen := length_asBytes_append htext hdigits
    rcases rest with _ | ⟨c, _ | ⟨d, rest⟩⟩
    · left
      rw [htext, append_nil]
      exact hdigits
    · right
      refine ⟨digits, c, htext, hdigits, ?_⟩
      have hparity := hdigits.1
      simp only [map_cons, map_nil, sum_cons, sum_nil] at hlen
      omega
    · simp at hrest
  · rintro (h | ⟨digits, c, htext, hdigits, hc⟩)
    · have hlen := length_asBytes_append (append_nil _).symm h
      rw [map_nil, sum_nil, Nat.add_zero] at hlen
      rw [if_neg (by rw [hlen, h.1]; decide), ← append_nil (trim s).toList]
      exact exists_hexPairs h (Nat.zero_le _)
    have hlen := length_asBytes_append htext hdigits
    have hparity := hdigits.1
    simp only [map_cons, map_nil, sum_cons, sum_nil] at hlen
    rw [if_neg (by omega), htext]
    exact exists_hexPairs hdigits (Nat.le_refl _)

/-- **Decoding is strict except for one stray character**: a last character
of two or four bytes behind the digits is dropped. -/
theorem decodesStrictly_iff (s : String) : DecodesStrictly s ↔ ¬ StrayEnd (trim s).toList := by
  rw [DecodesStrictly, decodeHex_ok_iff]
  constructor
  · rintro ⟨honly, -⟩ hstray
    have hparity := (honly.mp (.inr hstray)).1
    obtain ⟨digits, c, htext, hdigits, -⟩ := hstray
    rw [htext, length_append, length_singleton] at hparity
    have := hdigits.1
    omega
  intro hstray
  refine ⟨or_iff_left hstray, fun bytes h => ?_⟩
  have hhex := ((decodeHex_ok_iff s).mp ⟨bytes, h⟩).resolve_right hstray
  rw [decodeHex] at h
  split at h
  · cases h
  have hlen := (hexPairs_ok h).1
  have hparity := hhex.1
  omega

/-- An accented letter is no digit, and is dropped. -/
theorem decodeHex_stray : decodeHex "abé" = .ok [0xab] ∧ ¬ DecodesStrictly "abé" := by
  have hok : decodeHex "abé" = .ok [0xab] := by decide +kernel
  exact ⟨hok, fun h => absurd (h.1.mp ⟨_, hok⟩) (by decide +kernel)⟩


end VarahaCache.Vmod
