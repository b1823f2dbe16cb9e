import VarahaCache.Lib.BigEndian
import VarahaCache.Text
import VarahaCache.Types

/-!
# The PROXY protocol

`parse_proxy_header` of `rv-transport`, for versions 1 and 2, from the first
bytes of a connection. What it returns is compared with the headers a proxy
writes: the addresses are those of the header, and the length is its length,
whatever follows. How the standard library reads an IP address, and the texts
of its errors, are parameters; how it writes one is translated.
-/

namespace VarahaCache.Transport

open Lib List

/-! ## Printed addresses -/

def hexText (n : ℕ) : String :=
  if n = 0 then "0" else String.ofList ((Nat.digits 16 n).reverse.map Nat.digitChar)

def segments (count width n : ℕ) : List ℕ :=
  (range count).map fun i => n / 2 ^ (width * (count - 1 - i)) % 2 ^ width

def ipv4Text (n : ℕ) : String := ".".intercalate ((segments 4 8 n).map toString)

structure Span where
  start : ℕ
  len : ℕ

/-- The loop over the segments: the longest run so far, and the current one. -/
def zeroRun (runs : Span × Span) (segment : ℕ × ℕ) : Span × Span :=
  let (longest, current) := runs
  let (value, i) := segment
  if value = 0 then
    let current : Span := ⟨if current.len = 0 then i else current.start, current.len + 1⟩
    (if longest.len < current.len then current else longest, current)
  else (longest, ⟨0, 0⟩)

def ipv6Text (n : ℕ) : String :=
  let segs := segments 8 16 n
  if segs.take 6 = [0, 0, 0, 0, 0, 0xffff] then "::ffff:" ++ ipv4Text (n % 2 ^ 32)
  else
    let zeroes := (segs.zipIdx.foldl zeroRun (⟨0, 0⟩, ⟨0, 0⟩)).1
    if 1 < zeroes.len then
      ":".intercalate ((segs.take zeroes.start).map hexText) ++ "::" ++
        ":".intercalate ((segs.drop (zeroes.start + zeroes.len)).map hexText)
    else ":".intercalate (segs.map hexText)

def ipText : IpAddr → String
  | .v4 bits => ipv4Text bits.toNat
  | .v6 bits => ipv6Text bits.toNat

def Unbroken (text : List Char) : Prop := ' ' ∉ text ∧ '\n' ∉ text

theorem Unbroken.append {a b : List Char} (ha : Unbroken a) (hb : Unbroken b) : Unbroken (a ++ b) :=
  ⟨fun h => (mem_append.mp h).elim ha.1 hb.1, fun h => (mem_append.mp h).elim ha.2 hb.2⟩

theorem unbroken_of_forall {text : List Char} (h : ∀ c ∈ text, c ≠ ' ' ∧ c ≠ '\n') :
    Unbroken text :=
  ⟨fun hmem => (h _ hmem).1 rfl, fun hmem => (h _ hmem).2 rfl⟩

variable (n : ℕ) (ip : IpAddr) {sep : String} {texts : List String}

theorem unbroken_toString : Unbroken (toString n).toList :=
  ⟨Text.notMem_toString (by decide) n, Text.notMem_toString (by decide) n⟩

theorem digitChar_plain : ∀ d < 16, Nat.digitChar d ≠ ' ' ∧ Nat.digitChar d ≠ '\n' := by decide

theorem unbroken_hexText : Unbroken (hexText n).toList := by
  rw [hexText]
  split
  · exact ⟨by decide, by decide⟩
  rw [String.toList_ofList]
  refine unbroken_of_forall fun c hc => ?_
  obtain ⟨d, hd, rfl⟩ := mem_map.mp hc
  exact digitChar_plain d (Nat.digits_lt_base (by norm_num) (mem_reverse.mp hd))

theorem notMem_intercalate {c : Char} (hsep : c ∉ sep.toList)
    (h : ∀ text ∈ texts, c ∉ text.toList) : c ∉ (sep.intercalate texts).toList := by
  rw [String.toList_intercalate]
  induction texts with
  | nil => simp
  | cons text texts ih =>
    have hrest := ih fun t ht => h t (mem_cons_of_mem _ ht)
    cases texts with
    | nil => simpa using h text mem_cons_self
    | cons next texts =>
      rw [map_cons, map_cons, intercalate_cons_cons, ← map_cons,
        mem_append, mem_append, not_or, not_or]
      exact ⟨⟨h text mem_cons_self, hsep⟩, hrest⟩

theorem unbroken_intercalate (hsep : Unbroken sep.toList)
    (h : ∀ text ∈ texts, Unbroken text.toList) : Unbroken (sep.intercalate texts).toList :=
  ⟨notMem_intercalate hsep.1 fun text htext => (h text htext).1,
    notMem_intercalate hsep.2 fun text htext => (h text htext).2⟩

theorem unbroken_ipv4Text : Unbroken (ipv4Text n).toList := by
  refine unbroken_intercalate ⟨by decide, by decide⟩ fun text htext => ?_
  obtain ⟨octet, -, rfl⟩ := mem_map.mp htext
  exact unbroken_toString octet

theorem unbroken_hexSegments (segs : List ℕ) :
    Unbroken (":".intercalate (segs.map hexText)).toList := by
  refine unbroken_intercalate ⟨by decide, by decide⟩ fun text htext => ?_
  obtain ⟨segment, -, rfl⟩ := mem_map.mp htext
  exact unbroken_hexText segment

theorem unbroken_ipText : Unbroken (ipText ip).toList := by
  cases ip with
  | v4 bits => exact unbroken_ipv4Text _
  | v6 bits =>
    rw [ipText, ipv6Text]
    simp only
    split
    · rw [String.toList_append]
      exact Unbroken.append ⟨by decide, by decide⟩ (unbroken_ipv4Text _)
    split
    · rw [String.toList_append, String.toList_append]
      exact ((unbroken_hexSegments _).append ⟨by decide, by decide⟩).append
        (unbroken_hexSegments _)
    · exact unbroken_hexSegments _

/-! ## The parser -/

inductive ProxyVersion
  | v1 | v2
deriving DecidableEq

structure ProxyHeader where
  version : ProxyVersion
  srcAddr : SocketAddr
  dstAddr : SocketAddr
deriving DecidableEq

/-- `TransportError::ProxyProtocol`, the only error there is. -/
structure ProxyProtocolError where
  message : String
deriving DecidableEq

abbrev ProxyResult := Except ProxyProtocolError (Option (ProxyHeader × ℕ))

/-- What the parser has from the standard library: reading an address, and the
texts of errors. -/
structure NetText where
  parseIp : String → Except String IpAddr
  utf8Error : List UInt8 → String

/-- `SocketAddr::new(IpAddr::V4(Ipv4Addr::UNSPECIFIED), 0)`. -/
def unspecified : SocketAddr := ⟨.v4 0, 0⟩

def proxyV2Sig : List UInt8 := [13, 10, 13, 10, 0, 13, 10, 81, 85, 73, 84, 10]

/-- `windows(2).position(|w| w == b"\r\n")`. -/
def crlfPosition : List UInt8 → Option ℕ
  | a :: b :: rest =>
    if a = 13 ∧ b = 10 then some 0 else (crlfPosition (b :: rest)).map (· + 1)
  | _ => none

/-- A field of the text form. -/
def field {α : Type} (label : String) (parsed : Except String α) : Except ProxyProtocolError α :=
  parsed.mapError fun e => ⟨label ++ e⟩

def parsePort (text : String) : Except String UInt16 :=
  match Text.parseU16 text with
  | .ok n => .ok (UInt16.ofNat n)
  | .error e => .error e.text

/-- The line of the text form, without its end. -/
def parseV1Line (net : NetText) (line : String) : Except ProxyProtocolError ProxyHeader :=
  match Text.split ' ' line with
  | [_, protocol, srcIp, dstIp, srcPort, dstPort] =>
    if protocol ≠ "TCP4" ∧ protocol ≠ "TCP6" ∧ protocol ≠ "UNKNOWN" then
      .error ⟨"unsupported PROXY v1 protocol: " ++ protocol⟩
    else if protocol = "UNKNOWN" then .ok ⟨.v1, unspecified, unspecified⟩
    else do
      let srcIp ← field "invalid source IP: " (net.parseIp srcIp)
      let dstIp ← field "invalid dest IP: " (net.parseIp dstIp)
      let srcPort ← field "invalid source port: " (parsePort srcPort)
      let dstPort ← field "invalid dest port: " (parsePort dstPort)
      .ok ⟨.v1, ⟨srcIp, srcPort⟩, ⟨dstIp, dstPort⟩⟩
  | parts => .error ⟨"expected 6 fields in PROXY v1 header, got " ++ toString parts.length⟩

def parseV1 (net : NetText) (buf : List UInt8) : ProxyResult :=
  match crlfPosition buf with
  | none => .error ⟨"incomplete PROXY v1 header"⟩
  | some lineEnd =>
    match Text.fromUtf8 (buf.take lineEnd) with
    | none => .error ⟨"invalid UTF-8: " ++ net.utf8Error (buf.take lineEnd)⟩
    | some line => (parseV1Line net line).map fun header => some (header, lineEnd + 2)

/-- Two addresses of `width` bytes each, and two ports. -/
def socketPair (width : ℕ) (ip : ℕ → IpAddr) (addrData : List UInt8) : SocketAddr × SocketAddr :=
  let port (offset : ℕ) : UInt16 := UInt16.ofNat (beNat ((addrData.drop offset).take 2))
  (⟨ip (beNat (addrData.take width)), port (2 * width)⟩,
    ⟨ip (beNat ((addrData.drop width).take width)), port (2 * width + 2)⟩)

def v4OfNat (n : ℕ) : IpAddr := .v4 (BitVec.ofNat 32 n)

def v6OfNat (n : ℕ) : IpAddr := .v6 (BitVec.ofNat 128 n)

def parseAddrData (af proto : UInt8) (addrData : List UInt8) :
    Except ProxyProtocolError (SocketAddr × SocketAddr) :=
  if af = 1 ∧ proto = 1 then
    if addrData.length < 12 then .error ⟨"PROXY v2 IPv4 address data too short"⟩
    else .ok (socketPair 4 v4OfNat addrData)
  else if af = 2 ∧ proto = 1 then
    if addrData.length < 36 then .error ⟨"PROXY v2 IPv6 address data too short"⟩
    else .ok (socketPair 16 v6OfNat addrData)
  else
    .error ⟨"unsupported address family/protocol: af=" ++ toString af.toNat ++ ", proto=" ++
      toString proto.toNat⟩

/-- The binary form, once it is known to be complete. -/
def parseV2Fields (verCmd family : UInt8) (addrData : List UInt8) :
    Except ProxyProtocolError ProxyHeader :=
  let version := (verCmd >>> 4) &&& 0x0F
  let cmd := verCmd &&& 0x0F
  if version ≠ 2 then .error ⟨"unsupported PROXY version: " ++ toString version.toNat⟩
  else if cmd = 0 then .ok ⟨.v2, unspecified, unspecified⟩
  else if cmd ≠ 1 then .error ⟨"unsupported PROXY v2 command: " ++ toString cmd.toNat⟩
  else
    (parseAddrData ((family >>> 4) &&& 0x0F) (family &&& 0x0F) addrData).map fun pair =>
      ⟨.v2, pair.1, pair.2⟩

def parseV2 (buf : List UInt8) : ProxyResult :=
  match buf.drop 12 with
  | verCmd :: family :: lenHigh :: lenLow :: rest =>
    let len := beNat [lenHigh, lenLow]
    if rest.length < len then .error ⟨"PROXY v2 header truncated"⟩
    else (parseV2Fields verCmd family (rest.take len)).map fun header => some (header, 16 + len)
  | _ => .error ⟨"PROXY v2 header too short"⟩

def parseProxyHeader (net : NetText) (buf : List UInt8) : ProxyResult :=
  if buf.length < 8 then .ok none
  else if (Text.asBytes "PROXY ").isPrefixOf buf then parseV1 net buf
  else if 16 ≤ buf.length ∧ buf.take 12 = proxyV2Sig then parseV2 buf
  else .ok none

/-! ## The length -/

variable {src dst : SocketAddr} {header : ProxyHeader} {buf : List UInt8} {net : NetText}

theorem crlfPosition_le {i : ℕ} (h : crlfPosition buf = some i) : i + 2 ≤ buf.length := by
  induction buf generalizing i with
  | nil => cases h
  | cons a rest ih =>
    cases rest with
    | nil => cases h
    | cons b rest =>
      rw [crlfPosition] at h
      split at h
      · cases h
        simp
      obtain ⟨j, hj, rfl⟩ := Option.map_eq_some_iff.mp h
      have hle := ih hj
      simp only [length_cons] at hle ⊢
      omega

theorem length_of_map {result : Except ProxyProtocolError ProxyHeader} {m n : ℕ}
    (h : (result.map fun header => some (header, m)) = .ok (some (header, n))) : n = m := by
  cases result with
  | error e => cases h
  | ok found =>
    cases h
    rfl

theorem parseV1_length {n : ℕ} (h : parseV1 net buf = .ok (some (header, n))) : n ≤ buf.length := by
  rw [parseV1] at h
  split at h
  · cases h
  next lineEnd hposition =>
    split at h
    · cases h
    · rw [length_of_map h]
      exact crlfPosition_le hposition

theorem parseV2_length {n : ℕ} (h : parseV2 buf = .ok (some (header, n))) : n ≤ buf.length := by
  rw [parseV2] at h
  split at h
  · next verCmd family lenHigh lenLow rest hdrop =>
      have hlength := congrArg length hdrop
      simp only [length_drop, length_cons] at hlength
      simp only at h
      split at h
      · cases h
      · rw [length_of_map h]
        omega
  · cases h

theorem parseProxyHeader_length {n : ℕ}
    (h : parseProxyHeader net buf = .ok (some (header, n))) : n ≤ buf.length := by
  rw [parseProxyHeader] at h
  split at h
  · cases h
  split at h
  · exact parseV1_length h
  split at h
  · exact parseV2_length h
  · cases h

/-! ## The text form -/

def v1Protocol : IpAddr → String
  | .v4 _ => "TCP4"
  | .v6 _ => "TCP6"

/-- The fields a proxy writes for two addresses of one family. -/
def v1Fields (src dst : SocketAddr) : List String :=
  ["PROXY", v1Protocol src.ip, ipText src.ip, ipText dst.ip, toString src.port.toNat,
    toString dst.port.toNat]

def v1Line (src dst : SocketAddr) : String := " ".intercalate (v1Fields src dst)

def v1Header (src dst : SocketAddr) : List UInt8 := Text.asBytes (v1Line src dst) ++ [13, 10]

theorem unbroken_v1Protocol : Unbroken (v1Protocol ip).toList := by
  cases ip with
  | v4 bits =>
    show Unbroken "TCP4".toList
    exact ⟨by decide, by decide⟩
  | v6 bits =>
    show Unbroken "TCP6".toList
    exact ⟨by decide, by decide⟩

theorem unbroken_v1Fields (src dst : SocketAddr) :
    ∀ text ∈ v1Fields src dst, Unbroken text.toList := by
  simp only [v1Fields, forall_mem_cons]
  exact ⟨⟨by decide, by decide⟩, unbroken_v1Protocol _, unbroken_ipText _, unbroken_ipText _,
    unbroken_toString _, unbroken_toString _, fun _ h => nomatch h⟩

theorem split_v1Line (src dst : SocketAddr) :
    Text.split ' ' (v1Line src dst) = v1Fields src dst := by
  have hline : v1Line src dst =
      String.ofList ([' '].intercalate ((v1Fields src dst).map String.toList)) := by
    rw [v1Line, ← String.toList_inj, String.toList_intercalate, String.toList_ofList,
      String.toList_ofList]
  rw [hline]
  exact Text.split_intercalate (cons_ne_nil _ _)
    fun text htext => (unbroken_v1Fields src dst text htext).1

theorem lf_notMem_v1Line (src dst : SocketAddr) : 10 ∉ Text.asBytes (v1Line src dst) := by
  rw [Text.lf_mem_asBytes]
  exact notMem_intercalate (by decide) fun text htext => (unbroken_v1Fields src dst text htext).2

theorem crlfPosition_append {line : List UInt8} (hline : 10 ∉ line) (rest : List UInt8) :
    crlfPosition (line ++ 13 :: 10 :: rest) = some line.length := by
  induction line with
  | nil => rfl
  | cons a line ih =>
    rw [mem_cons, not_or] at hline
    have hrest := ih hline.2
    -- what follows `a` is in the line, or the first byte of the line break
    obtain ⟨b, tail, htail, hb⟩ : ∃ b tail, line ++ 13 :: 10 :: rest = b :: tail ∧ b ≠ 10 := by
      cases line with
      | nil => exact ⟨13, 10 :: rest, rfl, by decide⟩
      | cons b line => exact ⟨b, _, rfl, fun h => hline.2 (h ▸ mem_cons_self)⟩
    rw [cons_append, htail, crlfPosition, if_neg fun h => hb h.2, ← htail, hrest]
    rfl

theorem parsePort_toString (port : UInt16) : parsePort (toString port.toNat) = .ok port := by
  rw [parsePort, Text.parseU16_toString port.toNat_lt]
  exact congrArg Except.ok UInt16.ofNat_toNat

theorem parseV1Line_v1Line (hsrc : net.parseIp (ipText src.ip) = .ok src.ip)
    (hdst : net.parseIp (ipText dst.ip) = .ok dst.ip) :
    parseV1Line net (v1Line src dst) = .ok ⟨.v1, src, dst⟩ := by
  have hknown : v1Protocol src.ip = "TCP4" ∨ v1Protocol src.ip = "TCP6" := by
    cases src.ip with
    | v4 bits => exact .inl rfl
    | v6 bits => exact .inr rfl
  have hunknown : v1Protocol src.ip ≠ "UNKNOWN" := by
    rcases hknown with h | h <;> rw [h] <;> decide
  rw [parseV1Line, split_v1Line]
  simp only [v1Fields]
  rw [if_neg fun h => hknown.elim h.1 h.2.1, if_neg hunknown, hsrc, hdst, parsePort_toString,
    parsePort_toString]
  rfl

theorem v1Line_eq_append (src dst : SocketAddr) :
    v1Line src dst = "PROXY " ++ " ".intercalate (v1Fields src dst).tail := by
  rw [← String.toList_inj, v1Line, String.toList_append, String.toList_intercalate,
    String.toList_intercalate]
  rfl

theorem parseProxyHeader_v1Header (hsrc : net.parseIp (ipText src.ip) = .ok src.ip)
    (hdst : net.parseIp (ipText dst.ip) = .ok dst.ip) (rest : List UInt8) :
    parseProxyHeader net (v1Header src dst ++ rest) =
      .ok (some (⟨.v1, src, dst⟩, (v1Header src dst).length)) := by
  have hfields := congrArg Text.asBytes (v1Line_eq_append src dst)
  rw [Text.asBytes_append] at hfields
  have hlength : ¬ (v1Header src dst ++ rest).length < 8 := by
    have hproxy : (Text.asBytes "PROXY ").length = 6 := by decide
    rw [v1Header, hfields]
    simp only [length_append, hproxy, length_cons, length_nil]
    omega
  have hstarts : (Text.asBytes "PROXY ").isPrefixOf (v1Header src dst ++ rest) := by
    rw [ isPrefixOf_iff_prefix, v1Header, hfields]
    simp only [append_assoc]
    exact prefix_append _ _
  have hbuf : v1Header src dst ++ rest = Text.asBytes (v1Line src dst) ++ 13 :: 10 :: rest := by
    rw [v1Header, append_assoc]
    rfl
  rw [parseProxyHeader, if_neg hlength, if_pos hstarts, parseV1, hbuf,
    crlfPosition_append (lf_notMem_v1Line src dst)]
  simp only [take_left, Text.fromUtf8_eq_some.mpr rfl]
  rw [parseV1Line_v1Line hsrc hdst, v1Header, length_append]
  rfl

/-! ## The binary form -/

/-- The number of an address, and how many bytes it takes. -/
def ipNat : IpAddr → ℕ
  | .v4 bits => bits.toNat
  | .v6 bits => bits.toNat

def ipWidth : IpAddr → ℕ
  | .v4 _ => 4
  | .v6 _ => 16

def sameFamily : IpAddr → IpAddr → Bool
  | .v4 _, .v4 _ => true
  | .v6 _, .v6 _ => true
  | _, _ => false

/-- `AF_INET` or `AF_INET6`, with `STREAM`. -/
def v2Family : IpAddr → UInt8
  | .v4 _ => 0x11
  | .v6 _ => 0x21

def v2AddrData (src dst : SocketAddr) (ext : List UInt8) : List UInt8 :=
  beBytes (ipWidth src.ip) (ipNat src.ip) ++ (beBytes (ipWidth dst.ip) (ipNat dst.ip) ++
    (beBytes 2 src.port.toNat ++ (beBytes 2 dst.port.toNat ++ ext)))

def v2Header (src dst : SocketAddr) (ext : List UInt8) : List UInt8 :=
  proxyV2Sig ++ (0x21 :: v2Family src.ip ::
    (beBytes 2 (v2AddrData src dst ext).length ++ v2AddrData src dst ext))

theorem socketPair_append {width : ℕ} (ip : ℕ → IpAddr) {m n : ℕ} (hm : m < 256 ^ width)
    (hn : n < 256 ^ width) (p q : UInt16) (ext : List UInt8) :
    socketPair width ip (beBytes width m ++ (beBytes width n ++ (beBytes 2 p.toNat ++
      (beBytes 2 q.toNat ++ ext)))) = (⟨ip m, p⟩, ⟨ip n, q⟩) := by
  have hport (p : UInt16) : UInt16.ofNat (beNat (beBytes 2 p.toNat)) = p := by
    rw [beNat_beBytes p.toNat_lt, UInt16.ofNat_toNat]
  generalize hdata : beBytes width m ++ (beBytes width n ++ (beBytes 2 p.toNat ++
    (beBytes 2 q.toNat ++ ext))) = data
  have hdst : data.drop width =
      beBytes width n ++ (beBytes 2 p.toNat ++ (beBytes 2 q.toNat ++ ext)) := by
    rw [← hdata]
    exact drop_left' (length_beBytes width m)
  have hports : data.drop (2 * width) = beBytes 2 p.toNat ++ (beBytes 2 q.toNat ++ ext) := by
    rw [Nat.two_mul, ← drop_drop, hdst]
    exact drop_left' (length_beBytes width n)
  have hlast : data.drop (2 * width + 2) = beBytes 2 q.toNat ++ ext := by
    rw [← drop_drop, hports]
    exact drop_left' (length_beBytes 2 p.toNat)
  have hsrc : data.take width = beBytes width m := by
    rw [← hdata]
    exact take_left' (length_beBytes width m)
  rw [socketPair]
  simp only [hsrc, hdst, hports, hlast, take_left' (length_beBytes _ _), hport,
    beNat_beBytes hm, beNat_beBytes hn]

theorem ipNat_lt : ipNat ip < 256 ^ ipWidth ip := by
  cases ip with
  | v4 bits => exact bits.isLt
  | v6 bits => exact bits.isLt

theorem le_length_v2AddrData (src dst : SocketAddr) (ext : List UInt8) :
    ipWidth src.ip + ipWidth dst.ip + 4 ≤ (v2AddrData src dst ext).length := by
  simp only [v2AddrData, length_append, length_beBytes]
  omega

theorem parseAddrData_v2AddrData (hfamily : sameFamily src.ip dst.ip) (ext : List UInt8) :
    parseAddrData ((v2Family src.ip >>> 4) &&& 0x0F) (v2Family src.ip &&& 0x0F)
      (v2AddrData src dst ext) = .ok (src, dst) := by
  obtain ⟨srcIp, srcPort⟩ := src
  obtain ⟨dstIp, dstPort⟩ := dst
  have hlength := le_length_v2AddrData ⟨srcIp, srcPort⟩ ⟨dstIp, dstPort⟩ ext
  have hsrc := ipNat_lt srcIp
  have hdst := ipNat_lt dstIp
  cases srcIp with
  | v4 srcBits =>
    cases dstIp with
    | v6 dstBits => cases hfamily
    | v4 dstBits =>
      simp only [ipWidth] at hlength
      have hread := socketPair_append v4OfNat hsrc hdst srcPort dstPort ext
      simp only [v4OfNat, ipNat, ipWidth, BitVec.ofNat_toNat, BitVec.setWidth_eq] at hread
      rw [v2Family, parseAddrData, if_pos (by decide), if_neg hlength.not_gt]
      exact congrArg Except.ok hread
  | v6 srcBits =>
    cases dstIp with
    | v4 dstBits => cases hfamily
    | v6 dstBits =>
      simp only [ipWidth] at hlength
      have hread := socketPair_append v6OfNat hsrc hdst srcPort dstPort ext
      simp only [v6OfNat, ipNat, ipWidth, BitVec.ofNat_toNat, BitVec.setWidth_eq] at hread
      rw [v2Family, parseAddrData, if_neg (by decide), if_pos (by decide), if_neg hlength.not_gt]
      exact congrArg Except.ok hread

theorem parseV2Fields_v2AddrData (hfamily : sameFamily src.ip dst.ip) (ext : List UInt8) :
    parseV2Fields 0x21 (v2Family src.ip) (v2AddrData src dst ext) = .ok ⟨.v2, src, dst⟩ := by
  rw [parseV2Fields, if_neg (by decide), if_neg (by decide), if_neg (by decide),
    parseAddrData_v2AddrData hfamily]
  rfl

theorem parseProxyHeader_v2Header (net : NetText) (hfamily : sameFamily src.ip dst.ip)
    {ext : List UInt8} (hfits : (v2AddrData src dst ext).length < 2 ^ 16) (rest : List UInt8) :
    parseProxyHeader net (v2Header src dst ext ++ rest) =
      .ok (some (⟨.v2, src, dst⟩, (v2Header src dst ext).length)) := by
  have hparse := parseV2Fields_v2AddrData hfamily ext
  generalize hheader : v2Header src dst ext = header
  rw [v2Header] at hheader
  generalize v2AddrData src dst ext = addrData at hparse hfits hheader
  have hlen : beNat [UInt8.ofNat (addrData.length / 256), UInt8.ofNat addrData.length] =
      addrData.length := by
    show beNat (beBytes 2 addrData.length) = addrData.length
    exact beNat_beBytes hfits
  have hlength : header.length = 16 + addrData.length := by
    rw [← hheader]
    simp only [length_append, length_cons, length_beBytes]
    show 12 + _ = _
    omega
  have hdrop : (header ++ rest).drop 12 = 0x21 :: v2Family src.ip ::
      UInt8.ofNat (addrData.length / 256) :: UInt8.ofNat addrData.length :: (addrData ++ rest) := by
    rw [← hheader]
    rfl
  have hnotV1 : (Text.asBytes "PROXY ").isPrefixOf (header ++ rest) = false := by
    rw [← hheader]
    rfl
  have hsig : 16 ≤ (header ++ rest).length ∧ (header ++ rest).take 12 = proxyV2Sig := by
    refine ⟨by rw [length_append]; omega, ?_⟩
    rw [← hheader]
    rfl
  have hcomplete : ¬ (addrData ++ rest).length < addrData.length := by
    rw [length_append]
    omega
  rw [parseProxyHeader, if_neg (by omega), hnotV1, if_neg Bool.false_ne_true, if_pos hsig, parseV2,
    hdrop]
  simp only [hlen]
  rw [if_neg hcomplete, take_left, hparse, hlength]
  rfl

/-- **Headers decode exactly.** Where reading an address undoes printing it, the
text form of two addresses of one family, whatever follows, gives these
addresses and the length of the header; so does the binary form with any
extension its length field can count. No returned length exceeds the buffer. -/
theorem parseProxyHeader_exact (net : NetText) :
    (∀ src dst : SocketAddr, sameFamily src.ip dst.ip →
      net.parseIp (ipText src.ip) = .ok src.ip → net.parseIp (ipText dst.ip) = .ok dst.ip →
      ∀ rest, parseProxyHeader net (v1Header src dst ++ rest) =
        .ok (some (⟨.v1, src, dst⟩, (v1Header src dst).length))) ∧
    (∀ (src dst : SocketAddr) (ext : List UInt8), sameFamily src.ip dst.ip →
      (v2AddrData src dst ext).length < 2 ^ 16 →
      ∀ rest, parseProxyHeader net (v2Header src dst ext ++ rest) =
        .ok (some (⟨.v2, src, dst⟩, (v2Header src dst ext).length))) ∧
    ∀ buf header n, parseProxyHeader net buf = .ok (some (header, n)) → n ≤ buf.length := by
  refine ⟨?_, ?_, ?_⟩
  · intro src dst _ hsrc hdst rest
    exact parseProxyHeader_v1Header hsrc hdst rest
  · intro src dst ext hfamily hfits rest
    exact parseProxyHeader_v2Header net hfamily hfits rest
  · intro buf header n h
    exact parseProxyHeader_length h

def loopbackText : NetText where
  parseIp text :=
    if text = ipText (.v4 0x7F000001) then .ok (.v4 0x7F000001)
    else if text = ipText (.v6 1) then .ok (.v6 1)
    else .error "invalid IP address syntax"
  utf8Error _ := "invalid utf-8 sequence"

theorem parseProxyHeader_exact_loopback :
    parseProxyHeader loopbackText (v1Header ⟨.v6 1, 56324⟩ ⟨.v6 1, 443⟩ ++ [71, 69, 84]) =
      .ok (some (⟨.v1, ⟨.v6 1, 56324⟩, ⟨.v6 1, 443⟩⟩, 30)) ∧
    parseProxyHeader loopbackText
        (v2Header ⟨.v4 0x7F000001, 56324⟩ ⟨.v4 0x7F000001, 443⟩ [4, 0, 1, 0] ++ [71, 69, 84]) =
      .ok (some (⟨.v2, ⟨.v4 0x7F000001, 56324⟩, ⟨.v4 0x7F000001, 443⟩⟩, 32)) := by
  have hexact := parseProxyHeader_exact loopbackText
  have hv1 := hexact.1 ⟨.v6 1, 56324⟩ ⟨.v6 1, 443⟩ (by decide) (by decide +kernel)
    (by decide +kernel) [71, 69, 84]
  have hv2 := hexact.2.1 ⟨.v4 0x7F000001, 56324⟩ ⟨.v4 0x7F000001, 443⟩ [4, 0, 1, 0] (by decide)
    (by decide +kernel) [71, 69, 84]
  rw [show (v1Header ⟨.v6 1, 56324⟩ ⟨.v6 1, 443⟩).length = 30 by decide +kernel] at hv1
  exact ⟨hv1, hv2⟩

end VarahaCache.Transport
