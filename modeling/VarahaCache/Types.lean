import Mathlib

/-!
# Basic types

The vocabulary of `rv-types`: clock values, digests, object flags, methods
and status codes. Seconds are exact rationals where the program has `f64`.
-/

namespace VarahaCache

/-- Wall-clock time, in seconds. -/
abbrev VtimReal := ℚ

abbrev VtimDur := ℚ

/-- A SHA-256 digest, the cache key. -/
structure Digest where
  bytes : Vector UInt8 32
deriving DecidableEq, Repr

/-- Flags of a cached object, as the bits the program keeps. -/
structure ObjCoreFlags where
  bits : UInt8
deriving DecidableEq, Repr

namespace ObjCoreFlags

def withdrawn : ObjCoreFlags := ⟨0x01⟩
def busy : ObjCoreFlags := ⟨0x02⟩
def hfp : ObjCoreFlags := ⟨0x08⟩
def dying : ObjCoreFlags := ⟨0x80⟩

def empty : ObjCoreFlags := ⟨0⟩

def contains (self other : ObjCoreFlags) : Bool := self.bits &&& other.bits == other.bits

end ObjCoreFlags

inductive HttpMethod
  | get | head | post | put | delete | options | trace | patch | connect | unknown
deriving DecidableEq, Repr

namespace HttpMethod

def name : HttpMethod → String
  | .get => "GET"
  | .head => "HEAD"
  | .post => "POST"
  | .put => "PUT"
  | .delete => "DELETE"
  | .options => "OPTIONS"
  | .trace => "TRACE"
  | .patch => "PATCH"
  | .connect => "CONNECT"
  | .unknown => "UNKNOWN"

def parseMethod : String → HttpMethod
  | "GET" => .get
  | "HEAD" => .head
  | "POST" => .post
  | "PUT" => .put
  | "DELETE" => .delete
  | "OPTIONS" => .options
  | "TRACE" => .trace
  | "PATCH" => .patch
  | "CONNECT" => .connect
  | _ => .unknown

end HttpMethod

inductive HttpVersion
  | http10 | http11 | http2
deriving DecidableEq, Repr

namespace HttpVersion

def asStr : HttpVersion → String
  | .http10 => "HTTP/1.0"
  | .http11 => "HTTP/1.1"
  | .http2 => "HTTP/2"

def fromStr : String → Option HttpVersion
  | "HTTP/1.0" => some .http10
  | "HTTP/1.1" => some .http11
  | "HTTP/2" => some .http2
  | "HTTP/2.0" => some .http2
  | _ => none

end HttpVersion

inductive BodyStatus
  | none | error | chunked | length | eof | taken | cached
deriving DecidableEq, Repr

structure HttpStatus where
  code : UInt16
deriving DecidableEq, Repr

namespace HttpStatus

def ok : HttpStatus := ⟨200⟩
def noContent : HttpStatus := ⟨204⟩
def partialContent : HttpStatus := ⟨206⟩
def notModified : HttpStatus := ⟨304⟩
def rangeNotSatisfiable : HttpStatus := ⟨416⟩
def internalServerError : HttpStatus := ⟨500⟩
def badGateway : HttpStatus := ⟨502⟩
def serviceUnavailable : HttpStatus := ⟨503⟩

def isInformational (s : HttpStatus) : Bool := 100 ≤ s.code && s.code < 200

def reason (s : HttpStatus) : String :=
  match s.code.toNat with
  | 100 => "Continue"
  | 101 => "Switching Protocols"
  | 102 => "Processing"
  | 103 => "Early Hints"
  | 200 => "OK"
  | 201 => "Created"
  | 202 => "Accepted"
  | 203 => "Non-Authoritative Information"
  | 204 => "No Content"
  | 205 => "Reset Content"
  | 206 => "Partial Content"
  | 300 => "Multiple Choices"
  | 301 => "Moved Permanently"
  | 302 => "Found"
  | 303 => "See Other"
  | 304 => "Not Modified"
  | 307 => "Temporary Redirect"
  | 308 => "Permanent Redirect"
  | 400 => "Bad Request"
  | 401 => "Unauthorized"
  | 403 => "Forbidden"
  | 404 => "Not Found"
  | 405 => "Method Not Allowed"
  | 406 => "Not Acceptable"
  | 408 => "Request Timeout"
  | 409 => "Conflict"
  | 410 => "Gone"
  | 411 => "Length Required"
  | 412 => "Precondition Failed"
  | 413 => "Payload Too Large"
  | 414 => "URI Too Long"
  | 415 => "Unsupported Media Type"
  | 416 => "Range Not Satisfiable"
  | 417 => "Expectation Failed"
  | 421 => "Misdirected Request"
  | 425 => "Too Early"
  | 426 => "Upgrade Required"
  | 429 => "Too Many Requests"
  | 431 => "Request Header Fields Too Large"
  | 500 => "Internal Server Error"
  | 501 => "Not Implemented"
  | 502 => "Bad Gateway"
  | 503 => "Service Unavailable"
  | 504 => "Gateway Timeout"
  | 505 => "HTTP Version Not Supported"
  | _ => "Unknown"

end HttpStatus

inductive IpAddr
  | v4 (bits : BitVec 32)
  | v6 (bits : BitVec 128)
deriving DecidableEq, Repr

def IpAddr.localhost : IpAddr := .v4 0x7F000001#32

structure SocketAddr where
  ip : IpAddr
  port : UInt16
deriving DecidableEq, Repr

end VarahaCache
