import VarahaCache.Http.Message

/-!
# The interface between VCL and the request path

What `rv-vcl` and the runtime exchange: values, the actions a subroutine
may return, and the context it reads and writes. The subroutines
themselves are a parameter: ANY function of the context, which may answer
differently from call to call.
-/

namespace VarahaCache

open Text

inductive VclValue
  | string (s : String)
  | int (i : Int64)
  | real (r : ℚ)
  | duration (d : ℚ)
  | bool (b : Bool)
  | ip (a : IpAddr)
  | blob (data : List UInt8)
  | void
deriving DecidableEq

/-- A duration text in seconds: a number with a unit, the longer spelling
first, or a bare number. -/
def parseDurationStr (s : String) : ℚ :=
  let s := trim s
  let number := fun t => (parseF64 (trim t)).getD 0
  match stripSuffix "ms" s with
  | some num => number num / 1000
  | none =>
  match stripSuffix "min" s with
  | some num => number num * 60
  | none =>
  match stripSuffix "s" s with
  | some num => number num
  | none =>
  match stripSuffix "m" s with
  | some num => number num * 60
  | none =>
  match stripSuffix "h" s with
  | some num => number num * 3600
  | none =>
  match stripSuffix "d" s with
  | some num => number num * 86400
  | none => (parseF64 s).getD 0

example : parseDurationStr " 2 min" = 120 := by decide +kernel

def VclValue.toDurationSecs : VclValue → ℚ
  | .duration d => d
  | .real r => r
  | .int i => i.toInt
  | .string s => parseDurationStr s
  | _ => 0

inductive InterpreterAction
  | deliver | pass | pipe | hash | lookup | fetch | synth | purge | restart | retry | abandon
  | fail | error | ok
deriving DecidableEq

/-- The actions the request state machine knows. -/
inductive VclAction
  | lookup | pass | pipe | hash | purge | synth | restart | deliver | fetch | retry | fail
deriving DecidableEq

def convertAction : InterpreterAction → VclAction
  | .deliver => .deliver
  | .pass => .pass
  | .pipe => .pipe
  | .hash => .hash
  | .lookup => .lookup
  | .fetch => .fetch
  | .synth => .synth
  | .purge => .purge
  | .restart => .restart
  | .retry => .retry
  | .fail => .fail
  | .abandon => .fail
  | .error => .fail
  | .ok => .deliver

variable {a : InterpreterAction}

@[simp] theorem convertAction_eq_restart :
    convertAction a = .restart ↔ a = .restart := by
  cases a <;> decide

@[simp] theorem convertAction_eq_pipe :
    convertAction a = .pipe ↔ a = .pipe := by
  cases a <;> decide

inductive VclExecResult
  | action (a : InterpreterAction)
  | fallthrough
  | error (message : String)
deriving DecidableEq

structure VclContext where
  req : HttpMessage
  resp : HttpMessage
  bereq : HttpMessage
  beresp : HttpMessage
  clientIp : IpAddr := .localhost
  serverIp : IpAddr := .localhost
  isSsl : Bool := false
  restarts : Nat := 0
  objHits : Int := 0
  objTtl : ℚ := 0
  objGrace : ℚ := 0
  objKeep : ℚ := 0
  synthBody : Option String := none
  synthStatus : Option UInt16 := none
  localVars : List (String × VclValue) := []
  doGzip : Bool := false
  doGunzip : Bool := false
  uncacheable : Bool := false
  reqBody : Option (List UInt8) := none
  respBody : Option (List UInt8) := none
deriving DecidableEq

inductive VclSub
  | recv | hit | miss | pass | backendFetch | backendResponse | deliver | synth
deriving DecidableEq

/-- A loaded program: `exec_subroutine`, at a given point of the run. Every
call returns. -/
def VclInterpreter := Nat → VclSub → VclContext → VclExecResult × VclContext

end VarahaCache
